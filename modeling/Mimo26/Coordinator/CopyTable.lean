import Mimo26.Coordinator.CopyPlain

/-!
# Copy windows as they are stored

The index of `copy.rs` on its own types: positions are `u32`s, the largest one stands for none, and
every subtraction, subscript and slice is a step that can fail, where the program would panic.

Contexts hold `u32` token ids and are shorter than a `u32` can count.

## Main definitions

* `CopyTable`, `propose` — the index and a proposal, with every access checked
* `CopyTable.runs` — the index after a sequence of proposals
* `Stores` — it holds a `CopyIndex`

## Main results

* `Stores.propose` — no access fails, and the proposal is that of the index
* `proposals_exact` — after any growing contexts, and from a fresh index, the proposal is the plain
  one
-/

namespace Mimo26

namespace Coordinator

open HashChain

/-- `NONE`: no position. -/
def noPosition : UInt32 := 4294967295

/-- A difference, if it is not negative. -/
def minus (a b : ℕ) : Option ℕ := if b ≤ a then some (a - b) else none

/-- The slice from `lo` up to `hi`, if there is one. -/
def slice (t : List ℕ) (lo hi : ℕ) : Option (List ℕ) :=
  if lo ≤ hi ∧ hi ≤ t.length then some ((t.drop lo).take (hi - lo)) else none

/-- The gram of the first tokens, if there are that many. -/
def gramOf (t : List ℕ) : Option (List UInt32) :=
  if matchTokens ≤ t.length then some (gram (t.take matchTokens)) else none

/-- A request's index, as it is stored. -/
structure CopyTable where
  /-- The last position of each gram seen. -/
  head : List UInt32 → Option UInt32 := fun _ => none
  /-- The position before each one with the same gram. -/
  prev : List UInt32 := []

namespace CopyTable

/-- Index position `p`. -/
def push (ctx : List ℕ) (c : CopyTable) (p : ℕ) : Option CopyTable :=
  if p + 1 < matchTokens then some { c with prev := c.prev ++ [noPosition] }
  else do
    let lo ← minus (p + 1) matchTokens
    let g ← gramOf (← slice ctx lo (p + 1))
    some
      { head := Function.update c.head g (some (UInt32.ofNat p))
        prev := c.prev ++ [(c.head g).getD noPosition] }

/-- How far the tokens up to `q` match the end of the context, in `n` more rounds from `len`. -/
def matchLoop (ctx : List ℕ) (q : ℕ) : ℕ → ℕ → Option ℕ
  | 0, len => some len
  | n + 1, len =>
    if len ≤ q then do
      let i ← minus q len
      let last ← minus ctx.length 1
      let j ← minus last len
      if (← ctx[i]?) = (← ctx[j]?) then matchLoop ctx q n (len + 1) else some len
    else some len

/-- The occurrence matching furthest back among `n` from `p` on, ties to the most recent, and how
far it matches. -/
def search (ctx : List ℕ) (prev : List UInt32) : ℕ → UInt32 → UInt32 × ℕ → Option (UInt32 × ℕ)
  | 0, _, best => some best
  | n + 1, p, best =>
    if p = noPosition then some best
    else do
      let q := p.toNat
      let len ← matchLoop ctx q (extendTokens - matchTokens) matchTokens
      if best.2 < len then
        if len = extendTokens then some (p, len)
        else search ctx prev n (← prev[q]?) (p, len)
      else search ctx prev n (← prev[q]?) best

/-- `k` tokens from position `start` on; past the end the copy repeats itself. -/
def copyFrom (ctx : List ℕ) (start k : ℕ) : Option (List ℕ) :=
  (List.range k).foldlM (fun out j =>
    if start + j < ctx.length then ctx[start + j]?.map fun t => out ++ [t]
    else (minus (start + j) ctx.length).bind fun i => out[i]?.map fun t => out ++ [t]) []

/-- Up to `k` tokens to copy after `ctx`. -/
def propose (c : CopyTable) (ctx : List ℕ) (k : ℕ) : Option (CopyTable × List ℕ) :=
  if k < 2 ∨ ctx.length ≤ matchTokens then some (c, [])
  else do
    let last ← minus ctx.length 1
    let c ← (List.range' c.prev.length (last - c.prev.length)).foldlM (push ctx) c
    let lo ← minus ctx.length matchTokens
    let g ← gramOf (← slice ctx lo ctx.length)
    match c.head g with
    | none => some (c, [])
    | some newest => do
      let best ← search ctx c.prev candidates newest (noPosition, 0)
      let out ← copyFrom ctx (best.1.toNat + 1) k
      some (c, out)

/-- The index after proposals for each context of `calls`. -/
def runs (c : CopyTable) (calls : List (List ℕ × ℕ)) : Option CopyTable :=
  calls.foldlM (fun c call => (c.propose call.1 call.2).map Prod.fst) c

end CopyTable

/-! ### The index it holds -/

/-- An optional position as it is stored. -/
def stored (p : Option ℕ) : UInt32 := p.elim noPosition UInt32.ofNat

/-- The table holds the index. -/
structure Stores (t : CopyTable) (c : CopyIndex) : Prop where
  head : ∀ g, t.head g = (c.head g).map UInt32.ofNat
  prev : t.prev = c.prev.map stored

theorem stores_empty : Stores {} {} := ⟨fun _ => rfl, rfl⟩

variable {t : CopyTable} {c : CopyIndex} {ctx : List ℕ} {k : ℕ}

theorem Stores.length (h : Stores t c) : t.prev.length = c.prev.length := by
  rw [h.prev, List.length_map]

theorem minus_eq {a b : ℕ} (h : b ≤ a) : minus a b = some (a - b) := if_pos h

theorem getElem?_eq_getD {l : List ℕ} {i : ℕ} (h : i < l.length) : l[i]? = some (l.getD i 0) := by
  rw [List.getD_eq_getElem?_getD, List.getElem?_eq_getElem h, Option.getD_some]

theorem toNat_stored {p : ℕ} (hp : p < 4294967295) : (stored (some p)).toNat = p :=
  UInt32.toNat_ofNat_of_lt' (Nat.lt_trans hp (by decide))

theorem stored_ne {p : ℕ} (hp : p < 4294967295) : stored (some p) ≠ noPosition := by
  intro h
  have hp' := toNat_stored hp
  rw [h] at hp'
  exact Nat.ne_of_lt hp hp'.symm

/-- A gram with its tokens in the context is read. -/
theorem gramOf_slice {lo hi : ℕ} (hlo : lo + matchTokens = hi) (hhi : hi ≤ ctx.length) :
    ∃ s, slice ctx lo hi = some s ∧ gramOf s = some (gram ((ctx.drop lo).take matchTokens)) := by
  have hlen : ((ctx.drop lo).take matchTokens).length = matchTokens := by
    rw [List.length_take, List.length_drop]
    omega
  refine ⟨(ctx.drop lo).take matchTokens, ?_, ?_⟩
  · rw [slice, if_pos ⟨by omega, hhi⟩, show hi - lo = matchTokens by omega]
  · rw [gramOf, if_pos (Nat.le_of_eq hlen.symm), List.take_take, Nat.min_self]

/-- **One more position.** -/
theorem Stores.push {p : ℕ} (h : Stores t c) (hp : p < ctx.length) :
    ∃ t', t.push ctx p = some t' ∧ Stores t' (c.push ctx p) := by
  rw [CopyTable.push, CopyIndex.push, gramAt]
  split
  · exact ⟨_, rfl, h.head, by rw [List.map_append, ← h.prev]; rfl⟩
  · next hle =>
    obtain ⟨s, hslice, hgram⟩ := @gramOf_slice ctx _ _
      (show p + 1 - matchTokens + matchTokens = p + 1 by omega) hp
    rw [minus_eq (by omega), Option.bind_eq_bind, Option.bind_some, hslice, Option.bind_eq_bind,
      Option.bind_some, hgram, Option.bind_eq_bind, Option.bind_some]
    refine ⟨_, rfl, fun g => ?_, ?_⟩
    · dsimp only
      rw [Function.update_apply, Function.update_apply]
      split
      · rfl
      · exact h.head g
    · dsimp only
      rw [List.map_append, ← h.prev, h.head]
      congr 2
      cases c.head (gram ((ctx.drop (p + 1 - matchTokens)).take matchTokens)) <;> rfl

theorem Stores.foldl {m : ℕ} (n : ℕ) (h : Stores t c) (hn : m + n ≤ ctx.length) :
    ∃ t', (List.range' m n).foldlM (CopyTable.push ctx) t = some t' ∧
      Stores t' ((List.range' m n).foldl (CopyIndex.push ctx) c) := by
  induction n generalizing t c m with
  | zero => exact ⟨t, rfl, h⟩
  | succ n ih =>
    obtain ⟨t', hpush, h'⟩ := h.push (show m < ctx.length by omega)
    rw [List.range'_succ, List.foldlM_cons, hpush, Option.bind_eq_bind, Option.bind_some,
      List.foldl_cons]
    exact ih h' (by omega)

/-! ### Searching and copying -/

theorem matchLoop_checked {q : ℕ} (hq : q + 1 < ctx.length) (n len : ℕ) :
    CopyTable.matchLoop ctx q n len = some (matchLoop ctx q n len) := by
  induction n generalizing len with
  | zero => rfl
  | succ n ih =>
    rw [CopyTable.matchLoop, matchLoop]
    by_cases hlen : len ≤ q
    · have hi := getElem?_eq_getD (show q - len < ctx.length by omega)
      have hj := getElem?_eq_getD (show ctx.length - 1 - len < ctx.length by omega)
      have hlast := minus_eq (show 1 ≤ ctx.length by omega)
      have hj' := minus_eq (show len ≤ ctx.length - 1 by omega)
      rw [if_pos hlen]
      simp only [minus_eq hlen, hlast, hj', hi, hj, Option.bind_eq_bind, Option.bind_some]
      by_cases heq : ctx.getD (q - len) 0 = ctx.getD (ctx.length - 1 - len) 0
      · rw [if_pos heq, if_pos ⟨hlen, heq⟩, ih]
      · rw [if_neg heq, if_neg fun h => heq h.2]
    · rw [if_neg hlen, if_neg fun h => hlen h.1]

/-- What the search has found so far, as it is stored. -/
def storedBest (best : Option ℕ × ℕ) : UInt32 × ℕ := (stored best.1, best.2)

/-- **The search** follows the chain of a gram through the table. -/
theorem Stores.search {m m' : ℕ} {g : List UInt32} (h : Stores t c)
    (hc : Chained (gramAt ctx) m c.head c.prev) (hm : m < ctx.length) (hsmall : m ≤ 4294967295)
    (hm' : m' ≤ m) (n : ℕ) (best : Option ℕ × ℕ) :
    CopyTable.search ctx t.prev n (stored (HashChain.positions (gramAt ctx) g m').head?)
        (storedBest best) =
      some (storedBest (search ctx c.prev n (HashChain.positions (gramAt ctx) g m').head? best)) := by
  induction n generalizing m' best with
  | zero => rfl
  | succ n ih =>
    cases hps : HashChain.positions (gramAt ctx) g m' with
    | nil => rfl
    | cons q qs =>
      obtain ⟨hlt, hq, -⟩ := positions_eq_cons hps
      have hprev := hc.prev q (by omega) g hq
      have hstored : t.prev[q]? = some (stored (HashChain.positions (gramAt ctx) g q).head?) := by
        rw [h.prev, List.getElem?_map, hprev, Option.map_some]
      have hloop : CopyTable.matchLoop ctx q (extendTokens - matchTokens) matchTokens =
          some (matchBack ctx q) := matchLoop_checked (by omega) _ _
      rw [List.head?_cons, CopyTable.search, if_neg (stored_ne (by omega)),
        toNat_stored (by omega), Coordinator.search, List.getD_eq_getElem?_getD, hprev,
        Option.getD_some]
      simp only [hloop, hstored, Option.bind_eq_bind, Option.bind_some]
      by_cases hbest : best.2 < matchBack ctx q
      · rw [if_pos (show (storedBest best).2 < matchBack ctx q from hbest), if_pos hbest]
        by_cases htop : matchBack ctx q = extendTokens
        · rw [if_pos htop, if_pos htop]
          rfl
        · rw [if_neg htop, if_neg htop]
          exact ih (by omega) (some q, matchBack ctx q)
      · rw [if_neg (show ¬ (storedBest best).2 < matchBack ctx q from hbest), if_neg hbest]
        exact ih (by omega) best

theorem copyFrom_checked {p : ℕ} (hp : p < ctx.length) :
    CopyTable.copyFrom ctx p k = some (copyFrom ctx p k) := by
  induction k with
  | zero => rfl
  | succ k ih =>
    rw [CopyTable.copyFrom, List.range_succ, List.foldlM_append, ← CopyTable.copyFrom, ih,
      copyFrom_succ]
    rw [Option.bind_eq_bind, Option.bind_some, List.foldlM_cons]
    by_cases hlt : p + k < ctx.length
    · rw [if_pos hlt, if_pos hlt, getElem?_eq_getD hlt]
      rfl
    · have hback : p + k - ctx.length < (copyFrom ctx p k).length := by
        rw [length_copyFrom]
        omega
      rw [if_neg hlt, if_neg hlt, minus_eq (by omega), Option.bind_some, getElem?_eq_getD hback]
      rfl

/-! ### Proposals -/

/-- **A proposal** makes no access that fails, and is that of the index the table holds. -/
theorem Stores.propose (h : Stores t c) (hc : Indexed c ctx) (hlen : ctx.length ≤ 2 ^ 32) :
    ∃ t', t.propose ctx k = some (t', (c.propose ctx k).2) ∧ Stores t' (c.propose ctx k).1 := by
  have hchain := hc.index
  obtain ⟨m, hm, hc⟩ := hc
  rw [CopyTable.propose, CopyIndex.propose]
  split
  · exact ⟨t, rfl, h⟩
  · next hk =>
    obtain ⟨t', hfold, h'⟩ := @Stores.foldl t c ctx c.prev.length
      (ctx.length - 1 - c.prev.length) h (by rw [hc.length]; omega)
    obtain ⟨s, hslice, hgram⟩ := @gramOf_slice ctx _ _
      (show ctx.length - matchTokens + matchTokens = ctx.length by omega) (Nat.le_refl _)
    have hlast := minus_eq (show 1 ≤ ctx.length by omega)
    have hlo := minus_eq (show matchTokens ≤ ctx.length by omega)
    have hall : (ctx.drop (ctx.length - matchTokens)).take matchTokens =
        ctx.drop (ctx.length - matchTokens) := by
      refine List.take_of_length_le ?_
      rw [List.length_drop]
      omega
    rw [← h.length] at hfold
    change Stores t' (c.index ctx) at h'
    rw [hall] at hgram
    simp only [hlast, hfold, hlo, hslice, hgram, Option.bind_eq_bind, Option.bind_some, h'.head]
    cases hhead : (c.index ctx).head (gram (ctx.drop (ctx.length - matchTokens))) with
    | none => exact ⟨t', rfl, h'⟩
    | some newest =>
      have hpositions := (hchain.head _).symm.trans hhead
      have hsearch := h'.search hchain (by omega) (by omega) (Nat.le_refl _) candidates (none, 0)
        (g := gram (ctx.drop (ctx.length - matchTokens)))
      rw [hpositions] at hsearch
      -- the newest occurrence is taken if no other is, so the copy starts in the context
      obtain ⟨best, hbest, hmax⟩ := scan_isFirstMax (matchBack_le ctx) (matchBack_pos ctx)
        newest (follow (c.index ctx).prev (candidates - 1) ((c.index ctx).prev.getD newest none))
      have hcons : follow (c.index ctx).prev candidates (some newest) = newest ::
        follow (c.index ctx).prev (candidates - 1) ((c.index ctx).prev.getD newest none) := rfl
      rw [← hcons] at hbest hmax
      have hfound : Coordinator.search ctx (c.index ctx).prev candidates (some newest) (none, 0) =
          (some best, matchBack ctx best) := (search_eq_scan _ _ _ _ _).trans hbest
      have hlt : best + 1 < ctx.length := by
        refine Chosen.lt ?_
        rw [Chosen, occurrences, ← hchain.follow_head, hhead]
        exact hmax
      rw [hfound] at hsearch
      have hsearch' : CopyTable.search ctx t'.prev candidates (UInt32.ofNat newest)
          (noPosition, 0) = some (stored (some best), matchBack ctx best) := hsearch
      have hnat := toNat_stored (show best < 4294967295 by omega)
      simp only [Option.map_some, hsearch', hfound, Option.bind_some, hnat, copyFrom_checked hlt]
      exact ⟨t', rfl, h'⟩

/-- **Over any calls** on growing contexts the table holds an index of what has been seen. -/
theorem Stores.runs {calls : List (List ℕ × ℕ)} {seen : List ℕ} (h : Stores t c)
    (hc : Indexed c seen) (hgrow : (seen :: (calls.map Prod.fst ++ [ctx])).Pairwise (· <+: ·))
    (hlen : ctx.length ≤ 2 ^ 32) :
    ∃ t' c', t.runs calls = some t' ∧ Stores t' c' ∧ Indexed c' ctx := by
  induction calls generalizing t c seen with
  | nil =>
    have hseen := (List.pairwise_cons.mp hgrow).1
    obtain ⟨more, rfl⟩ := hseen ctx (List.mem_singleton_self _)
    exact ⟨t, c, rfl, h, hc.append more⟩
  | cons call calls ih =>
    obtain ⟨hseen, hgrow⟩ := List.pairwise_cons.mp hgrow
    rw [List.map_cons, List.cons_append] at hseen hgrow
    have hcall := (List.pairwise_cons.mp hgrow).1
    obtain ⟨more, hmore⟩ := hseen call.1 (List.mem_cons_self ..)
    have hc' : Indexed c call.1 := hmore ▸ hc.append more
    have hle : call.1.length ≤ 2 ^ 32 := by
      have := (hcall ctx (by simp)).length_le
      omega
    obtain ⟨t', hpropose, h'⟩ := h.propose (k := call.2) hc' hle
    obtain ⟨t'', c'', hruns, h''⟩ := ih h' (hc'.propose call.2) hgrow
    refine ⟨t'', c'', ?_, h''⟩
    rw [CopyTable.runs, List.foldlM_cons, hpropose]
    exact hruns

/-- **Proposals on growing contexts:** no access fails, and the last proposal is the plain one, as
it is from a fresh index. Token ids are `u32`s. -/
theorem proposals_exact {calls : List (List ℕ × ℕ)} {ctx : List ℕ} {k : ℕ}
    (hgrow : (calls.map Prod.fst ++ [ctx]).IsChain (· <+: ·)) (hids : ∀ t ∈ ctx, t < 2 ^ 32)
    (hlen : ctx.length ≤ 2 ^ 32) :
    (∃ t t', CopyTable.runs {} calls = some t ∧
      t.propose ctx k = some (t', plainProposal ctx k)) ∧
    ∃ t', CopyTable.propose {} ctx k = some (t', plainProposal ctx k) := by
  have : IsTrans (List ℕ) (· <+: ·) := ⟨fun _ _ _ => List.IsPrefix.trans⟩
  have hpair : ([] :: (calls.map Prod.fst ++ [ctx])).Pairwise (· <+: ·) :=
    List.pairwise_cons.mpr ⟨fun _ _ => List.nil_prefix, List.isChain_iff_pairwise.mp hgrow⟩
  obtain ⟨t, c, hruns, ht, hc⟩ := stores_empty.runs (indexed_empty []) hpair hlen
  obtain ⟨t', hpropose, -⟩ := ht.propose (k := k) hc hlen
  obtain ⟨t'', hfresh, -⟩ := stores_empty.propose (k := k) (indexed_empty ctx) hlen
  rw [propose_eq_plain hc hids] at hpropose
  rw [propose_eq_plain (indexed_empty ctx) hids] at hfresh
  exact ⟨⟨t, t', hruns, hpropose⟩, t'', hfresh⟩

/-- A period of three tokens, found again after the context has grown by one. -/
theorem proposals_period :
    ∃ t', CopyTable.propose {} [1, 2, 3, 1, 2, 3, 1, 2, 3, 1, 2, 3] 5 = some (t', [1, 2, 3, 1, 2]) :=
  (@proposals_exact [([1, 2, 3, 1, 2, 3, 1, 2, 3, 1], 3)] _ 5 (by decide) (by decide)
    (by decide)).2

end Coordinator

end Mimo26

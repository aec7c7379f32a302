import Mathlib.Algebra.Ring.Nat
import Mathlib.Data.List.TakeDrop
import Mimo26.Library.HashChain

/-!
# Copy windows

Drafts copied from a request's own context (`copy.rs`). The index maps each gram of the context to
its last position and chains the positions of one gram; a proposal follows the chain of the last
gram, takes the occurrence that matches furthest back and copies what followed it.

A position is a `u32` with the largest value for none; contexts are far shorter, so it is an
optional natural number here.

## Main definitions

* `CopyIndex`, `propose` — the index and a proposal
* `Chosen` — the occurrence a proposal copies from, without the index
* `CopyClean` — what follows it is below the vocabulary size

## Main results

* `Indexed.propose` — the index stays right as the context grows
* `propose_eq` — a proposal copies from the chosen occurrence
* `forall_propose_lt` — it proposes ids below the vocabulary size exactly when the copy is clean
-/

namespace Mimo26

namespace Coordinator

open HashChain

/-- Context tokens that must match before a copy is proposed. -/
def matchTokens : ℕ := 8

/-- Backward match length counted up to this when choosing among occurrences. -/
def extendTokens : ℕ := 64

/-- Earlier occurrences tried per proposal, newest first. -/
def candidates : ℕ := 64

def gram (t : List ℕ) : List UInt32 := t.map UInt32.ofNat

/-- The gram ending at position `p`. -/
def gramAt (ctx : List ℕ) (p : ℕ) : Option (List UInt32) :=
  if p + 1 < matchTokens then none
  else some (gram ((ctx.drop (p + 1 - matchTokens)).take matchTokens))

/-- A request's index of the grams in its context. -/
structure CopyIndex where
  /-- The last position of each gram seen. -/
  head : List UInt32 → Option ℕ := fun _ => none
  /-- The position before each one with the same gram. -/
  prev : List (Option ℕ) := []

namespace CopyIndex

/-- Index position `p`. -/
def push (ctx : List ℕ) (c : CopyIndex) (p : ℕ) : CopyIndex :=
  match gramAt ctx p with
  | none => { c with prev := c.prev ++ [none] }
  | some g => { head := Function.update c.head g (some p), prev := c.prev ++ [c.head g] }

/-- Index every position with at least one token after it. -/
def index (c : CopyIndex) (ctx : List ℕ) : CopyIndex :=
  (List.range' c.prev.length (ctx.length - 1 - c.prev.length)).foldl (push ctx) c

end CopyIndex

/-- How far the tokens up to `q` match the end of the context, in `n` more rounds from `len`. -/
def matchLoop (ctx : List ℕ) (q : ℕ) : ℕ → ℕ → ℕ
  | 0, len => len
  | n + 1, len =>
    if len ≤ q ∧ ctx.getD (q - len) 0 = ctx.getD (ctx.length - 1 - len) 0 then
      matchLoop ctx q n (len + 1)
    else len

/-- How far the tokens up to `q` match the end of the context. -/
def matchBack (ctx : List ℕ) (q : ℕ) : ℕ :=
  matchLoop ctx q (extendTokens - matchTokens) matchTokens

/-- The occurrence matching furthest back among `n` from `p` on, ties to the most recent, and how
far it matches. -/
def search (ctx : List ℕ) (prev : List (Option ℕ)) : ℕ → Option ℕ → Option ℕ × ℕ → Option ℕ × ℕ
  | 0, _, best => best
  | _ + 1, none, best => best
  | n + 1, some q, best =>
    let len := matchBack ctx q
    if best.2 < len then
      if len = extendTokens then (some q, len)
      else search ctx prev n (prev.getD q none) (some q, len)
    else search ctx prev n (prev.getD q none) best

/-- `k` tokens from position `start` on; past the end the copy repeats itself. -/
def copyFrom (ctx : List ℕ) (start k : ℕ) : List ℕ :=
  (List.range k).foldl (fun out j =>
    out ++ [if start + j < ctx.length then ctx.getD (start + j) 0
      else out.getD (start + j - ctx.length) 0]) []

/-- Up to `k` tokens to copy after `ctx`. -/
def CopyIndex.propose (c : CopyIndex) (ctx : List ℕ) (k : ℕ) : CopyIndex × List ℕ :=
  if k < 2 ∨ ctx.length ≤ matchTokens then (c, [])
  else
    let c := c.index ctx
    match c.head (gram (ctx.drop (ctx.length - matchTokens))) with
    | none => (c, [])
    | some newest =>
      match (search ctx c.prev candidates (some newest) (none, 0)).1 with
      | none => (c, [])
      | some best => (c, copyFrom ctx (best + 1) k)

/-! ### What is copied -/

theorem copyFrom_succ (ctx : List ℕ) (start k : ℕ) :
    copyFrom ctx start (k + 1) = copyFrom ctx start k ++
      [if start + k < ctx.length then ctx.getD (start + k) 0
        else (copyFrom ctx start k).getD (start + k - ctx.length) 0] := by
  rw [copyFrom, List.range_succ, List.foldl_append]
  rfl

theorem length_copyFrom (ctx : List ℕ) (start k : ℕ) : (copyFrom ctx start k).length = k := by
  induction k with
  | zero => rfl
  | succ k ih => rw [copyFrom_succ, List.length_append, ih, List.length_singleton]

/-- The tokens copied are those from `start` on. -/
theorem mem_copyFrom {ctx : List ℕ} {start k t : ℕ} (hstart : start < ctx.length) :
    t ∈ copyFrom ctx start k ↔
      ∃ j < k, start + j < ctx.length ∧ ctx.getD (start + j) 0 = t := by
  induction k with
  | zero => simp [copyFrom]
  | succ k ih =>
    rw [copyFrom_succ, List.mem_append, List.mem_singleton, ih]
    constructor
    · rintro (⟨j, hj, hlt, ht⟩ | ht)
      · exact ⟨j, by omega, hlt, ht⟩
      · split at ht
        · next hlt => exact ⟨k, Nat.lt_succ_self k, hlt, ht.symm⟩
        · next hge =>
          -- the copy has run past the end: the token is one it copied before
          have hidx : start + k - ctx.length < (copyFrom ctx start k).length := by
            rw [length_copyFrom]
            omega
          have hmem : t ∈ copyFrom ctx start k := by
            rw [ht, List.getD_eq_getElem?_getD, List.getElem?_eq_getElem hidx, Option.getD_some]
            exact List.getElem_mem hidx
          obtain ⟨j, hj, hlt, hj'⟩ := ih.mp hmem
          exact ⟨j, by omega, hlt, hj'⟩
    · rintro ⟨j, hj, hlt, ht⟩
      rcases Nat.lt_succ_iff_lt_or_eq.mp hj with hj | rfl
      · exact Or.inl ⟨j, hj, hlt, ht⟩
      · exact Or.inr (by rw [if_pos hlt, ht])

/-! ### The index -/

/-- The index describes a part of the context. -/
def Indexed (c : CopyIndex) (ctx : List ℕ) : Prop :=
  ∃ m, m ≤ ctx.length - 1 ∧ Chained (gramAt ctx) m c.head c.prev

theorem indexed_empty (ctx : List ℕ) : Indexed {} ctx := ⟨0, Nat.zero_le _, chained_zero⟩

/-- The gram at a position does not depend on what follows. -/
theorem gramAt_append {ctx more : List ℕ} {p : ℕ} (hp : p < ctx.length) :
    gramAt (ctx ++ more) p = gramAt ctx p := by
  rw [gramAt, gramAt]
  split
  · rfl
  · next h =>
    rw [List.drop_append_of_le_length (by omega), List.take_append_of_le_length]
    rw [List.length_drop]
    omega

/-- The context only grows. -/
theorem Indexed.append {c : CopyIndex} {ctx : List ℕ} (h : Indexed c ctx) (more : List ℕ) :
    Indexed c (ctx ++ more) := by
  obtain ⟨m, hm, hc⟩ := h
  refine ⟨m, ?_, hc.congr fun p hp => (gramAt_append (by omega)).symm⟩
  rw [List.length_append]
  omega

theorem chained_push {c : CopyIndex} {ctx : List ℕ} {m : ℕ}
    (h : Chained (gramAt ctx) m c.head c.prev) :
    Chained (gramAt ctx) (m + 1) (c.push ctx m).head (c.push ctx m).prev := by
  rw [CopyIndex.push]
  cases hg : gramAt ctx m with
  | none => exact h.skip hg none
  | some g => exact h.push hg

theorem chained_foldl {c : CopyIndex} {ctx : List ℕ} {m : ℕ} (n : ℕ)
    (h : Chained (gramAt ctx) m c.head c.prev) :
    Chained (gramAt ctx) (m + n) ((List.range' m n).foldl (CopyIndex.push ctx) c).head
      ((List.range' m n).foldl (CopyIndex.push ctx) c).prev := by
  induction n generalizing c m with
  | zero => exact h
  | succ n ih =>
    rw [List.range'_succ, List.foldl_cons, ← Nat.add_assoc, Nat.add_right_comm]
    exact ih (chained_push h)

/-- A proposal is no longer than asked. -/
theorem length_propose_le (c : CopyIndex) (ctx : List ℕ) (k : ℕ) :
    (c.propose ctx k).2.length ≤ k := by
  rw [CopyIndex.propose]
  split
  · exact Nat.zero_le _
  · dsimp only
    split
    · exact Nat.zero_le _
    · split
      · exact Nat.zero_le _
      · exact Nat.le_of_eq (length_copyFrom _ _ _)

/-- Indexing describes every position but the last. -/
theorem Indexed.index {c : CopyIndex} {ctx : List ℕ} (h : Indexed c ctx) :
    Chained (gramAt ctx) (ctx.length - 1) (c.index ctx).head (c.index ctx).prev := by
  obtain ⟨m, hm, hc⟩ := h
  have hfold := chained_foldl (ctx.length - 1 - m) hc
  rw [Nat.add_sub_cancel' hm] at hfold
  rw [CopyIndex.index, hc.length]
  exact hfold

/-- A proposal leaves the index right. -/
theorem Indexed.propose {c : CopyIndex} {ctx : List ℕ} (h : Indexed c ctx) (k : ℕ) :
    Indexed (c.propose ctx k).1 ctx := by
  have hindex : Indexed (c.index ctx) ctx := ⟨_, Nat.le_refl _, h.index⟩
  rw [CopyIndex.propose]
  split
  · exact h
  · dsimp only
    split
    · exact hindex
    · split
      · exact hindex
      · exact hindex

/-! ### The occurrence chosen -/

theorem matchLoop_ge (ctx : List ℕ) (q n len : ℕ) : len ≤ matchLoop ctx q n len := by
  induction n generalizing len with
  | zero => exact Nat.le_refl _
  | succ n ih =>
    rw [matchLoop]
    split
    · exact Nat.le_of_succ_le (ih _)
    · exact Nat.le_refl _

theorem matchLoop_le (ctx : List ℕ) (q n len : ℕ) : matchLoop ctx q n len ≤ len + n := by
  induction n generalizing len with
  | zero => exact Nat.le_refl _
  | succ n ih =>
    rw [matchLoop]
    split
    · have hle := ih (len + 1)
      omega
    · omega

theorem matchBack_le (ctx : List ℕ) (q : ℕ) : matchBack ctx q ≤ extendTokens :=
  matchLoop_le ctx q _ _

theorem matchBack_pos (ctx : List ℕ) (q : ℕ) : 0 < matchBack ctx q :=
  Nat.lt_of_lt_of_le (by decide) (matchLoop_ge ctx q _ matchTokens)

/-- The search is a scan of the chain. -/
theorem search_eq_scan (ctx : List ℕ) (prev : List (Option ℕ)) (n : ℕ) (p : Option ℕ)
    (best : Option ℕ × ℕ) :
    search ctx prev n p best = scan (matchBack ctx) extendTokens (follow prev n p) best := by
  induction n generalizing p best with
  | zero => rfl
  | succ n ih =>
    cases p with
    | none => rfl
    | some q =>
      rw [search, follow, scan, ih, ih]

/-- The earlier positions that end with the last gram of the context, newest first, as far as they
are tried. -/
def occurrences (ctx : List ℕ) : List ℕ :=
  (HashChain.positions (gramAt ctx) (gram (ctx.drop (ctx.length - matchTokens))) (ctx.length - 1)).take
    candidates

/-- Of those the one that matches furthest back, ties to the most recent. -/
def Chosen (ctx : List ℕ) (p : ℕ) : Prop := IsFirstMax (matchBack ctx) (occurrences ctx) p

theorem Chosen.lt {ctx : List ℕ} {p : ℕ} (h : Chosen ctx p) : p + 1 < ctx.length := by
  obtain ⟨before, after, heq, -⟩ := h
  have hmem : p ∈ occurrences ctx := by
    rw [heq]
    simp
  have hlt := (HashChain.mem_positions.mp (List.mem_of_mem_take hmem)).1
  omega

/-- **A proposal** copies what followed the chosen occurrence, if there is one. -/
theorem propose_eq {c : CopyIndex} {ctx : List ℕ} (h : Indexed c ctx) {k : ℕ} (hk : 2 ≤ k)
    (hlen : matchTokens < ctx.length) :
    (∃ p, Chosen ctx p ∧ (c.propose ctx k).2 = copyFrom ctx (p + 1) k) ∨
      ((∀ p, ¬ Chosen ctx p) ∧ (c.propose ctx k).2 = []) := by
  have hchain := h.index
  have hfollow := hchain.follow_head candidates (gram (ctx.drop (ctx.length - matchTokens)))
  rw [CopyIndex.propose, if_neg (by omega)]
  dsimp only
  cases hhead : (c.index ctx).head (gram (ctx.drop (ctx.length - matchTokens))) with
  | none =>
    rw [hhead] at hfollow
    refine Or.inr ⟨fun p hp => ?_, rfl⟩
    obtain ⟨before, after, heq, -⟩ := hp
    rw [occurrences, ← hfollow] at heq
    exact absurd heq (by simp [candidates, follow])
  | some newest =>
    rw [hhead] at hfollow
    dsimp only
    rw [search_eq_scan]
    have hcons : follow (c.index ctx).prev candidates (some newest) = newest ::
      follow (c.index ctx).prev (candidates - 1) ((c.index ctx).prev.getD newest none) := rfl
    obtain ⟨best, hscan, hmax⟩ := scan_isFirstMax (matchBack_le ctx) (matchBack_pos ctx)
      newest (follow (c.index ctx).prev (candidates - 1) ((c.index ctx).prev.getD newest none))
    rw [← hcons] at hscan hmax
    rw [hscan]
    exact Or.inl ⟨best, by rw [Chosen, occurrences, ← hfollow]; exact hmax, rfl⟩

/-! ### Ids below the vocabulary size -/

/-- The tokens that follow the chosen occurrence, as far as they are copied, are below the
vocabulary size. -/
def CopyClean (vocab : ℕ) (ctx : List ℕ) (k : ℕ) : Prop :=
  2 ≤ k → matchTokens < ctx.length → ∀ p, Chosen ctx p → ∀ j < k, p + 1 + j < ctx.length →
    ctx.getD (p + 1 + j) 0 < vocab

/-- **A proposal is below the vocabulary size** exactly when its copy is clean. -/
theorem forall_propose_lt {c : CopyIndex} {ctx : List ℕ} (h : Indexed c ctx) {vocab k : ℕ} :
    (∀ t ∈ (c.propose ctx k).2, t < vocab) ↔ CopyClean vocab ctx k := by
  by_cases hk : 2 ≤ k ∧ matchTokens < ctx.length
  · obtain ⟨hk, hlen⟩ := hk
    rcases propose_eq h hk hlen with ⟨p, hp, heq⟩ | ⟨hnone, heq⟩
    · rw [heq]
      constructor
      · rintro hall - - q hq j hj hlt
        obtain rfl := hp.unique hq
        exact hall _ ((mem_copyFrom hp.lt).mpr ⟨j, hj, hlt, rfl⟩)
      · intro hclean t ht
        obtain ⟨j, hj, hlt, rfl⟩ := (mem_copyFrom hp.lt).mp ht
        exact hclean hk hlen p hp j hj hlt
    · rw [heq]
      exact ⟨fun _ _ _ p hp => absurd hp (hnone p), by simp⟩
  · have hnil : (c.propose ctx k).2 = [] := by
      rw [CopyIndex.propose, if_pos (by omega)]
    rw [hnil]
    exact ⟨fun _ h2 hl => absurd ⟨h2, hl⟩ hk, by simp⟩

end Coordinator

end Mimo26

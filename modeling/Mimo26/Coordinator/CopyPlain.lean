import Mathlib.Data.List.DropRight
import Mathlib.Data.Nat.Find
import Mimo26.Coordinator.CopyIndex

/-!
# What a copy window is

A proposal without the index: of the earlier places where the last tokens of the context occur, the
newest few, the one that agrees with the end of the context furthest back is taken, and what
follows it is repeated.

The index compares tokens as `u32`s. Token ids are `u32`s, the tokenizer's and the image ids alike,
so it sees every difference.

## Main definitions

* `earlier`, `backward`, `repeated` — the occurrences, how far one agrees, what follows it
* `plainProposal` — the proposal

## Main results

* `propose_eq_plain` — a proposal from an index of the context is the plain one
-/

namespace Mimo26

namespace Coordinator

open HashChain

/-- The positions, with a token after them, where the last tokens of the context end again, newest
first. -/
def earlier (ctx : List ℕ) : List ℕ :=
  ((List.range (ctx.length - 1)).filter fun p =>
    matchTokens ≤ p + 1 ∧ (ctx.take (p + 1)).rtake matchTokens = ctx.rtake matchTokens).reverse

/-- The largest number of tokens, up to the limit, that end at `p` and are the last of the
context. -/
def backward (ctx : List ℕ) (p : ℕ) : ℕ :=
  Nat.findGreatest (fun n => n ≤ p + 1 ∧ (ctx.take (p + 1)).rtake n = ctx.rtake n) extendTokens

/-- The tokens after `p`, over and over. -/
def repeated (ctx : List ℕ) (p k : ℕ) : List ℕ :=
  (List.range k).map fun j => ctx.getD (p + 1 + j % (ctx.length - (p + 1))) 0

/-- Up to `k` tokens to copy after `ctx`. -/
def plainProposal (ctx : List ℕ) (k : ℕ) : List ℕ :=
  if k < 2 then []
  else (((earlier ctx).take candidates).argmax (backward ctx)).elim [] (repeated ctx · k)

/-! ### The last tokens -/

variable {ctx : List ℕ} {k : ℕ}

theorem rtake_succ {l : List ℕ} {n : ℕ} (h : n < l.length) :
    l.rtake (n + 1) = l.getD (l.length - 1 - n) 0 :: l.rtake n := by
  have hlt : l.length - (n + 1) < l.length := by omega
  rw [List.rtake, List.rtake, List.drop_eq_getElem_cons hlt, List.getD_eq_getElem?_getD,
    show l.length - 1 - n = l.length - (n + 1) by omega, List.getElem?_eq_getElem hlt,
    show l.length - (n + 1) + 1 = l.length - n by omega]
  rfl

theorem rtake_congr_of_le {l l' : List ℕ} {m n : ℕ} (hm : m ≤ n) (h : l.rtake n = l'.rtake n) :
    l.rtake m = l'.rtake m := by
  have hshorter : ∀ l : List ℕ, (l.rtake n).rtake m = l.rtake m := by
    intro l
    simp [List.rtake_eq_reverse_take_reverse, List.take_take, Nat.min_eq_left hm]
  rw [← hshorter l, h, hshorter l']

/-- One more token agrees exactly when it and those after it do. -/
theorem rtake_succ_eq_iff {p n : ℕ} (hp : p + 1 < ctx.length) (hn : n ≤ p) :
    (ctx.take (p + 1)).rtake (n + 1) = ctx.rtake (n + 1) ↔
      ctx.getD (p - n) 0 = ctx.getD (ctx.length - 1 - n) 0 ∧
        (ctx.take (p + 1)).rtake n = ctx.rtake n := by
  have hlen : (ctx.take (p + 1)).length = p + 1 := by
    rw [List.length_take]
    omega
  rw [rtake_succ (by omega), rtake_succ (by omega), List.cons_eq_cons, hlen,
    Nat.add_sub_cancel, List.getD_eq_getElem?_getD, List.getElem?_take_of_lt (by omega),
    ← List.getD_eq_getElem?_getD]

/-- The loop stops where the agreement does. -/
theorem matchLoop_eq {q n len : ℕ} (hq : q + 1 < ctx.length) (hlen : len ≤ q + 1)
    (hagree : (ctx.take (q + 1)).rtake len = ctx.rtake len) :
    matchLoop ctx q n len =
      Nat.findGreatest (fun n => n ≤ q + 1 ∧ (ctx.take (q + 1)).rtake n = ctx.rtake n)
        (len + n) := by
  induction n generalizing len with
  | zero => exact (Nat.findGreatest_eq ⟨hlen, hagree⟩).symm
  | succ n ih =>
    rw [matchLoop]
    split
    · next h =>
      rw [ih (by omega) ((rtake_succ_eq_iff hq h.1).mpr ⟨h.2, hagree⟩)]
      congr 1
      omega
    · next h =>
      symm
      refine Nat.findGreatest_eq_iff.mpr ⟨by omega, fun _ => ⟨hlen, hagree⟩,
        fun i hi _ hgood => ?_⟩
      -- a longer agreement would include one more token
      have hone := rtake_congr_of_le (show len + 1 ≤ i by omega) hgood.2
      exact h ⟨by omega, ((rtake_succ_eq_iff hq (by omega)).mp hone).1⟩

theorem mem_earlier {p : ℕ} : p ∈ earlier ctx ↔ p < ctx.length - 1 ∧ matchTokens ≤ p + 1 ∧
    (ctx.take (p + 1)).rtake matchTokens = ctx.rtake matchTokens := by
  simp [earlier]

theorem matchBack_eq_backward {p : ℕ} (hp : p ∈ earlier ctx) :
    matchBack ctx p = backward ctx p := by
  obtain ⟨hlt, hle, hagree⟩ := mem_earlier.mp hp
  exact matchLoop_eq (by omega) hle hagree

/-! ### The occurrences -/

/-- Small tokens are told apart by their `u32`s. -/
theorem gram_inj {a b : List ℕ} (ha : ∀ t ∈ a, t < 2 ^ 32) (hb : ∀ t ∈ b, t < 2 ^ 32) :
    gram a = gram b ↔ a = b := by
  have hback : ∀ l : List ℕ, (∀ t ∈ l, t < 2 ^ 32) → (gram l).map UInt32.toNat = l := by
    intro l hl
    rw [gram, List.map_map]
    exact (List.map_congr_left fun t ht => UInt32.toNat_ofNat_of_lt' (hl t ht)).trans
      (List.map_id l)
  refine ⟨fun h => ?_, fun h => by rw [h]⟩
  rw [← hback a ha, h, hback b hb]

theorem gramAt_eq_iff {p : ℕ} (hids : ∀ t ∈ ctx, t < 2 ^ 32) (hp : p < ctx.length) :
    gramAt ctx p = some (gram (ctx.drop (ctx.length - matchTokens))) ↔
      matchTokens ≤ p + 1 ∧ (ctx.take (p + 1)).rtake matchTokens = ctx.rtake matchTokens := by
  have htake : (ctx.take (p + 1)).rtake matchTokens =
      (ctx.drop (p + 1 - matchTokens)).take (p + 1 - (p + 1 - matchTokens)) := by
    rw [List.rtake, List.length_take, Nat.min_eq_left (by omega), List.drop_take]
  rw [gramAt]
  split
  · next h =>
    exact ⟨fun hnone => (by cases hnone), fun hle => absurd hle.1 (by omega)⟩
  · next h =>
    rw [Nat.sub_sub_self (by omega)] at htake
    rw [Option.some.injEq, gram_inj, htake, List.rtake]
    · exact ⟨fun heq => ⟨by omega, heq⟩, fun heq => heq.2⟩
    · exact fun t ht => hids t (List.mem_of_mem_drop (List.mem_of_mem_take ht))
    · exact fun t ht => hids t (List.mem_of_mem_drop ht)

/-- The chain holds the earlier occurrences. -/
theorem occurrences_eq (hids : ∀ t ∈ ctx, t < 2 ^ 32) :
    occurrences ctx = (earlier ctx).take candidates := by
  rw [occurrences, positions_eq_filter, earlier]
  congr 2
  refine List.filter_congr fun p hp => ?_
  have hlt : p < ctx.length := by
    have := List.mem_range.mp hp
    omega
  exact decide_eq_decide.mpr (gramAt_eq_iff hids hlt)

/-- The occurrence a proposal copies from. -/
theorem chosen_iff {p : ℕ} (hids : ∀ t ∈ ctx, t < 2 ^ 32) :
    Chosen ctx p ↔ ((earlier ctx).take candidates).argmax (backward ctx) = some p := by
  have hscore : ∀ q ∈ (earlier ctx).take candidates, matchBack ctx q = backward ctx q :=
    fun q hq => matchBack_eq_backward (List.mem_of_mem_take hq)
  rw [Chosen, occurrences_eq hids, ← isFirstMax_iff_argmax]
  exact ⟨fun h => h.congr hscore, fun h => h.congr fun q hq => (hscore q hq).symm⟩

/-! ### The copy -/

/-- A copy that runs past the end repeats itself. -/
theorem copyFrom_eq_repeated {p : ℕ} (hp : p + 1 < ctx.length) :
    copyFrom ctx (p + 1) k = repeated ctx p k := by
  induction k with
  | zero => rfl
  | succ k ih =>
    rw [copyFrom_succ, ih, repeated, repeated, List.range_succ, List.map_append]
    congr 1
    rw [List.map_singleton]
    split
    · next hlt =>
      rw [Nat.mod_eq_of_lt (by omega)]
    · next hge =>
      -- the token copied one period before
      have hidx : p + 1 + k - ctx.length < k := by omega
      rw [List.getD_eq_getElem?_getD, List.getElem?_map, List.getElem?_range hidx,
        Nat.mod_eq_sub_mod (show ctx.length - (p + 1) ≤ k by omega),
        show k - (ctx.length - (p + 1)) = p + 1 + k - ctx.length by omega]
      rfl

/-- **A proposal** is the plain one. -/
theorem propose_eq_plain {c : CopyIndex} (h : Indexed c ctx) (hids : ∀ t ∈ ctx, t < 2 ^ 32) :
    (c.propose ctx k).2 = plainProposal ctx k := by
  rw [plainProposal]
  split
  · next hk => rw [CopyIndex.propose, if_pos (Or.inl hk)]
  · next hk =>
    by_cases hlen : matchTokens < ctx.length
    · rcases propose_eq h (k := k) (by omega) hlen with ⟨p, hp, heq⟩ | ⟨hnone, heq⟩
      · rw [heq, (chosen_iff hids).mp hp, Option.elim_some, copyFrom_eq_repeated hp.lt]
      · have hmax : ((earlier ctx).take candidates).argmax (backward ctx) = none :=
          Option.eq_none_iff_forall_ne_some.mpr fun p hp => hnone p ((chosen_iff hids).mpr hp)
        rw [heq, hmax]
        rfl
    · have hnil : earlier ctx = [] := by
        refine List.eq_nil_iff_forall_not_mem.mpr fun p hp => ?_
        have hp := mem_earlier.mp hp
        omega
      rw [CopyIndex.propose, if_pos (Or.inr (by omega)), hnil]
      rfl

end Coordinator

end Mimo26

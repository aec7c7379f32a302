import Mathlib.Algebra.Order.Ring.Nat
import Mathlib.Data.List.Basic
import Mathlib.Tactic.Ring

/-!
# Canonical prefix codes

Codes given by how many there are of each length: those of one length are consecutive numbers, and
the first of a length follows on from the last of the one below. Read from a stream of bits, most
significant bit first, no code is the beginning of another.

## Main definitions

* `first`, `used` — the first code of a length, and the codes of a length that are spoken for
* `index` — how many codes are shorter
* `value`, `Assigned` — the number that the first bits of a stream make; it is a code
* `code`, `occ` — the code of a symbol, by the symbols' lengths

## Main results

* `Assigned.unique` — at most one length is a code
* `first_le_value` — a stream that has met no code is at or past the first
* `used_le` — within the space of the largest length, all lengths are
* `assigned_iff` — a code is a symbol's
* `rank_inj`, `rank_lt` — the symbols' places in the order of their codes
-/

namespace Mimo26

namespace PrefixCode

variable (count : ℕ → ℕ)

/-- The first code of each length. -/
def first : ℕ → ℕ
  | 0 => 0
  | l + 1 => 2 * (first l + count l)

/-- The codes of a length that are its own, or begin with a shorter one. -/
def used (l : ℕ) : ℕ := first count l + count l

/-- How many codes are shorter. -/
def index : ℕ → ℕ
  | 0 => 0
  | l + 1 => index l + count l

theorem first_succ (l : ℕ) : first count (l + 1) = 2 * used count l := rfl

theorem used_succ (l : ℕ) : used count (l + 1) = 2 * used count l + count (l + 1) := rfl

theorem index_mono {l m : ℕ} (h : l ≤ m) : index count l ≤ index count m := by
  induction h with
  | refl => exact Nat.le_refl _
  | step _ ih => exact Nat.le_trans ih (Nat.le_add_right _ _)

/-- The codes that begin with one of a length. -/
theorem used_mul_le {l m : ℕ} (h : l < m) : used count l * 2 ^ (m - l) ≤ first count m := by
  induction m with
  | zero => exact absurd h (Nat.not_lt_zero l)
  | succ m ih =>
    rw [first_succ]
    rcases Nat.lt_succ_iff_lt_or_eq.mp h with hlt | rfl
    · have hm := Nat.le_trans (ih hlt) (Nat.le_add_right (first count m) (count m))
      calc used count l * 2 ^ (m + 1 - l) = 2 * (used count l * 2 ^ (m - l)) := by
            rw [show m + 1 - l = (m - l) + 1 by omega, Nat.pow_succ]
            ring
        _ ≤ 2 * used count m := Nat.mul_le_mul_left 2 hm
    · rw [show l + 1 - l = 1 by omega, Nat.pow_one, Nat.mul_comm]

/-- Within the space of a length, every shorter one is. -/
theorem used_le {l m : ℕ} (h : l ≤ m) (hm : used count m ≤ 2 ^ m) : used count l ≤ 2 ^ l := by
  induction m with
  | zero =>
    rw [Nat.le_zero.mp h]
    exact hm
  | succ m ih =>
    rcases Nat.le_succ_iff.mp h with hle | rfl
    · refine ih hle ?_
      rw [used_succ, Nat.pow_succ] at hm
      omega
    · exact hm

/-! ### Streams -/

variable (f : ℕ → Bool)

/-- The number that the first `l` bits make. -/
def value : ℕ → ℕ
  | 0 => 0
  | l + 1 => 2 * value l + (f l).toNat

theorem value_lt (l : ℕ) : value f l < 2 ^ l := by
  induction l with
  | zero => exact Nat.one_pos
  | succ l ih =>
    have hbit := Bool.toNat_le (f l)
    rw [value, Nat.pow_succ]
    omega

theorem value_congr {g : ℕ → Bool} {l : ℕ} (h : ∀ i < l, f i = g i) : value f l = value g l := by
  induction l with
  | zero => rfl
  | succ l ih => rw [value, value, h l l.lt_succ_self, ih fun i hi => h i (Nat.lt_succ_of_lt hi)]

/-- The bits after the first `l` add less than one to it. -/
theorem value_add_lt (l k : ℕ) : value f (l + k) < (value f l + 1) * 2 ^ k := by
  induction k with
  | zero =>
    rw [Nat.add_zero, Nat.pow_zero, Nat.mul_one]
    exact Nat.lt_succ_self _
  | succ k ih =>
    have hbit := Bool.toNat_le (f (l + k))
    rw [← Nat.add_assoc, value, Nat.pow_succ, ← Nat.mul_assoc]
    omega

/-- The first `l` bits are a code. -/
def Assigned (l : ℕ) : Prop := first count l ≤ value f l ∧ value f l < used count l

instance (l : ℕ) : Decidable (Assigned count f l) :=
  inferInstanceAs (Decidable (_ ∧ _))

variable {count f}

theorem Assigned.not_lt {l m : ℕ} (hl : Assigned count f l) (hm : Assigned count f m) :
    ¬ l < m := by
  intro h
  have hlt := value_add_lt f l (m - l)
  rw [Nat.add_sub_cancel' h.le] at hlt
  have hle := Nat.mul_le_mul_right (2 ^ (m - l)) (show value f l + 1 ≤ used count l from hl.2)
  have hfirst := used_mul_le count h
  have hfrom := hm.1
  omega

/-- **No code is the beginning of another.** -/
theorem Assigned.unique {l m : ℕ} (hl : Assigned count f l) (hm : Assigned count f m) : l = m :=
  Nat.le_antisymm (Nat.not_lt.mp (hm.not_lt hl)) (Nat.not_lt.mp (hl.not_lt hm))

/-- A stream that has met no code. -/
theorem first_le_value {l : ℕ} (h : ∀ m < l, ¬ Assigned count f m) :
    first count l ≤ value f l := by
  induction l with
  | zero => exact Nat.le_refl 0
  | succ l ih =>
    have hle := ih fun m hm => h m (Nat.lt_succ_of_lt hm)
    have hused : used count l ≤ value f l := Nat.not_lt.mp fun hlt => h l l.lt_succ_self ⟨hle, hlt⟩
    rw [first_succ, value]
    omega

/-! ### Codes of symbols -/

/-- How many symbols have a length. -/
def lengthCount (lengths : List ℕ) (l : ℕ) : ℕ := if l = 0 then 0 else lengths.count l

/-- How many symbols below `s` have its length `l`. -/
def occ (lengths : List ℕ) (l s : ℕ) : ℕ := (lengths.take s).count l

/-- The code of symbol `s`, of length `l`. -/
def code (lengths : List ℕ) (l s : ℕ) : ℕ := first (lengthCount lengths) l + occ lengths l s

/-- The place of symbol `s`, of length `l`, in the order of the codes. -/
def rank (lengths : List ℕ) (l s : ℕ) : ℕ := index (lengthCount lengths) l + occ lengths l s

variable {lengths : List ℕ}

theorem occ_succ {l s : ℕ} (h : lengths[s]? = some l) :
    occ lengths l (s + 1) = occ lengths l s + 1 := by
  rw [occ, List.take_add_one, h, List.count_append]
  exact congrArg _ (List.count_singleton_self)

theorem occ_succ_of_ne {l m s : ℕ} (h : lengths[s]? = some m) (hne : m ≠ l) :
    occ lengths l (s + 1) = occ lengths l s := by
  rw [occ, List.take_add_one, h, List.count_append]
  simp [occ, hne]

theorem occ_mono (lengths : List ℕ) (l : ℕ) {s t : ℕ} (h : s ≤ t) : occ lengths l s ≤ occ lengths l t :=
  (List.take_sublist_take_left h).count_le l

theorem occ_lt {l s : ℕ} (h : lengths[s]? = some l) : occ lengths l s < lengths.count l := by
  have hsucc := occ_succ h
  have hle : occ lengths l (s + 1) ≤ lengths.count l := (List.take_sublist _ _).count_le l
  omega

/-- Two symbols of a length with as many before. -/
theorem occ_inj {l s t : ℕ} (hs : lengths[s]? = some l) (ht : lengths[t]? = some l)
    (h : occ lengths l s = occ lengths l t) : s = t := by
  rcases Nat.lt_trichotomy s t with hlt | heq | hlt
  · have hsucc := occ_succ hs
    have hmono := occ_mono lengths l (show s + 1 ≤ t from hlt)
    omega
  · exact heq
  · have hsucc := occ_succ ht
    have hmono := occ_mono lengths l (show t + 1 ≤ s from hlt)
    omega

/-- The symbol with `r` of its length before it. -/
theorem exists_occ {l r : ℕ} (h : r < lengths.count l) :
    ∃ s, lengths[s]? = some l ∧ occ lengths l s = r := by
  induction lengths generalizing r with
  | nil => exact absurd h (Nat.not_lt_zero r)
  | cons x lengths ih =>
    by_cases hx : x = l
    · subst hx
      cases r with
      | zero => exact ⟨0, rfl, rfl⟩
      | succ r =>
        rw [List.count_cons_self] at h
        obtain ⟨s, hs, hocc⟩ := ih (Nat.lt_of_succ_lt_succ h)
        refine ⟨s + 1, hs, ?_⟩
        rw [occ, List.take_succ_cons, List.count_cons_self, ← hocc, occ]
    · rw [List.count_cons_of_ne hx] at h
      obtain ⟨s, hs, hocc⟩ := ih h
      refine ⟨s + 1, hs, ?_⟩
      rw [occ, List.take_succ_cons, List.count_cons_of_ne hx, ← hocc, occ]

/-- **A code is a symbol's.** -/
theorem assigned_iff {l : ℕ} (hl : l ≠ 0) :
    Assigned (lengthCount lengths) f l ↔
      ∃ s, lengths[s]? = some l ∧ code lengths l s = value f l := by
  have hcount : lengthCount lengths l = lengths.count l := if_neg hl
  constructor
  · rintro ⟨hle, hlt⟩
    rw [used, hcount] at hlt
    obtain ⟨s, hs, hocc⟩ := exists_occ
      (show value f l - first (lengthCount lengths) l < lengths.count l by omega)
    refine ⟨s, hs, ?_⟩
    rw [code, hocc]
    omega
  · rintro ⟨s, hs, hcode⟩
    have hlt := occ_lt hs
    rw [code] at hcode
    rw [Assigned, used, hcount]
    omega

/-- A symbol's place is before those of the longer codes. -/
theorem rank_lt_index {l s : ℕ} (hl : l ≠ 0) (hs : lengths[s]? = some l) :
    rank lengths l s < index (lengthCount lengths) (l + 1) := by
  have hlt := occ_lt hs
  rw [rank, index, lengthCount, if_neg hl]
  omega

/-- The symbols' places are apart. -/
theorem rank_inj {l m s t : ℕ} (hl : l ≠ 0) (hm : m ≠ 0) (hs : lengths[s]? = some l)
    (ht : lengths[t]? = some m) (h : rank lengths l s = rank lengths m t) : s = t := by
  have hlow (l s : ℕ) : index (lengthCount lengths) l ≤ rank lengths l s := Nat.le_add_right _ _
  rcases Nat.lt_trichotomy l m with hlt | rfl | hlt
  · have hmono := index_mono (lengthCount lengths) (show l + 1 ≤ m from hlt)
    have := rank_lt_index hl hs
    have := hlow m t
    omega
  · exact occ_inj hs ht (Nat.add_left_cancel h)
  · have hmono := index_mono (lengthCount lengths) (show m + 1 ≤ l from hlt)
    have := rank_lt_index hm ht
    have := hlow l s
    omega

/-! ### One length after the other -/

theorem lengthCount_cons (x : ℕ) (lengths : List ℕ) :
    lengthCount (x :: lengths) = fun l => lengthCount [x] l + lengthCount lengths l := by
  funext l
  by_cases hl : l = 0
  · simp [lengthCount, hl]
  · simp [lengthCount, hl, List.count_cons, Nat.add_comm]

theorem used_add (c d : ℕ → ℕ) (l : ℕ) :
    used (fun l => c l + d l) l = used c l + used d l := by
  induction l with
  | zero => simp [used, first]
  | succ l ih =>
    rw [used_succ, used_succ, used_succ, ih]
    ring

/-- The share of one code. -/
theorem used_singleton (x l : ℕ) :
    used (lengthCount [x]) l = if x ≠ 0 ∧ x ≤ l then 2 ^ (l - x) else 0 := by
  induction l with
  | zero =>
    rw [if_neg (by omega)]
    rfl
  | succ l ih =>
    rw [used_succ, ih, lengthCount, if_neg l.succ_ne_zero, List.count_singleton]
    simp only [beq_iff_eq]
    rcases Nat.lt_trichotomy x (l + 1) with hlt | rfl | hlt
    · rw [if_neg hlt.ne, Nat.add_zero]
      by_cases hx : x = 0
      · rw [if_neg (by omega), if_neg (by omega)]
      · rw [if_pos (by omega), if_pos (by omega), show l + 1 - x = (l - x) + 1 by omega, pow_succ]
        ring
    · rw [if_neg (by omega), if_pos rfl, if_pos (by omega), Nat.sub_self, pow_zero]
      rfl
    · rw [if_neg (by omega), if_neg (by omega), if_neg (by omega)]

/-- There are no more codes than symbols. -/
theorem index_le_length (lengths : List ℕ) (l : ℕ) :
    index (lengthCount lengths) l ≤ lengths.length := by
  have hone (x l : ℕ) : index (lengthCount [x]) l = if x ≠ 0 ∧ x < l then 1 else 0 := by
    induction l with
    | zero => exact (if_neg (by omega)).symm
    | succ l ih =>
      rw [index, ih, lengthCount, List.count_singleton]
      simp only [beq_iff_eq]
      split_ifs <;> omega
  induction lengths with
  | nil =>
    have hnil : lengthCount [] = lengthCount [0] := by
      funext l
      by_cases hl : l = 0
      · simp [lengthCount, hl]
      · simp [lengthCount, hl, Ne.symm hl]
    rw [hnil, hone, if_neg (by omega)]
    exact Nat.zero_le _
  | cons x lengths ih =>
    have hadd (c d : ℕ → ℕ) : index (fun l => c l + d l) l =
        index c l + index d l := by
      clear ih
      induction l with
      | zero => rfl
      | succ l ih =>
        rw [index, index, index, ih]
        omega
    rw [lengthCount_cons, hadd, hone, List.length_cons]
    split <;> omega

/-- A symbol's place is one of the symbols'. -/
theorem rank_lt {l s : ℕ} (hl : l ≠ 0) (h : lengths[s]? = some l) :
    rank lengths l s < lengths.length :=
  (rank_lt_index hl h).trans_le (index_le_length lengths (l + 1))

end PrefixCode

end Mimo26

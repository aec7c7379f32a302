import Mathlib.Algebra.BigOperators.Intervals
import Mathlib.Algebra.Order.BigOperators.Group.Finset
import Mathlib.Algebra.Order.Field.Basic
import Mathlib.Algebra.Order.Floor.Semiring
import Mathlib.Algebra.Order.Module.Defs
import Mathlib.Tactic.FieldSimp
import Mathlib.Tactic.Linarith
import Mathlib.Tactic.Ring

/-!
# Sums at places at equal distances

The places are `u`, `u + d`, `u + 2 * d` and so on. Those up to a bound are counted up to one, so
that a lower bound of a function between two bounds gives one for its sum over the places there.

## Main definitions

* `upTo` — how many places are up to a bound
* `total` — the sum of a function at these places

## Main results

* `total_step`, `total_step_neg` — the sum up to a bound from the sum up to a smaller one
-/

namespace Mimo26

namespace EqualSteps

variable {K : Type*} [Field K] [LinearOrder K] [FloorSemiring K]

/-- How many of the places are at most `b`, if the first one is. -/
def upTo (u d b : K) : ℕ := ⌊(b - u) / d⌋₊ + 1

/-- The sum of `f` at the places up to `b`. -/
def total (f : K → K) (u d b : K) : K := ∑ j ∈ Finset.range (upTo u d b), f (u + j * d)

theorem lt_upTo_cast (u d b : K) : (b - u) / d < upTo u d b := by
  rw [upTo, Nat.cast_succ]
  exact Nat.lt_floor_add_one _

variable [IsStrictOrderedRing K] {u d a b c : K} {f : K → K} {j : ℕ}

theorem lt_upTo (hd : 0 < d) (hu : u ≤ b) : j < upTo u d b ↔ u + j * d ≤ b := by
  rw [upTo, Nat.lt_succ_iff, Nat.le_floor_iff (div_nonneg (sub_nonneg.mpr hu) hd.le),
    le_div_iff₀ hd, le_sub_iff_add_le, add_comm]

theorem upTo_cast_le (hd : 0 < d) (hu : u ≤ b) : (upTo u d b : K) ≤ (b - u) / d + 1 := by
  rw [upTo, Nat.cast_succ]
  have hle := Nat.floor_le (div_nonneg (sub_nonneg.mpr hu) hd.le)
  linarith

theorem upTo_mono (hd : 0 < d) (hab : a ≤ b) : upTo u d a ≤ upTo u d b := by
  have hle : (a - u) / d ≤ (b - u) / d := div_le_div_of_nonneg_right (by linarith) hd.le
  exact Nat.succ_le_succ (Nat.floor_mono hle)

/-- Between two bounds there are as many places as fit, up to one. -/
theorem upTo_sub (hd : 0 < d) (hu : u ≤ a) (hab : a ≤ b) :
    (b - a) / d - 1 ≤ (upTo u d b : K) - upTo u d a ∧
      (upTo u d b : K) - upTo u d a ≤ (b - a) / d + 1 := by
  have hsplit : (b - u) / d = (b - a) / d + (a - u) / d := by
    field_simp
    ring
  have hlo := lt_upTo_cast u d a
  have hhi := lt_upTo_cast u d b
  have hlo' := upTo_cast_le hd hu
  have hhi' := upTo_cast_le hd (hu.trans hab)
  constructor <;> linarith

/-- A lower bound of `f` between two bounds. -/
theorem total_add_le (hd : 0 < d) (hu : u ≤ a) (hab : a ≤ b)
    (hf : ∀ t, a < t → t ≤ b → c ≤ f t) :
    total f u d a + ((upTo u d b : K) - upTo u d a) * c ≤ total f u d b := by
  have hle := upTo_mono (u := u) hd hab
  have hbound : ∀ j ∈ Finset.Ico (upTo u d a) (upTo u d b), c ≤ f (u + j * d) := by
    intro j hj
    obtain ⟨hlo, hhi⟩ := Finset.mem_Ico.mp hj
    refine hf _ (not_le.mp fun h => ?_) ((lt_upTo hd (hu.trans hab)).mp hhi)
    exact absurd ((lt_upTo hd hu).mpr h) (Nat.not_lt.mpr hlo)
  have hsum := Finset.card_nsmul_le_sum _ _ c hbound
  rw [Nat.card_Ico, nsmul_eq_mul, Nat.cast_sub hle] at hsum
  rw [total, total, ← Finset.sum_range_add_sum_Ico _ hle]
  linarith

theorem total_step (hd : 0 < d) (hu : u ≤ a) (hab : a ≤ b) (hc : 0 ≤ c)
    (hf : ∀ t, a < t → t ≤ b → c ≤ f t) :
    total f u d a + ((b - a) * (1 / d) - 1) * c ≤ total f u d b := by
  have h := total_add_le hd hu hab hf
  rw [← div_eq_mul_one_div]
  have hcount := mul_le_mul_of_nonneg_right (upTo_sub hd hu hab).1 hc
  linarith

theorem total_step_neg (hd : 0 < d) (hu : u ≤ a) (hab : a ≤ b) (hc : c ≤ 0)
    (hf : ∀ t, a < t → t ≤ b → c ≤ f t) :
    total f u d a + ((b - a) * (1 / d) + 1) * c ≤ total f u d b := by
  have h := total_add_le hd hu hab hf
  rw [← div_eq_mul_one_div]
  have hcount := mul_le_mul_of_nonpos_right (upTo_sub hd hu hab).2 hc
  linarith

/-- The places up to the first bound. -/
theorem total_start (hd : 0 < d) (hu : u ≤ d) (hc : 0 ≤ c) (hub : u ≤ b)
    (hf : ∀ t, u ≤ t → t ≤ b → c ≤ f t) : (b * (1 / d) - 1) * c ≤ total f u d b := by
  have hbound : ∀ j ∈ Finset.range (upTo u d b), c ≤ f (u + j * d) := by
    intro j hj
    have hnonneg : 0 ≤ j * d := mul_nonneg (Nat.cast_nonneg j) hd.le
    exact hf _ (by linarith) ((lt_upTo hd hub).mp (Finset.mem_range.mp hj))
  have hsum := Finset.card_nsmul_le_sum _ _ c hbound
  rw [Finset.card_range, nsmul_eq_mul] at hsum
  have hfirst : b * (1 / d) - 1 ≤ (b - u) / d := by
    have hone : u / d ≤ 1 := (div_le_one hd).mpr hu
    rw [← div_eq_mul_one_div, sub_div]
    linarith
  exact (mul_le_mul_of_nonneg_right (hfirst.trans (lt_upTo_cast u d b).le) hc).trans hsum

/-- Places at which `f` is not positive may be left out. -/
theorem total_le_sum {r : ℕ} (hd : 0 < d) (hu : u ≤ a) (hab : a ≤ b)
    (hf : ∀ t, a < t → t ≤ b → f t ≤ 0) (hr : upTo u d a ≤ r) (hr' : r ≤ upTo u d b) :
    total f u d b ≤ ∑ j ∈ Finset.range r, f (u + j * d) := by
  rw [total, ← Finset.sum_range_add_sum_Ico _ hr']
  have hnonpos : ∑ j ∈ Finset.Ico r (upTo u d b), f (u + j * d) ≤ 0 := by
    refine Finset.sum_nonpos fun j hj => ?_
    obtain ⟨hlo, hhi⟩ := Finset.mem_Ico.mp hj
    refine hf _ (not_le.mp fun h => ?_) ((lt_upTo hd (hu.trans hab)).mp hhi)
    exact absurd ((lt_upTo hd hu).mpr h) (Nat.not_lt.mpr (hr.trans hlo))
  linarith

end EqualSteps

end Mimo26

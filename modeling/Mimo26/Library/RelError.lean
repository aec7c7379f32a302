import Mathlib.Algebra.Order.AbsoluteValue.Basic
import Mathlib.Algebra.Order.Field.Basic
import Mathlib.Tactic.Linarith
import Mathlib.Tactic.Ring

/-!
# Relative error

`Near c k x y`: neither of `x` and `y` is below the other times `c ^ k`. With `c` one less the
relative error of an operation, `k` counts the operations that `x` is away from `y`.

## Main results

* `near_of_abs` — from a bound on the difference
* `Near.trans`, `Near.mul`, `Near.inv`, `Near.scale` — the counts add up
-/

namespace Mimo26

namespace RelError

variable {α : Type*} [Field α] [LinearOrder α]

structure Near (c : α) (k : ℕ) (x y : α) : Prop where
  lower : y * c ^ k ≤ x
  upper : x * c ^ k ≤ y

variable [IsStrictOrderedRing α] {c x x' y y' z t : α} {k l : ℕ}

/-- A relative error of `1 - c`. -/
theorem near_of_abs (hc : 0 ≤ c) (hy : 0 ≤ y) (h : |x - y| ≤ (1 - c) * y) : Near c 1 x y := by
  obtain ⟨hlo, hhi⟩ := abs_le.mp h
  rw [sub_mul, one_mul] at hlo hhi
  refine ⟨by rw [pow_one]; linarith, ?_⟩
  rw [pow_one]
  have hstep : x * c ≤ (y + (y - c * y)) * c := mul_le_mul_of_nonneg_right (by linarith) hc
  have hsq : 0 ≤ y * (1 - c) ^ 2 := mul_nonneg hy (sq_nonneg _)
  calc x * c ≤ (y + (y - c * y)) * c := hstep
    _ = y - y * (1 - c) ^ 2 := by ring
    _ ≤ y := by linarith

theorem Near.trans (hc : 0 ≤ c) (h : Near c k x y) (h' : Near c l y z) : Near c (k + l) x z where
  lower := by
    calc z * c ^ (k + l) = z * c ^ l * c ^ k := by ring
      _ ≤ y * c ^ k := mul_le_mul_of_nonneg_right h'.lower (pow_nonneg hc k)
      _ ≤ x := h.lower
  upper := by
    calc x * c ^ (k + l) = x * c ^ k * c ^ l := by ring
      _ ≤ y * c ^ l := mul_le_mul_of_nonneg_right h.upper (pow_nonneg hc l)
      _ ≤ z := h'.upper

theorem Near.mul (hc : 0 ≤ c) (h : Near c k x y) (h' : Near c l x' y') (hx : 0 ≤ x) (hx' : 0 ≤ x')
    (hy : 0 ≤ y) (hy' : 0 ≤ y') : Near c (k + l) (x * x') (y * y') where
  lower := by
    calc y * y' * c ^ (k + l) = y * c ^ k * (y' * c ^ l) := by ring
      _ ≤ x * x' := mul_le_mul h.lower h'.lower (mul_nonneg hy' (pow_nonneg hc l)) hx
  upper := by
    calc x * x' * c ^ (k + l) = x * c ^ k * (x' * c ^ l) := by ring
      _ ≤ y * y' := mul_le_mul h.upper h'.upper (mul_nonneg hx' (pow_nonneg hc l)) hy

theorem Near.inv (h : Near c k x y) (hx : 0 < x) (hy : 0 < y) : Near c k x⁻¹ y⁻¹ where
  lower := by
    rw [inv_mul_le_iff₀ hy, ← div_eq_mul_inv, le_div_iff₀ hx, mul_comm]
    exact h.upper
  upper := by
    rw [inv_mul_le_iff₀ hx, ← div_eq_mul_inv, le_div_iff₀ hy, mul_comm]
    exact h.lower

theorem Near.scale (h : Near c k x y) (ht : 0 ≤ t) : Near c k (t * x) (t * y) where
  lower := by
    rw [mul_assoc]
    exact mul_le_mul_of_nonneg_left h.lower ht
  upper := by
    rw [mul_assoc]
    exact mul_le_mul_of_nonneg_left h.upper ht

theorem Near.pos (h : Near c k x y) (hc : 0 < c) (hy : 0 < y) : 0 < x :=
  (mul_pos hy (pow_pos hc k)).trans_le h.lower

end RelError

end Mimo26

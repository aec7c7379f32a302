import Mathlib.Algebra.Group.Nat.Even
import Mathlib.Algebra.Order.AbsoluteValue.Basic
import Mathlib.Algebra.Order.Field.Power
import Mathlib.Tactic.Linarith
import Mathlib.Tactic.Ring

/-!
# Rounding to the nearest, ties to even

Numbers of `p` bits are an integer below `2 ^ p` times a power of two. A number that is not smaller
than the least integer of `p` bits times a unit is rounded to a multiple of that unit: no number of
`p` bits with a smaller unit is as near.

## Main definitions

* `nearestEven` — the nearest integer
* `IsRounded` — the nearest number of `p` bits

## Main results

* `nearestEven_isRounded` — the nearest integer, in units, is the nearest number of `p` bits
* `IsRounded.abs_sub_le` — the error is half a unit at most
* `IsRounded.carry` — a carry out of the bits moves to the next exponent
-/

namespace Mimo26

namespace RoundEven

variable {α : Type*} [Field α] [LinearOrder α]

/-- `n + f` rounded, for a fraction `f`. -/
def nearestEven (n : ℕ) (f : α) : ℕ := if 1 / 2 < f ∨ f = 1 / 2 ∧ ¬ Even n then n + 1 else n

/-- No number of `p` bits is nearer to `x` than `m * 2 ^ e`, and `m` is even when another one is as
near. -/
def IsRounded (p : ℕ) (x : α) (m : ℕ) (e : ℤ) : Prop :=
  ∀ (m' : ℕ) (e' : ℤ), m' < 2 ^ p → |x - m * 2 ^ e| ≤ |x - m' * 2 ^ e'| ∧
    (|x - m * 2 ^ e| = |x - m' * 2 ^ e'| → (m' : α) * 2 ^ e' = m * 2 ^ e ∨ Even m)

theorem nearestEven_le_succ (n : ℕ) (f : α) : nearestEven n f ≤ n + 1 := by
  rw [nearestEven]
  split <;> omega

theorem le_nearestEven (n : ℕ) (f : α) : n ≤ nearestEven n f := by
  rw [nearestEven]
  split <;> omega

variable [IsStrictOrderedRing α] {n p : ℕ} {f x : α} {e : ℤ}

/-- The distance to the nearest integer. -/
theorem abs_sub_nearestEven (hf : 0 ≤ f) (hf' : f < 1) :
    |(n : α) + f - nearestEven n f| = min f (1 - f) := by
  rw [nearestEven]
  split
  · next hup =>
    have hhalf : 1 / 2 ≤ f := hup.elim le_of_lt fun h => h.1.ge
    rw [min_eq_right (by linarith), abs_of_nonpos (by push_cast; linarith)]
    push_cast
    ring
  · next hdown =>
    have hhalf : f ≤ 1 / 2 := not_lt.mp fun h => hdown (.inl h)
    rw [min_eq_left (by linarith), abs_of_nonneg (by linarith)]
    ring

/-- An integer is not nearer, and one as near is the same one or the result is even. -/
theorem nearestEven_spec (hf : 0 ≤ f) (hf' : f < 1) (k : ℕ) :
    |(n : α) + f - nearestEven n f| ≤ |(n : α) + f - k| ∧
      (|(n : α) + f - nearestEven n f| = |(n : α) + f - k| →
        k = nearestEven n f ∨ Even (nearestEven n f)) := by
  rw [abs_sub_nearestEven hf hf']
  rcases Nat.lt_trichotomy k n with hlt | rfl | hgt
  · have hk : (k : α) + 1 ≤ n := by exact_mod_cast hlt
    rw [abs_of_nonneg (by linarith)]
    have hmin : min f (1 - f) ≤ f := min_le_left f (1 - f)
    exact ⟨by linarith, fun heq => absurd heq (by linarith)⟩
  · rw [add_sub_cancel_left, abs_of_nonneg hf]
    refine ⟨min_le_left f (1 - f), fun heq => ?_⟩
    have hhalf : f ≤ 1 / 2 := by linarith [min_eq_left_iff.mp heq]
    rw [nearestEven]
    split
    · next hup =>
      obtain ⟨-, hodd⟩ := hup.resolve_left hhalf.not_gt
      exact .inr (Nat.not_even_iff_odd.mp hodd).add_one
    · exact .inl rfl
  · have hk : (n : α) + 1 ≤ k := by exact_mod_cast hgt
    rw [abs_of_nonpos (by linarith)]
    have hmin : min f (1 - f) ≤ 1 - f := min_le_right f (1 - f)
    refine ⟨by linarith, fun heq => ?_⟩
    have hle : 1 - f ≤ min f (1 - f) := by linarith
    have hhalf : 1 / 2 ≤ f := by linarith [min_eq_right_iff.mp (le_antisymm hmin hle)]
    have hnext : k = n + 1 := by
      have hcast : (k : α) = n + 1 := by linarith
      exact_mod_cast hcast
    rw [nearestEven]
    split
    · exact .inl hnext
    · next hdown =>
      have heq : f = 1 / 2 := le_antisymm (not_lt.mp fun h => hdown (.inl h)) hhalf
      exact .inr (not_not.mp fun h => hdown (.inr ⟨heq, h⟩))

/-- A number below `n` is farther. -/
theorem abs_sub_nearestEven_lt (hf : 0 ≤ f) (hf' : f < 1) {v : α} (hv : v < n) :
    |(n : α) + f - nearestEven n f| < |(n : α) + f - v| := by
  rw [abs_sub_nearestEven hf hf', abs_of_nonneg (by linarith)]
  have hmin : min f (1 - f) ≤ f := min_le_left f (1 - f)
  linarith

/-- **The nearest integer**, in units of `2 ^ e`, is the nearest number of `p + 1` bits. -/
theorem nearestEven_isRounded (hf : 0 ≤ f) (hf' : f < 1) (hn : 2 ^ p ≤ n)
    (hx : x = (n + f) * 2 ^ e) : IsRounded (p + 1) x (nearestEven n f) e := by
  intro m' e' hm'
  have hunit : (0 : α) < 2 ^ e := zpow_pos two_pos e
  have hscale (v : α) : |x - v * 2 ^ e| = |(n : α) + f - v| * 2 ^ e := by
    rw [hx, ← sub_mul, abs_mul, abs_of_pos hunit]
  rw [hscale]
  rcases le_or_gt e e' with hle | hlt
  · obtain ⟨d, hd⟩ := Int.eq_ofNat_of_zero_le (sub_nonneg.mpr hle)
    have hint : (m' : α) * 2 ^ e' = ((m' * 2 ^ d : ℕ) : α) * 2 ^ e := by
      rw [show e' = d + e by omega, zpow_add₀ two_ne_zero, zpow_natCast]
      push_cast
      ring
    rw [hint, hscale]
    obtain ⟨hle, htie⟩ := nearestEven_spec (n := n) hf hf' (m' * 2 ^ d)
    refine ⟨mul_le_mul_of_nonneg_right hle hunit.le, fun heq => ?_⟩
    refine (htie (mul_right_cancel₀ hunit.ne' heq)).imp_left fun hk => ?_
    rw [hk]
  · -- a smaller unit: the number is below `n` units
    have hval : (m' : α) * 2 ^ e' = (m' * 2 ^ (e' - e)) * 2 ^ e := by
      rw [mul_assoc, ← zpow_add₀ two_ne_zero, sub_add_cancel]
    have hsmall : (m' : α) * 2 ^ (e' - e) < n := by
      have hhalf : (2 : α) ^ (e' - e) ≤ 2⁻¹ := by
        rw [← zpow_neg_one]
        exact zpow_le_zpow_right₀ one_le_two (by omega)
      have hm : (m' : α) < 2 * 2 ^ p := by
        rw [← pow_succ']
        exact_mod_cast hm'
      have hn' : (2 : α) ^ p ≤ n := by exact_mod_cast hn
      calc (m' : α) * 2 ^ (e' - e) ≤ m' * 2⁻¹ :=
            mul_le_mul_of_nonneg_left hhalf (Nat.cast_nonneg m')
        _ < 2 * 2 ^ p * 2⁻¹ := mul_lt_mul_of_pos_right hm (by positivity)
        _ = 2 ^ p := by ring
        _ ≤ n := hn'
    rw [hval, hscale]
    have hlt := mul_lt_mul_of_pos_right (abs_sub_nearestEven_lt hf hf' hsmall) hunit
    exact ⟨hlt.le, fun heq => absurd heq hlt.ne⟩

/-- A rounded number is off by half a unit at most. -/
theorem IsRounded.abs_sub_le {m : ℕ} (h : IsRounded p x m e) (hpos : 0 < m) (hm : m < 2 ^ p) :
    |x - m * 2 ^ e| ≤ 2 ^ e / 2 := by
  have hunit : (0 : α) < 2 ^ e := zpow_pos two_pos e
  rcases le_total ((m : α) * 2 ^ e) x with hle | hle
  · have hnext : |x - m * 2 ^ e| ≤ |x - ((m : α) + 1) * 2 ^ e| := by
      rcases Nat.lt_or_ge (m + 1) (2 ^ p) with hlt | hge
      · have hle := (h (m + 1) e hlt).1
        rwa [Nat.cast_add_one] at hle
      · -- the next multiple is the next power of two
        have hone := (h 1 (e + p) (by omega)).1
        have hval : ((1 : ℕ) : α) * 2 ^ (e + p) = ((m : α) + 1) * 2 ^ e := by
          have hpow : (m : α) + 1 = 2 ^ p := by exact_mod_cast le_antisymm hm hge
          rw [zpow_add₀ two_ne_zero, zpow_natCast, hpow, Nat.cast_one]
          ring
        rwa [hval] at hone
    rw [abs_of_nonneg (sub_nonneg.mpr hle)] at hnext ⊢
    rcases le_total x (((m : α) + 1) * 2 ^ e) with hx | hx
    · rw [abs_of_nonpos (sub_nonpos.mpr hx)] at hnext
      linarith
    · rw [abs_of_nonneg (sub_nonneg.mpr hx)] at hnext
      linarith
  · have hprev := (h (m - 1) e (by omega)).1
    rw [Nat.cast_sub hpos, Nat.cast_one, abs_of_nonpos (sub_nonpos.mpr hle)] at hprev
    rw [abs_of_nonpos (sub_nonpos.mpr hle)]
    rcases le_total (((m : α) - 1) * 2 ^ e) x with hx | hx
    · rw [abs_of_nonneg (sub_nonneg.mpr hx)] at hprev
      linarith
    · rw [abs_of_nonpos (sub_nonpos.mpr hx)] at hprev
      linarith

/-- A number of `p` bits above `x` is above what `x` is rounded to. -/
theorem IsRounded.le {m m' : ℕ} {e' : ℤ} (h : IsRounded p x m e) (hm' : m' < 2 ^ p)
    (hx : x ≤ (m' : α) * 2 ^ e') : (m : α) * 2 ^ e ≤ (m' : α) * 2 ^ e' := by
  by_contra hlt
  rw [not_le] at hlt
  have hle := (h m' e' hm').1
  rw [abs_of_nonpos (by linarith), abs_of_nonpos (by linarith)] at hle
  linarith

/-- The carry out of `p + 2` bits. -/
theorem IsRounded.carry {q : ℕ} (h : IsRounded q x (2 ^ (p + 2)) e) :
    IsRounded q x (2 ^ (p + 1)) (e + 1) := by
  have hval : ((2 ^ (p + 1) : ℕ) : α) * 2 ^ (e + 1) = ((2 ^ (p + 2) : ℕ) : α) * 2 ^ e := by
    rw [zpow_add_one₀ two_ne_zero]
    push_cast
    ring
  intro m' e' hm'
  rw [hval]
  obtain ⟨hle, htie⟩ := h m' e' hm'
  exact ⟨hle, fun heq => (htie heq).imp_right fun _ => ⟨2 ^ p, by ring⟩⟩

end RoundEven

end Mimo26

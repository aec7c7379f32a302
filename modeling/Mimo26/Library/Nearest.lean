import Mathlib.Algebra.Order.Field.Basic
import Mathlib.Algebra.Order.AbsoluteValue.Basic
import Mathlib.Order.Monotone.Basic

/-!
# The nearest level

Levels are the values of a strictly increasing sequence. A number is nearest to one of the two
levels it lies between; of two equally near ones the larger is taken.

## Main definitions

* `IsNearest` — the index of the nearest level
* `nearer` — of two neighbours

## Main results

* `IsNearest.unique` — there is one
* `nearer_isNearest` — between two neighbours it is the nearer
-/

namespace Mimo26

namespace Nearest

variable {α : Type*} [Field α] [LinearOrder α]

/-- Level `k` is nearest to `x`, the larger one on a tie. -/
def IsNearest (level : ℕ → α) (x : α) (k : ℕ) : Prop :=
  ∀ i, |x - level k| < |x - level i| ∨ (|x - level k| = |x - level i| ∧ i ≤ k)

/-- Level `k` or the one after it. -/
def nearer (level : ℕ → α) (x : α) (k : ℕ) : ℕ :=
  if x - level k < level (k + 1) - x then k else k + 1

variable {level : ℕ → α} {x : α} {k : ℕ}

theorem IsNearest.unique {j : ℕ} (hj : IsNearest level x j) (hk : IsNearest level x k) :
    j = k := by
  rcases hj k with hlt | ⟨heq, hkj⟩
  · rcases hk j with hlt' | ⟨heq', -⟩
    · exact absurd hlt' hlt.not_gt
    · exact absurd heq'.symm hlt.ne
  · rcases hk j with hlt' | ⟨-, hjk⟩
    · exact absurd heq.symm hlt'.ne
    · exact Nat.le_antisymm hjk hkj

variable [IsStrictOrderedRing α]

/-- A level below is as far as it is below. -/
theorem abs_sub_of_le {i : ℕ} (hlevel : StrictMono level) (hi : i ≤ k) (hlo : level k ≤ x) :
    |x - level i| = x - level i :=
  abs_of_nonneg (sub_nonneg.mpr ((hlevel.monotone hi).trans hlo))

theorem abs_sub_of_ge {i : ℕ} (hlevel : StrictMono level) (hi : k ≤ i) (hhi : x ≤ level k) :
    |x - level i| = level i - x := by
  rw [abs_sub_comm]
  exact abs_of_nonneg (sub_nonneg.mpr (hhi.trans (hlevel.monotone hi)))

/-- **Between two neighbours** the nearer is the nearest. -/
theorem nearer_isNearest (hlevel : StrictMono level) (hlo : level k ≤ x) (hhi : x ≤ level (k + 1)) :
    IsNearest level x (nearer level x k) := by
  intro i
  rw [nearer]
  split
  · next hlt =>
    rw [abs_sub_of_le hlevel le_rfl hlo]
    rcases Nat.lt_trichotomy i k with hik | rfl | hik
    · rw [abs_sub_of_le hlevel hik.le hlo]
      exact Or.inl (sub_lt_sub_left (hlevel hik) x)
    · rw [abs_sub_of_le hlevel le_rfl hlo]
      exact Or.inr ⟨rfl, le_rfl⟩
    · rw [abs_sub_of_ge hlevel hik hhi]
      exact Or.inl (hlt.trans_le (sub_le_sub_right (hlevel.monotone hik) x))
  · next hle =>
    rw [abs_sub_of_ge hlevel le_rfl hhi]
    rcases Nat.lt_trichotomy i (k + 1) with hik | rfl | hik
    · rw [abs_sub_of_le hlevel (Nat.le_of_lt_succ hik) hlo]
      have hfar : level (k + 1) - x ≤ x - level i :=
        (not_lt.mp hle).trans (sub_le_sub_left (hlevel.monotone (Nat.le_of_lt_succ hik)) x)
      exact hfar.lt_or_eq.imp_right fun heq => ⟨heq, hik.le⟩
    · rw [abs_sub_of_ge hlevel le_rfl hhi]
      exact Or.inr ⟨rfl, le_rfl⟩
    · rw [abs_sub_of_ge hlevel hik.le hhi]
      exact Or.inl (sub_lt_sub_right (hlevel hik) x)

/-- A level is nearest to itself. -/
theorem isNearest_level (hlevel : StrictMono level) (k : ℕ) : IsNearest level (level k) k := by
  intro i
  rw [sub_self, abs_zero]
  rcases eq_or_ne i k with rfl | hne
  · exact Or.inr ⟨by rw [sub_self, abs_zero], le_rfl⟩
  · exact Or.inl (abs_pos.mpr (sub_ne_zero.mpr (hlevel.injective.ne hne.symm)))

end Nearest

end Mimo26

import Mathlib.Tactic.FieldSimp
import Mathlib.Tactic.GCongr
import Mathlib.Tactic.Positivity
import Mathlib.Tactic.Ring
import Mimo26.Image.Resize

/-!
# The windows of bicubic resizing

The window of an output pixel is the input pixels at most two units of the filter from its center.
Windows lie in the input, their ends increase with the output pixel, and the first and the last one
reach the ends of the input, so that the first pass has every row.

## Main results

* `mem_window` — which input pixels are in a window
* `window_spec` — a window is not empty, not cut and inside of the input
* `xminOf_mono`, `xmaxOf_mono` — windows advance
* `xminOf_first`, `xmaxOf_last` — together they are the input
-/

namespace Mimo26

namespace Image

namespace Resize

theorem truncate_of_nonneg {x : ℚ} (h : 0 ≤ x) : truncate x = ⌊x⌋ := if_pos h

theorem max_truncate (x : ℚ) : max (truncate x) 0 = max ⌊x⌋ 0 := by
  rw [truncate]
  split
  · rfl
  · next h =>
    have hneg : x < 0 := not_le.mp h
    rw [max_eq_right (Int.ceil_le.mpr (by exact_mod_cast hneg.le)),
      max_eq_right (Int.floor_nonpos hneg.le)]

theorem truncate_mono {x y : ℚ} (hxy : x ≤ y) : truncate x ≤ truncate y := by
  rw [truncate, truncate]
  split <;> split
  · exact Int.floor_mono hxy
  · next hx hy => exact absurd (hx.trans hxy) hy
  · next hx hy => exact (Int.ceil_le.mpr (by exact_mod_cast (not_le.mp hx).le)).trans (Int.floor_nonneg.mpr hy)
  · exact Int.ceil_mono hxy

variable {n m xx : ℕ}

theorem scaleOf_pos (hn : 0 < n) (hm : 0 < m) : 0 < scaleOf n m := by
  rw [scaleOf]
  positivity

theorem one_le_filterscale (n m : ℕ) : 1 ≤ filterscale n m := by
  rw [filterscale]
  split
  · exact le_refl 1
  · next h => exact not_lt.mp h

theorem scaleOf_le_filterscale (n m : ℕ) : scaleOf n m ≤ filterscale n m := by
  rw [filterscale]
  split
  · next h => exact h.le
  · exact le_refl _

theorem center_pos (hn : 0 < n) (hm : 0 < m) (xx : ℕ) : 0 < center n m xx := by
  have h := scaleOf_pos hn hm
  rw [center]
  positivity

/-- A center is at least half a unit of the output from the ends of the input. -/
theorem center_bounds (hn : 0 < n) (hm : 0 < m) (hx : xx < m) :
    scaleOf n m / 2 ≤ center n m xx ∧ center n m xx ≤ n - scaleOf n m / 2 := by
  have h := scaleOf_pos hn hm
  have hle : ((xx : ℚ) + 1) ≤ m := by exact_mod_cast hx
  have hn' : (n : ℚ) = m * scaleOf n m := by
    rw [scaleOf]
    field_simp
  have hxx : (0 : ℚ) ≤ xx := by positivity
  rw [center]
  constructor
  · nlinarith
  · rw [hn']
    nlinarith

theorem center_lt (hn : 0 < n) (hm : 0 < m) (hx : xx < m) : center n m xx < n := by
  have h := scaleOf_pos hn hm
  have hle := (center_bounds hn hm hx).2
  linarith

theorem xminOf_eq (n m xx : ℕ) :
    xminOf n m xx = max ⌊center n m xx - support n m + 1 / 2⌋ 0 := max_truncate _

theorem xmaxOf_eq (hn : 0 < n) (hm : 0 < m) (xx : ℕ) :
    xmaxOf n m xx = min ⌊center n m xx + support n m + 1 / 2⌋ n := by
  have hc := center_pos hn hm xx
  have hF := one_le_filterscale n m
  rw [xmaxOf, truncate_of_nonneg]
  rw [support]
  linarith

/-- **The window** has the input pixels at most two units of the filter from the center. -/
theorem mem_window (hn : 0 < n) (hm : 0 < m) {x : ℤ} : (xminOf n m xx ≤ x ∧ x < xmaxOf n m xx) ↔
    (0 ≤ x ∧ x < n) ∧ -support n m < x - center n m xx + 1 / 2 ∧
      x - center n m xx + 1 / 2 ≤ support n m := by
  rw [xminOf_eq, xmaxOf_eq hn hm, max_le_iff, lt_min_iff, ← Int.lt_add_one_iff, Int.floor_lt,
    Int.lt_iff_add_one_le, Int.le_floor]
  push_cast
  constructor
  · rintro ⟨⟨hlo, h0⟩, hhi, hn⟩
    exact ⟨⟨h0, hn⟩, by linarith, by linarith⟩
  · rintro ⟨⟨h0, hn⟩, hlo, hhi⟩
    exact ⟨⟨by linarith, h0⟩, by linarith, hn⟩

/-- The pixel that the center is in. -/
theorem floor_center_mem (hn : 0 < n) (hm : 0 < m) (hx : xx < m) :
    xminOf n m xx ≤ ⌊center n m xx⌋ ∧ ⌊center n m xx⌋ < xmaxOf n m xx := by
  have hF := one_le_filterscale n m
  have hle := Int.floor_le (center n m xx)
  have hlt := Int.lt_floor_add_one (center n m xx)
  have hcenter := center_lt hn hm hx
  refine (mem_window hn hm).mpr ⟨⟨Int.floor_nonneg.mpr (center_pos hn hm xx).le, ?_⟩, ?_, ?_⟩
  · exact_mod_cast hle.trans_lt hcenter
  · rw [support]
    linarith
  · rw [support]
    linarith

theorem xminOf_nonneg (n m xx : ℕ) : 0 ≤ xminOf n m xx := le_max_right _ _

theorem xmaxOf_le (n m xx : ℕ) : xmaxOf n m xx ≤ n := min_le_right _ _

theorem xmaxOf_sub_le (hn : 0 < n) (hm : 0 < m) (xx : ℕ) :
    xmaxOf n m xx - xminOf n m xx ≤ ksizeOf n m := by
  have hceil := Int.le_ceil (support n m)
  have hF := one_le_filterscale n m
  have hnonneg : 0 ≤ ⌈support n m⌉ := Int.ceil_nonneg (by rw [support]; linarith)
  have hmax : xmaxOf n m xx ≤ ⌊center n m xx + support n m + 1 / 2⌋ :=
    (xmaxOf_eq hn hm xx).le.trans (min_le_left _ _)
  have hmin : ⌊center n m xx - support n m + 1 / 2⌋ ≤ xminOf n m xx :=
    (le_max_left _ _).trans (xminOf_eq n m xx).ge
  have hhi := Int.floor_le (center n m xx + support n m + 1 / 2)
  have hlo := Int.lt_floor_add_one (center n m xx - support n m + 1 / 2)
  have hlt : (⌊center n m xx + support n m + 1 / 2⌋ : ℚ) - ⌊center n m xx - support n m + 1 / 2⌋ <
      2 * ⌈support n m⌉ + 1 := by linarith
  have hint : ⌊center n m xx + support n m + 1 / 2⌋ - ⌊center n m xx - support n m + 1 / 2⌋ <
      2 * ⌈support n m⌉ + 1 := by exact_mod_cast hlt
  rw [ksizeOf]
  push_cast
  rw [Int.toNat_of_nonneg hnonneg]
  omega

/-- **A window is not empty, inside of the input and not cut.** -/
theorem window_spec (hn : 0 < n) (hm : 0 < m) (hx : xx < m) :
    0 < countOf n m xx ∧ countOf n m xx = uncut n m xx ∧
      xminOf n m xx + countOf n m xx = xmaxOf n m xx := by
  have hmem := floor_center_mem hn hm hx
  have hsub := xmaxOf_sub_le hn hm xx
  have huncut : (uncut n m xx : ℤ) = xmaxOf n m xx - xminOf n m xx := by
    rw [uncut, Int.toNat_of_nonneg (le_max_right _ _)]
    omega
  have hcount : countOf n m xx = uncut n m xx := min_eq_left (by omega)
  omega

example : (precompute 10 3).bounds = [(0, 8), (0, 10), (2, 8)] := by decide +kernel

theorem center_mono (hn : 0 < n) (hm : 0 < m) {xx xx' : ℕ} (h : xx ≤ xx') :
    center n m xx ≤ center n m xx' := by
  have hs := (scaleOf_pos hn hm).le
  rw [center, center]
  gcongr

/-- **Windows start no earlier** than those before them. -/
theorem xminOf_mono (hn : 0 < n) (hm : 0 < m) {xx xx' : ℕ} (h : xx ≤ xx') :
    xminOf n m xx ≤ xminOf n m xx' := by
  have hc := center_mono hn hm h
  exact max_le_max (truncate_mono (by linarith)) (le_refl 0)

/-- **Windows end no earlier** than those before them. -/
theorem xmaxOf_mono (hn : 0 < n) (hm : 0 < m) {xx xx' : ℕ} (h : xx ≤ xx') :
    xmaxOf n m xx ≤ xmaxOf n m xx' := by
  have hc := center_mono hn hm h
  exact min_le_min (truncate_mono (by linarith)) (le_refl _)

/-- The first window starts with the input. -/
theorem xminOf_first (n m : ℕ) : xminOf n m 0 = 0 := by
  have hF := one_le_filterscale n m
  have hs := scaleOf_le_filterscale n m
  have hneg : center n m 0 - support n m + 1 / 2 ≤ 0 := by
    rw [center, support]
    push_cast
    linarith
  rw [xminOf_eq, max_eq_right (Int.floor_nonpos hneg)]

/-- The last window ends with the input. -/
theorem xmaxOf_last (hn : 0 < n) (hm : 0 < m) : xmaxOf n m (m - 1) = n := by
  have hF := one_le_filterscale n m
  have hs := scaleOf_le_filterscale n m
  have hcenter : center n m (m - 1) = n - scaleOf n m / 2 := by
    rw [center, Nat.cast_sub hm, scaleOf]
    field_simp
    push_cast
    ring
  have hle : (n : ℚ) ≤ center n m (m - 1) + support n m + 1 / 2 := by
    rw [hcenter, support]
    linarith
  rw [xmaxOf_eq hn hm, min_eq_right (Int.le_floor.mpr (by exact_mod_cast hle))]

end Resize

end Image

end Mimo26

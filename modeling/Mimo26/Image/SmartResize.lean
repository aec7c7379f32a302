import Mathlib.Algebra.Order.Floor.Semiring
import Mathlib.Data.Rat.Floor
import Mathlib.Tactic.FieldSimp
import Mathlib.Tactic.GCongr
import Mathlib.Tactic.NormNum
import Mathlib.Tactic.Positivity
import Mimo26.Image.Preprocess
import Mimo26.Image.TrueDiv
import Mimo26.Library.RelError
import Mimo26.Library.Result

/-!
# Sides within the limits

The sides an image is resized to, with the floating-point steps written out over operations that are
off by a small relative error (`smart_resize` and `merged_tokens` of `lib.rs`).

## Main definitions

* `FloatOps`, `FloatOps.Accurate` — the operations and their error
* `FloatOps.steps` — the steps of `smart_resize`
* `mergedTokens`

## Main results

* `smartResize_bounds` — the sides are multiples of 32 with an area within the limits
-/

namespace Mimo26

namespace Image

open RelError RoundEven TrueDiv

/-- The operations on floats, by their values, and what is printed for one. -/
structure FloatOps where
  div : ℚ → ℚ → ℚ
  mul : ℚ → ℚ → ℚ
  sqrt : ℚ → ℚ
  print : ℚ → String

namespace FloatOps

variable (F : FloatOps)

/-- The value of `py_true_div`. Operands up to 64 bits do not panic. -/
def trueDiv (a b : ℕ) : ℚ :=
  match pyTrueDiv a b with
  | some (.floats a b) => F.div a b
  | some .zero => 0
  | some (.scaled m exp) => m * 2 ^ exp
  | none => 0

/-- `x.round_ties_even() as u64`. -/
def roundTiesEven (x : ℚ) : ℕ := nearestEven ⌊x⌋₊ (x - ⌊x⌋₊)

/-- The floating-point steps of `smart_resize`. -/
def steps : FloatSteps where
  narrow larger smaller :=
    let ratio := F.trueDiv larger smaller
    if 200 < ratio then some (F.print ratio) else none
  rounded side := roundTiesEven (F.div side factor)
  shrunk side area :=
    let beta := F.sqrt (F.trueDiv area maxPixels)
    ⌊F.div (F.div side beta) factor⌋₊
  enlarged side area :=
    let beta := F.sqrt (F.trueDiv minPixels area)
    ⌈F.div (F.mul side beta) factor⌉₊

/-- One less the relative error. -/
def c : ℚ := 1 - 1 / 2 ^ 52

/-- Each operation on positive numbers is within a relative error of 2^-52. -/
structure Accurate : Prop where
  div : ∀ x y, 0 < x → 0 < y → |F.div x y - x / y| ≤ 1 / 2 ^ 52 * (x / y)
  mul : ∀ x y, 0 < x → 0 < y → |F.mul x y - x * y| ≤ 1 / 2 ^ 52 * (x * y)
  sqrt_lower : ∀ x, 0 < x → (1 - 1 / 2 ^ 52) ^ 2 * x ≤ F.sqrt x ^ 2
  sqrt_upper : ∀ x, 0 < x → F.sqrt x ^ 2 ≤ (1 + 1 / 2 ^ 52) ^ 2 * x
  sqrt_nonneg : ∀ x, 0 < x → 0 ≤ F.sqrt x

end FloatOps

/-- The tokens of an image of this size. -/
def mergedTokens (f : FloatSteps) (height width : ℕ) : Except ImageError ℕ := do
  let sides ← smartResize f height width
  return sides.1 / factor * (sides.2 / factor)

namespace FloatOps

/-! ### One operation -/

theorem c_pos : 0 < c := by
  rw [c]
  norm_num

variable {F : FloatOps}

theorem Accurate.div_near (hF : F.Accurate) {x y : ℚ} (hx : 0 < x) (hy : 0 < y) :
    Near c 1 (F.div x y) (x / y) :=
  near_of_abs c_pos.le (div_pos hx hy).le (by rw [c, sub_sub_cancel]; exact hF.div x y hx hy)

theorem Accurate.mul_near (hF : F.Accurate) {x y : ℚ} (hx : 0 < x) (hy : 0 < y) :
    Near c 1 (F.mul x y) (x * y) :=
  near_of_abs c_pos.le (mul_pos hx hy).le (by rw [c, sub_sub_cancel]; exact hF.mul x y hx hy)

theorem Accurate.sqrt_near (hF : F.Accurate) {x : ℚ} (hx : 0 < x) : Near c 2 (F.sqrt x ^ 2) x where
  lower := by
    rw [mul_comm]
    exact hF.sqrt_lower x hx
  upper := by
    have hle : (1 + 1 / 2 ^ 52 : ℚ) ^ 2 * c ^ 2 ≤ 1 := by
      rw [c]
      norm_num
    calc F.sqrt x ^ 2 * c ^ 2 ≤ (1 + 1 / 2 ^ 52) ^ 2 * x * c ^ 2 :=
          mul_le_mul_of_nonneg_right (hF.sqrt_upper x hx) (pow_nonneg c_pos.le 2)
      _ = (1 + 1 / 2 ^ 52) ^ 2 * c ^ 2 * x := by ring
      _ ≤ 1 * x := mul_le_mul_of_nonneg_right hle hx.le
      _ = x := one_mul x

theorem Accurate.sqrt_pos (hF : F.Accurate) {x : ℚ} (hx : 0 < x) : 0 < F.sqrt x := by
  have hsq := (hF.sqrt_near hx).pos c_pos hx
  exact (hF.sqrt_nonneg x hx).lt_of_ne' (pow_ne_zero_iff two_ne_zero |>.mp hsq.ne')

/-- The integer division is within the error too. -/
theorem Accurate.trueDiv_near (hF : F.Accurate) {a b : ℕ} (ha : 0 < a) (ha' : a < 2 ^ 64)
    (hb : 0 < b) (hb' : b < 2 ^ 64) : Near c 1 (F.trueDiv a b) (a / b) := by
  have hcast : (0 : ℚ) < a / b := div_pos (by exact_mod_cast ha) (by exact_mod_cast hb)
  by_cases hfast : a ≤ 2 ^ 53 ∧ b ≤ 2 ^ 53
  · rw [trueDiv, pyTrueDiv, if_pos hfast]
    exact hF.div_near (by exact_mod_cast ha) (by exact_mod_cast hb)
  · obtain ⟨m, exp, hrun, hlo, hhi, hround⟩ := scaledQuotient_eq ha ha' hb hb'
    have hval : F.trueDiv a b = m * 2 ^ exp := by
      rw [trueDiv, pyTrueDiv, if_neg hfast, if_neg ha.ne', hrun]
      rfl
    have hunit : (0 : ℚ) < 2 ^ exp := zpow_pos two_pos exp
    have herr := hround.abs_sub_le (by omega) hhi
    rw [abs_sub_comm] at herr
    -- half a unit is small beside `2 ^ 52` units
    have hm : (2 : ℚ) ^ 52 ≤ m := by exact_mod_cast hlo
    have hmul : 2 ^ 52 * 2 ^ exp ≤ (m : ℚ) * 2 ^ exp := mul_le_mul_of_nonneg_right hm hunit.le
    obtain ⟨-, hup⟩ := abs_le.mp herr
    rw [hval]
    refine near_of_abs c_pos.le hcast.le (herr.trans ?_)
    rw [c, sub_sub_cancel, div_mul_eq_mul_div, one_mul, le_div_iff₀ (by positivity)]
    linarith

/-- In units of 32. -/
theorem Accurate.units_near (hF : F.Accurate) {x y : ℚ} (h : Near c 1 x y) (hy : 0 < y) :
    Near c 2 (F.div x factor) (y / 32) := by
  have hx := h.pos c_pos hy
  have houter := hF.div_near (y := factor) hx (by rw [factor]; norm_num)
  have hscale := h.scale (t := 1 / 32) (by norm_num)
  have hx32 : x / ((factor : ℕ) : ℚ) = 1 / 32 * x := by
    rw [factor]
    push_cast
    ring
  have hy32 : y / 32 = 1 / 32 * y := by ring
  rw [hx32] at houter
  rw [hy32]
  exact houter.trans c_pos.le hscale

/-! ### Two sides scaled alike -/

section scaled

variable {h w g a b K : ℚ}

/-- Sides scaled by `g`, in units of 32, where `g` scales the area to `K`. -/
theorem area_near (hh : 0 < h) (hw : 0 < w) (hg : 0 < g) (ha : Near c 2 a (h * g / 32))
    (hb : Near c 2 b (w * g / 32)) (hK : Near c 3 (g ^ 2) (K / (h * w))) :
    Near c 7 (a * b) (K / 1024) := by
  have ha' : 0 < a := ha.pos c_pos (by positivity)
  have hb' : 0 < b := hb.pos c_pos (by positivity)
  have hprod := ha.mul c_pos.le hb ha'.le hb'.le (by positivity) (by positivity)
  have hscale := hK.scale (t := h * w / 1024) (by positivity)
  have hleft : h * w / 1024 * g ^ 2 = h * g / 32 * (w * g / 32) := by ring
  have hright : h * w / 1024 * (K / (h * w)) = K / 1024 := by
    field_simp
  rw [hleft, hright] at hscale
  exact hprod.trans c_pos.le hscale

theorem side_near (hh : 0 < h) (hw : 0 < w) (hg : 0 < g) (ha : Near c 2 a (h * g / 32))
    (hK : Near c 3 (g ^ 2) (K / (h * w))) : Near c 7 (a * a) (K / 1024 * (h / w)) := by
  have ha' : 0 < a := ha.pos c_pos (by positivity)
  have hprod := ha.mul c_pos.le ha ha'.le ha'.le (by positivity) (by positivity)
  have hscale := hK.scale (t := h * h / 1024) (by positivity)
  have hleft : h * h / 1024 * g ^ 2 = h * g / 32 * (h * g / 32) := by ring
  have hright : h * h / 1024 * (K / (h * w)) = K / 1024 * (h / w) := by
    field_simp
  rw [hleft, hright] at hscale
  exact hprod.trans c_pos.le hscale

/-- Seven operations are off by little. -/
theorem c_pow_seven : 1 - 1 / 2 ^ 40 ≤ c ^ 7 := by
  rw [c]
  norm_num

/-- Whole units below sides scaled to 12,544 units of area. -/
theorem floor_bounds (hh : 0 < h) (hw : 0 < w) (hg : 0 < g) (hhw : h ≤ 200 * w) (hwh : w ≤ 200 * h)
    (ha : Near c 2 a (h * g / 32)) (hb : Near c 2 b (w * g / 32))
    (hK : Near c 3 (g ^ 2) (maxPixels / (h * w))) :
    7 ≤ ⌊a⌋₊ ∧ 7 ≤ ⌊b⌋₊ ∧ ⌊a⌋₊ * ⌊b⌋₊ ≤ 12544 := by
  have hc := c_pow_seven
  have ha' : 0 < a := ha.pos c_pos (by positivity)
  have hb' : 0 < b := hb.pos c_pos (by positivity)
  have hmax : ((maxPixels : ℕ) : ℚ) / 1024 = 12544 := by
    rw [maxPixels]
    norm_num
  have hseven {x y z : ℚ} (hx : 0 < x) (hy : 0 < y) (hz : 0 < z) (hzy : z ≤ 200 * y)
      (hnear : Near c 7 (x * x) (12544 * (y / z))) : 7 ≤ ⌊x⌋₊ := by
    have hratio : 1 / 200 ≤ y / z := by
      rw [div_le_div_iff₀ (by norm_num) hz]
      linarith
    have hsq : 49 ≤ x * x := by
      have hlow := hnear.lower
      have hstep : 12544 * (1 / 200) * (1 - 1 / 2 ^ 40) ≤ 12544 * (y / z) * c ^ 7 := by
        gcongr
      have hnum : (49 : ℚ) ≤ 12544 * (1 / 200) * (1 - 1 / 2 ^ 40) := by norm_num
      linarith
    exact Nat.le_floor (by push_cast; nlinarith)
  have harea := area_near hh hw hg ha hb hK
  have haside := side_near hh hw hg ha hK
  have hbside := side_near hw hh hg hb (by rwa [mul_comm w h])
  rw [hmax] at harea haside hbside
  refine ⟨hseven ha' hh hw hwh haside, hseven hb' hw hh hhw hbside, ?_⟩
  have hlt : a * b < 12545 := by
    have hup := harea.upper
    have hstep : a * b * (1 - 1 / 2 ^ 40) ≤ a * b * c ^ 7 := by gcongr
    linarith
  have hle : ((⌊a⌋₊ * ⌊b⌋₊ : ℕ) : ℚ) ≤ a * b := by
    push_cast
    exact mul_le_mul (Nat.floor_le ha'.le) (Nat.floor_le hb'.le) (Nat.cast_nonneg _) ha'.le
  have hfloor : ((⌊a⌋₊ * ⌊b⌋₊ : ℕ) : ℚ) < (12545 : ℕ) := by
    push_cast at hle ⊢
    linarith
  exact Nat.le_of_lt_succ (by exact_mod_cast hfloor)

/-- Whole units above sides scaled to the least area. -/
theorem ceil_bounds (hh : 0 < h) (hw : 0 < w) (hg : 0 < g) (hhw : h ≤ 200 * w) (hwh : w ≤ 200 * h)
    (ha : Near c 2 a (h * g / 32)) (hb : Near c 2 b (w * g / 32))
    (hK : Near c 3 (g ^ 2) (minPixels / (h * w))) :
    ⌈a⌉₊ ≤ 25 ∧ ⌈b⌉₊ ≤ 25 ∧ 4 ≤ ⌈a⌉₊ * ⌈b⌉₊ := by
  have hc := c_pow_seven
  have ha' : 0 < a := ha.pos c_pos (by positivity)
  have hb' : 0 < b := hb.pos c_pos (by positivity)
  have hmin : ((minPixels : ℕ) : ℚ) / 1024 = 49 / 16 := by
    rw [minPixels]
    norm_num
  have htop {x y z : ℚ} (hx : 0 < x) (hz : 0 < z) (hyz : y ≤ 200 * z)
      (hnear : Near c 7 (x * x) (49 / 16 * (y / z))) : ⌈x⌉₊ ≤ 25 := by
    have hratio : y / z ≤ 200 := by
      rw [div_le_iff₀ hz]
      exact hyz
    have hsq : x * x ≤ 625 := by
      have hup := hnear.upper
      have hstep : x * x * (1 - 1 / 2 ^ 40) ≤ x * x * c ^ 7 := by gcongr
      linarith
    exact Nat.ceil_le.mpr (by push_cast; nlinarith)
  have harea := area_near hh hw hg ha hb hK
  have haside := side_near hh hw hg ha hK
  have hbside := side_near hw hh hg hb (by rwa [mul_comm w h])
  rw [hmin] at harea haside hbside
  refine ⟨htop ha' hw hhw haside, htop hb' hh hwh hbside, ?_⟩
  have hgt : 3 < a * b := by
    have hlow := harea.lower
    have hstep : 49 / 16 * (1 - 1 / 2 ^ 40) ≤ 49 / 16 * c ^ 7 := by gcongr
    linarith
  have hle : a * b ≤ ((⌈a⌉₊ * ⌈b⌉₊ : ℕ) : ℚ) := by
    push_cast
    exact mul_le_mul (Nat.le_ceil a) (Nat.le_ceil b) hb'.le (Nat.cast_nonneg _)
  have hceil : ((3 : ℕ) : ℚ) < ((⌈a⌉₊ * ⌈b⌉₊ : ℕ) : ℚ) := by
    push_cast at hle ⊢
    linarith
  exact_mod_cast hceil

end scaled

/-! ### The two scalings -/

variable {height width : ℕ}

/-- A shrunk image. -/
theorem Accurate.shrunk_bounds (hF : F.Accurate) (hh : 0 < height) (hh' : height < 2 ^ 32)
    (hw : 0 < width) (hw' : width < 2 ^ 32) (hhw : height ≤ 200 * width)
    (hwh : width ≤ 200 * height) :
    7 ≤ F.steps.shrunk height (height * width) ∧ 7 ≤ F.steps.shrunk width (height * width) ∧
      F.steps.shrunk height (height * width) * F.steps.shrunk width (height * width) ≤ 12544 := by
  have hpos : 0 < height * width := Nat.mul_pos hh hw
  have hlt : height * width < 2 ^ 64 :=
    (Nat.mul_lt_mul'' hh' hw').trans_eq (by norm_num)
  have htrue := hF.trueDiv_near (b := maxPixels) hpos hlt (by decide) (by decide)
  have hquot : (0 : ℚ) < (height * width : ℕ) / maxPixels :=
    div_pos (by exact_mod_cast hpos) (by rw [maxPixels]; norm_num)
  have hT := htrue.pos c_pos hquot
  have hbeta := hF.sqrt_pos hT
  have hsq := ((hF.sqrt_near hT).trans c_pos.le htrue).inv (by positivity) hquot
  rw [inv_div, ← inv_pow] at hsq
  push_cast at hsq
  have hside {n : ℕ} (hn : 0 < n) :
      Near c 2 (F.div (F.div n (F.sqrt (F.trueDiv (height * width) maxPixels))) factor)
        (n * (F.sqrt (F.trueDiv (height * width) maxPixels))⁻¹ / 32) := by
    have hn' : (0 : ℚ) < n := by exact_mod_cast hn
    rw [← div_eq_mul_inv]
    exact hF.units_near (hF.div_near hn' hbeta) (div_pos hn' hbeta)
  exact floor_bounds (by exact_mod_cast hh) (by exact_mod_cast hw) (inv_pos.mpr hbeta)
    (by exact_mod_cast hhw) (by exact_mod_cast hwh) (hside hh) (hside hw) hsq

/-- An enlarged image. -/
theorem Accurate.enlarged_bounds (hF : F.Accurate) (hh : 0 < height) (hh' : height < 2 ^ 32)
    (hw : 0 < width) (hw' : width < 2 ^ 32) (hhw : height ≤ 200 * width)
    (hwh : width ≤ 200 * height) :
    F.steps.enlarged height (height * width) ≤ 25 ∧
      F.steps.enlarged width (height * width) ≤ 25 ∧
        4 ≤ F.steps.enlarged height (height * width) * F.steps.enlarged width (height * width) := by
  have hpos : 0 < height * width := Nat.mul_pos hh hw
  have hlt : height * width < 2 ^ 64 :=
    (Nat.mul_lt_mul'' hh' hw').trans_eq (by norm_num)
  have htrue := hF.trueDiv_near (a := minPixels) (by decide) (by decide) hpos hlt
  have hquot : (0 : ℚ) < minPixels / (height * width : ℕ) :=
    div_pos (by rw [minPixels]; norm_num) (by exact_mod_cast hpos)
  have hT := htrue.pos c_pos hquot
  have hbeta := hF.sqrt_pos hT
  have hsq := (hF.sqrt_near hT).trans c_pos.le htrue
  push_cast at hsq
  have hside {n : ℕ} (hn : 0 < n) :
      Near c 2 (F.div (F.mul n (F.sqrt (F.trueDiv minPixels (height * width)))) factor)
        (n * F.sqrt (F.trueDiv minPixels (height * width)) / 32) := by
    have hn' : (0 : ℚ) < n := by exact_mod_cast hn
    exact hF.units_near (hF.mul_near hn' hbeta) (mul_pos hn' hbeta)
  exact ceil_bounds (by exact_mod_cast hh) (by exact_mod_cast hw) hbeta
    (by exact_mod_cast hhw) (by exact_mod_cast hwh) (hside hh) (hside hw) hsq

/-- Sides that hold an image. -/
structure Fits (sides : ℕ × ℕ) : Prop where
  height_pos : 0 < sides.1
  width_pos : 0 < sides.2
  height_dvd : 32 ∣ sides.1
  width_dvd : 32 ∣ sides.2
  area_ge : 3136 ≤ sides.1 * sides.2
  area_le : sides.1 * sides.2 ≤ 12845056

theorem fits_units {m n : ℕ} (hlo : 4 ≤ m * n) (hhi : m * n ≤ 12544) :
    Fits (m * factor, n * factor) := by
  have harea : m * factor * (n * factor) = m * n * 1024 := by
    rw [factor]
    ring
  have hm : 0 < m := Nat.pos_of_mul_pos_right (show 0 < m * n by omega)
  have hn : 0 < n := Nat.pos_of_mul_pos_left (show 0 < m * n by omega)
  refine ⟨Nat.mul_pos hm (by decide), Nat.mul_pos hn (by decide), Nat.dvd_mul_left ..,
    Nat.dvd_mul_left .., ?_, ?_⟩
  · show 3136 ≤ m * factor * (n * factor)
    omega
  · show m * factor * (n * factor) ≤ 12845056
    omega

theorem Accurate.fits_barSides (hF : F.Accurate) (hh : 0 < height) (hh' : height < 2 ^ 32)
    (hw : 0 < width) (hw' : width < 2 ^ 32) (hhw : height ≤ 200 * width)
    (hwh : width ≤ 200 * height) : Fits (barSides F.steps height width) := by
  rw [barSides]
  have harea (m n : ℕ) : m * factor * (n * factor) = m * n * 1024 := by
    rw [factor]
    ring
  split
  · obtain ⟨hm, hn, hmn⟩ := hF.shrunk_bounds hh hh' hw hw' hhw hwh
    have hle {m : ℕ} (h : 7 ≤ m) : factor ≤ m * factor := Nat.le_mul_of_pos_left _ (by omega)
    rw [max_eq_right (hle hm), max_eq_right (hle hn)]
    exact fits_units ((show 4 ≤ 7 * 7 by decide).trans (Nat.mul_le_mul hm hn)) hmn
  · next hmax =>
    split
    · obtain ⟨hm, hn, hmn⟩ := hF.enlarged_bounds hh hh' hw hw' hhw hwh
      exact fits_units hmn ((Nat.mul_le_mul hm hn).trans (by decide))
    · next hmin =>
      rw [harea, maxPixels] at hmax
      rw [harea, minPixels] at hmin
      exact fits_units (by omega) (by omega)

theorem Fits.lt {sides : ℕ × ℕ} (h : Fits sides) : sides.1 < 2 ^ 32 ∧ sides.2 < 2 ^ 32 := by
  have hle := h.area_le
  have hfst := Nat.le_mul_of_pos_right sides.1 h.width_pos
  have hsnd := Nat.le_mul_of_pos_left sides.2 h.height_pos
  omega

/-- A ratio up to 200 stays so when it is rounded to the nearest. -/
theorem ratio_le {hi lo m : ℕ} {exp : ℤ} (hlo : 0 < lo) (hle : hi ≤ 200 * lo)
    (hval : F.trueDiv hi lo = m * 2 ^ exp) (hround : IsRounded 53 ((hi : ℚ) / lo) m exp) :
    F.trueDiv hi lo ≤ 200 := by
  have hratio : (hi : ℚ) / lo ≤ (200 : ℕ) * 2 ^ (0 : ℤ) := by
    rw [zpow_zero, mul_one, div_le_iff₀ (by exact_mod_cast hlo)]
    exact_mod_cast hle
  have h := hround.le (by norm_num) hratio
  rw [zpow_zero, mul_one] at h
  rw [hval]
  exact_mod_cast h

/-- **The sides** an image is resized to are positive multiples of 32 with an area within the
limits; a ratio rounded to the nearest does not refuse the image; it has 12,544 tokens at most, and
an even grid of patches that is not empty. -/
theorem smartResize_bounds (hF : F.Accurate) (hh : 0 < height) (hh' : height < 2 ^ 32)
    (hw : 0 < width) (hw' : width < 2 ^ 32)
    (haspect : max height width ≤ 200 * min height width) :
    (∀ sides, smartResize F.steps height width = .ok sides → Fits sides) ∧
      (∀ (m : ℕ) (exp : ℤ), F.trueDiv (max height width) (min height width) = m * 2 ^ exp →
        IsRounded 53 (((max height width : ℕ) : ℚ) / (min height width : ℕ)) m exp →
          ∃ sides, smartResize F.steps height width = .ok sides) ∧
        (∀ n, mergedTokens F.steps height width = .ok n → 0 < n ∧ n ≤ 12544) ∧
          ∀ {V : Type} (normalizeValue : ℕ → UInt8 → V) (zero : V)
            (resizeBicubic : RgbImage → (w h : ℕ) → {out : RgbImage // out.width = w ∧ out.height = h})
            (data : List UInt8) (out : Patches V),
            preprocess normalizeValue zero F.steps resizeBicubic width height data = .ok out →
              Even out.gridH ∧ Even out.gridW ∧ 0 < out.gridH ∧ 0 < out.gridW := by
  have hhw : height ≤ 200 * width := by omega
  have hwh : width ≤ 200 * height := by omega
  have hfits := hF.fits_barSides hh hh' hw hw' hhw hwh
  have hok (sides : ℕ × ℕ) (h : smartResize F.steps height width = .ok sides) : Fits sides := by
    rw [smartResize, if_neg (by omega)] at h
    split at h
    · cases h
    · dsimp only at h
      rw [if_pos hfits.lt] at h
      exact Except.ok.inj h ▸ hfits
  refine ⟨hok, fun m exp hval hround => ⟨barSides F.steps height width, ?_⟩, fun n hn => ?_, ?_⟩
  · have hratio := ratio_le (by omega) haspect hval hround
    have hnarrow : F.steps.narrow (max height width) (min height width) = none :=
      if_neg (not_lt.mpr hratio)
    rw [smartResize, if_neg (by omega), hnarrow]
    dsimp only
    rw [if_pos hfits.lt]
  · obtain ⟨sides, hsides, hn⟩ := Result.bind_eq_ok.mp hn
    have hsize := hok sides hsides
    obtain ⟨a, ha⟩ := hsize.height_dvd
    obtain ⟨b, hb⟩ := hsize.width_dvd
    have hpos : 0 < a * b := by
      refine Nat.mul_pos (Nat.pos_of_ne_zero ?_) (Nat.pos_of_ne_zero ?_)
      · have h := hsize.height_pos
        omega
      · have h := hsize.width_pos
        omega
    have harea : sides.1 * sides.2 = a * b * 1024 := by
      rw [ha, hb]
      ring
    have hle := hsize.area_le
    have hcount : sides.1 / factor * (sides.2 / factor) = a * b := by
      rw [ha, hb, factor, Nat.mul_div_cancel_left a (by decide), Nat.mul_div_cancel_left b (by decide)]
    have hn : sides.1 / factor * (sides.2 / factor) = n := Except.ok.inj hn
    omega
  · intro V normalizeValue zero resizeBicubic data out h
    obtain ⟨-, gh, gw, hgh, hgw, -, -, hsides, rfl⟩ :=
      preprocess_eq_ok normalizeValue zero F.steps resizeBicubic h
    have hsize := hok _ hsides
    have hrow (n : ℕ) : n * 16 / patch = n := Nat.mul_div_cancel n (by decide)
    have hpos := hsize.height_pos
    have hpos' := hsize.width_pos
    dsimp only at hpos hpos'
    rw [patchify]
    dsimp only
    rw [hrow, hrow]
    exact ⟨hgh, hgw, by omega, by omega⟩

/-! ### Exact operations -/

/-- Exact operations, with a square root of 53 bits or more. -/
def exact : FloatOps where
  div x y := x / y
  mul x y := x * y
  sqrt x := (x.num.toNat * x.den * 4 ^ 53).sqrt / (x.den * 2 ^ 53)
  print x := toString x

/-- The square root, by the integers it is computed from. -/
theorem sqrt_exact {x : ℚ} (hx : 0 < x) :
    ∃ N s : ℕ, ∃ t : ℚ, 0 < t ∧ 4 ^ 53 ≤ N ∧ s = N.sqrt ∧ x = N * t ∧ exact.sqrt x ^ 2 = s ^ 2 * t ∧
      0 ≤ exact.sqrt x := by
  have hnum : 0 < x.num.toNat := by
    have hpos := Rat.num_pos.mpr hx
    omega
  have hden : (x.den : ℚ) ≠ 0 := by exact_mod_cast x.den_nz
  refine ⟨x.num.toNat * x.den * 4 ^ 53, _, 1 / (x.den * 2 ^ 53) ^ 2, by positivity, ?_, rfl, ?_, ?_,
    ?_⟩
  · exact Nat.le_mul_of_pos_left _ (Nat.mul_pos hnum x.den_pos)
  · have hfour : ((4 ^ 53 : ℕ) : ℚ) = (2 ^ 53) ^ 2 := by norm_num
    have hcast : ((x.num.toNat : ℕ) : ℚ) = x.num := by
      have hint : (x.num.toNat : ℤ) = x.num := Int.toNat_of_nonneg (Rat.num_pos.mpr hx).le
      exact_mod_cast hint
    rw [Nat.cast_mul, Nat.cast_mul, hcast, hfour, mul_one_div, mul_pow]
    rw [mul_div_mul_right _ _ (by positivity), pow_two, mul_div_mul_right _ _ hden]
    exact (Rat.num_div_den x).symm
  · rw [exact]
    dsimp only
    rw [div_pow, mul_one_div]
  · rw [exact]
    positivity

theorem accurate_exact : exact.Accurate where
  div x y hx hy := by
    rw [show exact.div x y = x / y from rfl, sub_self, abs_zero]
    positivity
  mul x y hx hy := by
    rw [show exact.mul x y = x * y from rfl, sub_self, abs_zero]
    positivity
  sqrt_lower x hx := by
    obtain ⟨N, s, t, ht, hN, hs, hx, hsq, -⟩ := sqrt_exact hx
    have hlarge : 2 ^ 53 ≤ s := by
      rw [hs, Nat.le_sqrt']
      exact (by decide : (2 ^ 53) ^ 2 ≤ 4 ^ 53).trans hN
    have hlarge' : (2 : ℚ) ^ 53 ≤ s := by exact_mod_cast hlarge
    have hlt : (N : ℚ) ≤ (s + 1) ^ 2 := by
      rw [hs]
      exact_mod_cast (Nat.lt_succ_sqrt' N).le
    have hscale : (1 - 1 / 2 ^ 52 : ℚ) * (s + 1) ≤ s := by linarith
    have hpos : 0 ≤ (1 - 1 / 2 ^ 52 : ℚ) * (s + 1) := mul_nonneg (by norm_num) (by positivity)
    have hN' : (1 - 1 / 2 ^ 52 : ℚ) ^ 2 * N ≤ (s : ℚ) ^ 2 := by
      calc (1 - 1 / 2 ^ 52 : ℚ) ^ 2 * N ≤ (1 - 1 / 2 ^ 52) ^ 2 * ((s : ℚ) + 1) ^ 2 :=
            mul_le_mul_of_nonneg_left hlt (sq_nonneg _)
        _ = ((1 - 1 / 2 ^ 52) * ((s : ℚ) + 1)) ^ 2 := (mul_pow _ _ 2).symm
        _ ≤ (s : ℚ) ^ 2 := pow_le_pow_left₀ hpos hscale 2
    rw [hsq, hx, ← mul_assoc]
    exact mul_le_mul_of_nonneg_right hN' ht.le
  sqrt_upper x hx := by
    obtain ⟨N, s, t, ht, -, hs, hx, hsq, -⟩ := sqrt_exact hx
    have hle : ((s : ℚ)) ^ 2 ≤ N := by
      rw [hs]
      exact_mod_cast Nat.sqrt_le' N
    have hN' : (s : ℚ) ^ 2 ≤ (1 + 1 / 2 ^ 52) ^ 2 * N := by
      refine hle.trans (le_mul_of_one_le_left (Nat.cast_nonneg N) ?_)
      norm_num
    rw [hsq, hx, ← mul_assoc]
    exact mul_le_mul_of_nonneg_right hN' ht.le
  sqrt_nonneg x hx := by
    obtain ⟨-, -, -, -, -, -, -, -, hnonneg⟩ := sqrt_exact hx
    exact hnonneg

/-- An image that is enlarged, with a ratio of 2. -/
theorem smartResize_bounds_small :
    ∃ sides, smartResize exact.steps 20 40 = .ok sides ∧ Fits sides := by
  have hval : exact.trueDiv 40 20 = (1 : ℕ) * 2 ^ (1 : ℤ) := by
    show (((40 : ℕ) : ℚ)) / ((20 : ℕ) : ℚ) = _
    norm_num
  have hround : IsRounded 53 (((40 : ℕ) : ℚ) / ((20 : ℕ) : ℚ)) 1 1 := by
    intro m' e' _
    have hzero : ((40 : ℕ) : ℚ) / ((20 : ℕ) : ℚ) - (1 : ℕ) * 2 ^ (1 : ℤ) = 0 := by norm_num
    rw [hzero, abs_zero]
    exact ⟨abs_nonneg _, fun h => .inl (sub_eq_zero.mp (abs_eq_zero.mp h.symm) ▸ by norm_num)⟩
  have h := @smartResize_bounds exact 20 40 accurate_exact (by decide) (by decide) (by decide)
    (by decide) (by decide)
  obtain ⟨sides, hsides⟩ := h.2.1 1 1 hval hround
  exact ⟨sides, hsides, h.1 sides hsides⟩

end FloatOps

end Image

end Mimo26

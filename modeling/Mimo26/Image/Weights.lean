import Mathlib.Algebra.BigOperators.Field
import Mathlib.Algebra.BigOperators.Ring.Finset
import Mimo26.Image.Bicubic

/-!
# The weights of bicubic resizing

The weights of a window are its taps over their sum, rounded in fixed point. However many taps there
are, the positive weights are at most two and the negative ones too, so that no sum of weighted bytes
leaves the range of an `i32`, wherever it is broken off.

## Main definitions

* `exact` — a sum of weighted bytes over the integers

## Main results

* `up_le`, `down_le` — the weights of a window
* `accumulate_eq` — an accumulator is the exact sum
-/

namespace Mimo26

namespace Image

namespace Resize

open Finset

/-! ### Rounding -/

theorem precisionBits_eq : precisionBits = 22 := rfl

theorem asI32_of_nonneg {x : ℚ} (h : 0 ≤ x) : 0 ≤ asI32 x ∧ (asI32 x : ℚ) ≤ x := by
  have hfloor : 0 ≤ ⌊x⌋ := Int.floor_nonneg.mpr h
  rw [asI32, truncate_of_nonneg h]
  refine ⟨by omega, ?_⟩
  have hle : max (-2 ^ 31) (min (2 ^ 31 - 1) ⌊x⌋) ≤ ⌊x⌋ := by omega
  exact (by exact_mod_cast hle : ((max (-2 ^ 31) (min (2 ^ 31 - 1) ⌊x⌋) : ℤ) : ℚ) ≤ ⌊x⌋).trans
    (Int.floor_le x)

theorem asI32_of_nonpos {x : ℚ} (h : x ≤ 0) : asI32 x ≤ 0 ∧ x ≤ asI32 x := by
  have hceil : truncate x = ⌈x⌉ := by
    rw [truncate]
    split
    · next h0 =>
      obtain rfl := le_antisymm h h0
      rw [Int.floor_zero, Int.ceil_zero]
    · rfl
  have hle : ⌈x⌉ ≤ 0 := Int.ceil_le.mpr (by exact_mod_cast h)
  rw [asI32, hceil]
  refine ⟨by omega, (Int.le_ceil x).trans ?_⟩
  have hge : ⌈x⌉ ≤ max (-2 ^ 31) (min (2 ^ 31 - 1) ⌈x⌉) := by omega
  exact_mod_cast hge

/-- What a weight is rounded to, if it is not negative: nothing below one half. -/
theorem fixed_of_nonneg {v : ℚ} (h : 0 ≤ v) : 0 ≤ fixed v ∧ (fixed v : ℚ) ≤ 1 / 2 + v * 2 ^ 22 ∧
    (v * 2 ^ 22 < 1 / 2 → fixed v = 0) := by
  have hx : 0 ≤ 1 / 2 + v * 2 ^ precisionBits := by positivity
  obtain ⟨h0, hle⟩ := asI32_of_nonneg hx
  rw [fixed, if_neg (not_lt.mpr h)]
  refine ⟨h0, hle, fun hlt => ?_⟩
  have hone : (asI32 (1 / 2 + v * 2 ^ precisionBits) : ℚ) < 1 := by
    refine hle.trans_lt ?_
    rw [precisionBits_eq]
    linarith
  have hint : asI32 (1 / 2 + v * 2 ^ precisionBits) < 1 := by exact_mod_cast hone
  omega

theorem fixed_of_neg {v : ℚ} (h : v < 0) :
    fixed v ≤ 0 ∧ 2 * (v * 2 ^ 22) ≤ fixed v := by
  have hx : -1 / 2 + v * 2 ^ precisionBits ≤ 0 := by
    rw [precisionBits_eq]
    linarith
  obtain ⟨h0, hle⟩ := asI32_of_nonpos hx
  rw [fixed, if_pos h]
  refine ⟨h0, ?_⟩
  rw [precisionBits_eq] at hle ⊢
  by_cases hhalf : v * 2 ^ 22 ≤ -(1 / 2)
  · linarith
  · have hgt : (-1 : ℚ) < asI32 (-1 / 2 + v * 2 ^ 22) := by linarith
    have hint : (-1 : ℤ) < asI32 (-1 / 2 + v * 2 ^ 22) := by exact_mod_cast hgt
    have hzero : asI32 (-1 / 2 + v * 2 ^ 22) = 0 := by
      rw [precisionBits_eq] at h0
      omega
    rw [hzero]
    push_cast
    linarith

/-! ### The weights of a window -/

/-- The positive weights, and the negative ones, together. -/
def up (kk : List ℤ) : ℤ := (kk.map fun k => max k 0).sum

def down (kk : List ℤ) : ℤ := (kk.map fun k => max (-k) 0).sum

variable {n m xx : ℕ}

/-- The sum of the taps. -/
def mass (n m xx : ℕ) : ℚ := ∑ x ∈ range (countOf n m xx), bicubic (place n m xx x)

theorem sum_taps (n m xx : ℕ) : (taps n m xx).sum = mass n m xx := rfl

theorem mass_eq (n m xx : ℕ) : mass n m xx = ∑ x ∈ range (countOf n m xx), gain (place n m xx x) -
    ∑ x ∈ range (countOf n m xx), loss (place n m xx x) := by
  rw [mass, ← sum_sub_distrib]
  exact sum_congr rfl fun x _ => (gain_sub_loss _).symm

theorem mass_pos (hn : 0 < n) (hm : 0 < m) (hx : xx < m) : 0 < mass n m xx := by
  obtain ⟨hle, hpos⟩ := neg_le_pos hn hm hx
  rw [mass_eq]
  linarith

theorem length_weights (n m xx : ℕ) : (weights n m xx).length = countOf n m xx := by
  rw [weights, List.length_map, taps, List.length_map, List.length_range]

theorem weights_eq (hn : 0 < n) (hm : 0 < m) (hx : xx < m) : weights n m xx =
    (List.range (countOf n m xx)).map fun x => fixed (bicubic (place n m xx x) / mass n m xx) := by
  have hne : (taps n m xx).sum ≠ 0 := (mass_pos hn hm hx).ne'
  rw [weights]
  simp only [if_pos hne]
  rw [taps, List.map_map]
  rfl

theorem up_weights (hn : 0 < n) (hm : 0 < m) (hx : xx < m) : (up (weights n m xx) : ℚ) =
    ∑ x ∈ range (countOf n m xx),
      max (fixed (bicubic (place n m xx x) / mass n m xx) : ℚ) 0 := by
  rw [up, weights_eq hn hm hx, List.map_map]
  show ((∑ x ∈ range (countOf n m xx), max (fixed (bicubic (place n m xx x) / mass n m xx)) 0 : ℤ) : ℚ) = _
  push_cast
  rfl

theorem down_weights (hn : 0 < n) (hm : 0 < m) (hx : xx < m) : (down (weights n m xx) : ℚ) =
    ∑ x ∈ range (countOf n m xx),
      max (-(fixed (bicubic (place n m xx x) / mass n m xx) : ℚ)) 0 := by
  rw [down, weights_eq hn hm hx, List.map_map]
  show ((∑ x ∈ range (countOf n m xx), max (-fixed (bicubic (place n m xx x) / mass n m xx)) 0 : ℤ) : ℚ) = _
  push_cast
  rfl

/-- A weight is at most the positive part of its tap over the sum, and one half. -/
theorem fixed_le (v : ℚ) {ww : ℚ} (hww : 0 < ww) :
    max (fixed (v / ww) : ℚ) 0 ≤ max v 0 / ww * 2 ^ 22 + 1 / 2 := by
  have hgain : 0 ≤ max v 0 / ww * 2 ^ 22 := by
    have h := le_max_right v 0
    positivity
  rcases le_or_gt 0 v with hv | hv
  · have hle := (fixed_of_nonneg (div_nonneg hv hww.le)).2.1
    rw [max_eq_left hv] at hgain ⊢
    exact max_le (by linarith) (by linarith)
  · have hle : (fixed (v / ww) : ℚ) ≤ 0 := by
      exact_mod_cast (fixed_of_neg (div_neg_of_neg_of_pos hv hww)).1
    exact max_le (by linarith) (by linarith)

/-- A weight is nothing if its tap does not reach half a unit of the fixed point. -/
theorem fixed_le_of_level (v : ℚ) {ww : ℚ} (hww : 0 < ww) :
    max (fixed (v / ww) : ℚ) 0 ≤
      (if ww / 2 ^ 23 ≤ v then v + ww / 2 ^ 23 else 0) / ww * 2 ^ 22 := by
  by_cases hlevel : ww / 2 ^ 23 ≤ v
  · have hv : 0 ≤ v := le_trans (by positivity) hlevel
    have hle := (fixed_of_nonneg (div_nonneg hv hww.le)).2.1
    rw [if_pos hlevel]
    have heq : (v + ww / 2 ^ 23) / ww * 2 ^ 22 = 1 / 2 + v / ww * 2 ^ 22 := by
      field_simp
      ring
    rw [heq]
    exact max_le hle (by positivity)
  · rw [if_neg hlevel, zero_div, zero_mul]
    rcases le_or_gt 0 v with hv | hv
    · have hsmall : v / ww * 2 ^ 22 < 1 / 2 := by
        rw [div_mul_eq_mul_div, div_lt_iff₀ hww]
        have hlt := (lt_div_iff₀ (by norm_num)).mp (not_le.mp hlevel)
        linarith
      rw [(fixed_of_nonneg (div_nonneg hv hww.le)).2.2 hsmall]
      simp
    · have hle : (fixed (v / ww) : ℚ) ≤ 0 := by
        exact_mod_cast (fixed_of_neg (div_neg_of_neg_of_pos hv hww)).1
      exact max_le hle (le_refl 0)

/-- A negative weight is at most twice its tap over the sum. -/
theorem neg_fixed_le (v : ℚ) {ww : ℚ} (hww : 0 < ww) :
    max (-(fixed (v / ww) : ℚ)) 0 ≤ 2 * (max (-v) 0 / ww * 2 ^ 22) := by
  rcases le_or_gt 0 v with hv | hv
  · have hle : (0 : ℚ) ≤ fixed (v / ww) := by
      exact_mod_cast (fixed_of_nonneg (div_nonneg hv hww.le)).1
    rw [max_eq_right (by linarith : -v ≤ 0), max_eq_right (by linarith)]
    norm_num
  · obtain ⟨hle, hge⟩ := fixed_of_neg (div_neg_of_neg_of_pos hv hww)
    have hle' : (fixed (v / ww) : ℚ) ≤ 0 := by exact_mod_cast hle
    rw [max_eq_left (by linarith : 0 ≤ -v), max_eq_left (by linarith), neg_div]
    linarith

theorem countOf_le (n m xx : ℕ) :
    (countOf n m xx : ℚ) ≤ 4 * filterscale n m + 3 := by
  have hle : (countOf n m xx : ℚ) ≤ ksizeOf n m := by exact_mod_cast min_le_right _ _
  have hceil := Int.ceil_lt_add_one (support n m)
  have hnonneg : 0 ≤ ⌈support n m⌉ := Int.ceil_nonneg (by
    have hF := one_le_filterscale n m
    rw [support]
    linarith)
  have hcast : ((⌈support n m⌉.toNat : ℕ) : ℚ) = ⌈support n m⌉ := by
    exact_mod_cast Int.toNat_of_nonneg hnonneg
  rw [ksizeOf] at hle
  push_cast [hcast] at hle
  rw [support] at hceil hle
  linarith

/-- A narrow window: rounding adds at most one half for each tap. -/
theorem up_le_narrow (hn : 0 < n) (hm : 0 < m) (hx : xx < m) (hF : filterscale n m ≤ 2 ^ 20) :
    (up (weights n m xx) : ℚ) ≤ 2 ^ 23 := by
  have hmass := mass_pos hn hm hx
  obtain ⟨hle, hgain⟩ := neg_le_pos hn hm hx
  have hsum : (up (weights n m xx) : ℚ) ≤ ∑ x ∈ range (countOf n m xx),
      (gain (place n m xx x) / mass n m xx * 2 ^ 22 + 1 / 2) := by
    rw [up_weights hn hm hx]
    exact sum_le_sum fun x _ => fixed_le _ hmass
  rw [sum_add_distrib, ← sum_mul, ← sum_div, sum_const, card_range, nsmul_eq_mul] at hsum
  have hcount := countOf_le n m xx
  have hratio : (∑ x ∈ range (countOf n m xx), gain (place n m xx x)) / mass n m xx ≤ 27 / 19 := by
    rw [div_le_iff₀ hmass, mass_eq]
    linarith
  linarith

/-- A wide window: the taps that reach half a unit exceed it by as much. -/
theorem up_le_wide (hn : 0 < n) (hm : 0 < m) (hx : xx < m) (hF : 2 ^ 20 ≤ filterscale n m) :
    (up (weights n m xx) : ℚ) ≤ 2 ^ 23 := by
  have hmass := mass_pos hn hm hx
  have hlevel : 0 < mass n m xx / 2 ^ 23 := by positivity
  have hexcess := excess_window_nonneg hn hm hx hlevel hF
  have hsum : (up (weights n m xx) : ℚ) ≤ ∑ x ∈ range (countOf n m xx),
      (if mass n m xx / 2 ^ 23 ≤ bicubic (place n m xx x)
        then bicubic (place n m xx x) + mass n m xx / 2 ^ 23 else 0) / mass n m xx * 2 ^ 22 := by
    rw [up_weights hn hm hx]
    exact sum_le_sum fun x _ => fixed_le_of_level _ hmass
  rw [← sum_mul, ← sum_div] at hsum
  simp only [excess] at hexcess
  rw [sum_sub_distrib, ← mul_sum] at hexcess
  refine hsum.trans ?_
  rw [div_mul_eq_mul_div, div_le_iff₀ hmass]
  rw [mass] at hexcess ⊢
  linarith

/-- **The positive weights of a window are at most two.** -/
theorem up_le (hn : 0 < n) (hm : 0 < m) (hx : xx < m) : up (weights n m xx) ≤ 2 ^ 23 := by
  have hle : (up (weights n m xx) : ℚ) ≤ 2 ^ 23 := by
    rcases le_total (filterscale n m) (2 ^ 20) with hF | hF
    · exact up_le_narrow hn hm hx hF
    · exact up_le_wide hn hm hx hF
  exact_mod_cast hle

/-- **So are the negative ones.** -/
theorem down_le (hn : 0 < n) (hm : 0 < m) (hx : xx < m) : down (weights n m xx) ≤ 2 ^ 23 := by
  have hmass := mass_pos hn hm hx
  obtain ⟨hle, hgain⟩ := neg_le_pos hn hm hx
  have hsum : (down (weights n m xx) : ℚ) ≤ ∑ x ∈ range (countOf n m xx),
      2 * (loss (place n m xx x) / mass n m xx * 2 ^ 22) := by
    rw [down_weights hn hm hx]
    exact sum_le_sum fun x _ => neg_fixed_le _ hmass
  rw [← mul_sum, ← sum_mul, ← sum_div] at hsum
  have hratio : (∑ x ∈ range (countOf n m xx), loss (place n m xx x)) / mass n m xx ≤ 1 := by
    rw [div_le_iff₀ hmass, mass_eq]
    linarith
  have hcast : (down (weights n m xx) : ℚ) ≤ 2 ^ 23 := by linarith
  exact_mod_cast hcast

/-! ### Sums of weighted bytes -/

/-- The sum of weighted bytes, over the integers. -/
def exact (taps : List (UInt8 × ℤ)) : ℤ := half + (taps.map fun x => (x.1.toNat : ℤ) * x.2).sum

/-- The range of an `i32`. -/
def InI32 (v : ℤ) : Prop := -2 ^ 31 ≤ v ∧ v < 2 ^ 31

theorem wrap_eq {v : ℤ} (h : InI32 v) : wrap v = v := by
  obtain ⟨hlo, hhi⟩ := h
  rw [wrap, Int.bmod_eq_of_le (by norm_num; omega) (by norm_num; omega)]

theorem up_nonneg (kk : List ℤ) : 0 ≤ up kk := by
  induction kk with
  | nil => exact le_refl 0
  | cons k kk ih =>
    rw [up, List.map_cons, List.sum_cons]
    exact add_nonneg (le_max_right _ _) ih

theorem down_nonneg (kk : List ℤ) : 0 ≤ down kk := by
  induction kk with
  | nil => exact le_refl 0
  | cons k kk ih =>
    rw [down, List.map_cons, List.sum_cons]
    exact add_nonneg (le_max_right _ _) ih

/-- A byte times its weight. -/
theorem byte_mul_bounds (p : UInt8) (k : ℤ) :
    -(255 * max (-k) 0) ≤ p.toNat * k ∧ p.toNat * k ≤ 255 * max k 0 := by
  have hp : (p.toNat : ℤ) ≤ 255 := by
    have hlt := p.toNat_lt
    omega
  have hp0 : (0 : ℤ) ≤ p.toNat := Int.natCast_nonneg _
  rcases le_total 0 k with hk | hk
  · rw [max_eq_right (by omega : -k ≤ 0), max_eq_left hk]
    constructor <;> nlinarith
  · rw [max_eq_left (by omega : 0 ≤ -k), max_eq_right hk]
    constructor <;> nlinarith

/-- From any start that leaves room for all the weights, no step of a sum wraps. -/
theorem foldl_eq {kk : List ℤ} (ps : List UInt8) {a : ℤ} (hlo : -2 ^ 31 ≤ a - 255 * down kk)
    (hhi : a + 255 * up kk < 2 ^ 31) (hroom : down kk ≤ 2 ^ 23 ∧ up kk ≤ 2 ^ 23) (m : ℕ) :
    InI32 (a + (((ps.zip kk).take m).map fun x => (x.1.toNat : ℤ) * x.2).sum) ∧
      ((ps.zip kk).take m).foldl (fun a x => wrap (a + wrap (x.1.toNat * x.2))) a =
        a + (((ps.zip kk).take m).map fun x => (x.1.toNat : ℤ) * x.2).sum := by
  have hup := up_nonneg kk
  have hdown := down_nonneg kk
  induction kk generalizing ps a m with
  | nil =>
    rw [List.zip_nil_right, List.take_nil, List.map_nil, List.sum_nil, add_zero]
    exact ⟨⟨by omega, by omega⟩, rfl⟩
  | cons k kk ih =>
    rcases ps with _ | ⟨p, ps⟩
    · rw [List.zip_nil_left, List.take_nil, List.map_nil, List.sum_nil, add_zero]
      exact ⟨⟨by omega, by omega⟩, rfl⟩
    rcases m with _ | m
    · rw [List.take_zero, List.map_nil, List.sum_nil, add_zero]
      exact ⟨⟨by omega, by omega⟩, rfl⟩
    have hupk : up (k :: kk) = max k 0 + up kk := by rw [up, List.map_cons, List.sum_cons, up]
    have hdownk : down (k :: kk) = max (-k) 0 + down kk := by
      rw [down, List.map_cons, List.sum_cons, down]
    have hup' := up_nonneg kk
    have hdown' := down_nonneg kk
    obtain ⟨hplo, hphi⟩ := byte_mul_bounds p k
    rw [hupk] at hhi hroom
    rw [hdownk] at hlo hroom
    have hprod : wrap (p.toNat * k) = p.toNat * k := wrap_eq ⟨by omega, by omega⟩
    have hstep : wrap (a + p.toNat * k) = a + p.toNat * k := wrap_eq ⟨by omega, by omega⟩
    have hrest := @ih ps (a + p.toNat * k) (by omega) (by omega) ⟨by omega, by omega⟩ m hup' hdown'
    rw [List.zip_cons_cons, List.take_succ_cons, List.map_cons, List.sum_cons, List.foldl_cons,
      hprod, hstep, ← add_assoc]
    exact hrest

/-- **An accumulator is the exact sum**, in the range of an `i32`, wherever it is broken off. -/
theorem accumulate_eq (hn : 0 < n) (hm : 0 < m) (hx : xx < m) (ps : List UInt8) (j : ℕ) :
    InI32 (exact ((ps.zip (weights n m xx)).take j)) ∧
      accumulate ((ps.zip (weights n m xx)).take j) =
        exact ((ps.zip (weights n m xx)).take j) := by
  have hup := up_le hn hm hx
  have hdown := down_le hn hm hx
  have hhalf : half = 2 ^ 21 := rfl
  exact foldl_eq (a := half) ps (by omega) (by omega) ⟨hdown, hup⟩ j

end Resize

end Image

end Mimo26

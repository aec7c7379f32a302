import Mathlib.Algebra.Order.Field.Basic
import Mathlib.Algebra.Order.Ring.Rat
import Mathlib.Data.Nat.Size
import Mathlib.Tactic.FieldSimp
import Mathlib.Tactic.Positivity
import Mimo26.Library.RoundEven

/-!
# Division of integers

The correctly rounded quotient of two integers (`py_true_div` of `lib.rs`). Operands that convert
exactly are divided as floats. Others are divided as integers, the dividend scaled so that the
quotient has 55 bits or more, and the quotient is rounded to 53.

## Main definitions

* `shl`, `shr`, `i32`, `u128` — the integer operations, `none` where they panic
* `scaledQuotient`, `pyTrueDiv`

## Main results

* `pyTrueDiv_rounded` — the integer division is rounded to the nearest, ties to even
-/

namespace Mimo26

namespace Image

namespace TrueDiv

open RoundEven

/-! ### Integer operations -/

def i32 (x : ℤ) : Option ℤ := if -2 ^ 31 ≤ x ∧ x < 2 ^ 31 then some x else none

def u128 (x : ℤ) : Option ℕ := if 0 ≤ x ∧ x < 2 ^ 128 then some x.toNat else none

/-- `x << s` on 128 bits. Bits above the width are lost. -/
def shl (x : ℕ) (s : ℤ) : Option ℕ :=
  if 0 ≤ s ∧ s < 128 then some (x * 2 ^ s.toNat % 2 ^ 128) else none

def shr (x : ℕ) (s : ℤ) : Option ℕ := if 0 ≤ s ∧ s < 128 then some (x / 2 ^ s.toNat) else none

/-- Of 128 bits. -/
def leadingZeros (x : ℕ) : ℕ := 128 - x.size

def bits (x : ℕ) : Option ℤ := i32 (128 - (leadingZeros x : ℤ))

/-- By how much the dividend is scaled. -/
def scaleShift (a b : ℕ) : Option ℤ := do
  let sum ← i32 (55 + (← bits b))
  let diff ← i32 (sum - (← bits a))
  return max diff 0

/-- `m` rounded by the bits below it and the remainder below these. -/
def roundUp (m low half r : ℕ) : Option ℕ :=
  if half < low ∨ low = half ∧ (r ≠ 0 ∨ m &&& 1 = 1) then u128 (m + 1) else some m

/-- `q` to 53 bits, with the remainder `r` below its last bit, and the exponent of the unit. -/
def roundQuotient (q r : ℕ) (shift : ℤ) : Option (ℕ × ℤ) := do
  let drop ← i32 ((← bits q) - 53)
  let unit ← shl 1 drop
  let low := q &&& (← u128 (unit - 1))
  let half ← shl 1 (← i32 (drop - 1))
  let m ← roundUp (← shr q drop) low half r
  let exp ← i32 (drop - shift)
  if m = 2 ^ 53 then return (m >>> 1, ← i32 (exp + 1))
  return (m, exp)

def scaledQuotient (a b : ℕ) : Option (ℕ × ℤ) := do
  let shift ← scaleShift a b
  let num ← shl a shift
  if b = 0 then none
  roundQuotient (num / b) (num % b) shift

/-- What a quotient is computed as. -/
inductive Quotient where
  /-- The division of two floats. -/
  | floats (a b : ℕ)
  | zero
  /-- `m * 2 ^ exp`. -/
  | scaled (m : ℕ) (exp : ℤ)
  deriving DecidableEq, Repr

def pyTrueDiv (a b : ℕ) : Option Quotient :=
  if a ≤ 2 ^ 53 ∧ b ≤ 2 ^ 53 then some (.floats a b)
  else if a = 0 then some .zero
  else (scaledQuotient a b).map fun x => .scaled x.1 x.2

theorem bind_of_eq_some {α β : Type*} {x : Option α} {f : α → Option β} {v : α} {w : β}
    (hx : x = some v) (hf : f v = some w) : x.bind f = some w :=
  Option.bind_eq_some_iff.mpr ⟨v, hx, hf⟩

theorem i32_eq {x : ℤ} (hlo : -2 ^ 31 ≤ x) (hhi : x < 2 ^ 31) : i32 x = some x := if_pos ⟨hlo, hhi⟩

theorem u128_eq {x : ℕ} (h : x < 2 ^ 128) : u128 x = some x := by
  rw [u128, if_pos ⟨Int.natCast_nonneg x, by exact_mod_cast h⟩, Int.toNat_natCast]

theorem shl_eq {x s : ℕ} (hs : s < 128) (h : x * 2 ^ s < 2 ^ 128) : shl x s = some (x * 2 ^ s) := by
  rw [shl, if_pos ⟨Int.natCast_nonneg s, by exact_mod_cast hs⟩, Int.toNat_natCast,
    Nat.mod_eq_of_lt h]

theorem shr_eq {x s : ℕ} (hs : s < 128) : shr x s = some (x / 2 ^ s) := by
  rw [shr, if_pos ⟨Int.natCast_nonneg s, by exact_mod_cast hs⟩, Int.toNat_natCast]

theorem bits_eq {x : ℕ} (h : x < 2 ^ 128) : bits x = some (x.size : ℤ) := by
  have hsize : x.size ≤ 128 := Nat.size_le.mpr h
  have hbits : (128 : ℤ) - (leadingZeros x : ℤ) = x.size := by
    rw [leadingZeros]
    omega
  rw [bits, hbits, i32_eq (by omega) (by omega)]

/-! ### Sizes -/

variable {a b : ℕ}

/-- The shift, without the bound from below. -/
def shiftOf (a b : ℕ) : ℕ := 55 + b.size - a.size

theorem scaleShift_eq (ha : a < 2 ^ 64) (hb : b < 2 ^ 64) :
    scaleShift a b = some (shiftOf a b : ℤ) := by
  have hasize : a.size ≤ 64 := Nat.size_le.mpr ha
  have hbsize : b.size ≤ 64 := Nat.size_le.mpr hb
  have hmax : max ((55 : ℤ) + b.size - a.size) 0 = shiftOf a b := by
    rw [shiftOf]
    omega
  rw [scaleShift]
  refine bind_of_eq_some (bits_eq (hb.trans (by decide))) ?_
  refine bind_of_eq_some (i32_eq (by omega) (by omega)) ?_
  refine bind_of_eq_some (bits_eq (ha.trans (by decide))) ?_
  refine bind_of_eq_some (i32_eq (by omega) (by omega)) ?_
  exact congrArg some hmax

/-- The scaled dividend keeps all its bits. -/
theorem scaled_lt (ha : a < 2 ^ 64) (hb : b < 2 ^ 64) : a * 2 ^ shiftOf a b < 2 ^ 119 := by
  have hasize : a.size ≤ 64 := Nat.size_le.mpr ha
  have hbsize : b.size ≤ 64 := Nat.size_le.mpr hb
  calc a * 2 ^ shiftOf a b < 2 ^ a.size * 2 ^ shiftOf a b :=
        Nat.mul_lt_mul_of_pos_right (Nat.lt_size_self a) (Nat.two_pow_pos _)
    _ = 2 ^ (a.size + shiftOf a b) := (Nat.pow_add 2 _ _).symm
    _ ≤ 2 ^ 119 := Nat.pow_le_pow_right two_pos (by rw [shiftOf]; omega)

/-- The quotient has 55 bits or more. -/
theorem quotient_ge (ha : 0 < a) (hb : 0 < b) : 2 ^ 54 ≤ a * 2 ^ shiftOf a b / b := by
  rw [Nat.le_div_iff_mul_le hb]
  have hlow : 2 ^ (a.size - 1) ≤ a := Nat.lt_size.mp (by have := Nat.size_pos.mpr ha; omega)
  calc 2 ^ 54 * b ≤ 2 ^ 54 * 2 ^ b.size := Nat.mul_le_mul_left _ (Nat.lt_size_self b).le
    _ = 2 ^ (54 + b.size) := (Nat.pow_add 2 _ _).symm
    _ ≤ 2 ^ (a.size - 1 + shiftOf a b) := by
        refine Nat.pow_le_pow_right two_pos ?_
        have hpos := Nat.size_pos.mpr ha
        rw [shiftOf]
        omega
    _ = 2 ^ (a.size - 1) * 2 ^ shiftOf a b := Nat.pow_add 2 _ _
    _ ≤ a * 2 ^ shiftOf a b := Nat.mul_le_mul_right _ hlow

theorem div_two_pow_size {q : ℕ} (hq : 2 ^ 54 ≤ q) :
    2 ^ 52 ≤ q / 2 ^ (q.size - 53) ∧ q / 2 ^ (q.size - 53) < 2 ^ 53 := by
  have hsize : 54 < q.size := Nat.lt_size.mpr hq
  refine ⟨(Nat.le_div_iff_mul_le (Nat.two_pow_pos _)).mpr ?_,
    Nat.div_lt_of_lt_mul ?_⟩
  · rw [← Nat.pow_add]
    exact Nat.lt_size.mp (by omega)
  · rw [← Nat.pow_add, show q.size - 53 + 53 = q.size by omega]
    exact Nat.lt_size_self q

/-! ### Rounding -/

/-- The fraction below the bits kept. -/
def dropped (q r b d : ℕ) : ℚ := ((q % 2 ^ d : ℕ) + (r : ℚ) / b) / 2 ^ d

theorem dropped_nonneg (q r b d : ℕ) : 0 ≤ dropped q r b d := by
  rw [dropped]
  positivity

theorem dropped_lt_one {q r b d : ℕ} (hr : r < b) : dropped q r b d < 1 := by
  have hb : (0 : ℚ) < b := by exact_mod_cast Nat.zero_lt_of_lt hr
  have hfrac : (r : ℚ) / b < 1 := (div_lt_one hb).mpr (by exact_mod_cast hr)
  have hlow : ((q % 2 ^ d : ℕ) : ℚ) + 1 ≤ 2 ^ d := by
    exact_mod_cast Nat.mod_lt q (Nat.two_pow_pos d)
  rw [dropped, div_lt_one (by positivity)]
  linarith

/-- **The test** for rounding up compares the fraction with a half. -/
theorem rounds_up_iff {q r b d m : ℕ} (hr : r < b) :
    (2 ^ d < q % 2 ^ (d + 1) ∨ q % 2 ^ (d + 1) = 2 ^ d ∧ (r ≠ 0 ∨ m % 2 = 1)) ↔
      1 / 2 < dropped q r b (d + 1) ∨ dropped q r b (d + 1) = 1 / 2 ∧ ¬ Even m := by
  have hb : (0 : ℚ) < b := by exact_mod_cast Nat.zero_lt_of_lt hr
  have hfrac : (r : ℚ) / b < 1 := (div_lt_one hb).mpr (by exact_mod_cast hr)
  have hzero : 0 ≤ (r : ℚ) / b := by positivity
  have hunit : (0 : ℚ) < 2 ^ (d + 1) := by positivity
  have hhalf : (1 : ℚ) / 2 * 2 ^ (d + 1) = 2 ^ d := by
    rw [pow_succ]
    ring
  rw [dropped, lt_div_iff₀ hunit, div_eq_iff hunit.ne', hhalf, Nat.not_even_iff]
  generalize q % 2 ^ (d + 1) = low
  rcases Nat.lt_trichotomy low (2 ^ d) with hlt | heq | hgt
  · have hlow : (low : ℚ) + 1 ≤ 2 ^ d := by exact_mod_cast hlt
    refine iff_of_false ?_ ?_
    · rintro (h | ⟨h, -⟩) <;> omega
    · rintro (h | ⟨h, -⟩) <;> linarith
  · have hlow : (low : ℚ) = 2 ^ d := by exact_mod_cast heq
    rw [hlow, lt_add_iff_pos_right, add_eq_left, div_eq_zero_iff, or_iff_left hb.ne']
    rcases Nat.eq_zero_or_pos r with rfl | hpos
    · simp [heq]
    · have hpos' : 0 < (r : ℚ) / b := div_pos (by exact_mod_cast hpos) hb
      exact iff_of_true (.inr ⟨heq, .inl hpos.ne'⟩) (.inl hpos')
  · have hlow : (2 : ℚ) ^ d < low := by exact_mod_cast hgt
    exact iff_of_true (.inl hgt) (.inl (by linarith))

/-- The quotient, by its bits kept and the fraction below them. -/
theorem div_eq_scaled {s : ℕ} (hb : 0 < b) (d : ℕ) :
    (a : ℚ) / b = ((a * 2 ^ s / b / 2 ^ d : ℕ) + dropped (a * 2 ^ s / b) (a * 2 ^ s % b) b d) *
      2 ^ ((d : ℤ) - s) := by
  have hb' : (b : ℚ) ≠ 0 := by exact_mod_cast hb.ne'
  have hnum : (a : ℚ) * 2 ^ s = b * (a * 2 ^ s / b : ℕ) + (a * 2 ^ s % b : ℕ) := by
    exact_mod_cast (Nat.div_add_mod (a * 2 ^ s) b).symm
  generalize a * 2 ^ s / b = q at hnum ⊢
  generalize a * 2 ^ s % b = r at hnum ⊢
  have hq : (q : ℚ) = 2 ^ d * (q / 2 ^ d : ℕ) + (q % 2 ^ d : ℕ) := by
    exact_mod_cast (Nat.div_add_mod q (2 ^ d)).symm
  rw [hq] at hnum
  rw [dropped, zpow_sub₀ two_ne_zero, zpow_natCast, zpow_natCast]
  field_simp
  rw [hnum]
  ring

/-- The quotient rounded, and its carry. -/
theorem roundQuotient_eq {q r s d m : ℕ} (hd : q.size = 54 + d) (hd' : d ≤ 65) (hr : r < b)
    (hs : s < 128) (hm : m = nearestEven (q / 2 ^ (d + 1)) (dropped q r b (d + 1))) :
    roundQuotient q r s =
      some (if m = 2 ^ 53 then (2 ^ 52, ((d + 1 : ℕ) : ℤ) - s + 1) else (m, ((d + 1 : ℕ) : ℤ) - s)) := by
  have hq : q < 2 ^ 119 := Nat.size_le.mp (by omega)
  have hpow {n : ℕ} (hn : n < 128) : shl 1 n = some (2 ^ n) := by
    rw [shl_eq hn (by rw [Nat.one_mul]; exact Nat.pow_lt_pow_right one_lt_two hn), Nat.one_mul]
  have hlow : q &&& 2 ^ (d + 1) - 1 = q % 2 ^ (d + 1) := Nat.and_two_pow_sub_one_eq_mod q (d + 1)
  have hmask : u128 ((2 ^ (d + 1) : ℕ) - 1) = some (2 ^ (d + 1) - 1) := by
    have hle : 2 ^ (d + 1) < 2 ^ 128 := Nat.pow_lt_pow_right one_lt_two (by omega)
    rw [← u128_eq (by omega), Nat.cast_sub Nat.one_le_two_pow, Nat.cast_one]
  have hkept : q / 2 ^ (d + 1) < 2 ^ 119 := (Nat.div_le_self _ _).trans_lt hq
  have hup : roundUp (q / 2 ^ (d + 1)) (q &&& 2 ^ (d + 1) - 1) (2 ^ d) r = some m := by
    rw [roundUp, hlow, Nat.and_one_is_mod, hm, nearestEven]
    by_cases h : 2 ^ d < q % 2 ^ (d + 1) ∨
        q % 2 ^ (d + 1) = 2 ^ d ∧ (r ≠ 0 ∨ q / 2 ^ (d + 1) % 2 = 1)
    · rw [if_pos h, if_pos ((rounds_up_iff hr).mp h), ← u128_eq (by omega)]
      push_cast
      rfl
    · rw [if_neg h, if_neg (fun h' => h ((rounds_up_iff hr).mpr h'))]
  have hexp : i32 (((d + 1 : ℕ) : ℤ) - s) = some (((d + 1 : ℕ) : ℤ) - s) :=
    i32_eq (by omega) (by omega)
  rw [roundQuotient]
  refine bind_of_eq_some (bits_eq (hq.trans (by decide))) ?_
  have hdrop : (q.size : ℤ) - 53 = (d + 1 : ℕ) := by omega
  rw [hdrop]
  refine bind_of_eq_some (i32_eq (by omega) (by omega)) ?_
  refine bind_of_eq_some (hpow (by omega)) ?_
  refine bind_of_eq_some hmask ?_
  have hhalf : ((d + 1 : ℕ) : ℤ) - 1 = d := by omega
  rw [hhalf]
  refine bind_of_eq_some (i32_eq (by omega) (by omega)) ?_
  refine bind_of_eq_some (hpow (by omega)) ?_
  refine bind_of_eq_some (shr_eq (by omega)) ?_
  refine bind_of_eq_some hup ?_
  refine bind_of_eq_some hexp ?_
  split
  · next hcarry =>
    rw [hcarry]
    exact bind_of_eq_some (i32_eq (by omega) (by omega)) rfl
  · rfl

/-- The scaled division is rounded to 53 bits. -/
theorem scaledQuotient_eq (ha : 0 < a) (ha' : a < 2 ^ 64) (hb : 0 < b) (hb' : b < 2 ^ 64) :
    ∃ m exp, scaledQuotient a b = some (m, exp) ∧ 2 ^ 52 ≤ m ∧ m < 2 ^ 53 ∧
      IsRounded 53 ((a : ℚ) / b) m exp := by
  have hnum := scaled_lt ha' hb'
  have hshift : shiftOf a b < 128 := by
    have hbsize : b.size ≤ 64 := Nat.size_le.mpr hb'
    have hasize := Nat.size_pos.mpr ha
    rw [shiftOf]
    omega
  have hr : a * 2 ^ shiftOf a b % b < b := Nat.mod_lt _ hb
  have hge := quotient_ge ha hb
  have hq : a * 2 ^ shiftOf a b / b < 2 ^ 119 := (Nat.div_le_self _ _).trans_lt hnum
  have hdiv (d : ℕ) := div_eq_scaled (a := a) (s := shiftOf a b) hb d
  have hrun (x : ℕ × ℤ) (h : roundQuotient (a * 2 ^ shiftOf a b / b) (a * 2 ^ shiftOf a b % b)
      (shiftOf a b) = some x) : scaledQuotient a b = some x := by
    rw [scaledQuotient]
    refine bind_of_eq_some (scaleShift_eq ha' hb') ?_
    refine bind_of_eq_some (shl_eq hshift (hnum.trans (by decide))) ?_
    rw [if_neg hb.ne']
    exact h
  generalize a * 2 ^ shiftOf a b / b = q at *
  generalize a * 2 ^ shiftOf a b % b = r at *
  have hlo : 54 < q.size := Nat.lt_size.mpr hge
  have hhi : q.size ≤ 119 := Nat.size_le.mpr hq
  obtain ⟨d, hd⟩ : ∃ d, q.size = 54 + d := ⟨q.size - 54, by omega⟩
  obtain ⟨hmlo, hmhi⟩ := div_two_pow_size hge
  rw [show q.size - 53 = d + 1 by omega] at hmlo hmhi
  have hround := nearestEven_isRounded (p := 52) (dropped_nonneg q r b (d + 1))
    (dropped_lt_one hr) hmlo (hdiv (d + 1))
  have hrun := hrun _ (roundQuotient_eq hd (by omega) hr hshift rfl)
  have hle := nearestEven_le_succ (q / 2 ^ (d + 1)) (dropped q r b (d + 1))
  have hge' := le_nearestEven (q / 2 ^ (d + 1)) (dropped q r b (d + 1))
  generalize nearestEven (q / 2 ^ (d + 1)) (dropped q r b (d + 1)) = m at *
  by_cases hcarry : m = 2 ^ 53
  · rw [if_pos hcarry] at hrun
    rw [hcarry] at hround
    exact ⟨_, _, hrun, le_rfl, by decide, hround.carry⟩
  · rw [if_neg hcarry] at hrun
    exact ⟨_, _, hrun, hmlo.trans hge', by omega, hround⟩

/-- **The division of integers** that do not both convert exactly is rounded to 53 bits, to the
nearest and ties to even; no operation leaves its type, and the scaled dividend keeps its bits. -/
theorem pyTrueDiv_rounded (ha : a < 2 ^ 64) (hb : b < 2 ^ 64) (hpos : 0 < b)
    (hbig : 2 ^ 53 < a ∨ 2 ^ 53 < b) :
    (a = 0 → pyTrueDiv a b = some .zero) ∧
      (0 < a → ∃ m exp, pyTrueDiv a b = some (.scaled m exp) ∧ 2 ^ 52 ≤ m ∧ m < 2 ^ 53 ∧
        IsRounded 53 ((a : ℚ) / b) m exp ∧
          ∃ shift : ℕ, scaleShift a b = some (shift : ℤ) ∧ a * 2 ^ shift < 2 ^ 128) := by
  have hslow : ¬ (a ≤ 2 ^ 53 ∧ b ≤ 2 ^ 53) := by omega
  rw [pyTrueDiv, if_neg hslow]
  refine ⟨fun hzero => if_pos hzero, fun hpos' => ?_⟩
  obtain ⟨m, exp, hrun, hlo, hhi, hround⟩ := scaledQuotient_eq hpos' ha hpos hb
  rw [if_neg hpos'.ne', hrun]
  exact ⟨m, exp, rfl, hlo, hhi, hround, shiftOf a b, scaleShift_eq ha hb,
    (scaled_lt ha hb).trans (by decide)⟩

/-- The largest dividend by the largest area of an image. -/
theorem pyTrueDiv_rounded_max :
    ∃ m exp, pyTrueDiv (2 ^ 64 - 1) 12845056 = some (.scaled m exp) ∧ 2 ^ 52 ≤ m ∧ m < 2 ^ 53 ∧
      IsRounded 53 (((2 ^ 64 - 1 : ℕ) : ℚ) / (12845056 : ℕ)) m exp := by
  obtain ⟨m, exp, hrun, hlo, hhi, hround, -⟩ :=
    (pyTrueDiv_rounded (a := 2 ^ 64 - 1) (b := 12845056) (by decide) (by decide) (by decide)
      (by decide)).2 (by decide)
  exact ⟨m, exp, hrun, hlo, hhi, hround⟩

end TrueDiv

end Image

end Mimo26

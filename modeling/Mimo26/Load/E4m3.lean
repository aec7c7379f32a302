import Mathlib.Algebra.Order.Field.Rat
import Mathlib.Algebra.Order.Floor.Semiring
import Mathlib.Data.Rat.Floor
import Mathlib.Tactic.Linarith
import Mathlib.Tactic.NormNum
import Mathlib.Tactic.Positivity
import Mathlib.Tactic.Ring
import Mimo26.Library.Bisect
import Mimo26.Library.Nearest

/-!
# The E4M3 codec

The CPU codec of the checkpoint loader (`e4m3.rs`). A double is its bits, and its value a rational
number; an infinity counts as the power of two after the largest double. Every product of the
decoder is a double, so it is computed over the rationals. Where the encoders compute with doubles
the exact result is rounded; of the rounding no more is used than that it is monotone and leaves
doubles alone.

## Main definitions

* `F64` — doubles: their fields, magnitude and value
* `decodeE4m3`, `encodeE4m3` — the codec
* `encodeE4m3Reference` — the encoder that searches the decode table

## Main results

* `encodeE4m3_nearest` — the code is that of the nearest magnitude, and both encoders agree
-/

namespace Mimo26

namespace Load

open Bisect Nearest

/-! ### Doubles -/

/-- A double, as its bits. -/
abbrev F64 := UInt64

namespace F64

def exp (b : F64) : ℕ := b.toNat >>> 52 &&& 0x7FF

def mant (b : F64) : ℕ := b.toNat &&& 0xFFFFFFFFFFFFF

def negative (b : F64) : Bool := b.toNat >>> 63 = 1

def isNan (b : F64) : Bool := b.exp = 0x7FF ∧ b.mant ≠ 0

/-- The distance from zero. -/
def magnitude (b : F64) : ℚ :=
  if b.exp = 0 then b.mant * 2 ^ (-1074 : ℤ) else (2 ^ 52 + b.mant) * 2 ^ ((b.exp : ℤ) - 1075)

def value (b : F64) : ℚ := if b.negative then -b.magnitude else b.magnitude

/-- `nan_to_num(nan=0)`: the number a double stands for. -/
def number (b : F64) : ℚ := if b.isNan then 0 else b.value

def abs (b : F64) : F64 := b &&& 0x7FFFFFFFFFFFFFFF

/-- The smaller of two doubles that are not negative. -/
def min (a b : F64) : F64 := if a.magnitude < b.magnitude then a else b

end F64

/-- The numbers that are doubles. -/
def IsF64 (x : ℚ) : Prop :=
  ∃ m : ℕ, m < 2 ^ 53 ∧ ∃ e : ℤ, -1074 ≤ e ∧ e ≤ 971 ∧ |x| = m * 2 ^ e

/-- A rounding to doubles. -/
structure Rounding where
  round : ℚ → ℚ
  mono : Monotone round
  exact : ∀ x, IsF64 x → round x = x

instance : Inhabited Rounding := ⟨⟨id, monotone_id, fun _ _ => rfl⟩⟩

/-! ### The codec -/

/-- `E4M3_MAX`, 448 -/
def e4m3Max : F64 := 0x407C000000000000

/-- The value of a code, if it has one. -/
def decodeE4m3 (code : UInt8) : Option ℚ :=
  if code = 0x7F ∨ code = 0xFF then none
  else
    let s : ℚ := if code &&& 0x80 ≠ 0 then -1 else 1
    let e := ((code >>> 3) &&& 0x0F).toNat
    let m := (code &&& 0x07).toNat
    let val : ℚ := if e = 0 then m / 8 * 2 ^ (-6 : ℤ) else (1 + m / 8) * 2 ^ ((e : ℤ) - 7)
    some (s * val)

/-- `x.round() as u8`, for a number that is not negative. -/
def roundU8 (x : ℚ) : ℕ := Nat.min 255 ⌊x + 1 / 2⌋₊

/-- The code of a magnitude that is no larger than the largest one. -/
def encodeMag (fl : Rounding) (mag : F64) : UInt8 :=
  if mag.magnitude = 0 then 0
  else if mag.exp < 1017 then
    let m := roundU8 (fl.round (mag.magnitude * 512))
    if 8 ≤ m then 0x08 else UInt8.ofNat m
  else
    let e := mag.exp - 1016
    let m := (mag.mant + 0x1000000000000) >>> 49
    let e' := if 8 ≤ m then e + 1 else e
    let m' := if 8 ≤ m then 0 else m
    UInt8.ofNat (Nat.max 1 (Nat.min 15 e')) <<< 3 ||| UInt8.ofNat (Nat.min 7 m')

/-- A value without NaNs, its magnitude cut off, and the sign of its code. -/
def clean (value : F64) : F64 := if value.isNan then 0 else value

def cutOff (value : F64) : F64 := (clean value).abs.min e4m3Max

def signOf (value : F64) : UInt8 :=
  if (clean value).negative ∧ (clean value).magnitude ≠ 0 then 0x80 else 0

def encodeE4m3 (fl : Rounding) (value : F64) : UInt8 :=
  signOf value ||| encodeMag fl (cutOff value)

/-- The magnitudes of the decode table. -/
def tab : List ℚ := (List.range 0x7F).map fun c => |(decodeE4m3 (UInt8.ofNat c)).getD 0|

/-- The reference encoder. -/
def encodeE4m3Reference (fl : Rounding) (value : F64) : UInt8 :=
  let mag := (cutOff value).magnitude
  let hi := lowerBound tab mag
  let best :=
    if hi = 0 then 0
    else
      let lo := hi - 1
      let eLo := |fl.round (mag - tab.getD lo 0)|
      let eHi := |fl.round (tab.getD hi 0 - mag)|
      if eLo < eHi then lo else hi
  (UInt8.ofNat best &&& 0x7F) ||| signOf value

/-! ### The levels -/

/-- The magnitude of code `c`, in steps of an eighth of a binade; the first two binades share
theirs. -/
def level (c : ℕ) : ℚ :=
  if c < 8 then c * 2 ^ (-9 : ℤ) else (8 + (c % 8 : ℕ)) * 2 ^ ((c / 8 : ℕ) - 10 : ℤ)

theorem level_small {j : ℕ} (hj : j ≤ 8) : level j = j * 2 ^ (-9 : ℤ) := by
  rcases Nat.lt_or_eq_of_le hj with hlt | rfl
  · rw [level, if_pos hlt]
  · norm_num [level]

theorem level_binade {e j : ℕ} (he : 1 ≤ e) (hj : j ≤ 8) :
    level (8 * e + j) = (8 + j) * 2 ^ ((e : ℤ) - 10) := by
  rw [level, if_neg (by omega)]
  rcases Nat.lt_or_eq_of_le hj with hlt | rfl
  · rw [show (8 * e + j) % 8 = j by omega, show (8 * e + j) / 8 = e by omega]
  · rw [show (8 * e + 8) % 8 = 0 by omega, show (8 * e + 8) / 8 = e + 1 by omega,
      show ((e + 1 : ℕ) : ℤ) - 10 = ((e : ℤ) - 10) + 1 by push_cast; ring, zpow_add_one₀ (by decide)]
    push_cast
    ring

theorem strictMono_level : StrictMono level := by
  refine strictMono_nat_of_lt_succ fun c => ?_
  rcases Nat.lt_or_ge c 8 with hc | hc
  · rw [level_small hc.le, level_small hc]
    push_cast
    have : (0 : ℚ) < 2 ^ (-9 : ℤ) := zpow_pos (by decide) _
    linarith
  · have hpos : (0 : ℚ) < 2 ^ (((c / 8 : ℕ) : ℤ) - 10) := zpow_pos (by decide) _
    have hthis := @level_binade (c / 8) (c % 8) (by omega) (by omega)
    have hnext := @level_binade (c / 8) (c % 8 + 1) (by omega) (by omega)
    rw [show 8 * (c / 8) + c % 8 = c by omega] at hthis
    rw [show 8 * (c / 8) + (c % 8 + 1) = c + 1 by omega] at hnext
    rw [hthis, hnext, Nat.cast_succ]
    linarith

theorem level_nonneg (c : ℕ) : 0 ≤ level c := by
  have hle := strictMono_level.monotone (Nat.zero_le c)
  rwa [level_small (Nat.zero_le 8), Nat.cast_zero, zero_mul] at hle

theorem code_fields : ∀ c < 127, ¬ (UInt8.ofNat c = 0x7F ∨ UInt8.ofNat c = 0xFF) ∧
    ¬ (UInt8.ofNat c &&& 0x80 ≠ 0) ∧ ((UInt8.ofNat c >>> 3) &&& 0x0F).toNat = c / 8 ∧
    (UInt8.ofNat c &&& 0x07).toNat = c % 8 := by decide

/-- **The decode table** holds the levels. -/
theorem decodeE4m3_ofNat {c : ℕ} (hc : c < 127) : decodeE4m3 (UInt8.ofNat c) = some (level c) := by
  obtain ⟨hnan, hsign, he, hm⟩ := code_fields c hc
  rw [decodeE4m3, if_neg hnan]
  dsimp only
  rw [if_neg hsign, he, hm, one_mul, level]
  congr 1
  by_cases hlt : c < 8
  · rw [if_pos (by omega), if_pos hlt, Nat.mod_eq_of_lt hlt]
    norm_num
    ring
  · rw [if_neg (by omega), if_neg hlt,
      show ((c / 8 : ℕ) : ℤ) - 7 = ((c / 8 : ℕ) - 10 : ℤ) + 3 by ring, zpow_add₀ (by decide)]
    norm_num
    ring

theorem tab_eq : tab = (List.range 127).map level := by
  refine List.map_congr_left fun c hc => ?_
  rw [decodeE4m3_ofNat (List.mem_range.mp hc), Option.getD_some, abs_of_nonneg (level_nonneg c)]

/-! ### Doubles up to the largest magnitude -/

theorem F64.mant_lt (b : F64) : b.mant < 2 ^ 52 := Nat.and_lt_two_pow _ (by decide)

theorem F64.magnitude_nonneg (b : F64) : 0 ≤ b.magnitude := by
  rw [F64.magnitude]
  split
  · exact mul_nonneg (Nat.cast_nonneg _) (zpow_nonneg (by decide) _)
  · exact mul_nonneg (add_nonneg (by norm_num) (Nat.cast_nonneg _)) (zpow_nonneg (by decide) _)

/-- A subnormal magnitude lies where its mantissa says, and so does a normal one; the powers of two
meet at the border. -/
theorem F64.magnitude_eq (b : F64) : ∃ m : ℕ, m < 2 ^ 53 ∧
    b.magnitude = m * 2 ^ ((Nat.max 1 b.exp : ℕ) - 1075 : ℤ) := by
  have hmant := b.mant_lt
  rw [F64.magnitude]
  split
  · next h =>
    refine ⟨b.mant, by omega, ?_⟩
    rw [h]
    rfl
  · next h =>
    refine ⟨2 ^ 52 + b.mant, by omega, ?_⟩
    rw [show Nat.max 1 b.exp = b.exp from max_eq_right (by omega)]
    push_cast
    rfl

/-- Below the normal magnitudes. -/
theorem F64.magnitude_lt {b : F64} (h : b.exp < 1017) : b.magnitude < 2 ^ (-6 : ℤ) := by
  obtain ⟨m, hm, heq⟩ := b.magnitude_eq
  have hm' : (m : ℚ) < 2 ^ (53 : ℤ) := by exact_mod_cast hm
  have hexp : (2 : ℚ) ^ ((Nat.max 1 b.exp : ℕ) - 1075 : ℤ) ≤ 2 ^ (-59 : ℤ) := by
    refine zpow_le_zpow_right₀ (by norm_num) ?_
    have : Nat.max 1 b.exp ≤ 1016 := Nat.max_le.mpr ⟨by omega, by omega⟩
    omega
  calc b.magnitude = m * 2 ^ ((Nat.max 1 b.exp : ℕ) - 1075 : ℤ) := heq
    _ ≤ m * 2 ^ (-59 : ℤ) := mul_le_mul_of_nonneg_left hexp (Nat.cast_nonneg m)
    _ < 2 ^ (53 : ℤ) * 2 ^ (-59 : ℤ) := mul_lt_mul_of_pos_right hm' (by positivity)
    _ = 2 ^ (-6 : ℤ) := by norm_num

/-- Above them up to the largest. -/
theorem F64.exp_le {b : F64} (h : b.magnitude ≤ 448) : b.exp ≤ 1031 := by
  by_contra hlt
  have hexp : (2 : ℚ) ^ (-43 : ℤ) ≤ 2 ^ ((b.exp : ℤ) - 1075) :=
    zpow_le_zpow_right₀ (by norm_num) (by omega)
  have hmant : (2 : ℚ) ^ 52 ≤ 2 ^ 52 + b.mant := le_add_of_nonneg_right (Nat.cast_nonneg _)
  rw [F64.magnitude, if_neg (by omega)] at h
  have hlow : (2 : ℚ) ^ 52 * 2 ^ (-43 : ℤ) ≤ (2 ^ 52 + b.mant) * 2 ^ ((b.exp : ℤ) - 1075) :=
    mul_le_mul hmant hexp (by positivity) (by positivity)
  norm_num at hlow
  linarith

/-! ### The nearest level -/

variable {fl : Rounding} {b : F64}

/-- What an encoder finds for a magnitude: it lies between two levels and takes the nearer one, and
the distance to the lower one is a double. -/
structure Located (b : F64) (k : ℕ) : Prop where
  le : level k ≤ b.magnitude
  lt : b.magnitude < level (k + 1)
  exact : IsF64 (b.magnitude - level k)

theorem isF64_sub {m n : ℕ} (hm : m < 2 ^ 53) (hn : n ≤ m) {e : ℤ} (he : -1074 ≤ e)
    (he' : e ≤ 971) : IsF64 (m * 2 ^ e - n * 2 ^ e) := by
  refine ⟨m - n, by omega, e, he, he', ?_⟩
  rw [← sub_mul, Nat.cast_sub hn, abs_of_nonneg]
  exact mul_nonneg (sub_nonneg.mpr (Nat.cast_le.mpr hn)) (zpow_nonneg (by decide) _)

/-- Eighths of the first binade. -/
theorem locate_small (h : b.exp < 1017) : Located b ⌊b.magnitude * 512⌋₊ := by
  have hnonneg : 0 ≤ b.magnitude * 512 := mul_nonneg b.magnitude_nonneg (by norm_num)
  have hlt := F64.magnitude_lt h
  have hle := Nat.floor_le hnonneg
  have hnext := Nat.lt_floor_add_one (b.magnitude * 512)
  have hfloor : ⌊b.magnitude * 512⌋₊ < 8 := by
    refine (Nat.floor_lt hnonneg).mpr ?_
    norm_num at hlt ⊢
    linarith
  generalize ⌊b.magnitude * 512⌋₊ = k at hle hnext hfloor ⊢
  have hlow : level k ≤ b.magnitude := by
    rw [level_small hfloor.le]
    norm_num
    linarith
  refine ⟨hlow, ?_, ?_⟩
  · rw [level_small hfloor]
    norm_num
    linarith
  · -- the level is a multiple of the unit of the last place too
    obtain ⟨m, hm, heq⟩ := b.magnitude_eq
    have hmin : 1 ≤ Nat.max 1 b.exp := Nat.le_max_left _ _
    have hmax : Nat.max 1 b.exp ≤ 1016 := Nat.max_le.mpr ⟨by omega, by omega⟩
    generalize Nat.max 1 b.exp = e at heq hmin hmax
    have hpos : (0 : ℚ) < 2 ^ ((e : ℤ) - 1075) := zpow_pos (by decide) _
    have hlevel : level k = (k * 2 ^ (1066 - e) : ℕ) * 2 ^ ((e : ℤ) - 1075) := by
      rw [level_small hfloor.le, show (-9 : ℤ) = (1066 - e : ℕ) + ((e : ℤ) - 1075) by omega,
        zpow_add₀ (by decide), zpow_natCast, Nat.cast_mul, Nat.cast_pow, Nat.cast_ofNat, mul_assoc]
    rw [hlevel, heq] at hlow
    rw [hlevel, heq]
    exact isF64_sub hm (Nat.cast_le.mp (le_of_mul_le_mul_right hlow hpos)) (by omega) (by omega)

theorem magnitude_normal (h : b.exp ≠ 0) :
    b.magnitude = (2 ^ 52 + b.mant : ℕ) * 2 ^ ((b.exp : ℤ) - 1075) := by
  rw [F64.magnitude, if_neg h]
  push_cast
  rfl

/-- One step is `2 ^ 49` units of the last place. -/
theorem level_normal (h : 1017 ≤ b.exp) {j : ℕ} (hj : j ≤ 8) : level (8 * (b.exp - 1016) + j) =
    (2 ^ 52 + j * 2 ^ 49 : ℕ) * 2 ^ ((b.exp : ℤ) - 1075) := by
  rw [level_binade (by omega) hj,
    show ((b.exp - 1016 : ℕ) : ℤ) - 10 = ((b.exp : ℤ) - 1075) + 49 by omega,
    zpow_add₀ (by decide)]
  push_cast
  ring

/-- Eighths of a later binade. -/
theorem locate_normal (h : 1017 ≤ b.exp) (h' : b.exp ≤ 2046) :
    Located b (8 * (b.exp - 1016) + b.mant / 2 ^ 49) := by
  have hmant := b.mant_lt
  have hpos : (0 : ℚ) < 2 ^ ((b.exp : ℤ) - 1075) := zpow_pos (by decide) _
  have hmag := magnitude_normal (show b.exp ≠ 0 by omega)
  have hj : b.mant / 2 ^ 49 + 1 ≤ 8 := by omega
  refine ⟨?_, ?_, ?_⟩
  · rw [level_normal h (by omega), hmag]
    exact mul_le_mul_of_nonneg_right (Nat.cast_le.mpr (by omega)) hpos.le
  · rw [Nat.add_assoc, level_normal h hj, hmag]
    exact mul_lt_mul_of_pos_right (Nat.cast_lt.mpr (by omega)) hpos
  · rw [level_normal h (by omega), hmag]
    exact isF64_sub (by omega) (by omega) (by omega) (by omega)

/-! ### The bit-level encoder -/

theorem isF64_mul (h : b.exp < 1017) : IsF64 (b.magnitude * 512) := by
  obtain ⟨m, hm, heq⟩ := b.magnitude_eq
  have hmin : 1 ≤ Nat.max 1 b.exp := Nat.le_max_left _ _
  have hmax : Nat.max 1 b.exp ≤ 1016 := Nat.max_le.mpr ⟨by omega, by omega⟩
  generalize Nat.max 1 b.exp = e at heq hmin hmax
  refine ⟨m, hm, (e : ℤ) - 1066, by omega, by omega, ?_⟩
  rw [abs_of_nonneg (mul_nonneg b.magnitude_nonneg (by norm_num)), heq,
    show (e : ℤ) - 1066 = ((e : ℤ) - 1075) + 9 by ring, zpow_add₀ (by decide), mul_assoc]
  norm_num

/-- Rounding up from the half on is taking the nearer of two neighbours. -/
theorem roundU8_eq {x : ℚ} {k : ℕ} (hk : k < 255) (hle : (k : ℚ) ≤ x) (hlt : x < k + 1) :
    roundU8 x = if x - k < k + 1 - x then k else k + 1 := by
  rw [roundU8]
  split
  · next h =>
    have hfloor : ⌊x + 1 / 2⌋₊ = k := (Nat.floor_eq_iff (by linarith)).mpr ⟨by linarith, by linarith⟩
    rw [hfloor]
    exact Nat.min_eq_right hk.le
  · next h =>
    have hfloor : ⌊x + 1 / 2⌋₊ = k + 1 :=
      (Nat.floor_eq_iff (by linarith)).mpr ⟨by push_cast; linarith, by push_cast; linarith⟩
    rw [hfloor]
    exact Nat.min_eq_right hk

theorem encodeMag_small (h : b.exp < 1017) (h0 : b.magnitude ≠ 0) :
    (encodeMag fl b).toNat = nearer level b.magnitude ⌊b.magnitude * 512⌋₊ := by
  have hnonneg : 0 ≤ b.magnitude * 512 := mul_nonneg b.magnitude_nonneg (by norm_num)
  have hlt := F64.magnitude_lt h
  have hle := Nat.floor_le hnonneg
  have hnext := Nat.lt_floor_add_one (b.magnitude * 512)
  have hfloor : ⌊b.magnitude * 512⌋₊ < 8 := by
    refine (Nat.floor_lt hnonneg).mpr ?_
    norm_num at hlt ⊢
    linarith
  rw [encodeMag, if_neg h0, if_pos h, fl.exact _ (isF64_mul h)]
  generalize ⌊b.magnitude * 512⌋₊ = k at hle hnext hfloor ⊢
  have hround : roundU8 (b.magnitude * 512) = nearer level b.magnitude k := by
    rw [roundU8_eq (by omega) hle hnext, nearer, level_small hfloor.le, level_small hfloor]
    refine if_congr ?_ rfl rfl
    push_cast
    norm_num
    constructor <;> intro h <;> linarith
  have hle8 : nearer level b.magnitude k ≤ 8 := by
    rw [nearer]
    split <;> omega
  rw [hround]
  dsimp only
  split
  · next h8 =>
    rw [Nat.le_antisymm hle8 h8]
    rfl
  · exact UInt8.toNat_ofNat_of_lt' (show _ < 256 by omega)

theorem pack_toNat : ∀ e < 16, ∀ m < 8,
    (UInt8.ofNat e <<< 3 ||| UInt8.ofNat m).toNat = 8 * e + m := by decide

theorem encodeMag_normal (h : 1017 ≤ b.exp) (h' : b.magnitude ≤ 448) :
    (encodeMag fl b).toNat =
      nearer level b.magnitude (8 * (b.exp - 1016) + b.mant / 2 ^ 49) := by
  have hmant := b.mant_lt
  have hexp := F64.exp_le h'
  have hpos : (0 : ℚ) < 2 ^ ((b.exp : ℤ) - 1075) := zpow_pos (by decide) _
  have hmag := magnitude_normal (show b.exp ≠ 0 by omega)
  have h0 : b.magnitude ≠ 0 := by
    rw [hmag]
    exact mul_ne_zero (Nat.cast_ne_zero.mpr (by omega)) hpos.ne'
  -- the code in steps of an eighth: up from the half on
  have hnearer : nearer level b.magnitude (8 * (b.exp - 1016) + b.mant / 2 ^ 49) =
      8 * (b.exp - 1016) + (b.mant + 2 ^ 48) / 2 ^ 49 := by
    rw [nearer, Nat.add_assoc, level_normal h (by omega), level_normal h (by omega), hmag,
      ← sub_mul, ← sub_mul]
    split
    · next hlt =>
      have hlt := lt_of_mul_lt_mul_right hlt hpos.le
      rw [sub_lt_iff_lt_add, sub_add_eq_add_sub, lt_sub_iff_add_lt] at hlt
      have hlt : 2 ^ 52 + b.mant + (2 ^ 52 + b.mant) <
        2 ^ 52 + (b.mant / 2 ^ 49 + 1) * 2 ^ 49 + (2 ^ 52 + b.mant / 2 ^ 49 * 2 ^ 49) := by
        exact_mod_cast hlt
      omega
    · next hge =>
      have hge := mt (fun h => mul_lt_mul_of_pos_right h hpos) hge
      rw [sub_lt_iff_lt_add, sub_add_eq_add_sub, lt_sub_iff_add_lt] at hge
      have hge : ¬ 2 ^ 52 + b.mant + (2 ^ 52 + b.mant) <
        2 ^ 52 + (b.mant / 2 ^ 49 + 1) * 2 ^ 49 + (2 ^ 52 + b.mant / 2 ^ 49 * 2 ^ 49) := by
        exact_mod_cast hge
      omega
  have htop : b.exp = 1031 → (b.mant + 2 ^ 48) / 2 ^ 49 < 8 := by
    intro htop
    rw [hmag, htop] at h'
    have hle : ((2 ^ 52 + b.mant : ℕ) : ℚ) ≤ (448 * 2 ^ 44 : ℕ) := by
      push_cast
      norm_num at h' ⊢
      linarith
    have hle := Nat.cast_le.mp hle
    omega
  have hcarry : (b.mant + 2 ^ 48) / 2 ^ 49 ≤ 8 := by omega
  rw [encodeMag, if_neg h0, if_neg (by omega), hnearer]
  dsimp only
  rw [show 0x1000000000000 = 2 ^ 48 from rfl, Nat.shiftRight_eq_div_pow]
  generalize (b.mant + 2 ^ 48) / 2 ^ 49 = m at htop hcarry ⊢
  split
  · next h8 =>
    rw [show Nat.max 1 (Nat.min 15 (b.exp - 1016 + 1)) = b.exp - 1016 + 1 by
      rw [show Nat.min 15 (b.exp - 1016 + 1) = _ from min_eq_right (by omega)]
      exact max_eq_right (by omega)]
    rw [show Nat.min 7 0 = 0 from rfl, pack_toNat _ (by omega) _ (by decide)]
    omega
  · next h8 =>
    rw [show Nat.max 1 (Nat.min 15 (b.exp - 1016)) = b.exp - 1016 by
      rw [show Nat.min 15 (b.exp - 1016) = _ from min_eq_right (by omega)]
      exact max_eq_right (by omega)]
    rw [show Nat.min 7 m = m from min_eq_right (by omega), pack_toNat _ (by omega) _ (by omega)]

/-! ### Both encoders -/

/-- **The bit-level encoder** takes the nearer of the levels a magnitude lies between. -/
theorem encodeMag_nearer (h : b.magnitude ≤ 448) :
    ∃ k, Located b k ∧ (encodeMag fl b).toNat = nearer level b.magnitude k := by
  rcases Nat.lt_or_ge b.exp 1017 with hexp | hexp
  · refine ⟨_, locate_small hexp, ?_⟩
    by_cases h0 : b.magnitude = 0
    · rw [encodeMag, if_pos h0, h0, zero_mul, Nat.floor_zero, nearer, level_small (by decide),
        level_small (by decide), if_pos (by norm_num)]
      rfl
    · exact encodeMag_small hexp h0
  · have hle := F64.exp_le h
    exact ⟨_, locate_normal hexp (by omega), encodeMag_normal hexp h⟩

theorem encodeMag_nearest (h : b.magnitude ≤ 448) :
    IsNearest level b.magnitude (encodeMag fl b).toNat := by
  obtain ⟨k, hk, heq⟩ := @encodeMag_nearer fl b h
  rw [heq]
  exact nearer_isNearest strictMono_level hk.le hk.lt.le

theorem level_top : level 126 = 448 := by norm_num [level]

theorem encodeMag_le (h : b.magnitude ≤ 448) : (encodeMag fl b).toNat ≤ 126 := by
  rw [← level_top] at h
  by_contra hgt
  have hfar : |b.magnitude - level 126| < |b.magnitude - level (encodeMag fl b).toNat| := by
    rw [abs_sub_of_ge strictMono_level le_rfl h,
      abs_sub_of_ge strictMono_level (Nat.le_of_not_le hgt) h]
    exact sub_lt_sub_right (strictMono_level (Nat.lt_of_not_le hgt)) _
  rcases @encodeMag_nearest fl b (level_top ▸ h) 126 with hlt | ⟨heq, -⟩
  · exact absurd hlt hfar.not_gt
  · exact absurd heq hfar.ne'

theorem getElem?_tab {i : ℕ} (hi : i < 127) : tab[i]? = some (level i) := by
  rw [tab_eq, List.getElem?_map, List.getElem?_range hi]
  rfl

theorem tab_getD {i : ℕ} (hi : i < 127) : tab.getD i 0 = level i := by
  rw [List.getD_eq_getElem?_getD, getElem?_tab hi, Option.getD_some]

/-- The search stops at the first level that is not below. -/
theorem lowerBound_tab {x : ℚ} {hi : ℕ} (hhi : hi ≤ 126) (hbelow : ∀ i < hi, level i < x)
    (hat : x ≤ level hi) : lowerBound tab x = hi := by
  have hlen : tab.length = 127 := by rw [tab_eq, List.length_map, List.length_range]
  rw [lowerBound, hlen]
  refine bisect_eq (Nat.zero_le _) (by omega) (fun i hi' => ?_) fun i hi' hle => ?_
  · rw [getElem?_tab (by omega)]
    exact decide_eq_true (hbelow i hi')
  · rw [getElem?_tab hi']
    exact decide_eq_false (not_lt.mpr (hat.trans (strictMono_level.monotone hle)))

theorem isF64_zero : IsF64 0 := ⟨0, by decide, 0, by decide, by decide, by norm_num⟩

theorem Rounding.round_nonneg {x : ℚ} (hx : 0 ≤ x) : 0 ≤ fl.round x := by
  have hle := fl.mono hx
  rwa [fl.exact 0 isF64_zero] at hle

/-- Half a step is a double. -/
theorem isF64_half {k : ℕ} (hk : k ≤ 126) : IsF64 ((level (k + 1) - level k) / 2) := by
  obtain ⟨e, hlow, hhigh, hstep⟩ : ∃ e : ℤ, -10 ≤ e ∧ e ≤ 5 ∧
      (level (k + 1) - level k) / 2 = 1 * 2 ^ e := by
    rcases Nat.lt_or_ge k 8 with h8 | h8
    · refine ⟨-10, le_rfl, by decide, ?_⟩
      rw [level_small h8.le, level_small h8]
      push_cast
      norm_num
      ring
    · have hthis := @level_binade (k / 8) (k % 8) (by omega) (by omega)
      have hnext := @level_binade (k / 8) (k % 8 + 1) (by omega) (by omega)
      rw [show 8 * (k / 8) + k % 8 = k by omega] at hthis
      rw [show 8 * (k / 8) + (k % 8 + 1) = k + 1 by omega, Nat.cast_succ] at hnext
      refine ⟨((k / 8 : ℕ) : ℤ) - 11, by omega, by omega, ?_⟩
      rw [hthis, hnext, show ((k / 8 : ℕ) : ℤ) - 10 = ((k / 8 : ℕ) : ℤ) - 11 + 1 by ring,
        zpow_add_one₀ (by decide)]
      ring
  rw [hstep]
  exact ⟨1, by decide, e, by omega, by omega, by
    rw [abs_of_nonneg (mul_nonneg zero_le_one (zpow_nonneg (by decide) _)), Nat.cast_one]⟩

/-- **The search** takes the nearer of the levels a magnitude lies between. -/
theorem search_nearer {k : ℕ} (hk : Located b k) (h : b.magnitude ≤ 448) :
    (let hi := lowerBound tab b.magnitude
      if hi = 0 then 0
      else if |fl.round (b.magnitude - tab.getD (hi - 1) 0)| <
        |fl.round (tab.getD hi 0 - b.magnitude)| then hi - 1 else hi) =
      nearer level b.magnitude k := by
  have htop : level k ≤ level 126 := by
    rw [level_top]
    exact hk.le.trans h
  have hle126 : k ≤ 126 := strictMono_level.le_iff_le.mp htop
  by_cases heq : level k = b.magnitude
  · have hhi : lowerBound tab b.magnitude = k :=
      lowerBound_tab hle126 (fun i hi => heq ▸ strictMono_level hi) heq.ge
    have hnearer : nearer level b.magnitude k = k := by
      rw [nearer, heq, sub_self, if_pos (sub_pos.mpr hk.lt)]
    rw [hhi, hnearer]
    dsimp only
    split
    · next h0 => exact h0.symm
    · rw [tab_getD (show k < 127 by omega), heq, sub_self, fl.exact 0 isF64_zero, abs_zero,
        if_neg (abs_nonneg _).not_gt]
  · have hlt : level k < b.magnitude := lt_of_le_of_ne hk.le heq
    have hlt126 : k < 126 := by
      refine strictMono_level.lt_iff_lt.mp ?_
      rw [level_top]
      exact hlt.trans_le h
    have hhi : lowerBound tab b.magnitude = k + 1 :=
      lowerBound_tab hlt126 (fun i hi => (strictMono_level.monotone (Nat.le_of_lt_succ hi)).trans_lt hlt)
        hk.lt.le
    rw [hhi, nearer]
    dsimp only
    rw [if_neg (Nat.succ_ne_zero k), Nat.add_sub_cancel, tab_getD (by omega), tab_getD (by omega),
      fl.exact _ hk.exact, abs_of_nonneg (sub_nonneg.mpr hk.le),
      abs_of_nonneg (Rounding.round_nonneg (sub_nonneg.mpr hk.lt.le))]
    refine if_congr ?_ rfl rfl
    constructor
    · intro hround
      by_contra hfar
      have hle := fl.mono (not_lt.mp hfar)
      rw [fl.exact _ hk.exact] at hle
      exact hround.not_ge hle
    · -- half a step lies between the two distances, and rounding leaves it alone
      intro hnear
      have hle := fl.mono (show (level (k + 1) - level k) / 2 ≤ level (k + 1) - b.magnitude by
        linarith)
      rw [fl.exact _ (isF64_half hle126)] at hle
      linarith

/-! ### Signs and magnitudes -/

theorem F64.exp_eq (b : F64) : b.exp = b.toNat / 2 ^ 52 % 2 ^ 11 := by
  rw [F64.exp, Nat.shiftRight_eq_div_pow]
  exact Nat.and_two_pow_sub_one_eq_mod _ 11

theorem F64.mant_eq (b : F64) : b.mant = b.toNat % 2 ^ 52 := Nat.and_two_pow_sub_one_eq_mod _ 52

theorem F64.magnitude_abs (b : F64) : b.abs.magnitude = b.magnitude := by
  have habs : b.abs.toNat = b.toNat % 2 ^ 63 := by
    rw [F64.abs, UInt64.toNat_and]
    exact Nat.and_two_pow_sub_one_eq_mod _ 63
  have hexp : b.abs.exp = b.exp := by
    rw [F64.exp_eq, F64.exp_eq, habs]
    omega
  have hmant : b.abs.mant = b.mant := by
    rw [F64.mant_eq, F64.mant_eq, habs]
    omega
  rw [F64.magnitude, F64.magnitude, hexp, hmant]

theorem magnitude_e4m3Max : e4m3Max.magnitude = 448 := by
  rw [magnitude_normal (by decide), show e4m3Max.mant = 0xC000000000000 by decide,
    show e4m3Max.exp = 1031 by decide]
  norm_num

theorem magnitude_zero : F64.magnitude 0 = 0 := by
  rw [F64.magnitude, if_pos (by decide), show F64.mant 0 = 0 by decide, Nat.cast_zero, zero_mul]

theorem number_eq (v : F64) : v.number = (clean v).value := by
  rw [F64.number, clean]
  split
  · rw [F64.value, if_neg (by decide), magnitude_zero]
  · rfl

theorem abs_value (b : F64) : |b.value| = b.magnitude := by
  rw [F64.value]
  split
  · rw [abs_neg, abs_of_nonneg b.magnitude_nonneg]
  · rw [abs_of_nonneg b.magnitude_nonneg]

theorem value_neg_iff (b : F64) : b.value < 0 ↔ b.negative ∧ b.magnitude ≠ 0 := by
  have hnonneg := b.magnitude_nonneg
  rw [F64.value]
  split
  · next hneg =>
    rw [neg_lt_zero]
    exact ⟨fun h => ⟨hneg, h.ne'⟩, fun h => lt_of_le_of_ne hnonneg h.2.symm⟩
  · next hneg => exact ⟨fun h => absurd h hnonneg.not_gt, fun h => absurd h.1 hneg⟩

theorem signOf_eq (v : F64) : signOf v = if v.number < 0 then 0x80 else 0 := by
  rw [signOf, number_eq]
  exact if_congr (value_neg_iff _).symm rfl rfl

/-- The magnitude that is encoded. -/
theorem magnitude_cutOff (v : F64) : (cutOff v).magnitude = min |v.number| 448 := by
  rw [number_eq, abs_value, cutOff, F64.min, F64.magnitude_abs, magnitude_e4m3Max]
  split
  · next h => rw [F64.magnitude_abs, min_eq_left h.le]
  · next h => rw [magnitude_e4m3Max, min_eq_right (not_lt.mp h)]

theorem magnitude_cutOff_le (v : F64) : (cutOff v).magnitude ≤ 448 := by
  rw [magnitude_cutOff]
  exact min_le_right _ _

theorem low_bits : ∀ c < 127, UInt8.ofNat c &&& 0x7F = UInt8.ofNat c := by decide

/-- Both encoders find the same code. -/
theorem encodeE4m3Reference_eq (fl : Rounding) (v : F64) :
    encodeE4m3Reference fl v = encodeE4m3 fl v := by
  have hle := magnitude_cutOff_le v
  obtain ⟨k, hk, heq⟩ := @encodeMag_nearer fl _ hle
  have hcode := @encodeMag_le fl _ hle
  rw [encodeE4m3Reference, encodeE4m3]
  dsimp only
  rw [search_nearer hk hle, ← heq, low_bits _ (by omega), UInt8.ofNat_toNat, UInt8.or_comm]

/-- **The encoder** gives the sign of the value and the code of the nearest magnitude, the larger
one on a tie, and so does the encoder that searches the decode table. -/
theorem encodeE4m3_nearest (fl : Rounding) (v : F64) :
    ∃ code ≤ 126, encodeE4m3 fl v = (if v.number < 0 then 0x80 else 0) ||| UInt8.ofNat code ∧
      (∃ x, decodeE4m3 (UInt8.ofNat code) = some x ∧
        ∀ c ≤ 126, ∃ y, decodeE4m3 (UInt8.ofNat c) = some y ∧
          (|min |v.number| 448 - x| < |min |v.number| 448 - y| ∨
            |min |v.number| 448 - x| = |min |v.number| 448 - y| ∧ y ≤ x)) ∧
      encodeE4m3Reference fl v = encodeE4m3 fl v := by
  have hle := magnitude_cutOff_le v
  have hcode := @encodeMag_le fl _ hle
  refine ⟨(encodeMag fl (cutOff v)).toNat, hcode, ?_, ?_, encodeE4m3Reference_eq fl v⟩
  · rw [encodeE4m3, signOf_eq, UInt8.ofNat_toNat]
  · refine ⟨_, decodeE4m3_ofNat (by omega), fun c hc => ⟨_, decodeE4m3_ofNat (by omega), ?_⟩⟩
    rw [← magnitude_cutOff]
    exact (@encodeMag_nearest fl _ hle c).imp_right fun h =>
      ⟨h.1, strictMono_level.monotone h.2⟩

/-- Half way between the last subnormal magnitude and the first normal one the latter is taken. -/
example : encodeE4m3 default 0x3F8E000000000000 = 0x08 := by decide +kernel

end Load

end Mimo26

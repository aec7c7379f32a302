import Mathlib.Data.Rat.Defs
import Mathlib.Algebra.Order.Ring.Rat
import Mathlib.Algebra.Order.Field.Basic
import Mimo26.Library.Bytes

/-!
# MXFP4

E2M1 nibbles with a shared E8M0 exponent for every 32 of them (`mxfp4.rs`, of which the repack and
the expert crate hold a copy each), in exact arithmetic: every value decoded is a rational, and
after the saturation it is one that `f32` holds exactly. The known-wrong variants that the tests
select are left out.

## Main definitions

* `unpackElement`, `unpackRow`, `unpackMatrix` — the values of a packed row or matrix

## Main results

* `unpackElement_cut` — a row cut at whole blocks decodes to the same values
-/

namespace Mimo26

namespace Mxfp4

open Bytes

/-- The inputs that share a scale byte. -/
def block : ℕ := 32

def e8m0Bias : ℤ := 127

/-- The highest scale byte in use; 255 is reserved. -/
def e8m0ByteMax : ℕ := 254

/-- The value of each nibble; the eighth is `-0.0`. -/
def e2m1Codebook : List ℚ :=
  [0, 1 / 2, 1, 3 / 2, 2, 3, 4, 6, 0, -1 / 2, -1, -3 / 2, -2, -3, -4, -6]

def e8m0Scale (byte : UInt8) : ℚ := 2 ^ ((min byte.toNat e8m0ByteMax : ℕ) - e8m0Bias)

/-- The two values of a byte: the low nibble is the even input. -/
def decodeByte (byte : UInt8) : List ℚ :=
  let lo := e2m1Codebook.getD (byte &&& 0x0f).toNat 0
  let hi := e2m1Codebook.getD ((byte >>> 4) &&& 0x0f).toNat 0
  [lo, hi]

/-- The scale byte of input `k` of a row. -/
def scaleByteFor (scales : List UInt8) (k : ℕ) : UInt8 := scales.getD (k / block) 0

/-- The greatest finite `f32`. -/
def f32Max : ℚ := (2 ^ 24 - 1) * 2 ^ 104

/-- Input `col` of a packed row, saturated. -/
def unpackElement (packed scales : List UInt8) (col : ℕ) : ℚ :=
  let val := (decodeByte (packed.getD (col / 2) 0)).getD (col % 2) 0
  let prod := val * e8m0Scale (scaleByteFor scales col)
  max (-f32Max) (min prod f32Max)

def unpackRow (packed scales : List UInt8) : List ℚ :=
  (List.range (packed.length * 2)).map (unpackElement packed scales)

/-- A packed matrix, row by row. -/
def unpackMatrix (packed scales : List UInt8) (outRows inCols : ℕ) : List ℚ :=
  let half := inCols / 2
  let srow := inCols / block
  (List.range outRows).flatMap fun r =>
    unpackRow (slice packed (r * half) half) (slice scales (r * srow) srow)

/-- **A row cut at whole blocks** decodes to the same values: `n` of its `m` inputs, from input `32
* c` on. -/
theorem unpackElement_cut (packed scales : List UInt8) (poff soff : ℕ) {c m n k : ℕ} (hn : 32 ∣ n)
    (hm : 32 ∣ m) (hle : c * 32 + n ≤ m) (hk : k < n) :
    unpackElement (slice packed (poff + c * 16) (n / 2)) (slice scales (soff + c) (n / 32)) k =
      unpackElement (slice packed poff (m / 2)) (slice scales soff (m / 32)) (c * 32 + k) := by
  have hpacked : (slice packed (poff + c * 16) (n / 2)).getD (k / 2) 0 =
      (slice packed poff (m / 2)).getD ((c * 32 + k) / 2) 0 := by
    rw [getD_slice packed _ (by omega), getD_slice packed _ (by omega),
      show poff + c * 16 + k / 2 = poff + (c * 32 + k) / 2 by omega]
  have hscales : scaleByteFor (slice scales (soff + c) (n / 32)) k =
      scaleByteFor (slice scales soff (m / 32)) (c * 32 + k) := by
    rw [scaleByteFor, scaleByteFor, block, getD_slice scales _ (by omega),
      getD_slice scales _ (by omega), show soff + c + k / 32 = soff + (c * 32 + k) / 32 by omega]
  rw [unpackElement, unpackElement, hpacked, hscales, show (c * 32 + k) % 2 = k % 2 by omega]

end Mxfp4

end Mimo26

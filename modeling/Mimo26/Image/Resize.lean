import Mathlib.Algebra.Order.Floor.Ring
import Mathlib.Data.Rat.Floor
import Mathlib.Tactic.Linarith

/-!
# Bicubic resizing

`resize.rs` of `mimo26-image`: each line of an image is a weighted sum of the lines of a window, with
weights in a fixed point of 22 bits. Columns are resized first, of the rows that the second pass
reads, and then rows.

The coefficients are computed over the rationals, where the source has doubles. A position is far
below `2 ^ 63`, so that the casts to `i64` only cut the fraction off.

## Main definitions

* `bicubic`, `precompute` — the filter, and the windows and weights of one axis
* `clip8`, `accumulate` — a sum of weighted bytes
* `resizeBicubic` — both passes
-/

namespace Mimo26

namespace Image

namespace Resize

def precisionBits : ℕ := 32 - 8 - 2

/-- A cast to an integer cuts the fraction off. -/
def truncate (x : ℚ) : ℤ := if 0 ≤ x then ⌊x⌋ else ⌈x⌉

/-- `as i32` is the nearest end of the range for what is outside of it. -/
def asI32 (x : ℚ) : ℤ := max (-2 ^ 31) (min (2 ^ 31 - 1) (truncate x))

/-- Pillow's `bicubic_filter` with `a = -0.5`. -/
def bicubic (x : ℚ) : ℚ :=
  let a : ℚ := -1 / 2
  let x := if x < 0 then -x else x
  if x < 1 then ((a + 2) * x - (a + 3)) * x * x + 1
  else if x < 2 then (((x - 5) * x + 8) * x - 4) * a
  else 0

/-- Per-output-pixel taps: the bounds are the first input index and the number of taps, and each
output pixel has `ksize` weights. -/
structure Coeffs where
  ksize : ℕ
  bounds : List (ℕ × ℕ)
  k : List ℤ

def scaleOf (inSize outSize : ℕ) : ℚ := inSize / outSize

def filterscale (inSize outSize : ℕ) : ℚ :=
  if scaleOf inSize outSize < 1 then 1 else scaleOf inSize outSize

def support (inSize outSize : ℕ) : ℚ := 2 * filterscale inSize outSize

def ksizeOf (inSize outSize : ℕ) : ℕ := ⌈support inSize outSize⌉.toNat * 2 + 1

def center (inSize outSize xx : ℕ) : ℚ := (xx + 1 / 2) * scaleOf inSize outSize

def xminOf (inSize outSize xx : ℕ) : ℤ :=
  max (truncate (center inSize outSize xx - support inSize outSize + 1 / 2)) 0

def xmaxOf (inSize outSize xx : ℕ) : ℤ :=
  min (truncate (center inSize outSize xx + support inSize outSize + 1 / 2)) inSize

/-- The taps of a window, before it is cut to `ksize`. -/
def uncut (inSize outSize xx : ℕ) : ℕ :=
  (max (xmaxOf inSize outSize xx - xminOf inSize outSize xx) 0).toNat

def countOf (inSize outSize xx : ℕ) : ℕ := min (uncut inSize outSize xx) (ksizeOf inSize outSize)

/-- Where tap `x` of the window stands, in units of the filter. -/
def place (inSize outSize xx x : ℕ) : ℚ :=
  ((x : ℚ) + xminOf inSize outSize xx - center inSize outSize xx + 1 / 2) *
    (1 / filterscale inSize outSize)

/-- The filter at the taps. -/
def taps (inSize outSize xx : ℕ) : List ℚ :=
  (List.range (countOf inSize outSize xx)).map fun x => bicubic (place inSize outSize xx x)

/-- Half away from zero, in fixed point. -/
def fixed (v : ℚ) : ℤ :=
  if v < 0 then asI32 (-1 / 2 + v * 2 ^ precisionBits) else asI32 (1 / 2 + v * 2 ^ precisionBits)

def weights (inSize outSize xx : ℕ) : List ℤ :=
  let w := taps inSize outSize xx
  let ww := w.sum
  w.map fun v => fixed (if ww ≠ 0 then v / ww else v)

def precompute (inSize outSize : ℕ) : Coeffs where
  ksize := ksizeOf inSize outSize
  bounds := (List.range outSize).map fun xx =>
    ((xminOf inSize outSize xx).toNat, countOf inSize outSize xx)
  k := (List.range outSize).flatMap fun xx =>
    weights inSize outSize xx ++
      List.replicate (ksizeOf inSize outSize - countOf inSize outSize xx) 0

/-! ### The passes -/

def clip8 (v : ℤ) : UInt8 := (max 0 (min 255 (v / 2 ^ precisionBits))).toNat.toUInt8

/-- Two's complement of 32 bits. -/
def wrap (v : ℤ) : ℤ := v.bmod (2 ^ 32)

/-- An accumulator starts at one half. -/
def half : ℤ := 2 ^ (precisionBits - 1)

def accumulate (taps : List (UInt8 × ℤ)) : ℤ :=
  taps.foldl (fun a x => wrap (a + wrap (x.1.toNat * x.2))) half

/-- `xs[start..end]`; an index out of range is a panic. -/
def slice {α : Type} (xs : List α) (start stop : ℕ) : Option (List α) :=
  if start ≤ stop ∧ stop ≤ xs.length then some ((xs.drop start).take (stop - start)) else none

/-- A difference of `usize` that must not be negative. -/
def minus (a b : ℕ) : Option ℕ := if b ≤ a then some (a - b) else none

/-- The byte at `offset` in each line from `first` on, weighted; a line has `len` bytes. -/
def weighted (bytes : List UInt8) (len offset first : ℕ) (kk : List ℤ) : Option UInt8 := do
  let column ← (List.range kk.length).mapM fun j => bytes[(first + j) * len + offset]?
  return clip8 (accumulate (column.zip kk))

/-- The bounds and the weights of an output pixel. -/
def Coeffs.window (c : Coeffs) (xx : ℕ) : Option ((ℕ × ℕ) × List ℤ) := do
  let bounds ← c.bounds[xx]?
  let kk ← slice c.k (xx * c.ksize) (xx * c.ksize + bounds.2)
  return (bounds, kk)

/-- One row with `ow` pixels: the lines are pixels here. -/
def horizontalRow (s : List UInt8) (ow : ℕ) (c : Coeffs) : Option (List UInt8) := do
  let px ← (List.range ow).mapM fun xx => do
    let w ← c.window xx
    (List.range 3).mapM fun i => weighted s 3 i w.1.1 w.2
  return px.flatten

/-- The rows `[first, last)` of the input, with `ow` pixels each. -/
def horizontalPass (src : List UInt8) (iw ow first last : ℕ) : Option (List UInt8) := do
  let rows ← minus last first
  let t ← (List.range rows).mapM fun y => do
    let s ← slice src ((y + first) * iw * 3) ((y + first + 1) * iw * 3)
    horizontalRow s ow (precompute iw ow)
  return t.flatten

/-- `oh` rows of `rowlen` bytes, from rows of which the first `rowOff` were left out. -/
def verticalPass (hsrc : List UInt8) (rowlen oh rowOff : ℕ) (c : Coeffs) : Option (List UInt8) := do
  let out ← (List.range oh).mapM fun yy => do
    let w ← c.window yy
    let ymin ← minus w.1.1 rowOff
    (List.range rowlen).mapM fun i => weighted hsrc rowlen i ymin w.2
  return out.flatten

/-- The rows are left as they are when their length is unchanged. -/
def firstPass (src : List UInt8) (iw ow first last : ℕ) : Option (List UInt8) :=
  if ow ≠ iw then horizontalPass src iw ow first last else some src

/-- So are the columns, of rows with `tmpW` pixels. -/
def secondPass (hsrc : List UInt8) (tmpW ih oh rowOff : ℕ) (cv : Coeffs) : Option (List UInt8) :=
  if oh ≠ ih then verticalPass hsrc (tmpW * 3) oh rowOff cv else some hsrc

/-- Both passes. The first one has only the rows from the start of the first window to the end of
the last one. -/
def passes (src : List UInt8) (iw ih ow oh : ℕ) : Option (List UInt8) := do
  let cv := precompute ih oh
  let first ← cv.bounds[0]?
  let last ← cv.bounds[oh - 1]?
  let hsrc ← firstPass src iw ow first.1 (last.1 + last.2)
  secondPass hsrc (if ow ≠ iw then ow else iw) ih oh (if ow ≠ iw then first.1 else 0) cv

/-- The bytes of an image that has too many or too few. -/
def tolerated (data : List UInt8) (n : ℕ) : List UInt8 :=
  if n ≤ data.length then data.take n else data ++ List.replicate (n - data.length) 0

/-- An image of `iw` by `ih` pixels at the size `ow` by `oh`. -/
def resizeBicubic (iw ih : ℕ) (data : List UInt8) (ow oh : ℕ) : Option (List UInt8) :=
  if ow = 0 ∨ oh = 0 then some []
  else if iw = 0 ∨ ih = 0 then some (List.replicate (ow * oh * 3) 0)
  else if iw = ow ∧ ih = oh then some (tolerated data (iw * ih * 3))
  else passes (tolerated data (iw * ih * 3)) iw ih ow oh

end Resize

end Image

end Mimo26

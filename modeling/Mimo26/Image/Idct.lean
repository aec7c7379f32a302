import Mimo26.Library.Grid
import Mathlib.Algebra.Ring.Int.Defs
import Mathlib.Order.Lattice

/-!
# The inverse cosine transform

One block of a JPEG image is dequantized and transformed in two fixed-point passes, down the columns
and along the rows (`idct_islow` of `jpeg.rs`). A block, a column or a row with nothing but its
first coefficients takes a shortcut.

The fixed-width integers are integers that every operation wraps.

## Main definitions

* `dodct` — one pass over eight values
* `idctRow`, `idctIslow` — the transform with its shortcuts
* `plainIslow` — the two passes over every column and row

## Main results

* `dodct_lone` — a pass over a lone first value
* `idctIslow_eq_plainIslow` — the shortcuts give what the passes do
-/

namespace Mimo26

namespace Image

open Grid

namespace Jpeg

/-! ### Fixed-width integers -/

def i16 (n : ℤ) : ℤ := n.bmod (2 ^ 16)

def i32 (n : ℤ) : ℤ := n.bmod (2 ^ 32)

/-- `x << k` of an `i32` -/
def shl (x : ℤ) (k : ℕ) : ℤ := i32 (x * 2 ^ k)

def wrappingAdd (x y : ℤ) : ℤ := i32 (x + y)

def wrappingSub (x y : ℤ) : ℤ := i32 (x - y)

def wrappingMul (x y : ℤ) : ℤ := i32 (x * y)

def sat16 (v : ℤ) : ℤ := max (-32768) (min v 32767)

def sample (v : ℤ) : UInt8 := UInt8.ofNat (max (-128) (min v 127) + 128).toNat

/-! ### Constants -/

def constBits : ℕ := 13

def f0298 : ℤ := 2446

def f0390 : ℤ := 3196

def f0541 : ℤ := 4433

def f0765 : ℤ := 6270

def f0899 : ℤ := 7373

def f1175 : ℤ := 9633

def f1501 : ℤ := 12299

def f1847 : ℤ := 15137

def f1961 : ℤ := 16069

def f2053 : ℤ := 16819

def f2562 : ℤ := 20995

def f3072 : ℤ := 25172

/-! ### The transform -/

/-- Rounding and descaling. -/
def descale (n : ℕ) (v : ℤ) : ℤ := sat16 (wrappingAdd v (2 ^ (n - 1)) / 2 ^ n)

/-- One pass over eight values; `n` is 11 in the first, and 18 in the second. -/
def dodct (x : ℕ → ℤ) (n : ℕ) : List ℤ :=
  let tmp3 := wrappingAdd (wrappingMul (x 2) (f0541 + f0765)) (wrappingMul (x 6) f0541)
  let tmp2 := wrappingAdd (wrappingMul (x 6) (f0541 - f1847)) (wrappingMul (x 2) f0541)
  let tmp0 := shl (i16 (x 0 + x 4)) constBits
  let tmp1 := shl (i16 (x 0 - x 4)) constBits
  let tmp10 := wrappingAdd tmp0 tmp3
  let tmp13 := wrappingSub tmp0 tmp3
  let tmp11 := wrappingAdd tmp1 tmp2
  let tmp12 := wrappingSub tmp1 tmp2
  let z3 := i16 (x 7 + x 3)
  let z4 := i16 (x 5 + x 1)
  let z3p := wrappingAdd (wrappingMul z3 (f1175 - f1961)) (wrappingMul z4 f1175)
  let z4p := wrappingAdd (wrappingMul z4 (f1175 - f0390)) (wrappingMul z3 f1175)
  let t0 := wrappingAdd (wrappingAdd (wrappingMul (x 7) (f0298 - f0899))
    (wrappingMul (x 1) (-f0899))) z3p
  let t1 := wrappingAdd (wrappingAdd (wrappingMul (x 5) (f2053 - f2562))
    (wrappingMul (x 3) (-f2562))) z4p
  let t3 := wrappingAdd (wrappingAdd (wrappingMul (x 7) (-f0899))
    (wrappingMul (x 1) (f1501 - f0899))) z4p
  let t2 := wrappingAdd (wrappingAdd (wrappingMul (x 5) (-f2562))
    (wrappingMul (x 3) (f3072 - f2562))) z3p
  [descale n (wrappingAdd tmp10 t3), descale n (wrappingAdd tmp11 t2),
    descale n (wrappingAdd tmp12 t1), descale n (wrappingAdd tmp13 t0),
    descale n (wrappingSub tmp13 t0), descale n (wrappingSub tmp12 t1),
    descale n (wrappingSub tmp11 t2), descale n (wrappingSub tmp10 t3)]

/-- The second pass over a row, as samples. -/
def idctRow (w : ℕ → ℤ) : List UInt8 :=
  if ∀ k < 7, w (k + 1) = 0 then
    List.replicate 8 (sample (sat16 (wrappingAdd (shl (w 0) constBits) (2 ^ 17) / 2 ^ 18)))
  else (dodct w 18).map sample

/-- A coefficient dequantized, in the low 16 bits. -/
def dequantized (coef q : ℕ → ℤ) (i : ℕ) : ℤ := i16 (i32 (coef i * q i))

/-- The first pass over column `c`. -/
def idctColumn (x : ℕ → ℤ) (c : ℕ) : List ℤ :=
  let col := fun k => x (8 * k + c)
  if ∀ k < 7, col (k + 1) = 0 then List.replicate 8 (sat16 (4 * col 0)) else dodct col 11

/-- The workspace: in row `r`, what each column gives there. -/
def workspace (columns : ℕ → List ℤ) (r c : ℕ) : ℤ := (columns c).getD r 0

/-- Write eight rows of samples. -/
def writeRows (rows : ℕ → List UInt8) (out : List UInt8) (stride : ℕ) : List UInt8 :=
  (List.range 8).foldl (fun out r => setSpan out (r * stride) 8 fun k => (rows r).getD k 0) out

/-- Dequantize and transform a block of 64 coefficients. -/
def idctIslow (coef q : ℕ → ℤ) (out : List UInt8) (stride : ℕ) : List UInt8 :=
  let x := dequantized coef q
  if ∀ i ∈ List.range 56, coef (i + 8) = 0 then
    let row := idctRow fun c => i16 (shl (x c) 2)
    writeRows (fun _ => row) out stride
  else writeRows (fun r => idctRow (workspace (idctColumn x) r)) out stride

/-- The two passes over every column and every row. -/
def plainIslow (coef q : ℕ → ℤ) (out : List UInt8) (stride : ℕ) : List UInt8 :=
  let x := dequantized coef q
  let columns := fun c => dodct (fun k => x (8 * k + c)) 11
  writeRows (fun r => (dodct (workspace columns r) 18).map sample) out stride

/-! ### Shortcuts -/

theorem i16_eq {n : ℤ} (hlo : -2 ^ 15 ≤ n) (hhi : n < 2 ^ 15) : i16 n = n :=
  Int.bmod_eq_of_le (by omega) (by omega)

theorem i32_eq {n : ℤ} (hlo : -2 ^ 31 ≤ n) (hhi : n < 2 ^ 31) : i32 n = n :=
  Int.bmod_eq_of_le (by omega) (by omega)

theorem i16_range (n : ℤ) : -2 ^ 15 ≤ i16 n ∧ i16 n < 2 ^ 15 := by
  have hlo := @Int.le_bmod n (2 ^ 16) (by decide)
  have hhi := @Int.bmod_lt n (2 ^ 16) (by decide)
  rw [i16]
  omega

theorem shl_constBits {v : ℤ} (hlo : -2 ^ 15 ≤ v) (hhi : v < 2 ^ 15) :
    shl v constBits = v * 2 ^ 13 := by
  rw [shl, constBits]
  exact i32_eq (by omega) (by omega)

/-- **A lone first value** goes to all eight. -/
theorem dodct_lone {x : ℕ → ℤ} (h : ∀ k < 7, x (k + 1) = 0) (hlo : -2 ^ 15 ≤ x 0)
    (hhi : x 0 < 2 ^ 15) (n : ℕ) :
    dodct x n = List.replicate 8 (descale n (shl (x 0) constBits)) := by
  have hx0 : i16 (x 0) = x 0 := i16_eq hlo hhi
  have hshl : i32 (shl (x 0) constBits) = shl (x 0) constBits := by
    rw [shl_constBits hlo hhi]
    exact i32_eq (by omega) (by omega)
  have h16 : i16 0 = 0 := rfl
  have h32 : i32 0 = 0 := rfl
  simp only [dodct, wrappingAdd, wrappingSub, wrappingMul, h 0 (by decide), h 1 (by decide),
    h 2 (by decide), h 3 (by decide), h 4 (by decide), h 5 (by decide), h 6 (by decide), Int.zero_mul,
    Int.add_zero, Int.sub_zero, h16, h32, hx0, hshl]
  rfl

/-- In the first pass it is multiplied by four. -/
theorem descale_eleven {v : ℤ} (hlo : -2 ^ 15 ≤ v) (hhi : v < 2 ^ 15) :
    descale 11 (shl v constBits) = sat16 (4 * v) := by
  have hround : wrappingAdd (v * 2 ^ 13) (2 ^ (11 - 1)) = v * 2 ^ 13 + 2 ^ 10 :=
    i32_eq (by omega) (by omega)
  rw [descale, shl_constBits hlo hhi, hround]
  congr 1
  omega

/-- **A column of a lone value** takes the shortcut for what the pass gives. -/
theorem idctColumn_eq {x : ℕ → ℤ} (hx : ∀ i, -2 ^ 15 ≤ x i ∧ x i < 2 ^ 15) (c : ℕ) :
    idctColumn x c = dodct (fun k => x (8 * k + c)) 11 := by
  rw [idctColumn]
  dsimp only
  split
  · next h =>
    obtain ⟨hlo, hhi⟩ := hx (8 * 0 + c)
    rw [@dodct_lone (fun k => x (8 * k + c)) h hlo hhi, descale_eleven hlo hhi]
  · rfl

/-- **A row of a lone value** likewise. -/
theorem idctRow_eq {w : ℕ → ℤ} (hlo : -2 ^ 15 ≤ w 0) (hhi : w 0 < 2 ^ 15) :
    idctRow w = (dodct w 18).map sample := by
  rw [idctRow]
  split
  · next h =>
    rw [dodct_lone h hlo hhi, List.map_replicate]
    rfl
  · rfl

theorem sat16_range (v : ℤ) : -2 ^ 15 ≤ sat16 v ∧ sat16 v < 2 ^ 15 := by
  rw [sat16]
  omega

/-- What a pass gives are 16-bit values. -/
theorem workspace_range (x : ℕ → ℤ) (r : ℕ) :
    -2 ^ 15 ≤ workspace (fun c => dodct (fun k => x (8 * k + c)) 11) r 0 ∧
      workspace (fun c => dodct (fun k => x (8 * k + c)) 11) r 0 < 2 ^ 15 := by
  have hall : ∀ v ∈ dodct (fun k => x (8 * k + 0)) 11, -2 ^ 15 ≤ v ∧ v < 2 ^ 15 := by
    intro v hv
    have hsat : ∃ u, v = sat16 u := by
      simp only [dodct, List.mem_cons, List.not_mem_nil, or_false] at hv
      rcases hv with rfl | rfl | rfl | rfl | rfl | rfl | rfl | rfl <;> exact ⟨_, rfl⟩
    obtain ⟨u, rfl⟩ := hsat
    exact sat16_range u
  rw [workspace, List.getD_eq_getElem?_getD]
  cases hget : (dodct (fun k => x (8 * k + 0)) 11)[r]? with
  | none => decide
  | some v => exact hall v (List.mem_of_getElem? hget)

/-- Rows that agree are written alike. -/
theorem writeRows_congr {rows rows' : ℕ → List UInt8} (h : ∀ r < 8, rows r = rows' r)
    (out : List UInt8) (stride : ℕ) : writeRows rows out stride = writeRows rows' out stride :=
  List.foldl_ext _ _ _ fun _ r hr => by rw [h r (List.mem_range.mp hr)]

/-- A pass reads eight values. -/
theorem dodct_congr {w w' : ℕ → ℤ} (h : ∀ k < 8, w k = w' k) (n : ℕ) : dodct w n = dodct w' n := by
  simp only [dodct, h 0 (by decide), h 1 (by decide), h 2 (by decide), h 3 (by decide),
    h 4 (by decide), h 5 (by decide), h 6 (by decide), h 7 (by decide)]

section block

variable {coef q : ℕ → ℤ}

theorem dequantized_eq_zero (hzero : ∀ i ∈ List.range 56, coef (i + 8) = 0) {i : ℕ} (hlo : 8 ≤ i)
    (hhi : i < 64) : dequantized coef q i = 0 := by
  have hcoef := hzero (i - 8) (List.mem_range.mpr (by omega))
  rw [Nat.sub_add_cancel hlo] at hcoef
  rw [dequantized, hcoef, Int.zero_mul]
  rfl

/-- **A block of a lone row**: each column carries its value, times four, to every row. -/
theorem workspace_of_zero (h : ∀ i < 64, -8192 ≤ dequantized coef q i ∧ dequantized coef q i ≤ 8191)
    (hzero : ∀ i ∈ List.range 56, coef (i + 8) = 0) {r c : ℕ} (hr : r < 8) (hc : c < 8) :
    workspace (fun c => dodct (fun k => dequantized coef q (8 * k + c)) 11) r c =
      4 * dequantized coef q c := by
  have hcolumn : ∀ k < 7, dequantized coef q (8 * (k + 1) + c) = 0 :=
    fun k hk => dequantized_eq_zero hzero (by omega) (by omega)
  have hfirst : 8 * 0 + c = c := by omega
  obtain ⟨hlo, hhi⟩ := h c (by omega)
  have hsat : sat16 (4 * dequantized coef q c) = 4 * dequantized coef q c := by
    rw [sat16]
    omega
  rw [workspace, @dodct_lone (fun k => dequantized coef q (8 * k + c)) hcolumn
    (by rw [hfirst]; omega) (by rw [hfirst]; omega), hfirst,
    descale_eleven (by omega) (by omega), hsat, List.getD_eq_getElem?_getD,
    List.getElem?_replicate_of_lt hr]
  rfl

end block

/-- **The shortcuts** give the samples of the two passes, for any dequantized values that a shift by
two keeps in 16 bits. -/
theorem idctIslow_eq_plainIslow {coef q : ℕ → ℤ}
    (h : ∀ i < 64, -8192 ≤ dequantized coef q i ∧ dequantized coef q i ≤ 8191)
    (out : List UInt8) (stride : ℕ) :
    idctIslow coef q out stride = plainIslow coef q out stride := by
  have hx : ∀ i, -2 ^ 15 ≤ dequantized coef q i ∧ dequantized coef q i < 2 ^ 15 :=
    fun i => i16_range _
  rw [idctIslow, plainIslow]
  dsimp only
  split
  · next hzero =>
    refine writeRows_congr (fun r hr => ?_) out stride
    have hshift : ∀ c < 8, i16 (shl (dequantized coef q c) 2) = 4 * dequantized coef q c := by
      intro c hc
      obtain ⟨hlo, hhi⟩ := h c (by omega)
      rw [shl, i32_eq (by omega) (by omega), i16_eq (by omega) (by omega)]
      omega
    obtain ⟨hlo, hhi⟩ := h 0 (by decide)
    have hfirst := hshift 0 (by decide)
    rw [idctRow_eq (by rw [hfirst]; omega) (by rw [hfirst]; omega)]
    refine congrArg _ (dodct_congr (fun c hc => ?_) 18)
    rw [hshift c hc, workspace_of_zero h hzero hr hc]
  · refine writeRows_congr (fun r _ => ?_) out stride
    have hcolumns : idctColumn (dequantized coef q) =
        fun c => dodct (fun k => dequantized coef q (8 * k + c)) 11 :=
      funext fun c => idctColumn_eq hx c
    obtain ⟨hlo, hhi⟩ := workspace_range (dequantized coef q) r
    rw [hcolumns, idctRow_eq hlo hhi]

/-- A flat block of the largest value. -/
theorem idctIslow_eq_plainIslow_flat :
    idctIslow (fun i => if i = 0 then 8191 else 0) (fun _ => 1) (List.replicate 64 0) 8 =
      plainIslow (fun i => if i = 0 then 8191 else 0) (fun _ => 1) (List.replicate 64 0) 8 :=
  idctIslow_eq_plainIslow (by decide) (List.replicate 64 0) 8

-- one more, shifted, leaves the 16 bits in which the pass saturates it
example : i16 (shl 8192 2) = -32768 ∧ sat16 (4 * 8192) = 32767 := by decide

end Jpeg

end Image

end Mimo26

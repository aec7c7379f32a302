import Mimo26.Attn.Attention
import Mimo26.Library.Grid
import Mimo26.Library.Pages
import Mimo26.Library.Result

/-!
# Paged keys and values

The rows of a layer in one store, and in stores of a page each behind a page table (`RowStore` and
`GaPaged` of `cache.rs`, with the codec of `fp8kv.rs`). An append to the pages is cut at their
borders; whatever the page size, what is read is what one store of the same appends gives.

The arithmetic and the conversion to codes are given. The known-wrong variants that the tests select
are left out, and with them the scales that keys and values share.

## Main definitions

* `Fp8Ops` — the arithmetic of values and codes
* `EncodedKv`, `encodeKv`, `decodeKv`, `mergeEncoded` — the codec
* `RowStore`, `GaPaged` — the stores
-/

namespace Mimo26

namespace Attn

namespace Cache

open Result Pages

inductive Stop where
  | error (e : AttnError)
  | panic

variable {V : Type}

def orPanic {α : Type} : Option α → Except Stop α
  | some a => .ok a
  | none => .error .panic

/-! ### Codes -/

inductive ScaleMode where
  | unit
  | perTokenHead

inductive StoreMode where
  | f32
  | fp8Unit
  | fp8PerTokenHead

def StoreMode.scaleMode : StoreMode → Option ScaleMode
  | .f32 => none
  | .fp8Unit => some .unit
  | .fp8PerTokenHead => some .perTokenHead

inductive Layout where
  | unit
  | perTokenHead
  deriving DecidableEq

def Layout.of : ScaleMode → Layout
  | .unit => .unit
  | .perTokenHead => .perTokenHead

/-- Values, and their codes: `exceeds` is a quotient beyond the largest code, and `planeScale` the
scale of some values. -/
structure Fp8Ops (V : Type) where
  one : V
  mul : V → V → V
  div : V → V → V
  exceeds : V → Bool
  encode : V → UInt8
  decode : UInt8 → V
  planeScale : List V → V

structure EncodedKv (V : Type) where
  layout : Layout
  nTok : ℕ
  nKv : ℕ
  dQk : ℕ
  dV : ℕ
  kCodes : List UInt8
  vCodes : List UInt8
  kScales : List V
  vScales : List V
  clipCount : ℕ

/-- The head and the dimension of each value of a token, in the order of the loops. -/
def cells (nKv d : ℕ) : List (ℕ × ℕ) := List.range nKv ×ˢ List.range d

section codec

variable (o : Fp8Ops V)

/-- The codes of some rows, and how many values are out of range. -/
def encodeRows (values : List V) (nTok nKv d : ℕ) (scaleOf : ℕ → ℕ → V) :
    Except Stop (List UInt8 × ℕ) := do
  demand (values.length = nTok * nKv * d) Stop.panic
  let quotients ← (List.range nTok ×ˢ cells nKv d).mapM fun i => do
    let x ← orPanic values[(i.1 * nKv + i.2.1) * d + i.2.2]?
    return o.div x (scaleOf i.1 i.2.1)
  return (quotients.map o.encode, quotients.countP o.exceeds)

/-- A scale for each token and head. -/
def planeScales (values : List V) (nTok nKv d : ℕ) : Except Stop (List V) :=
  (List.range nTok ×ˢ List.range nKv).mapM fun i => do
    let base := (i.1 * nKv + i.2) * d
    return o.planeScale (← orPanic (slice values base (base + d)))

def encodeKv (kRows vRows : List V) (nTok nKv dQk dV : ℕ) (mode : ScaleMode) :
    Except Stop (EncodedKv V) :=
  if nTok = 0 then .error (.error (.kvLayout "encode_kv: empty"))
  else
    match Layout.of mode with
    | .unit => do
      let k ← encodeRows o kRows nTok nKv dQk fun _ _ => o.one
      let v ← encodeRows o vRows nTok nKv dV fun _ _ => o.one
      return ⟨.unit, nTok, nKv, dQk, dV, k.1, v.1, [], [], k.2 + v.2⟩
    | .perTokenHead => do
      let kScales ← planeScales o kRows nTok nKv dQk
      let vScales ← planeScales o vRows nTok nKv dV
      let k ← encodeRows o kRows nTok nKv dQk fun t h => kScales.getD (t * nKv + h) o.one
      let v ← encodeRows o vRows nTok nKv dV fun t h => vScales.getD (t * nKv + h) o.one
      return ⟨.perTokenHead, nTok, nKv, dQk, dV, k.1, v.1, kScales, vScales, k.2 + v.2⟩

/-- The values of some codes. -/
def decodeRows (layout : Layout) (codes : List UInt8) (scales : List V) (nTok nKv d : ℕ) :
    Except Stop (List V) :=
  (List.range nTok ×ˢ cells nKv d).mapM fun i => do
    let s ← match layout with
      | .unit => pure o.one
      | .perTokenHead => orPanic scales[i.1 * nKv + i.2.1]?
    let code ← orPanic codes[(i.1 * nKv + i.2.1) * d + i.2.2]?
    return o.mul (o.decode code) s

def decodeKv (enc : EncodedKv V) (readScale : V) : Except Stop (List V × List V) := do
  let k ← decodeRows o enc.layout enc.kCodes enc.kScales enc.nTok enc.nKv enc.dQk
  let v ← decodeRows o enc.layout enc.vCodes enc.vScales enc.nTok enc.nKv enc.dV
  return (k, v.map fun x => o.mul x readScale)

def mergeEncoded (dst src : EncodedKv V) : Except Stop (EncodedKv V) := do
  demand (dst.layout = src.layout) Stop.panic
  demand (dst.nKv = src.nKv) Stop.panic
  return { dst with
    kCodes := dst.kCodes ++ src.kCodes
    vCodes := dst.vCodes ++ src.vCodes
    kScales := dst.kScales ++ src.kScales
    vScales := dst.vScales ++ src.vScales
    clipCount := dst.clipCount + src.clipCount
    nTok := dst.nTok + src.nTok }

end codec

/-! ### Stores -/

structure RowStore (V : Type) where
  mode : StoreMode
  nKv : ℕ
  dQk : ℕ
  dV : ℕ
  valueScale : V
  f32K : List V := []
  f32V : List V := []
  enc : Option (EncodedKv V) := none
  nRows : ℕ := 0

namespace RowStore

variable (o : Fp8Ops V)

/-- Append `n` rows, the values scaled. -/
def append (s : RowStore V) (kRaw vRaw : List V) (n : ℕ) : Except Stop (RowStore V) :=
  if kRaw.length ≠ n * s.nKv * s.dQk ∨ vRaw.length ≠ n * s.nKv * s.dV then
    .error (.error (.shapeMismatch s!"RowStore::append: k {kRaw.length} / v {vRaw.length} for n={n} n_kv={s.nKv} d_qk={s.dQk} d_v={s.dV}"))
  else if n = 0 then .ok s
  else do
    let vStored := vRaw.map fun x => o.mul x s.valueScale
    match s.mode.scaleMode with
    | none =>
      return { s with f32K := s.f32K ++ kRaw, f32V := s.f32V ++ vStored, nRows := s.nRows + n }
    | some mode =>
      let chunk ← encodeKv o kRaw vStored n s.nKv s.dQk s.dV mode
      let enc ← match s.enc with
        | none => pure chunk
        | some dst => mergeEncoded dst chunk
      return { s with enc := some enc, nRows := s.nRows + n }

def rows (s : RowStore V) : Except Stop (List V × List V) :=
  match s.mode with
  | .f32 => .ok (s.f32K, s.f32V)
  | .fp8Unit => do decodeKv o (← orPanic s.enc) o.one
  | .fp8PerTokenHead => do decodeKv o (← orPanic s.enc) o.one

def rowsRange (s : RowStore V) (lo hi : ℕ) : Except Stop (List V × List V) := do
  demand (hi ≤ s.nRows ∧ lo ≤ hi) Stop.panic
  let kv ← s.rows o
  let klen := s.nKv * s.dQk
  let vlen := s.nKv * s.dV
  let k ← orPanic (slice kv.1 (lo * klen) (hi * klen))
  let v ← orPanic (slice kv.2 (lo * vlen) (hi * vlen))
  return (k, v)

end RowStore

structure GaPaged (V : Type) where
  storeTemplate : RowStore V
  pageTokens : ℕ
  pageTokens_pos : 0 < pageTokens
  pageTable : List ℕ := []
  slots : List (RowStore V) := []
  nRows : ℕ := 0

namespace GaPaged

variable (o : Fp8Ops V)

/-- The page of row `nRows`, with a new slot if it is the first of its page. -/
def reserve (g : GaPaged V) : GaPaged V :=
  if g.nRows / g.pageTokens = g.pageTable.length then
    let t := g.storeTemplate
    { g with
      slots := g.slots ++ [⟨t.mode, t.nKv, t.dQk, t.dV, t.valueScale, [], [], none, 0⟩]
      pageTable := g.pageTable ++ [g.slots.length] }
  else g

/-- Append rows `done` up to `done + take`, which one page holds. -/
def appendPart (g : GaPaged V) (kRaw vRaw : List V) (done take : ℕ) : Except Stop (GaPaged V) := do
  let klen := g.storeTemplate.nKv * g.storeTemplate.dQk
  let vlen := g.storeTemplate.nKv * g.storeTemplate.dV
  let r := g.reserve
  let slot ← orPanic r.pageTable[g.nRows / g.pageTokens]?
  let k ← orPanic (slice kRaw (done * klen) ((done + take) * klen))
  let v ← orPanic (slice vRaw (done * vlen) ((done + take) * vlen))
  let store ← orPanic r.slots[slot]?
  let store ← store.append o k v take
  return { r with slots := r.slots.set slot store, nRows := r.nRows + take }

/-- How many of the rows from `done` on go to the page in hand. -/
def takeOf (g : GaPaged V) (n done : ℕ) : ℕ :=
  min (g.pageTokens - g.nRows % g.pageTokens) (n - done)

theorem takeOf_pos (g : GaPaged V) {n done : ℕ} (h : done < n) : 0 < g.takeOf n done := by
  have hlt := Nat.mod_lt g.nRows g.pageTokens_pos
  rw [takeOf]
  omega

def appendFrom (g : GaPaged V) (kRaw vRaw : List V) (n done : ℕ) : Except Stop (GaPaged V) :=
  if h : done < n then do
    let g' ← g.appendPart o kRaw vRaw done (g.takeOf n done)
    g'.appendFrom kRaw vRaw n (done + g.takeOf n done)
  else .ok g
termination_by n - done
decreasing_by
  have hpos := takeOf_pos g h
  omega

/-- Append `n` rows, page by page. -/
def append (g : GaPaged V) (kRaw vRaw : List V) (n : ℕ) : Except Stop (GaPaged V) :=
  g.appendFrom o kRaw vRaw n 0

/-- How many of the rows from `t` on are read from its page. -/
def readOf (g : GaPaged V) (hi t : ℕ) : ℕ := min (g.pageTokens - t % g.pageTokens) (hi - t)

theorem readOf_pos (g : GaPaged V) {hi t : ℕ} (h : t < hi) : 0 < g.readOf hi t := by
  have hlt := Nat.mod_lt t g.pageTokens_pos
  rw [readOf]
  omega

def readFrom (g : GaPaged V) (hi t : ℕ) : Except Stop (List V × List V) :=
  if h : t < hi then do
    let slot ← orPanic g.pageTable[t / g.pageTokens]?
    let store ← orPanic g.slots[slot]?
    let part ← store.rowsRange o (t % g.pageTokens) (t % g.pageTokens + g.readOf hi t)
    let rest ← g.readFrom hi (t + g.readOf hi t)
    return (part.1 ++ rest.1, part.2 ++ rest.2)
  else .ok ([], [])
termination_by hi - t
decreasing_by
  have hpos := readOf_pos g h
  omega

/-- Rows `lo` up to `hi`, through the page table. -/
def rowsRange (g : GaPaged V) (lo hi : ℕ) : Except Stop (List V × List V) := do
  demand (hi ≤ g.nRows ∧ lo ≤ hi) Stop.panic
  g.readFrom o hi lo

/-- The rows of a page. -/
def pageRows (g : GaPaged V) (logicalPage : ℕ) : Except Stop (List V × List V) := do
  let slot ← orPanic g.pageTable[logicalPage]?
  let lo := logicalPage * g.pageTokens
  let hi := min (lo + g.pageTokens) g.nRows
  demand (lo < hi) Stop.panic
  let store ← orPanic g.slots[slot]?
  store.rowsRange o 0 (hi - lo)

end GaPaged

end Cache

end Attn

end Mimo26

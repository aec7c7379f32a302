import Mathlib.Data.List.Dedup
import Mathlib.Data.List.Sort
import Mimo26.Load.Mat

/-!
# Fused projections

The rebuilding of the query, key and value projections from the shards of a fused checkpoint
(`fused.rs`). Each shard keeps the rows of the three one after the other, with a scale for each
block of its own rows and columns.

The product of a decoded code and a scale is taken as given; it is rounded to single precision.

## Main definitions

* `splitShardMajorFused`, `dequantizePerRow`, `reconstructLayerQkv` — the rebuilding
* `Rebuilt` — what it is to give
* `Wide` — each shard has a scale for each block of its columns

## Main results

* `reconstruct_iff` — a result is right exactly when the grids are wide enough
-/

namespace Mimo26

namespace Load

open Result

variable {S O : Type} (product : UInt8 → S → O)

/-- A rebuilt projection: its codes, and a scale for each row and block of columns. -/
structure ReconstructedProjection (S : Type) where
  name : String
  weight : Mat UInt8
  scalePerRow : Mat S

structure SplitParts (S : Type) where
  q : ReconstructedProjection S
  k : ReconstructedProjection S
  v : ReconstructedProjection S

/-- A quotient of `usize`s. -/
def quotient (a b : ℕ) : Except Stop ℕ := if b = 0 then .error .panic else .ok (a / b)

/-- The scales of rows `lo` to `hi` of a shard. -/
def scaleRows (w : Mat UInt8) (s : Mat S) (block : ℕ × ℕ) (lo hi : ℕ) :
    Except Stop (Mat S) := do
  let n ← quotient w.cols block.2
  let m ← Mat.fill n
    (fun i => do
      let srow ← quotient (lo + i) block.1
      if s.rows ≤ srow then
        .error (.error (.shapeMismatch
          s!"shard scale grid {s.rows} rows too small for row {lo + i}"))
      else .ok ())
    (fun i c => s.get ((lo + i) / block.1) c) (hi - lo)
  return m.1

/-- The rows of one projection of a shard. -/
def shardPart (w : Mat UInt8) (s : Mat S) (block : ℕ × ℕ) (lo hi : ℕ) :
    Except Stop (Mat UInt8 × Mat S) := do
  let scales ← scaleRows w s block lo hi
  let rows ← w.sliceRows lo hi
  return (rows, scales)

/-- The first shard whose rows are not the sum of the segments. -/
def checkSegments (total : ℕ) : ℕ → List (Mat UInt8) → Except Stop Unit
  | _, [] => .ok ()
  | i, w :: ws =>
    if w.rows ≠ total then .error (.error (.segmentMismatch i w.rows total))
    else checkSegments total (i + 1) ws

/-- The shards' parts of one projection below one another. -/
def stackProjection (name : String) (parts : List (Mat UInt8 × Mat S)) :
    Except Stop (ReconstructedProjection S) := do
  let weight ← Mat.stackRows (parts.map Prod.fst)
  let scalePerRow ← Mat.stackRows (parts.map Prod.snd)
  return ⟨name, weight, scalePerRow⟩

def splitShardMajorFused (shardWeights : List (Mat UInt8)) (shardScales : List (Mat S))
    (segs : ℕ × ℕ × ℕ) (block : ℕ × ℕ) : Except Stop (SplitParts S) := do
  demand (shardWeights ≠ [] ∧ shardWeights.length = shardScales.length)
    (.error .shardListMismatch)
  let total := segs.1 + segs.2.1 + segs.2.2
  checkSegments total 0 shardWeights
  let parts ← (shardWeights.zip shardScales).mapM fun ws => do
    let q ← shardPart ws.1 ws.2 block 0 segs.1
    let k ← shardPart ws.1 ws.2 block segs.1 (segs.1 + segs.2.1)
    let v ← shardPart ws.1 ws.2 block (segs.1 + segs.2.1) total
    return (q, k, v)
  let q ← stackProjection "q" (parts.map fun p => p.1)
  let k ← stackProjection "k" (parts.map fun p => p.2.1)
  let v ← stackProjection "v" (parts.map fun p => p.2.2)
  return ⟨q, k, v⟩

def dequantizePerRow (proj : ReconstructedProjection S) (block : ℕ × ℕ) :
    Except Stop (Mat O) := do
  let n ← quotient proj.weight.cols block.2
  demand (proj.scalePerRow.rows = proj.weight.rows ∧ proj.scalePerRow.cols = n)
    (.error (.shapeMismatch
      s!"scale_per_row {proj.scalePerRow.rows}x{proj.scalePerRow.cols} != {proj.weight.rows}x{n}"))
  let m ← Mat.fill proj.weight.cols (fun _ => .ok ())
    (fun r c => do
      let code ← proj.weight.get r c
      let scale ← proj.scalePerRow.get r (c / block.2)
      return product code scale) proj.weight.rows
  return m.1

/-- The known-wrong rebuilding: shard after shard, with one grid for all rows. -/
def dequantizeNaiveFused (shardWeights : List (Mat UInt8)) (shardScales : List (Mat S))
    (block : ℕ × ℕ) : Except Stop (Mat O) := do
  demand (shardWeights ≠ [] ∧ shardWeights.length = shardScales.length)
    (.error .shardListMismatch)
  let w ← Mat.stackRows shardWeights
  let s ← Mat.stackRows shardScales
  let m ← Mat.fill w.cols
    (fun r => do
      let srow ← quotient r block.1
      if s.rows ≤ srow then
        .error (.error (.shapeMismatch s!"naive global scale row {srow} out of {s.rows} grid rows"))
      else .ok ())
    (fun r c => do
      let code ← w.get r c
      let bcol ← quotient c block.2
      let scale ← s.get (r / block.1) bcol
      return product code scale) w.rows
  return m.1

/-- The rows of the shards, each number once, in order. -/
def distinctRows (shardWeights : List (Mat UInt8)) : List ℕ :=
  ((shardWeights.map Mat.rows).insertionSort (· ≤ ·)).dedup

def reconstructLayerQkv (shardWeights : List (Mat UInt8)) (shardScales : List (Mat S))
    (segs : ℕ × ℕ × ℕ) (block : ℕ × ℕ) (naive : Bool) : Except Stop (Mat O) := do
  demand (shardWeights ≠ [] ∧ shardWeights.length = shardScales.length)
    (.error .shardListMismatch)
  let distinct := distinctRows shardWeights
  demand (distinct.length = 1) (.error (.unevenShardRows distinct))
  checkSegments (segs.1 + segs.2.1 + segs.2.2) 0 shardWeights
  if naive then
    dequantizeNaiveFused product shardWeights shardScales block
  else do
    let parts ← splitShardMajorFused shardWeights shardScales segs block
    let q ← dequantizePerRow product parts.q block
    let k ← dequantizePerRow product parts.k block
    let v ← dequantizePerRow product parts.v block
    Mat.stackRows [q, k, v]

/-! ### What it is to give -/

inductive Projection where
  | q
  | k
  | v
  deriving DecidableEq, Repr

/-- The rows of a projection in each shard. -/
def Projection.len (segs : ℕ × ℕ × ℕ) : Projection → ℕ
  | q => segs.1
  | k => segs.2.1
  | v => segs.2.2

/-- The first of them. -/
def Projection.lo (segs : ℕ × ℕ × ℕ) : Projection → ℕ
  | q => 0
  | k => segs.1
  | v => segs.1 + segs.2.1

/-- One projection after the other, each shard after shard; a row is that of its shard, each code
times the scale of its block in the shard's own grid. -/
structure Rebuilt (ws : List (Mat UInt8)) (ss : List (Mat S)) (segs : ℕ × ℕ × ℕ) (block : ℕ × ℕ)
    (out : Mat O) : Prop where
  rows : out.rows = ws.length * (segs.1 + segs.2.1 + segs.2.2)
  cols : ∀ w ∈ ws, w.cols = out.cols
  cell : ∀ (p : Projection) (s : ℕ) w g, ws[s]? = some w → ss[s]? = some g → ∀ i < p.len segs,
    ∀ c < out.cols, (p.lo segs + i) / block.1 < g.rows ∧ c / block.2 < g.cols ∧
      ∃ code scale, w.get (p.lo segs + i) c = .ok code ∧
        g.get ((p.lo segs + i) / block.1) (c / block.2) = .ok scale ∧
        out.get (ws.length * p.lo segs + s * p.len segs + i) c = .ok (product code scale)

/-- Each grid has a column for each block of its shard's columns, if there are rows. -/
def Wide (ws : List (Mat UInt8)) (ss : List (Mat S)) (segs : ℕ × ℕ × ℕ) (block : ℕ × ℕ) : Prop :=
  0 < segs.1 + segs.2.1 + segs.2.2 → ∀ (s : ℕ) w g, ws[s]? = some w → ss[s]? = some g →
    ∀ c < w.cols, c / block.2 < g.cols

/-! ### One projection -/

variable {w : Mat UInt8} {g : Mat S} {block : ℕ × ℕ} {lo hi : ℕ}

theorem quotient_eq_ok {a b c : ℕ} : quotient a b = .ok c ↔ b ≠ 0 ∧ a / b = c := by
  rw [quotient]
  split
  · next h => exact ⟨fun h' => (by cases h'), fun h' => absurd h h'.1⟩
  · next h => exact ⟨fun h' => ⟨h, Except.ok.inj h'⟩, fun h' => congrArg _ h'.2⟩

/-- **The rows of a shard** and the scales of their blocks. -/
theorem shardPart_eq_ok {part : Mat UInt8 × Mat S} (h : shardPart w g block lo hi = .ok part) :
    block.2 ≠ 0 ∧ part.1.rows = hi - lo ∧ part.1.cols = w.cols ∧ part.2.rows = hi - lo ∧
      part.2.cols = w.cols / block.2 ∧
      (∀ r c, r < hi - lo → c < w.cols → part.1.get r c = w.get (lo + r) c) ∧
      ∀ i < hi - lo, (lo + i) / block.1 < g.rows ∧ ∀ c < w.cols / block.2,
        ∃ x, g.get ((lo + i) / block.1) c = .ok x ∧ part.2.get i c = .ok x := by
  obtain ⟨scales, hscales, h⟩ := bind_eq_ok.mp h
  obtain ⟨rows, hslice, h⟩ := bind_eq_ok.mp h
  obtain rfl := Except.ok.inj h
  obtain ⟨n, hn, hscales⟩ := bind_eq_ok.mp hscales
  obtain ⟨m, hfill, hscales⟩ := bind_eq_ok.mp hscales
  obtain rfl := Except.ok.inj hscales
  obtain ⟨hpos, rfl⟩ := quotient_eq_ok.mp hn
  obtain ⟨hrows, hcells⟩ := Mat.fill_eq_ok hfill
  obtain ⟨hrows', hcols', hget⟩ := Mat.get_sliceRows hslice
  refine ⟨hpos, hrows', hcols', hrows, m.2, hget, fun i hi => ⟨?_, (hcells i hi).2⟩⟩
  obtain ⟨srow, hsrow, hcheck⟩ := bind_eq_ok.mp (hcells i hi).1
  obtain ⟨-, rfl⟩ := quotient_eq_ok.mp hsrow
  split at hcheck
  · cases hcheck
  · next hlt => exact Nat.lt_of_not_le hlt

/-- **A dequantized projection.** -/
theorem dequantizePerRow_eq_ok {proj : ReconstructedProjection S} {m : Mat O}
    (h : dequantizePerRow product proj block = .ok m) :
    m.rows = proj.weight.rows ∧ m.cols = proj.weight.cols ∧
      proj.scalePerRow.rows = proj.weight.rows ∧
      proj.scalePerRow.cols = proj.weight.cols / block.2 ∧
      ∀ r < proj.weight.rows, ∀ c < proj.weight.cols, ∃ code scale,
        proj.weight.get r c = .ok code ∧ proj.scalePerRow.get r (c / block.2) = .ok scale ∧
          m.get r c = .ok (product code scale) := by
  obtain ⟨n, hn, h⟩ := bind_eq_ok.mp h
  obtain ⟨⟨⟩, hshape, h⟩ := bind_eq_ok.mp h
  obtain ⟨m', hfill, h⟩ := bind_eq_ok.mp h
  obtain rfl := Except.ok.inj h
  obtain ⟨-, rfl⟩ := quotient_eq_ok.mp hn
  obtain ⟨hrows', hcols'⟩ := demand_eq_ok.mp hshape
  obtain ⟨hrows, hcells⟩ := Mat.fill_eq_ok hfill
  refine ⟨hrows, m'.2, hrows', hcols', fun r hr c hc => ?_⟩
  obtain ⟨x, hx, hget⟩ := (hcells r hr).2 c hc
  obtain ⟨code, hcode, hx⟩ := bind_eq_ok.mp hx
  obtain ⟨scale, hscale, hx⟩ := bind_eq_ok.mp hx
  obtain rfl := Except.ok.inj hx
  exact ⟨code, scale, hcode, hscale, hget⟩

/-- A projection whose rows are dequantized has columns of whole blocks. -/
theorem div_lt_of_dequantized {proj : ReconstructedProjection S} {m : Mat O}
    (h : dequantizePerRow product proj block = .ok m) (hrows : 0 < proj.weight.rows) {c : ℕ}
    (hc : c < proj.weight.cols) : c / block.2 < proj.weight.cols / block.2 := by
  obtain ⟨-, -, hrows', hcols', hcells⟩ := dequantizePerRow_eq_ok product h
  -- past the last scale of the last row there is nothing to read
  obtain ⟨code, scale, -, hscale, -⟩ := hcells (proj.weight.rows - 1) (by omega)
    (proj.weight.cols - 1) (by omega)
  have hlt := (List.getElem?_eq_some_iff.mp (Mat.get_eq_ok.mp hscale)).1
  rw [proj.scalePerRow.length_data, hrows', hcols'] at hlt
  have hle : c / block.2 ≤ (proj.weight.cols - 1) / block.2 := Nat.div_le_div_right (by omega)
  obtain ⟨rows, hsucc⟩ := Nat.exists_eq_succ_of_ne_zero hrows.ne'
  rw [hsucc, Nat.succ_mul, Nat.succ_sub_one] at hlt
  omega

/-- The shards' parts of one projection. -/
theorem stackProjection_eq_ok {name : String} {parts : List (Mat UInt8 × Mat S)}
    {proj : ReconstructedProjection S} (h : stackProjection name parts = .ok proj) :
    Mat.stackRows (parts.map Prod.fst) = .ok proj.weight ∧
      Mat.stackRows (parts.map Prod.snd) = .ok proj.scalePerRow := by
  obtain ⟨weight, hweight, h⟩ := bind_eq_ok.mp h
  obtain ⟨scales, hscales, h⟩ := bind_eq_ok.mp h
  obtain rfl := Except.ok.inj h
  exact ⟨hweight, hscales⟩

/-- A stack of parts of `n` rows each: row `i` of part `s`. -/
theorem get_stack_of_rows {α : Type} {parts : List (Mat α)} {m p : Mat α} {n s i c : ℕ}
    (h : Mat.stackRows parts = .ok m) (hn : ∀ p ∈ parts, p.rows = n) (hp : parts[s]? = some p)
    (hi : i < n) (hc : c < p.cols) : m.get (s * n + i) c = p.get i c := by
  obtain ⟨hs, rfl⟩ := List.getElem?_eq_some_iff.mp hp
  have hsplit : parts = parts.take s ++ parts[s] :: parts.drop (s + 1) := by
    rw [List.getElem_cons_drop, List.take_append_drop]
  have hsum : ((parts.take s).map Mat.rows).sum = s * n := by
    rw [List.map_congr_left fun p hp => hn p (List.mem_of_mem_take hp), List.map_const',
      List.sum_replicate_nat, List.length_take, Nat.min_eq_left hs.le]
  rw [hsplit] at h
  rw [← hsum]
  exact Mat.get_stackRows h (by rwa [hn _ (List.getElem_mem hs)]) hc

/-- What one projection is to give. -/
structure RebuiltProjection (ws : List (Mat UInt8)) (ss : List (Mat S)) (block : ℕ × ℕ)
    (lo len : ℕ) (d : Mat O) : Prop where
  rows : d.rows = ws.length * len
  cols : ∀ w ∈ ws, w.cols = d.cols
  cell : ∀ (s : ℕ) w g, ws[s]? = some w → ss[s]? = some g → ∀ i < len, ∀ c < d.cols,
    (lo + i) / block.1 < g.rows ∧ c / block.2 < d.cols / block.2 ∧ ∃ code scale,
      w.get (lo + i) c = .ok code ∧ g.get ((lo + i) / block.1) (c / block.2) = .ok scale ∧
        d.get (s * len + i) c = .ok (product code scale)

/-- **One projection,** from the shards' parts of it. -/
theorem rebuiltProjection {ws : List (Mat UInt8)} {ss : List (Mat S)} {len : ℕ} {name : String}
    {parts : List (Mat UInt8 × Mat S)} {proj : ReconstructedProjection S} {d : Mat O}
    (hlen : ws.length = ss.length)
    (hparts : (ws.zip ss).mapM (fun ws => shardPart ws.1 ws.2 block lo (lo + len)) = .ok parts)
    (hstack : stackProjection name parts = .ok proj)
    (hdeq : dequantizePerRow product proj block = .ok d) :
    RebuiltProjection product ws ss block lo len d := by
  obtain ⟨hweight, hscales⟩ := stackProjection_eq_ok hstack
  obtain ⟨hrows, hcols, hrows', hcols', hcells⟩ := dequantizePerRow_eq_ok product hdeq
  obtain ⟨hpartCols, hpartRows, -⟩ := Mat.stackRows_eq_ok hweight
  have hlength : parts.length = ws.length := by
    rw [← (forall₂_of_mapM hparts).length_eq, List.length_zip, ← hlen, Nat.min_self]
  have hpart : ∀ p ∈ parts, p.1.rows = len ∧ p.2.rows = len := by
    intro p hp
    obtain ⟨wg, -, hwg⟩ := exists_mem_of_mapM hparts hp
    obtain ⟨-, hr, -, hr', -⟩ := shardPart_eq_ok hwg
    rw [Nat.add_sub_cancel_left] at hr hr'
    exact ⟨hr, hr'⟩
  have hd : d.rows = ws.length * len := by
    have hsum : (parts.map Prod.fst).map Mat.rows = parts.map fun _ => len := by
      rw [List.map_map]
      exact List.map_congr_left fun p hp => (hpart p hp).1
    rw [hrows, hpartRows, hsum, List.map_const', List.sum_replicate_nat, hlength]
  -- the part of shard `s`
  have hshard : ∀ (s : ℕ) w g, ws[s]? = some w → ss[s]? = some g → ∃ p, parts[s]? = some p ∧
      shardPart w g block lo (lo + len) = .ok p := by
    intro s w g hw hg
    exact getElem?_of_mapM (a := (w, g)) hparts (List.getElem?_zip_eq_some.mpr ⟨hw, hg⟩)
  have hwcols : ∀ (s : ℕ) w g, ws[s]? = some w → ss[s]? = some g → w.cols = d.cols := by
    intro s w g hw hg
    obtain ⟨p, hp, hwg⟩ := hshard s w g hw hg
    obtain ⟨-, -, hc, -⟩ := shardPart_eq_ok hwg
    rw [← hc, hcols]
    exact hpartCols _ (List.mem_map_of_mem (List.mem_of_getElem? hp))
  refine ⟨hd, fun w hw => ?_, fun s w g hw hg i hi c hc => ?_⟩
  · obtain ⟨s, hs, rfl⟩ := List.getElem_of_mem hw
    exact hwcols s _ _ (List.getElem?_eq_getElem hs) (List.getElem?_eq_getElem (hlen ▸ hs))
  · obtain ⟨p, hp, hwg⟩ := hshard s w g hw hg
    obtain ⟨-, hr, hpc, hr', hpc', hcodes, hgrid⟩ := shardPart_eq_ok hwg
    rw [Nat.add_sub_cancel_left] at hr hr' hcodes hgrid
    have hwc := hwcols s w g hw hg
    have hs : s < ws.length := (List.getElem?_eq_some_iff.mp hw).1
    have hrow : s * len + i < proj.weight.rows := by
      rw [← hrows, hd]
      exact Grid.cell_lt hs hi
    have hblock : c / block.2 < d.cols / block.2 := by
      rw [hcols] at hc ⊢
      exact div_lt_of_dequantized product hdeq (Nat.zero_lt_of_lt hrow) hc
    obtain ⟨code, scale, hcode, hscale, hget⟩ := hcells _ hrow c (hcols ▸ hc)
    obtain ⟨hgrow, hgcells⟩ := hgrid i hi
    obtain ⟨x, hx, hpx⟩ := hgcells (c / block.2) (hwc ▸ hblock)
    refine ⟨hgrow, hblock, code, scale, ?_, ?_, hget⟩
    · rw [← hcodes i c hi (hwc ▸ hc), ← hcode]
      refine (get_stack_of_rows hweight ?_ (by rw [List.getElem?_map, hp]; rfl) hi ?_).symm
      · exact List.forall_mem_map.mpr fun p hp => (hpart p hp).1
      · rw [hpc, hwc]
        exact hc
    · rw [hx, ← hpx, ← hscale]
      refine (get_stack_of_rows hscales ?_ (by rw [List.getElem?_map, hp]; rfl) hi ?_).symm
      · exact List.forall_mem_map.mpr fun p hp => (hpart p hp).2
      · rw [hpc', hwc]
        exact hblock

/-! ### All three -/

variable {ws : List (Mat UInt8)} {ss : List (Mat S)} {segs : ℕ × ℕ × ℕ} {out : Mat O}

/-- **A result** stacks the three projections. -/
theorem reconstruct_eq_ok
    (h : reconstructLayerQkv product ws ss segs block false = .ok out) :
    ∃ q k v, Mat.stackRows [q, k, v] = .ok out ∧
      RebuiltProjection product ws ss block 0 segs.1 q ∧
      RebuiltProjection product ws ss block segs.1 segs.2.1 k ∧
      RebuiltProjection product ws ss block (segs.1 + segs.2.1) segs.2.2 v := by
  obtain ⟨⟨⟩, hlists, h⟩ := bind_eq_ok.mp h
  obtain ⟨⟨⟩, -, h⟩ := bind_eq_ok.mp h
  obtain ⟨⟨⟩, -, h⟩ := bind_eq_ok.mp h
  obtain ⟨parts, hparts, h⟩ := bind_eq_ok.mp h
  obtain ⟨q, hq, h⟩ := bind_eq_ok.mp h
  obtain ⟨k, hk, h⟩ := bind_eq_ok.mp h
  obtain ⟨v, hv, hstack⟩ := bind_eq_ok.mp h
  obtain ⟨⟨⟩, -, hparts⟩ := bind_eq_ok.mp hparts
  obtain ⟨⟨⟩, -, hparts⟩ := bind_eq_ok.mp hparts
  obtain ⟨shards, hshards, hparts⟩ := bind_eq_ok.mp hparts
  obtain ⟨pq, hpq, hparts⟩ := bind_eq_ok.mp hparts
  obtain ⟨pk, hpk, hparts⟩ := bind_eq_ok.mp hparts
  obtain ⟨pv, hpv, hparts⟩ := bind_eq_ok.mp hparts
  obtain rfl := Except.ok.inj hparts
  have hlen := (demand_eq_ok.mp hlists).2
  refine ⟨q, k, v, hstack, rebuiltProjection product hlen (mapM_of_mapM hshards ?_) hpq hq,
    rebuiltProjection product hlen (mapM_of_mapM hshards ?_) hpk hk,
    rebuiltProjection product hlen (mapM_of_mapM hshards ?_) hpv hv⟩
  all_goals
    intro wg p hstep
    obtain ⟨pq, hpq, hstep⟩ := bind_eq_ok.mp hstep
    obtain ⟨pk, hpk, hstep⟩ := bind_eq_ok.mp hstep
    obtain ⟨pv, hpv, hstep⟩ := bind_eq_ok.mp hstep
    obtain rfl := Except.ok.inj hstep
  · rw [Nat.zero_add]
    exact hpq
  · exact hpk
  · exact hpv

/-- A result is right exactly when the grids are wide enough. -/
theorem rebuilt_iff
    (h : reconstructLayerQkv product ws ss segs block false = .ok out) :
    Rebuilt product ws ss segs block out ↔ Wide ws ss segs block := by
  obtain ⟨q, k, v, hstack, hq, hk, hv⟩ := reconstruct_eq_ok product h
  obtain ⟨hcols, hrows, -⟩ := Mat.stackRows_eq_ok hstack
  have hqcols := hcols q (by simp)
  have hkcols := hcols k (by simp)
  have hvcols := hcols v (by simp)
  have hgetq : ∀ i c, i < ws.length * segs.1 → c < out.cols →
      out.get i c = q.get i c := by
    intro i c hi hc
    have hget := @Mat.get_stackRows _ [] [k, v] q out hstack i c (hq.rows ▸ hi) (hqcols ▸ hc)
    rwa [List.map_nil, List.sum_nil, Nat.zero_add] at hget
  have hgetk : ∀ i c, i < ws.length * segs.2.1 → c < out.cols →
      out.get (ws.length * segs.1 + i) c = k.get i c := by
    intro i c hi hc
    have hget := @Mat.get_stackRows _ [q] [v] k out hstack i c (hk.rows ▸ hi) (hkcols ▸ hc)
    rwa [List.map_cons, List.map_nil, List.sum_cons, List.sum_nil, Nat.add_zero, hq.rows] at hget
  have hgetv : ∀ i c, i < ws.length * segs.2.2 → c < out.cols →
      out.get (ws.length * (segs.1 + segs.2.1) + i) c = v.get i c := by
    intro i c hi hc
    have hget := @Mat.get_stackRows _ [q, k] [] v out hstack i c (hv.rows ▸ hi) (hvcols ▸ hc)
    rwa [List.map_cons, List.map_cons, List.map_nil, List.sum_cons, List.sum_cons, List.sum_nil,
      Nat.add_zero, hq.rows, hk.rows, ← Nat.mul_add] at hget
  constructor
  · -- a row of some projection reads every column of its shard's grid
    intro hright hpos s w g hw hg c hc
    rw [hright.cols w (List.mem_of_getElem? hw)] at hc
    obtain ⟨p, hp⟩ : ∃ p : Projection, 0 < p.len segs := by
      by_contra hnone
      have hq0 : ¬ 0 < segs.1 := fun h => hnone ⟨.q, h⟩
      have hk0 : ¬ 0 < segs.2.1 := fun h => hnone ⟨.k, h⟩
      have hv0 : ¬ 0 < segs.2.2 := fun h => hnone ⟨.v, h⟩
      omega
    exact (hright.cell p s w g hw hg 0 hp c hc).2.1
  · intro hwide
    refine ⟨?_, fun w hw => (hq.cols w hw).trans hqcols, ?_⟩
    · rw [hrows, List.map_cons, List.map_cons, List.map_cons, List.map_nil, List.sum_cons,
        List.sum_cons, List.sum_cons, List.sum_nil, hq.rows, hk.rows, hv.rows, Nat.mul_add,
        Nat.mul_add, Nat.add_zero, Nat.add_assoc]
    · intro p s w g hw hg i hi c hc
      have hs : s < ws.length := (List.getElem?_eq_some_iff.mp hw).1
      have hwc : w.cols = out.cols := (hq.cols w (List.mem_of_getElem? hw)).trans hqcols
      have hblock : c / block.2 < g.cols := by
        refine hwide ?_ s w g hw hg c (hwc ▸ hc)
        cases p <;> exact Nat.zero_lt_of_lt (Nat.lt_of_lt_of_le hi (by simp only [Projection.len]; omega))
      cases p with
      | q =>
        obtain ⟨hrow, -, code, scale, hcode, hscale, hget⟩ :=
          hq.cell s w g hw hg i hi c (hqcols ▸ hc)
        refine ⟨hrow, hblock, code, scale, hcode, hscale, ?_⟩
        rw [Projection.lo, Nat.mul_zero, Nat.zero_add, ← hget]
        exact hgetq _ c (Grid.cell_lt hs hi) hc
      | k =>
        obtain ⟨hrow, -, code, scale, hcode, hscale, hget⟩ :=
          hk.cell s w g hw hg i hi c (hkcols ▸ hc)
        refine ⟨hrow, hblock, code, scale, hcode, hscale, ?_⟩
        rw [Projection.lo, Nat.add_assoc, ← hget]
        exact hgetk _ c (Grid.cell_lt hs hi) hc
      | v =>
        obtain ⟨hrow, -, code, scale, hcode, hscale, hget⟩ :=
          hv.cell s w g hw hg i hi c (hvcols ▸ hc)
        refine ⟨hrow, hblock, code, scale, hcode, hscale, ?_⟩
        rw [Projection.lo, Nat.add_assoc, ← hget]
        exact hgetv _ c (Grid.cell_lt hs hi) hc

/-! ### Cells that are not there -/

/-- Some cell of the result has no scale. -/
def Missing (ws : List (Mat UInt8)) (ss : List (Mat S)) (segs : ℕ × ℕ × ℕ) (block : ℕ × ℕ) : Prop :=
  ∃ (p : Projection) (s : ℕ) (w : Mat UInt8) (g : Mat S), ws[s]? = some w ∧ ss[s]? = some g ∧
    ∃ i < p.len segs, ∃ c < w.cols,
      ¬ ((p.lo segs + i) / block.1 < g.rows ∧ c / block.2 < g.cols)

theorem safe_quotient {a b : ℕ} (h : 0 < b) : Safe (quotient a b) := by
  rw [quotient, if_neg h.ne']
  exact Safe.ok _

theorem safe_shardPart (hbr : 0 < block.1) (hbc : 0 < block.2) (hlo : lo ≤ hi) (hhi : hi ≤ w.rows)
    (hwide : lo < hi → ∀ c < w.cols, c / block.2 < g.cols) :
    Safe (shardPart w g block lo hi) := by
  refine Safe.bind (Safe.bind (safe_quotient hbc) fun n hn => ?_) fun scales _ => ?_
  · obtain ⟨-, rfl⟩ := quotient_eq_ok.mp hn
    refine Safe.bind (Safe.fill (fun i hi => ?_) fun i hi hcheck c hc => ?_) fun m _ => Safe.ok _
    · refine Safe.bind (safe_quotient hbr) fun srow _ => ?_
      split
      · exact Safe.error _
      · exact Safe.ok _
    · obtain ⟨srow, hsrow, hcheck⟩ := bind_eq_ok.mp hcheck
      obtain ⟨-, rfl⟩ := quotient_eq_ok.mp hsrow
      split at hcheck
      · cases hcheck
      · next hrow =>
        have hlt : c * block.2 < w.cols :=
          Nat.lt_of_lt_of_le (Nat.mul_lt_mul_of_pos_right hc hbc) (Nat.div_mul_le_self _ _)
        have hcol := hwide (by omega) (c * block.2) hlt
        rw [Nat.mul_div_cancel c hbc] at hcol
        obtain ⟨x, hx⟩ := Mat.exists_get (Nat.lt_of_not_le hrow) hcol
        rw [hx]
        exact Safe.ok x
  · rw [Mat.sliceRows, dif_pos ⟨hhi, hlo⟩]
    exact Safe.ok _

theorem checkSegments_eq_ok {total i : ℕ} (h : checkSegments total i ws = .ok ()) :
    ∀ w ∈ ws, w.rows = total := by
  induction ws generalizing i with
  | nil => exact List.forall_mem_nil _
  | cons w ws ih =>
    rw [checkSegments] at h
    split at h
    · cases h
    · next hrows => exact List.forall_mem_cons.mpr ⟨not_not.mp hrows, ih h⟩

theorem safe_checkSegments (total i : ℕ) : Safe (checkSegments total i ws) := by
  induction ws generalizing i with
  | nil => exact Safe.ok ()
  | cons w ws ih =>
    rw [checkSegments]
    split
    · exact Safe.error _
    · exact ih (i + 1)

/-- The parts of shards with wide grids are taken without a panic. -/
theorem safe_splitShardMajorFused (hbr : 0 < block.1) (hbc : 0 < block.2)
    (hwide : Wide ws ss segs block) : Safe (splitShardMajorFused ws ss segs block) := by
  refine Safe.bind (Safe.demand _) fun u hlists => ?_
  refine Safe.bind (safe_checkSegments _ _) fun u hsegs => ?_
  refine Safe.bind (Safe.mapM fun wg hwg => ?_) fun parts _ => ?_
  · obtain ⟨s, hs⟩ := List.mem_iff_getElem?.mp hwg
    obtain ⟨hw, hg⟩ := List.getElem?_zip_eq_some.mp hs
    have hrows := checkSegments_eq_ok hsegs wg.1 (List.mem_of_getElem? hw)
    have hcols : ∀ {lo hi}, lo < hi → hi ≤ segs.1 + segs.2.1 + segs.2.2 → ∀ c < wg.1.cols,
        c / block.2 < wg.2.cols := fun hlt hle => hwide (by omega) s wg.1 wg.2 hw hg
    refine Safe.bind (safe_shardPart hbr hbc (by omega) (by omega) fun h => hcols h (by omega))
      fun q _ => ?_
    refine Safe.bind (safe_shardPart hbr hbc (by omega) (by omega) fun h => hcols h (by omega))
      fun k _ => ?_
    exact Safe.bind (safe_shardPart hbr hbc (by omega) (by omega) fun h => hcols h (by omega))
      fun v _ => Safe.ok _
  · have hstack : ∀ name (parts : List (Mat UInt8 × Mat S)), Safe (stackProjection name parts) :=
      fun name parts => Safe.bind (Safe.stackRows _) fun _ _ => Safe.bind (Safe.stackRows _)
        fun _ _ => Safe.ok _
    exact Safe.bind (hstack _ _) fun q _ => Safe.bind (hstack _ _) fun k _ =>
      Safe.bind (hstack _ _) fun v _ => Safe.ok _

/-- A row without scales is not split off. -/
theorem split_ne_ok (hwide : Wide ws ss segs block) (hmissing : Missing ws ss segs block)
    (parts : SplitParts S) : splitShardMajorFused ws ss segs block ≠ .ok parts := by
  intro h
  obtain ⟨p, s, w, g, hw, hg, i, hi, c, hc, hnot⟩ := hmissing
  obtain ⟨⟨⟩, -, h⟩ := bind_eq_ok.mp h
  obtain ⟨⟨⟩, -, h⟩ := bind_eq_ok.mp h
  obtain ⟨shards, hshards, h⟩ := bind_eq_ok.mp h
  obtain ⟨b, -, hb⟩ := getElem?_of_mapM (a := (w, g)) hshards
    (List.getElem?_zip_eq_some.mpr ⟨hw, hg⟩)
  obtain ⟨q, hq, hb⟩ := bind_eq_ok.mp hb
  obtain ⟨k, hk, hb⟩ := bind_eq_ok.mp hb
  obtain ⟨v, hv, -⟩ := bind_eq_ok.mp hb
  have hrow : (p.lo segs + i) / block.1 < g.rows := by
    cases p with
    | q =>
      obtain ⟨-, -, -, -, -, -, hgrid⟩ := shardPart_eq_ok hq
      exact (hgrid i hi).1
    | k =>
      obtain ⟨-, -, -, -, -, -, hgrid⟩ := shardPart_eq_ok hk
      exact (hgrid i (by rwa [Nat.add_sub_cancel_left])).1
    | v =>
      obtain ⟨-, -, -, -, -, -, hgrid⟩ := shardPart_eq_ok hv
      exact (hgrid i (by rwa [Nat.add_sub_cancel_left])).1
  have hpos : 0 < segs.1 + segs.2.1 + segs.2.2 := by
    cases p <;> simp only [Projection.len] at hi <;> omega
  exact hnot ⟨hrow, hwide hpos s w g hw hg c hc⟩

/-- **The rebuilding.** A result is right exactly when each grid is as wide as its shard; and with
such grids a cell that is not there is an error. -/
theorem reconstruct_iff :
    (∀ out, reconstructLayerQkv product ws ss segs block false = .ok out →
      (Rebuilt product ws ss segs block out ↔ Wide ws ss segs block)) ∧
    (0 < block.1 → 0 < block.2 → Wide ws ss segs block → Missing ws ss segs block →
      ∃ e, reconstructLayerQkv product ws ss segs block false = .error (.error e)) := by
  refine ⟨fun out h => rebuilt_iff product h, fun hbr hbc hwide hmissing => ?_⟩
  have hsafe : Safe (reconstructLayerQkv product ws ss segs block false) := by
    refine Safe.bind (Safe.demand _) fun u _ => Safe.bind (Safe.demand _) fun u _ =>
      Safe.bind (safe_checkSegments _ _) fun u _ => ?_
    exact Safe.bind (safe_splitShardMajorFused hbr hbc hwide) fun parts hparts =>
      absurd hparts (split_ne_ok hwide hmissing parts)
  cases h : reconstructLayerQkv product ws ss segs block false with
  | ok out =>
    have hright := (rebuilt_iff product h).mpr hwide
    obtain ⟨p, s, w, g, hw, hg, i, hi, c, hc, hnot⟩ := hmissing
    rw [hright.cols w (List.mem_of_getElem? hw)] at hc
    obtain ⟨hrow, hcol, -⟩ := hright.cell p s w g hw hg i hi c hc
    exact absurd ⟨hrow, hcol⟩ hnot
  | error e =>
    cases e with
    | error e => exact ⟨e, rfl⟩
    | panic => exact absurd h hsafe

/-- Two rows of two columns with a grid of one column: the second column is scaled by what is below
the first scale. -/
theorem not_rebuilt_narrow :
    ∃ out, reconstructLayerQkv (fun code scale => (code, scale)) [⟨2, 2, [1, 2, 3, 4], rfl⟩]
        [⟨2, 1, [10, 20], rfl⟩] (2, 0, 0) (2, 1) false = .ok out ∧
      out.data = [(1, 10), (2, 20), (3, 10), (4, 20)] ∧
      ¬ Rebuilt (fun code scale => (code, scale)) [⟨2, 2, [1, 2, 3, 4], rfl⟩]
        [(⟨2, 1, [10, 20], rfl⟩ : Mat ℕ)] (2, 0, 0) (2, 1) out := by
  refine ⟨⟨2, 2, [(1, 10), (2, 20), (3, 10), (4, 20)], rfl⟩, rfl, rfl, fun h => ?_⟩
  obtain ⟨-, hcol, -⟩ := h.cell .q 0 _ _ rfl rfl 0 (by decide) 1 (by decide)
  exact absurd hcol (by decide)

/-- The same with a grid of two columns. -/
theorem rebuilt_wide :
    ∃ out, reconstructLayerQkv (fun code scale => (code, scale)) [⟨2, 2, [1, 2, 3, 4], rfl⟩]
        [⟨1, 2, [10, 20], rfl⟩] (2, 0, 0) (2, 1) false = .ok out ∧
      Rebuilt (fun code scale => (code, scale)) [⟨2, 2, [1, 2, 3, 4], rfl⟩]
        [(⟨1, 2, [10, 20], rfl⟩ : Mat ℕ)] (2, 0, 0) (2, 1) out := by
  refine ⟨⟨2, 2, [(1, 10), (2, 20), (3, 10), (4, 20)], rfl⟩, rfl, ?_⟩
  refine ((reconstruct_iff _).1 _ rfl).mpr fun _ s w g hw hg c hc => ?_
  cases s with
  | zero =>
    cases hw
    cases hg
    simpa using hc
  | succ s => cases hw

end Load

end Mimo26

import Mimo26.Library.Grid
import Mimo26.Repack.Geom
import Mimo26.Repack.Mxfp4

/-!
# Cutting an expert into quarter slices

`build_slice` moves the bytes of an expert's six tensors into the layout of a quarter slice, and
`slice_to_f32` reads a projection back out of it (`repack.rs`). Rows and scales are moved
separately; that they land where they are read, and nothing else lands there, is `Laid out`: the
fields written are pairwise apart.

## Main definitions

* `ExpertTensors`, `buildSlice` — the tensors of an expert, and a rank's slice of them
* `sliceToF32`, `expertToF32`, `sliceRowsOfFull` — what a slice, and the expert, decode to
* `sliceFields` — the fields of a slice, as they are written

## Main results

* `slice_payload`, `slice_scales` — the bytes a slice holds
* `sliceToF32_buildSlice` — a slice decodes to its rank's rows and columns of the expert
-/

namespace Mimo26

namespace Repack

open Result Bytes Mxfp4

/-- The six tensors of an expert. -/
structure ExpertTensors where
  gateW : List UInt8
  gateS : List UInt8
  upW : List UInt8
  upS : List UInt8
  downW : List UInt8
  downS : List UInt8

/-- Payload and scales of a projection. -/
def ExpertTensors.proj (t : ExpertTensors) : Proj → List UInt8 × List UInt8
  | .gate => (t.gateW, t.gateS)
  | .up => (t.upW, t.upS)
  | .down => (t.downW, t.downS)

/-- The projection's tensors have the sizes of the checkpoint. -/
def ExpertTensors.Sized (t : ExpertTensors) (p : Proj) : Prop :=
  (t.proj p).1.length = p.outRows * (p.inCols / 2) ∧
    (t.proj p).2.length = p.outRows * (p.inCols / 32)

instance (t : ExpertTensors) (p : Proj) : Decidable (t.Sized p) :=
    inferInstanceAs (Decidable (_ ∧ _))

/-- Copy row `r` of a projection to row `i` of its slice. -/
def copyRow (w s : List UInt8) (p : Proj) (rank : ℕ) (out : List UInt8) (i r : ℕ) : List UInt8 :=
  let fullHalf := p.inCols / 2
  let fullSrow := p.inCols / 32
  let half := p.sliceInCols / 2
  let srow := p.sliceInCols / 32
  let col := p.sliceColStart rank
  let src := r * fullHalf + col / 2
  let dst := p.slicePayloadOff + i * half
  let ssrc := r * fullSrow + col / 32
  let sdst := p.sliceScaleOff + i * srow
  put (put out dst (slice w src half)) sdst (slice s ssrc srow)

/-- The slice of `rank`: the rows of each projection, with the columns of the rank. -/
def buildSlice (t : ExpertTensors) (rank : ℕ) : Except RepackError (List UInt8) := do
  checkRank rank
  Proj.all.foldlM (fun out p => do
    demand (t.Sized p) (.badGeometry p.name "source payload/scale length mismatch")
    return (sliceRowIndices p rank).zipIdx.foldl
      (fun out x => copyRow (t.proj p).1 (t.proj p).2 p rank out x.2 x.1) out)
    (List.replicate quarterSliceBytes 0)

/-- Payload and scales of a projection, out of a slice. -/
def sliceProj (image : List UInt8) (p : Proj) : Except RepackError (List UInt8 × List UInt8) := do
  demand (image.length = quarterSliceBytes) (.sliceSize "<memory>" quarterSliceBytes image.length)
  return (slice image p.slicePayloadOff p.slicePayloadBytes,
    slice image p.sliceScaleOff p.sliceScaleBytes)

/-- The values of a projection in a slice, row by row. -/
def sliceToF32 (image : List UInt8) (p : Proj) : Except RepackError (List ℚ) := do
  let (payload, scales) ← sliceProj image p
  let inCols := p.sliceInCols
  let half := inCols / 2
  let srow := inCols / 32
  return (List.range p.sliceRows).flatMap fun i =>
    unpackRow (slice payload (i * half) half) (slice scales (i * srow) srow)

/-- The values of a whole projection. -/
def expertToF32 (t : ExpertTensors) (p : Proj) : List ℚ :=
  unpackMatrix (t.proj p).1 (t.proj p).2 p.outRows p.inCols

/-- A rank's rows and columns of a whole projection. -/
def sliceRowsOfFull (full : List ℚ) (p : Proj) (rank : ℕ) : List ℚ :=
  let cols := p.sliceInCols
  let start := p.sliceColStart rank
  (sliceRowIndices p rank).flatMap fun r => (full.drop (r * p.inCols + start)).take cols

/-! ### The fields of a slice -/

/-- The first row of a rank. -/
def Proj.rowStart : Proj → ℕ → ℕ
  | gate, rank | up, rank => rank * (intermediate / epRanks)
  | down, _ => 0

theorem sliceRowIndices_eq (p : Proj) (rank : ℕ) :
    sliceRowIndices p rank = (List.range p.sliceRows).map (p.rowStart rank + ·) := by
  cases p with
  | gate => rfl
  | up => rfl
  | down => rfl

variable {t : ExpertTensors} {p : Proj} {rank : ℕ}

/-- Row `i` of the payload of a projection in the slice of a rank. -/
def payloadRow (t : ExpertTensors) (p : Proj) (rank i : ℕ) : List UInt8 :=
  slice (t.proj p).1 ((p.rowStart rank + i) * (p.inCols / 2) + p.sliceColStart rank / 2)
    (p.sliceInCols / 2)

/-- Row `i` of its scales. -/
def scaleRow (t : ExpertTensors) (p : Proj) (rank i : ℕ) : List UInt8 :=
  slice (t.proj p).2 ((p.rowStart rank + i) * (p.inCols / 32) + p.sliceColStart rank / 32)
    (p.sliceInCols / 32)

/-- The fields a row is copied to. -/
def rowFields (t : ExpertTensors) (rank : ℕ) (p : Proj) (i : ℕ) : List (ℕ × List UInt8) :=
  [(p.slicePayloadOff + i * (p.sliceInCols / 2), payloadRow t p rank i),
    (p.sliceScaleOff + i * (p.sliceInCols / 32), scaleRow t p rank i)]

def projFields (t : ExpertTensors) (rank : ℕ) (p : Proj) : List (ℕ × List UInt8) :=
  (List.range p.sliceRows).flatMap (rowFields t rank p)

/-- All fields of a slice, in the order in which they are written. -/
def sliceFields (t : ExpertTensors) (rank : ℕ) : List (ℕ × List UInt8) :=
  Proj.all.flatMap (projFields t rank)

theorem copyRows_eq (t : ExpertTensors) (p : Proj) (rank : ℕ) (out : List UInt8) :
    (sliceRowIndices p rank).zipIdx.foldl
      (fun out x => copyRow (t.proj p).1 (t.proj p).2 p rank out x.2 x.1) out =
    putAll out (projFields t rank p) := by
  have hrows (n : ℕ) : (((List.range n).map (p.rowStart rank + ·)).zipIdx).foldl
      (fun out x => copyRow (t.proj p).1 (t.proj p).2 p rank out x.2 x.1) out =
      putAll out ((List.range n).flatMap (rowFields t rank p)) := by
    induction n with
    | zero => rfl
    | succ n ih =>
      rw [List.range_succ, List.map_append, List.zipIdx_append, List.foldl_append, ih,
        List.flatMap_append, putAll_append]
      simp [copyRow, putAll, rowFields, payloadRow, scaleRow]
  rw [sliceRowIndices_eq]
  exact hrows p.sliceRows

theorem buildSlice_eq_ok (hrank : rank < epRanks) (h : ∀ p, t.Sized p) :
    buildSlice t rank = .ok (putAll (List.replicate quarterSliceBytes 0) (sliceFields t rank)) := by
  have hcheck : checkRank rank = .ok () := demand_eq_ok.mpr hrank
  have hsized (p : Proj) :
      demand (t.Sized p) (RepackError.badGeometry p.name "source payload/scale length mismatch") =
        .ok () := demand_eq_ok.mpr (h p)
  rw [buildSlice, hcheck]
  simp only [ok_bind, Proj.all, List.foldlM_cons, List.foldlM_nil, hsized, pure_eq_ok, copyRows_eq,
    sliceFields, List.flatMap_cons, List.flatMap_nil, List.append_nil, putAll_append]

/-- The cut of a projection: the rank's rows and columns lie in the projection, in whole blocks. -/
theorem cut_le (p : Proj) {rank : ℕ} (hrank : rank < epRanks) :
    p.rowStart rank + p.sliceRows ≤ p.outRows ∧ p.sliceColStart rank + p.sliceInCols ≤ p.inCols ∧
      32 ∣ p.sliceColStart rank ∧ 32 ∣ p.sliceInCols ∧ 32 ∣ p.inCols := by
  rw [epRanks] at hrank
  cases p with
  | gate => simp [Proj.rowStart, Proj.sliceRows, Proj.outRows, Proj.sliceColStart, Proj.sliceInCols,
      Proj.inCols, hidden, intermediate, epRanks]; omega
  | up => simp [Proj.rowStart, Proj.sliceRows, Proj.outRows, Proj.sliceColStart, Proj.sliceInCols,
      Proj.inCols, hidden, intermediate, epRanks]; omega
  | down => simp [Proj.rowStart, Proj.sliceRows, Proj.outRows, Proj.sliceColStart, Proj.sliceInCols,
      Proj.inCols, hidden, intermediate, epRanks]; omega

/-- Rows of a table lie one after the other. -/
theorem row_le {w i j : ℕ} (hij : i < j) : i * w + w ≤ j * w := by
  have hrow : (i + 1) * w ≤ j * w := Nat.mul_le_mul_right w hij
  rwa [Nat.succ_mul] at hrow

/-- Where a row cut from a table of rows ends. -/
theorem row_end_le {rows width r start n : ℕ} (hr : r < rows) (hcut : start + n ≤ width) :
    r * width + start + n ≤ rows * width := by
  have hrow : r * width + width ≤ rows * width := row_le hr
  omega

theorem length_payloadRow (hrank : rank < epRanks) (h : t.Sized p) {i : ℕ} (hi : i < p.sliceRows) :
    (payloadRow t p rank i).length = p.sliceInCols / 2 := by
  obtain ⟨hrows, hcols, hstart, hslice, hfull⟩ := cut_le p hrank
  refine length_slice ?_
  rw [h.1]
  exact row_end_le (by omega) (by omega)

theorem length_scaleRow (hrank : rank < epRanks) (h : t.Sized p) {i : ℕ} (hi : i < p.sliceRows) :
    (scaleRow t p rank i).length = p.sliceInCols / 32 := by
  obtain ⟨hrows, hcols, hstart, hslice, hfull⟩ := cut_le p hrank
  refine length_slice ?_
  rw [h.2]
  exact row_end_le (by omega) (by omega)

/-- The first byte after a projection in a slice. -/
def Proj.sliceEnd (p : Proj) : ℕ := p.sliceScaleOff + p.sliceScaleBytes

/-- The rows of a projection fill its regions. -/
theorem regions (p : Proj) : p.sliceRows * (p.sliceInCols / 2) = p.slicePayloadBytes ∧
    p.sliceRows * (p.sliceInCols / 32) = p.sliceScaleBytes ∧ p.sliceEnd ≤ quarterSliceBytes := by
  cases p with
  | gate => decide
  | up => decide
  | down => decide

/-- Where the fields of a projection lie: payload rows before scale rows, each after the one before.
-/
theorem field_within (hrank : rank < epRanks) (h : t.Sized p) {i : ℕ} (hi : i < p.sliceRows) :
    ∀ f ∈ rowFields t rank p i, p.slicePayloadOff ≤ f.1 ∧ f.1 + f.2.length ≤ p.sliceEnd := by
  obtain ⟨hpayload, hscale, -⟩ := regions p
  have hp : i * (p.sliceInCols / 2) + p.sliceInCols / 2 ≤ p.slicePayloadBytes :=
    hpayload ▸ row_le hi
  have hs : i * (p.sliceInCols / 32) + p.sliceInCols / 32 ≤ p.sliceScaleBytes :=
    hscale ▸ row_le hi
  intro f hf
  simp only [rowFields, List.mem_cons, List.not_mem_nil, or_false] at hf
  rcases hf with rfl | rfl
  · rw [length_payloadRow hrank h hi, Proj.sliceEnd, Proj.sliceScaleOff]
    dsimp only
    omega
  · rw [length_scaleRow hrank h hi, Proj.sliceEnd, Proj.sliceScaleOff]
    dsimp only
    omega

/-- The fields of a projection are apart. -/
theorem projFields_apart (hrank : rank < epRanks) (h : t.Sized p) :
    (projFields t rank p).Pairwise Apart := by
  obtain ⟨hpayload, -, -⟩ := regions p
  have hoff : p.sliceScaleOff = p.slicePayloadOff + p.slicePayloadBytes := rfl
  have hend {i : ℕ} (hi : i < p.sliceRows) :
      i * (p.sliceInCols / 2) + p.sliceInCols / 2 ≤ p.slicePayloadBytes :=
    hpayload ▸ row_le hi
  rw [projFields, List.pairwise_flatMap]
  constructor
  · intro i hi
    rw [List.mem_range] at hi
    have hlen := length_payloadRow hrank h hi
    have hi' := hend hi
    refine List.pairwise_pair.mpr (.inl ?_)
    dsimp only
    omega
  · rw [List.pairwise_iff_getElem]
    intro i j hi hj hij f hf g hg
    rw [List.length_range] at hi hj
    rw [List.getElem_range] at hf hg
    have hlen := length_payloadRow hrank h hi
    have hlen' := length_payloadRow hrank h hj
    have hslen := length_scaleRow hrank h hi
    have hslen' := length_scaleRow hrank h hj
    have hi' := hend hi
    have hj' := hend hj
    have hpay := row_le (w := p.sliceInCols / 2) hij
    have hscale := row_le (w := p.sliceInCols / 32) hij
    simp only [rowFields, List.mem_cons, List.not_mem_nil, or_false] at hf hg
    rcases hf with rfl | rfl <;> rcases hg with rfl | rfl <;> dsimp only [Apart] <;> omega

/-- **The fields of a slice** are apart. -/
theorem sliceFields_apart (hrank : rank < epRanks) (h : ∀ p, t.Sized p) :
    (sliceFields t rank).Pairwise Apart := by
  have hwithin (p : Proj) : ∀ f ∈ projFields t rank p,
      p.slicePayloadOff ≤ f.1 ∧ f.1 + f.2.length ≤ p.sliceEnd := by
    intro f hf
    obtain ⟨i, hi, hf⟩ := List.mem_flatMap.mp hf
    exact field_within hrank (h p) (List.mem_range.mp hi) f hf
  have hnext {p q : Proj} (hle : p.sliceEnd ≤ q.slicePayloadOff) :
      ∀ f ∈ projFields t rank p, ∀ g ∈ projFields t rank q, Apart f g := by
    intro f hf g hg
    exact .inl ((hwithin p f hf).2.trans (hle.trans (hwithin q g hg).1))
  rw [sliceFields, List.pairwise_flatMap]
  refine ⟨fun p _ => projFields_apart hrank (h p), ?_⟩
  rw [Proj.all, List.pairwise_cons, List.pairwise_pair]
  constructor
  · intro q hq
    rcases List.mem_pair.mp hq with rfl | rfl
    · exact hnext (by decide)
    · exact hnext (by decide)
  · exact hnext (by decide)

/-- A field of a slice is read back from it. -/
theorem slice_field (hrank : rank < epRanks) (h : ∀ p, t.Sized p) {image : List UInt8}
    (himage : buildSlice t rank = .ok image) {i : ℕ} (hi : i < p.sliceRows) {f : ℕ × List UInt8}
    (hf : f ∈ rowFields t rank p i) : slice image f.1 f.2.length = f.2 := by
  rw [buildSlice_eq_ok hrank h] at himage
  obtain rfl := Except.ok.inj himage
  have hmem : f ∈ sliceFields t rank := by
    refine List.mem_flatMap.mpr ⟨p, ?_, List.mem_flatMap.mpr ⟨i, List.mem_range.mpr hi, hf⟩⟩
    cases p with
    | gate => decide
    | up => decide
    | down => decide
  refine slice_putAll_of_pairwise (sliceFields_apart hrank h) hmem ?_
  rw [List.length_replicate]
  exact (field_within hrank (h p) hi f hf).2.trans (regions p).2.2

theorem length_buildSlice (hrank : rank < epRanks) (h : ∀ p, t.Sized p) {image : List UInt8}
    (himage : buildSlice t rank = .ok image) : image.length = quarterSliceBytes := by
  rw [buildSlice_eq_ok hrank h] at himage
  obtain rfl := Except.ok.inj himage
  rw [length_putAll, List.length_replicate]

/-- **The rows of a slice** are the rank's part of the rows of the expert. -/
theorem slice_rows (hrank : rank < epRanks) (h : ∀ p, t.Sized p) {image : List UInt8}
    (himage : buildSlice t rank = .ok image) {i : ℕ} (hi : i < p.sliceRows) :
    slice image (p.slicePayloadOff + i * (p.sliceInCols / 2)) (p.sliceInCols / 2) =
        payloadRow t p rank i ∧
      slice image (p.sliceScaleOff + i * (p.sliceInCols / 32)) (p.sliceInCols / 32) =
        scaleRow t p rank i := by
  constructor
  · have hfield := slice_field hrank h himage hi List.mem_cons_self
    rwa [length_payloadRow hrank (h p) hi] at hfield
  · have hfield := slice_field hrank h himage hi (List.mem_cons_of_mem _ List.mem_cons_self)
    rwa [length_scaleRow hrank (h p) hi] at hfield

/-! ### The values of a slice -/

/-- The value of the whole projection at row `r` and column `c`. -/
def weight (t : ExpertTensors) (p : Proj) (r c : ℕ) : ℚ :=
  unpackElement (slice (t.proj p).1 (r * (p.inCols / 2)) (p.inCols / 2))
    (slice (t.proj p).2 (r * (p.inCols / 32)) (p.inCols / 32)) c

/-- The whole projection, decoded. -/
theorem getElem?_expertToF32 (h : t.Sized p) {r c : ℕ} (hr : r < p.outRows) (hc : c < p.inCols) :
    (expertToF32 t p)[r * p.inCols + c]? = some (weight t p r c) := by
  have hcols : 32 ∣ p.inCols := (cut_le p (Nat.zero_lt_succ 3)).2.2.2.2
  have hrow {r : ℕ} (hr : r < p.outRows) :
      (slice (t.proj p).1 (r * (p.inCols / 2)) (p.inCols / 2)).length * 2 = p.inCols := by
    have hend : r * (p.inCols / 2) + p.inCols / 2 ≤ (t.proj p).1.length :=
      h.1 ▸ row_le hr
    rw [length_slice hend]
    omega
  have hlen (r : ℕ) (hr : r < p.outRows) :
      (unpackRow (slice (t.proj p).1 (r * (p.inCols / 2)) (p.inCols / 2))
        (slice (t.proj p).2 (r * (p.inCols / block)) (p.inCols / block))).length = p.inCols := by
    rw [unpackRow, List.length_map, List.length_range, hrow hr]
  rw [expertToF32, unpackMatrix, Grid.getElem?_flatMap_range hlen hr hc, unpackRow, hrow hr,
    List.getElem?_map, List.getElem?_range hc]
  rfl

/-- A value of a rank's rows is one of the expert. -/
theorem unpackElement_rows (hrank : rank < epRanks) (i : ℕ) {k : ℕ} (hk : k < p.sliceInCols) :
    unpackElement (payloadRow t p rank i) (scaleRow t p rank i) k =
      weight t p (p.rowStart rank + i) (p.sliceColStart rank + k) := by
  obtain ⟨-, hcols, hstart, hslice, hfull⟩ := cut_le p hrank
  obtain ⟨c, hc⟩ := hstart
  have hcut := unpackElement_cut (t.proj p).1 (t.proj p).2 ((p.rowStart rank + i) * (p.inCols / 2))
    ((p.rowStart rank + i) * (p.inCols / 32)) hslice hfull (c := c) (by omega) hk
  rw [payloadRow, scaleRow, weight, hc, show 32 * c / 2 = c * 16 by omega,
    show 32 * c / 32 = c by omega, Nat.mul_comm 32 c]
  exact hcut

/-- **A slice decodes to its rank's rows and columns** of the expert. -/
theorem sliceToF32_buildSlice (hrank : rank < epRanks) (h : ∀ p, t.Sized p) {image : List UInt8}
    (himage : buildSlice t rank = .ok image) (p : Proj) :
    sliceToF32 image p = .ok (sliceRowsOfFull (expertToF32 t p) p rank) := by
  obtain ⟨hrows, hcols, -, hslice, -⟩ := cut_le p hrank
  obtain ⟨hpayload, hscale, -⟩ := regions p
  have hlen : demand (image.length = quarterSliceBytes)
      (RepackError.sliceSize "<memory>" quarterSliceBytes image.length) = .ok () :=
    demand_eq_ok.mpr (length_buildSlice hrank h himage)
  have hrow (i : ℕ) (hi : i ∈ List.range p.sliceRows) :
      unpackRow (slice (slice image p.slicePayloadOff p.slicePayloadBytes)
          (i * (p.sliceInCols / 2)) (p.sliceInCols / 2))
        (slice (slice image p.sliceScaleOff p.sliceScaleBytes)
          (i * (p.sliceInCols / 32)) (p.sliceInCols / 32)) =
        ((expertToF32 t p).drop ((p.rowStart rank + i) * p.inCols + p.sliceColStart rank)).take
          p.sliceInCols := by
    rw [List.mem_range] at hi
    have hp : i * (p.sliceInCols / 2) + p.sliceInCols / 2 ≤ p.slicePayloadBytes :=
      hpayload ▸ row_le hi
    have hs : i * (p.sliceInCols / 32) + p.sliceInCols / 32 ≤ p.sliceScaleBytes :=
      hscale ▸ row_le hi
    obtain ⟨hpay, hscales⟩ := slice_rows hrank h himage hi
    rw [slice_slice hp, slice_slice hs, hpay, hscales]
    refine List.ext_getElem? fun k => ?_
    rw [unpackRow, length_payloadRow hrank (h p) hi, List.getElem?_map, List.getElem?_take,
      List.getElem?_drop, show p.sliceInCols / 2 * 2 = p.sliceInCols by omega]
    by_cases hk : k < p.sliceInCols
    · rw [List.getElem?_range hk, if_pos hk, Option.map_some, unpackElement_rows hrank i hk,
        Nat.add_assoc, getElem?_expertToF32 (h p) (by omega) (by omega)]
    · rw [if_neg hk, List.getElem?_eq_none (by rw [List.length_range]; omega), Option.map_none]
  rw [sliceToF32, sliceProj, hlen]
  simp only [ok_bind, pure_eq_ok]
  rw [sliceRowsOfFull, sliceRowIndices_eq, List.flatMap_map]
  exact congrArg Except.ok (List.flatMap_congr hrow)

end Repack

end Mimo26

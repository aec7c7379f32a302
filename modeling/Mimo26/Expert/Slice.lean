import Mimo26.Repack.BuildSlice

/-!
# A quarter slice, as the expert reads it

The geometry that the expert crate restates for itself, and its addressing of a slice inside a
grouped image of slices that lie back to back (`slice.rs` of `mimo26-expert`). Nothing but the
layout connects it to the crate that cuts the slices, so the offsets of the two are compared here.

## Main definitions

* `Proj`, `sliceProj`, `groupedProj` — where payload and scales of a projection lie

## Main results

* `groupedProj_buildSlice` — the regions of a slice that was cut and laid into a grouped image
-/

namespace Mimo26

namespace Expert

open Result Bytes

inductive ExpertError where
  | shapeMismatch (what : String)
  | sliceSize (want got : ℕ)
  | grouped (what : String)
  deriving DecidableEq, Repr

def hidden : ℕ := 4096
def intermediate : ℕ := 2048
def expertsPerLayer : ℕ := 256
def epRanks : ℕ := 4
def quarterSliceBytes : ℕ := 3342336

/-- The three projections, in the order of a slice. -/
inductive Proj where
  | gate
  | up
  | down
  deriving DecidableEq, Repr

namespace Proj

def sliceRows : Proj → ℕ
  | gate | up => intermediate / epRanks
  | down => hidden

def sliceInCols : Proj → ℕ
  | gate | up => hidden
  | down => intermediate / epRanks

def slicePayloadBytes (p : Proj) : ℕ := p.sliceRows * p.sliceInCols / 2

def sliceScaleBytes (p : Proj) : ℕ := p.sliceRows * p.sliceInCols / 32

def slicePayloadOff : Proj → ℕ
  | gate => 0
  | up => gate.slicePayloadBytes + gate.sliceScaleBytes
  | down => gate.slicePayloadBytes + gate.sliceScaleBytes + up.slicePayloadBytes +
    up.sliceScaleBytes

def sliceScaleOff (p : Proj) : ℕ := p.slicePayloadOff + p.slicePayloadBytes

/-- The projection, to the crate that cuts the slices. -/
def cut : Proj → Repack.Proj
  | gate => .gate
  | up => .up
  | down => .down

/-- **The two crates agree** on the layout. -/
theorem cut_layout (p : Proj) : p.cut.sliceRows = p.sliceRows ∧ p.cut.sliceInCols = p.sliceInCols ∧
    p.cut.slicePayloadOff = p.slicePayloadOff ∧ p.cut.sliceScaleOff = p.sliceScaleOff := by
  cases p with
  | gate => decide
  | up => decide
  | down => decide

/-- The rows of a projection fill its regions, within the slice. -/
theorem regions (p : Proj) : p.sliceRows * (p.sliceInCols / 2) = p.slicePayloadBytes ∧
    p.sliceRows * (p.sliceInCols / 32) = p.sliceScaleBytes ∧
    p.slicePayloadOff + p.slicePayloadBytes ≤ quarterSliceBytes ∧
    p.sliceScaleOff + p.sliceScaleBytes ≤ quarterSliceBytes := by
  cases p with
  | gate => decide
  | up => decide
  | down => decide

end Proj

def checkExpert (expert : ℕ) : Except ExpertError Unit :=
  demand (expert < expertsPerLayer)
    (.shapeMismatch s!"expert {expert} must be 0..{expertsPerLayer}")

/-- Payload and scales of a projection, out of a slice. -/
def sliceProj (image : List UInt8) (p : Proj) : Except ExpertError (List UInt8 × List UInt8) := do
  demand (image.length = quarterSliceBytes) (.sliceSize quarterSliceBytes image.length)
  return (slice image p.slicePayloadOff p.slicePayloadBytes,
    slice image p.sliceScaleOff p.sliceScaleBytes)

/-- Payload and scales of a projection of an expert, out of a grouped image. -/
def groupedProj (grouped : List UInt8) (expert : ℕ) (p : Proj) :
    Except ExpertError (List UInt8 × List UInt8) := do
  demand (expert * quarterSliceBytes < 2 ^ 64) (.grouped s!"expert {expert} offset overflows")
  let base := expert * quarterSliceBytes
  let fin := base + quarterSliceBytes
  let len := grouped.length
  demand (fin ≤ grouped.length)
    (.grouped s!"expert {expert} slice [{base}, {fin}) is outside the grouped image ({len} B)")
  sliceProj (slice grouped base quarterSliceBytes) p

/-- Row `r` of a projection's payload and scales. -/
def rowOf (p : Proj) (payload scales : List UInt8) (r : ℕ) : List UInt8 × List UInt8 :=
  let half := p.sliceInCols / 2
  let srow := p.sliceInCols / 32
  (slice payload (r * half) half, slice scales (r * srow) srow)

/-- **The regions of an expert's slice in a grouped image**, where `image` is cut from its tensors.
-/
theorem groupedProj_buildSlice {t : Repack.ExpertTensors} {rank expert : ℕ} (hrank : rank < epRanks)
    (h : ∀ p, t.Sized p) {image grouped : List UInt8} (himage : Repack.buildSlice t rank =
      .ok image)
    (hexpert : expert < expertsPerLayer)
    (hfin : expert * quarterSliceBytes + quarterSliceBytes ≤ grouped.length)
    (hslice : slice grouped (expert * quarterSliceBytes) quarterSliceBytes = image) (p : Proj) :
    ∃ payload scales, groupedProj grouped expert p = .ok (payload, scales) ∧
      ∀ r < p.sliceRows, rowOf p payload scales r =
        (Repack.payloadRow t p.cut rank r, Repack.scaleRow t p.cut rank r) := by
  obtain ⟨hpayload, hscale, -, -⟩ := p.regions
  obtain ⟨hrows, hcols, hpoff, hsoff⟩ := p.cut_layout
  have hlen : image.length = quarterSliceBytes := Repack.length_buildSlice hrank h himage
  refine ⟨slice image p.slicePayloadOff p.slicePayloadBytes,
    slice image p.sliceScaleOff p.sliceScaleBytes, ?_, ?_⟩
  · have hover : demand (expert * quarterSliceBytes < 2 ^ 64)
        (ExpertError.grouped s!"expert {expert} offset overflows") = .ok () := by
      refine demand_eq_ok.mpr ?_
      rw [expertsPerLayer] at hexpert
      rw [quarterSliceBytes]
      omega
    have hin (e : ExpertError) :
        demand (expert * quarterSliceBytes + quarterSliceBytes ≤ grouped.length) e = .ok () :=
      demand_eq_ok.mpr hfin
    have hsize (e : ExpertError) : demand (image.length = quarterSliceBytes) e = .ok () :=
      demand_eq_ok.mpr hlen
    rw [groupedProj, hover]
    simp only [ok_bind, hin, hslice, sliceProj, hsize, pure_eq_ok]
  · intro r hr
    have hp : r * (p.sliceInCols / 2) + p.sliceInCols / 2 ≤ p.slicePayloadBytes :=
      hpayload ▸ Repack.row_le hr
    have hs : r * (p.sliceInCols / 32) + p.sliceInCols / 32 ≤ p.sliceScaleBytes :=
      hscale ▸ Repack.row_le hr
    have hboth := Repack.slice_rows (p := p.cut) hrank h himage (hrows.symm ▸ hr)
    rw [hcols, hpoff, hsoff] at hboth
    rw [rowOf, slice_slice hp, slice_slice hs, hboth.1, hboth.2]

end Expert

end Mimo26

import Mimo26.Library.Result

/-!
# The geometry of an expert and of its quarter slices

Checkpoint geometry, the layout of a quarter slice, the names of tensors, shards and slice files
(`geom.rs` of `mimo26-repack`), and the errors of that crate (`error.rs`).

Rank `r` of the four holds the output rows `[r * 512, (r + 1) * 512)` of the gate and up
projections, and the input columns of the same range of the down projection.

## Main definitions

* `RepackError` — what repacking, reading a manifest and the identity readback can fail with
* `Proj` — the three projections, their full and their slice sizes and offsets
* `layoutTable`, `sliceRowIndices` — the pinned layout, and the rows a rank holds
* `tensorName`, `shardFile`, `sliceFileName` — names

## Main results

* `sliceFileName_injective` — the file names of a layer's experts differ
-/

namespace Mimo26

namespace Repack

open Result

/-! ### Errors -/

inductive RepackError where
  | shapeMismatch (tensor : String) (want got : ℕ)
  | badGeometry (tensor detail : String)
  | missingTensor (tensor : String)
  | unexpectedTensor (tensor : String)
  | badSafetensors (detail : String)
  | truncated (path : String) (declared got : ℕ)
  | sliceSize (path : String) (want got : ℕ)
  | shaMismatch (path want got : String)
  | missingSlice (path : String)
  | unlistedSlice (path : String)
  | badManifest (detail : String)
  | geometryMismatch (field : String) (want got : ℕ)
  | io (path detail : String)
  deriving DecidableEq, Repr

/-! ### Sizes -/

def hidden : ℕ := 4096
def intermediate : ℕ := 2048
def expertsPerLayer : ℕ := 256
def moeLayers : ℕ := 47
def epRanks : ℕ := 4
def firstMoeLayer : ℕ := 1
def expertBytes : ℕ := 13369344
def quarterSliceBytes : ℕ := 3342336

/-! ### Projections -/

/-- The three projections of an expert. -/
inductive Proj where
  | gate
  | up
  | down
  deriving DecidableEq, Repr

namespace Proj

/-- In the order of a slice. -/
def all : List Proj := [.gate, .up, .down]

def name : Proj → String
  | gate => "gate_proj"
  | up => "up_proj"
  | down => "down_proj"

/-- Output rows of the whole projection. -/
def outRows : Proj → ℕ
  | gate | up => intermediate
  | down => hidden

/-- Input columns of the whole projection. -/
def inCols : Proj → ℕ
  | gate | up => hidden
  | down => intermediate

/-- Output rows in a slice. -/
def sliceRows : Proj → ℕ
  | gate | up => intermediate / epRanks
  | down => hidden

/-- Input columns in a slice. -/
def sliceInCols : Proj → ℕ
  | gate | up => hidden
  | down => intermediate / epRanks

/-- The first input column of a rank. -/
def sliceColStart : Proj → ℕ → ℕ
  | gate, _ | up, _ => 0
  | down, rank => rank * (intermediate / epRanks)

def slicePayloadBytes (p : Proj) : ℕ := p.sliceRows * p.sliceInCols / 2

def sliceScaleBytes (p : Proj) : ℕ := p.sliceRows * p.sliceInCols / 32

/-- Where the payload of a projection starts in a slice. -/
def slicePayloadOff : Proj → ℕ
  | gate => 0
  | up => gate.slicePayloadBytes + gate.sliceScaleBytes
  | down => gate.slicePayloadBytes + gate.sliceScaleBytes + up.slicePayloadBytes +
    up.sliceScaleBytes

def sliceScaleOff (p : Proj) : ℕ := p.slicePayloadOff + p.slicePayloadBytes

end Proj

/-! ### Layout -/

/-- A row of the layout table. -/
structure LayoutRow where
  proj : Proj
  region : String
  off : ℕ
  len : ℕ
  deriving DecidableEq, Repr

/-- The pinned layout, in offset order. -/
def layoutTable : List LayoutRow :=
  Proj.all.flatMap fun p =>
    [⟨p, "payload", p.slicePayloadOff, p.slicePayloadBytes⟩,
      ⟨p, "scales", p.sliceScaleOff, p.sliceScaleBytes⟩]

/-- The regions tile a slice. -/
example : (layoutTable.map LayoutRow.len).sum = quarterSliceBytes := by decide

/-- The output rows of the whole projection that a rank holds. -/
def sliceRowIndices (proj : Proj) (rank : ℕ) : List ℕ :=
  let start :=
    match proj with
    | .gate | .up => rank * proj.sliceRows
    | .down => 0
  (List.range proj.sliceRows).map (start + ·)

/-! ### Checks -/

def checkRank (rank : ℕ) : Except RepackError Unit :=
  demand (rank < epRanks) (.badGeometry s!"rank {rank}" "EP rank must be 0..4")

def checkLayer (layer : ℕ) : Except RepackError Unit :=
  demand (firstMoeLayer ≤ layer ∧ layer < firstMoeLayer + moeLayers)
    (.badGeometry s!"layer {layer}" "MoE layer must be 1..=47 (layer 0 is dense)")

def checkExpert (expert : ℕ) : Except RepackError Unit :=
  demand (expert < expertsPerLayer) (.badGeometry s!"expert {expert}" "expert id must be 0..256")

/-! ### Names -/

/-- A number in decimal, with zeros in front up to a width. -/
def padded (width n : ℕ) : String :=
  String.ofList (List.replicate (width - (toString n).length) '0') ++ toString n

/-- The digits give the number back, whatever the width. -/
theorem ofDigitChars_padded (width n : ℕ) : Nat.ofDigitChars 10 (padded width n).toList 0 = n := by
  rw [padded, String.toList_append, String.toList_ofList, Nat.ofDigitChars_append,
    Nat.ofDigitChars_replicate_zero, Nat.mul_zero, show (toString n).toList = Nat.toDigits 10 n from
      Nat.toList_repr, Nat.ofDigitChars_ten_toDigits]

theorem padded_injective (width : ℕ) : Function.Injective (padded width) := by
  intro n n' h
  rw [← ofDigitChars_padded width n, h, ofDigitChars_padded]

def tensorName (layer expert : ℕ) (proj : Proj) (scale : Bool) : String :=
  let suffix := if scale then "weight_scale" else "weight"
  let name := proj.name
  s!"model.layers.{layer}.mlp.experts.{expert}.{name}.{suffix}"

def shardFile (expert : ℕ) : String :=
  let ep := expert / 4
  s!"model_pp0_ep{ep}_shard0.safetensors"

def sliceFileName (layer expert rank : ℕ) : String :=
  "L" ++ padded 2 layer ++ "_E" ++ padded 3 expert ++ "_R" ++ toString rank ++ ".slice"

/-- The file names of a layer's experts differ. -/
theorem sliceFileName_injective (layer rank : ℕ) :
    Function.Injective fun expert => sliceFileName layer expert rank := by
  intro e e' h
  have htail (e : ℕ) : (sliceFileName layer e rank).toList =
      ("L" ++ padded 2 layer ++ "_E").toList ++
        ((padded 3 e).toList ++ ("_R" ++ toString rank ++ ".slice").toList) := by
    simp [sliceFileName]
  have hlist := congrArg String.toList h
  dsimp only at hlist
  rw [htail, htail] at hlist
  exact padded_injective 3 (String.toList_inj.mp
    (List.append_cancel_right (List.append_cancel_left hlist)))

end Repack

end Mimo26

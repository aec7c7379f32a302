import Mimo26.Repack.Geom
import Mimo26.Library.Result
import Mathlib.Data.Finmap

/-!
# The manifest of a slice directory

The manifest's data, and the check that its geometry and layout are the compiled-in ones
(`manifest.rs`).

## Main definitions

* `SourceTensor`, `SliceEntry`, `LayoutEntry`, `Manifest` — the data
* `validateGeometry` — the check made before a manifest is used
* `sourceTensors` — the six tensors of an expert

## Main results

* `Manifest.pinned_iff` — what the check finds
* `validateGeometry_new` — the compiled-in manifest passes its own check
-/

namespace Mimo26

namespace Repack

open Result

/-- A source tensor of a slice. -/
structure SourceTensor where
  name : String
  shape : List ℕ
  dtype : String
  deriving DecidableEq, Repr

/-- One slice file. -/
structure SliceEntry where
  file : String
  sha256 : String
  bytes : ℕ
  layer : ℕ
  expert : ℕ
  rank : ℕ
  shard : String
  tensors : List SourceTensor
  deriving DecidableEq, Repr

/-- A row of the layout table, as the manifest spells it. -/
structure LayoutEntry where
  proj : String
  region : String
  off : ℕ
  len : ℕ
  deriving DecidableEq, Repr

structure Manifest where
  format : String
  version : ℕ
  generatedBy : String
  geometry : Finmap fun _ : String => ℕ
  layout : List LayoutEntry
  slices : List SliceEntry

def manifestFormat : String := "mimo26-repack-manifest"
def manifestVersion : ℕ := 2

/-- The compiled-in geometry, by field. -/
def geometryFields : List (String × ℕ) :=
  [("hidden", hidden), ("intermediate", intermediate), ("experts_per_layer", expertsPerLayer),
    ("moe_layers", moeLayers), ("ep_ranks", epRanks), ("expert_bytes", expertBytes),
    ("quarter_slice_bytes", quarterSliceBytes)]

/-- A row of the pinned layout as a manifest spells it. -/
def LayoutRow.entry (r : LayoutRow) : LayoutEntry := ⟨r.proj.name, r.region, r.off, r.len⟩

/-- A manifest with the compiled-in geometry and layout, and no slices. -/
def Manifest.new : Manifest where
  format := manifestFormat
  version := manifestVersion
  generatedBy := "mimo26-repack 0.1.0"
  geometry := geometryFields.foldl (fun m x => m.insert x.1 x.2) ∅
  layout := layoutTable.map LayoutRow.entry
  slices := []

/-- One field of the geometry has its compiled-in value. -/
def Manifest.checkField (m : Manifest) (field : String) (want : ℕ) : Except RepackError Unit :=
  match m.geometry.lookup field with
  | none => .error (.badManifest s!"geometry missing {field}")
  | some got => demand (got = want) (.geometryMismatch field want got)

/-- One row of the layout is the pinned one. -/
def checkLayoutRow (got want : LayoutEntry) : Except RepackError Unit :=
  demand (got.proj = want.proj ∧ got.region = want.region ∧ got.off = want.off ∧ got.len = want.len)
    (.badManifest ("layout row drift: got " ++ got.proj ++ " " ++ got.region ++ " @" ++
      toString got.off ++ " +" ++ toString got.len ++ ", expected " ++ want.proj ++ " " ++
      want.region ++ " @" ++ toString want.off ++ " +" ++ toString want.len))

/-- The manifest's format, geometry and layout are the compiled-in ones. -/
def Manifest.validateGeometry (m : Manifest) : Except RepackError Unit := do
  demand (m.format = manifestFormat ∧ m.version = manifestVersion)
    (.badManifest ("layout version " ++ toString m.version ++ " / format " ++ m.format.quote ++
      " is not v2 / mimo26-repack-manifest; repack required"))
  geometryFields.forM fun x => m.checkField x.1 x.2
  let pinned := layoutTable.map LayoutRow.entry
  demand (m.layout.length = pinned.length)
    (.badManifest ("layout has " ++ toString m.layout.length ++ " rows, expected " ++
      toString pinned.length))
  (m.layout.zip pinned).forM fun x => checkLayoutRow x.1 x.2

/-- The six source tensors of an expert. -/
def sourceTensors (layer expert : ℕ) : List SourceTensor :=
  Proj.all.flatMap fun p =>
    [false, true].map fun scale =>
      let shape := if scale then [p.outRows, p.inCols / 32] else [p.outRows, p.inCols / 2]
      ⟨tensorName layer expert p scale, shape, "U8"⟩

/-! ### The compiled-in manifest -/

theorem lookup_geometry_new {x : String × ℕ} (hx : x ∈ geometryFields) :
    Manifest.new.geometry.lookup x.1 = some x.2 := by
  revert x
  decide

/-- A manifest with the compiled-in format, geometry and layout passes the check. -/
theorem validateGeometry_eq_ok {m : Manifest} (hformat : m.format = manifestFormat)
    (hversion : m.version = manifestVersion)
    (hgeometry : ∀ x ∈ geometryFields, m.geometry.lookup x.1 = some x.2)
    (hlayout : m.layout = layoutTable.map LayoutRow.entry) : m.validateGeometry = .ok () := by
  have hfields : (geometryFields.forM fun x => m.checkField x.1 x.2) = .ok ⟨⟩ := by
    refine forM_eq_ok.mpr fun x hx => ?_
    rw [Manifest.checkField, hgeometry x hx]
    exact demand_eq_ok.mpr rfl
  have hrows : ((m.layout.zip (layoutTable.map LayoutRow.entry)).forM
      fun x => checkLayoutRow x.1 x.2) = .ok ⟨⟩ := by
    refine forM_eq_ok.mpr fun x hx => demand_eq_ok.mpr ?_
    rw [hlayout] at hx
    obtain ⟨i, hi, rfl⟩ := List.getElem_of_mem hx
    simp
  refine bind_eq_ok.mpr ⟨(), demand_eq_ok.mpr ⟨hformat, hversion⟩, ?_⟩
  refine bind_eq_ok.mpr ⟨(), hfields, bind_eq_ok.mpr ⟨(), demand_eq_ok.mpr ?_, hrows⟩⟩
  rw [hlayout]

/-- The compiled-in manifest passes its own check, with any slices. -/
theorem validateGeometry_new (slices : List SliceEntry) :
    ({ Manifest.new with slices := slices } : Manifest).validateGeometry = .ok () :=
  validateGeometry_eq_ok rfl rfl (fun _ hx => lookup_geometry_new hx) rfl

/-- What the check of a manifest finds. -/
structure Manifest.Pinned (m : Manifest) : Prop where
  format : m.format = manifestFormat
  version : m.version = manifestVersion
  geometry : ∀ x ∈ geometryFields, m.geometry.lookup x.1 = some x.2
  layout : m.layout = layoutTable.map LayoutRow.entry

theorem LayoutEntry.eq_of_check {got want : LayoutEntry} (h : checkLayoutRow got want = .ok ()) :
    got = want := by
  obtain ⟨hproj, hregion, hoff, hlen⟩ := demand_eq_ok.mp h
  cases got
  cases want
  simp only [LayoutEntry.mk.injEq]
  exact ⟨hproj, hregion, hoff, hlen⟩

/-- **A manifest passes its check** exactly if it is pinned. -/
theorem Manifest.pinned_iff {m : Manifest} : m.Pinned ↔ m.validateGeometry = .ok () := by
  constructor
  · exact fun h => validateGeometry_eq_ok h.format h.version h.geometry h.layout
  · intro h
    obtain ⟨_, hformat, h⟩ := bind_eq_ok.mp h
    obtain ⟨_, hgeometry, h⟩ := bind_eq_ok.mp h
    obtain ⟨_, hlen, hrows⟩ := bind_eq_ok.mp h
    have hlen := demand_eq_ok.mp hlen
    refine ⟨(demand_eq_ok.mp hformat).1, (demand_eq_ok.mp hformat).2, fun x hx => ?_, ?_⟩
    · have hfield := forM_eq_ok.mp hgeometry x hx
      rw [Manifest.checkField] at hfield
      split at hfield
      · exact absurd hfield nofun
      · next got hgot => rw [hgot, demand_eq_ok.mp hfield]
    · refine List.ext_getElem hlen fun i hi hi' => ?_
      have hmem : (m.layout[i], (layoutTable.map LayoutRow.entry)[i]) ∈
          m.layout.zip (layoutTable.map LayoutRow.entry) := by
        rw [← List.getElem_zip (h := by rw [List.length_zip]; omega)]
        exact List.getElem_mem _
      exact LayoutEntry.eq_of_check (forM_eq_ok.mp hrows _ hmem)

end Repack

end Mimo26

import Mimo26.Repack.Identity
import Mimo26.Library.Bytes

/-!
# The boot gate

What a Spark does before it serves: the readback of every slice (`boot.rs`), the index of its rank's
slices by layer and expert, and the image of a layer (`resident.rs`).

The readback compares sizes and hashes by file name. The index goes by the numbers of an entry, and
takes the last entry of its numbers. Nothing compares the numbers with the name.

## Main definitions

* `readback` — the boot check
* `Resident`, `loadManifest`, `groupedImage` — the index, and the slices of a layer in expert order
* `ServesOwn` — every position of an image holds the slice of its own layer, expert and rank
* `lastNumbered` — the entry the index goes by

## Main results

* `servesOwn_iff` — an image serves its own slices exactly when those entries declare their numbers
* `not_servesOwn_swapped` — a manifest with two entries' numbers swapped passes the gate
-/

namespace Mimo26

namespace Spark

open Repack Result Bytes

/-! ### The gate and the index -/

structure BootReceipt where
  matched : ℕ
  total : ℕ
  matchedBytes : ℕ
  deriving DecidableEq, Repr

/-- Verify every slice of a directory, and refuse on any mismatch. -/
def readback (dir : SliceDir) : Except RepackError BootReceipt := do
  let manifest ← dir.manifest
  manifest.validateGeometry
  let report ← verifyDir dir manifest
  let _ ← report.intoResult
  return ⟨report.matched, report.files.length, report.matchedBytes⟩

/-- A rank's slice files by layer and expert. -/
structure Resident where
  dir : SliceDir
  files : Finmap fun _ : ℕ × ℕ => String
  slices : ℕ

/-- Enter a slice entry in the index of a rank. -/
def indexEntry (rank : ℕ) (files : Finmap fun _ : ℕ × ℕ => String) (entry : SliceEntry) :
    Finmap fun _ : ℕ × ℕ => String :=
  if entry.rank ≠ rank then files else files.insert (entry.layer, entry.expert) entry.file

namespace Resident

/-- Index the slices of a rank. -/
def loadManifest (dir : SliceDir) (rank : ℕ) : Except RepackError Resident := do
  let manifest ← dir.manifest
  manifest.validateGeometry
  let files := manifest.slices.foldl (indexEntry rank) ∅
  return ⟨dir, files, files.keys.card⟩

/-- The bytes of an expert's slice. -/
def slice (r : Resident) (layer expert : ℕ) : Except RepackError (List UInt8) :=
  match r.files.lookup (layer, expert) with
  | none => .error (.missingSlice ("L" ++ padded 2 layer ++ "_E" ++ padded 3 expert))
  | some file => (r.dir.read file).mapError (.io file)

/-- The slices of a layer, in expert order. -/
def groupedImage (r : Resident) (layer experts : ℕ) : Except RepackError (List UInt8) := do
  let slices ← (List.range experts).mapM (r.slice layer)
  return slices.flatten

end Resident

/-! ### The promise -/

/-- Position `e` of an image of a layer of rank `rank`, for every expert: it is read from the file
of the entry with the identity of the layer, `e` and the rank, and holds its bytes. -/
def ServesOwn (m : Manifest) (r : Resident) (layer rank : ℕ) (image : List UInt8) : Prop :=
  ∀ e < expertsPerLayer, ∃ entry ∈ m.slices, Identified m layer e rank entry ∧
    r.files.lookup (layer, e) = some entry.file ∧
    r.dir.read entry.file = .ok (Bytes.slice image (e * quarterSliceBytes) quarterSliceBytes)

/-- The last entry with these numbers. -/
def lastNumbered (m : Manifest) (layer expert rank : ℕ) : Option SliceEntry :=
  (m.slices.filter fun s => s.layer = layer ∧ s.expert = expert ∧ s.rank = rank).getLast?

/-! ### The index -/

/-- **The index goes by the last entry of the numbers.** -/
theorem lookup_index (rank layer expert : ℕ) (entries : List SliceEntry) :
    (entries.foldl (indexEntry rank) ∅).lookup (layer, expert) =
      ((entries.filter fun s => s.layer = layer ∧ s.expert = expert ∧ s.rank = rank).getLast?).map
        SliceEntry.file := by
  induction entries using List.reverseRecOn with
  | nil => rfl
  | append_singleton entries entry ih =>
    rw [List.foldl_append, List.foldl_cons, List.foldl_nil, List.filter_append, indexEntry]
    by_cases hrank : entry.rank = rank
    · rw [if_neg (not_not.mpr hrank)]
      by_cases hkey : (layer, expert) = (entry.layer, entry.expert)
      · obtain ⟨rfl, rfl⟩ := Prod.mk.inj hkey
        rw [Finmap.lookup_insert, List.filter_cons_of_pos (by simp [hrank]), List.filter_nil,
          List.getLast?_concat, Option.map_some]
      · have hnot : ¬ (entry.layer = layer ∧ entry.expert = expert ∧ entry.rank = rank) := by
          rintro ⟨rfl, rfl, -⟩
          exact hkey rfl
        rw [Finmap.lookup_insert_of_ne _ hkey, ih, List.filter_cons_of_neg (by simpa using hnot),
          List.filter_nil, List.append_nil]
    · rw [if_pos hrank, ih, List.filter_cons_of_neg (by simp [hrank]), List.filter_nil,
        List.append_nil]

theorem lookup_files {dir : SliceDir} {rank : ℕ} {r : Resident} {m : Manifest}
    (hm : dir.manifest = .ok m) (hr : Resident.loadManifest dir rank = .ok r) :
    r.dir = dir ∧ ∀ layer expert,
      r.files.lookup (layer, expert) = (lastNumbered m layer expert rank).map SliceEntry.file := by
  obtain ⟨m', hm', hr⟩ := bind_eq_ok.mp hr
  rw [hm] at hm'
  obtain rfl := Except.ok.inj hm'
  obtain ⟨_, -, hr⟩ := bind_eq_ok.mp hr
  obtain rfl := Except.ok.inj hr
  exact ⟨rfl, fun layer expert => lookup_index rank layer expert m.slices⟩

theorem slice_eq_ok {r : Resident} {layer expert : ℕ} {bytes : List UInt8} :
    r.slice layer expert = .ok bytes ↔
      ∃ file, r.files.lookup (layer, expert) = some file ∧ r.dir.read file = .ok bytes := by
  rw [Resident.slice]
  cases hfile : r.files.lookup (layer, expert) with
  | none => simp
  | some file =>
    dsimp only
    cases hread : r.dir.read file with
    | error e => simp [Except.mapError, hread]
    | ok bytes' => simp [Except.mapError, hread]

/-! ### The image -/

/-- **Image.** Position `e` holds the slice of expert `e`, when every slice has its full size. -/
theorem slice_groupedImage {r : Resident} {layer experts : ℕ} {image : List UInt8}
    (himage : r.groupedImage layer experts = .ok image)
    (hsize : ∀ e < experts, ∀ bytes, r.slice layer e = .ok bytes → bytes.length = quarterSliceBytes)
    {e : ℕ} (he : e < experts) :
    r.slice layer e = .ok (Bytes.slice image (e * quarterSliceBytes) quarterSliceBytes) := by
  obtain ⟨slices, hslices, himage⟩ := bind_eq_ok.mp himage
  obtain rfl := Except.ok.inj himage
  have hall := forall₂_of_mapM hslices
  have hlen := hall.length_eq
  rw [List.length_range] at hlen
  have hget (i : ℕ) (hi : i < experts) : r.slice layer i = .ok (slices.get ⟨i, hlen ▸ hi⟩) := by
    have hi' := List.forall₂_iff_get.mp hall |>.2 i (by simpa using hi) (hlen ▸ hi)
    simpa using hi'
  have hwidth : ∀ bytes ∈ slices, (id bytes).length = quarterSliceBytes := by
    intro bytes hbytes
    obtain ⟨i, hi, rfl⟩ := List.getElem_of_mem hbytes
    exact hsize i (hlen ▸ hi) _ (hget i (hlen ▸ hi))
  have hslot := slice_flatMap hwidth (hlen ▸ he : e < slices.length)
  rw [List.flatMap_id] at hslot
  rw [hslot, hget e he]
  rfl

/-! ### The exact condition -/

/-- The entry whose file is served is the last of its numbers, and has their identity. -/
theorem ServesOwn.identified {dir : SliceDir} {m : Manifest} {r : Resident} {layer rank : ℕ}
    {image : List UInt8} (h : ServesOwn m r layer rank image) (hm : dir.manifest = .ok m)
    (hr : Resident.loadManifest dir rank = .ok r) :
    ∀ e < expertsPerLayer, ∀ entry ∈ lastNumbered m layer e rank,
      Identified m layer e rank entry := by
  intro e he entry hlast
  obtain ⟨own, -, hid, hfile, -⟩ := h e he
  rw [(lookup_files hm hr).2, hlast, Option.map_some, Option.some.injEq] at hfile
  have hmem := List.mem_of_mem_filter (List.mem_of_getLast? hlast)
  have hsole : entry ∈ m.slices.filter (·.file = own.file) :=
    List.mem_filter.mpr ⟨hmem, by simpa using hfile⟩
  rw [hid.sole, List.mem_singleton] at hsole
  rw [hsole]
  exact hid

theorem servesOwn_of_identified {dir : SliceDir} {m : Manifest} {receipt : BootReceipt}
    {r : Resident} {layer rank : ℕ} {image : List UInt8} (hm : dir.manifest = .ok m)
    (hboot : readback dir = .ok receipt) (hr : Resident.loadManifest dir rank = .ok r)
    (himage : r.groupedImage layer expertsPerLayer = .ok image)
    (hid : ∀ e < expertsPerLayer, ∀ entry ∈ lastNumbered m layer e rank,
      Identified m layer e rank entry) : ServesOwn m r layer rank image := by
  obtain ⟨hdir, hfiles⟩ := lookup_files hm hr
  obtain ⟨m', hm', hboot⟩ := bind_eq_ok.mp hboot
  rw [hm] at hm'
  obtain rfl := Except.ok.inj hm'
  obtain ⟨_, -, hboot⟩ := bind_eq_ok.mp hboot
  obtain ⟨report, hreport, hboot⟩ := bind_eq_ok.mp hboot
  obtain ⟨report', hresult, -⟩ := bind_eq_ok.mp hboot
  have hread := read_of_verifyDir hreport hresult
  -- A slice of the index is the file of the last entry of its numbers.
  have hlast (e : ℕ) {bytes : List UInt8} (hslice : r.slice layer e = .ok bytes) :
      ∃ entry ∈ lastNumbered m layer e rank, entry ∈ m.slices ∧
        r.files.lookup (layer, e) = some entry.file ∧ dir.read entry.file = .ok bytes := by
    obtain ⟨file, hfile, hbytes⟩ := slice_eq_ok.mp hslice
    have hentry := hfile
    rw [hfiles, Option.map_eq_some_iff] at hentry
    obtain ⟨entry, hentry, rfl⟩ := hentry
    rw [hdir] at hbytes
    exact ⟨entry, hentry, List.mem_of_mem_filter (List.mem_of_getLast? hentry), hfile, hbytes⟩
  have hsize : ∀ e < expertsPerLayer, ∀ bytes, r.slice layer e = .ok bytes →
      bytes.length = quarterSliceBytes := by
    intro e _ bytes hslice
    obtain ⟨entry, -, hmem, -, hbytes⟩ := hlast e hslice
    obtain ⟨bytes', hbytes', hlen, -⟩ := hread entry hmem
    rw [hbytes] at hbytes'
    rw [Except.ok.inj hbytes']
    exact hlen
  intro e he
  obtain ⟨entry, hentry, hmem, hfile, hbytes⟩ := hlast e (slice_groupedImage himage hsize he)
  rw [hdir]
  exact ⟨entry, hmem, hid e he entry hentry, hfile, hbytes⟩

/-- **The gate serves its own slices exactly when** the last entry of the numbers of each of the
layer's experts declares the identity of its numbers. -/
theorem servesOwn_iff {dir : SliceDir} {m : Manifest} {receipt : BootReceipt} {r : Resident}
    {layer rank : ℕ} {image : List UInt8} (hm : dir.manifest = .ok m)
    (hboot : readback dir = .ok receipt) (hr : Resident.loadManifest dir rank = .ok r)
    (himage : r.groupedImage layer expertsPerLayer = .ok image) :
    ServesOwn m r layer rank image ↔
      ∀ e < expertsPerLayer, ∀ entry ∈ lastNumbered m layer e rank,
        Identified m layer e rank entry :=
  ⟨fun h => h.identified hm hr, servesOwn_of_identified hm hboot hr himage⟩

/-! ### A directory of one layer -/

/-- The bytes of a file: the slice of expert 0 differs from the others. -/
def demoBytes (file : String) : List UInt8 :=
  List.replicate quarterSliceBytes (if file = sliceFileName 1 0 0 then 1 else 0)

/-- The entry of expert `e`'s file, with the number `number e`. -/
def demoEntry (number : ℕ → ℕ) (e : ℕ) : SliceEntry where
  file := sliceFileName 1 e 0
  sha256 := hex (sha256 (demoBytes (sliceFileName 1 e 0)))
  bytes := quarterSliceBytes
  layer := 1
  expert := number e
  rank := 0
  shard := shardFile e
  tensors := sourceTensors 1 e

def demoManifest (number : ℕ → ℕ) : Manifest :=
  { Manifest.new with slices := (List.range expertsPerLayer).map (demoEntry number) }

def demoNames : List String := (List.range expertsPerLayer).map fun e => sliceFileName 1 e 0

/-- The slices of rank 0 of layer 1. -/
def demoDir (number : ℕ → ℕ) : SliceDir where
  manifest := .ok (demoManifest number)
  len file := if file ∈ demoNames then some quarterSliceBytes else none
  read file := if file ∈ demoNames then .ok (demoBytes file) else .error "not found"
  names := .ok demoNames
  len_read := by
    intro file bytes h
    split at h
    · next hmem =>
      rw [if_pos hmem, ← Except.ok.inj h, demoBytes, List.length_replicate]
    · cases h

theorem mem_demoManifest {number : ℕ → ℕ} {entry : SliceEntry} :
    entry ∈ (demoManifest number).slices ↔ ∃ e < expertsPerLayer, demoEntry number e = entry := by
  simp [demoManifest]

theorem read_demoDir (number : ℕ → ℕ) {e : ℕ} (he : e < expertsPerLayer) :
    (demoDir number).read (sliceFileName 1 e 0) = .ok (demoBytes (sliceFileName 1 e 0)) := by
  have hmem : sliceFileName 1 e 0 ∈ demoNames := List.mem_map_of_mem (List.mem_range.mpr he)
  simp only [demoDir]
  rw [if_pos hmem]

theorem readback_demoDir (number : ℕ → ℕ) : ∃ receipt, readback (demoDir number) = .ok receipt := by
  have hvalid : (demoManifest number).validateGeometry = .ok () := validateGeometry_new _
  have hlisted : ∀ name ∈ demoNames, name ∈ (demoManifest number).slices.map SliceEntry.file := by
    intro name hname
    obtain ⟨e, he, rfl⟩ := List.mem_map.mp hname
    exact List.mem_map.mpr ⟨_, mem_demoManifest.mpr ⟨e, List.mem_range.mp he, rfl⟩, rfl⟩
  obtain ⟨report, hreport, hresult⟩ : ∃ report,
      verifyDir (demoDir number) (demoManifest number) = .ok report ∧
        report.intoResult = .ok report := by
    refine verifyDir_eq_ok hvalid rfl hlisted fun entry hentry => ?_
    obtain ⟨e, he, rfl⟩ := mem_demoManifest.mp hentry
    exact ⟨_, read_demoDir number he, List.length_replicate, rfl⟩
  exact ⟨_, bind_eq_ok.mpr ⟨_, rfl, bind_eq_ok.mpr ⟨(), hvalid, bind_eq_ok.mpr ⟨report, hreport,
    bind_eq_ok.mpr ⟨report, hresult, rfl⟩⟩⟩⟩⟩

/-- Whatever the numbers, as long as every expert has one, the gate passes. -/
theorem demoDir_passes {number : ℕ → ℕ}
    (hnumber : ∀ e < expertsPerLayer, ∃ e' < expertsPerLayer, number e' = e) :
    ∃ receipt r image, readback (demoDir number) = .ok receipt ∧
      Resident.loadManifest (demoDir number) 0 = .ok r ∧
      r.groupedImage 1 expertsPerLayer = .ok image := by
  obtain ⟨receipt, hboot⟩ := readback_demoDir number
  obtain ⟨r, hload⟩ : ∃ r, Resident.loadManifest (demoDir number) 0 = .ok r :=
    ⟨_, bind_eq_ok.mpr ⟨_, rfl, bind_eq_ok.mpr ⟨(), validateGeometry_new _, rfl⟩⟩⟩
  obtain ⟨hdir, hfiles⟩ := lookup_files (m := demoManifest number) rfl hload
  have hslice : ∀ e ∈ List.range expertsPerLayer, ∃ bytes, r.slice 1 e = .ok bytes := by
    intro e he
    obtain ⟨e', he', hnum⟩ := hnumber e (List.mem_range.mp he)
    have hmem : demoEntry number e' ∈ (demoManifest number).slices.filter
        fun s => s.layer = 1 ∧ s.expert = e ∧ s.rank = 0 :=
      List.mem_filter.mpr ⟨mem_demoManifest.mpr ⟨e', he', rfl⟩, by simp [demoEntry, hnum]⟩
    obtain ⟨entry, hlast⟩ := Option.isSome_iff_exists.mp
      (List.getLast?_isSome.mpr (List.ne_nil_of_mem hmem))
    obtain ⟨e'', he'', rfl⟩ := mem_demoManifest.mp
      (List.mem_of_mem_filter (List.mem_of_getLast? hlast))
    refine ⟨_, slice_eq_ok.mpr ⟨_, ?_, by rw [hdir]; exact read_demoDir number he''⟩⟩
    rw [hfiles, lastNumbered, hlast]
    rfl
  obtain ⟨slices, hslices⟩ := exists_mapM_eq_ok hslice
  exact ⟨receipt, r, _, hboot, hload, bind_eq_ok.mpr ⟨slices, hslices, rfl⟩⟩

/-- Entries under their own numbers declare them. -/
theorem identified_demoEntry {e : ℕ} (he : e < expertsPerLayer) :
    Identified (demoManifest id) 1 e 0 (demoEntry id e) := by
  refine ⟨?_, by decide, he, by decide, rfl, rfl, rfl⟩
  have hname : ∀ e' ∈ List.range expertsPerLayer,
      decide ((demoEntry id e').file = (demoEntry id e).file) = decide (e' = e) := by
    intro e' he'
    exact decide_eq_decide.mpr ⟨fun hfile => sliceFileName_injective 1 0 hfile, fun h => by rw [h]⟩
  show ((List.range expertsPerLayer).map (demoEntry id)).filter
    (fun s => s.file = (demoEntry id e).file) = [demoEntry id e]
  rw [List.filter_map, Function.comp_def, List.filter_congr hname, List.filter_eq,
    List.count_eq_one_of_mem List.nodup_range (List.mem_range.mpr he), List.replicate_one,
    List.map_singleton]

theorem servesOwn_demo : ∃ r image, ServesOwn (demoManifest id) r 1 0 image := by
  obtain ⟨receipt, r, image, hboot, hload, himage⟩ :=
    @demoDir_passes id fun e he => ⟨e, he, rfl⟩
  refine ⟨r, image, (@servesOwn_iff (demoDir id) _ _ _ _ _ _ rfl hboot hload himage).mpr ?_⟩
  intro e he entry hlast
  obtain ⟨hmem, hnum⟩ := List.mem_filter.mp (List.mem_of_getLast? hlast)
  obtain ⟨e', he', rfl⟩ := mem_demoManifest.mp hmem
  have hexpert : e' = e := by simpa [demoEntry] using hnum
  rw [hexpert]
  exact identified_demoEntry he

/-- **A manifest that swaps the numbers of experts 0 and 1 passes the gate.** -/
theorem not_servesOwn_swapped :
    ¬ ∀ (dir : SliceDir) (m : Manifest) (receipt : BootReceipt) (r : Resident) (layer rank : ℕ)
      (image : List UInt8), dir.manifest = .ok m → readback dir = .ok receipt →
      Resident.loadManifest dir rank = .ok r → r.groupedImage layer expertsPerLayer = .ok image →
      ServesOwn m r layer rank image := by
  intro h
  have hswap : ∀ e < expertsPerLayer, Equiv.swap 0 1 e < expertsPerLayer := by
    intro e he
    have hone : 1 < expertsPerLayer := by decide
    rw [Equiv.swap_apply_def]
    split_ifs <;> omega
  obtain ⟨receipt, r, image, hboot, hload, himage⟩ := @demoDir_passes (Equiv.swap 0 1)
    fun e he => ⟨Equiv.swap 0 1 e, hswap e he, Equiv.swap_apply_self 0 1 e⟩
  obtain ⟨own, -, hid, hfile, -⟩ :=
    h (demoDir (Equiv.swap 0 1)) _ receipt r 1 0 image rfl hboot hload
    himage 0 (by decide)
  rw [(@lookup_files (demoDir (Equiv.swap 0 1)) _ _ _ rfl hload).2, Option.map_eq_some_iff] at hfile
  obtain ⟨entry, hlast, hfile⟩ := hfile
  obtain ⟨hmem, hnum⟩ := List.mem_filter.mp (List.mem_of_getLast? hlast)
  obtain ⟨e, he, rfl⟩ := mem_demoManifest.mp hmem
  -- The entry numbered 0 is that of expert 1's file.
  have hexpert : e = 1 := by
    have hzero : Equiv.swap 0 1 e = 0 := by simpa [demoEntry] using hnum
    rw [← Equiv.swap_apply_self 0 1 e, hzero, Equiv.swap_apply_left]
  have hname : sliceFileName 1 1 0 = sliceFileName 1 0 0 := by
    rw [← hid.file, ← hfile, hexpert]
    rfl
  exact absurd (sliceFileName_injective 1 0 hname) (by decide)

end Spark

end Mimo26

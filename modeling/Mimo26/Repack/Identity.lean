import Mathlib.Algebra.Ring.Nat
import Mathlib.Data.List.Sort
import Mimo26.Repack.Manifest
import Mimo26.Repack.Sha256

/-!
# Identity readback

Checking the slice files of a directory against the manifest beside them, and loading one slice with
its declared identity checked (`identity.rs`).

## Main definitions

* `SliceDir` — a directory: its manifest, and its files by name
* `FileStatus`, `ReadbackReport`, `verifyDir` — the check of every file, by name, size and hash
* `loadSlice` — one slice, whose entry must be the only one of its file and name itself rightly

## Main results

* `read_of_verifyDir` — a readback without a failure found every listed file whole
* `loadSlice_identified` — a slice that loads has the identity of its own numbers
-/

namespace Mimo26

namespace Repack

open Result

/-- A slice directory. -/
structure SliceDir where
  /-- What reading `manifest.json` gives. -/
  manifest : Except RepackError Manifest
  /-- The length of a file in the directory. -/
  len : String → Option ℕ
  /-- The bytes of a file, or why it cannot be read. -/
  read : String → Except String (List UInt8)
  /-- The names in the directory. -/
  names : Except String (List String)
  len_read : ∀ file bytes, read file = .ok bytes → len file = some bytes.length

/-! ### Readback -/

/-- What the readback found of a file. -/
inductive FileStatus where
  | match (file sha256 : String) (bytes : ℕ)
  | shaMismatch (file want got : String)
  | sizeMismatch (file : String) (want got : ℕ)
  | missing (file : String)
  | unlisted (file : String)
  deriving DecidableEq, Repr

namespace FileStatus

def isMatch : FileStatus → Bool
  | .match .. => true
  | _ => false

def file : FileStatus → String
  | .match file .. | shaMismatch file .. | sizeMismatch file .. | missing file | unlisted file =>
    file

end FileStatus

structure ReadbackReport where
  files : List FileStatus
  matchedBytes : ℕ
  deriving DecidableEq, Repr

namespace ReadbackReport

def allMatch (r : ReadbackReport) : Bool := r.files.all FileStatus.isMatch

def matched (r : ReadbackReport) : ℕ := r.files.countP FileStatus.isMatch

def firstFailure (r : ReadbackReport) : Option FileStatus := r.files.find? fun f => !f.isMatch

/-- The report, or its first failure as an error. -/
def intoResult (r : ReadbackReport) : Except RepackError ReadbackReport :=
  match r.firstFailure with
  | none => .ok r
  | some (.shaMismatch file want got) => .error (.shaMismatch file want got)
  | some (.sizeMismatch file want got) => .error (.sliceSize file want got)
  | some (.missing file) => .error (.missingSlice file)
  | some (.unlisted file) => .error (.unlistedSlice file)
  -- Not reached: a match is no failure.
  | some (.match file _ _) => .error (.badManifest file)

end ReadbackReport

/-- Check bytes against an entry. -/
def verifyBytes (bytes : List UInt8) (entry : SliceEntry) : FileStatus :=
  if bytes.length ≠ quarterSliceBytes then
    .sizeMismatch entry.file quarterSliceBytes bytes.length
  else
    let got := hex (sha256 bytes)
    if got ≠ entry.sha256 then .shaMismatch entry.file entry.sha256 got
    else .match entry.file got bytes.length

/-- Check the file of an entry. -/
def verifyOne (dir : SliceDir) (entry : SliceEntry) : FileStatus :=
  match dir.len entry.file with
  | none => .missing entry.file
  | some gotLen =>
    if gotLen ≠ quarterSliceBytes then .sizeMismatch entry.file quarterSliceBytes gotLen
    else
      match dir.read entry.file with
      | .error _ => .missing entry.file
      | .ok bytes =>
        let got := hex (sha256 bytes)
        if got ≠ entry.sha256 then .shaMismatch entry.file entry.sha256 got
        else .match entry.file got gotLen

def FileStatus.matchedBytes : FileStatus → ℕ
  | .match _ _ bytes => bytes
  | _ => 0

/-- Check every listed file, and that every slice file is listed. -/
def verifyDir (dir : SliceDir) (m : Manifest) : Except RepackError ReadbackReport := do
  m.validateGeometry
  let files := m.slices.map (verifyOne dir)
  let names ← dir.names.mapError (.io "")
  let resident := (names.filter (·.endsWith ".slice")).mergeSort fun a b => decide (a ≤ b)
  let listed := m.slices.map SliceEntry.file
  let unlisted := (resident.filter (· ∉ listed)).map FileStatus.unlisted
  return {
    files := (files ++ unlisted).mergeSort fun a b => decide (a.file ≤ b.file)
    matchedBytes := (files.map FileStatus.matchedBytes).sum }

/-- Load a slice, after checking that its entry is the only one of its file, and that its file name,
length, shard and source tensors are those of its layer, expert and rank. -/
def loadSlice (dir : SliceDir) (m : Manifest) (file : String) :
    Except RepackError (List UInt8) := do
  m.validateGeometry
  match m.slices.filter (·.file = file) with
  | [entry] => do
    checkLayer entry.layer
    checkExpert entry.expert
    checkRank entry.rank
    demand (entry.file = sliceFileName entry.layer entry.expert entry.rank ∧
        entry.bytes = quarterSliceBytes ∧ entry.shard = shardFile entry.expert ∧
        entry.tensors = sourceTensors entry.layer entry.expert)
      (.badManifest (file ++ ": slice identity mismatch"))
    let bytes ← (dir.read file).mapError (.io file)
    let _ ← ReadbackReport.intoResult ⟨[verifyBytes bytes entry], 0⟩
    return bytes
  | _ => throw (.badManifest (file ++ ": expected exactly one manifest entry"))

/-! ### What a readback without a failure has found -/

theorem all_isMatch_of_intoResult {r r' : ReadbackReport} (h : r.intoResult = .ok r') :
    ∀ f ∈ r.files, f.isMatch = true := by
  rw [ReadbackReport.intoResult] at h
  have hnone : r.firstFailure = none := by
    split at h
    · assumption
    all_goals cases h
  simpa [ReadbackReport.firstFailure] using hnone

theorem intoResult_of_all_isMatch {r : ReadbackReport} (h : ∀ f ∈ r.files, f.isMatch = true) :
    r.intoResult = .ok r := by
  have hnone : r.firstFailure = none := by simpa [ReadbackReport.firstFailure] using h
  rw [ReadbackReport.intoResult, hnone]

/-- A listed file that matches can be read, and has the size and the hash of a slice. -/
theorem isMatch_verifyOne {dir : SliceDir} {entry : SliceEntry} :
    (verifyOne dir entry).isMatch = true ↔ ∃ bytes, dir.read entry.file = .ok bytes ∧
      bytes.length = quarterSliceBytes ∧ hex (sha256 bytes) = entry.sha256 := by
  rw [verifyOne]
  constructor
  · intro h
    split at h
    · cases h
    split at h
    · cases h
    next len hlen hsize =>
    split at h
    · cases h
    next bytes hread =>
    dsimp only at h
    split at h
    · cases h
    next hsha =>
    refine ⟨bytes, hread, ?_, not_not.mp hsha⟩
    rw [dir.len_read _ _ hread] at hlen
    rw [Option.some.inj hlen]
    exact not_not.mp hsize
  · rintro ⟨bytes, hread, hsize, hsha⟩
    simp [dir.len_read _ _ hread, hread, hsize, hsha, FileStatus.isMatch]

/-- **Readback.** When it reports no failure, every listed file is a slice with the listed hash. -/
theorem read_of_verifyDir {dir : SliceDir} {m : Manifest} {r r' : ReadbackReport}
    (hverify : verifyDir dir m = .ok r) (h : r.intoResult = .ok r') :
    ∀ entry ∈ m.slices, ∃ bytes, dir.read entry.file = .ok bytes ∧
      bytes.length = quarterSliceBytes ∧ hex (sha256 bytes) = entry.sha256 := by
  intro entry hentry
  obtain ⟨-, -, hverify⟩ := bind_eq_ok.mp hverify
  obtain ⟨names, -, hverify⟩ := bind_eq_ok.mp hverify
  obtain rfl := Except.ok.inj hverify
  refine isMatch_verifyOne.mp (all_isMatch_of_intoResult h _ ?_)
  exact List.mem_mergeSort.mpr (List.mem_append_left _ (List.mem_map_of_mem hentry))

/-- A directory whose listed files are slices with the listed hashes, and that holds no other slice
file, passes the readback. -/
theorem verifyDir_eq_ok {dir : SliceDir} {m : Manifest} {names : List String}
    (hm : m.validateGeometry = .ok ()) (hnames : dir.names = .ok names)
    (hlisted : ∀ name ∈ names, name ∈ m.slices.map SliceEntry.file)
    (hfiles : ∀ entry ∈ m.slices, ∃ bytes, dir.read entry.file = .ok bytes ∧
      bytes.length = quarterSliceBytes ∧ hex (sha256 bytes) = entry.sha256) :
    ∃ r, verifyDir dir m = .ok r ∧ r.intoResult = .ok r := by
  refine ⟨_, bind_eq_ok.mpr ⟨(), hm, bind_eq_ok.mpr ⟨names, by rw [hnames]; rfl, rfl⟩⟩, ?_⟩
  refine intoResult_of_all_isMatch fun f hf => ?_
  obtain hf | hf := List.mem_append.mp (List.mem_mergeSort.mp hf)
  · obtain ⟨entry, hentry, rfl⟩ := List.mem_map.mp hf
    exact isMatch_verifyOne.mpr (hfiles entry hentry)
  · obtain ⟨name, hname, -⟩ := List.mem_map.mp hf
    obtain ⟨hname, hnot⟩ := List.mem_filter.mp hname
    have hmem := List.mem_of_mem_filter (List.mem_mergeSort.mp hname)
    exact absurd (hlisted name hmem) (by simpa using hnot)

/-! ### Identity -/

/-- The identity a slice's entry declares, as loading it is checked: the only entry of its file, and
the file name, the shard and the source tensors of the layer, expert and rank. -/
structure Identified (m : Manifest) (layer expert rank : ℕ) (entry : SliceEntry) : Prop where
  sole : m.slices.filter (·.file = entry.file) = [entry]
  moeLayer : firstMoeLayer ≤ layer ∧ layer < firstMoeLayer + moeLayers
  expert_lt : expert < expertsPerLayer
  rank_lt : rank < epRanks
  file : entry.file = sliceFileName layer expert rank
  shard : entry.shard = shardFile expert
  tensors : entry.tensors = sourceTensors layer expert

/-- A slice that loads has the identity of its own numbers. -/
theorem loadSlice_identified {dir : SliceDir} {m : Manifest} {file : String} {bytes : List UInt8}
    (h : loadSlice dir m file = .ok bytes) :
    ∃ entry, entry.file = file ∧ Identified m entry.layer entry.expert entry.rank entry ∧
      dir.read file = .ok bytes := by
  obtain ⟨-, -, h⟩ := bind_eq_ok.mp h
  split at h
  · next entry hsole =>
    obtain ⟨_, hlayer, h⟩ := bind_eq_ok.mp h
    obtain ⟨_, hexpert, h⟩ := bind_eq_ok.mp h
    obtain ⟨_, hrank, h⟩ := bind_eq_ok.mp h
    obtain ⟨_, hid, h⟩ := bind_eq_ok.mp h
    obtain ⟨bytes', hread, h⟩ := bind_eq_ok.mp h
    obtain ⟨-, -, h⟩ := bind_eq_ok.mp h
    obtain rfl := Except.ok.inj h
    obtain ⟨hname, -, hshard, htensors⟩ := demand_eq_ok.mp hid
    have hfile : entry.file = file := by
      have hmem : entry ∈ m.slices.filter (·.file = file) := by rw [hsole]; exact List.mem_cons_self
      simpa using (List.mem_filter.mp hmem).2
    refine ⟨entry, hfile, ⟨?_, demand_eq_ok.mp hlayer, demand_eq_ok.mp hexpert,
      demand_eq_ok.mp hrank, hname, hshard, htensors⟩, ?_⟩
    · rw [hfile]
      exact hsole
    · cases hres : dir.read file with
      | error e =>
        rw [hres] at hread
        cases hread
      | ok b =>
        rw [hres, Except.mapError] at hread
        rw [Except.ok.inj hread]
  · cases h

end Repack

end Mimo26

import Mimo26.Repack.ManifestReread

/-!
# The round trip of a manifest

When a manifest that is written is parsed to itself: the parser takes the bytes of a string one by
one for characters, and refuses a number that does not fit in an `i64`.

## Main definitions

* `LowerHex` — the digits of a digest

## Main results

* `parse_toJson_iff` — when a written manifest is parsed to itself
-/

namespace Mimo26

namespace Repack

open Result

/-! ### Numbers that are read back -/

theorem exists_readAs {α : Type} {l : List α} {part : α → Part} :
    (∃ vs, ReadAs (l.map part) vs) ↔ ∀ a ∈ l, ∃ v, (part a).value = some v := by
  simp only [readAs_map]
  induction l with
  | nil => exact iff_of_true ⟨[], .nil⟩ nofun
  | cons a l ih =>
    rw [List.forall_mem_cons, ← ih]
    constructor
    · rintro ⟨vs, hvs⟩
      cases hvs with
      | cons hv hvs => exact ⟨⟨_, hv⟩, ⟨_, hvs⟩⟩
    · rintro ⟨⟨v, hv⟩, ⟨vs, hvs⟩⟩
      exact ⟨v :: vs, .cons hv hvs⟩

theorem LayoutEntry.exists_value {r : LayoutEntry} :
    (∃ v, r.part.value = some v) ↔ ∀ n ∈ r.numbers, n < 2 ^ 63 := by
  simp only [LayoutEntry.value_part, LayoutEntry.numbers, List.forall_mem_cons, exists_and_left,
    exists_eq, and_true, List.not_mem_nil, false_imp_iff, implies_true]

theorem SourceTensor.exists_value {t : SourceTensor} :
    (∃ v, t.part.value = some v) ↔ ∀ n ∈ t.shape, n < 2 ^ 63 := by
  have hshape : (∃ ds, ReadAs (t.shape.map Part.nat) ds) ↔ ∀ n ∈ t.shape, n < 2 ^ 63 := by
    simp only [exists_readAs, nat_value, exists_and_left, exists_eq, and_true]
  rw [← hshape]
  simp only [SourceTensor.value_part]
  exact ⟨fun ⟨_, ds, hds, _⟩ => ⟨ds, hds⟩, fun ⟨ds, hds⟩ => ⟨_, ds, hds, rfl⟩⟩

theorem SliceEntry.exists_value {e : SliceEntry} :
    (∃ v, e.part.value = some v) ↔ ∀ n ∈ e.numbers, n < 2 ^ 63 := by
  simp only [SliceEntry.numbers, List.forall_mem_append, List.forall_mem_flatMap,
    ← SourceTensor.exists_value, ← exists_readAs, SliceEntry.value_part, List.forall_mem_cons,
    List.not_mem_nil, false_imp_iff, implies_true, and_true]
  exact ⟨fun ⟨_, h, ts, hts, _⟩ => ⟨h, ts, hts⟩, fun ⟨h, ts, hts⟩ => ⟨_, h, ts, hts, rfl⟩⟩

/-- A manifest is read back at all exactly if every number fits in an `i64`. -/
theorem Manifest.exists_value {m : Manifest} :
    (∃ v, m.part.value = some v) ↔ ∀ n ∈ m.numbers, n < 2 ^ 63 := by
  simp only [Manifest.numbers, List.forall_mem_append, List.forall_mem_flatMap,
    ← LayoutEntry.exists_value, ← SliceEntry.exists_value, ← exists_readAs, Manifest.value_part,
    List.forall_mem_map, List.forall_mem_cons, List.not_mem_nil, false_imp_iff, implies_true,
    and_true, and_assoc]
  constructor
  · rintro ⟨_, hversion, hgeometry, rows, slices, hrows, hslices, -⟩
    exact ⟨hversion, hgeometry, ⟨rows, hrows⟩, slices, hslices⟩
  · rintro ⟨hversion, hgeometry, ⟨rows, hrows⟩, slices, hslices⟩
    exact ⟨_, hversion, hgeometry, rows, slices, hrows, hslices, rfl⟩

/-! ### Digests -/

/-- 64 lowercase hexadecimal digits. -/
structure LowerHex (s : String) : Prop where
  length : s.toList.length = 64
  digits : ∀ c ∈ s.toList, ('0' ≤ c ∧ c ≤ '9') ∨ ('a' ≤ c ∧ c ≤ 'f')

theorem LowerHex.ascii {s : String} (h : LowerHex s) : Ascii s := by
  intro c hc
  rcases h.digits c hc with ⟨-, hle⟩ | ⟨-, hle⟩
  · exact Nat.lt_of_le_of_lt hle (by decide)
  · exact Nat.lt_of_le_of_lt hle (by decide)

theorem exists_hexVal {c : Char} (h : ('0' ≤ c ∧ c ≤ '9') ∨ ('a' ≤ c ∧ c ≤ 'f')) :
    ∃ n, hexVal c = .ok n := by
  rw [hexVal]
  by_cases hdigit : '0' ≤ c ∧ c ≤ '9'
  · rw [if_pos hdigit]
    exact ⟨_, rfl⟩
  · rw [if_neg hdigit, if_pos (h.resolve_left hdigit)]
    exact ⟨_, rfl⟩

theorem LowerHex.exists_unhex {s : String} (h : LowerHex s) : ∃ digest, unhex s = .ok digest := by
  have hseen : latin1 (Utf8.encode s.toList) = s.toList := seen_of_ascii h.ascii
  have hdigit (i : ℕ) : ∃ n, hexVal (s.toList.getD i '0') = .ok n := by
    refine exists_hexVal ?_
    rw [List.getD_eq_getElem?_getD]
    cases hi : s.toList[i]? with
    | none => exact .inl (by decide)
    | some c => exact h.digits c (List.mem_of_getElem? hi)
  rw [unhex, hseen, if_neg (not_not.mpr h.length)]
  refine exists_mapM_eq_ok fun i _ => ?_
  obtain ⟨hi, hhi⟩ := hdigit (i * 2)
  obtain ⟨lo, hlo⟩ := hdigit (i * 2 + 1)
  rw [hhi, ok_bind, hlo, ok_bind]
  exact ⟨_, rfl⟩

/-! ### The round trip -/

theorem Manifest.Pinned.geometry_ne {m : Manifest} (h : m.Pinned) : m.geometry ≠ ∅ := by
  intro hempty
  have hhidden := h.geometry ("hidden", hidden) (by decide)
  rw [hempty, Finmap.lookup_empty] at hhidden
  exact absurd hhidden nofun

/-- **What a written manifest is parsed to**, if to anything. -/
theorem parse_toJson {m m' : Manifest} (hvalid : m.validateGeometry = .ok ())
    (hsha : ∀ e ∈ m.slices, LowerHex e.sha256) :
    Manifest.parse m.toJson = .ok m' ↔ (∀ n ∈ m.numbers, n < 2 ^ 63) ∧ m.reread = m' := by
  have hne := (Manifest.pinned_iff.mpr hvalid).geometry_ne
  have hunhex : ∀ e ∈ m.slices, ∃ digest, unhex (Repack.reread e.sha256) = .ok digest := by
    intro e he
    rw [Repack.reread_eq_self.mpr (hsha e he).ascii]
    exact (hsha e he).exists_unhex
  rw [← Manifest.exists_value, Manifest.parse, bind_eq_ok]
  simp only [jsonParse_toJson hne]
  constructor
  · rintro ⟨v, hv, hm⟩
    rw [Manifest.ofJson_part hvalid hunhex hv] at hm
    exact ⟨⟨v, hv⟩, Except.ok.inj hm⟩
  · rintro ⟨⟨v, hv⟩, rfl⟩
    exact ⟨v, hv, Manifest.ofJson_part hvalid hunhex hv⟩

/-- **When a written manifest is parsed to itself**: its strings are ASCII, and its numbers are
below `2 ^ 63`. -/
theorem parse_toJson_iff {m : Manifest} (hvalid : m.validateGeometry = .ok ())
    (hsha : ∀ e ∈ m.slices, LowerHex e.sha256) :
    Manifest.parse m.toJson = .ok m ↔
      (∀ s ∈ m.texts, Ascii s) ∧ ∀ n ∈ m.numbers, n < 2 ^ 63 := by
  rw [parse_toJson hvalid hsha, Manifest.reread_eq_self, and_comm]

/-! ### Manifests of one slice -/

theorem mem_geometry_new {x : String × ℕ} (hx : x ∈ OrderedMap.inOrder Manifest.new.geometry) :
    x ∈ geometryFields :=
  OrderedMap.mem_of_lookup_ofList (OrderedMap.mem_inOrder.mp hx)

/-- The strings of a compiled-in manifest are ASCII but for those of its slices. -/
theorem ascii_new {slices : List SliceEntry} (h : ∀ e ∈ slices, ∀ s ∈ e.texts, Ascii s) :
    ∀ s ∈ ({ Manifest.new with slices := slices } : Manifest).texts, Ascii s := by
  have hkeys : ∀ x ∈ geometryFields, Ascii x.1 := by decide
  have hrows : ∀ r ∈ Manifest.new.layout, ∀ s ∈ r.texts, Ascii s := by decide
  simp only [Manifest.texts, List.forall_mem_append, List.forall_mem_flatMap, List.forall_mem_map]
  exact ⟨⟨⟨by decide, fun x hx => hkeys x (mem_geometry_new hx)⟩, hrows⟩, h⟩

/-- Its numbers are small but for those of its slices. -/
theorem small_new {slices : List SliceEntry} (h : ∀ e ∈ slices, ∀ n ∈ e.numbers, n < 2 ^ 63) :
    ∀ n ∈ ({ Manifest.new with slices := slices } : Manifest).numbers, n < 2 ^ 63 := by
  have hgeometry : ∀ x ∈ geometryFields, x.2 < 2 ^ 63 := by decide
  have hrows : ∀ r ∈ Manifest.new.layout, ∀ n ∈ r.numbers, n < 2 ^ 63 := by decide
  simp only [Manifest.numbers, List.forall_mem_append, List.forall_mem_flatMap, List.forall_mem_map]
  exact ⟨⟨⟨by decide, fun x hx => hgeometry x (mem_geometry_new hx)⟩, hrows⟩, h⟩

/-- The slice of the first expert's first rank under a file name. -/
def firstSlice (file : String) : SliceEntry where
  file := file
  sha256 := "0000000000000000000000000000000000000000000000000000000000000000"
  bytes := quarterSliceBytes
  layer := 1
  expert := 0
  rank := 0
  shard := "model_pp0_ep0_shard0.safetensors"
  tensors := sourceTensors 1 0

/-- The manifest of that slice. -/
def oneSlice (file : String) : Manifest := { Manifest.new with slices := [firstSlice file] }

theorem lowerHex_oneSlice (file : String) : ∀ e ∈ (oneSlice file).slices, LowerHex e.sha256 := by
  intro e he
  have hzeros : LowerHex "0000000000000000000000000000000000000000000000000000000000000000" :=
    ⟨by decide, by decide⟩
  obtain rfl := List.mem_singleton.mp he
  exact hzeros

theorem parse_toJson_oneSlice :
    Manifest.parse (oneSlice "L01_E000_R0.slice").toJson = .ok (oneSlice "L01_E000_R0.slice") := by
  refine (parse_toJson_iff (validateGeometry_new _) (lowerHex_oneSlice _)).mpr ⟨?_, ?_⟩
  · exact ascii_new (by decide)
  · exact small_new (by decide)

/-- **A file name that is not ASCII does not come back.** -/
theorem parse_toJson_accented : (oneSlice "é.slice").validateGeometry = .ok () ∧
    (∀ e ∈ (oneSlice "é.slice").slices, LowerHex e.sha256) ∧
    Manifest.parse (oneSlice "é.slice").toJson ≠ .ok (oneSlice "é.slice") := by
  refine ⟨validateGeometry_new _, lowerHex_oneSlice _, fun h => ?_⟩
  obtain ⟨-, hself⟩ := (parse_toJson (validateGeometry_new _) (lowerHex_oneSlice _)).mp h
  have hfile : Ascii "é.slice" := Manifest.reread_eq_self.mp hself _
    (List.mem_append_right _ (List.mem_flatMap.mpr ⟨_, List.mem_singleton_self _, List.mem_cons_self⟩))
  revert hfile
  decide

end Repack

end Mimo26

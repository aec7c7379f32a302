import Mimo26.Repack.ManifestSpelling

/-!
# What a written manifest is read back as

A written manifest is read back with every string reread, if every number fits in an `i64`.

## Main definitions

* `Manifest.reread` — the manifest with its strings reread
* `Manifest.texts`, `Manifest.numbers` — its strings and its numbers

## Main results

* `Manifest.ofJson_part` — what is read back of a written manifest
* `Manifest.reread_eq_self` — only ASCII strings are read back as they were
-/

namespace Mimo26

namespace Repack

open Result

/-! ### Objects and lists -/

theorem perm_foldl_insertField (fs map : List (String × Json)) :
    (fs.foldl insertField map).Perm (fs ++ map) := by
  induction fs generalizing map with
  | nil => exact .refl map
  | cons x fs ih =>
    refine (ih _).trans ?_
    refine (List.Perm.append_left fs (List.perm_orderedInsert _ x map)).trans ?_
    exact List.perm_middle

theorem getField_eq_some {fs : List (String × Json)} (hfs : (fs.map Prod.fst).Nodup) {k : String}
    {v : Json} : getField fs k = some v ↔ (k, v) ∈ fs := by
  rw [getField, Option.map_eq_some_iff]
  constructor
  · rintro ⟨⟨k', v'⟩, hfind, rfl⟩
    have hk := List.find?_some hfind
    rw [decide_eq_true_eq] at hk
    exact hk ▸ List.mem_of_find?_eq_some hfind
  · intro hmem
    cases hfind : fs.find? fun x => decide (x.1 = k) with
    | none => exact absurd (decide_eq_true rfl) (List.find?_eq_none.mp hfind _ hmem)
    | some x =>
      have hk := List.find?_some hfind
      rw [decide_eq_true_eq] at hk
      have hx := List.mem_of_find?_eq_some hfind
      refine ⟨x, rfl, ?_⟩
      have heq := List.inj_on_of_nodup_map hfs hx hmem hk
      rw [heq]

/-- A map has the fields that were put into it. -/
theorem getField_foldl {fs : List (String × Json)} (hfs : (fs.map Prod.fst).Nodup) (k : String) :
    getField (fs.foldl insertField []) k = getField fs k := by
  have hperm := perm_foldl_insertField fs []
  rw [List.append_nil] at hperm
  have hfs' : ((fs.foldl insertField []).map Prod.fst).Nodup :=
    (hperm.map Prod.fst).nodup_iff.mpr hfs
  refine Option.ext fun v => ?_
  rw [getField_eq_some hfs', getField_eq_some hfs, hperm.mem_iff]

theorem getField_cons (x : String × Json) (fs : List (String × Json)) (k : String) :
    getField (x :: fs) k = if x.1 = k then some x.2 else getField fs k := by
  rw [getField, List.find?_cons]
  split_ifs with h
  · rw [decide_eq_true h]
    rfl
  · rw [decide_eq_false h]
    rfl

/-- The object of some fields. -/
def Json.ofFields (fs : List (String × Json)) : Json := .object (fs.foldl insertField [])

/-- What a list of parts is read back as. -/
abbrev ReadAs (ps : List Part) (vs : List Json) : Prop :=
  List.Forall₂ (fun p v => p.value = some v) ps vs

theorem mapM_eq_some {α β : Type} {f : α → Option β} {l : List α} {bs : List β} :
    l.mapM f = some bs ↔ List.Forall₂ (fun a b => f a = some b) l bs := by
  induction l generalizing bs with
  | nil =>
    rw [List.mapM_nil, List.forall₂_nil_left_iff]
    exact ⟨fun h => (Option.some.inj h).symm, fun h => h ▸ rfl⟩
  | cons a l ih =>
    rw [List.mapM_cons, List.forall₂_cons_left_iff]
    simp only [Option.bind_eq_bind, Option.bind_eq_some_iff, ih]
    constructor
    · rintro ⟨b, hb, bs', hbs', h⟩
      exact ⟨b, bs', hb, hbs', (Option.some.inj h).symm⟩
    · rintro ⟨b, bs', hb, hbs', rfl⟩
      exact ⟨b, hb, bs', hbs', rfl⟩

theorem Part.list_value {lead sep close : List Char} {ps : List Part} {v : Json} :
    (Part.list lead sep close ps).value = some v ↔ ∃ vs, ReadAs ps vs ∧ v = .array vs := by
  show (ps.mapM Part.value).map Json.array = some v ↔ _
  rw [Option.map_eq_some_iff]
  constructor
  · rintro ⟨vs, hvs, rfl⟩
    exact ⟨vs, mapM_eq_some.mp hvs, rfl⟩
  · rintro ⟨vs, hvs, rfl⟩
    exact ⟨vs, mapM_eq_some.mpr hvs, rfl⟩

/-- What the fields of an object are read back as. -/
abbrev FieldsAs (fields : List (String × Part)) (fs : List (String × Json)) : Prop :=
  List.Forall₂ (fun a x => ∃ v, a.2.value = some v ∧ x = (reread a.1, v)) fields fs

theorem Part.object_value {lead sep close : List Char} {fields : List (String × Part)} {v : Json} :
    (Part.object lead sep close fields).value = some v ↔
      ∃ fs, FieldsAs fields fs ∧ v = .ofFields fs := by
  have hfield (a : String × Part) (x : String × Json) :
      (a.2.value.map fun v => (reread a.1, v)) = some x ↔
        ∃ v, a.2.value = some v ∧ x = (reread a.1, v) := by
    rw [Option.map_eq_some_iff]
    simp only [eq_comm]
  show (fields.mapM fun (a : String × Part) => a.2.value.map fun v => (reread a.1, v)).map
    Json.ofFields = some v ↔ _
  rw [Option.map_eq_some_iff]
  simp only [mapM_eq_some, hfield, eq_comm (b := v)]

theorem nat_value {n : ℕ} {v : Json} :
    (Part.nat n).value = some v ↔ n < 2 ^ 63 ∧ v = .u64 n := by
  show rereadNat n = some v ↔ _
  rw [rereadNat]
  split
  · next h => exact ⟨fun hv => ⟨h, (Option.some.inj hv).symm⟩, fun hv => congrArg some hv.2.symm⟩
  · next h => exact ⟨fun hv => (by cases hv), fun hv => absurd hv.1 h⟩

theorem str_value {s : String} {v : Json} :
    (Part.str s).value = some v ↔ v = .str (reread s) := by
  show some _ = some v ↔ _
  rw [Option.some.injEq, eq_comm]

/-- A list of parts of which each is read back. -/
theorem readAs_map {α : Type} {l : List α} {part : α → Part} {vs : List Json} :
    ReadAs (l.map part) vs ↔ List.Forall₂ (fun a v => (part a).value = some v) l vs :=
  List.forall₂_map_left_iff

/-- Items that are read back are read to what they are read back as. -/
theorem mapM_ofJson {α β : Type} {l : List α} {part : α → Part} {f : Json → Except RepackError β}
    {g : α → β} {vs : List Json} (hvs : ReadAs (l.map part) vs)
    (h : ∀ a ∈ l, ∀ v, (part a).value = some v → f v = .ok (g a)) :
    vs.mapM f = .ok (l.map g) := by
  rw [readAs_map] at hvs
  induction hvs with
  | nil => rfl
  | @cons a v l vs hv hvs ih =>
    rw [List.mapM_cons, h a List.mem_cons_self v hv,
      ih fun b hb => h b (List.mem_cons_of_mem a hb)]
    rfl

/-! ### Reread records -/

def LayoutEntry.reread (r : LayoutEntry) : LayoutEntry :=
  { r with proj := Repack.reread r.proj, region := Repack.reread r.region }

def SourceTensor.reread (t : SourceTensor) : SourceTensor :=
  { t with name := Repack.reread t.name, dtype := Repack.reread t.dtype }

def SliceEntry.reread (e : SliceEntry) : SliceEntry :=
  { e with
    file := Repack.reread e.file
    sha256 := Repack.reread e.sha256
    shard := Repack.reread e.shard
    tensors := e.tensors.map SourceTensor.reread }

def Manifest.reread (m : Manifest) : Manifest where
  format := Repack.reread m.format
  version := m.version
  generatedBy := Repack.reread m.generatedBy
  geometry := OrderedMap.ofList ((OrderedMap.inOrder m.geometry).map fun x =>
    (Repack.reread x.1, x.2))
  layout := m.layout.map LayoutEntry.reread
  slices := m.slices.map SliceEntry.reread

/-- A field name is read back as it was. -/
theorem reread_lit {s : String} (h : ∀ c ∈ s.toList, c.toNat < 128) : reread s = s :=
  reread_eq_self.mpr h

theorem fieldsAs_nil {fs : List (String × Json)} : FieldsAs [] fs ↔ fs = [] :=
  List.forall₂_nil_left_iff

/-- A field whose name is ASCII. -/
theorem fieldsAs_cons {k : String} {p : Part} {fields : List (String × Part)}
    {fs : List (String × Json)} (hk : ∀ c ∈ k.toList, c.toNat < 128) :
    FieldsAs ((k, p) :: fields) fs ↔
      ∃ v fs', p.value = some v ∧ FieldsAs fields fs' ∧ fs = (k, v) :: fs' := by
  rw [FieldsAs, List.forall₂_cons_left_iff]
  simp only [reread_lit hk]
  constructor
  · rintro ⟨_, fs', ⟨v, hv, rfl⟩, hfs', rfl⟩
    exact ⟨v, fs', hv, hfs', rfl⟩
  · rintro ⟨v, fs', hv, hfs', rfl⟩
    exact ⟨_, fs', ⟨v, hv, rfl⟩, hfs', rfl⟩

/-- The fields of an object whose keys differ. -/
theorem asObject_ofFields (fs : List (String × Json)) (hfs : (fs.map Prod.fst).Nodup) :
    ∃ o, (Json.ofFields fs).asObject = some o ∧ ∀ k, getField o k = getField fs k :=
  ⟨_, rfl, getField_foldl hfs⟩

theorem need_some {α : Type} (a : α) (text : String) : need (some a) text = .ok a := rfl

theorem LayoutEntry.value_part {r : LayoutEntry} {v : Json} : r.part.value = some v ↔
    (r.off < 2 ^ 63 ∧ r.len < 2 ^ 63) ∧ v = .ofFields [("proj", .str (Repack.reread r.proj)),
      ("region", .str (Repack.reread r.region)), ("off", .u64 r.off), ("len", .u64 r.len)] := by
  unfold LayoutEntry.part
  simp (disch := decide) only [Part.object_value, fieldsAs_cons, fieldsAs_nil, str_value, nat_value]
  constructor
  · rintro ⟨fs, ⟨_, _, rfl, ⟨_, _, rfl, ⟨_, _, ⟨hoff, rfl⟩, ⟨_, _, ⟨hlen, rfl⟩, rfl, rfl⟩, rfl⟩,
      rfl⟩, rfl⟩, rfl⟩
    exact ⟨⟨hoff, hlen⟩, rfl⟩
  · rintro ⟨⟨hoff, hlen⟩, rfl⟩
    exact ⟨_, ⟨_, _, rfl, ⟨_, _, rfl, ⟨_, _, ⟨hoff, rfl⟩, ⟨_, _, ⟨hlen, rfl⟩, rfl, rfl⟩, rfl⟩,
      rfl⟩, rfl⟩, rfl⟩

theorem LayoutEntry.ofJson_part {r : LayoutEntry} {v : Json} (h : r.part.value = some v) :
    LayoutEntry.ofJson v = .ok r.reread := by
  obtain ⟨-, rfl⟩ := LayoutEntry.value_part.mp h
  obtain ⟨o, ho, hget⟩ := asObject_ofFields [("proj", .str (Repack.reread r.proj)),
    ("region", .str (Repack.reread r.region)), ("off", .u64 r.off), ("len", .u64 r.len)] (by simp)
  rw [LayoutEntry.ofJson, ho, need_some, ok_bind]
  simp [getStr, getU64, hget, getField_cons, Json.asStr, Json.asU64, need_some, LayoutEntry.reread]

theorem SourceTensor.value_part {t : SourceTensor} {v : Json} : t.part.value = some v ↔
    ∃ ds, ReadAs (t.shape.map .nat) ds ∧ v = .ofFields [("name", .str (Repack.reread t.name)),
      ("shape", .array ds), ("dtype", .str (Repack.reread t.dtype))] := by
  unfold SourceTensor.part
  simp (disch := decide) only [Part.object_value, fieldsAs_cons, fieldsAs_nil, str_value,
    Part.list_value]
  constructor
  · rintro ⟨fs, ⟨_, _, rfl, ⟨_, _, ⟨ds, hds, rfl⟩, ⟨_, _, rfl, rfl, rfl⟩, rfl⟩, rfl⟩, rfl⟩
    exact ⟨ds, hds, rfl⟩
  · rintro ⟨ds, hds, rfl⟩
    exact ⟨_, ⟨_, _, rfl, ⟨_, _, ⟨ds, hds, rfl⟩, ⟨_, _, rfl, rfl, rfl⟩, rfl⟩, rfl⟩, rfl⟩

/-- A list of numbers is read back as it was. -/
theorem map_asU64 {ns : List ℕ} {ds : List Json} (h : ReadAs (ns.map .nat) ds) (n₀ : ℕ) :
    (ds.map fun d => d.asU64.getD n₀) = ns := by
  rw [readAs_map] at h
  induction h with
  | nil => rfl
  | cons hd _ ih =>
    obtain ⟨-, rfl⟩ := nat_value.mp hd
    rw [List.map_cons, ih]
    rfl

theorem SourceTensor.ofJson_part {t : SourceTensor} {v : Json} (file : String)
    (h : t.part.value = some v) : SourceTensor.ofJson file v = .ok t.reread := by
  obtain ⟨ds, hds, rfl⟩ := SourceTensor.value_part.mp h
  obtain ⟨o, ho, hget⟩ := asObject_ofFields [("name", .str (Repack.reread t.name)),
    ("shape", .array ds), ("dtype", .str (Repack.reread t.dtype))] (by simp)
  rw [SourceTensor.ofJson, ho, need_some, ok_bind]
  simp [getStr, getArray, hget, getField_cons, Json.asStr, Json.asArray, need_some,
    SourceTensor.reread, map_asU64 hds]

/-- The fields of a slice as they are read back, with the tensors `ts`. -/
def SliceEntry.fieldsWith (e : SliceEntry) (ts : List Json) : List (String × Json) :=
  [("file", .str (Repack.reread e.file)), ("sha256", .str (Repack.reread e.sha256)),
    ("bytes", .u64 e.bytes), ("layer", .u64 e.layer), ("expert", .u64 e.expert),
    ("rank", .u64 e.rank), ("source", .ofFields [("shard", .str (Repack.reread e.shard)),
      ("tensors", .array ts)])]

theorem SliceEntry.value_part {e : SliceEntry} {v : Json} : e.part.value = some v ↔
    (e.bytes < 2 ^ 63 ∧ e.layer < 2 ^ 63 ∧ e.expert < 2 ^ 63 ∧ e.rank < 2 ^ 63) ∧
      ∃ ts, ReadAs (e.tensors.map SourceTensor.part) ts ∧ v = .ofFields (e.fieldsWith ts) := by
  unfold SliceEntry.part SliceEntry.source
  simp (disch := decide) only [Part.object_value, fieldsAs_cons, fieldsAs_nil, str_value, nat_value,
    Part.list_value]
  constructor
  · rintro ⟨fs, ⟨_, _, rfl, ⟨_, _, rfl, ⟨_, _, ⟨hbytes, rfl⟩, ⟨_, _, ⟨hlayer, rfl⟩,
      ⟨_, _, ⟨hexpert, rfl⟩, ⟨_, _, ⟨hrank, rfl⟩, ⟨_, _, ⟨_, ⟨_, _, rfl, ⟨_, _, ⟨ts, hts, rfl⟩,
      rfl, rfl⟩, rfl⟩, rfl⟩, rfl, rfl⟩, rfl⟩, rfl⟩, rfl⟩, rfl⟩, rfl⟩, rfl⟩, rfl⟩
    exact ⟨⟨hbytes, hlayer, hexpert, hrank⟩, ts, hts, rfl⟩
  · rintro ⟨⟨hbytes, hlayer, hexpert, hrank⟩, ts, hts, rfl⟩
    exact ⟨_, ⟨_, _, rfl, ⟨_, _, rfl, ⟨_, _, ⟨hbytes, rfl⟩, ⟨_, _, ⟨hlayer, rfl⟩,
      ⟨_, _, ⟨hexpert, rfl⟩, ⟨_, _, ⟨hrank, rfl⟩, ⟨_, _, ⟨_, ⟨_, _, rfl, ⟨_, _, ⟨ts, hts, rfl⟩,
      rfl, rfl⟩, rfl⟩, rfl⟩, rfl, rfl⟩, rfl⟩, rfl⟩, rfl⟩, rfl⟩, rfl⟩, rfl⟩, rfl⟩

theorem SliceEntry.ofJson_part {e : SliceEntry} {v : Json} {digest : List UInt8}
    (h : e.part.value = some v) (hsha : unhex (Repack.reread e.sha256) = .ok digest) :
    SliceEntry.ofJson v = .ok e.reread := by
  obtain ⟨-, ts, hts, rfl⟩ := SliceEntry.value_part.mp h
  obtain ⟨o, ho, hget⟩ := asObject_ofFields (e.fieldsWith ts) (by simp [SliceEntry.fieldsWith])
  obtain ⟨source, hsource, hgetSource⟩ := asObject_ofFields
    [("shard", .str (Repack.reread e.shard)), ("tensors", .array ts)] (by simp)
  have htensors := mapM_ofJson hts fun t _ u hu =>
    SourceTensor.ofJson_part (Repack.reread e.file) hu
  rw [SliceEntry.ofJson, ho, need_some, ok_bind]
  simp [SliceEntry.fieldsWith, getStr, getU64, getObject, getArray, hget, hsource, hgetSource,
    getField_cons, Json.asStr, Json.asU64, Json.asArray, need_some, hsha, Except.mapError, htensors,
    SliceEntry.reread]

/-! ### The geometry -/

/-- What is read back of a geometry. -/
def geometryAs (l : List (String × ℕ)) : List (String × Json) :=
  l.map fun x => (reread x.1, .u64 x.2)

theorem fieldsAs_geometry {l : List (String × ℕ)} {fs : List (String × Json)} :
    FieldsAs (l.map fun x => (x.1, .nat x.2)) fs ↔ (∀ x ∈ l, x.2 < 2 ^ 63) ∧ fs = geometryAs l := by
  have hfield (x : String × ℕ) (y : String × Json) :
      (∃ v, (Part.nat x.2).value = some v ∧ y = (reread x.1, v)) ↔
        x.2 < 2 ^ 63 ∧ y = (reread x.1, .u64 x.2) := by
    simp only [nat_value]
    constructor
    · rintro ⟨_, ⟨hx, rfl⟩, rfl⟩
      exact ⟨hx, rfl⟩
    · rintro ⟨hx, rfl⟩
      exact ⟨_, ⟨hx, rfl⟩, rfl⟩
  rw [FieldsAs, List.forall₂_map_left_iff]
  simp only [hfield]
  induction l generalizing fs with
  | nil =>
    rw [List.forall₂_nil_left_iff]
    exact ⟨fun h => ⟨nofun, h⟩, And.right⟩
  | cons x l ih =>
    rw [List.forall₂_cons_left_iff, List.forall_mem_cons]
    simp only [ih]
    constructor
    · rintro ⟨_, _, ⟨hx, rfl⟩, ⟨hl, rfl⟩, rfl⟩
      exact ⟨⟨hx, hl⟩, rfl⟩
    · rintro ⟨⟨hx, hl⟩, rfl⟩
      exact ⟨_, _, ⟨hx, rfl⟩, ⟨hl, rfl⟩, rfl⟩

/-- Rereading the keys keeps them apart. -/
theorem nodup_reread {α β : Type} (g : α → β) {l : List (String × α)}
    (hl : (l.map Prod.fst).Nodup) :
    ((l.map fun x => (reread x.1, g x.2)).map Prod.fst).Nodup := by
  have hkeys : (l.map fun x => (reread x.1, g x.2)).map Prod.fst = (l.map Prod.fst).map reread := by
    rw [List.map_map, List.map_map]
    rfl
  rw [hkeys]
  exact hl.map reread_injective

/-- The fields of a geometry are read to its map. -/
theorem mapM_geometryField {l : List (String × ℕ)} (hl : (l.map Prod.fst).Nodup) :
    ∃ gs, ((geometryAs l).foldl insertField []).mapM geometryField = .ok gs ∧
      OrderedMap.ofList gs = OrderedMap.ofList (l.map fun x => (reread x.1, x.2)) := by
  have hperm := perm_foldl_insertField (geometryAs l) []
  rw [List.append_nil] at hperm
  have hback : (geometryAs l).map (fun x => (x.1, x.2.asU64.getD 0)) =
      l.map fun x => (reread x.1, x.2) := by
    rw [geometryAs, List.map_map]
    rfl
  refine ⟨_, mapM_eq_ok (g := fun x => (x.1, x.2.asU64.getD 0)) fun x hx => ?_, ?_⟩
  · obtain ⟨y, -, rfl⟩ := List.mem_map.mp (hperm.mem_iff.mp hx)
    rfl
  · rw [← hback]
    refine OrderedMap.ofList_perm (hperm.map _) ?_
    rw [List.map_map]
    exact (hperm.map Prod.fst).nodup_iff.mpr (nodup_reread Json.u64 hl)

/-! ### The manifest -/

/-- The fields of a manifest as they are read back, with the rows and the slices given. -/
def Manifest.fieldsWith (m : Manifest) (rows slices : List Json) : List (String × Json) :=
  [("format", .str (Repack.reread m.format)), ("version", .u64 m.version),
    ("generated_by", .str (Repack.reread m.generatedBy)),
    ("geometry", .ofFields (geometryAs (OrderedMap.inOrder m.geometry))), ("layout", .array rows),
    ("slices", .array slices)]

theorem Manifest.value_part {m : Manifest} {v : Json} : m.part.value = some v ↔
    (m.version < 2 ^ 63 ∧ ∀ x ∈ OrderedMap.inOrder m.geometry, x.2 < 2 ^ 63) ∧
      ∃ rows slices, ReadAs (m.layout.map LayoutEntry.part) rows ∧
        ReadAs (m.slices.map SliceEntry.part) slices ∧ v = .ofFields (m.fieldsWith rows slices) := by
  unfold Manifest.part Manifest.geometryPart
  simp (disch := decide) only [Part.object_value, fieldsAs_cons, fieldsAs_nil, str_value, nat_value,
    Part.list_value, fieldsAs_geometry]
  constructor
  · rintro ⟨fs, ⟨_, _, rfl, ⟨_, _, ⟨hversion, rfl⟩, ⟨_, _, rfl, ⟨_, _, ⟨_, ⟨hgeometry, rfl⟩, rfl⟩,
      ⟨_, _, ⟨rows, hrows, rfl⟩, ⟨_, _, ⟨slices, hslices, rfl⟩, rfl, rfl⟩, rfl⟩, rfl⟩, rfl⟩, rfl⟩,
      rfl⟩, rfl⟩
    exact ⟨⟨hversion, hgeometry⟩, rows, slices, hrows, hslices, rfl⟩
  · rintro ⟨⟨hversion, hgeometry⟩, rows, slices, hrows, hslices, rfl⟩
    exact ⟨_, ⟨_, _, rfl, ⟨_, _, ⟨hversion, rfl⟩, ⟨_, _, rfl, ⟨_, _, ⟨_, ⟨hgeometry, rfl⟩, rfl⟩,
      ⟨_, _, ⟨rows, hrows, rfl⟩, ⟨_, _, ⟨slices, hslices, rfl⟩, rfl, rfl⟩, rfl⟩, rfl⟩, rfl⟩, rfl⟩,
      rfl⟩, rfl⟩

/-- The fields of the geometry are found under their names. -/
theorem lookup_reread (m : Manifest) {k : String} (hk : ∀ c ∈ k.toList, c.toNat < 128) :
    m.reread.geometry.lookup k = m.geometry.lookup k := by
  have hnodup : (((OrderedMap.inOrder m.geometry).map fun x =>
      (Repack.reread x.1, x.2)).map Prod.fst).Nodup :=
    nodup_reread id (OrderedMap.nodup_inOrder m.geometry)
  refine Option.ext fun n => ?_
  show (OrderedMap.ofList _).lookup k = some n ↔ _
  rw [OrderedMap.lookup_ofList hnodup, ← OrderedMap.mem_inOrder, List.mem_map]
  constructor
  · rintro ⟨x, hx, heq⟩
    obtain ⟨hkey, rfl⟩ := Prod.mk.inj heq
    obtain rfl := reread_injective (hkey.trans (reread_lit hk).symm)
    exact hx
  · intro hx
    exact ⟨_, hx, by rw [reread_lit hk]⟩

/-- A pinned manifest is read back pinned. -/
theorem Manifest.Pinned.reread {m : Manifest} (h : m.Pinned) : m.reread.Pinned := by
  refine ⟨?_, h.version, fun x hx => ?_, ?_⟩
  · show Repack.reread m.format = _
    rw [h.format, reread_lit (by decide)]
  · have hascii : ∀ x ∈ geometryFields, ∀ c ∈ x.1.toList, c.toNat < 128 := by decide
    rw [lookup_reread m (hascii x hx), h.geometry x hx]
  · have hrows : ∀ r ∈ layoutTable.map LayoutRow.entry, r.reread = r := by
      intro r hr
      have hascii : ∀ r ∈ layoutTable.map LayoutRow.entry,
          (∀ c ∈ r.proj.toList, c.toNat < 128) ∧ ∀ c ∈ r.region.toList, c.toNat < 128 := by
        decide
      rw [LayoutEntry.reread, reread_lit (hascii r hr).1, reread_lit (hascii r hr).2]
    show m.layout.map LayoutEntry.reread = _
    rw [h.layout]
    rw [List.map_congr_left hrows, List.map_id']

/-- **What is read back of a written manifest** that passes its check. -/
theorem Manifest.ofJson_part {m : Manifest} {v : Json} (hvalid : m.validateGeometry = .ok ())
    (hsha : ∀ e ∈ m.slices, ∃ digest, unhex (Repack.reread e.sha256) = .ok digest)
    (h : m.part.value = some v) : Manifest.ofJson v = .ok m.reread := by
  have hpinned := (Manifest.pinned_iff.mpr hvalid).reread
  obtain ⟨-, rows, slices, hrows, hslices, rfl⟩ := Manifest.value_part.mp h
  obtain ⟨o, ho, hget⟩ := asObject_ofFields (m.fieldsWith rows slices)
    (by simp [Manifest.fieldsWith])
  obtain ⟨gs, hgs, hmap⟩ := mapM_geometryField (OrderedMap.nodup_inOrder m.geometry)
  have hrows := mapM_ofJson hrows fun r _ u hu => LayoutEntry.ofJson_part hu
  have hslices := mapM_ofJson hslices fun e he u hu =>
    SliceEntry.ofJson_part hu (hsha e he).choose_spec
  have hgeometry : (Json.ofFields (geometryAs (OrderedMap.inOrder m.geometry))).asObject =
      some ((geometryAs (OrderedMap.inOrder m.geometry)).foldl insertField []) := rfl
  have hformat : demand (Repack.reread m.format = manifestFormat) = fun e : RepackError => .ok () :=
    funext fun e => demand_eq_ok.mpr hpinned.format
  have hversion : demand (m.version = manifestVersion) = fun e : RepackError => .ok () :=
    funext fun e => demand_eq_ok.mpr hpinned.version
  have hcheck := Manifest.pinned_iff.mp hpinned
  rw [Manifest.ofJson, ho, need_some, ok_bind]
  simp [Manifest.fieldsWith, getStr, getU64, getObject, getArray, hget, getField_cons, Json.asStr,
    Json.asU64, Json.asArray, need_some, hgeometry, hformat, hversion, hgs, hmap, hrows, hslices]
  exact bind_eq_ok.mpr ⟨(), hcheck, rfl⟩

/-! ### Strings and numbers -/

def Ascii (s : String) : Prop := ∀ c ∈ s.toList, c.toNat < 128

instance (s : String) : Decidable (Ascii s) := inferInstanceAs (Decidable (∀ c ∈ s.toList, _))

def LayoutEntry.texts (r : LayoutEntry) : List String := [r.proj, r.region]

def LayoutEntry.numbers (r : LayoutEntry) : List ℕ := [r.off, r.len]

def SourceTensor.texts (t : SourceTensor) : List String := [t.name, t.dtype]

def SliceEntry.texts (e : SliceEntry) : List String :=
  [e.file, e.sha256, e.shard] ++ e.tensors.flatMap SourceTensor.texts

def SliceEntry.numbers (e : SliceEntry) : List ℕ :=
  [e.bytes, e.layer, e.expert, e.rank] ++ e.tensors.flatMap SourceTensor.shape

def Manifest.texts (m : Manifest) : List String :=
  [m.format, m.generatedBy] ++ (OrderedMap.inOrder m.geometry).map Prod.fst ++
    m.layout.flatMap LayoutEntry.texts ++ m.slices.flatMap SliceEntry.texts

def Manifest.numbers (m : Manifest) : List ℕ :=
  [m.version] ++ (OrderedMap.inOrder m.geometry).map Prod.snd ++
    m.layout.flatMap LayoutEntry.numbers ++ m.slices.flatMap SliceEntry.numbers

theorem map_eq_self {α : Type} {f : α → α} {l : List α} : l.map f = l ↔ ∀ a ∈ l, f a = a := by
  induction l with
  | nil => exact iff_of_true rfl nofun
  | cons a l ih => rw [List.map_cons, List.cons.injEq, ih, List.forall_mem_cons]

theorem LayoutEntry.reread_eq_self {r : LayoutEntry} :
    r.reread = r ↔ ∀ s ∈ r.texts, Ascii s := by
  cases r
  simp [LayoutEntry.reread, LayoutEntry.texts, Repack.reread_eq_self, Ascii]

theorem SourceTensor.reread_eq_self {t : SourceTensor} :
    t.reread = t ↔ ∀ s ∈ t.texts, Ascii s := by
  cases t
  simp [SourceTensor.reread, SourceTensor.texts, Repack.reread_eq_self, Ascii]

theorem SliceEntry.reread_eq_self {e : SliceEntry} :
    e.reread = e ↔ ∀ s ∈ e.texts, Ascii s := by
  cases e
  simp only [SliceEntry.reread, SliceEntry.texts, Repack.reread_eq_self, map_eq_self,
    SourceTensor.reread_eq_self, SliceEntry.mk.injEq, List.forall_mem_append, List.forall_mem_flatMap,
    List.forall_mem_cons, List.not_mem_nil, false_imp_iff, implies_true, and_true, true_and,
    and_assoc]
  rfl

/-- The keys of a geometry that is read back as it was are ASCII: the others would grow. -/
theorem ascii_of_geometry {g : Finmap fun _ : String => ℕ}
    (h : OrderedMap.ofList ((OrderedMap.inOrder g).map fun x => (reread x.1, x.2)) = g) :
    ∀ k ∈ g, Ascii k := by
  have hclosed : ∀ k ∈ g, reread k ∈ g := by
    intro k hk
    obtain ⟨n, hn⟩ := Finmap.mem_iff.mp hk
    have hmem : (reread k, n) ∈ (OrderedMap.inOrder g).map fun x => (reread x.1, x.2) :=
      List.mem_map.mpr ⟨(k, n), OrderedMap.mem_inOrder.mpr hn, rfl⟩
    have hnodup : (((OrderedMap.inOrder g).map fun x => (reread x.1, x.2)).map Prod.fst).Nodup :=
      nodup_reread id (OrderedMap.nodup_inOrder g)
    have hfound := (OrderedMap.lookup_ofList hnodup).mpr hmem
    rw [h] at hfound
    exact Finmap.mem_of_lookup_eq_some hfound
  by_contra hbad
  push Not at hbad
  obtain ⟨k₀, hk₀, hbad₀⟩ := hbad
  -- a longest key that is not ASCII is read back as a longer one
  obtain ⟨k, hk, hmax⟩ := (g.keys.filter fun k => ¬Ascii k).exists_max_image (fun k => k.toList.length)
    ⟨k₀, Finset.mem_filter.mpr ⟨Finmap.mem_keys.mpr hk₀, hbad₀⟩⟩
  obtain ⟨hmem, hk⟩ := Finset.mem_filter.mp hk
  have hlist : (reread k).toList = seen k.toList := String.toList_ofList
  have hbad' : ¬Ascii (reread k) := fun h' => hk (ascii_of_seen (hlist ▸ h'))
  have hgrown := hmax (reread k)
    (Finset.mem_filter.mpr ⟨Finmap.mem_keys.mpr (hclosed k (Finmap.mem_keys.mp hmem)), hbad'⟩)
  rw [hlist] at hgrown
  exact hk (ascii_of_length (Nat.le_antisymm hgrown (length_seen k.toList)))

theorem Manifest.reread_eq_self {m : Manifest} : m.reread = m ↔ ∀ s ∈ m.texts, Ascii s := by
  have hgeometry : OrderedMap.ofList ((OrderedMap.inOrder m.geometry).map fun x =>
      (Repack.reread x.1, x.2)) = m.geometry ↔
        ∀ x ∈ OrderedMap.inOrder m.geometry, Ascii x.1 := by
    constructor
    · exact fun h x hx => ascii_of_geometry h x.1
        (Finmap.mem_of_lookup_eq_some (OrderedMap.mem_inOrder.mp hx))
    · intro h
      have hself : ∀ x ∈ OrderedMap.inOrder m.geometry, (Repack.reread x.1, x.2) = x :=
        fun x hx => Prod.ext (Repack.reread_eq_self.mpr (h x hx)) rfl
      rw [map_eq_self.mpr hself, OrderedMap.ofList_inOrder]
  cases m
  simp only [Manifest.reread, Manifest.texts, Repack.reread_eq_self, map_eq_self,
    LayoutEntry.reread_eq_self, SliceEntry.reread_eq_self, Manifest.mk.injEq, hgeometry,
    List.forall_mem_append, List.forall_mem_flatMap, List.forall_mem_map, List.forall_mem_cons,
    List.not_mem_nil, false_imp_iff, implies_true, and_true, true_and, and_assoc]
  rfl

end Repack

end Mimo26

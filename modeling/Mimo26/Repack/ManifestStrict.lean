import Mimo26.Repack.ManifestRoundTrip

/-!
# What a parsed manifest keeps of its text

When a manifest that was parsed is written as the JSON value it was parsed from: the parser ignores
a field it does not ask for, takes the empty text for a producer that is missing, and the last `u64`
for what is not a number in a shape.

## Main definitions

* `KeepsValue` — the manifest is written as the value it was parsed from, and that has the fields of
  a manifest
* `Documented` — the fields and the types of a manifest

## Main results

* `keepsValue_iff` — when a parsed manifest keeps its value
-/

namespace Mimo26

namespace Repack

open Result

/-! ### Taking a value apart -/

theorem need_eq_ok {α : Type} {x : Option α} {text : String} {a : α} :
    need x text = .ok a ↔ x = some a := by
  cases x with
  | none => exact iff_of_false nofun nofun
  | some b => rw [need_some, Except.ok.injEq, Option.some.injEq]

theorem asObject_eq_some {v : Json} {o : List (String × Json)} :
    v.asObject = some o ↔ v = .object o := by
  cases v <;> simp [Json.asObject]

theorem asArray_eq_some {v : Json} {items : List Json} :
    v.asArray = some items ↔ v = .array items := by
  cases v <;> simp [Json.asArray]

theorem asStr_eq_some {v : Json} {s : String} : v.asStr = some s ↔ v = .str s := by
  cases v <;> simp [Json.asStr]

theorem asU64_eq_some {v : Json} {n : ℕ} : v.asU64 = some n ↔ v = .u64 n := by
  cases v <;> simp [Json.asU64]

section

variable {o : List (String × Json)} {k : String}

theorem getStr_eq_some {s : String} : getStr o k = some s ↔ getField o k = some (.str s) := by
  rw [getStr, Option.bind_eq_some_iff]
  simp only [asStr_eq_some, exists_eq_right]

theorem getU64_eq_some {n : ℕ} : getU64 o k = some n ↔ getField o k = some (.u64 n) := by
  rw [getU64, Option.bind_eq_some_iff]
  simp only [asU64_eq_some, exists_eq_right]

theorem getArray_eq_some {items : List Json} :
    getArray o k = some items ↔ getField o k = some (.array items) := by
  rw [getArray, Option.bind_eq_some_iff]
  simp only [asArray_eq_some, exists_eq_right]

theorem getObject_eq_some {o' : List (String × Json)} :
    getObject o k = some o' ↔ getField o k = some (.object o') := by
  rw [getObject, Option.bind_eq_some_iff]
  simp only [asObject_eq_some, exists_eq_right]

end

/-- The object has no other fields. -/
def Known (o : List (String × Json)) (keys : List String) : Prop := ∀ x ∈ o, x.1 ∈ keys

theorem sorted_foldl_insertField {fs map : List (String × Json)}
    (hmap : (map.map Prod.fst).Pairwise (· < ·))
    (hkeys : (map.map Prod.fst ++ fs.map Prod.fst).Nodup) :
    ((fs.foldl insertField map).map Prod.fst).Pairwise (· < ·) := by
  induction fs generalizing map with
  | nil => exact hmap
  | cons x fs ih =>
    exact ih (sorted_insertField hmap (notMem_of_nodup hkeys)) (nodup_insertField hkeys)

/-- An object is that of its fields, in any order. -/
theorem object_eq_ofFields {o fs : List (String × Json)}
    (hsorted : (o.map Prod.fst).Pairwise (· < ·)) (hfs : (fs.map Prod.fst).Nodup)
    (hkeys : Known o (fs.map Prod.fst)) (hget : ∀ x ∈ fs, getField o x.1 = some x.2) :
    Json.object o = .ofFields fs := by
  have ho : (o.map Prod.fst).Nodup := hsorted.imp ne_of_lt
  have hmem (x : String × Json) : x ∈ fs ↔ x ∈ o := by
    constructor
    · exact fun hx => (getField_eq_some ho).mp (hget x hx)
    · intro hx
      obtain ⟨y, hy, hxy⟩ := List.mem_map.mp (hkeys x hx)
      have hfound := (getField_eq_some ho).mpr (show (x.1, x.2) ∈ o from hx)
      rw [← hxy, hget y hy, Option.some.injEq] at hfound
      rwa [show x = y from Prod.ext hxy.symm hfound.symm]
  have hperm := perm_foldl_insertField fs []
  rw [List.append_nil] at hperm
  have hsame : o.Perm (fs.foldl insertField []) :=
    ((List.perm_ext_iff_of_nodup ho.of_map hfs.of_map).mpr fun x => (hmem x).symm).trans hperm.symm
  refine congrArg Json.object (@List.Perm.eq_of_pairwise _ (fun x y => x.1 < y.1) _ _ ?_ ?_ ?_ hsame)
  · exact fun x y _ _ hxy hyx => absurd (hxy.trans hyx) (lt_irrefl x.1)
  · exact List.pairwise_map.mp hsorted
  · exact List.pairwise_map.mp (sorted_foldl_insertField List.Pairwise.nil hfs)

/-- The fields of an object that was built from them. -/
theorem known_foldl (fs : List (String × Json)) :
    Known (fs.foldl insertField []) (fs.map Prod.fst) := by
  intro x hx
  have hmem := (perm_foldl_insertField fs []).mem_iff.mp hx
  rw [List.append_nil] at hmem
  exact List.mem_map_of_mem hmem

/-- Values that were read one by one are what they are written as, if each is. -/
theorem readAs_iff {α : Type} {f : Json → Except RepackError α} {part : α → Part}
    {d : Json → Prop} {vs : List Json} {as : List α} (hread : vs.mapM f = .ok as)
    (h : ∀ v ∈ vs, ∀ a ∈ as, f v = .ok a → ((part a).value = some v ↔ d v)) :
    ReadAs (as.map part) vs ↔ ∀ v ∈ vs, d v := by
  have hall := forall₂_of_mapM hread
  clear hread
  rw [readAs_map]
  induction hall with
  | nil => exact iff_of_true .nil nofun
  | @cons v a vs as hv hvs ih =>
    rw [List.forall₂_cons, List.forall_mem_cons]
    exact and_congr (h v List.mem_cons_self a List.mem_cons_self hv)
      (ih fun u hu b hb => h u (List.mem_cons_of_mem v hu) b (List.mem_cons_of_mem a hb))

/-- The fields of a strict object are strict. -/
theorem strict_of_getField {o : List (String × Json)} {k : String} {v : Json}
    (ho : (Json.object o).Strict) (h : getField o k = some v) : v.Strict := by
  cases ho with
  | object sorted hall =>
    exact hall _ ((getField_eq_some (sorted.imp ne_of_lt)).mp h)

theorem lt_of_strict {n : ℕ} (h : (Json.u64 n).Strict) : n < 2 ^ 63 := by
  cases h with
  | u64 hn => exact hn

theorem sorted_of_strict {o : List (String × Json)} (h : (Json.object o).Strict) :
    (o.map Prod.fst).Pairwise (· < ·) := by
  cases h with
  | object sorted _ => exact sorted

theorem strict_of_mem {items : List Json} (h : (Json.array items).Strict) {v : Json}
    (hv : v ∈ items) : v.Strict := by
  cases h with
  | array hall => exact hall v hv

/-! ### What is documented -/

/-- The text of a field, if it is one, is ASCII. -/
def AsciiField (o : List (String × Json)) (k : String) : Prop := ∀ s, getStr o k = some s → Ascii s

/-- A row of the layout has no field but its four. -/
def DocumentedRow (v : Json) : Prop :=
  ∃ o, v = .object o ∧ Known o ["proj", "region", "off", "len"]

/-- A tensor has no field but its three, ASCII strings and a shape of numbers. -/
def DocumentedTensor (v : Json) : Prop :=
  ∃ o, v = .object o ∧ Known o ["name", "shape", "dtype"] ∧ AsciiField o "name" ∧
    AsciiField o "dtype" ∧ ∀ ds, getArray o "shape" = some ds → ∀ d ∈ ds, ∃ n, d = .u64 n

/-- A slice has no field but its seven, its source none but its two, and ASCII strings. -/
def DocumentedSlice (v : Json) : Prop :=
  ∃ o source, v = .object o ∧
    Known o ["file", "sha256", "bytes", "layer", "expert", "rank", "source"] ∧
    AsciiField o "file" ∧ getObject o "source" = some source ∧ Known source ["shard", "tensors"] ∧
    AsciiField source "shard" ∧
    ∀ ts, getArray source "tensors" = some ts → ∀ t ∈ ts, DocumentedTensor t

/-- A manifest has no field but its six, its geometry none but its seven, and an ASCII producer. -/
def Documented (v : Json) : Prop :=
  ∃ o g, v = .object o ∧
    Known o ["format", "version", "generated_by", "geometry", "layout", "slices"] ∧
    (∃ s, getStr o "generated_by" = some s ∧ Ascii s) ∧ getObject o "geometry" = some g ∧
    Known g (geometryFields.map Prod.fst) ∧
    (∀ rows, getArray o "layout" = some rows → ∀ r ∈ rows, DocumentedRow r) ∧
    ∀ slices, getArray o "slices" = some slices → ∀ e ∈ slices, DocumentedSlice e

/-! ### What is promised -/

/-- A row of the layout has exactly its four fields. -/
def ExactRow (v : Json) : Prop :=
  ∃ proj region off len, v = .ofFields
    [("proj", .str proj), ("region", .str region), ("off", .u64 off), ("len", .u64 len)]

/-- A tensor has exactly its three fields. -/
def ExactTensor (v : Json) : Prop :=
  ∃ name dtype, ∃ shape : List ℕ, v = .ofFields
    [("name", .str name), ("shape", .array (shape.map .u64)), ("dtype", .str dtype)]

/-- A slice has exactly its seven fields and its source its two. -/
def ExactSlice (v : Json) : Prop :=
  ∃ file sha256 bytes layer expert rank shard ts, (∀ t ∈ ts, ExactTensor t) ∧ v = .ofFields
    [("file", .str file), ("sha256", .str sha256), ("bytes", .u64 bytes), ("layer", .u64 layer),
      ("expert", .u64 expert), ("rank", .u64 rank),
      ("source", .ofFields [("shard", .str shard), ("tensors", .array ts)])]

/-- A manifest has exactly its six fields and its geometry its seven. -/
def Exact (v : Json) : Prop :=
  ∃ format version generatedBy rows slices, ∃ gs : List (String × ℕ),
    (∀ r ∈ rows, ExactRow r) ∧ (∀ e ∈ slices, ExactSlice e) ∧
    (gs.map Prod.fst).Perm (geometryFields.map Prod.fst) ∧ v = .ofFields
      [("format", .str format), ("version", .u64 version), ("generated_by", .str generatedBy),
        ("geometry", .ofFields (gs.map fun x => (x.1, .u64 x.2))), ("layout", .array rows),
        ("slices", .array slices)]

/-! ### Rows, tensors and slices -/

theorem LayoutEntry.value_iff {v : Json} {r : LayoutEntry} (hstrict : v.Strict)
    (h : LayoutEntry.ofJson v = .ok r) (hascii : ∀ s ∈ r.texts, Ascii s) :
    r.part.value = some v ↔ DocumentedRow v := by
  rw [LayoutEntry.ofJson] at h
  obtain ⟨o, ho, h⟩ := bind_eq_ok.mp h
  obtain ⟨proj, hproj, h⟩ := bind_eq_ok.mp h
  obtain ⟨region, hregion, h⟩ := bind_eq_ok.mp h
  obtain ⟨off, hoff, h⟩ := bind_eq_ok.mp h
  obtain ⟨len, hlen, h⟩ := bind_eq_ok.mp h
  obtain rfl := Except.ok.inj h
  obtain rfl := asObject_eq_some.mp (need_eq_ok.mp ho)
  rw [need_eq_ok] at hproj hregion hoff hlen
  rw [getStr_eq_some] at hproj hregion
  rw [getU64_eq_some] at hoff hlen
  constructor
  · intro hvalue
    obtain ⟨-, hfields⟩ := LayoutEntry.value_part.mp hvalue
    refine ⟨o, rfl, ?_⟩
    rw [Json.object.inj hfields]
    exact known_foldl _
  · rintro ⟨o', ho', hkeys⟩
    obtain rfl := Json.object.inj ho'
    refine LayoutEntry.value_part.mpr ⟨⟨lt_of_strict (strict_of_getField hstrict hoff),
      lt_of_strict (strict_of_getField hstrict hlen)⟩, ?_⟩
    have hproj' := Repack.reread_eq_self.mpr (hascii proj List.mem_cons_self)
    have hregion' := Repack.reread_eq_self.mpr
      (hascii region (List.mem_cons_of_mem _ List.mem_cons_self))
    refine object_eq_ofFields (sorted_of_strict hstrict) (by simp) hkeys ?_
    simp only [List.forall_mem_cons, List.not_mem_nil, false_imp_iff, implies_true, and_true]
    rw [hproj', hregion']
    exact ⟨hproj, hregion, hoff, hlen⟩

/-- A list of numbers is read back as it is. -/
theorem readAs_numbers {ds : List Json} (hstrict : (Json.array ds).Strict) (n₀ : ℕ) :
    ReadAs ((ds.map fun d => d.asU64.getD n₀).map .nat) ds ↔ ∀ d ∈ ds, ∃ n, d = .u64 n := by
  rw [readAs_map, List.forall₂_map_left_iff, List.forall₂_same]
  refine forall₂_congr fun d hd => ?_
  rw [nat_value]
  constructor
  · exact fun h => ⟨_, h.2⟩
  · rintro ⟨n, rfl⟩
    exact ⟨lt_of_strict (strict_of_mem hstrict hd), rfl⟩

theorem SourceTensor.value_iff {file : String} {v : Json} {t : SourceTensor} (hstrict : v.Strict)
    (h : SourceTensor.ofJson file v = .ok t) : t.part.value = some v ↔ DocumentedTensor v := by
  have hread := h
  rw [SourceTensor.ofJson] at h
  obtain ⟨o, ho, h⟩ := bind_eq_ok.mp h
  obtain ⟨name, hname, h⟩ := bind_eq_ok.mp h
  obtain ⟨ds, hds, h⟩ := bind_eq_ok.mp h
  obtain ⟨dtype, hdtype, h⟩ := bind_eq_ok.mp h
  obtain rfl := Except.ok.inj h
  obtain rfl := asObject_eq_some.mp (need_eq_ok.mp ho)
  rw [need_eq_ok] at hname hds hdtype
  have hshape := readAs_numbers
    (strict_of_getField hstrict (getArray_eq_some.mp hds)) (2 ^ 64 - 1)
  constructor
  · intro hvalue
    have hself := (SourceTensor.ofJson_part file hvalue).symm.trans hread
    have hascii := SourceTensor.reread_eq_self.mp (Except.ok.inj hself)
    obtain ⟨ds', hds', hfields⟩ := SourceTensor.value_part.mp hvalue
    have hkeys := known_foldl [("name", .str (Repack.reread name)), ("shape", .array ds'),
      ("dtype", .str (Repack.reread dtype))]
    have hfound := @getField_foldl [("name", .str (Repack.reread name)),
      ("shape", .array ds'), ("dtype", .str (Repack.reread dtype))] (by simp) "shape"
    rw [← Json.object.inj hfields] at hkeys hfound
    refine ⟨o, rfl, hkeys, fun s hs => ?_, fun s hs => ?_, ?_⟩
    · rw [hname] at hs
      exact Option.some.inj hs ▸ hascii _ List.mem_cons_self
    · rw [hdtype] at hs
      exact Option.some.inj hs ▸ hascii _ (List.mem_cons_of_mem _ List.mem_cons_self)
    · intro es hes
      rw [getArray_eq_some.mp hds] at hfound
      have hsame : ds = ds' := by simpa [getField_cons] using hfound
      rw [hds, Option.some.injEq] at hes
      rw [← hes]
      exact hshape.mp (hsame ▸ hds')
  · rintro ⟨o', ho', hkeys, hn, hd, hnumbers⟩
    obtain rfl := Json.object.inj ho'
    have hname' := Repack.reread_eq_self.mpr (hn name hname)
    have hdtype' := Repack.reread_eq_self.mpr (hd dtype hdtype)
    refine SourceTensor.value_part.mpr ⟨ds, hshape.mpr (hnumbers ds hds), ?_⟩
    refine object_eq_ofFields (sorted_of_strict hstrict) (by simp) hkeys ?_
    simp only [List.forall_mem_cons, List.not_mem_nil, false_imp_iff, implies_true, and_true]
    rw [hname', hdtype']
    exact ⟨getStr_eq_some.mp hname, getArray_eq_some.mp hds, getStr_eq_some.mp hdtype⟩

theorem ascii_of_hexVal {c : Char} {n : ℕ} (h : hexVal c = .ok n) : c.toNat < 128 := by
  rw [hexVal] at h
  split_ifs at h with hdigit hlower hupper
  · exact Nat.lt_of_le_of_lt hdigit.2 (by decide)
  · exact Nat.lt_of_le_of_lt hlower.2 (by decide)
  · exact Nat.lt_of_le_of_lt hupper.2 (by decide)

/-- The digits of a digest are ASCII. -/
theorem ascii_of_unhex {s : String} {digest : List UInt8} (h : unhex s = .ok digest) : Ascii s := by
  rw [unhex] at h
  split_ifs at h with hlen
  have hlen := not_not.mp hlen
  have hpair : ∀ i < 32, ∃ hi lo,
      hexVal ((latin1 (Utf8.encode s.toList)).getD (i * 2) '0') = .ok hi ∧
        hexVal ((latin1 (Utf8.encode s.toList)).getD (i * 2 + 1) '0') = .ok lo := by
    intro i hi
    obtain ⟨hcount, hread⟩ := mapM_range_eq_ok_iff.mp h
    have hb := hread i (hcount.symm ▸ hi)
    obtain ⟨hi, hhi, hb⟩ := bind_eq_ok.mp hb
    obtain ⟨lo, hlo, -⟩ := bind_eq_ok.mp hb
    exact ⟨hi, lo, hhi, hlo⟩
  refine ascii_of_seen fun d hd => ?_
  obtain ⟨j, hj, rfl⟩ := List.getElem_of_mem (show d ∈ latin1 (Utf8.encode s.toList) from hd)
  obtain ⟨hi, lo, hhi, hlo⟩ := hpair (j / 2) (by omega)
  rcases Nat.mod_two_eq_zero_or_one j with hmod | hmod
  · rw [show j / 2 * 2 = j by omega, List.getD_eq_getElem?_getD,
      List.getElem?_eq_getElem hj, Option.getD_some] at hhi
    exact ascii_of_hexVal hhi
  · rw [show j / 2 * 2 + 1 = j by omega, List.getD_eq_getElem?_getD,
      List.getElem?_eq_getElem hj, Option.getD_some] at hlo
    exact ascii_of_hexVal hlo

theorem eq_ok_of_mapError {ε ε' α : Type} {f : ε → ε'} {x : Except ε α} {a : α}
    (h : x.mapError f = .ok a) : x = .ok a := by
  cases x with
  | error e => exact absurd h nofun
  | ok b => exact congrArg Except.ok (Except.ok.inj h)

theorem SliceEntry.value_iff {v : Json} {e : SliceEntry} (hstrict : v.Strict)
    (h : SliceEntry.ofJson v = .ok e) : e.part.value = some v ↔ DocumentedSlice v := by
  have hread := h
  rw [SliceEntry.ofJson] at h
  obtain ⟨o, ho, h⟩ := bind_eq_ok.mp h
  obtain ⟨file, hfile, h⟩ := bind_eq_ok.mp h
  obtain ⟨sha, hsha, h⟩ := bind_eq_ok.mp h
  obtain ⟨digest, hdigest, h⟩ := bind_eq_ok.mp h
  obtain ⟨bytes, hbytes, h⟩ := bind_eq_ok.mp h
  obtain ⟨layer, hlayer, h⟩ := bind_eq_ok.mp h
  obtain ⟨expert, hexpert, h⟩ := bind_eq_ok.mp h
  obtain ⟨rank, hrank, h⟩ := bind_eq_ok.mp h
  obtain ⟨source, hsource, h⟩ := bind_eq_ok.mp h
  obtain ⟨shard, hshard, h⟩ := bind_eq_ok.mp h
  obtain ⟨ts, hts, h⟩ := bind_eq_ok.mp h
  obtain ⟨tensors, htensors, h⟩ := bind_eq_ok.mp h
  obtain rfl := Except.ok.inj h
  obtain rfl := asObject_eq_some.mp (need_eq_ok.mp ho)
  rw [need_eq_ok] at hfile hsha hbytes hlayer hexpert hrank hsource hshard hts
  have hascii : Ascii sha := ascii_of_unhex (eq_ok_of_mapError hdigest)
  have hsame := Repack.reread_eq_self.mpr hascii
  have hstrictSource := strict_of_getField hstrict (getObject_eq_some.mp hsource)
  have hstrictTensors := strict_of_getField hstrictSource (getArray_eq_some.mp hts)
  have htensors : ReadAs (tensors.map SourceTensor.part) ts ↔ ∀ t ∈ ts, DocumentedTensor t :=
    readAs_iff htensors fun t ht a _ ha =>
      SourceTensor.value_iff (strict_of_mem hstrictTensors ht) ha
  constructor
  · intro hvalue
    have hunhex : unhex (Repack.reread sha) = .ok digest := by
      rw [hsame]
      exact eq_ok_of_mapError hdigest
    have hself := (SliceEntry.ofJson_part hvalue hunhex).symm.trans hread
    have htexts := SliceEntry.reread_eq_self.mp (Except.ok.inj hself)
    obtain ⟨-, ts', hts', hfields⟩ := SliceEntry.value_part.mp hvalue
    obtain rfl := Json.object.inj hfields
    have hfound := getObject_eq_some.mp hsource
    rw [getField_foldl (by simp [SliceEntry.fieldsWith])] at hfound
    have hsourceSame : source = List.foldl insertField [] [("shard", .str (Repack.reread shard)),
        ("tensors", .array ts')] := by
      simpa [SliceEntry.fieldsWith, getField_cons, Json.ofFields, eq_comm] using hfound
    have hfoundTensors := getArray_eq_some.mp hts
    rw [hsourceSame, getField_foldl (by simp)] at hfoundTensors
    have htsSame : ts = ts' := by simpa [getField_cons, eq_comm] using hfoundTensors
    refine ⟨_, source, rfl, known_foldl _, fun s hs => ?_, hsource, ?_, fun s hs => ?_,
      fun us hus => ?_⟩
    · rw [hfile, Option.some.injEq] at hs
      exact htexts s (by simp [SliceEntry.texts, hs])
    · rw [hsourceSame]
      exact known_foldl _
    · rw [hshard, Option.some.injEq] at hs
      exact htexts s (by simp [SliceEntry.texts, hs])
    · rw [hts, Option.some.injEq] at hus
      rw [← hus]
      exact htensors.mp (htsSame ▸ hts')
  · rintro ⟨o', source', ho', hkeys, hf, hsource', hkeysSource, hs, hdocumented⟩
    obtain rfl := Json.object.inj ho'
    obtain rfl := Option.some.inj (hsource.symm.trans hsource')
    have hfile' := Repack.reread_eq_self.mpr (hf file hfile)
    have hshard' := Repack.reread_eq_self.mpr (hs shard hshard)
    rw [getStr_eq_some] at hfile hsha hshard
    rw [getU64_eq_some] at hbytes hlayer hexpert hrank
    rw [getObject_eq_some] at hsource
    have hsourceSame : Json.object source = .ofFields [("shard", .str shard),
        ("tensors", .array ts)] := by
      refine object_eq_ofFields (sorted_of_strict hstrictSource) (by simp) hkeysSource ?_
      simp only [List.forall_mem_cons, List.not_mem_nil, false_imp_iff, implies_true, and_true]
      exact ⟨hshard, getArray_eq_some.mp hts⟩
    refine SliceEntry.value_part.mpr ⟨⟨lt_of_strict (strict_of_getField hstrict hbytes),
      lt_of_strict (strict_of_getField hstrict hlayer),
      lt_of_strict (strict_of_getField hstrict hexpert),
      lt_of_strict (strict_of_getField hstrict hrank)⟩, ts, htensors.mpr (hdocumented ts hts), ?_⟩
    refine object_eq_ofFields (sorted_of_strict hstrict) (by simp [SliceEntry.fieldsWith]) hkeys ?_
    simp only [SliceEntry.fieldsWith, List.forall_mem_cons, List.not_mem_nil, false_imp_iff,
      implies_true, and_true]
    rw [hfile', hsame, hshard', ← hsourceSame]
    exact ⟨hfile, hsha, hbytes, hlayer, hexpert, hrank, hsource⟩

/-! ### What is written is exact -/

/-- What is read back of a list of parts, each of which is exact. -/
theorem forall_of_readAs {α : Type} {part : α → Part} {exact : Json → Prop} {l : List α}
    {vs : List Json} (h : ∀ a v, (part a).value = some v → exact v) (hvs : ReadAs (l.map part) vs) :
    ∀ v ∈ vs, exact v := by
  rw [readAs_map] at hvs
  induction hvs with
  | nil => exact nofun
  | @cons a v l vs hv _ ih => exact List.forall_mem_cons.mpr ⟨h a v hv, ih⟩

theorem LayoutEntry.exact_of_value (r : LayoutEntry) (v : Json) (h : r.part.value = some v) :
    ExactRow v := by
  obtain ⟨-, rfl⟩ := LayoutEntry.value_part.mp h
  exact ⟨_, _, _, _, rfl⟩

theorem map_u64_of_readAs {ns : List ℕ} {ds : List Json} (h : ReadAs (ns.map .nat) ds) :
    ns.map Json.u64 = ds := by
  rw [readAs_map] at h
  induction h with
  | nil => rfl
  | cons hd _ ih => rw [List.map_cons, ih, (nat_value.mp hd).2]

theorem SourceTensor.exact_of_value (t : SourceTensor) (v : Json) (h : t.part.value = some v) :
    ExactTensor v := by
  obtain ⟨ds, hds, rfl⟩ := SourceTensor.value_part.mp h
  exact ⟨_, _, t.shape, by rw [map_u64_of_readAs hds]⟩

theorem SliceEntry.exact_of_value (e : SliceEntry) (v : Json) (h : e.part.value = some v) :
    ExactSlice v := by
  obtain ⟨-, ts, hts, rfl⟩ := SliceEntry.value_part.mp h
  exact ⟨_, _, _, _, _, _, _, ts, forall_of_readAs SourceTensor.exact_of_value hts, rfl⟩

/-- A manifest whose geometry has no field but its seven is written as an exact value. -/
theorem Manifest.exact_of_value {m : Manifest} {v : Json} (hpinned : m.Pinned)
    (hkeys : ∀ x ∈ OrderedMap.inOrder m.geometry, x.1 ∈ geometryFields.map Prod.fst)
    (h : m.part.value = some v) : Exact v := by
  obtain ⟨-, rows, slices, hrows, hslices, rfl⟩ := Manifest.value_part.mp h
  have hascii : ∀ k ∈ geometryFields.map Prod.fst, Repack.reread k = k := by decide
  have hself : geometryAs (OrderedMap.inOrder m.geometry) =
      (OrderedMap.inOrder m.geometry).map fun x => (x.1, .u64 x.2) :=
    List.map_congr_left fun x hx => by rw [hascii x.1 (hkeys x hx)]
  refine ⟨_, _, _, rows, slices, OrderedMap.inOrder m.geometry,
    forall_of_readAs LayoutEntry.exact_of_value hrows,
    forall_of_readAs SliceEntry.exact_of_value hslices, ?_, by rw [← hself]; rfl⟩
  refine (List.perm_ext_iff_of_nodup (OrderedMap.nodup_inOrder _) (by decide)).mpr fun k => ?_
  constructor
  · intro hk
    obtain ⟨x, hx, rfl⟩ := List.mem_map.mp hk
    exact hkeys x hx
  · intro hk
    obtain ⟨x, hx, rfl⟩ := List.mem_map.mp hk
    exact List.mem_map.mpr ⟨(x.1, x.2), OrderedMap.mem_inOrder.mpr (hpinned.geometry x hx), rfl⟩

/-- The geometry of an exact manifest has no field but its seven. -/
theorem known_of_exact {o g : List (String × Json)} (h : Exact (.object o))
    (hg : getObject o "geometry" = some g) : Known g (geometryFields.map Prod.fst) := by
  obtain ⟨format, version, generatedBy, rows, slices, gs, -, -, hkeys, hfields⟩ := h
  have hfound := getObject_eq_some.mp hg
  rw [Json.object.inj hfields, getField_foldl (by simp)] at hfound
  have hsame : g = (gs.map fun x => (x.1, Json.u64 x.2)).foldl insertField [] := by
    simpa [getField_cons, Json.ofFields, eq_comm] using hfound
  intro x hx
  rw [hsame] at hx
  obtain ⟨y, hy, hxy⟩ := List.mem_map.mp (known_foldl _ x hx)
  obtain ⟨z, hz, rfl⟩ := List.mem_map.mp hy
  exact hkeys.mem_iff.mp (hxy ▸ List.mem_map_of_mem hz)

/-! ### The manifest -/

theorem map_of_mapM_geometryField {g : List (String × Json)} {gs : List (String × ℕ)}
    (h : g.mapM geometryField = .ok gs) : gs.map (fun x => (x.1, Json.u64 x.2)) = g := by
  have hall := forall₂_of_mapM h
  clear h
  induction hall with
  | nil => rfl
  | @cons x y g gs hx _ ih =>
    obtain ⟨n, hn, hy⟩ := bind_eq_ok.mp hx
    obtain rfl := Except.ok.inj hy
    rw [List.map_cons, ih, ← asU64_eq_some.mp (need_eq_ok.mp hn)]

/-- The numbers of the geometry are those of its object. -/
theorem mem_inOrder_iff {g : List (String × Json)} {gs : List (String × ℕ)}
    (hg : (Json.object g).Strict) (h : g.mapM geometryField = .ok gs) {x : String × ℕ} :
    x ∈ OrderedMap.inOrder (OrderedMap.ofList gs) ↔ (x.1, .u64 x.2) ∈ g := by
  have hback := map_of_mapM_geometryField h
  have hnodup : (gs.map Prod.fst).Nodup := by
    have hkeys := (sorted_of_strict hg).imp ne_of_lt
    rwa [← hback, List.map_map] at hkeys
  rw [OrderedMap.mem_inOrder (k := x.1), OrderedMap.lookup_ofList hnodup, ← hback, List.mem_map]
  constructor
  · exact fun hx => ⟨x, hx, rfl⟩
  · rintro ⟨y, hy, heq⟩
    obtain ⟨hkey, hnumber⟩ := Prod.mk.inj heq
    rwa [show x = y from Prod.ext hkey.symm (Json.u64.inj hnumber).symm]

/-- A geometry with no field but its seven is read back as it is. -/
theorem object_eq_geometryAs {g : List (String × Json)} {gs : List (String × ℕ)}
    (hg : (Json.object g).Strict) (h : g.mapM geometryField = .ok gs)
    (hkeys : Known g (geometryFields.map Prod.fst)) :
    Json.object g = .ofFields (geometryAs (OrderedMap.inOrder (OrderedMap.ofList gs))) := by
  have hascii : ∀ k ∈ geometryFields.map Prod.fst, reread k = k := by decide
  refine object_eq_ofFields (sorted_of_strict hg)
    (nodup_reread Json.u64 (OrderedMap.nodup_inOrder _)) (fun x hx => ?_) fun x hx => ?_
  · have hmem := hx
    rw [← map_of_mapM_geometryField h] at hmem
    obtain ⟨y, -, rfl⟩ := List.mem_map.mp hmem
    refine List.mem_map.mpr ⟨_, List.mem_map_of_mem ((mem_inOrder_iff hg h).mpr hx), ?_⟩
    exact hascii y.1 (hkeys _ hx)
  · obtain ⟨y, hy, rfl⟩ := List.mem_map.mp hx
    have hmem := (mem_inOrder_iff hg h).mp hy
    have hfound := (getField_eq_some ((sorted_of_strict hg).imp ne_of_lt)).mpr hmem
    rw [← hascii y.1 (hkeys _ hmem)] at hfound
    exact hfound

theorem lt_of_geometry {g : List (String × Json)} {gs : List (String × ℕ)}
    (hg : (Json.object g).Strict) (h : g.mapM geometryField = .ok gs) :
    ∀ x ∈ OrderedMap.inOrder (OrderedMap.ofList gs), x.2 < 2 ^ 63 := by
  intro x hx
  have hmem := (getField_eq_some ((sorted_of_strict hg).imp ne_of_lt)).mpr
    ((mem_inOrder_iff hg h).mp hx)
  exact lt_of_strict (strict_of_getField hg hmem)

theorem Manifest.pinned_of_ofJson {v : Json} {m : Manifest} (h : Manifest.ofJson v = .ok m) :
    m.Pinned := by
  rw [Manifest.ofJson] at h
  iterate 11 obtain ⟨_, -, h⟩ := bind_eq_ok.mp h
  obtain ⟨⟨⟩, hcheck, h⟩ := bind_eq_ok.mp h
  obtain rfl := Except.ok.inj h
  exact Manifest.pinned_iff.mpr hcheck

/-- **When a parsed manifest is written as its value**, and that is exact. -/
theorem Manifest.value_iff {v : Json} {m : Manifest} (hstrict : v.Strict)
    (h : Manifest.ofJson v = .ok m) : m.part.value = some v ∧ Exact v ↔ Documented v := by
  rw [Manifest.ofJson] at h
  obtain ⟨o, ho, h⟩ := bind_eq_ok.mp h
  obtain ⟨format, hformat, h⟩ := bind_eq_ok.mp h
  obtain ⟨_, -, h⟩ := bind_eq_ok.mp h
  obtain ⟨version, hversion, h⟩ := bind_eq_ok.mp h
  obtain ⟨_, -, h⟩ := bind_eq_ok.mp h
  obtain ⟨g, hg, h⟩ := bind_eq_ok.mp h
  obtain ⟨gs, hgs, h⟩ := bind_eq_ok.mp h
  obtain ⟨rows, hrows, h⟩ := bind_eq_ok.mp h
  obtain ⟨layout, hlayout, h⟩ := bind_eq_ok.mp h
  obtain ⟨es, hes, h⟩ := bind_eq_ok.mp h
  obtain ⟨slices, hslices, h⟩ := bind_eq_ok.mp h
  obtain ⟨⟨⟩, hcheck, h⟩ := bind_eq_ok.mp h
  have hpinned := Manifest.pinned_iff.mpr hcheck
  generalize hgenerated : (getStr o "generated_by").getD "" = generatedBy at hcheck hpinned h
  obtain rfl := Except.ok.inj h
  obtain rfl := asObject_eq_some.mp (need_eq_ok.mp ho)
  rw [need_eq_ok] at hformat hversion hg hrows hes
  have hstrictGeometry := strict_of_getField hstrict (getObject_eq_some.mp hg)
  have hstrictRows := strict_of_getField hstrict (getArray_eq_some.mp hrows)
  have hstrictSlices := strict_of_getField hstrict (getArray_eq_some.mp hes)
  have hascii : ∀ r ∈ layout, ∀ s ∈ r.texts, Ascii s := by
    rw [show layout = layoutTable.map LayoutRow.entry from hpinned.layout]
    decide
  have hrowsIff : ReadAs (layout.map LayoutEntry.part) rows ↔ ∀ r ∈ rows, DocumentedRow r :=
    readAs_iff hlayout fun r hr a ha hread =>
      LayoutEntry.value_iff (strict_of_mem hstrictRows hr) hread (hascii a ha)
  have hslicesIff : ReadAs (slices.map SliceEntry.part) es ↔ ∀ e ∈ es, DocumentedSlice e :=
    readAs_iff hslices fun e he a _ hread =>
      SliceEntry.value_iff (strict_of_mem hstrictSlices he) hread
  constructor
  · rintro ⟨hvalue, hexact⟩
    have hknown := known_of_exact hexact hg
    obtain ⟨-, rows', slices', hrows', hslices', hfields⟩ := Manifest.value_part.mp hvalue
    have hfields := Json.object.inj hfields
    have hget (k : String) := congrArg (getField · k) hfields
    simp only [@getField_foldl (Manifest.fieldsWith _ rows' slices')
      (by simp [Manifest.fieldsWith])] at hget
    have hproducer : getStr o "generated_by" = some (Repack.reread generatedBy) := by
      rw [getStr_eq_some, hget]
      rfl
    have hrowsSame : rows = rows' := by
      have hfound := getArray_eq_some.mp hrows
      rw [hget] at hfound
      exact (Json.array.inj (Option.some.inj hfound)).symm
    have hslicesSame : es = slices' := by
      have hfound := getArray_eq_some.mp hes
      rw [hget] at hfound
      exact (Json.array.inj (Option.some.inj hfound)).symm
    refine ⟨o, g, rfl, hfields ▸ known_foldl _, ⟨_, hproducer, ?_⟩, hg, hknown,
      fun us hus => ?_, fun us hus => ?_⟩
    · rw [hproducer, Option.getD_some] at hgenerated
      rw [hgenerated]
      exact Repack.reread_eq_self.mp hgenerated
    · rw [hrows, Option.some.injEq] at hus
      rw [← hus]
      exact hrowsIff.mp (hrowsSame ▸ hrows')
    · rw [hes, Option.some.injEq] at hus
      rw [← hus]
      exact hslicesIff.mp (hslicesSame ▸ hslices')
  · rintro ⟨o', g', ho', hkeys, ⟨producer, hproducer, hasciiProducer⟩, hg', hknown, hrows', hslices'⟩
    obtain rfl := Json.object.inj ho'
    obtain rfl := Option.some.inj (hg.symm.trans hg')
    rw [hproducer, Option.getD_some] at hgenerated
    subst hgenerated
    have hformatSame : Repack.reread format = format := by
      rw [show format = manifestFormat from hpinned.format]
      exact Repack.reread_eq_self.mpr (by decide)
    have hvalue : Part.value (Manifest.part ⟨format, version, producer, OrderedMap.ofList gs,
        layout, slices⟩) = some (.object o) := by
      refine Manifest.value_part.mpr ⟨⟨lt_of_strict (strict_of_getField hstrict
        (getU64_eq_some.mp hversion)), lt_of_geometry hstrictGeometry hgs⟩, rows, es,
        hrowsIff.mpr (hrows' rows hrows), hslicesIff.mpr (hslices' es hes), ?_⟩
      refine object_eq_ofFields (sorted_of_strict hstrict) (by simp [Manifest.fieldsWith]) hkeys ?_
      simp only [Manifest.fieldsWith, List.forall_mem_cons, List.not_mem_nil, false_imp_iff,
        implies_true, and_true]
      rw [hformatSame, Repack.reread_eq_self.mpr hasciiProducer,
        ← object_eq_geometryAs hstrictGeometry hgs hknown]
      exact ⟨getStr_eq_some.mp hformat, getU64_eq_some.mp hversion, getStr_eq_some.mp hproducer,
        getObject_eq_some.mp hg, getArray_eq_some.mp hrows, getArray_eq_some.mp hes⟩
    refine ⟨hvalue, Manifest.exact_of_value hpinned (fun x hx => ?_) hvalue⟩
    exact hknown _ ((mem_inOrder_iff hstrictGeometry hgs).mp hx)

/-! ### The text -/

/-- The manifest is written as the value of the text it was parsed from, and that is exact. -/
def KeepsValue (text : String) (m : Manifest) : Prop :=
  ∃ v, jsonParse text = .ok v ∧ jsonParse m.toJson = .ok v ∧ Exact v

/-- **When a parsed manifest keeps the value of its text**: the text has no unknown field, its
producer is a string, its shapes are of numbers and the strings it is free to choose are ASCII. -/
theorem keepsValue_iff {text : String} {m : Manifest} (h : Manifest.parse text = .ok m) :
    KeepsValue text m ↔ ∃ v, jsonParse text = .ok v ∧ Documented v := by
  rw [Manifest.parse] at h
  obtain ⟨v, hv, hm⟩ := bind_eq_ok.mp h
  have hiff := Manifest.value_iff (strict_of_jsonParse hv) hm
  have hne := (Manifest.pinned_of_ofJson hm).geometry_ne
  rw [KeepsValue]
  simp only [hv, Except.ok.injEq, jsonParse_toJson hne, exists_eq_left', ← hiff]

/-- What was written is kept: the value of the first slice's manifest. -/
theorem documented_oneSlice :
    ∃ v, jsonParse (oneSlice "L01_E000_R0.slice").toJson = .ok v ∧ Documented v := by
  have hpinned : (oneSlice "L01_E000_R0.slice").Pinned :=
    Manifest.pinned_iff.mpr (validateGeometry_new _)
  have hascii := @ascii_new [firstSlice "L01_E000_R0.slice"] (by decide)
  have hsmall := @small_new [firstSlice "L01_E000_R0.slice"] (by decide)
  have hparse : Manifest.parse (oneSlice "L01_E000_R0.slice").toJson =
      .ok (oneSlice "L01_E000_R0.slice") :=
    (parse_toJson (validateGeometry_new _) (lowerHex_oneSlice _)).mpr
      ⟨hsmall, Manifest.reread_eq_self.mpr hascii⟩
  obtain ⟨v, hv⟩ := Manifest.exists_value.mpr hsmall
  have hread := (jsonParse_toJson hpinned.geometry_ne v).mpr hv
  have hexact := Manifest.exact_of_value hpinned
    (fun x hx => List.mem_map_of_mem (mem_geometry_new hx)) hv
  exact (keepsValue_iff hparse).mp ⟨v, hread, hread, hexact⟩

/-- A manifest with a comment in place of its producer. -/
def commented : Part :=
  .object [] [] [] [("format", .str manifestFormat), ("version", .nat manifestVersion),
    ("comment", .str "by hand"),
    ("geometry", .object [] [] [] (geometryFields.map fun x => (x.1, .nat x.2))),
    ("layout", .list [] [] [] ((layoutTable.map LayoutRow.entry).map LayoutEntry.part)),
    ("slices", .list [] [] [] [])]

theorem spelled_commented : commented.Spelled := by
  refine spelled_object (by decide) (by decide) (by decide) (List.cons_ne_nil _ _) ?_ (by simp)
  simp only [List.forall_mem_cons, List.not_mem_nil, false_imp_iff, implies_true, and_true]
  refine ⟨spelled_str _, spelled_nat _, spelled_str _, ?_, ?_, ?_⟩
  · refine spelled_object (by decide) (by decide) (by decide) (by decide) (fun a ha => ?_) (by decide)
    obtain ⟨x, -, rfl⟩ := List.mem_map.mp ha
    exact spelled_nat x.2
  · refine spelled_list (by decide) (by decide) (by decide) fun p hp => ?_
    obtain ⟨r, -, rfl⟩ := List.mem_map.mp hp
    exact r.spelled
  · exact spelled_list (by decide) (by decide) (by decide) nofun

/-- **A comment is accepted and dropped**, and a missing producer is made up. -/
theorem commented_not_keepsValue : ∃ m, Manifest.parse (String.ofList commented.text) = .ok m ∧
    ¬KeepsValue (String.ofList commented.text) m := by
  have hascii : ∀ c ∈ commented.text, c.toNat < 128 := by decide +kernel
  have hseen : seen (String.ofList commented.text).toList = commented.text ++ [] := by
    rw [String.toList_ofList, seen_of_ascii hascii, List.append_nil]
  have hread := jsonParse_of_spells spelled_commented (by decide) hseen
  obtain ⟨o, ho⟩ : ∃ o, commented.value = some (.object o) := ⟨_, rfl⟩
  have hcomment : ∃ x ∈ o, x.1 = "comment" := by
    have hall : ∀ v ∈ commented.value, ∃ x ∈ v.asObject.getD [], x.1 = "comment" := by
      decide
    exact hall _ ho
  have hparse : ((commented.value.map Manifest.ofJson).bind Except.toOption).isSome := by
    decide
  rw [ho] at hparse
  cases hm : Manifest.ofJson (.object o) with
  | error e =>
    rw [Option.map_some, Option.bind_some, hm] at hparse
    exact absurd hparse nofun
  | ok m =>
    refine ⟨m, bind_eq_ok.mpr ⟨_, (hread _).mpr ho, hm⟩, ?_⟩
    rintro ⟨v, hv, -, hexact⟩
    obtain rfl := Option.some.inj (ho.symm.trans ((hread v).mp hv))
    obtain ⟨x, hx, hxkey⟩ := hcomment
    obtain ⟨_, _, _, _, _, _, -, -, -, hfields⟩ := hexact
    have hknown := known_foldl _ x (Json.object.inj hfields ▸ hx)
    rw [hxkey] at hknown
    exact absurd hknown (by simp)

end Repack

end Mimo26

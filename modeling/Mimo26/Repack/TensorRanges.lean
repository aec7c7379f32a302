import Mimo26.Repack.Safetensors

/-!
# The ranges of a safetensors file

What a header that was read promises of its tensors, and when it does: the check that a range fits
adds two `u64`, which wraps, and a name that is given again replaces the entry before.

## Main definitions

* `RangesHold` — names differ, and every tensor is read from its own range
* `File.declared` — the entries a header gives

## Main results

* `rangesHold_iff` — when the ranges of a header that was read hold
-/

namespace Mimo26

namespace Repack

open Result

/-- The entries the header gives, in its order. -/
def File.declared (f : File) : List (String × TensorEntry) :=
  match headerEntries f.header with
  | .ok entries => entries
  | .error _ => []

/-- The names of the header differ, and every tensor has a range in the data of the file, which is
what is read of it. -/
structure RangesHold (f : File) (h : SafetensorsHeader) : Prop where
  unique : (f.declared.map Prod.fst).Nodup
  inFile : ∀ name t, h.tensors.lookup name = some t →
    h.dataStart.toNat ≤ h.dataStart.toNat + t.dataOffsets.1.toNat ∧
      h.dataStart.toNat + t.dataOffsets.1.toNat ≤ h.dataStart.toNat + t.dataOffsets.2.toNat ∧
      h.dataStart.toNat + t.dataOffsets.2.toNat ≤ f.bytes.length
  reads : ∀ p name t, h.tensors.lookup name = some t →
    h.readTensor p f name = some (.ok (Bytes.slice f.bytes
      (h.dataStart.toNat + t.dataOffsets.1.toNat) (t.dataOffsets.2.toNat - t.dataOffsets.1.toNat)))
  pastHeader : ∀ name t, h.tensors.lookup name = some t → h.dataStart ≤ h.seekTo t
  buffer : ∀ name t, h.tensors.lookup name = some t → t.byteLen.toNat ≤ f.bytes.length

variable {f : File} {h : SafetensorsHeader} {p : String} {t : TensorEntry}

theorem File.toNat_len (f : File) : f.len.toNat = f.bytes.length := by
  have hfits := f.fits
  have hsize : UInt64.size = 2 ^ 64 := rfl
  rw [File.len, UInt64.toNat_ofNat_of_lt' (by omega)]

theorem TensorEntry.le (t : TensorEntry) : t.dataOffsets.1.toNat ≤ t.dataOffsets.2.toNat :=
  UInt64.le_iff_toNat_le.mp t.ordered

theorem TensorEntry.toNat_byteLen (t : TensorEntry) :
    t.byteLen.toNat = t.dataOffsets.2.toNat - t.dataOffsets.1.toNat :=
  UInt64.toNat_sub_of_le _ _ t.ordered

/-- What is known of a header that was read. -/
theorem read_cases (hread : SafetensorsHeader.read p f = .ok h) :
    h.tensors = OrderedMap.ofList f.declared ∧ h.dataStart.toNat = 8 + f.headerLen.toNat ∧
      ∀ name t, h.tensors.lookup name = some t →
        (endIn h.dataStart t).toNat ≤ f.bytes.length := by
  obtain ⟨_, hlen, hread⟩ := bind_eq_ok.mp hread
  obtain ⟨_, hheader, hread⟩ := bind_eq_ok.mp hread
  cases hutf8 : Utf8.fromUtf8 f.header with
  | error e =>
    rw [hutf8] at hread
    exact absurd hread nofun
  | ok text =>
    rw [hutf8] at hread
    dsimp only at hread
    cases hparse : parseHeaderJson f.header with
    | error e =>
      rw [hparse] at hread
      exact absurd hread nofun
    | ok tensors =>
      rw [hparse] at hread
      obtain ⟨_, hfit, hread⟩ := bind_eq_ok.mp hread
      obtain rfl := Except.ok.inj hread
      refine ⟨?_, ?_, fun name t ht => ?_⟩
      · obtain ⟨entries, hentries, rfl⟩ := map_eq_ok.mp hparse
        rw [File.declared, hentries]
      · have hlen := UInt64.le_iff_toNat_le.mp (demand_eq_ok.mp hlen)
        have hle := UInt64.le_iff_toNat_le.mp (demand_eq_ok.mp hheader).2
        rw [UInt64.toNat_sub_of_le _ _ (UInt64.le_iff_toNat_le.mpr hlen)] at hle
        have hfits := f.fits
        rw [f.toNat_len] at hlen hle
        have height : (8 : UInt64).toNat = 8 := rfl
        rw [height] at hlen hle
        show (8 + f.headerLen).toNat = 8 + f.headerLen.toNat
        rw [UInt64.toNat_add, height, Nat.mod_eq_of_lt (by omega)]
      · have hdemand := forM_eq_ok.mp hfit (name, t) (OrderedMap.mem_inOrder.mpr ht)
        rw [← f.toNat_len]
        exact UInt64.le_iff_toNat_le.mp (demand_eq_ok.mp hdemand)

/-- A sum that does not wrap. -/
theorem toNat_endIn {dataStart : UInt64} (hsum : dataStart.toNat + t.dataOffsets.2.toNat < 2 ^ 64) :
    (endIn dataStart t).toNat = dataStart.toNat + t.dataOffsets.2.toNat := by
  rw [endIn, UInt64.toNat_add, Nat.mod_eq_of_lt hsum]

theorem toNat_seekTo (hsum : h.dataStart.toNat + t.dataOffsets.2.toNat < 2 ^ 64) :
    (h.seekTo t).toNat = h.dataStart.toNat + t.dataOffsets.1.toNat := by
  have hle := t.le
  rw [SafetensorsHeader.seekTo, UInt64.toNat_add, Nat.mod_eq_of_lt (by omega)]

/-- A tensor whose range fits is read from it. -/
theorem readTensor_of_fits {name : String} (ht : h.tensors.lookup name = some t)
    (hsum : h.dataStart.toNat + t.dataOffsets.2.toNat ≤ f.bytes.length) :
    h.readTensor p f name = some (.ok (Bytes.slice f.bytes
      (h.dataStart.toNat + t.dataOffsets.1.toNat)
      (t.dataOffsets.2.toNat - t.dataOffsets.1.toNat))) := by
  have hfits := f.fits
  have hle := t.le
  have hseek := toNat_seekTo (h := h) (t := t) (by omega)
  rw [SafetensorsHeader.readTensor, ht]
  dsimp only
  rw [hseek, t.toNat_byteLen, if_neg (by omega), if_neg (by omega), if_pos (.inr (by omega))]

/-! ### Files with a given header -/

/-- The file with the header `text` before `data`. -/
def fileOf (text : List Char) (data : List UInt8)
    (fits : 8 + (Utf8.encode text).length + data.length < 2 ^ 63) : File where
  bytes := Bytes.toLe 8 (Utf8.encode text).length ++ (Utf8.encode text ++ data)
  fits := by
    rw [List.length_append, List.length_append, Bytes.length_toLe]
    omega

section

variable {text : List Char} {data : List UInt8}
  {fits : 8 + (Utf8.encode text).length + data.length < 2 ^ 63}

theorem headerLen_fileOf : (fileOf text data fits).headerLen.toNat = (Utf8.encode text).length := by
  have htake : (fileOf text data fits).bytes.take 8 = Bytes.toLe 8 (Utf8.encode text).length :=
    List.take_left' (Bytes.length_toLe 8 _)
  have hsize : UInt64.size = 2 ^ 64 := rfl
  rw [File.headerLen, htake, Bytes.ofLe_toLe_of_lt (by omega),
    UInt64.toNat_ofNat_of_lt' (by omega)]

theorem header_fileOf : (fileOf text data fits).header = Utf8.encode text := by
  rw [File.header, headerLen_fileOf, Bytes.slice]
  show ((Bytes.toLe 8 _ ++ (Utf8.encode text ++ data)).drop 8).take _ = _
  rw [List.drop_left' (Bytes.length_toLe 8 _), List.take_left' rfl]

theorem length_fileOf :
    (fileOf text data fits).bytes.length = 8 + ((Utf8.encode text).length + data.length) := by
  show (Bytes.toLe 8 _ ++ (Utf8.encode text ++ data)).length = _
  rw [List.length_append, List.length_append, Bytes.length_toLe]

/-- A file whose header parses is read when the ends of its ranges, as they are computed, fit. -/
theorem read_fileOf {entries : List (String × TensorEntry)} (htext : text ≠ [])
    (hparse : headerEntries (Utf8.encode text) = .ok entries)
    (hfit : ∀ x ∈ entries, endIn (8 + (fileOf text data fits).headerLen) x.2 ≤
      (fileOf text data fits).len) :
    SafetensorsHeader.read p (fileOf text data fits) = .ok ⟨OrderedMap.ofList entries,
      8 + (fileOf text data fits).headerLen, (fileOf text data fits).len⟩ := by
  have hlen := @length_fileOf text data fits
  have height : (8 : UInt64).toNat = 8 := rfl
  have hfile : (8 : UInt64) ≤ (fileOf text data fits).len := by
    rw [UInt64.le_iff_toNat_le, File.toNat_len, hlen, height]
    omega
  have hheader : (fileOf text data fits).headerLen ≠ 0 ∧
      (fileOf text data fits).headerLen ≤ (fileOf text data fits).len - 8 := by
    constructor
    · obtain ⟨c, cs, rfl⟩ := List.exists_cons_of_ne_nil htext
      intro hzero
      have hlen₀ := @headerLen_fileOf (c :: cs) data fits
      rw [hzero] at hlen₀
      exact Utf8.encode_ne_nil c cs (List.eq_nil_of_length_eq_zero hlen₀.symm)
    · rw [UInt64.le_iff_toNat_le, UInt64.toNat_sub_of_le _ _ hfile, File.toNat_len, hlen,
        headerLen_fileOf, height]
      omega
  refine bind_eq_ok.mpr ⟨(), demand_eq_ok.mpr hfile, ?_⟩
  refine bind_eq_ok.mpr ⟨(), demand_eq_ok.mpr hheader, ?_⟩
  rw [header_fileOf, Utf8.fromUtf8_encode]
  dsimp only
  rw [parseHeaderJson, hparse]
  refine bind_eq_ok.mpr ⟨⟨⟩, forM_eq_ok.mpr fun x hx => demand_eq_ok.mpr ?_, rfl⟩
  exact hfit x (OrderedMap.mem_of_lookup_ofList (OrderedMap.mem_inOrder.mp hx))

theorem declared_fileOf {entries : List (String × TensorEntry)}
    (hparse : headerEntries (Utf8.encode text) = .ok entries) :
    (fileOf text data fits).declared = entries := by
  rw [File.declared, header_fileOf, hparse]

end

/-- A header with one tensor, of one byte. -/
def byteText : List Char :=
  "\x7b\"a\":\x7b\"dtype\":\"U8\",\"shape\":[1],\"data_offsets\":[0,1]\x7d\x7d".toList

def byteEntry : TensorEntry := ⟨"U8", [1], (0, 1), by decide⟩

/-- The file of that header and its byte. -/
def byteFile : File := fileOf byteText [7] (by decide)

theorem headerEntries_byteText :
    headerEntries (Utf8.encode byteText) = .ok [("a", byteEntry)] := by
  decide +kernel

theorem read_byteFile : SafetensorsHeader.read "f" byteFile =
    .ok ⟨OrderedMap.ofList [("a", byteEntry)], 8 + byteFile.headerLen, byteFile.len⟩ := by
  refine read_fileOf (by decide) headerEntries_byteText ?_
  decide

/-- The header with the tensor that ends at the last `u64`. -/
def wrappedText : List Char :=
  "\x7b\"a\":\x7b\"dtype\":\"U8\",\"shape\":[1],\"data_offsets\":[0,18446744073709551615]\x7d\x7d".toList

def wrappedEntry : TensorEntry := ⟨"U8", [1], (0, 18446744073709551615), by decide⟩

/-- The file of that header, without data. -/
def wrappedFile : File := fileOf wrappedText [] (by decide)

theorem headerEntries_wrappedText :
    headerEntries (Utf8.encode wrappedText) = .ok [("a", wrappedEntry)] := by
  decide +kernel

/-! ### When the ranges hold -/

/-- **When the ranges of a header that was read hold**: no name is given again, and no range ends
past the last `u64`. -/
theorem rangesHold_iff (hread : SafetensorsHeader.read p f = .ok h) :
    RangesHold f h ↔ f.declared.Pairwise (fun x y => x.1 ≠ y.1) ∧
      ∀ x ∈ f.declared, 8 + f.headerLen.toNat + x.2.dataOffsets.2.toNat < 2 ^ 64 := by
  obtain ⟨htensors, hstart, hfit⟩ := read_cases hread
  have hfits := f.fits
  constructor
  · intro hold
    refine ⟨List.pairwise_map.mp hold.unique, fun x hx => ?_⟩
    have hlookup : h.tensors.lookup x.1 = some x.2 := by
      rw [htensors]
      exact (OrderedMap.lookup_ofList hold.unique).mpr hx
    have hend := (hold.inFile x.1 x.2 hlookup).2.2
    omega
  · rintro ⟨hunique, hsum⟩
    have hin : ∀ name t, h.tensors.lookup name = some t →
        h.dataStart.toNat + t.dataOffsets.2.toNat ≤ f.bytes.length := by
      intro name t ht
      have hmem := OrderedMap.mem_of_lookup_ofList (htensors ▸ ht)
      have hwrap := hsum (name, t) hmem
      dsimp only at hwrap
      have hend := hfit name t ht
      rwa [toNat_endIn (by omega)] at hend
    constructor
    · exact List.pairwise_map.mpr hunique
    · intro name t ht
      exact ⟨Nat.le_add_right _ _, Nat.add_le_add_left t.le _, hin name t ht⟩
    · intro p name t ht
      exact readTensor_of_fits ht (hin name t ht)
    · intro name t ht
      have hend := hin name t ht
      rw [UInt64.le_iff_toNat_le, toNat_seekTo (by omega)]
      exact Nat.le_add_right _ _
    · intro name t ht
      have hend := hin name t ht
      rw [t.toNat_byteLen]
      omega

theorem rangesHold_byteFile : RangesHold byteFile
    ⟨OrderedMap.ofList [("a", byteEntry)], 8 + byteFile.headerLen, byteFile.len⟩ := by
  refine (rangesHold_iff read_byteFile).mpr ⟨?_, ?_⟩
  · rw [byteFile, declared_fileOf headerEntries_byteText]
    decide
  · rw [byteFile, declared_fileOf headerEntries_byteText]
    decide

/-- **A range that wraps passes the check**: the file is read, and its tensor ends far past it. -/
theorem wrappedFile_not_rangesHold : ∃ h, SafetensorsHeader.read "f" wrappedFile = .ok h ∧
    ¬RangesHold wrappedFile h := by
  refine ⟨_, read_fileOf (by decide) headerEntries_wrappedText (by decide), fun hold => ?_⟩
  have hlookup : (OrderedMap.ofList [("a", wrappedEntry)]).lookup "a" = some wrappedEntry :=
    (OrderedMap.lookup_ofList (by decide)).mpr List.mem_cons_self
  have hend := (hold.inFile "a" wrappedEntry hlookup).2.2
  revert hend
  decide

end Repack

end Mimo26

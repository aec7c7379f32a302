import Mathlib.Tactic.Simps.Basic
import Mimo26.Library.Result
import Mimo26.Wire.Frame

/-!
# Round trips of the frame codec

What an encoder writes, `decodeFrame` reads back: the header is a laid-out record, so each of its
fields reads as written, the seal touches the checksum field alone and the rows after it are
tables of one width.

## Main definitions

* `ReturnFrame.Encodable`, `RequestFrame.Encodable` — the frames the encoders accept
* `returnHeader`, `requestHeader` — the headers they write

## Main results

* `encodeReturnSeq_eq_ok`, `encodeRequestSeq_eq_ok` — when an encoder succeeds, and what it writes
* `parseHeader_sealed`, `verifyCrc_sealed` — header and checksum of a sealed frame
* `decodeFrame_encodeReturnSeq`, `decodeFrame_encodeRequestSeq` — the round trips
-/

namespace Mimo26

namespace Wire

open Result

/-! ### Guards and fields -/

@[simp] theorem ensure_eq_ok {c : Bool} {e : WireError} {u : Unit} :
    ensure c e = .ok u ↔ c = true := by
  cases c <;> simp [ensure]

theorem ensure_pos {p : Prop} [Decidable p] {e : WireError} (h : p) :
    ensure (decide p) e = .ok () :=
  ensure_eq_ok.mpr (decide_eq_true h)

theorem checkedMul_eq_ok {a b c : ℕ} {field : String} :
    checkedMul a b field = .ok c ↔ a * b ≤ usizeMax ∧ c = a * b := by
  rw [checkedMul]
  split <;> simp_all [eq_comm]

theorem asU32_eq_ok {v : ℕ} {field : String} {x : UInt32} :
    asU32 v field = .ok x ↔ v < 2 ^ 32 ∧ x = UInt32.ofNat v := by
  rw [asU32]
  split <;> simp_all [eq_comm]

theorem getLe_of_slice {w x off : ℕ} {bytes : List UInt8} (hw : 0 < w) (hx : x < 256 ^ w)
    (h : Bytes.slice bytes off w = Bytes.toLe w x) : getLe w bytes off = .ok x := by
  have hlen : (Bytes.slice bytes off w).length = w := by rw [h, Bytes.length_toLe]
  have hin : off + w ≤ bytes.length := by
    rw [Bytes.slice, List.length_take, List.length_drop] at hlen
    omega
  rw [getLe, if_pos hin, h, Bytes.ofLe_toLe_of_lt hx]

theorem getU16_of_slice {off : ℕ} {bytes : List UInt8} {v : UInt16}
    (h : Bytes.slice bytes off 2 = le16 v) : getU16 bytes off = .ok v := by
  rw [getU16, getLe_of_slice (by omega) v.toNat_lt h]
  simp [Except.map]

theorem getU32_of_slice {off : ℕ} {bytes : List UInt8} {v : UInt32}
    (h : Bytes.slice bytes off 4 = le32 v) : getU32 bytes off = .ok v := by
  rw [getU32, getLe_of_slice (by omega) v.toNat_lt h]
  simp [Except.map]

theorem getU64_of_slice {off : ℕ} {bytes : List UInt8} {v : UInt64}
    (h : Bytes.slice bytes off 8 = le64 v) : getU64 bytes off = .ok v := by
  rw [getU64, getLe_of_slice (by omega) v.toNat_lt h]
  simp [Except.map]

theorem le16_injective : Function.Injective le16 := by
  intro a b h
  have hle := congrArg Bytes.ofLe h
  rw [le16, le16, Bytes.ofLe_toLe_of_lt a.toNat_lt, Bytes.ofLe_toLe_of_lt b.toNat_lt] at hle
  exact UInt16.toNat_inj.mp hle

theorem le32_injective : Function.Injective le32 := by
  intro a b h
  have hle := congrArg Bytes.ofLe h
  rw [le32, le32, Bytes.ofLe_toLe_of_lt a.toNat_lt, Bytes.ofLe_toLe_of_lt b.toNat_lt] at hle
  exact UInt32.toNat_inj.mp hle

theorem le64_injective : Function.Injective le64 := by
  intro a b h
  have hle := congrArg Bytes.ofLe h
  rw [le64, le64, Bytes.ofLe_toLe_of_lt a.toNat_lt, Bytes.ofLe_toLe_of_lt b.toNat_lt] at hle
  exact UInt64.toNat_inj.mp hle

/-- A number read is the one that lies there. -/
theorem slice_of_getLe {w off x : ℕ} {bytes : List UInt8} (h : getLe w bytes off = .ok x) :
    off + w ≤ bytes.length ∧ Bytes.slice bytes off w = Bytes.toLe w x ∧ x < 256 ^ w := by
  rw [getLe] at h
  split at h
  · next hin =>
    obtain rfl := Except.ok.inj h
    have hlen := Bytes.length_slice hin
    have hround := Bytes.toLe_ofLe (Bytes.slice bytes off w)
    have hlt := Bytes.ofLe_lt (Bytes.slice bytes off w)
    rw [hlen] at hround hlt
    exact ⟨hin, hround.symm, hlt⟩
  · exact nomatch h

theorem slice_of_getU16 {off : ℕ} {bytes : List UInt8} {v : UInt16} (h : getU16 bytes off = .ok v) :
    Bytes.slice bytes off 2 = le16 v := by
  obtain ⟨x, hx, rfl⟩ := map_eq_ok.mp h
  obtain ⟨-, hslice, hlt⟩ := slice_of_getLe hx
  rw [hslice, le16, UInt16.toNat_ofNat_of_lt' hlt]

theorem slice_of_getU32 {off : ℕ} {bytes : List UInt8} {v : UInt32} (h : getU32 bytes off = .ok v) :
    Bytes.slice bytes off 4 = le32 v := by
  obtain ⟨x, hx, rfl⟩ := map_eq_ok.mp h
  obtain ⟨-, hslice, hlt⟩ := slice_of_getLe hx
  rw [hslice, le32, UInt32.toNat_ofNat_of_lt' hlt]

theorem slice_of_getU64 {off : ℕ} {bytes : List UInt8} {v : UInt64} (h : getU64 bytes off = .ok v) :
    Bytes.slice bytes off 8 = le64 v := by
  obtain ⟨x, hx, rfl⟩ := map_eq_ok.mp h
  obtain ⟨-, hslice, hlt⟩ := slice_of_getLe hx
  rw [hslice, le64, UInt64.toNat_ofNat_of_lt' hlt]

/-! ### Row descriptors and route entries -/

@[simp] theorem length_rowDescriptorWire (row : RowDescriptor) (naive : WireNaive) :
    (rowDescriptorWire row naive).length = rowDescriptorLen := by
  simp [rowDescriptorWire]

@[simp] theorem length_routeEntryWire (r : RouteEntry) (naive : WireNaive) :
    (routeEntryWire r naive).length = routeEntryLen := by
  simp [routeEntryWire]

section record

variable {out : List UInt8} {fs : List (ℕ × List UInt8)} {off : ℕ}

theorem getU16_putAll {v : UInt16} (hl : Bytes.Laid out.length 0 fs) (hm : (off, le16 v) ∈ fs) :
    getU16 (Bytes.putAll out fs) off = .ok v :=
  getU16_of_slice (by simpa using Bytes.slice_putAll hl hm)

theorem getU32_putAll {v : UInt32} (hl : Bytes.Laid out.length 0 fs) (hm : (off, le32 v) ∈ fs) :
    getU32 (Bytes.putAll out fs) off = .ok v :=
  getU32_of_slice (by simpa using Bytes.slice_putAll hl hm)

theorem getU64_putAll {v : UInt64} (hl : Bytes.Laid out.length 0 fs) (hm : (off, le64 v) ∈ fs) :
    getU64 (Bytes.putAll out fs) off = .ok v :=
  getU64_of_slice (by simpa using Bytes.slice_putAll hl hm)

end record

theorem rowDescriptorFromWire_wire {bytes : List UInt8} {offset : ℕ} {row : RowDescriptor}
    (hlen : offset + rowDescriptorLen ≤ bytes.length)
    (h : Bytes.slice bytes offset rowDescriptorLen = rowDescriptorWire row .none) :
    rowDescriptorFromWire bytes offset .none = .ok row := by
  rw [rowDescriptorFromWire, ensure_pos hlen, ok_bind, h, rowDescriptorWire]
  simp only [descIdOffsets, WireNaive.has_none, Bool.false_eq_true, if_false]
  generalize hfs : [(Desc.rowId.off, le64 row.rowId), _, _, _, _, _] = fs
  have hl : Bytes.Laid (List.replicate rowDescriptorLen (0 : UInt8)).length 0 fs := by
    subst hfs
    simp [Bytes.Laid, Desc.off, rowDescriptorLen]
  rw [getU64_putAll (v := row.rowId) hl (by simp [← hfs]),
    getU16_putAll (v := row.sourceKind.code) hl (by simp [← hfs]),
    getU64_putAll (v := row.sourceRequestId) hl (by simp [← hfs]),
    getU64_putAll (v := row.tokenPosition) hl (by simp [← hfs]),
    getU32_putAll (v := row.routeOffset) hl (by simp [← hfs]),
    getU32_putAll (v := row.routeCount) hl (by simp [← hfs])]
  simp

theorem routeEntryFromWire_wire {bytes : List UInt8} {offset : ℕ} {r : RouteEntry}
    (hlen : offset + routeEntryLen ≤ bytes.length)
    (h : Bytes.slice bytes offset routeEntryLen = routeEntryWire r .none) :
    routeEntryFromWire bytes offset .none = .ok r := by
  rw [routeEntryFromWire, ensure_pos hlen, ok_bind, h, routeEntryWire]
  simp only [routeOffsets, WireNaive.has_none, Bool.false_eq_true, if_false, getF32]
  generalize hfs : [(Route.rowIndex.off, le32 r.rowIndex), _, _] = fs
  have hl : Bytes.Laid (List.replicate routeEntryLen (0 : UInt8)).length 0 fs := by
    subst hfs
    simp [Bytes.Laid, Route.off, routeEntryLen]
  rw [getU32_putAll (v := r.rowIndex) hl (by simp [← hfs]),
    getU32_putAll (v := r.expertId) hl (by simp [← hfs]),
    getU32_putAll (v := r.gateWeight) hl (by simp [← hfs])]
  simp

/-! ### Sealed frames -/

@[simp] theorem length_writeHeader (h : HeaderFields) (naive : WireNaive) :
    (writeHeader h naive).length = headerLen := by
  simp [writeHeader]

@[simp] theorem length_sealFrame (frame : List UInt8) (naive : WireNaive) (nocrc : Bool) :
    (sealFrame frame naive nocrc).length = frame.length := by
  rw [sealFrame]
  split <;> simp

theorem laid_headerLayout (h : HeaderFields) (naive : WireNaive) :
    Bytes.Laid headerLen 0 (headerLayout h naive) := by
  simp [Bytes.Laid, headerLayout, Hdr.off, headerLen, magic]

theorem adjacent_headerLayout (h : HeaderFields) : Bytes.Adjacent 0 (headerLayout h .none) := by
  simp [Bytes.Adjacent, headerLayout, Hdr.off, magic]

theorem length_headerFields (h : HeaderFields) :
    ((headerLayout h .none).flatMap (·.2)).length = Hdr.crc32c.off := by
  simp [headerLayout, magic, Hdr.off]

/-- The header is its fields side by side, then the checksum field and the reserved bytes. -/
theorem writeHeader_eq (h : HeaderFields) : writeHeader h .none =
    (headerLayout h .none).flatMap (·.2) ++ List.replicate 8 0 := by
  have hfields : Bytes.slice (writeHeader h .none) 0 _ = _ :=
      Bytes.slice_adjacent (adjacent_headerLayout h)
    fun f hf => Bytes.slice_putAll (by simpa using laid_headerLayout h .none) hf
  have hzero : Bytes.slice (writeHeader h .none) Hdr.crc32c.off 8 = List.replicate 8 0 :=
    Bytes.slice_putAll_of_apart (f := (Hdr.crc32c.off, List.replicate 8 0)) (by
      simp [Bytes.Apart, headerLayout, Hdr.off, magic])
  rw [length_headerFields] at hfields
  rw [← List.take_append_drop Hdr.crc32c.off (writeHeader h .none), ← hfields, ← hzero]
  have hdrop : Bytes.slice (writeHeader h .none) Hdr.crc32c.off 8 =
      (writeHeader h .none).drop Hdr.crc32c.off :=
    List.take_of_length_le (by simp [Hdr.off, headerLen])
  rw [hdrop]
  rfl

variable {h : HeaderFields} {body : List UInt8} {nocrc : Bool}

/-- Every header field of a sealed frame reads as written. -/
theorem slice_sealed {naive : WireNaive} {off : ℕ} {v : List UInt8}
    (hm : (off, v) ∈ headerLayout h naive) (hoff : off + v.length ≤ Hdr.crc32c.off) :
    Bytes.slice (sealFrame (writeHeader h naive ++ body) naive nocrc) off v.length = v := by
  have hhead : Bytes.slice (writeHeader h naive ++ body) off v.length = v := by
    have hle : off + v.length ≤ headerLen := le_trans hoff (by decide)
    rw [Bytes.slice_append_left (by rwa [length_writeHeader])]
    exact @Bytes.slice_putAll _ _ 0 (by simpa using laid_headerLayout h naive) _ hm
  rw [sealFrame]
  split
  · exact hhead
  · rw [Bytes.slice_put_of_le hoff, hhead]

theorem getU16_sealed {off : ℕ} {v : UInt16} (hm : (off, le16 v) ∈ headerLayout h .none)
    (hoff : off + 2 ≤ Hdr.crc32c.off) :
    getU16 (sealFrame (writeHeader h .none ++ body) .none nocrc) off = .ok v :=
  getU16_of_slice (slice_sealed hm (by simpa using hoff))

theorem getU32_sealed {off : ℕ} {v : UInt32} (hm : (off, le32 v) ∈ headerLayout h .none)
    (hoff : off + 4 ≤ Hdr.crc32c.off) :
    getU32 (sealFrame (writeHeader h .none ++ body) .none nocrc) off = .ok v :=
  getU32_of_slice (slice_sealed hm (by simpa using hoff))

theorem getU64_sealed {off : ℕ} {v : UInt64} (hm : (off, le64 v) ∈ headerLayout h .none)
    (hoff : off + 8 ≤ Hdr.crc32c.off) :
    getU64 (sealFrame (writeHeader h .none ++ body) .none nocrc) off = .ok v :=
  getU64_of_slice (slice_sealed hm (by simpa using hoff))

/-- The header of a sealed frame parses back. -/
theorem parseHeader_sealed (hkind : h.kind = kindRequest ∨ h.kind = kindReturn)
    (hwire : h.wireBytes.toNat = headerLen + body.length) :
    parseHeader (sealFrame (writeHeader h .none ++ body) .none nocrc) .none = .ok h := by
  have hmagic : Bytes.slice (sealFrame (writeHeader h .none ++ body) .none nocrc)
      Hdr.magic.off 8 = magic :=
    slice_sealed (v := magic) (by simp [headerLayout]) (by decide)
  have hlen : (sealFrame (writeHeader h .none ++ body) .none nocrc).length
      = headerLen + body.length := by simp
  have hhdr : (UInt32.ofNat headerLen).toNat = headerLen := by decide
  rw [parseHeader, hmagic, hlen]
  rw [getU16_sealed (v := version) (by simp [headerLayout]) (by decide),
    getU16_sealed (v := h.kind) (by simp [headerLayout]) (by decide),
    getU32_sealed (v := UInt32.ofNat headerLen) (by simp [headerLayout]) (by decide),
    getU64_sealed (v := h.wireBytes) (by simp [headerLayout]) (by decide),
    getU64_sealed (v := h.requestId) (by simp [headerLayout]) (by decide),
    getU64_sealed (v := h.placementVersion) (by simp [headerLayout]) (by decide),
    getU32_sealed (v := h.layerId) (by simp [headerLayout]) (by decide),
    getU32_sealed (v := h.rowCount) (by simp [headerLayout]) (by decide),
    getU32_sealed (v := h.dim) (by simp [headerLayout]) (by decide),
    getU16_sealed (v := h.dtype.code .none) (by simp [headerLayout]) (by decide),
    getU16_sealed (v := h.sourceKind.code) (by simp [headerLayout]) (by decide),
    getU32_sealed (v := h.routeCount) (by simp [headerLayout]) (by decide),
    getU32_sealed (v := h.rowDescriptorBytes) (by simp [headerLayout]) (by decide),
    getU32_sealed (v := h.routeBytes) (by simp [headerLayout]) (by decide),
    getU64_sealed (v := h.payloadBytes) (by simp [headerLayout]) (by decide),
    getU64_sealed (v := h.logicalPayloadBytes) (by simp [headerLayout]) (by decide),
    getU32_sealed (v := h.flags) (by simp [headerLayout]) (by decide),
    getU32_sealed (v := h.rowStrideBytes) (by simp [headerLayout]) (by decide),
    getU32_sealed (v := h.status.code) (by simp [headerLayout]) (by decide),
    getU64_sealed (v := h.executorId) (by simp [headerLayout]) (by decide),
    getU64_sealed (v := h.tokenPosition) (by simp [headerLayout]) (by decide),
    getU64_sealed (v := h.seq) (by simp [headerLayout]) (by decide)]
  simp [ensure, hkind, hwire, hhdr]

theorem verifyCrc_eq_ok {bytes : List UInt8} {seq : UInt64} :
    verifyCrc bytes .none false seq = .ok () ↔
      getU32 bytes Hdr.crc32c.off = .ok (crc32cZeroed .castagnoli bytes Hdr.crc32c.off) := by
  have hcrc : computeCrc bytes .none = crc32cZeroed .castagnoli bytes Hdr.crc32c.off := by
    simp [computeCrc, familyFor]
  simp only [verifyCrc, WireNaive.has_none, Bool.false_eq_true, if_false, hcrc]
  rw [bind_eq_ok]
  constructor
  · rintro ⟨got, hgot, hsame⟩
    rw [hgot, of_decide_eq_true (ensure_eq_ok.mp hsame)]
  · exact fun hgot => ⟨_, hgot, ensure_pos rfl⟩

/-- The checksum of a sealed frame verifies. -/
theorem verifyCrc_sealed {frame : List UInt8} (hlen : headerLen ≤ frame.length) (seq : UInt64) :
    verifyCrc (sealFrame frame .none nocrc) .none nocrc seq = .ok () := by
  cases nocrc with
  | true => simp [verifyCrc]
  | false =>
    have hcrc : computeCrc (sealFrame frame .none false) .none = computeCrc frame .none := by
      simp only [computeCrc, sealFrame, WireNaive.has_none, Bool.false_eq_true, if_false]
      exact crc32cZeroed_put _ _ _ _ (length_le32 _)
    have hget : getU32 (sealFrame frame .none false) Hdr.crc32c.off
        = .ok (computeCrc frame .none) := by
      refine getU32_of_slice ?_
      simp only [sealFrame, Bool.false_eq_true, if_false]
      refine Bytes.slice_put_self (length_le32 _).symm ?_
      rw [length_le32]
      exact le_trans (by decide) hlen
    simp only [verifyCrc, WireNaive.has_none, Bool.false_eq_true, if_false]
    rw [hget, hcrc, ok_bind]
    exact ensure_pos rfl

/-- The bytes after the header of a sealed frame. -/
theorem drop_sealed :
    (sealFrame (writeHeader h .none ++ body) .none nocrc).drop headerLen = body := by
  have hdrop : (writeHeader h .none ++ body).drop headerLen = body :=
    List.drop_left' (length_writeHeader ..)
  rw [sealFrame]
  split
  · exact hdrop
  · rw [Bytes.put_append_left (by rw [length_le32, length_writeHeader]; decide)]
    exact List.drop_left' (by simp)

/-! ### Return frames -/

/-- The return frames `encodeReturnSeq` accepts. -/
structure ReturnFrame.Encodable (f : ReturnFrame) : Prop where
  rows_ne : f.rows ≠ []
  routeCount_ne : f.routeCount ≠ 0
  codes : ∀ row ∈ f.rows, row.codes.length = hiddenDim
  rows_lt : f.rows.length < 2 ^ 32
  routeCount_lt : f.routeCount < 2 ^ 32

/-- The header of an encoded return. -/
@[simps]
def returnHeader (f : ReturnFrame) (seq : UInt64) : HeaderFields where
  kind := kindReturn
  requestId := f.requestId
  placementVersion := f.placementVersion
  layerId := f.layerId
  rowCount := UInt32.ofNat f.rows.length
  dim := UInt32.ofNat hiddenDim
  dtype := .bf16
  sourceKind := .decode
  routeCount := UInt32.ofNat f.routeCount
  rowDescriptorBytes := 0
  routeBytes := 0
  payloadBytes := UInt64.ofNat (f.rows.length * returnRowBytesCanonical)
  logicalPayloadBytes := UInt64.ofNat (f.rows.length * returnRowBytesCanonical)
  wireBytes := UInt64.ofNat (headerLen + f.rows.length * returnRowBytesCanonical)
  flags := f.flags
  rowStrideBytes := UInt32.ofNat returnRowBytesCanonical
  status := f.status
  executorId := f.executorId
  tokenPosition := f.tokenPosition
  seq := seq

/-- The bytes of a return after its header. -/
def returnBody (f : ReturnFrame) : List UInt8 :=
  f.rows.flatMap fun row => row.codes.flatMap le16

theorem checkReturnRows_eq_ok {rows : List ReturnRow} :
    checkReturnRows rows = .ok () ↔ ∀ row ∈ rows, row.codes.length = hiddenDim := by
  rw [checkReturnRows, forM_eq_ok]
  simp

theorem returnRowBytes_none (routeCount : ℕ) :
    returnRowBytes routeCount .none = returnRowBytesCanonical := by
  simp [returnRowBytes]

theorem encodeReturnSeq_eq_ok {f : ReturnFrame} {seq : UInt64} {bytes : List UInt8} :
    encodeReturnSeq f seq .none nocrc = .ok bytes ↔
      f.Encodable ∧
        bytes = sealFrame (writeHeader (returnHeader f seq) .none ++ returnBody f) .none nocrc := by
  have hblock : returnRowBytesCanonical = 8192 := by decide
  have hbody : (f.rows.flatMap fun row => returnRowWire row f.routeCount .none) = returnBody f := by
    simp [returnBody, returnRowWire, returnFp32]
  rw [encodeReturnSeq]
  simp only [bind_eq_ok, ensure_eq_ok, checkedMul_eq_ok, asU32_eq_ok, pure_eq_ok,
    returnRowBytes_none, hbody, decide_eq_true_eq, Except.ok.injEq]
  constructor
  · rintro ⟨⟨⟩, hrows, ⟨⟩, hroutes, ⟨⟩, hcodes, _, ⟨hmul, rfl⟩, ⟨⟩, hwire, _, ⟨hlt, rfl⟩,
      _, ⟨hrlt, rfl⟩, _, ⟨-, rfl⟩, rfl⟩
    refine ⟨⟨hrows, hroutes, checkReturnRows_eq_ok.mp hcodes, hlt, hrlt⟩, ?_⟩
    simp [returnHeader, returnFp32]
  · rintro ⟨⟨hrows, hroutes, hcodes, hlt, hrlt⟩, rfl⟩
    have hmul : f.rows.length * returnRowBytesCanonical ≤ usizeMax := by
      rw [hblock, usizeMax]
      omega
    have hwire : headerLen + f.rows.length * returnRowBytesCanonical ≤ usizeMax := by
      rw [hblock, usizeMax, headerLen]
      omega
    refine ⟨(), hrows, (), hroutes, (), checkReturnRows_eq_ok.mpr hcodes, _, ⟨hmul, rfl⟩, (), hwire,
      _, ⟨hlt, rfl⟩, _, ⟨hrlt, rfl⟩, _, ⟨by rw [hblock]; decide, rfl⟩, ?_⟩
    simp [returnHeader, returnFp32]

theorem length_le16_flatMap (codes : List UInt16) :
    (codes.flatMap le16).length = codes.length * 2 :=
  Bytes.length_flatMap_of_forall fun v _ => length_le16 v

theorem ReturnFrame.Encodable.length_row {f : ReturnFrame} (hf : f.Encodable) :
    ∀ row ∈ f.rows, (row.codes.flatMap le16).length = returnRowBytesCanonical := by
  intro row hrow
  rw [length_le16_flatMap, hf.codes row hrow]
  rfl

/-- The codes of a row block read as written. -/
theorem decodeReturnRow_wire {h : HeaderFields} {row : ReturnRow} (hdtype : h.dtype = .bf16)
    (hcodes : row.codes.length = hiddenDim) :
    decodeReturnRow h (row.codes.flatMap le16) returnRowBytesCanonical .none = .ok row := by
  have hlen : (row.codes.flatMap le16).length = hiddenDim * 2 := by
    rw [length_le16_flatMap, hcodes]
  have hchunks : Bytes.chunksExact 2 (row.codes.flatMap le16) = row.codes.map le16 :=
    Bytes.chunksExact_flatMap (fun v _ => length_le16 v) (by decide)
  have hcode (v : UInt16) : UInt16.ofNat (Bytes.ofLe (le16 v)) = v := by
    rw [le16, Bytes.ofLe_toLe_of_lt v.toNat_lt]
    simp
  rw [decodeReturnRow, hdtype]
  simp only
  rw [ensure_pos (by decide), ok_bind, ensure_pos (Or.inl (by decide)), ok_bind,
    List.take_of_length_le hlen.le, hchunks, List.map_map, Function.comp_def]
  simp [hcode]

section Encodable

variable {f : ReturnFrame} (hf : f.Encodable)
include hf

theorem ReturnFrame.Encodable.toNat_rowCount : (UInt32.ofNat f.rows.length).toNat = f.rows.length :=
  UInt32.toNat_ofNat_of_lt' hf.rows_lt

theorem ReturnFrame.Encodable.toNat_routeCount : (UInt32.ofNat f.routeCount).toNat = f.routeCount :=
  UInt32.toNat_ofNat_of_lt' hf.routeCount_lt

theorem ReturnFrame.Encodable.rowCount_ne : UInt32.ofNat f.rows.length ≠ 0 := by
  intro h0
  have hlen := hf.toNat_rowCount
  rw [h0] at hlen
  exact hf.rows_ne (List.length_eq_zero_iff.mp hlen.symm)

theorem ReturnFrame.Encodable.routeCount_ne' : UInt32.ofNat f.routeCount ≠ 0 := by
  intro h0
  have hcount := hf.toNat_routeCount
  rw [h0] at hcount
  exact hf.routeCount_ne hcount.symm

theorem ReturnFrame.Encodable.wireBytes_lt :
    headerLen + f.rows.length * returnRowBytesCanonical ≤ usizeMax := by
  have hlt := hf.rows_lt
  rw [show returnRowBytesCanonical = 8192 from rfl, usizeMax, headerLen]
  omega

theorem ReturnFrame.Encodable.length_body :
    (returnBody f).length = f.rows.length * returnRowBytesCanonical :=
  Bytes.length_flatMap_of_forall hf.length_row

end Encodable

theorem toNat_ofNat_of_le {n : ℕ} (hn : n ≤ usizeMax) : (UInt64.ofNat n).toNat = n :=
  UInt64.toNat_ofNat_of_lt' (by rw [usizeMax] at hn; show _ < 2 ^ 64; omega)

theorem decodeReturn_sealed {f : ReturnFrame} {seq : UInt64} (hf : f.Encodable)
    (hflags : f.status ≠ .ok ∨ f.flags &&& flagReturnRequired = flagReturnRequired) :
    decodeReturn (returnHeader f seq)
      (sealFrame (writeHeader (returnHeader f seq) .none ++ returnBody f) .none nocrc) .none
      = .ok { f with seq := seq } := by
  have hmul : f.rows.length * returnRowBytesCanonical ≤ usizeMax :=
    le_trans (Nat.le_add_left _ _) hf.wireBytes_lt
  have hstride : (UInt32.ofNat returnRowBytesCanonical).toNat = returnRowBytesCanonical := by decide
  have hrow (i : ℕ) (hi : i < f.rows.length) :
      decodeReturnRow (returnHeader f seq)
        (Bytes.slice (returnBody f) (i * returnRowBytesCanonical) returnRowBytesCanonical)
        returnRowBytesCanonical .none = .ok f.rows[i] := by
    rw [returnBody, Bytes.slice_flatMap hf.length_row hi]
    exact decodeReturnRow_wire rfl (hf.codes _ (List.getElem_mem hi))
  have hdim : (UInt32.ofNat hiddenDim).toNat = hiddenDim := by decide
  rw [decodeReturn, drop_sealed]
  simp only [returnHeader_status, returnHeader_flags, returnHeader_rowCount, returnHeader_dim,
    returnHeader_rowStrideBytes, returnHeader_payloadBytes, returnHeader_rowDescriptorBytes,
    returnHeader_routeBytes, returnHeader_routeCount, hf.toNat_rowCount, hf.toNat_routeCount,
    hstride, hdim, hf.length_body, toNat_ofNat_of_le hmul]
  rw [ensure_pos hflags, ok_bind, ensure_pos hf.rowCount_ne, ok_bind, ensure_pos trivial, ok_bind,
    checkedMul_eq_ok.mpr ⟨hmul, rfl⟩, ok_bind, ensure_pos rfl, ok_bind,
    ensure_pos ⟨trivial, trivial⟩, ok_bind, ensure_pos rfl, ok_bind, ensure_pos hf.routeCount_ne',
      ok_bind,
    mapM_range_eq_ok hrow]
  rfl

theorem decodeFrame_sealed_return (hkind : h.kind = kindReturn)
    (hwire : h.wireBytes.toNat = headerLen + body.length) :
    decodeFrame (sealFrame (writeHeader h .none ++ body) .none nocrc) .none nocrc
      = (decodeReturn h (sealFrame (writeHeader h .none ++ body) .none nocrc) .none).map
          .return := by
  rw [decodeFrame, parseHeader_sealed (Or.inr hkind) hwire, ok_bind, verifyCrc_sealed (by simp),
    ok_bind, if_neg (by rw [hkind]; decide), if_pos hkind]
  rfl

theorem decodeFrame_sealed_request (hkind : h.kind = kindRequest)
    (hwire : h.wireBytes.toNat = headerLen + body.length) :
    decodeFrame (sealFrame (writeHeader h .none ++ body) .none nocrc) .none nocrc
      = (decodeRequest h (sealFrame (writeHeader h .none ++ body) .none nocrc) .none).map
          .request := by
  rw [decodeFrame, parseHeader_sealed (Or.inl hkind) hwire, ok_bind, verifyCrc_sealed (by simp),
    ok_bind, if_pos hkind]
  rfl

/-- **Round trip of a return.** -/
theorem decodeFrame_encodeReturnSeq {f : ReturnFrame} {seq : UInt64} {bytes : List UInt8}
    (henc : encodeReturnSeq f seq .none nocrc = .ok bytes)
    (hflags : f.status ≠ .ok ∨ f.flags &&& flagReturnRequired = flagReturnRequired) :
    decodeFrame bytes .none nocrc = .ok (.return { f with seq := seq }) := by
  obtain ⟨hf, rfl⟩ := encodeReturnSeq_eq_ok.mp henc
  have hwire : (returnHeader f seq).wireBytes.toNat = headerLen + (returnBody f).length := by
    rw [hf.length_body]
    exact toNat_ofNat_of_le hf.wireBytes_lt
  rw [decodeFrame_sealed_return rfl hwire, decodeReturn_sealed hf hflags]
  rfl

/-! ### Request frames -/

/-- Hidden row bytes of the canonical layout. -/
abbrev hiddenStride : ℕ := hiddenRowBytesCanonical

theorem hiddenRowBytes_none : hiddenRowBytes .none = hiddenStride := by
  simp [hiddenRowBytes, hiddenRowBytesCanonical, scaleK]

theorem requestRowBytes_none : requestRowBytes .none = requestRowBytesCanonical := by
  rw [requestRowBytes, hiddenRowBytes_none]
  rfl

/-- The request frames `encodeRequestSeq` accepts. -/
structure RequestFrame.Encodable (f : RequestFrame) : Prop where
  rows_ne : f.rows ≠ []
  hiddenRows_len : f.hiddenRows.length = f.rows.length
  rowsRoutes : validateRowsRoutes f.rows f.routes = .ok ()
  payload_len : ∀ r ∈ f.hiddenRows, r.payload.length = hiddenDim
  scales_len : ∀ r ∈ f.hiddenRows, r.scales.length = hiddenStride - hiddenDim
  rowBytes_lt : f.rows.length * rowDescriptorLen < 2 ^ 32
  routeBytes_lt : f.routes.length * routeEntryLen < 2 ^ 32

/-- The length of an encoded request. -/
def requestWireLen (f : RequestFrame) : ℕ :=
  headerLen + (f.rows.length * rowDescriptorLen + f.routes.length * routeEntryLen +
    f.rows.length * hiddenStride)

/-- The header of an encoded request. -/
@[simps]
def requestHeader (f : RequestFrame) (seq : UInt64) : HeaderFields where
  kind := kindRequest
  requestId := f.requestId
  placementVersion := f.placementVersion
  layerId := f.layerId
  rowCount := UInt32.ofNat f.rows.length
  dim := UInt32.ofNat hiddenDim
  dtype := .fp8E4m3Ue8m0K32
  sourceKind := f.sourceKind
  routeCount := UInt32.ofNat f.routes.length
  rowDescriptorBytes := UInt32.ofNat (f.rows.length * rowDescriptorLen)
  routeBytes := UInt32.ofNat (f.routes.length * routeEntryLen)
  payloadBytes := UInt64.ofNat (f.rows.length * hiddenStride)
  logicalPayloadBytes := UInt64.ofNat (f.rows.length * requestRowBytesCanonical)
  wireBytes := UInt64.ofNat (requestWireLen f)
  flags := f.flags
  rowStrideBytes := UInt32.ofNat hiddenStride
  status := .ok
  executorId := f.executorId
  tokenPosition := f.tokenPosition
  seq := seq

theorem checkHiddenRows_eq_ok {hiddenRows : List HiddenRow} {scalesLen : ℕ} :
    checkHiddenRows hiddenRows scalesLen = .ok () ↔
      ∀ r ∈ hiddenRows, r.payload.length = hiddenDim ∧ r.scales.length = scalesLen := by
  rw [checkHiddenRows, forM_eq_ok]
  simp [bind_eq_ok]

section Encodable

variable {f : RequestFrame} (hf : f.Encodable)
include hf

theorem RequestFrame.Encodable.rows_lt : f.rows.length < 2 ^ 32 := by
  have hlt := hf.rowBytes_lt
  rw [rowDescriptorLen] at hlt
  omega

theorem RequestFrame.Encodable.routes_lt : f.routes.length < 2 ^ 32 := by
  have hlt := hf.routeBytes_lt
  rw [routeEntryLen] at hlt
  omega

theorem RequestFrame.Encodable.wireLen_le : requestWireLen f ≤ usizeMax := by
  have hrows := hf.rowBytes_lt
  have hroutes := hf.routeBytes_lt
  have hlt := hf.rows_lt
  rw [requestWireLen, show hiddenStride = 4224 from rfl, usizeMax, headerLen]
  omega

theorem RequestFrame.Encodable.logical_le :
    f.rows.length * requestRowBytesCanonical ≤ usizeMax := by
  have hlt := hf.rows_lt
  rw [show requestRowBytesCanonical = 4360 from rfl, usizeMax]
  omega

theorem RequestFrame.Encodable.rowCount_ne : UInt32.ofNat f.rows.length ≠ 0 := by
  intro h0
  have hlen := UInt32.toNat_ofNat_of_lt' hf.rows_lt
  rw [h0] at hlen
  exact hf.rows_ne (List.length_eq_zero_iff.mp hlen.symm)

theorem RequestFrame.Encodable.length_hiddenRow :
    ∀ r ∈ f.hiddenRows, (r.payload ++ r.scales).length = hiddenStride := by
  intro r hr
  rw [List.length_append, hf.payload_len r hr, hf.scales_len r hr]
  rfl

theorem RequestFrame.Encodable.length_body :
    (requestBody f .none).length = f.rows.length * rowDescriptorLen +
      f.routes.length * routeEntryLen + f.rows.length * hiddenStride := by
  rw [requestBody, List.length_append, List.length_append,
    Bytes.length_flatMap_of_forall fun r _ => length_rowDescriptorWire r .none,
    Bytes.length_flatMap_of_forall fun r _ => length_routeEntryWire r .none,
    Bytes.length_flatMap_of_forall hf.length_hiddenRow, hf.hiddenRows_len, add_assoc]

end Encodable

theorem encodeRequestSeq_eq_ok {f : RequestFrame} {seq : UInt64} {bytes : List UInt8} :
    encodeRequestSeq f seq .none nocrc = .ok bytes ↔
      f.Encodable ∧ bytes = sealFrame (writeHeader (requestHeader f seq) .none ++
        requestBody f .none) .none nocrc := by
  rw [encodeRequestSeq]
  simp only [bind_eq_ok, ensure_eq_ok, checkedMul_eq_ok, asU32_eq_ok, pure_eq_ok,
    hiddenRowBytes_none, requestRowBytes_none, decide_eq_true_eq, Except.ok.injEq]
  constructor
  · rintro ⟨⟨⟩, hrows, ⟨⟩, hhidden, ⟨⟩, hroutes, ⟨⟩, hcheck, _, ⟨-, rfl⟩, _, ⟨-, rfl⟩, _, ⟨-, rfl⟩,
      _, ⟨-, rfl⟩, ⟨⟩, -, _, ⟨-, rfl⟩, _, ⟨-, rfl⟩, _, ⟨hrb, rfl⟩, _, ⟨hob, rfl⟩, _, ⟨-, rfl⟩, rfl⟩
    have hall := checkHiddenRows_eq_ok.mp hcheck
    refine ⟨⟨hrows, hhidden, hroutes, fun r hr => (hall r hr).1, fun r hr => (hall r hr).2, hrb,
      hob⟩, ?_⟩
    simp [requestHeader, requestDtype, requestWireLen]
  · rintro ⟨hf, rfl⟩
    have hwire := hf.wireLen_le
    have hrow : f.rows.length * rowDescriptorLen ≤ usizeMax := by
      rw [requestWireLen] at hwire; omega
    have hroute : f.routes.length * routeEntryLen ≤ usizeMax := by
      rw [requestWireLen] at hwire; omega
    have hpay : f.rows.length * hiddenStride ≤ usizeMax := by
      rw [requestWireLen] at hwire; omega
    refine ⟨(), hf.rows_ne, (), hf.hiddenRows_len, (), hf.rowsRoutes, (),
      checkHiddenRows_eq_ok.mpr fun r hr => ⟨hf.payload_len r hr, hf.scales_len r hr⟩,
      _, ⟨hrow, rfl⟩, _, ⟨hroute, rfl⟩, _, ⟨hpay, rfl⟩, _, ⟨hf.logical_le, rfl⟩, (), hwire,
      _, ⟨hf.rows_lt, rfl⟩, _, ⟨hf.routes_lt, rfl⟩, _, ⟨hf.rowBytes_lt, rfl⟩,
      _, ⟨hf.routeBytes_lt, rfl⟩, _, ⟨by decide, rfl⟩, ?_⟩
    simp [requestHeader, requestDtype, requestWireLen]

section body

variable {f : RequestFrame} (hf : f.Encodable)
include hf

theorem RequestFrame.Encodable.decode_row (i : ℕ) (hi : i < f.rows.length) :
    rowDescriptorFromWire (requestBody f .none) (i * rowDescriptorLen) .none
      = .ok f.rows[i] := by
  have hrows : (f.rows.flatMap (rowDescriptorWire · .none)).length
      = f.rows.length * rowDescriptorLen :=
    Bytes.length_flatMap_of_forall fun r _ => length_rowDescriptorWire r .none
  have hin : i * rowDescriptorLen + rowDescriptorLen ≤ f.rows.length * rowDescriptorLen := by
    rw [← Nat.succ_mul]
    exact Nat.mul_le_mul_right _ hi
  refine rowDescriptorFromWire_wire (by rw [hf.length_body]; omega) ?_
  rw [requestBody, Bytes.slice_append_left (by omega),
    Bytes.slice_flatMap (fun r _ => length_rowDescriptorWire r .none) hi]

theorem RequestFrame.Encodable.decode_route (j : ℕ) (hj : j < f.routes.length) :
    routeEntryFromWire (requestBody f .none)
      (f.rows.length * rowDescriptorLen + j * routeEntryLen) .none = .ok f.routes[j] := by
  have hrows : (f.rows.flatMap (rowDescriptorWire · .none)).length
      = f.rows.length * rowDescriptorLen :=
    Bytes.length_flatMap_of_forall fun r _ => length_rowDescriptorWire r .none
  have hroutes : (f.routes.flatMap (routeEntryWire · .none)).length
      = f.routes.length * routeEntryLen :=
    Bytes.length_flatMap_of_forall fun r _ => length_routeEntryWire r .none
  have hin : j * routeEntryLen + routeEntryLen ≤ f.routes.length * routeEntryLen := by
    rw [← Nat.succ_mul]
    exact Nat.mul_le_mul_right _ hj
  refine routeEntryFromWire_wire (by rw [hf.length_body]; omega) ?_
  rw [requestBody, Bytes.slice_append_right (by omega), hrows, Nat.add_sub_cancel_left,
    Bytes.slice_append_left (by omega),
    Bytes.slice_flatMap (fun r _ => length_routeEntryWire r .none) hj]

theorem RequestFrame.Encodable.decode_hidden :
    ((List.range f.rows.length).map fun i =>
      HiddenRow.mk
        (Bytes.slice (requestBody f .none) (f.rows.length * rowDescriptorLen +
          f.routes.length * routeEntryLen + i * hiddenStride) hiddenDim)
        (Bytes.slice (requestBody f .none) (f.rows.length * rowDescriptorLen +
          f.routes.length * routeEntryLen + i * hiddenStride + hiddenDim)
          (hiddenStride - hiddenDim))) = f.hiddenRows := by
  have hpre : (f.rows.flatMap (rowDescriptorWire · .none) ++
      f.routes.flatMap (routeEntryWire · .none)).length
      = f.rows.length * rowDescriptorLen + f.routes.length * routeEntryLen := by
    rw [List.length_append, Bytes.length_flatMap_of_forall fun r _ =>
      length_rowDescriptorWire r .none, Bytes.length_flatMap_of_forall fun r _ =>
      length_routeEntryWire r .none]
  have hblock (i : ℕ) (hi : i < f.hiddenRows.length) (o n : ℕ) (hon : o + n ≤ hiddenStride) :
      Bytes.slice (requestBody f .none) (f.rows.length * rowDescriptorLen +
        f.routes.length * routeEntryLen + i * hiddenStride + o) n
        = Bytes.slice (f.hiddenRows[i].payload ++ f.hiddenRows[i].scales) o n := by
    rw [← Bytes.slice_slice hon, requestBody, ← List.append_assoc,
      Bytes.slice_append_right (by omega), hpre, Nat.add_sub_cancel_left,
      Bytes.slice_flatMap hf.length_hiddenRow hi]
  refine List.ext_getElem (by simp [hf.hiddenRows_len]) fun i hi hi' => ?_
  have hpay : f.hiddenRows[i].payload.length = hiddenDim := hf.payload_len _ (List.getElem_mem hi')
  have hscales : f.hiddenRows[i].scales.length = hiddenStride - hiddenDim :=
    hf.scales_len _ (List.getElem_mem hi')
  have hfirst : Bytes.slice (f.hiddenRows[i].payload ++ f.hiddenRows[i].scales) 0 hiddenDim
      = f.hiddenRows[i].payload := by
    rw [Bytes.slice_append_left (by omega), ← hpay, Bytes.slice_zero_length]
  have hsecond : Bytes.slice (f.hiddenRows[i].payload ++ f.hiddenRows[i].scales) hiddenDim
      (hiddenStride - hiddenDim) = f.hiddenRows[i].scales := by
    rw [Bytes.slice_append_right hpay.le, hpay, Nat.sub_self, ← hscales, Bytes.slice_zero_length]
  rw [List.getElem_map, List.getElem_range, hblock i hi' hiddenDim _ (by decide), hsecond]
  have hzero := hblock i hi' 0 hiddenDim (by decide)
  rw [add_zero] at hzero
  rw [hzero, hfirst]

theorem decodeRequest_sealed {seq : UInt64} :
    decodeRequest (requestHeader f seq)
      (sealFrame (writeHeader (requestHeader f seq) .none ++ requestBody f .none) .none nocrc) .none
      = .ok { f with seq := seq } := by
  have hrows := UInt32.toNat_ofNat_of_lt' hf.rows_lt
  have hroutes := UInt32.toNat_ofNat_of_lt' hf.routes_lt
  have hrowBytes := UInt32.toNat_ofNat_of_lt' hf.rowBytes_lt
  have hrouteBytes := UInt32.toNat_ofNat_of_lt' hf.routeBytes_lt
  have hstride : (UInt32.ofNat hiddenStride).toNat = hiddenStride := by decide
  have hdim : (UInt32.ofNat hiddenDim).toNat = hiddenDim := by decide
  have hwire := hf.wireLen_le
  rw [requestWireLen] at hwire
  have hpay : f.rows.length * hiddenStride ≤ usizeMax := by omega
  rw [decodeRequest, drop_sealed]
  simp only [requestHeader_rowCount, requestHeader_routeCount, requestHeader_rowDescriptorBytes,
    requestHeader_routeBytes, requestHeader_dim, requestHeader_dtype, requestHeader_rowStrideBytes,
    requestHeader_payloadBytes, hrows, hroutes, hrowBytes, hrouteBytes, hstride, hdim,
    toNat_ofNat_of_le hpay, hf.length_body]
  rw [ensure_pos hf.rowCount_ne, ok_bind, checkedMul_eq_ok.mpr ⟨by omega, rfl⟩, ok_bind,
    checkedMul_eq_ok.mpr ⟨by omega, rfl⟩, ok_bind, ensure_pos rfl, ok_bind, ensure_pos rfl, ok_bind,
    ensure_pos trivial, ok_bind, ensure_pos (Or.inl trivial), ok_bind, ensure_pos (by decide),
    ok_bind, checkedMul_eq_ok.mpr ⟨hpay, rfl⟩, ok_bind, ensure_pos rfl, ok_bind, ensure_pos rfl,
    ok_bind, mapM_range_eq_ok hf.decode_row, ok_bind, mapM_range_eq_ok hf.decode_route, ok_bind,
    hf.rowsRoutes, ok_bind, hf.decode_hidden]
  rfl

end body

/-- **Round trip of a request.** -/
theorem decodeFrame_encodeRequestSeq {f : RequestFrame} {seq : UInt64} {bytes : List UInt8}
    (henc : encodeRequestSeq f seq .none nocrc = .ok bytes) :
    decodeFrame bytes .none nocrc = .ok (.request { f with seq := seq }) := by
  obtain ⟨hf, rfl⟩ := encodeRequestSeq_eq_ok.mp henc
  have hwire : (requestHeader f seq).wireBytes.toNat
      = headerLen + (requestBody f .none).length := by
    rw [hf.length_body]
    exact toNat_ofNat_of_le hf.wireLen_le
  rw [decodeFrame_sealed_request rfl hwire, decodeRequest_sealed hf]
  rfl

/-- **Round trip of a frame**: what an encoder accepts is decoded as it was, under the sequence
number it was stamped with. -/
theorem decodeFrame_encodeSeq (seq : UInt64) (nocrc : Bool) (bytes : List UInt8) :
    (∀ f : RequestFrame, encodeRequestSeq f seq .none nocrc = .ok bytes →
      decodeFrame bytes .none nocrc = .ok (.request { f with seq := seq })) ∧
    ∀ f : ReturnFrame, encodeReturnSeq f seq .none nocrc = .ok bytes →
      f.status ≠ .ok ∨ f.flags &&& flagReturnRequired = flagReturnRequired →
      decodeFrame bytes .none nocrc = .ok (.return { f with seq := seq }) := by
  constructor
  · intro f henc
    exact decodeFrame_encodeRequestSeq henc
  · intro f henc hflags
    exact decodeFrame_encodeReturnSeq henc hflags

/-- A request of one row for eight experts. -/
def oneRow : RequestFrame where
  requestId := 1
  placementVersion := 1
  layerId := 3
  executorId := 2
  sourceKind := .decode
  tokenPosition := 9
  flags := 0
  seq := 0
  rows := [⟨0, .decode, 1, 9, 0, 8⟩]
  routes := (List.range 8).map fun k => ⟨0, UInt32.ofNat k, 0x3E000000⟩
  hiddenRows := [⟨List.replicate hiddenDim 0, List.replicate (hiddenStride - hiddenDim) 127⟩]

theorem encodable_oneRow : oneRow.Encodable where
  rows_ne := List.cons_ne_nil _ _
  hiddenRows_len := rfl
  rowsRoutes := rfl
  payload_len := List.forall_mem_singleton.mpr List.length_replicate
  scales_len := List.forall_mem_singleton.mpr List.length_replicate
  rowBytes_lt := by decide
  routeBytes_lt := by decide

theorem decodeFrame_encodeSeq_oneRow : ∃ bytes, encodeRequestSeq oneRow 5 .none false = .ok bytes ∧
    decodeFrame bytes .none false = .ok (.request { oneRow with seq := 5 }) := by
  obtain ⟨bytes, henc⟩ : ∃ bytes, encodeRequestSeq oneRow 5 .none false = .ok bytes :=
    ⟨_, encodeRequestSeq_eq_ok.mpr ⟨encodable_oneRow, rfl⟩⟩
  exact ⟨bytes, henc, (decodeFrame_encodeSeq 5 false bytes).1 oneRow henc⟩

end Wire

end Mimo26

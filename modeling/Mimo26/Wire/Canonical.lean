import Mimo26.Wire.FrameRoundTrip

/-!
# Canonical frames

Which of the byte strings that `decodeFrame` accepts are the ones an encoder writes. The decoder
reads some fields without comparing them with anything, and it takes payload layouts besides the
deployed one; every other byte is checked, or comes back out of the frame it was decoded to.

## Main definitions

* `Frame.encode` — the encoder of either kind of frame
* `UnreadAsWritten` — the bytes the decoder does not check are those the encoder writes
* `DeployedLayout` — the payload has the layout the encoder writes

## Main results

* `eq_sealed_iff` — when a byte string is a sealed frame, field by field
* `unreadAsWritten_encodeRequestSeq` — an encoder writes what the decoder does not check
* `decodeFrame_canonical` — when a decoded frame encodes to the bytes it came from
-/

namespace Mimo26

namespace Wire

open Result

/-- A frame on the wire, under its own sequence number. -/
def Frame.encode (f : Frame) (nocrc : Bool) : Except WireError (List UInt8) :=
  match f with
  | .request f => encodeRequestSeq f f.seq .none nocrc
  | .return f => encodeReturnSeq f f.seq .none nocrc

attribute [ext] HeaderFields

/-! ### Codes -/

theorem Dtype.code_of_fromCode {code : UInt16} {d : Dtype} (h : Dtype.fromCode code .none = .ok d) :
    d.code .none = code := by
  simp only [Dtype.fromCode, WireNaive.has_none, Bool.false_eq_true, if_false] at h
  split_ifs at h with h1 h2 h3 h4 h5 h6 h7 <;> obtain rfl := Except.ok.inj h <;>
    simp [Dtype.code, Dtype.raw, *]

theorem SourceKind.code_of_fromCode {code : UInt16} {k : SourceKind} (h : SourceKind.fromCode code =
    .ok k) :
    k.code = code := by
  rw [SourceKind.fromCode] at h
  split_ifs at h with h1 h2 h3 h4 <;> obtain rfl := Except.ok.inj h <;> simp [SourceKind.code, *]

theorem Status.code_of_fromCode {code : UInt32} {s : Status} (h : Status.fromCode code = .ok s) :
    s.code = code := by
  rw [Status.fromCode] at h
  split_ifs at h with h1 h2 <;> obtain rfl := Except.ok.inj h <;> simp [Status.code, *]

/-! ### Headers -/

/-- The header of the bytes is `h`, as far as the encoder writes it. -/
def Headed (bytes : List UInt8) (h : HeaderFields) : Prop :=
  ∀ f ∈ headerLayout h .none, Bytes.slice bytes f.1 f.2.length = f.2

/-- A header that parses is the one that lies there. -/
theorem headed_of_parseHeader {bytes : List UInt8} {h : HeaderFields}
    (hparse : parseHeader bytes .none = .ok h) :
    Headed bytes h ∧ headerLen ≤ bytes.length ∧ h.wireBytes.toNat = bytes.length := by
  simp only [parseHeader, bind_eq_ok, ensure_eq_ok, pure_eq_ok, decide_eq_true_eq,
    Except.ok.injEq] at hparse
  obtain ⟨⟨⟩, hlen, ⟨⟩, hmagic, version, hversion, ⟨⟩, rfl, kind, hkind, ⟨⟩, -, hlen', hhlen, ⟨⟩,
    hhlen', wire,
    hwire, ⟨⟩, hle, ⟨⟩, hge, requestId, hrequestId, placementVersion, hplacement, layerId, hlayerId,
      rowCount,
    hrowCount, dim, hdim, dtypeCode, hdtypeCode, dtype, hdtype, kindCode, hkindCode, sourceKind,
      hsourceKind,
    routeCount, hrouteCount, rowBytes, hrowBytes, routeBytes, hrouteBytes, payload, hpayload,
      logical, hlogical,
    flags, hflags, stride, hstride, statusCode, hstatusCode, status, hstatus, executorId,
      hexecutorId, position,
    hposition, seq, hseq, rfl⟩ := hparse
  have hhlen'' : hlen' = UInt32.ofNat headerLen := by
    apply UInt32.toNat_inj.mp
    rw [hhlen']
    rfl
  refine ⟨?_, hlen, Nat.le_antisymm hle hge⟩
  simp only [Headed, headerLayout, List.forall_mem_cons, length_le16, length_le32, length_le64,
    Dtype.code_of_fromCode hdtype, SourceKind.code_of_fromCode hsourceKind,
      Status.code_of_fromCode hstatus,
    ← hhlen'']
  exact ⟨hmagic, slice_of_getU16 hversion, slice_of_getU16 hkind, slice_of_getU32 hhlen,
    slice_of_getU64 hrequestId, slice_of_getU64 hplacement, slice_of_getU32 hlayerId,
      slice_of_getU32 hrowCount,
    slice_of_getU32 hdim, slice_of_getU16 hdtypeCode, slice_of_getU16 hkindCode,
      slice_of_getU32 hrouteCount,
    slice_of_getU32 hrowBytes, slice_of_getU32 hrouteBytes, slice_of_getU64 hpayload,
      slice_of_getU64 hlogical,
    slice_of_getU64 hwire, slice_of_getU32 hflags, slice_of_getU32 hstride,
      slice_of_getU32 hstatusCode,
    slice_of_getU64 hexecutorId, slice_of_getU64 hposition, slice_of_getU64 hseq, List.forall_mem_nil _⟩

/-- The bytes before the checksum field. -/
theorem Headed.take_eq {bytes : List UInt8} {h : HeaderFields} (hb : Headed bytes h) :
    bytes.take Hdr.crc32c.off = (headerLayout h .none).flatMap (·.2) := by
  have hfields := Bytes.slice_adjacent (adjacent_headerLayout h) hb
  rw [length_headerFields] at hfields
  exact hfields

/-- The checksum field holds what the seal writes there. -/
def Checked (bytes : List UInt8) (nocrc : Bool) : Prop :=
  Bytes.slice bytes Hdr.crc32c.off 4 =
    if nocrc then [0, 0, 0, 0] else le32 (crc32cZeroed .castagnoli bytes Hdr.crc32c.off)

/-- The parts of a sealed frame. -/
structure IsSealed (bytes : List UInt8) (h : HeaderFields) (body : List UInt8) (nocrc : Bool) :
    Prop where
  headed : Headed bytes h
  checked : Checked bytes nocrc
  reserved : Bytes.slice bytes Hdr.reserved.off 4 = [0, 0, 0, 0]
  body : bytes.drop headerLen = body

theorem le_crc32c_of_mem {h : HeaderFields} {f : ℕ × List UInt8} (hf : f ∈ headerLayout h .none) :
    f.1 + f.2.length ≤ Hdr.crc32c.off := by
  have hall : ∀ f ∈ headerLayout h .none, f.1 + f.2.length ≤ Hdr.crc32c.off := by
    simp [headerLayout, Hdr.off, magic]
  exact hall f hf

theorem slice_writeHeader_crc32c (h : HeaderFields) (body : List UInt8) :
    Bytes.slice (writeHeader h .none ++ body) Hdr.crc32c.off 4 = [0, 0, 0, 0] ∧
      Bytes.slice (writeHeader h .none ++ body) Hdr.reserved.off 4 = [0, 0, 0, 0] := by
  have hfields := length_headerFields h
  rw [writeHeader_eq, List.append_assoc]
  constructor
  · rw [Bytes.slice_append_right hfields.le, hfields]
    rfl
  · rw [Bytes.slice_append_right (by rw [hfields]; decide), hfields]
    rfl

/-- What the encoder seals has the parts. -/
theorem isSealed_sealFrame (h : HeaderFields) (body : List UInt8) (nocrc : Bool) :
    IsSealed (sealFrame (writeHeader h .none ++ body) .none nocrc) h body nocrc where
  headed := fun f hf => slice_sealed hf (le_crc32c_of_mem hf)
  checked := by
    cases nocrc with
    | true => exact (slice_writeHeader_crc32c h body).1
    | false => exact slice_of_getU32 (verifyCrc_eq_ok.mp (verifyCrc_sealed (by simp) 0))
  reserved := by
    rw [sealFrame]
    split
    · exact (slice_writeHeader_crc32c h body).2
    · rw [Bytes.slice_put_of_ge (by rw [length_le32]; decide)]
      exact (slice_writeHeader_crc32c h body).2
  body := drop_sealed

/-- The parts of a sealed frame determine it. -/
theorem IsSealed.eq {bytes bytes' body : List UInt8} {h : HeaderFields} {nocrc : Bool}
    (hs : IsSealed bytes h body nocrc) (hs' : IsSealed bytes' h body nocrc) : bytes = bytes' := by
  have htake : bytes.take Hdr.crc32c.off = bytes'.take Hdr.crc32c.off := by
    rw [hs.headed.take_eq, hs'.headed.take_eq]
  have hdrop_eq (b : List UInt8) :
      b.drop (Hdr.crc32c.off + 4) = Bytes.slice b Hdr.reserved.off 4 ++ b.drop headerLen := by
    have hsplit : (b.drop Hdr.reserved.off).drop 4 = b.drop headerLen := List.drop_drop
    rw [Bytes.slice, ← hsplit, List.take_append_drop]
    rfl
  have hdrop : bytes.drop (Hdr.crc32c.off + 4) = bytes'.drop (Hdr.crc32c.off + 4) := by
    rw [hdrop_eq, hdrop_eq, hs.reserved, hs'.reserved, hs.body, hs'.body]
  refine Bytes.eq_of_take_slice_drop htake ?_ hdrop
  rw [hs.checked, hs'.checked, crc32cZeroed, crc32cZeroed, htake, hdrop]

/-- When a byte string is a sealed frame. -/
theorem eq_sealed_iff {bytes body : List UInt8} {h : HeaderFields} {nocrc : Bool} :
    bytes = sealFrame (writeHeader h .none ++ body) .none nocrc ↔ IsSealed bytes h body nocrc := by
  constructor
  · intro hbytes
    rw [hbytes]
    exact isSealed_sealFrame h body nocrc
  · exact fun hs => hs.eq (isSealed_sealFrame h body nocrc)

theorem checked_of_verifyCrc {bytes : List UInt8} {nocrc : Bool} {seq : UInt64}
    (hverify : verifyCrc bytes .none nocrc seq = .ok ())
    (hoff : nocrc = true → Bytes.slice bytes Hdr.crc32c.off 4 = [0, 0, 0, 0]) :
        Checked bytes nocrc := by
  cases nocrc with
  | true => exact hoff rfl
  | false => exact slice_of_getU32 (verifyCrc_eq_ok.mp hverify)

/-! ### Tables -/

/-- The fields of a row descriptor, its padding included. -/
def descLayout (row : RowDescriptor) : List (ℕ × List UInt8) :=
  [(Desc.rowId.off, le64 row.rowId),
   (Desc.sourceKind.off, le16 row.sourceKind.code),
   (Desc.pad0.off, [0, 0]),
   (Desc.sourceRequestId.off, le64 row.sourceRequestId),
   (Desc.tokenPosition.off, le64 row.tokenPosition),
   (Desc.routeOffset.off, le32 row.routeOffset),
   (Desc.routeCount.off, le32 row.routeCount),
   (Desc.pad1.off, [0, 0, 0, 0])]

theorem slice_of_descLayout {bytes : List UInt8} {row : RowDescriptor}
    (hread : ∀ f ∈ descLayout row, Bytes.slice bytes f.1 f.2.length = f.2) :
    Bytes.slice bytes 0 rowDescriptorLen = (descLayout row).flatMap (·.2) := by
  have hadjacent : Bytes.Adjacent 0 (descLayout row) := by
    simp [Bytes.Adjacent, descLayout, Desc.off]
  have hlen : ((descLayout row).flatMap (·.2)).length = rowDescriptorLen := by
    simp [descLayout, rowDescriptorLen]
  have hfields := Bytes.slice_adjacent hadjacent hread
  rwa [hlen] at hfields

/-- Every field of an encoded row descriptor reads as written, its padding included. -/
theorem slice_rowDescriptorWire (row : RowDescriptor) :
    ∀ f ∈ descLayout row, Bytes.slice (rowDescriptorWire row .none) f.1 f.2.length = f.2 := by
  rw [rowDescriptorWire]
  simp only [descIdOffsets, WireNaive.has_none, Bool.false_eq_true, if_false]
  generalize hfs : [(Desc.rowId.off, le64 row.rowId), _, _, _, _, _] = fs
  have hl : Bytes.Laid (List.replicate rowDescriptorLen (0 : UInt8)).length 0 fs := by
    subst hfs
    simp [Bytes.Laid, Desc.off, rowDescriptorLen]
  have hpad0 : ∀ g ∈ fs, Bytes.Apart (Desc.pad0.off, [0, 0]) g := by
    subst hfs
    simp [Bytes.Apart, Desc.off]
  have hpad1 : ∀ g ∈ fs, Bytes.Apart (Desc.pad1.off, [0, 0, 0, 0]) g := by
    subst hfs
    simp [Bytes.Apart, Desc.off]
  simp only [descLayout, List.forall_mem_cons]
  have hfield {off : ℕ} {v : List UInt8} (hm : (off, v) ∈ fs) :
      Bytes.slice (Bytes.putAll (List.replicate rowDescriptorLen 0) fs) off v.length = v :=
    Bytes.slice_putAll hl hm
  refine ⟨hfield (by simp [← hfs]), hfield (by simp [← hfs]), Bytes.slice_putAll_of_apart hpad0,
    hfield (by simp [← hfs]), hfield (by simp [← hfs]), hfield (by simp [← hfs]),
      hfield (by simp [← hfs]),
    Bytes.slice_putAll_of_apart hpad1, List.forall_mem_nil _⟩

theorem rowDescriptorWire_eq (row : RowDescriptor) :
    rowDescriptorWire row .none = (descLayout row).flatMap (·.2) := by
  rw [← slice_of_descLayout (slice_rowDescriptorWire row), ← length_rowDescriptorWire row .none,
    Bytes.slice_zero_length]

/-- A row descriptor with empty padding is the one its encoder writes. -/
theorem slice_of_rowDescriptorFromWire {bytes : List UInt8} {off : ℕ} {row : RowDescriptor}
    (h : rowDescriptorFromWire bytes off .none = .ok row)
    (hpad0 : Bytes.slice bytes (off + Desc.pad0.off) 2 = [0, 0])
    (hpad1 : Bytes.slice bytes (off + Desc.pad1.off) 4 = [0, 0, 0, 0]) :
    Bytes.slice bytes off rowDescriptorLen = rowDescriptorWire row .none := by
  simp only [rowDescriptorFromWire, bind_eq_ok, ensure_eq_ok, pure_eq_ok, decide_eq_true_eq,
    Except.ok.injEq,
    descIdOffsets, WireNaive.has_none, Bool.false_eq_true, if_false] at h
  obtain ⟨⟨⟩, hin, rowId, hrowId, code, hcode, kind, hkind, request, hrequest, position, hposition,
    offset, hoffset,
    count, hcount, rfl⟩ := h
  rw [← Bytes.slice_slice (w := rowDescriptorLen) (by decide)] at hpad0 hpad1
  have hread : Bytes.slice (Bytes.slice bytes off rowDescriptorLen) 0 rowDescriptorLen =
      (descLayout ⟨rowId, kind, request, position, offset, count⟩).flatMap (·.2) :=
    slice_of_descLayout (by
      simp only [descLayout, List.forall_mem_cons, length_le16, length_le32, length_le64,
        SourceKind.code_of_fromCode hkind]
      exact ⟨slice_of_getU64 hrowId, slice_of_getU16 hcode, hpad0, slice_of_getU64 hrequest,
        slice_of_getU64 hposition, slice_of_getU32 hoffset, slice_of_getU32 hcount, hpad1, List.forall_mem_nil _⟩)
  rw [rowDescriptorWire_eq, ← hread, Bytes.slice_slice (by decide), Nat.add_zero]

theorem slice_of_routeEntryFromWire {bytes : List UInt8} {off : ℕ} {r : RouteEntry}
    (h : routeEntryFromWire bytes off .none = .ok r) :
    Bytes.slice bytes off routeEntryLen = routeEntryWire r .none := by
  simp only [routeEntryFromWire, bind_eq_ok, ensure_eq_ok, pure_eq_ok, decide_eq_true_eq,
    Except.ok.injEq,
    routeOffsets, WireNaive.has_none, Bool.false_eq_true, if_false, getF32] at h
  obtain ⟨⟨⟩, hin, row, hrow, expert, hexpert, gate, hgate, rfl⟩ := h
  generalize hfs : [(Route.rowIndex.off, le32 row), (Route.expertId.off, le32 expert),
    (Route.gateWeight.off, le32 gate)] = fs
  have hadjacent : Bytes.Adjacent 0 fs := by
    subst hfs
    simp [Bytes.Adjacent, Route.off]
  have hlen : (fs.flatMap (·.2)).length = routeEntryLen := by
    subst hfs
    simp [routeEntryLen]
  have hwire : routeEntryWire ⟨row, expert, gate⟩ .none =
      Bytes.putAll (List.replicate routeEntryLen 0) fs := by
    subst hfs
    simp [routeEntryWire, routeOffsets]
  have hl : Bytes.Laid (List.replicate routeEntryLen (0 : UInt8)).length 0 fs := by
    subst hfs
    simp [Bytes.Laid, Route.off, routeEntryLen]
  have hwritten := Bytes.slice_adjacent hadjacent fun f hf => Bytes.slice_putAll hl hf
  have hread : Bytes.slice (Bytes.slice bytes off routeEntryLen) 0 _ = _ :=
      Bytes.slice_adjacent hadjacent (by
    subst hfs
    simp only [List.forall_mem_cons, length_le32]
    exact ⟨slice_of_getU32 hrow, slice_of_getU32 hexpert, slice_of_getU32 hgate, List.forall_mem_nil _⟩)
  rw [hlen, ← hwire] at hwritten
  rw [hlen, Bytes.slice_slice (by decide), Nat.add_zero, ← hwritten] at hread
  rw [hread]
  exact List.take_of_length_le (by simp)

/-! ### Request frames -/

/-- The row count in a header. -/
def declaredRows (bytes : List UInt8) : ℕ := Bytes.ofLe (Bytes.slice bytes Hdr.rowCount.off 4)

/-- Where the row descriptor of row `i` lies. -/
def descOff (i : ℕ) : ℕ := headerLen + i * rowDescriptorLen

theorem descOff_add (bytes : List UInt8) (i o n : ℕ) :
    Bytes.slice bytes (descOff i + o) n = Bytes.slice (bytes.drop headerLen)
        (i * rowDescriptorLen + o) n := by
  rw [Bytes.slice, Bytes.slice, List.drop_drop, descOff, Nat.add_assoc]

/-- The bytes of a request that its decoder does not check are those its encoder writes. -/
structure RequestUnread (bytes : List UInt8) : Prop where
  logicalPayloadBytes : Bytes.slice bytes Hdr.logicalPayloadBytes.off 8 =
    le64 (UInt64.ofNat (declaredRows bytes * requestRowBytesCanonical))
  status : Bytes.slice bytes Hdr.status.off 4 = le32 Status.ok.code
  pad0 : ∀ i < declaredRows bytes, Bytes.slice bytes (descOff i + Desc.pad0.off) 2 = [0, 0]
  pad1 : ∀ i < declaredRows bytes, Bytes.slice bytes (descOff i + Desc.pad1.off) 4 = [0, 0, 0, 0]

/-- A request payload as the encoder lays it out. -/
structure RequestLayout (bytes : List UInt8) : Prop where
  dtype : Bytes.slice bytes Hdr.payloadDtype.off 2 = le16 Dtype.fp8E4m3Ue8m0K32.raw
  rowStride : Bytes.slice bytes Hdr.rowStrideBytes.off 4 = le32 (UInt32.ofNat hiddenStride)

section headed

variable {bytes : List UInt8} {h : HeaderFields} (hb : Headed bytes h)
include hb

theorem Headed.u16 {off : ℕ} {v : UInt16} (hm : (off, le16 v) ∈ headerLayout h .none) :
    Bytes.slice bytes off 2 = le16 v := by
  have hread := hb _ hm
  rwa [length_le16] at hread

theorem Headed.u32 {off : ℕ} {v : UInt32} (hm : (off, le32 v) ∈ headerLayout h .none) :
    Bytes.slice bytes off 4 = le32 v := by
  have hread := hb _ hm
  rwa [length_le32] at hread

theorem Headed.u64 {off : ℕ} {v : UInt64} (hm : (off, le64 v) ∈ headerLayout h .none) :
    Bytes.slice bytes off 8 = le64 v := by
  have hread := hb _ hm
  rwa [length_le64] at hread

theorem Headed.rowCount : declaredRows bytes = h.rowCount.toNat := by
  rw [declaredRows, hb.u32 (v := h.rowCount) (by simp [headerLayout]), le32,
    Bytes.ofLe_toLe_of_lt h.rowCount.toNat_lt]

theorem Headed.dtype : Bytes.slice bytes Hdr.payloadDtype.off 2 = le16 (h.dtype.code .none) :=
  hb.u16 (by simp [headerLayout])

theorem Headed.rowStride : Bytes.slice bytes Hdr.rowStrideBytes.off 4 = le32 h.rowStrideBytes :=
  hb.u32 (by simp [headerLayout])

theorem Headed.logicalPayloadBytes :
    Bytes.slice bytes Hdr.logicalPayloadBytes.off 8 = le64 h.logicalPayloadBytes :=
  hb.u64 (by simp [headerLayout])

end headed

/-- What a decoded request says of the bytes. -/
structure RequestRead (h : HeaderFields) (body : List UInt8) (f : RequestFrame) : Prop where
  rowCount_ne : h.rowCount ≠ 0
  rowBytes : h.rowDescriptorBytes.toNat = h.rowCount.toNat * rowDescriptorLen
  routeBytes : h.routeBytes.toNat = h.routeCount.toNat * routeEntryLen
  dim : h.dim.toNat = hiddenDim
  stride_le : hiddenDim ≤ h.rowStrideBytes.toNat
  payload : h.payloadBytes.toNat = h.rowCount.toNat * h.rowStrideBytes.toNat
  length : body.length = h.rowCount.toNat * rowDescriptorLen + h.routeCount.toNat * routeEntryLen +
    h.rowCount.toNat * h.rowStrideBytes.toNat
  rows : (List.range h.rowCount.toNat).mapM (fun i =>
    rowDescriptorFromWire body (i * rowDescriptorLen) .none) = .ok f.rows
  routes : (List.range h.routeCount.toNat).mapM (fun j =>
    routeEntryFromWire body (h.rowCount.toNat * rowDescriptorLen + j * routeEntryLen) .none) =
      .ok f.routes
  rowsRoutes : validateRowsRoutes f.rows f.routes = .ok ()
  hiddenRows : f.hiddenRows = (List.range h.rowCount.toNat).map fun i =>
    let base := h.rowCount.toNat * rowDescriptorLen + h.routeCount.toNat * routeEntryLen +
      i * h.rowStrideBytes.toNat
    ⟨Bytes.slice body base hiddenDim,
      Bytes.slice body (base + hiddenDim) (h.rowStrideBytes.toNat - hiddenDim)⟩
  header : f = { f with requestId := h.requestId, placementVersion := h.placementVersion
                        layerId := h.layerId, executorId := h.executorId, sourceKind := h.sourceKind
                        tokenPosition := h.tokenPosition, flags := h.flags, seq := h.seq }

theorem requestRead_of_decodeRequest {h : HeaderFields} {bytes : List UInt8} {f : RequestFrame}
    (hdecode : decodeRequest h bytes .none = .ok f) : RequestRead h (bytes.drop headerLen) f := by
  simp only [decodeRequest, bind_eq_ok, ensure_eq_ok, checkedMul_eq_ok, pure_eq_ok,
    decide_eq_true_eq,
    Except.ok.injEq] at hdecode
  obtain ⟨⟨⟩, hrows, _, ⟨-, rfl⟩, _, ⟨-, rfl⟩, ⟨⟩, hrowBytes, ⟨⟩, hrouteBytes, ⟨⟩, hdim, ⟨⟩, -, ⟨⟩,
    hstride, _, ⟨-, rfl⟩,
    ⟨⟩, hpayload, ⟨⟩, hlength, rows, hrowsVec, routes, hroutesVec, ⟨⟩, hvalid, rfl⟩ := hdecode
  exact ⟨hrows, hrowBytes, hrouteBytes, hdim, hstride, hpayload, hlength, hrowsVec, hroutesVec,
    hvalid, rfl, rfl⟩

namespace RequestRead

variable {h : HeaderFields} {body : List UInt8} {f : RequestFrame} (hread : RequestRead h body f)
include hread

theorem length_rows : f.rows.length = h.rowCount.toNat := (mapM_range_eq_ok_iff.mp hread.rows).1

theorem length_routes : f.routes.length = h.routeCount.toNat :=
    (mapM_range_eq_ok_iff.mp hread.routes).1

theorem length_hiddenRows : f.hiddenRows.length = h.rowCount.toNat := by
  rw [hread.hiddenRows, List.length_map, List.length_range]

theorem getElem_hiddenRows {i : ℕ} (hi : i < f.hiddenRows.length) :
    let base := h.rowCount.toNat * rowDescriptorLen + h.routeCount.toNat * routeEntryLen +
      i * h.rowStrideBytes.toNat
    f.hiddenRows[i] = ⟨Bytes.slice body base hiddenDim,
      Bytes.slice body (base + hiddenDim) (h.rowStrideBytes.toNat - hiddenDim)⟩ := by
  simp [hread.hiddenRows]

/-- Hidden row `i` lies in the body. -/
theorem hiddenRow_le {i : ℕ} (hi : i < h.rowCount.toNat) :
    h.rowCount.toNat * rowDescriptorLen + h.routeCount.toNat * routeEntryLen +
      i * h.rowStrideBytes.toNat +
      h.rowStrideBytes.toNat ≤ body.length := by
  have hle := Nat.mul_le_mul_right h.rowStrideBytes.toNat (Nat.succ_le_of_lt hi)
  rw [Nat.succ_mul] at hle
  have hlen := hread.length
  omega

theorem length_hiddenRow : ∀ r ∈ f.hiddenRows,
    r.payload.length = hiddenDim ∧ r.scales.length = h.rowStrideBytes.toNat - hiddenDim := by
  intro r hr
  rw [hread.hiddenRows] at hr
  obtain ⟨i, hi, rfl⟩ := List.mem_map.mp hr
  have hin := hread.hiddenRow_le (List.mem_range.mp hi)
  have hstride := hread.stride_le
  dsimp only
  constructor
  · rw [Bytes.length_slice (by omega)]
  · rw [Bytes.length_slice (by omega)]

theorem encodable (hstride : h.rowStrideBytes.toNat = hiddenStride) : f.Encodable where
  rows_ne := by
    intro hnil
    have hlen := hread.length_rows
    rw [hnil] at hlen
    exact hread.rowCount_ne (UInt32.toNat_inj.mp hlen.symm)
  hiddenRows_len := by rw [hread.length_hiddenRows, hread.length_rows]
  rowsRoutes := hread.rowsRoutes
  payload_len := fun r hr => (hread.length_hiddenRow r hr).1
  scales_len := fun r hr => by rw [(hread.length_hiddenRow r hr).2, hstride]
  rowBytes_lt := by
    rw [hread.length_rows, ← hread.rowBytes]
    exact h.rowDescriptorBytes.toNat_lt
  routeBytes_lt := by
    rw [hread.length_routes, ← hread.routeBytes]
    exact h.routeBytes.toNat_lt

/-- The rows, the routes and the hidden rows of a request lie one after the other. -/
theorem body_eq
    (hpad0 : ∀ i < h.rowCount.toNat, Bytes.slice body (i * rowDescriptorLen + Desc.pad0.off) 2 =
      [0, 0])
    (hpad1 : ∀ i < h.rowCount.toNat, Bytes.slice body (i * rowDescriptorLen + Desc.pad1.off) 4 =
      [0, 0, 0, 0]) :
    requestBody f .none = body := by
  obtain ⟨hrowsLen, hrows⟩ := mapM_range_eq_ok_iff.mp hread.rows
  obtain ⟨hroutesLen, hroutes⟩ := mapM_range_eq_ok_iff.mp hread.routes
  have hlen := hread.length
  have hdesc : f.rows.flatMap (rowDescriptorWire · .none) =
      body.take (h.rowCount.toNat * rowDescriptorLen) := by
    refine Bytes.flatMap_eq_of_slice (w := rowDescriptorLen) ?_ fun i hi => ?_
    · rw [List.length_take, hrowsLen]
      omega
    · have hi' : i < h.rowCount.toNat := by rwa [← hrowsLen]
      have hin : i * rowDescriptorLen + rowDescriptorLen ≤ h.rowCount.toNat * rowDescriptorLen := by
        rw [← Nat.succ_mul]
        exact Nat.mul_le_mul_right _ hi'
      have htake : body.take (h.rowCount.toNat * rowDescriptorLen) =
          Bytes.slice body 0 (h.rowCount.toNat * rowDescriptorLen) := rfl
      rw [htake, Bytes.slice_slice hin, Nat.zero_add]
      exact slice_of_rowDescriptorFromWire (hrows i hi) (hpad0 i hi') (hpad1 i hi')
  have hroute : f.routes.flatMap (routeEntryWire · .none) =
      Bytes.slice body (h.rowCount.toNat * rowDescriptorLen)
          (h.routeCount.toNat * routeEntryLen) := by
    refine Bytes.flatMap_eq_of_slice (w := routeEntryLen) ?_ fun j hj => ?_
    · rw [Bytes.length_slice (by omega), hroutesLen]
    · have hin : j * routeEntryLen + routeEntryLen ≤ h.routeCount.toNat * routeEntryLen := by
        rw [← Nat.succ_mul, ← hroutesLen]
        exact Nat.mul_le_mul_right _ hj
      rw [Bytes.slice_slice hin]
      exact slice_of_routeEntryFromWire (hroutes j hj)
  have hhidden : (f.hiddenRows.flatMap fun r => r.payload ++ r.scales) =
      body.drop (h.rowCount.toNat * rowDescriptorLen + h.routeCount.toNat * routeEntryLen) := by
    refine Bytes.flatMap_eq_of_slice (w := h.rowStrideBytes.toNat) ?_ fun i hi => ?_
    · rw [List.length_drop, hread.length_hiddenRows]
      omega
    · have hget := hread.getElem_hiddenRows hi
      have hstride := hread.stride_le
      have hsplit : h.rowStrideBytes.toNat = hiddenDim + (h.rowStrideBytes.toNat - hiddenDim) := by
        omega
      have hdrop (o n : ℕ) : Bytes.slice (body.drop (h.rowCount.toNat * rowDescriptorLen +
          h.routeCount.toNat * routeEntryLen)) o n =
          Bytes.slice body (h.rowCount.toNat * rowDescriptorLen +
              h.routeCount.toNat * routeEntryLen + o) n := by
        rw [Bytes.slice, Bytes.slice, List.drop_drop]
      rw [hget, hdrop]
      conv_lhs => rw [hsplit]
      rw [Bytes.slice_add, ← hsplit]
  rw [requestBody, hdesc, hroute, hhidden, Bytes.take_slice_drop]

theorem toNat_wireLen (hstride : h.rowStrideBytes.toNat = hiddenStride) :
    headerLen + body.length = requestWireLen f := by
  rw [hread.length, requestWireLen, hread.length_rows, hread.length_routes, hstride]

/-- The header that was read is the one the encoder writes. -/
theorem header_eq (hkind : h.kind = kindRequest)
    (hwire : h.wireBytes.toNat = headerLen + body.length)
    (hdtype : h.dtype = .fp8E4m3Ue8m0K32) (hstride : h.rowStrideBytes = UInt32.ofNat hiddenStride)
    (hlogical : h.logicalPayloadBytes = UInt64.ofNat (h.rowCount.toNat * requestRowBytesCanonical))
    (hstatus : h.status = .ok) : h = requestHeader f f.seq := by
  have hstride' : h.rowStrideBytes.toNat = hiddenStride := by
    rw [hstride]
    decide
  have hf := hread.header
  refine HeaderFields.ext hkind (congrArg RequestFrame.requestId hf).symm
    (congrArg RequestFrame.placementVersion hf).symm (congrArg RequestFrame.layerId hf).symm ?_ ?_
      hdtype
    (congrArg RequestFrame.sourceKind hf).symm ?_ ?_ ?_ ?_ ?_ ?_
      (congrArg RequestFrame.flags hf).symm hstride hstatus
    (congrArg RequestFrame.executorId hf).symm (congrArg RequestFrame.tokenPosition hf).symm
    (congrArg RequestFrame.seq hf).symm
  · rw [requestHeader_rowCount, hread.length_rows, UInt32.ofNat_toNat]
  · rw [requestHeader_dim, ← hread.dim, UInt32.ofNat_toNat]
  · rw [requestHeader_routeCount, hread.length_routes, UInt32.ofNat_toNat]
  · rw [requestHeader_rowDescriptorBytes, hread.length_rows, ← hread.rowBytes, UInt32.ofNat_toNat]
  · rw [requestHeader_routeBytes, hread.length_routes, ← hread.routeBytes, UInt32.ofNat_toNat]
  · rw [requestHeader_payloadBytes, hread.length_rows, ← hstride', ← hread.payload,
      UInt64.ofNat_toNat]
  · rw [requestHeader_logicalPayloadBytes, hread.length_rows, hlogical]
  · rw [requestHeader_wireBytes, ← hread.toNat_wireLen hstride', ← hwire, UInt64.ofNat_toNat]

end RequestRead

/-- A decoded request is the encoding of what it was decoded to, in the deployed layout alone. -/
theorem encodeRequestSeq_canonical {h : HeaderFields} {bytes : List UInt8} {nocrc : Bool}
    {f : RequestFrame}
    (hb : Headed bytes h) (hlen : headerLen ≤ bytes.length)
    (hwire : h.wireBytes.toNat = bytes.length)
    (hkind : h.kind = kindRequest) (hdecode : decodeRequest h bytes .none = .ok f)
    (hcrc : Checked bytes nocrc)
    (hreserved : Bytes.slice bytes Hdr.reserved.off 4 = [0, 0, 0, 0])
    (hunread : RequestUnread bytes) :
    encodeRequestSeq f f.seq .none nocrc = .ok bytes ↔ RequestLayout bytes := by
  rw [encodeRequestSeq_eq_ok, eq_sealed_iff]
  constructor
  · rintro ⟨-, hsealed⟩
    exact ⟨hsealed.headed.dtype, hsealed.headed.rowStride⟩
  · rintro ⟨hdtype, hstride⟩
    have hread := requestRead_of_decodeRequest hdecode
    have hdtype' : h.dtype = .fp8E4m3Ue8m0K32 := by
      have hcode := le16_injective (hb.dtype.symm.trans hdtype)
      revert hcode
      cases h.dtype <;> decide
    have hstride' := le32_injective (hb.rowStride.symm.trans hstride)
    have hstatus : h.status = .ok := by
      have hcode :=
          le32_injective
            ((hb.u32 (v := h.status.code) (by simp [headerLayout])).symm.trans hunread.status)
      revert hcode
      cases h.status <;> decide
    have hlogical := le64_injective (hb.logicalPayloadBytes.symm.trans hunread.logicalPayloadBytes)
    rw [hb.rowCount] at hlogical
    have hwire' : h.wireBytes.toNat = headerLen + (bytes.drop headerLen).length := by
      rw [hwire, List.length_drop, Nat.add_sub_cancel' hlen]
    have hheader := hread.header_eq hkind hwire' hdtype' hstride' hlogical hstatus
    refine ⟨hread.encodable (by rw [hstride']; decide), ?_, hcrc, hreserved,
      (hread.body_eq ?_ ?_).symm⟩
    · rwa [← hheader]
    · intro i hi
      rw [← descOff_add, hunread.pad0 i (by rwa [hb.rowCount])]
    · intro i hi
      rw [← descOff_add, hunread.pad1 i (by rwa [hb.rowCount])]

/-! ### Return frames -/

/-- The bytes of a return that its decoder does not check are those its encoder writes. -/
structure ReturnUnread (bytes : List UInt8) : Prop where
  logicalPayloadBytes : Bytes.slice bytes Hdr.logicalPayloadBytes.off 8 =
    le64 (UInt64.ofNat (declaredRows bytes * returnRowBytesCanonical))
  sourceKind : Bytes.slice bytes Hdr.sourceKind.off 2 = le16 SourceKind.decode.code

/-- A return payload as the encoder lays it out. -/
structure ReturnLayout (bytes : List UInt8) : Prop where
  dtype : Bytes.slice bytes Hdr.payloadDtype.off 2 = le16 Dtype.bf16.raw
  rowStride : Bytes.slice bytes Hdr.rowStrideBytes.off 4 =
    le32 (UInt32.ofNat returnRowBytesCanonical)

/-- What a decoded return says of the bytes. -/
structure ReturnRead (h : HeaderFields) (body : List UInt8) (f : ReturnFrame) : Prop where
  rowCount_ne : h.rowCount ≠ 0
  dim : h.dim.toNat = hiddenDim
  payload : h.payloadBytes.toNat = h.rowCount.toNat * h.rowStrideBytes.toNat
  tables : h.rowDescriptorBytes = 0 ∧ h.routeBytes = 0
  length : body.length = h.rowCount.toNat * h.rowStrideBytes.toNat
  routeCount_ne : h.routeCount ≠ 0
  rows : (List.range h.rowCount.toNat).mapM (fun i =>
    decodeReturnRow h (Bytes.slice body (i * h.rowStrideBytes.toNat) h.rowStrideBytes.toNat)
      h.rowStrideBytes.toNat .none) = .ok f.rows
  header : f = { f with requestId := h.requestId, placementVersion := h.placementVersion
                        layerId := h.layerId, executorId := h.executorId
                        tokenPosition := h.tokenPosition, status := h.status, flags := h.flags
                        routeCount := h.routeCount.toNat, seq := h.seq }

theorem returnRead_of_decodeReturn {h : HeaderFields} {bytes : List UInt8} {f : ReturnFrame}
    (hdecode : decodeReturn h bytes .none = .ok f) : ReturnRead h (bytes.drop headerLen) f := by
  simp only [decodeReturn, bind_eq_ok, ensure_eq_ok, checkedMul_eq_ok, pure_eq_ok,
    decide_eq_true_eq,
    Except.ok.injEq] at hdecode
  obtain ⟨⟨⟩, -, ⟨⟩, hrows, ⟨⟩, hdim, _, ⟨-, rfl⟩, ⟨⟩, hpayload, ⟨⟩, htables, ⟨⟩, hlength, ⟨⟩,
    hroutes, rows, hrowsVec,
    rfl⟩ := hdecode
  exact ⟨hrows, hdim, hpayload, htables, hlength, hroutes, hrowsVec, rfl⟩

theorem le16_ofLe {c : List UInt8} (hc : c.length = 2) :
    le16 (UInt16.ofNat (Bytes.ofLe c)) = c := by
  have hlt := Bytes.ofLe_lt c
  have hround := Bytes.toLe_ofLe c
  rw [hc] at hlt hround
  rw [le16, UInt16.toNat_ofNat_of_lt' hlt, hround]

/-- A row block in the deployed layout is its codes. -/
theorem codes_of_decodeReturnRow {h : HeaderFields} {block : List UInt8} {row : ReturnRow}
    (hdtype : h.dtype = .bf16) (hlen : block.length = returnRowBytesCanonical)
    (hdecode : decodeReturnRow h block returnRowBytesCanonical .none = .ok row) :
    row.codes.length = hiddenDim ∧ row.codes.flatMap le16 = block := by
  rw [decodeReturnRow, hdtype] at hdecode
  simp only [bind_eq_ok, ensure_eq_ok, pure_eq_ok, Except.ok.injEq] at hdecode
  obtain ⟨⟨⟩, -, ⟨⟩, -, rfl⟩ := hdecode
  have hall : block.take (hiddenDim * 2) = block := List.take_of_length_le hlen.le
  have hcount : block.length / 2 = hiddenDim := by
    rw [hlen]
    rfl
  have hcodes : ((Bytes.chunksExact 2 (block.take (hiddenDim * 2))).map fun c =>
      UInt16.ofNat (Bytes.ofLe c)).length = hiddenDim := by
    rw [hall, Bytes.chunksExact, List.length_map, List.length_map, List.length_range, hcount]
  refine ⟨hcodes, Bytes.flatMap_eq_of_slice (w := 2) ?_ fun i hi => ?_⟩
  · rw [hcodes, hlen]
    rfl
  · have hi' : i < hiddenDim := by rwa [← hcodes]
    have hin : i * 2 + 2 ≤ block.length := by
      rw [hlen, show returnRowBytesCanonical = hiddenDim * 2 from rfl]
      omega
    simp only [hall, Bytes.chunksExact, List.getElem_map, List.getElem_range]
    rw [le16_ofLe (Bytes.length_slice hin)]

namespace ReturnRead

variable {h : HeaderFields} {body : List UInt8} {f : ReturnFrame} (hread : ReturnRead h body f)
include hread

theorem length_rows : f.rows.length = h.rowCount.toNat := (mapM_range_eq_ok_iff.mp hread.rows).1

/-- The rows of a return in the deployed layout. -/
theorem row_eq (hdtype : h.dtype = .bf16)
    (hstride : h.rowStrideBytes.toNat = returnRowBytesCanonical) (i : ℕ)
    (hi : i < f.rows.length) : f.rows[i].codes.length = hiddenDim ∧
      f.rows[i].codes.flatMap le16 =
          Bytes.slice body (i * returnRowBytesCanonical) returnRowBytesCanonical := by
  have hrow := (mapM_range_eq_ok_iff.mp hread.rows).2 i hi
  have hlen := hread.length
  rw [hstride] at hrow hlen
  refine codes_of_decodeReturnRow hdtype (Bytes.length_slice ?_) hrow
  rw [hlen, ← Nat.succ_mul, ← hread.length_rows]
  exact Nat.mul_le_mul_right _ hi

theorem encodable (hdtype : h.dtype = .bf16)
    (hstride : h.rowStrideBytes.toNat = returnRowBytesCanonical) :
    f.Encodable where
  rows_ne := by
    intro hnil
    have hlen := hread.length_rows
    rw [hnil] at hlen
    exact hread.rowCount_ne (UInt32.toNat_inj.mp hlen.symm)
  routeCount_ne := by
    rw [show f.routeCount = h.routeCount.toNat from congrArg ReturnFrame.routeCount hread.header]
    exact fun hzero => hread.routeCount_ne (UInt32.toNat_inj.mp hzero)
  codes := by
    intro row hrow
    obtain ⟨i, hi, rfl⟩ := List.getElem_of_mem hrow
    exact (hread.row_eq hdtype hstride i hi).1
  rows_lt := by
    rw [hread.length_rows]
    exact h.rowCount.toNat_lt
  routeCount_lt := by
    rw [show f.routeCount = h.routeCount.toNat from congrArg ReturnFrame.routeCount hread.header]
    exact h.routeCount.toNat_lt

theorem body_eq (hdtype : h.dtype = .bf16)
    (hstride : h.rowStrideBytes.toNat = returnRowBytesCanonical) :
    returnBody f = body := by
  refine Bytes.flatMap_eq_of_slice (w := returnRowBytesCanonical) ?_ fun i hi =>
    (hread.row_eq hdtype hstride i hi).2.symm
  rw [hread.length, hread.length_rows, hstride]

/-- The header that was read is the one the encoder writes. -/
theorem header_eq (hkind : h.kind = kindReturn)
    (hwire : h.wireBytes.toNat = headerLen + body.length)
    (hdtype : h.dtype = .bf16) (hstride : h.rowStrideBytes = UInt32.ofNat returnRowBytesCanonical)
    (hlogical : h.logicalPayloadBytes = UInt64.ofNat (h.rowCount.toNat * returnRowBytesCanonical))
    (hsource : h.sourceKind = .decode) : h = returnHeader f f.seq := by
  have hstride' : h.rowStrideBytes.toNat = returnRowBytesCanonical := by
    rw [hstride]
    decide
  have hf := hread.header
  refine HeaderFields.ext hkind (congrArg ReturnFrame.requestId hf).symm
    (congrArg ReturnFrame.placementVersion hf).symm (congrArg ReturnFrame.layerId hf).symm ?_ ?_
      hdtype hsource ?_
    hread.tables.1 hread.tables.2 ?_ ?_ ?_ (congrArg ReturnFrame.flags hf).symm hstride
    (congrArg ReturnFrame.status hf).symm (congrArg ReturnFrame.executorId hf).symm
    (congrArg ReturnFrame.tokenPosition hf).symm (congrArg ReturnFrame.seq hf).symm
  · rw [returnHeader_rowCount, hread.length_rows, UInt32.ofNat_toNat]
  · rw [returnHeader_dim, ← hread.dim, UInt32.ofNat_toNat]
  · rw [returnHeader_routeCount, show f.routeCount =
      h.routeCount.toNat from congrArg ReturnFrame.routeCount hf,
      UInt32.ofNat_toNat]
  · rw [returnHeader_payloadBytes, hread.length_rows, ← hstride', ← hread.payload,
      UInt64.ofNat_toNat]
  · rw [returnHeader_logicalPayloadBytes, hread.length_rows, hlogical]
  · rw [returnHeader_wireBytes, hread.length_rows, ← hstride', ← hread.length, ← hwire,
      UInt64.ofNat_toNat]

end ReturnRead

/-- A decoded return is the encoding of what it was decoded to, in the deployed layout alone. -/
theorem encodeReturnSeq_canonical {h : HeaderFields} {bytes : List UInt8} {nocrc : Bool}
    {f : ReturnFrame}
    (hb : Headed bytes h) (hlen : headerLen ≤ bytes.length)
    (hwire : h.wireBytes.toNat = bytes.length)
    (hkind : h.kind = kindReturn) (hdecode : decodeReturn h bytes .none = .ok f)
    (hcrc : Checked bytes nocrc)
    (hreserved : Bytes.slice bytes Hdr.reserved.off 4 = [0, 0, 0, 0])
    (hunread : ReturnUnread bytes) :
    encodeReturnSeq f f.seq .none nocrc = .ok bytes ↔ ReturnLayout bytes := by
  rw [encodeReturnSeq_eq_ok, eq_sealed_iff]
  constructor
  · rintro ⟨-, hsealed⟩
    exact ⟨hsealed.headed.dtype, hsealed.headed.rowStride⟩
  · rintro ⟨hdtype, hstride⟩
    have hread := returnRead_of_decodeReturn hdecode
    have hdtype' : h.dtype = .bf16 := by
      have hcode := le16_injective (hb.dtype.symm.trans hdtype)
      revert hcode
      cases h.dtype <;> decide
    have hstride' := le32_injective (hb.rowStride.symm.trans hstride)
    have hsource : h.sourceKind = .decode := by
      have hcode :=
          le16_injective ((hb.u16 (v := h.sourceKind.code) (by simp [headerLayout])).symm.trans
        hunread.sourceKind)
      revert hcode
      cases h.sourceKind <;> decide
    have hlogical := le64_injective (hb.logicalPayloadBytes.symm.trans hunread.logicalPayloadBytes)
    rw [hb.rowCount] at hlogical
    have hwire' : h.wireBytes.toNat = headerLen + (bytes.drop headerLen).length := by
      rw [hwire, List.length_drop, Nat.add_sub_cancel' hlen]
    have hheader := hread.header_eq hkind hwire' hdtype' hstride' hlogical hsource
    have hstride'' : h.rowStrideBytes.toNat = returnRowBytesCanonical := by
      rw [hstride']
      decide
    refine ⟨hread.encodable hdtype' hstride'', ?_, hcrc, hreserved,
      (hread.body_eq hdtype' hstride'').symm⟩
    rwa [← hheader]

/-! ### Frames -/

/-- The bytes that `decodeFrame` does not check are those an encoder writes. -/
structure UnreadAsWritten (bytes : List UInt8) (nocrc : Bool) : Prop where
  reserved : Bytes.slice bytes Hdr.reserved.off 4 = [0, 0, 0, 0]
  crc32c : nocrc = true → Bytes.slice bytes Hdr.crc32c.off 4 = [0, 0, 0, 0]
  ofRequest : Bytes.slice bytes Hdr.kind.off 2 = le16 kindRequest → RequestUnread bytes
  ofReturn : Bytes.slice bytes Hdr.kind.off 2 = le16 kindReturn → ReturnUnread bytes

/-- The payload is laid out as an encoder does it. -/
structure DeployedLayout (bytes : List UInt8) : Prop where
  ofRequest : Bytes.slice bytes Hdr.kind.off 2 = le16 kindRequest → RequestLayout bytes
  ofReturn : Bytes.slice bytes Hdr.kind.off 2 = le16 kindReturn → ReturnLayout bytes

/-- **Canonical frames**: in the deployed layout, and in no other, an accepted byte string whose
unchecked bytes are as written is the encoding of the frame it was decoded to. -/
theorem decodeFrame_canonical {bytes : List UInt8} {nocrc : Bool} {f : Frame}
    (hdecode : decodeFrame bytes .none nocrc = .ok f) (hunread : UnreadAsWritten bytes nocrc) :
    f.encode nocrc = .ok bytes ↔ DeployedLayout bytes := by
  obtain ⟨h, hparse, hrest⟩ := bind_eq_ok.mp hdecode
  obtain ⟨_, hverify, hrest⟩ := bind_eq_ok.mp hrest
  obtain ⟨hb, hlen, hwire⟩ := headed_of_parseHeader hparse
  have hcrc := checked_of_verifyCrc hverify hunread.crc32c
  have hkindField : Bytes.slice bytes Hdr.kind.off 2 = le16 h.kind :=
      hb.u16 (by simp [headerLayout])
  by_cases hrequest : h.kind = kindRequest
  · rw [if_pos hrequest] at hrest
    obtain ⟨f, hf, hsame⟩ := bind_eq_ok.mp hrest
    obtain rfl := Except.ok.inj hsame
    rw [hrequest] at hkindField
    rw [Frame.encode, encodeRequestSeq_canonical hb hlen hwire hrequest hf hcrc hunread.reserved
      (hunread.ofRequest hkindField)]
    constructor
    · intro hlayout
      refine ⟨fun _ => hlayout, fun hreturn => ?_⟩
      exact absurd (le16_injective (hkindField.symm.trans hreturn)) (by decide)
    · exact fun hlayout => hlayout.ofRequest hkindField
  · rw [if_neg hrequest] at hrest
    by_cases hreturn : h.kind = kindReturn
    · rw [if_pos hreturn] at hrest
      obtain ⟨f, hf, hsame⟩ := bind_eq_ok.mp hrest
      obtain rfl := Except.ok.inj hsame
      rw [hreturn] at hkindField
      rw [Frame.encode, encodeReturnSeq_canonical hb hlen hwire hreturn hf hcrc hunread.reserved
        (hunread.ofReturn hkindField)]
      constructor
      · intro hlayout
        refine ⟨fun hrequest' => ?_, fun _ => hlayout⟩
        exact absurd (le16_injective (hkindField.symm.trans hrequest')) (by decide)
      · exact fun hlayout => hlayout.ofReturn hkindField
    · rw [if_neg hreturn] at hrest
      cases hrest

/-! ### Encoded frames -/

/-- The padding of an encoded row descriptor is empty. -/
theorem slice_pad {f : RequestFrame} {i o n : ℕ}
    (hi : i < f.rows.length) (hpad : (o, List.replicate n 0) ∈ descLayout f.rows[i])
    (hin : o + n ≤ rowDescriptorLen) :
    Bytes.slice (requestBody f .none) (i * rowDescriptorLen + o) n = List.replicate n 0 := by
  have hrows : (f.rows.flatMap (rowDescriptorWire · .none)).length =
      f.rows.length * rowDescriptorLen :=
    Bytes.length_flatMap_of_forall fun r _ => length_rowDescriptorWire r .none
  have hrow : i * rowDescriptorLen + rowDescriptorLen ≤ f.rows.length * rowDescriptorLen := by
    rw [← Nat.succ_mul]
    exact Nat.mul_le_mul_right _ hi
  have hread := slice_rowDescriptorWire f.rows[i] _ hpad
  rw [List.length_replicate] at hread
  rw [← Bytes.slice_slice hin, requestBody, Bytes.slice_append_left (by rwa [hrows]),
    Bytes.slice_flatMap (fun r _ => length_rowDescriptorWire r .none) hi]
  exact hread

/-- An encoder writes what the decoder does not check. -/
theorem unreadAsWritten_encodeRequestSeq {f : RequestFrame} {seq : UInt64} {nocrc : Bool}
    {bytes : List UInt8}
    (henc : encodeRequestSeq f seq .none nocrc = .ok bytes) : UnreadAsWritten bytes nocrc := by
  obtain ⟨hf, hbytes⟩ := encodeRequestSeq_eq_ok.mp henc
  have hs := eq_sealed_iff.mp hbytes
  have hrows : declaredRows bytes = f.rows.length := by
    rw [hs.headed.rowCount, requestHeader_rowCount, UInt32.toNat_ofNat_of_lt' hf.rows_lt]
  have hkind : Bytes.slice bytes Hdr.kind.off 2 = le16 kindRequest :=
    hs.headed.u16 (v := (requestHeader f seq).kind) (by simp [headerLayout])
  refine ⟨hs.reserved, ?_, fun _ => ⟨?_, ?_, fun i hi => ?_, fun i hi => ?_⟩, fun hreturn => ?_⟩
  · rintro rfl
    exact hs.checked
  · rw [hs.headed.logicalPayloadBytes, hrows, requestHeader_logicalPayloadBytes]
  · exact hs.headed.u32 (v := (requestHeader f seq).status.code) (by simp [headerLayout])
  · rw [descOff_add, hs.body]
    exact slice_pad (n := 2) (by rwa [← hrows]) (by simp [descLayout]) (by decide)
  · rw [descOff_add, hs.body]
    exact slice_pad (n := 4) (by rwa [← hrows]) (by simp [descLayout]) (by decide)
  · exact absurd (le16_injective (hkind.symm.trans hreturn)) (by decide)

theorem decodeFrame_canonical_oneRow : ∃ bytes, encodeRequestSeq oneRow 5 .none false = .ok bytes ∧
    (Frame.encode (.request { oneRow with seq := 5 }) false = .ok bytes ↔
        DeployedLayout bytes) := by
  obtain ⟨bytes, henc⟩ : ∃ bytes, encodeRequestSeq oneRow 5 .none false = .ok bytes :=
    ⟨_, encodeRequestSeq_eq_ok.mpr ⟨encodable_oneRow, rfl⟩⟩
  exact ⟨bytes, henc, decodeFrame_canonical ((decodeFrame_encodeSeq 5 false bytes).1 oneRow henc)
    (unreadAsWritten_encodeRequestSeq henc)⟩

/-- The header of `oneRow` declaring the row-scaled dtype. -/
def rowScaledHeader : HeaderFields := { requestHeader oneRow 5 with dtype := .fp8E4m3RowScaled }

/-- A request that declares the other dtype is accepted, and written with its own. -/
theorem not_canonical_rowScaled : ∃ bytes,
    decodeFrame bytes .none false = .ok (.request { oneRow with seq := 5 }) ∧
      Frame.encode (.request { oneRow with seq := 5 }) false ≠ .ok bytes := by
  obtain ⟨bytes, hbytes⟩ : ∃ bytes, bytes =
      sealFrame (writeHeader rowScaledHeader .none ++ requestBody oneRow .none) .none false :=
        ⟨_, rfl⟩
  have hwire : rowScaledHeader.wireBytes.toNat = headerLen + (requestBody oneRow .none).length := by
    rw [encodable_oneRow.length_body]
    exact toNat_ofNat_of_le encodable_oneRow.wireLen_le
  have hsealed : decodeRequest (requestHeader oneRow 5)
      (sealFrame (writeHeader (requestHeader oneRow 5) .none ++ requestBody oneRow .none) .none
        false) .none =
      .ok { oneRow with seq := 5 } := decodeRequest_sealed encodable_oneRow
  have hdecode : decodeRequest rowScaledHeader bytes .none = .ok { oneRow with seq := 5 } := by
    rw [← hsealed, hbytes, decodeRequest, decodeRequest, drop_sealed, drop_sealed]
    rfl
  refine ⟨bytes, ?_, fun henc => ?_⟩
  · rw [hbytes, decodeFrame_sealed_request rfl hwire, ← hbytes, hdecode]
    rfl
  · have hwritten := eq_sealed_iff.mp (encodeRequestSeq_eq_ok.mp henc).2
    have hcode := hwritten.headed.dtype.symm.trans (eq_sealed_iff.mp hbytes).headed.dtype
    exact absurd (le16_injective hcode) (by decide)

end Wire

end Mimo26

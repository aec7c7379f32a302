import Mimo26.Wire.Crc32c

/-!
# The frame codec

Request and return frames and their byte encoding (`frame.rs`, `bf16.rs`): a 128-byte header
written field by field, the row tables after it, and a CRC32C over the whole frame with its own
field read as zero. Decoding parses the header, checks the CRC, then the geometry and the rows.

`f32` values are kept as their bit patterns. `usize` is 64 bits wide. The process switch that turns
the checksum off (`crc_disabled`) is the argument `nocrc` of the functions that read it.

## Main definitions

* `RequestFrame`, `ReturnFrame`, `Frame` — frames
* `encodeRequestSeq`, `encodeReturnSeq` — encoding with an explicit sequence stamp
* `decodeFrame` — decoding
-/

namespace Mimo26

namespace Wire

/-! ### BF16 -/

/-- BF16 code to `f32` bits, exact. -/
def bf16ToF32 (bits : UInt16) : UInt32 := bits.toUInt32 <<< 16

/-- `f32` bits to BF16, to nearest with ties to even; every NaN becomes the canonical one. -/
def f32ToBf16Rne (bits : UInt32) : UInt16 :=
  let sign : UInt16 := ((bits >>> 16) &&& 0x8000).toUInt16
  let mag : UInt32 := bits &&& 0x7FFFFFFF
  if mag > 0x7F800000 then sign ||| 0x7FFF
  else
    let rounded : UInt32 := mag + ((0x7FFF : UInt32) + ((mag >>> 16) &&& 1))
    let rounded : UInt32 := if rounded ≥ 0x7F800000 then 0x7F800000 else rounded
    sign ||| (rounded >>> 16).toUInt16

def f32ToBf16 (bits : UInt32) (naive : WireNaive) : UInt16 :=
  if naive.has WireNaive.bf16Truncate then (bits >>> 16).toUInt16 else f32ToBf16Rne bits

/-! ### Frames -/

/-- Spark reduced its route partials before returning. -/
def flagSparkReduction : UInt32 := (1 : UInt32) <<< 9
/-- Compact BF16 rank partials. -/
def flagV41CompactBf16 : UInt32 := (1 : UInt32) <<< 16
/-- Both bits, which every `Ok` return must carry. -/
def flagReturnRequired : UInt32 := flagSparkReduction ||| flagV41CompactBf16

/-- 40-byte row descriptor. -/
structure RowDescriptor where
  rowId : UInt64
  sourceKind : SourceKind
  sourceRequestId : UInt64
  tokenPosition : UInt64
  routeOffset : UInt32
  routeCount : UInt32
  deriving DecidableEq, Repr

/-- 12-byte route entry. -/
structure RouteEntry where
  rowIndex : UInt32
  expertId : UInt32
  gateWeight : UInt32
  deriving DecidableEq, Repr

/-- Hidden row: E4M3 payload bytes, then the scale region. -/
structure HiddenRow where
  payload : List UInt8
  scales : List UInt8
  deriving DecidableEq, Repr

/-- Coordinator to Spark. -/
structure RequestFrame where
  requestId : UInt64
  placementVersion : UInt64
  layerId : UInt32
  executorId : UInt64
  sourceKind : SourceKind
  tokenPosition : UInt64
  flags : UInt32
  seq : UInt64
  rows : List RowDescriptor
  routes : List RouteEntry
  hiddenRows : List HiddenRow
  deriving DecidableEq, Repr

/-- One compact BF16 partial row. -/
structure ReturnRow where
  codes : List UInt16
  deriving DecidableEq, Repr

/-- Spark to coordinator: a Spark's weighted route partials, already summed per row. -/
structure ReturnFrame where
  requestId : UInt64
  placementVersion : UInt64
  layerId : UInt32
  executorId : UInt64
  tokenPosition : UInt64
  status : Status
  flags : UInt32
  routeCount : ℕ
  seq : UInt64
  rows : List ReturnRow
  deriving DecidableEq, Repr

inductive Frame where
  | request (f : RequestFrame)
  | return (f : ReturnFrame)
  deriving DecidableEq, Repr

def Frame.seq : Frame → UInt64
  | .request f => f.seq
  | .return f => f.seq

structure HeaderFields where
  kind : UInt16
  requestId : UInt64
  placementVersion : UInt64
  layerId : UInt32
  rowCount : UInt32
  dim : UInt32
  dtype : Dtype
  sourceKind : SourceKind
  routeCount : UInt32
  rowDescriptorBytes : UInt32
  routeBytes : UInt32
  payloadBytes : UInt64
  logicalPayloadBytes : UInt64
  wireBytes : UInt64
  flags : UInt32
  rowStrideBytes : UInt32
  status : Status
  executorId : UInt64
  tokenPosition : UInt64
  seq : UInt64
  deriving DecidableEq, Repr

/-! ### Primitive little-endian codecs -/

def le16 (v : UInt16) : List UInt8 := Bytes.toLe 2 v.toNat
def le32 (v : UInt32) : List UInt8 := Bytes.toLe 4 v.toNat
def le64 (v : UInt64) : List UInt8 := Bytes.toLe 8 v.toNat

@[simp] theorem length_le16 (v : UInt16) : (le16 v).length = 2 := Bytes.length_toLe ..
@[simp] theorem length_le32 (v : UInt32) : (le32 v).length = 4 := Bytes.length_toLe ..
@[simp] theorem length_le64 (v : UInt64) : (le64 v).length = 8 := Bytes.length_toLe ..

/-- The number in the `w` bytes at offset `off`. -/
def getLe (w : ℕ) (bytes : List UInt8) (off : ℕ) : Except WireError ℕ :=
  if off + w ≤ bytes.length then .ok (Bytes.ofLe (Bytes.slice bytes off w))
  else .error (.tooShort (off + w) bytes.length)

def getU16 (bytes : List UInt8) (off : ℕ) : Except WireError UInt16 :=
  (getLe 2 bytes off).map UInt16.ofNat
def getU32 (bytes : List UInt8) (off : ℕ) : Except WireError UInt32 :=
  (getLe 4 bytes off).map UInt32.ofNat
def getU64 (bytes : List UInt8) (off : ℕ) : Except WireError UInt64 :=
  (getLe 8 bytes off).map UInt64.ofNat
/-- An `f32`, as its bits. -/
def getF32 (bytes : List UInt8) (off : ℕ) : Except WireError UInt32 := getU32 bytes off

/-- `usize::MAX`. -/
def usizeMax : ℕ := 2 ^ 64 - 1

def checkedMul (a b : ℕ) (field : String) : Except WireError ℕ :=
  if a * b ≤ usizeMax then .ok (a * b) else .error (.dimMismatch field 0 usizeMax)

def asU32 (v : ℕ) (field : String) : Except WireError UInt32 :=
  if v < 2 ^ 32 then .ok (UInt32.ofNat v) else .error (.dimMismatch field (2 ^ 32 - 1) v)

/-- A guard: the error unless the condition holds. -/
def ensure (c : Bool) (e : WireError) : Except WireError Unit := if c then .ok () else .error e

/-! ### Row descriptors and route entries -/

/-- Offsets of the two 64-bit identity fields; the trap swaps them. -/
def descIdOffsets (naive : WireNaive) : ℕ × ℕ :=
  if naive.has WireNaive.descFieldDrift then (Desc.tokenPosition.off, Desc.sourceRequestId.off)
  else (Desc.sourceRequestId.off, Desc.tokenPosition.off)

def rowDescriptorWire (row : RowDescriptor) (naive : WireNaive) : List UInt8 :=
  Bytes.putAll (List.replicate rowDescriptorLen 0)
    [(Desc.rowId.off, le64 row.rowId),
     (Desc.sourceKind.off, le16 row.sourceKind.code),
     ((descIdOffsets naive).1, le64 row.sourceRequestId),
     ((descIdOffsets naive).2, le64 row.tokenPosition),
     (Desc.routeOffset.off, le32 row.routeOffset),
     (Desc.routeCount.off, le32 row.routeCount)]

def rowDescriptorFromWire (bytes : List UInt8) (offset : ℕ) (naive : WireNaive) :
    Except WireError RowDescriptor := do
  ensure (offset + rowDescriptorLen ≤ bytes.length)
    (.tooShort (offset + rowDescriptorLen) bytes.length)
  let b := Bytes.slice bytes offset rowDescriptorLen
  let rowId ← getU64 b Desc.rowId.off
  let sourceKind ← SourceKind.fromCode (← getU16 b Desc.sourceKind.off)
  let sourceRequestId ← getU64 b (descIdOffsets naive).1
  let tokenPosition ← getU64 b (descIdOffsets naive).2
  let routeOffset ← getU32 b Desc.routeOffset.off
  let routeCount ← getU32 b Desc.routeCount.off
  return { rowId, sourceKind, sourceRequestId, tokenPosition, routeOffset, routeCount }

/-- Offsets of the expert id and the gate weight; the trap swaps them. -/
def routeOffsets (naive : WireNaive) : ℕ × ℕ :=
  if naive.has WireNaive.routeFieldSwap then (Route.gateWeight.off, Route.expertId.off)
  else (Route.expertId.off, Route.gateWeight.off)

def routeEntryWire (r : RouteEntry) (naive : WireNaive) : List UInt8 :=
  Bytes.putAll (List.replicate routeEntryLen 0)
    [(Route.rowIndex.off, le32 r.rowIndex),
     ((routeOffsets naive).1, le32 r.expertId),
     ((routeOffsets naive).2, le32 r.gateWeight)]

def routeEntryFromWire (bytes : List UInt8) (offset : ℕ) (naive : WireNaive) :
    Except WireError RouteEntry := do
  ensure (offset + routeEntryLen ≤ bytes.length) (.tooShort (offset + routeEntryLen) bytes.length)
  let b := Bytes.slice bytes offset routeEntryLen
  let rowIndex ← getU32 b Route.rowIndex.off
  let expertId ← getU32 b (routeOffsets naive).1
  let gateWeight ← getF32 b (routeOffsets naive).2
  return { rowIndex, expertId, gateWeight }

/-- Every row's route range lies in the table, and every route names a row. -/
def validateRowsRoutes (rows : List RowDescriptor) (routes : List RouteEntry) :
    Except WireError Unit := do
  match rows.findIdx? fun row => routes.length < row.routeOffset.toNat + row.routeCount.toNat with
  | some i => throw (.routeRangeBad i)
  | none => pure ()
  match routes.zipIdx.find? fun rj => rows.length ≤ rj.1.rowIndex.toNat with
  | some (r, j) => throw (.routeRowMismatch j r.rowIndex (UInt32.ofNat rows.length))
  | none => pure ()

/-! ### Header -/

/-- The header's fields, in the order they are written. -/
def headerLayout (h : HeaderFields) (naive : WireNaive) : List (ℕ × List UInt8) :=
  [(Hdr.magic.off, magic),
   (Hdr.version.off, le16 version),
   (Hdr.kind.off, le16 h.kind),
   (Hdr.headerLen.off, le32 (UInt32.ofNat headerLen)),
   (Hdr.requestId.off, le64 h.requestId),
   (Hdr.placementVersion.off, le64 h.placementVersion),
   (Hdr.layerId.off, le32 h.layerId),
   (Hdr.rowCount.off, le32 h.rowCount),
   (Hdr.dim.off, le32 h.dim),
   (Hdr.payloadDtype.off, le16 (h.dtype.code naive)),
   (Hdr.sourceKind.off, le16 h.sourceKind.code),
   (Hdr.routeCount.off, le32 h.routeCount),
   (Hdr.rowDescriptorBytes.off, le32 h.rowDescriptorBytes),
   (Hdr.routeBytes.off, le32 h.routeBytes),
   (Hdr.payloadBytes.off, le64 h.payloadBytes),
   (Hdr.logicalPayloadBytes.off, le64 h.logicalPayloadBytes),
   (Hdr.wireBytes.off, le64 h.wireBytes),
   (Hdr.flags.off, le32 h.flags),
   (Hdr.rowStrideBytes.off, le32 h.rowStrideBytes),
   (Hdr.status.off, le32 h.status.code),
   (Hdr.executorId.off, le64 h.executorId),
   (Hdr.tokenPosition.off, le64 h.tokenPosition),
   (Hdr.seq.off, le64 h.seq)]

/-- The 128 header bytes; the CRC field and the reserved bytes stay zero. -/
def writeHeader (h : HeaderFields) (naive : WireNaive) : List UInt8 :=
  Bytes.putAll (List.replicate headerLen 0) (headerLayout h naive)

def parseHeader (bytes : List UInt8) (naive : WireNaive) : Except WireError HeaderFields := do
  ensure (headerLen ≤ bytes.length) (.tooShort headerLen bytes.length)
  let m := Bytes.slice bytes Hdr.magic.off 8
  ensure (m = magic) (.badMagic m)
  let v ← getU16 bytes Hdr.version.off
  ensure (v = version) (.badVersion v)
  let kind ← getU16 bytes Hdr.kind.off
  ensure (kind = kindRequest ∨ kind = kindReturn) (.badKind kind)
  let hlen ← getU32 bytes Hdr.headerLen.off
  ensure (hlen.toNat = headerLen) (.badHeaderLen hlen)
  let wireBytes ← getU64 bytes Hdr.wireBytes.off
  let declared := wireBytes.toNat
  ensure (declared ≤ bytes.length) (.truncated declared bytes.length)
  ensure (bytes.length ≤ declared) (.trailingBytes declared bytes.length)
  let requestId ← getU64 bytes Hdr.requestId.off
  let placementVersion ← getU64 bytes Hdr.placementVersion.off
  let layerId ← getU32 bytes Hdr.layerId.off
  let rowCount ← getU32 bytes Hdr.rowCount.off
  let dim ← getU32 bytes Hdr.dim.off
  let dtype ← Dtype.fromCode (← getU16 bytes Hdr.payloadDtype.off) naive
  let sourceKind ← SourceKind.fromCode (← getU16 bytes Hdr.sourceKind.off)
  let routeCount ← getU32 bytes Hdr.routeCount.off
  let rowDescriptorBytes ← getU32 bytes Hdr.rowDescriptorBytes.off
  let routeBytes ← getU32 bytes Hdr.routeBytes.off
  let payloadBytes ← getU64 bytes Hdr.payloadBytes.off
  let logicalPayloadBytes ← getU64 bytes Hdr.logicalPayloadBytes.off
  let flags ← getU32 bytes Hdr.flags.off
  let rowStrideBytes ← getU32 bytes Hdr.rowStrideBytes.off
  let status ← Status.fromCode (← getU32 bytes Hdr.status.off)
  let executorId ← getU64 bytes Hdr.executorId.off
  let tokenPosition ← getU64 bytes Hdr.tokenPosition.off
  let seq ← getU64 bytes Hdr.seq.off
  return { kind, requestId, placementVersion, layerId, rowCount, dim, dtype, sourceKind,
           routeCount, rowDescriptorBytes, routeBytes, payloadBytes, logicalPayloadBytes,
           wireBytes, flags, rowStrideBytes, status, executorId, tokenPosition, seq }

/-! ### Checksum -/

def computeCrc (bytes : List UInt8) (naive : WireNaive) : UInt32 :=
  if naive.has WireNaive.crcHeaderExempt then
    crc32cWith (familyFor naive) (bytes.drop headerLen)
  else crc32cZeroed (familyFor naive) bytes Hdr.crc32c.off

/-- Write the checksum, unless this process runs with checksums off. -/
def sealFrame (frame : List UInt8) (naive : WireNaive) (nocrc : Bool) : List UInt8 :=
  if nocrc then frame else Bytes.put frame Hdr.crc32c.off (le32 (computeCrc frame naive))

def verifyCrc (bytes : List UInt8) (naive : WireNaive) (nocrc : Bool) (seq : UInt64) :
    Except WireError Unit :=
  if naive.has WireNaive.crcUnchecked then .ok ()
  else if nocrc then .ok ()
  else do
    let want := computeCrc bytes naive
    let got ← getU32 bytes Hdr.crc32c.off
    ensure (want = got) (.corrupt seq want got)

/-! ### Request frames -/

/-- The dtype a request of this process declares. -/
def requestDtype (naive : WireNaive) : Dtype :=
  if naive.has WireNaive.rowScaledDtype then .fp8E4m3RowScaled else .fp8E4m3Ue8m0K32

/-- The first hidden row of a wrong length. -/
def checkHiddenRows (hiddenRows : List HiddenRow) (scalesLen : ℕ) : Except WireError Unit :=
  hiddenRows.forM fun h => do
    ensure (h.payload.length = hiddenDim) (.dimMismatch "hidden.payload" hiddenDim h.payload.length)
    ensure (h.scales.length = scalesLen) (.dimMismatch "hidden.scales" scalesLen h.scales.length)

/-- The bytes of a request after its header. -/
def requestBody (frame : RequestFrame) (naive : WireNaive) : List UInt8 :=
  frame.rows.flatMap (rowDescriptorWire · naive) ++
    (frame.routes.flatMap (routeEntryWire · naive) ++
      frame.hiddenRows.flatMap fun h => h.payload ++ h.scales)

def encodeRequestSeq (frame : RequestFrame) (seq : UInt64) (naive : WireNaive) (nocrc : Bool) :
    Except WireError (List UInt8) := do
  ensure (frame.rows ≠ []) (.dimMismatch "rows" 1 0)
  ensure (frame.hiddenRows.length = frame.rows.length)
    (.dimMismatch "hidden_rows" frame.rows.length frame.hiddenRows.length)
  validateRowsRoutes frame.rows frame.routes
  let hiddenRow := hiddenRowBytes naive
  checkHiddenRows frame.hiddenRows (hiddenRow - hiddenDim)
  let rows := frame.rows.length
  let routes := frame.routes.length
  let rowDescriptorBytes ← checkedMul rows rowDescriptorLen "row_descriptor_bytes"
  let routeBytes ← checkedMul routes routeEntryLen "route_bytes"
  let payloadBytes ← checkedMul rows hiddenRow "payload_bytes"
  let logicalBytes ← checkedMul rows (requestRowBytes naive) "logical_payload_bytes"
  let wireLen := headerLen + (rowDescriptorBytes + routeBytes + payloadBytes)
  ensure (wireLen ≤ usizeMax) (.dimMismatch "wire_bytes" 0 usizeMax)
  let header : HeaderFields :=
    { kind := kindRequest
      requestId := frame.requestId
      placementVersion := frame.placementVersion
      layerId := frame.layerId
      rowCount := ← asU32 rows "row_count"
      dim := UInt32.ofNat hiddenDim
      dtype := requestDtype naive
      sourceKind := frame.sourceKind
      routeCount := ← asU32 routes "route_count"
      rowDescriptorBytes := ← asU32 rowDescriptorBytes "row_descriptor_bytes"
      routeBytes := ← asU32 routeBytes "route_bytes"
      payloadBytes := UInt64.ofNat payloadBytes
      logicalPayloadBytes := UInt64.ofNat logicalBytes
      wireBytes := UInt64.ofNat wireLen
      flags := frame.flags
      rowStrideBytes := ← asU32 hiddenRow "row_stride_bytes"
      status := .ok
      executorId := frame.executorId
      tokenPosition := frame.tokenPosition
      seq := seq }
  return sealFrame (writeHeader header naive ++ requestBody frame naive) naive nocrc

def encodeRequest (frame : RequestFrame) (naive : WireNaive) (nocrc : Bool) :
    Except WireError (List UInt8) :=
  encodeRequestSeq frame frame.seq naive nocrc

def decodeRequest (h : HeaderFields) (bytes : List UInt8) (naive : WireNaive) :
    Except WireError RequestFrame := do
  ensure (h.rowCount ≠ 0) (.dimMismatch "row_count" 1 0)
  let rows := h.rowCount.toNat
  let routes := h.routeCount.toNat
  let rowDescriptorBytes ← checkedMul rows rowDescriptorLen "row_descriptor_bytes"
  let routeBytes ← checkedMul routes routeEntryLen "route_bytes"
  ensure (h.rowDescriptorBytes.toNat = rowDescriptorBytes)
    (.dimMismatch "row_descriptor_bytes" rowDescriptorBytes h.rowDescriptorBytes.toNat)
  ensure (h.routeBytes.toNat = routeBytes)
    (.dimMismatch "route_bytes" routeBytes h.routeBytes.toNat)
  ensure (h.dim.toNat = hiddenDim) (.dimMismatch "hidden_dim" hiddenDim h.dim.toNat)
  ensure (h.dtype = .fp8E4m3Ue8m0K32 ∨ h.dtype = .fp8E4m3RowScaled)
    (.dimMismatch "request_payload_dtype" Dtype.fp8E4m3Ue8m0K32.raw.toNat
      (h.dtype.code naive).toNat)
  let stride := h.rowStrideBytes.toNat
  ensure (hiddenDim ≤ stride) (.dimMismatch "row_stride_bytes" hiddenDim stride)
  let payloadBytes ← checkedMul rows stride "payload_bytes"
  ensure (h.payloadBytes.toNat = payloadBytes)
    (.dimMismatch "payload_bytes" payloadBytes h.payloadBytes.toNat)
  let body := bytes.drop headerLen
  ensure (body.length = rowDescriptorBytes + routeBytes + payloadBytes)
    (.dimMismatch "body_len" (rowDescriptorBytes + routeBytes + payloadBytes) body.length)
  let rowsVec ← (List.range rows).mapM fun i =>
    rowDescriptorFromWire body (i * rowDescriptorLen) naive
  let routesVec ← (List.range routes).mapM fun j =>
    routeEntryFromWire body (rowDescriptorBytes + j * routeEntryLen) naive
  validateRowsRoutes rowsVec routesVec
  let hiddenBase := rowDescriptorBytes + routeBytes
  let hiddenRows := (List.range rows).map fun i =>
    let base := hiddenBase + i * stride
    HiddenRow.mk (Bytes.slice body base hiddenDim)
      (Bytes.slice body (base + hiddenDim) (stride - hiddenDim))
  return { requestId := h.requestId
           placementVersion := h.placementVersion
           layerId := h.layerId
           executorId := h.executorId
           sourceKind := h.sourceKind
           tokenPosition := h.tokenPosition
           flags := h.flags
           seq := h.seq
           rows := rowsVec
           routes := routesVec
           hiddenRows := hiddenRows }

/-! ### Return frames -/

/-- A return row that does not hold `hiddenDim` codes is refused. -/
def checkReturnRows (rows : List ReturnRow) : Except WireError Unit :=
  rows.forM fun row => ensure (row.codes.length = hiddenDim)
    (.dimMismatch "return_row_codes" hiddenDim row.codes.length)

/-- Whether the rows go out as FP32 (a trap). -/
def returnFp32 (naive : WireNaive) : Bool :=
  !naive.has WireNaive.perRouteReturn && naive.has WireNaive.fp32Return

/-- The wire bytes of one return row. -/
def returnRowWire (row : ReturnRow) (routeCount : ℕ) (naive : WireNaive) : List UInt8 :=
  if returnFp32 naive then row.codes.flatMap fun code => le32 (bf16ToF32 code)
  else if naive.has WireNaive.perRouteReturn then
    (List.range routeCount).flatMap fun _ => row.codes.flatMap le16
  else row.codes.flatMap le16

def encodeReturnSeq (frame : ReturnFrame) (seq : UInt64) (naive : WireNaive) (nocrc : Bool) :
    Except WireError (List UInt8) := do
  ensure (frame.rows ≠ []) (.dimMismatch "rows" 1 0)
  ensure (frame.routeCount ≠ 0) (.dimMismatch "route_count" 1 0)
  checkReturnRows frame.rows
  let block := returnRowBytes frame.routeCount naive
  let rows := frame.rows.length
  let payloadBytes ← checkedMul rows block "payload_bytes"
  let wireLen := headerLen + payloadBytes
  ensure (wireLen ≤ usizeMax) (.dimMismatch "wire_bytes" 0 usizeMax)
  let header : HeaderFields :=
    { kind := kindReturn
      requestId := frame.requestId
      placementVersion := frame.placementVersion
      layerId := frame.layerId
      rowCount := ← asU32 rows "row_count"
      dim := UInt32.ofNat hiddenDim
      dtype := if returnFp32 naive then .f32 else .bf16
      sourceKind := .decode
      routeCount := ← asU32 frame.routeCount "route_count"
      rowDescriptorBytes := 0
      routeBytes := 0
      payloadBytes := UInt64.ofNat payloadBytes
      logicalPayloadBytes := UInt64.ofNat payloadBytes
      wireBytes := UInt64.ofNat wireLen
      flags := frame.flags
      rowStrideBytes := ← asU32 block "row_stride_bytes"
      status := frame.status
      executorId := frame.executorId
      tokenPosition := frame.tokenPosition
      seq := seq }
  return sealFrame (writeHeader header naive ++
    frame.rows.flatMap fun row => returnRowWire row frame.routeCount naive) naive nocrc

def encodeReturn (frame : ReturnFrame) (naive : WireNaive) (nocrc : Bool) :
    Except WireError (List UInt8) :=
  encodeReturnSeq frame frame.seq naive nocrc

/-- The codes of one return row block of `stride` bytes. -/
def decodeReturnRow (h : HeaderFields) (block : List UInt8) (stride : ℕ) (naive : WireNaive) :
    Except WireError ReturnRow :=
  match h.dtype with
  | .f32 => do
    ensure (stride = hiddenDim * 4) (.dimMismatch "f32_row_stride" (hiddenDim * 4) stride)
    return ⟨(Bytes.chunksExact 4 block).map fun c =>
      f32ToBf16 (UInt32.ofNat (Bytes.ofLe c)) naive⟩
  | .bf16 => do
    let unit := hiddenDim * 2
    ensure (stride % unit = 0) (.dimMismatch "bf16_row_stride" unit stride)
    let copies := stride / unit
    ensure (copies = 1 ∨ copies = h.routeCount.toNat) (.dimMismatch "bf16_row_copies" 1 copies)
    return ⟨(Bytes.chunksExact 2 (block.take unit)).map fun c => UInt16.ofNat (Bytes.ofLe c)⟩
  | other => throw (.dimMismatch "return_payload_dtype" Dtype.bf16.raw.toNat
      (other.code naive).toNat)

def decodeReturn (h : HeaderFields) (bytes : List UInt8) (naive : WireNaive) :
    Except WireError ReturnFrame := do
  -- an error return carries no reduction, so the flags are required of `Ok` returns only
  ensure (h.status ≠ .ok ∨ h.flags &&& flagReturnRequired = flagReturnRequired)
    (.unpresummedReturn h.flags)
  ensure (h.rowCount ≠ 0) (.dimMismatch "row_count" 1 0)
  ensure (h.dim.toNat = hiddenDim) (.dimMismatch "output_dim" hiddenDim h.dim.toNat)
  let rows := h.rowCount.toNat
  let stride := h.rowStrideBytes.toNat
  let payloadBytes ← checkedMul rows stride "payload_bytes"
  ensure (h.payloadBytes.toNat = payloadBytes)
    (.dimMismatch "payload_bytes" payloadBytes h.payloadBytes.toNat)
  ensure (h.rowDescriptorBytes = 0 ∧ h.routeBytes = 0)
    (.dimMismatch "return_row_descriptor_bytes" 0 (h.rowDescriptorBytes + h.routeBytes).toNat)
  let body := bytes.drop headerLen
  ensure (body.length = payloadBytes) (.dimMismatch "body_len" payloadBytes body.length)
  ensure (h.routeCount ≠ 0) (.dimMismatch "route_count" 1 0)
  let rowsVec ← (List.range rows).mapM fun i =>
    decodeReturnRow h (Bytes.slice body (i * stride) stride) stride naive
  return { requestId := h.requestId
           placementVersion := h.placementVersion
           layerId := h.layerId
           executorId := h.executorId
           tokenPosition := h.tokenPosition
           status := h.status
           flags := h.flags
           routeCount := h.routeCount.toNat
           seq := h.seq
           rows := rowsVec }

/-! ### Dispatch -/

/-- Decode any frame. -/
def decodeFrame (bytes : List UInt8) (naive : WireNaive) (nocrc : Bool) :
    Except WireError Frame := do
  let h ← parseHeader bytes naive
  verifyCrc bytes naive nocrc h.seq
  if h.kind = kindRequest then return .request (← decodeRequest h bytes naive)
  else if h.kind = kindReturn then return .return (← decodeReturn h bytes naive)
  else throw (.badKind h.kind)

end Wire

end Mimo26

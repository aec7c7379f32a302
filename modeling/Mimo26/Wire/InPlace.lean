import Mimo26.Wire.Frame

/-!
# In-place encoding

The encoders of the RDMA fast path (`encode_request_meta_into`, `encode_request_desc_into`): they
write the leading part of a request body into a buffer of the caller and give back the header and
the offsets of what the caller fills in. The checksum field stays zero. A return is assembled from
its header (`return_header_seq`) and a body written by the caller, then sealed.

## Main definitions

* `InPlace` — what an in-place encoder writes and returns
* `encodeRequestMetaInto`, `encodeRequestDescInto`
* `returnHeaderSeq`, `sealInPlace`
-/

namespace Mimo26

namespace Wire

/-- Sizes of the parts of a request body. -/
structure BodyLayout where
  rowDescriptorBytes : ℕ
  routeBytes : ℕ
  payloadBytes : ℕ
  logicalBytes : ℕ
  deriving DecidableEq, Repr

def BodyLayout.bodyLen (l : BodyLayout) : ℕ := l.rowDescriptorBytes + l.routeBytes + l.payloadBytes

/-- The sizes for `rows` rows and `routes` routes, in a buffer of `capacity` bytes. -/
def bodyLayout (rows routes capacity : ℕ) (naive : WireNaive) : Except WireError BodyLayout := do
  let rowDescriptorBytes ← checkedMul rows rowDescriptorLen "row_descriptor_bytes"
  let routeBytes ← checkedMul routes routeEntryLen "route_bytes"
  let payloadBytes ← checkedMul rows (hiddenRowBytes naive) "payload_bytes"
  let logicalBytes ← checkedMul rows (requestRowBytes naive) "logical_payload_bytes"
  let l : BodyLayout := { rowDescriptorBytes, routeBytes, payloadBytes, logicalBytes }
  ensure (l.bodyLen ≤ capacity) (.tooShort l.bodyLen capacity)
  return l

/-- What an in-place encoder produces. -/
structure InPlace where
  header : List UInt8
  /-- The bytes written at the start of the body. -/
  written : List UInt8
  routesOffset : ℕ
  hiddenOffset : ℕ
  bodyLen : ℕ
  deriving DecidableEq, Repr

/-- Row `t` of a decode request with `topk` routes a row. -/
def decodeRowDescriptor (requestId : UInt64) (topk t : ℕ) : RowDescriptor where
  rowId := UInt64.ofNat t
  sourceKind := .decode
  sourceRequestId := requestId
  tokenPosition := UInt64.ofNat t
  routeOffset := UInt32.ofNat (t * topk)
  routeCount := UInt32.ofNat topk

/-- Row descriptors of `rows` rows. -/
def decodeRows (requestId : UInt64) (rows topk : ℕ) : List RowDescriptor :=
  (List.range rows).map (decodeRowDescriptor requestId topk)

/-- Route entries of `rows` rows, in token order and then route order. -/
def decodeRoutes (routes : List (UInt32 × UInt32)) (rows topk : ℕ) : List RouteEntry :=
  (List.range rows).flatMap fun t => (List.range topk).map fun k =>
    let route := routes.getD (t * topk + k) (0, 0)
    { rowIndex := UInt32.ofNat t, expertId := route.1, gateWeight := route.2 }

/-- The header of an in-place request. -/
def inPlaceHeader (l : BodyLayout) (requestId : UInt64) (layerId : UInt32) (executorId seq : UInt64)
    (rows routes : ℕ) (naive : WireNaive) : Except WireError (List UInt8) := do
  let h : HeaderFields :=
    { kind := kindRequest
      requestId := requestId
      placementVersion := 1
      layerId := layerId
      rowCount := ← asU32 rows "row_count"
      dim := UInt32.ofNat hiddenDim
      dtype := requestDtype naive
      sourceKind := .decode
      routeCount := ← asU32 routes "route_count"
      rowDescriptorBytes := ← asU32 l.rowDescriptorBytes "row_descriptor_bytes"
      routeBytes := ← asU32 l.routeBytes "route_bytes"
      payloadBytes := UInt64.ofNat l.payloadBytes
      logicalPayloadBytes := UInt64.ofNat l.logicalBytes
      wireBytes := UInt64.ofNat (headerLen + l.bodyLen)
      flags := 0
      rowStrideBytes := ← asU32 (hiddenRowBytes naive) "row_stride_bytes"
      status := .ok
      executorId := executorId
      tokenPosition := 0
      seq := seq }
  return writeHeader h naive

/-- Descriptors and routes in place; the caller fills the hidden rows. -/
def encodeRequestMetaInto (capacity : ℕ) (requestId : UInt64) (layerId : UInt32)
    (executorId seq : UInt64) (routes : List (UInt32 × UInt32)) (topk : ℕ) (naive : WireNaive) :
    Except WireError InPlace := do
  ensure (topk ≠ 0 ∧ routes ≠ [] ∧ routes.length % topk = 0)
    (.dimMismatch "routes" topk routes.length)
  let rows := routes.length / topk
  let l ← bodyLayout rows routes.length capacity naive
  let rowList := decodeRows requestId rows topk
  let routeList := decodeRoutes routes rows topk
  validateRowsRoutes rowList routeList
  let header ← inPlaceHeader l requestId layerId executorId seq rows routes.length naive
  return { header := header
           written := rowList.flatMap (rowDescriptorWire · naive) ++
             routeList.flatMap (routeEntryWire · naive)
           routesOffset := l.rowDescriptorBytes
           hiddenOffset := l.rowDescriptorBytes + l.routeBytes
           bodyLen := l.bodyLen }

/-- Descriptors in place; the caller fills the routes and the hidden rows. -/
def encodeRequestDescInto (capacity : ℕ) (requestId : UInt64) (layerId : UInt32)
    (executorId seq : UInt64) (rows topkOf : ℕ) (naive : WireNaive) : Except WireError InPlace := do
  ensure (rows ≠ 0 ∧ topkOf ≠ 0 ∧ topkOf ≤ topk) (.dimMismatch "rows/topk" topk topkOf)
  let routes ← checkedMul rows topkOf "route_count"
  let l ← bodyLayout rows routes capacity naive
  let header ← inPlaceHeader l requestId layerId executorId seq rows routes naive
  return { header := header
           written := (decodeRows requestId rows topkOf).flatMap (rowDescriptorWire · naive)
           routesOffset := l.rowDescriptorBytes
           hiddenOffset := l.rowDescriptorBytes + l.routeBytes
           bodyLen := l.bodyLen }

/-- The header of a compact return of `rows` rows; the rows of the frame are ignored. -/
def returnHeaderSeq (frame : ReturnFrame) (rows : ℕ) (seq : UInt64) (naive : WireNaive) :
    Except WireError (List UInt8) := do
  ensure (rows ≠ 0) (.dimMismatch "rows" 1 0)
  ensure (frame.routeCount ≠ 0) (.dimMismatch "route_count" 1 0)
  ensure (!(naive.has WireNaive.perRouteReturn || naive.has WireNaive.fp32Return))
    (.dimMismatch "in_place_return_dtype" 0 1)
  let block := returnRowBytes frame.routeCount naive
  let payloadBytes ← checkedMul rows block "payload_bytes"
  let wireLen := headerLen + payloadBytes
  ensure (wireLen ≤ usizeMax) (.dimMismatch "wire_bytes" 0 usizeMax)
  let h : HeaderFields :=
    { kind := kindReturn
      requestId := frame.requestId
      placementVersion := frame.placementVersion
      layerId := frame.layerId
      rowCount := ← asU32 rows "row_count"
      dim := UInt32.ofNat hiddenDim
      dtype := .bf16
      sourceKind := .decode
      routeCount := ← asU32 frame.routeCount "route_count"
      rowDescriptorBytes := 0
      routeBytes := 0
      payloadBytes := UInt64.ofNat payloadBytes
      logicalPayloadBytes := UInt64.ofNat payloadBytes
      wireBytes := UInt64.ofNat wireLen
      flags := frame.flags
      rowStrideBytes := ← asU32 block "row_stride_bytes"
      status := frame.status
      executorId := frame.executorId
      tokenPosition := frame.tokenPosition
      seq := seq }
  return writeHeader h naive

/-- Write the checksum of a frame assembled in place, unless this process runs with checksums
off. -/
def sealInPlace (buf : List UInt8) (naive : WireNaive) (nocrc : Bool) : List UInt8 :=
  if nocrc then buf else Bytes.put buf Hdr.crc32c.off (le32 (computeCrc buf naive))

end Wire

end Mimo26

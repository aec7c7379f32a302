import Mathlib.Data.List.Basic

/-!
# The DS41RTE3 v3 wire layout

Field offsets, wire codes, row sizes and the error taxonomy of the frames the coordinator and the
Sparks exchange (`mimo26-wire`: `layout.rs`, `naive.rs`, `error.rs`).

A `WireNaive` bit selects one known-wrong implementation of the codec or of the L4 ladder. The
definitions keep those branches, as the source does; every result is about `WireNaive.none`, the
set both ends of a connection are built with.

## Main definitions

* `WireNaive` — the set of selected wrong implementations
* `Hdr`, `Desc`, `Route` — the field offsets
* `Dtype`, `SourceKind`, `Status` — enumerations with their wire codes
* `WireError`, `Disposition` — what can go wrong, and what the caller must do about it
-/

namespace Mimo26

namespace Wire

/-! ### Selected wrong implementations -/

/-- Bit flags selecting known-wrong wire implementations. -/
structure WireNaive where
  bits : UInt32
  deriving DecidableEq, Repr

namespace WireNaive

/-- The correct implementation. -/
def none : WireNaive := ⟨0⟩

def k16Scales : UInt32 := (1 : UInt32) <<< 0
def rowScaledDtype : UInt32 := (1 : UInt32) <<< 1
def fp32Return : UInt32 := (1 : UInt32) <<< 2
def perRouteReturn : UInt32 := (1 : UInt32) <<< 3
def routeFieldSwap : UInt32 := (1 : UInt32) <<< 4
def descFieldDrift : UInt32 := (1 : UInt32) <<< 5
def dtypeRecode : UInt32 := (1 : UInt32) <<< 6
def crc32Ieee : UInt32 := (1 : UInt32) <<< 7
def crcHeaderExempt : UInt32 := (1 : UInt32) <<< 8
def crcUnchecked : UInt32 := (1 : UInt32) <<< 9
def seqIgnored : UInt32 := (1 : UInt32) <<< 10
def dupDoubleCount : UInt32 := (1 : UInt32) <<< 11
def accumByArrival : UInt32 := (1 : UInt32) <<< 12
def bf16Truncate : UInt32 := (1 : UInt32) <<< 13
def rankSumByArrival : UInt32 := (1 : UInt32) <<< 14

def has (n : WireNaive) (bit : UInt32) : Bool := n.bits &&& bit != 0

@[simp] theorem has_none (bit : UInt32) : none.has bit = false := by simp [has, none]

end WireNaive

/-! ### Sizes -/

def magic : List UInt8 := [0x44, 0x53, 0x34, 0x31, 0x52, 0x54, 0x45, 0x33]
def version : UInt16 := 3
def kindRequest : UInt16 := 1
def kindReturn : UInt16 := 2

def headerLen : ℕ := 128
def rowDescriptorLen : ℕ := 40
def routeEntryLen : ℕ := 12
def hiddenDim : ℕ := 4096
def topk : ℕ := 8
/-- Ranks whose partials one token sums. -/
def sparks : ℕ := 4
def k32 : ℕ := 32
def k16 : ℕ := 16

def hiddenRowBytesCanonical : ℕ := hiddenDim + hiddenDim / k32
def requestRowBytesCanonical : ℕ :=
  rowDescriptorLen + hiddenRowBytesCanonical + topk * routeEntryLen
def returnRowBytesCanonical : ℕ := hiddenDim * 2

/-- Scale block width on the wire. -/
def scaleK (naive : WireNaive) : ℕ := if naive.has WireNaive.k16Scales then k16 else k32

/-- Hidden row bytes including the scale region. -/
def hiddenRowBytes (naive : WireNaive) : ℕ :=
  if naive.has WireNaive.rowScaledDtype then hiddenDim + 4
  else hiddenDim + hiddenDim / scaleK naive

/-- Request row bytes: descriptor, hidden row and top-8 route entries. -/
def requestRowBytes (naive : WireNaive) : ℕ :=
  rowDescriptorLen + hiddenRowBytes naive + topk * routeEntryLen

/-- Return row bytes per token per rank. -/
def returnRowBytes (routeCount : ℕ) (naive : WireNaive) : ℕ :=
  if naive.has WireNaive.perRouteReturn then routeCount * hiddenDim * 2
  else if naive.has WireNaive.fp32Return then hiddenDim * 4
  else returnRowBytesCanonical

/-! ### Field offsets -/

/-- Offsets of the 128-byte frame header. -/
inductive Hdr where
  | magic | version | kind | headerLen | requestId | placementVersion | layerId | rowCount | dim
  | payloadDtype | sourceKind | routeCount | rowDescriptorBytes | routeBytes | payloadBytes
  | logicalPayloadBytes | wireBytes | flags | rowStrideBytes | status | executorId
  | tokenPosition | seq | crc32c | reserved
  deriving DecidableEq, Repr

def Hdr.off : Hdr → ℕ
  | .magic => 0
  | .version => 8
  | .kind => 10
  | .headerLen => 12
  | .requestId => 16
  | .placementVersion => 24
  | .layerId => 32
  | .rowCount => 36
  | .dim => 40
  | .payloadDtype => 44
  | .sourceKind => 46
  | .routeCount => 48
  | .rowDescriptorBytes => 52
  | .routeBytes => 56
  | .payloadBytes => 60
  | .logicalPayloadBytes => 68
  | .wireBytes => 76
  | .flags => 84
  | .rowStrideBytes => 88
  | .status => 92
  | .executorId => 96
  | .tokenPosition => 104
  | .seq => 112
  | .crc32c => 120
  | .reserved => 124

/-- Offsets of the 40-byte row descriptor. -/
inductive Desc where
  | rowId | sourceKind | pad0 | sourceRequestId | tokenPosition | routeOffset | routeCount | pad1
  deriving DecidableEq, Repr

def Desc.off : Desc → ℕ
  | .rowId => 0
  | .sourceKind => 8
  | .pad0 => 10
  | .sourceRequestId => 12
  | .tokenPosition => 20
  | .routeOffset => 28
  | .routeCount => 32
  | .pad1 => 36

/-- Offsets of the 12-byte route entry. -/
inductive Route where
  | rowIndex | expertId | gateWeight
  deriving DecidableEq, Repr

def Route.off : Route → ℕ
  | .rowIndex => 0
  | .expertId => 4
  | .gateWeight => 8

/-! ### Errors -/

/-- Identity of one partial row in a coordinator sum window. -/
structure SlotKey where
  requestId : UInt64
  layerId : UInt32
  tokenPosition : UInt64
  executorId : UInt64
  deriving DecidableEq, Repr

/-- Errors of the codec and of the L4 ladder. -/
inductive WireError where
  | tooShort (need got : ℕ)
  | truncated (declared got : ℕ)
  | trailingBytes (declared got : ℕ)
  | badMagic (m : List UInt8)
  | badVersion (v : UInt16)
  | badKind (k : UInt16)
  | badHeaderLen (h : UInt32)
  | dimMismatch (field : String) (want got : ℕ)
  | badCode (field : String) (code : ℕ)
  | corrupt (seq : UInt64) (want got : UInt32)
  | duplicate (seq expected : UInt64)
  | outOfOrder (expected got : UInt64)
  | routeRowMismatch (entry : ℕ) (rowIndex rows : UInt32)
  | routeRangeBad (row : ℕ)
  | unpresummedReturn (flags : UInt32)
  | slotFilled (slot : SlotKey)
  | sparkReportedError (executorId : UInt64)
  | incomplete (filled need : ℕ)
  | retryExhausted (attempts : UInt32) (cause : WireError)
  | unknownRequest (requestId : UInt64)
  deriving DecidableEq, Repr

/-- What the caller must do about an error. -/
inductive Disposition where
  /-- Retransmit the expected frame; bounded retries then fail loud. -/
  | retry
  /-- Detected duplicate: drop without side effects, report it. -/
  | dropIdempotent
  /-- Stop: the stream or frame is not interpretable. -/
  | failLoud
  deriving DecidableEq, Repr

def WireError.disposition : WireError → Disposition
  | .tooShort .. | .truncated .. | .corrupt .. | .outOfOrder .. => .retry
  | .duplicate .. | .slotFilled .. => .dropIdempotent
  | _ => .failLoud

/-! ### Wire codes -/

/-- Payload dtypes. -/
inductive Dtype where
  | bf16 | f16 | fp8Debug | nvfp4E2m1Fp8E4m3 | fp8E4m3RowScaled | f32 | fp8E4m3Ue8m0K32
  deriving DecidableEq, Repr

def Dtype.raw : Dtype → UInt16
  | .bf16 => 1
  | .f16 => 2
  | .fp8Debug => 3
  | .nvfp4E2m1Fp8E4m3 => 4
  | .fp8E4m3RowScaled => 5
  | .f32 => 6
  | .fp8E4m3Ue8m0K32 => 7

def Dtype.code (d : Dtype) (naive : WireNaive) : UInt16 :=
  if naive.has WireNaive.dtypeRecode then d.raw + 100 else d.raw

def Dtype.fromCode (code : UInt16) (naive : WireNaive) : Except WireError Dtype :=
  let raw := if naive.has WireNaive.dtypeRecode then code - 100 else code
  if raw = 1 then .ok .bf16
  else if raw = 2 then .ok .f16
  else if raw = 3 then .ok .fp8Debug
  else if raw = 4 then .ok .nvfp4E2m1Fp8E4m3
  else if raw = 5 then .ok .fp8E4m3RowScaled
  else if raw = 6 then .ok .f32
  else if raw = 7 then .ok .fp8E4m3Ue8m0K32
  else .error (.badCode "payload_dtype" code.toNat)

@[simp] theorem Dtype.fromCode_code (d : Dtype) : Dtype.fromCode (d.code .none) .none = .ok d := by
  cases d <;> simp [fromCode, code, raw]

/-- Traffic classes of a row. -/
inductive SourceKind where
  | decode | prefill | mtpVerify | benchmark
  deriving DecidableEq, Repr

def SourceKind.code : SourceKind → UInt16
  | .decode => 1
  | .prefill => 2
  | .mtpVerify => 3
  | .benchmark => 4

def SourceKind.fromCode (code : UInt16) : Except WireError SourceKind :=
  if code = 1 then .ok .decode
  else if code = 2 then .ok .prefill
  else if code = 3 then .ok .mtpVerify
  else if code = 4 then .ok .benchmark
  else .error (.badCode "source_kind" code.toNat)

@[simp] theorem SourceKind.fromCode_code (k : SourceKind) : fromCode k.code = .ok k := by
  cases k <;> simp [fromCode, code]

/-- Frame status. -/
inductive Status where
  | ok | error
  deriving DecidableEq, Repr

def Status.code : Status → UInt32
  | .ok => 0
  | .error => 1

def Status.fromCode (code : UInt32) : Except WireError Status :=
  if code = 0 then .ok .ok
  else if code = 1 then .ok .error
  else .error (.badCode "status" code.toNat)

@[simp] theorem Status.fromCode_code (s : Status) : fromCode s.code = .ok s := by
  cases s <;> simp [fromCode, code]

end Wire

end Mimo26

import Mimo26.Library.Grid
import Mimo26.Wire.Frame

/-!
# The L4 ladder

The sequence discipline of a stream and the coordinator's sum of the Sparks' partials (`l4.rs`).
Floats are a type `F` with an uninterpreted addition, so a result that holds for every `F` holds
bit for bit.

`CoordinatorSum` keeps one buffer of partials per rank and adds the ranks in order once a token has
been answered by as many rows as there are ranks; it is complete when it has taken as many rows as
there are (token, rank) slots.

## Main definitions

* `StreamSender`, `StreamReceiver` — stamping and checking sequence numbers
* `CoordinatorSum`, `CoordinatorSum.accumulate`, `CoordinatorSum.result`
-/

namespace Mimo26

namespace Wire

/-! ### Streams -/

/-- Stamps increasing sequence numbers. -/
structure StreamSender where
  naive : WireNaive
  nextSeq : UInt64
  deriving DecidableEq, Repr

namespace StreamSender

def new (naive : WireNaive) : StreamSender := ⟨naive, 0⟩

/-- A sequence number is consumed whether or not the encoding succeeds. -/
def encodeRequest (s : StreamSender) (nocrc : Bool) (f : RequestFrame) :
    StreamSender × Except WireError (List UInt8) :=
  ({ s with nextSeq := s.nextSeq + 1 }, encodeRequestSeq f s.nextSeq s.naive nocrc)

def encodeReturn (s : StreamSender) (nocrc : Bool) (f : ReturnFrame) :
    StreamSender × Except WireError (List UInt8) :=
  ({ s with nextSeq := s.nextSeq + 1 }, encodeReturnSeq f s.nextSeq s.naive nocrc)

end StreamSender

/-- Checks sequence numbers. -/
structure StreamReceiver where
  naive : WireNaive
  expected : UInt64
  deriving DecidableEq, Repr

namespace StreamReceiver

def new (naive : WireNaive) : StreamReceiver := ⟨naive, 0⟩

/-- The sequence discipline alone. -/
def acceptSeq (s : StreamReceiver) (seq : UInt64) : StreamReceiver × Except WireError Unit :=
  if s.naive.has WireNaive.seqIgnored then (s, .ok ())
  else if seq = s.expected then ({ s with expected := s.expected + 1 }, .ok ())
  else if seq < s.expected then (s, .error (.duplicate seq s.expected))
  else (s, .error (.outOfOrder s.expected seq))

/-- Decode a frame and check its sequence number. -/
def accept (s : StreamReceiver) (nocrc : Bool) (bytes : List UInt8) :
    StreamReceiver × Except WireError Frame :=
  match decodeFrame bytes s.naive nocrc with
  | .error e => (s, .error e)
  | .ok f =>
    match s.acceptSeq f.seq with
    | (s', .ok ()) => (s', .ok f)
    | (s', .error e) => (s', .error e)

end StreamReceiver

/-! ### The coordinator's sum -/

/-- `f32` with its addition left uninterpreted. -/
class Fp32 (F : Type) where
  zero : F
  add : F → F → F
  ofBits : UInt32 → F

/-- Sums as they are written down, the free model of the addition: two of them agree only if they
agree for every `F`. -/
inductive FloatTerm where
  | zero
  | ofBits (bits : UInt32)
  | add (a b : FloatTerm)
  deriving DecidableEq, Repr

instance : Fp32 FloatTerm := ⟨.zero, .add, .ofBits⟩

/-- A BF16 code as an `f32`. -/
def widen {F : Type} [Fp32 F] (code : UInt16) : F := Fp32.ofBits (bf16ToF32 code)

/-- Accumulation of the Sparks' partials for `rows` tokens of `hidden` elements. -/
structure CoordinatorSum (F : Type) where
  naive : WireNaive
  rows : ℕ
  hidden : ℕ
  seen : List SlotKey
  distinct : ℕ
  acc : List F
  arrivals : ℕ
  /-- Per rank, `rows` lines of `hidden` cells. -/
  rankBuf : List F
  slotRankCount : List UInt8

namespace CoordinatorSum

variable {F : Type} [Fp32 F]

def new (rows hidden : ℕ) (naive : WireNaive) : CoordinatorSum F where
  naive := naive
  rows := rows
  hidden := hidden
  seen := []
  distinct := 0
  acc := List.replicate (rows * hidden) Fp32.zero
  arrivals := 0
  rankBuf := List.replicate (sparks * (rows * hidden)) Fp32.zero
  slotRankCount := List.replicate rows 0

def isComplete (s : CoordinatorSum F) : Bool := s.distinct == s.rows * sparks

/-- The line a row lands in; the trap goes by arrival. -/
def slotRow (s : CoordinatorSum F) (token : ℕ) : ℕ :=
  if s.naive.has WireNaive.accumByArrival then (s.arrivals / sparks) % s.rows else token

/-- Cell `i` of the line at `base`, summed over the ranks in order. -/
def sumRanks (rankBuf : List F) (plane base i : ℕ) : F :=
  (List.range sparks).foldl
    (fun sum rank => Fp32.add sum (rankBuf.getD (rank * plane + base + i) Fp32.zero)) Fp32.zero

/-- Take the row of `rank` for `token`, whose checks have passed. -/
def land (s : CoordinatorSum F) (key : SlotKey) (rank token : ℕ) (isDup : Bool)
    (codes : List UInt16) : CoordinatorSum F :=
  let slotRow := s.slotRow token
  let count := if isDup then s.slotRankCount else s.slotRankCount.modify slotRow (· + 1)
  let base := slotRow * s.hidden
  let plane := s.rows * s.hidden
  let vals : List F := codes.map widen
  let s := { s with
    arrivals := s.arrivals + 1
    seen := s.seen ++ [key]
    distinct := if isDup then s.distinct else s.distinct + 1
    slotRankCount := count }
  if s.naive.has WireNaive.rankSumByArrival then
    { s with acc := Grid.addSpan Fp32.add s.acc base vals }
  else
    let rankBuf := Grid.addSpan Fp32.add s.rankBuf (rank * plane + base) vals
    { s with
      rankBuf := rankBuf
      acc := if (count.getD slotRow 0).toNat = sparks then
          Grid.setSpan s.acc base s.hidden (sumRanks rankBuf plane base)
        else s.acc }

/-- Row `r` of a frame of `rank`. -/
def accumulateRow (s : CoordinatorSum F) (f : ReturnFrame) (rank r : ℕ) (row : ReturnRow) :
    Except WireError (CoordinatorSum F) := do
  let token := f.tokenPosition.toNat + r
  ensure (token ≤ usizeMax) (.dimMismatch "token_position" s.rows usizeMax)
  ensure (token < s.rows) (.dimMismatch "token_position" s.rows token)
  ensure (row.codes.length = s.hidden)
    (.dimMismatch "return_row_codes" s.hidden row.codes.length)
  let key : SlotKey := ⟨f.requestId, f.layerId, UInt64.ofNat token, f.executorId⟩
  let isDup : Bool := key ∈ s.seen
  ensure (!isDup || s.naive.has WireNaive.dupDoubleCount) (.slotFilled key)
  return s.land key rank token isDup row.codes

/-- The rows of a frame from index `r` on; the rows before an error stay landed. -/
def accumulateRows (f : ReturnFrame) (rank : ℕ) :
    CoordinatorSum F → ℕ → List ReturnRow → CoordinatorSum F × Except WireError Unit
  | s, _, [] => (s, .ok ())
  | s, r, row :: rows =>
    match s.accumulateRow f rank r row with
    | .ok s' => accumulateRows f rank s' (r + 1) rows
    | .error e => (s, .error e)

/-- Accumulate one accepted return frame. -/
def accumulate (s : CoordinatorSum F) (f : ReturnFrame) :
    CoordinatorSum F × Except WireError Unit :=
  if f.status ≠ .ok then (s, .error (.sparkReportedError f.executorId))
  else if sparks ≤ f.executorId.toNat then
    (s, .error (.dimMismatch "executor_id" sparks f.executorId.toNat))
  else accumulateRows f f.executorId.toNat s 0 f.rows

/-- The sum, once every slot is filled. -/
def result (s : CoordinatorSum F) : Except WireError (List F) :=
  let need := s.rows * sparks
  if s.distinct ≠ need then .error (.incomplete s.distinct need) else .ok s.acc

end CoordinatorSum

end Wire

end Mimo26

import Mimo26.Library.Fallible
import Mimo26.Wire.InPlace
import Mimo26.Wire.L4

/-!
# The coordinator's wire client

The four-Spark client (`wire.rs`): building and sending one MoE layer's requests, over TCP or from
the double-buffered RDMA body, and collecting the returns.

What the network and the devices decide is an argument: `Io` says, for one rank and one call, which
system calls fail and what arrives. A TCP stream is the bytes not read yet. An RDMA queue pair is
the list of posted sends not yet reaped, with the number of them the hardware has completed; the
contents of the body halves and of the receive ring are not part of the model.

## Main definitions

* `SparkConn`, `RdmaConn`, `WireClient` — connections and the client
* `claimHalf`, `postHalf`, `moeSendDevice`, `moeSendMapped`, `moeSendRaw` — sending
* `moeRecvRaw`, `exchange` — collecting
-/

namespace Mimo26

namespace Coordinator

open Wire Fallible

/-! ### State -/

/-- Why a client call fails. -/
inductive ClientError where
  /-- A system call failed. -/
  | io (text : String)
  /-- The codec or the ladder refused a frame. -/
  | wire (e : WireError)
  /-- A check of the client failed. -/
  | refused (text : String)
  deriving DecidableEq, Repr

/-- The RDMA side of a connection. -/
structure RdmaConn where
  /-- Body halves of the posted sends not yet reaped, oldest first. -/
  posted : List ℕ
  /-- How many of them, oldest first, the hardware has completed. -/
  completed : ℕ
  /-- Receive slots already read, re-posted before the next request. -/
  consumed : List ℕ
  /-- Slot and length of the last return. -/
  last : Option (ℕ × ℕ)
  /-- The client's own count of posted sends not yet reaped. -/
  sendsOut : ℕ
  deriving DecidableEq, Repr

/-- The posted sends the hardware has not completed: their halves are still being read. -/
def RdmaConn.pending (rc : RdmaConn) : List ℕ := rc.posted.drop rc.completed

/-- One Spark connection. -/
structure SparkConn where
  /-- Everything written to the stream. -/
  written : List UInt8
  /-- The bytes of the stream not read yet. -/
  incoming : List UInt8
  tx : StreamSender
  rx : StreamReceiver
  rank : ℕ
  buf : List UInt8
  rdma : Option RdmaConn
  deriving DecidableEq, Repr

/-- The four-Spark client. -/
structure WireClient where
  /-- Index is the executor id. -/
  conns : List SparkConn
  nextRequestId : UInt64
  /-- Whether the RDMA body is allocated. -/
  rdmaBody : Bool
  /-- Sent, not yet collected exchanges `(requestId, layerId, tokens)`, oldest first. -/
  inflight : List (UInt64 × UInt32 × ℕ)
  /-- The body half the next RDMA request is built in. -/
  sendHalf : ℕ
  deriving DecidableEq, Repr

/-- What the environment does to one rank during one call. -/
structure Io where
  /-- The stream write fails after this many bytes. -/
  write : Option ℕ := none
  /-- What arrives on the stream before it is read. -/
  arrived : List UInt8 := []
  /-- Setting up the blocking read fails. -/
  setup : Bool := false
  /-- The read of the header fails after this many bytes. -/
  header : Option ℕ := none
  /-- The read of the body fails after this many bytes. -/
  body : Option ℕ := none
  /-- The `n`-th last `wait_send` of a claim fails. -/
  waitSend : ℕ → Bool := fun _ => false
  /-- The `post_recv` of a slot fails. -/
  postRecv : ℕ → Bool := fun _ => false
  postSend : Bool := false
  /-- The receive completion: slot and frame, or a failure. -/
  waitRecv : Option (ℕ × List UInt8) := none

/-- A connection as `connect` makes it. -/
def SparkConn.connect (rank : ℕ) (rdma : Bool) : SparkConn where
  written := []
  incoming := []
  tx := .new .none
  rx := .new .none
  rank := rank
  buf := []
  rdma := if rdma then some ⟨[], 0, [], none, 0⟩ else none

/-- The client as `connect` makes it. -/
def WireClient.connect (rdma : Bool) : WireClient where
  conns := (List.range sparks).map fun rank => .connect rank rdma
  nextRequestId := 1
  rdmaBody := rdma
  inflight := []
  sendHalf := 0

abbrev Conn := EStateM ClientError SparkConn
abbrev Client := EStateM ClientError WireClient

/-- `for conn in conns.iter_mut() { body? }`, threading a local of the caller. -/
def forConns {τ : Type} (body : ℕ → EStateM ClientError (SparkConn × τ) Unit) (t : τ) :
    Client τ := fun c =>
  match each body 0 c.conns t with
  | .ok () (conns, t') => .ok t' { c with conns := conns }
  | .error e (conns, _) => .error e { c with conns := conns }

/-- A step of one connection, in a loop that threads a local. -/
def onConn {τ α : Type} (m : Conn α) : EStateM ClientError (SparkConn × τ) α := fun (conn, t) =>
  match m conn with
  | .ok a conn' => .ok a (conn', t)
  | .error e conn' => .error e (conn', t)

/-! ### RDMA sends -/

namespace RdmaConn

/-- The oldest posted send completes. -/
def complete (rc : RdmaConn) : RdmaConn :=
  { rc with completed := min (rc.completed + 1) rc.posted.length }

/-- `wait_send`: the completion of the oldest posted send is reaped, once it is there. -/
def waitSend (rc : RdmaConn) : RdmaConn :=
  { rc with posted := rc.posted.tail, completed := rc.completed - 1 }

/-- `n` rounds of `while sends_out >= 2`. -/
def reap (fail : ℕ → Bool) : ℕ → EStateM ClientError RdmaConn Unit
  | 0 => pure ()
  | n + 1 => do
    check (!fail n) (.io "rdma send completion")
    modify fun rc => { rc.waitSend with sendsOut := rc.sendsOut - 1 }
    reap fail n

/-- Re-post the consumed slots; the list is drained even when a post fails. -/
def repost (fail : ℕ → Bool) : EStateM ClientError RdmaConn Unit := do
  let rc ← get
  set { rc with consumed := [] }
  check (rc.consumed.all fun slot => !fail slot) (.io "ibv_post_recv")

end RdmaConn

/-- A step of the RDMA side of a connection. -/
def onRdma {α : Type} (m : EStateM ClientError RdmaConn α) : Conn α := fun conn =>
  match conn.rdma with
  | none => .error (.refused "rdma: connection not set up") conn
  | some rc =>
    match m rc with
    | .ok a rc' => .ok a { conn with rdma := some rc' }
    | .error e rc' => .error e { conn with rdma := some rc' }

/-- Take the next request half, first reaping every rank's send that still reads it. -/
def claimHalf (io : ℕ → Io) : Client ℕ := do
  let c ← get
  let half := c.sendHalf
  set { c with sendHalf := half ^^^ 1 }
  forConns (fun r => onConn (onRdma do
    let rc ← get
    RdmaConn.reap (io r).waitSend (rc.sendsOut - 1))) ()
  return half

/-- Post the request in body half `half` to every rank. -/
def postHalf (half : ℕ) (io : ℕ → Io) : Client Unit :=
  forConns (fun r => onConn do
    modify fun conn => { conn with tx := { conn.tx with nextSeq := conn.tx.nextSeq + 1 } }
    onRdma do
      RdmaConn.repost (io r).postRecv
      check (!(io r).postSend) (.io "ibv_post_send")
      modify fun rc =>
        { rc with posted := rc.posted ++ [half], sendsOut := rc.sendsOut + 1 }) ()

/-! ### Sends -/

/-- Largest request frame: 4,096 rows. -/
def reqMax : ℕ := headerLen + 4096 * requestRowBytesCanonical

/-- One half of the request body, page-rounded. -/
def reqHalf : ℕ := (reqMax + 4095) / 4096 * 4096

/-- The body of an encoded request fits one half. -/
@[irreducible] def fitsHalf (bytes : List UInt8) : Bool := bytes.length - headerLen ≤ reqHalf

/-- The wire errors of a step, as errors of the client. -/
def wireCall {σ α : Type} (r : Except WireError α) : EStateM ClientError σ α :=
  call (r.mapError .wire)

def WireClient.naive (c : WireClient) : WireNaive := (c.conns.head?.map (·.tx.naive)).getD .none

/-- The next request id. -/
def takeRequestId : Client UInt64 := do
  let c ← get
  set { c with nextRequestId := c.nextRequestId + 1 }
  return c.nextRequestId

/-- Device-filled RDMA send; `fill` says whether the caller's copy succeeds. -/
def moeSendDevice (layerId : UInt32) (tokens topk : ℕ) (fill : Bool) (io : ℕ → Io) :
    Client Unit := do
  let c ← get
  check c.rdmaBody (.refused "wire: moe_send_device needs the RDMA transport")
  check (c.inflight.length < 2) (.refused "wire: exchanges already in flight")
  let requestId ← takeRequestId
  let half ← claimHalf io
  let _ ← wireCall (encodeRequestDescInto reqHalf requestId layerId 0 0 tokens topk c.naive)
  check fill (.io "fill")
  postHalf half io
  modify fun c => { c with inflight := c.inflight ++ [(requestId, layerId, tokens)] }

/-- RDMA send with the hidden rows written in place by `fill`. -/
def moeSendMapped (layerId : UInt32) (routes : List (UInt32 × UInt32)) (topk : ℕ) (fill : Bool)
    (io : ℕ → Io) : Client Unit := do
  let c ← get
  check c.rdmaBody (.refused "wire: moe_send_mapped needs the RDMA transport")
  check (topk ≠ 0 ∧ routes ≠ [] ∧ routes.length % topk = 0)
    (.refused "wire: routes do not form whole rows")
  let tokens := routes.length / topk
  check (c.inflight.length < 2) (.refused "wire: exchanges already in flight")
  let requestId ← takeRequestId
  let half ← claimHalf io
  let frame ← wireCall (encodeRequestMetaInto reqHalf requestId layerId 0 0 routes topk c.naive)
  check (frame.hiddenOffset + tokens * hiddenRowBytesCanonical = frame.bodyLen)
    (.refused "wire: mapped frame layout")
  check fill (.io "fill")
  postHalf half io
  modify fun c => { c with inflight := c.inflight ++ [(requestId, layerId, tokens)] }

/-- The request of one layer, for rank `executorId`. -/
def layerRequest (requestId : UInt64) (layerId : UInt32) (tokens : ℕ) (hiddenRows : List HiddenRow)
    (routes : List (UInt32 × UInt32)) (topk : ℕ) (executorId : ℕ) : RequestFrame where
  requestId := requestId
  placementVersion := 1
  layerId := layerId
  executorId := UInt64.ofNat executorId
  sourceKind := .decode
  tokenPosition := 0
  flags := 0
  seq := 0
  rows := decodeRows requestId tokens topk
  routes := decodeRoutes routes tokens topk
  hiddenRows := hiddenRows

/-- Write bytes to the stream; a failing write has written a part of them. -/
def writeBlocking (bytes : List UInt8) (io : Io) : Conn Unit := do
  match io.write with
  | some k =>
    modify fun conn => { conn with written := conn.written ++ bytes.take k }
    throw (.io "spark write")
  | none => modify fun conn => { conn with written := conn.written ++ bytes }

/-- The connections of joined threads, or the first error; on an error they are lost. -/
def joinAll {α : Type} : List (EStateM.Result ClientError SparkConn α) →
    Except ClientError (List SparkConn)
  | [] => .ok []
  | .error e _ :: _ => .error e
  | .ok _ conn :: rs => (joinAll rs).map (conn :: ·)

/-- Write every rank its request: one thread per rank for more than one token, and then an error
drops every connection. -/
def writeRanks (tokens : ℕ) (encoded : List (List UInt8)) (io : ℕ → Io) : Client Unit := do
  if 1 < tokens then
    let c ← get
    let results := c.conns.mapIdx fun r conn => writeBlocking (encoded.getD r []) (io r) conn
    set { c with conns := [] }
    let conns ← call (joinAll results)
    modify fun c => { c with conns := conns }
  else
    forConns (fun r => onConn (writeBlocking (encoded.getD r []) (io r))) ()

/-- Build, encode and write one layer's requests to the ranks; gives the request id. -/
def sendLayer (layerId : UInt32) (tokens : ℕ) (hiddenRows : List HiddenRow)
    (routes : List (UInt32 × UInt32)) (topk : ℕ) (nocrc : Bool) (io : ℕ → Io) :
    Client UInt64 := do
  check (routes.length = tokens * topk) (.refused "wire: routes for tokens")
  let requestId ← takeRequestId
  let c ← get
  if c.rdmaBody then
    let frame := layerRequest requestId layerId tokens hiddenRows routes topk 0
    let bytes ← wireCall (encodeRequestSeq frame 0 c.naive nocrc)
    check (fitsHalf bytes) (.refused "rdma: request body exceeds the half")
    let half ← claimHalf io
    postHalf half io
    return requestId
  else
    let encoded ← forConns (τ := List (List UInt8)) (fun r (conn, encoded) =>
      let frame := layerRequest requestId layerId tokens hiddenRows routes topk r
      match conn.tx.encodeRequest nocrc frame with
      | (tx, .ok bytes) => .ok () ({ conn with tx := tx }, encoded ++ [bytes])
      | (tx, .error e) => .error (.wire e) ({ conn with tx := tx }, encoded)) []
    writeRanks tokens encoded io
    return requestId

/-- Quantized rows from their payload and scale planes. -/
def planeRows (payload scales : List UInt8) (tokens : ℕ) : List HiddenRow :=
  (List.range tokens).map fun t =>
    ⟨Bytes.slice payload (t * hiddenDim) hiddenDim,
      Bytes.slice scales (t * (hiddenDim / 32)) (hiddenDim / 32)⟩

/-- Send half of a raw exchange. -/
def moeSendRaw (layerId : UInt32) (payload scales : List UInt8) (routes : List (UInt32 × UInt32))
    (topk : ℕ) (nocrc : Bool) (io : ℕ → Io) : Client Unit := do
  let tokens := payload.length / hiddenDim
  check (payload.length = tokens * hiddenDim ∧ tokens ≠ 0 ∧
    scales.length = tokens * (hiddenDim / 32)) (.refused "wire: prequant payload")
  let c ← get
  let limit := if c.rdmaBody then 2 else 1
  check (c.inflight.length < limit) (.refused "wire: exchanges already in flight")
  let requestId ← sendLayer layerId tokens (planeRows payload scales tokens) routes topk nocrc io
  modify fun c => { c with inflight := c.inflight ++ [(requestId, layerId, tokens)] }

/-! ### Receives -/

/-- `read_exact` of `n` bytes; a failing read has consumed a part of them. -/
def readExact (n : ℕ) (fail : Option ℕ) (text : String) : Conn (List UInt8) := do
  let conn ← get
  match fail with
  | some k =>
    set { conn with incoming := conn.incoming.drop k }
    throw (.io text)
  | none =>
    if n ≤ conn.incoming.length then
      set { conn with incoming := conn.incoming.drop n }
      return conn.incoming.take n
    else
      set { conn with incoming := [] }
      throw (.io text)

/-- The sequence discipline, and with checksums on the whole frame check. -/
def acceptFrame (bytes : List UInt8) (nocrc : Bool) : Conn Frame := do
  let conn ← get
  let r := conn.rx.accept nocrc bytes
  set { conn with rx := r.1 }
  wireCall r.2

/-- Only a return is expected of a Spark. -/
def expectReturn : Frame → Conn ReturnFrame
  | .return f => pure f
  | .request _ => throw (.refused "wire: unexpected request frame from Spark")

/-- Read, decode and accept one return frame of whatever request. -/
def recvFrameBlocking (nocrc : Bool) (io : Io) : Conn ReturnFrame := do
  check (!io.setup) (.io "spark set_blocking")
  let header ← readExact headerLen io.header "spark read header"
  let wireBytes := Bytes.ofLe (Bytes.slice header Hdr.wireBytes.off 8)
  check (headerLen ≤ wireBytes) (.refused "wire: bad frame length")
  let body ← readExact (wireBytes - headerLen) io.body "spark read body"
  let f ← acceptFrame (header ++ body) nocrc
  expectReturn f

/-- A little-endian field of a header. -/
def headerField (h : List UInt8) (f : Hdr) (w : ℕ) : ℕ := Bytes.ofLe (Bytes.slice h f.off w)

/-- Check a return header against the request it must answer; gives its sequence number. -/
def validateReturnHeader (h : List UInt8) (rank : ℕ) (layerId : UInt32) (requestId : UInt64)
    (tokens : ℕ) : Except ClientError UInt64 :=
  let want := headerLen + tokens * returnRowBytesCanonical
  if headerField h .status 4 ≠ 0 then .error (.refused "wire: Spark reported an error")
  else if headerField h .kind 2 = kindReturn.toNat ∧
      headerField h .requestId 8 = requestId.toNat ∧ headerField h .layerId 4 = layerId.toNat ∧
      headerField h .rowCount 4 = tokens ∧
      headerField h .rowStrideBytes 4 = returnRowBytesCanonical ∧
      headerField h .payloadDtype 2 = Dtype.bf16.raw.toNat ∧ headerField h .executorId 8 = rank ∧
      headerField h .tokenPosition 8 = 0 ∧ headerField h .wireBytes 8 = want then
    .ok (UInt64.ofNat (headerField h .seq 8))
  else .error (.refused "wire: return header mismatch")

/-- The sequence discipline alone. -/
def acceptSeqOnly (seq : UInt64) : Conn Unit := do
  let conn ← get
  let r := conn.rx.acceptSeq seq
  set { conn with rx := r.1 }
  wireCall r.2

/-- Read one return into the receive buffer, checked against the request it must answer. -/
def recvRawBlocking (layerId : UInt32) (requestId : UInt64) (tokens : ℕ) (nocrc : Bool) (io : Io) :
    Conn Unit := do
  check (!io.setup) (.io "spark set_blocking")
  let conn ← get
  let header ← readExact headerLen io.header "spark read header"
  let seq ← call (validateReturnHeader header conn.rank layerId requestId tokens)
  let body ← readExact (tokens * returnRowBytesCanonical) io.body "spark read body"
  modify fun conn => { conn with buf := header ++ body }
  if nocrc then acceptSeqOnly seq
  else do
    let f ← acceptFrame (header ++ body) nocrc
    let _ ← expectReturn f

/-- Take the receive completion of a return and check its header. -/
def recvRdma (layerId : UInt32) (requestId : UInt64) (tokens : ℕ) (io : Io) : Conn Unit := do
  let conn ← get
  let seq ← onRdma do
    match io.waitRecv with
    | none => throw (.io "rdma: return timed out")
    | some (slot, frame) =>
      modify fun rc => { rc with consumed := rc.consumed ++ [slot] }
      check (headerLen ≤ frame.length) (.refused "rdma: short frame")
      let seq ← call (validateReturnHeader (frame.take headerLen) conn.rank layerId requestId
        tokens)
      check (frame.length = headerLen + tokens * returnRowBytesCanonical)
        (.refused "rdma: frame length")
      modify fun rc => { rc with last := some (slot, frame.length) }
      return seq
  acceptSeqOnly seq

/-- What arrives on the streams before they are read. -/
def deliver (io : ℕ → Io) : Client Unit :=
  modify fun c => { c with conns := c.conns.mapIdx fun r conn =>
    { conn with incoming := conn.incoming ++ (io r).arrived } }

/-- The first error of joined threads. -/
def firstError {α : Type} : List (EStateM.Result ClientError SparkConn α) → Except ClientError Unit
  | [] => .ok ()
  | .error e _ :: _ => .error e
  | .ok _ _ :: rs => firstError rs

/-- The state a thread leaves its connection in. -/
def leftConn {α : Type} : EStateM.Result ClientError SparkConn α → SparkConn
  | .ok _ conn => conn
  | .error _ conn => conn

/-- Receive every rank's return. -/
def recvRanks (layerId : UInt32) (requestId : UInt64) (tokens : ℕ) (nocrc : Bool) (io : ℕ → Io) :
    Client Unit := do
  let c ← get
  if c.rdmaBody then
    forConns (fun r => onConn (recvRdma layerId requestId tokens (io r))) ()
  else if 1 < tokens then
    -- every thread is joined before the first error is returned
    let results := c.conns.mapIdx fun r conn =>
      recvRawBlocking layerId requestId tokens nocrc (io r) conn
    set { c with conns := results.map leftConn }
    call (firstError results)
  else
    forConns (fun r => onConn (recvRawBlocking layerId requestId tokens nocrc (io r))) ()

/-- Collect the oldest raw exchange in flight. -/
def moeRecvRaw (nocrc : Bool) (io : ℕ → Io) : Client (UInt32 × ℕ) := do
  deliver io
  let c ← get
  match c.inflight with
  | [] => throw (.refused "wire: no exchange in flight")
  | (requestId, layerId, tokens) :: rest =>
    set { c with inflight := rest }
    recvRanks layerId requestId tokens nocrc io
    return (layerId, tokens)

/-! ### The host-sum exchange -/

variable {F : Type} [Fp32 F]

/-- Add one received return to the sum. -/
def addReturn (sum : CoordinatorSum F) (f : ReturnFrame) : Except ClientError (CoordinatorSum F) :=
  match sum.accumulate f with
  | (sum', .ok ()) => .ok sum'
  | (_, .error e) => .error (.wire e)

/-- The returns of joined threads, added in rank order; on an error every connection is lost. -/
def joinReturns (sum : CoordinatorSum F) : List (EStateM.Result ClientError SparkConn ReturnFrame) →
    Except ClientError (List SparkConn × CoordinatorSum F)
  | [] => .ok ([], sum)
  | .error e _ :: _ => .error e
  | .ok f conn :: rs => do
    let sum ← addReturn sum f
    let (conns, sum) ← joinReturns sum rs
    return (conn :: conns, sum)

/-- Receive every rank's return and add it, in rank order. -/
def sumRanks (tokens : ℕ) (nocrc : Bool) (io : ℕ → Io) : Client (CoordinatorSum F) := do
  if 1 < tokens then
    let c ← get
    let results := c.conns.mapIdx fun r conn => recvFrameBlocking nocrc (io r) conn
    set { c with conns := [] }
    let (conns, sum) ← call (joinReturns (.new tokens hiddenDim .none) results)
    modify fun c => { c with conns := conns }
    return sum
  else
    forConns (fun r (conn, sum) =>
      match recvFrameBlocking nocrc (io r) conn with
      | .error e conn => .error e (conn, sum)
      | .ok f conn =>
        match addReturn sum f with
        | .ok sum' => .ok () (conn, sum')
        | .error e => .error e (conn, sum)) (.new tokens hiddenDim .none)

/-- Send one layer and sum the ranks' returns. -/
def exchange (layerId : UInt32) (tokens : ℕ) (hiddenRows : List HiddenRow)
    (routes : List (UInt32 × UInt32)) (topk : ℕ) (nocrc : Bool) (io : ℕ → Io) :
    Client (List F) := do
  let c ← get
  check (!c.rdmaBody) (.refused "wire: the host-sum path does not run over RDMA")
  check c.inflight.isEmpty (.refused "wire: host-sum exchange while a raw exchange is in flight")
  let _ ← sendLayer layerId tokens hiddenRows routes topk nocrc io
  deliver io
  let sum : CoordinatorSum F ← sumRanks tokens nocrc io
  wireCall sum.result

end Coordinator

end Mimo26

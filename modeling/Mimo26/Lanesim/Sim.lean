import Mathlib.Algebra.Ring.Nat
import Mathlib.Data.List.Sort

/-!
# The lane simulator

`sim.rs` of `mimo26-lanesim`: the expert path against stub Sparks on a virtual clock. `submit` puts
the return frames of a layer into a queue by delivery time; `poll` and `collect` take them out, past
lanes that drop or duplicate frames, and sum a ticket's frames once all have come.

Floats are a type `F` with an uninterpreted addition. What a stub Spark returns, how long it streams
its slices and what becomes of each frame are parameters.

## Main definitions

* `LaneSim` — the simulator, with `submit`, `poll` and `collect`
-/

namespace Mimo26

namespace Lanesim

/-! ### Rows and frames -/

/-- A request row; `W` are the route weights. -/
structure RequestRow (F W : Type) where
  /-- Unique within one submit. -/
  token : ℕ
  hidden : List F
  /-- Expert ids and weights. -/
  routes : List (ℕ × W)

def rowDescriptorBytes : ℕ := 40
def routeEntryBytes : ℕ := 12

/-- A descriptor, the routes, and a byte for each hidden value with a scale for each 32. -/
def RequestRow.wireBytes {F W : Type} (r : RequestRow F W) : ℕ :=
  rowDescriptorBytes + r.routes.length * routeEntryBytes + r.hidden.length + r.hidden.length / 32

structure FrameSeq where
  rank : ℕ
  row : ℕ
  seq : ℕ
  deriving DecidableEq, Repr

/-- The derived order: rank, row, sequence number. -/
def FrameSeq.le (a b : FrameSeq) : Prop :=
  a.rank < b.rank ∨ a.rank = b.rank ∧ (a.row < b.row ∨ a.row = b.row ∧ a.seq ≤ b.seq)

instance : DecidableRel FrameSeq.le := fun a b => by
  unfold FrameSeq.le
  infer_instance

structure ReturnFrame (F : Type) where
  seq : FrameSeq
  partials : List F

/-! ### Configuration -/

structure ModelGeom where
  hidden : ℕ
  topK : ℕ
  moeLayers : ℕ
  sparkRanks : ℕ

def ModelGeom.returnBytesPerToken (g : ModelGeom) : ℕ := g.hidden * 2

/-- How `collect` treats a frame that is delivered twice. -/
inductive CollectMode where
  | dedupBySeq
  | naiveNoDedup
  deriving DecidableEq, Repr

structure LaneSimConfig where
  geom : ModelGeom
  /-- Whether the kernel efficiency lies in its band. -/
  kernelEfficiencyOk : Bool
  wireRttNs : ℕ
  linkBytesPerSec : ℕ
  lpddr5xBytesPerSec : ℕ
  quarterSliceBytes : ℕ
  /-- How long a Spark streams so many bytes. -/
  streamNs : ℕ → ℕ
  collectMode : CollectMode

inductive ConfigError where
  | kernelEfficiencyOutOfRange
  | nonPositive (what : String)
  | emptyRows
  | hiddenLen (expected got : ℕ)
  | routeCount (expected got : ℕ)
  | duplicateToken (token : ℕ)
  deriving DecidableEq, Repr

inductive SimError where
  | config (e : ConfigError)
  | unknownTicket (ticket : ℕ)
  | frameLost (seq : FrameSeq)
  | stalled (ticket : ℕ)
  deriving DecidableEq, Repr

def LaneSimConfig.validate (c : LaneSimConfig) : Except ConfigError Unit :=
  if ¬ c.kernelEfficiencyOk then .error .kernelEfficiencyOutOfRange
  else if c.linkBytesPerSec = 0 then .error (.nonPositive "link_bytes_per_sec")
  else if c.lpddr5xBytesPerSec = 0 then .error (.nonPositive "lpddr5x_bytes_per_sec")
  else if c.geom.hidden = 0 ∨ c.geom.moeLayers = 0 ∨ c.geom.sparkRanks = 0 then
    .error (.nonPositive "geom.hidden/moe_layers/spark_ranks")
  else .ok ()

/-- The stub Sparks: the hidden-sized partial that a rank returns for a row of a layer. -/
structure StubSparks (F W : Type) where
  preSum : ℕ → ℕ → RequestRow F W → List F
  length_preSum : ∀ rank layer row, (preSum rank layer row).length = row.hidden.length

/-! ### Lane faults -/

inductive Fate where
  | dropped
  | delivered
  | duplicated
  deriving DecidableEq, Repr

def Fate.copies : Fate → ℕ
  | .dropped => 0
  | .delivered => 1
  | .duplicated => 2

/-- The lanes: what becomes of the frames in turn, and the counters. -/
structure LaneFaults where
  fate : ℕ → Fate
  sent : ℕ
  delivered : ℕ
  dropped : ℕ
  duplicated : ℕ
  combineRecords : ℕ

/-- The copies of a frame that arrive. -/
def LaneFaults.dispatch {α : Type} (l : LaneFaults) (payload : α) : LaneFaults × List α :=
  let fate := l.fate l.sent
  ({ l with
      sent := l.sent + 1
      delivered := l.delivered + if fate = .dropped then 0 else 1
      dropped := l.dropped + if fate = .dropped then 1 else 0
      duplicated := l.duplicated + if fate = .duplicated then 1 else 0 },
    List.replicate fate.copies payload)

def LaneFaults.combine (l : LaneFaults) (n : ℕ) : LaneFaults :=
  { l with combineRecords := l.combineRecords + n }

/-! ### The simulator -/

structure LayerAcct where
  computeNs : ℕ
  rttNs : ℕ
  serNs : ℕ
  streamBytesPerRank : ℕ
  uniqueExperts : ℕ
  deriving DecidableEq, Repr

structure StepResult (F : Type) where
  ticket : ℕ
  layer : ℕ
  /-- For each row the sum of the ranks' partials. -/
  combined : List (List F)
  framesReceived : ℕ
  duplicatesIgnored : ℕ
  finishedNs : ℕ
  acct : LayerAcct

/-- A frame that is delivered to a ticket. -/
structure Event (F : Type) where
  ticket : ℕ
  frame : ReturnFrame F

structure TicketState (F : Type) where
  layer : ℕ
  rowCount : ℕ
  expected : List FrameSeq
  /-- In the order of arrival. -/
  received : List (ReturnFrame F)
  receivedSeqs : List FrameSeq
  lost : List FrameSeq
  acct : LayerAcct
  finishedNs : ℕ

structure LaneSim (F : Type) where
  config : LaneSimConfig
  faults : LaneFaults
  clockNs : ℕ
  /-- By delivery time and event key. -/
  queue : List ((ℕ × ℕ) × Event F)
  nextEventKey : ℕ
  nextTicket : ℕ
  nextSeq : ℕ
  rankFreeAtNs : List ℕ
  tickets : ℕ → Option (TicketState F)

/-- `BTreeSet::insert`. -/
def insertSeq (a : FrameSeq) (l : List FrameSeq) : List FrameSeq := if a ∈ l then l else a :: l

/-- Whole nanoseconds, rounded up. -/
def ceilNs (bytes bytesPerSec : ℕ) : ℕ := (bytes * 1000000000 + bytesPerSec - 1) / bytesPerSec

variable {F W : Type}

/-- What a ticket notes of the copies of a frame that arrive. -/
def TicketState.take (state : TicketState F) (seq : FrameSeq) (copies : List (ReturnFrame F)) :
    TicketState F :=
  if copies.isEmpty then { state with lost := insertSeq seq state.lost }
  else
    { state with
      receivedSeqs := copies.foldl (fun l c => insertSeq c.seq l) state.receivedSeqs
      received := state.received ++ copies }

/-- Adds a frame's partial to the line of its row. -/
def addFrame [Add F] (combined : List (List F)) (f : ReturnFrame F) : List (List F) :=
  combined.modify f.seq.row fun line => line.zipWith (· + ·) f.partials

/-- The frames that are summed, of frames sorted by their keys. -/
def counted (mode : CollectMode) : List FrameSeq → List (ReturnFrame F) → List (ReturnFrame F)
  | _, [] => []
  | seen, f :: frames =>
    match mode with
    | .naiveNoDedup => f :: counted mode seen frames
    | .dedupBySeq =>
      if f.seq ∈ seen then counted mode seen frames
      else f :: counted mode (f.seq :: seen) frames

/-- The result of a ticket whose frames have come. -/
def TicketState.result [Add F] [Zero F] (state : TicketState F) (mode : CollectMode) (ticket : ℕ) :
    StepResult F :=
  let dim := (state.received.head?.map fun f => f.partials.length).getD 0
  let frames := state.received.mergeSort fun a b => decide (a.seq.le b.seq)
  let summed := counted mode [] frames
  { ticket
    layer := state.layer
    combined := summed.foldl addFrame (List.replicate state.rowCount (List.replicate dim 0))
    framesReceived := state.receivedSeqs.length
    duplicatesIgnored := frames.length - summed.length
    finishedNs := state.finishedNs
    acct := state.acct }

namespace LaneSim

def new (config : LaneSimConfig) (faults : LaneFaults) : Except ConfigError (LaneSim F) :=
  config.validate.map fun _ =>
    { config, faults
      clockNs := 0
      queue := []
      nextEventKey := 0
      nextTicket := 0
      nextSeq := 0
      rankFreeAtNs := List.replicate config.geom.sparkRanks 0
      tickets := fun _ => none }

/-- The stub Sparks are counted as `u16`. -/
def sparks (s : LaneSim F) : ℕ := s.config.geom.sparkRanks % 2 ^ 16

/-- The checks of `submit` on its rows, after the tokens of the rows before. -/
def checkRows (g : ModelGeom) : List ℕ → List (RequestRow F W) → Except ConfigError Unit
  | _, [] => .ok ()
  | tokens, r :: rows =>
    if r.hidden.length ≠ g.hidden then .error (.hiddenLen g.hidden r.hidden.length)
    else if r.routes.length ≠ g.topK then .error (.routeCount g.topK r.routes.length)
    else if r.token ∈ tokens then .error (.duplicateToken r.token)
    else checkRows g (r.token :: tokens) rows

/-- The locals of the loop of `submit` over the ranks. -/
structure Sending (F : Type) where
  rankFreeAtNs : List ℕ
  finishedNs : ℕ
  expected : List FrameSeq
  queue : List ((ℕ × ℕ) × Event F)
  nextEventKey : ℕ
  nextSeq : ℕ

/-- `BTreeMap::insert` of a new key. -/
def enqueue (x : (ℕ × ℕ) × Event F) (q : List ((ℕ × ℕ) × Event F)) : List ((ℕ × ℕ) × Event F) :=
  q.orderedInsert (fun a b => a.1.1 < b.1.1 ∨ a.1.1 = b.1.1 ∧ a.1.2 ≤ b.1.2) x

/-- Puts the frame of a row into the queue. -/
def sendFrame (ticket rank deliver : ℕ) (x : Sending F) (p : List F × ℕ) : Sending F :=
  let seq : FrameSeq := ⟨rank, p.2, x.nextSeq⟩
  { x with
    expected := insertSeq seq x.expected
    queue := enqueue ((deliver, x.nextEventKey), ⟨ticket, seq, p.1⟩) x.queue
    nextEventKey := x.nextEventKey + 1
    nextSeq := x.nextSeq + 1 }

/-- The frames of a rank: it streams after its earlier work, and returns a frame for each row. -/
def sendRank (stubs : StubSparks F W) (c : LaneSimConfig) (now ticket layer : ℕ)
    (rows : List (RequestRow F W)) (reqSer retSer computeNs : ℕ) (x : Sending F) (rank : ℕ) :
    Sending F :=
  let halfRtt := c.wireRttNs / 2
  let arrive := now + halfRtt + reqSer
  let start := max arrive (x.rankFreeAtNs.getD rank 0)
  let finish := start + computeNs
  let deliver := finish + halfRtt + retSer
  let partials := rows.map (stubs.preSum rank layer)
  partials.zipIdx.foldl (sendFrame ticket rank deliver)
    { x with
      rankFreeAtNs := x.rankFreeAtNs.set rank finish
      finishedNs := max x.finishedNs deliver }

/-- Queues a layer's rows on the Sparks. -/
def submit (stubs : StubSparks F W) (s : LaneSim F) (layer : ℕ) (rows : List (RequestRow F W)) :
    LaneSim F × Except SimError ℕ :=
  if rows = [] then (s, .error (.config .emptyRows))
  else
    match checkRows s.config.geom [] rows with
    | .error e => (s, .error (.config e))
    | .ok _ =>
      let g := s.config.geom
      let experts := (rows.flatMap fun r => r.routes.map Prod.fst).dedup
      let ticket := s.nextTicket
      let reqSer := ceilNs (rows.map RequestRow.wireBytes).sum s.config.linkBytesPerSec
      let retSer := ceilNs (rows.length * g.returnBytesPerToken) s.config.linkBytesPerSec
      let streamBytesPerRank := experts.length * s.config.quarterSliceBytes
      let computeNs := s.config.streamNs streamBytesPerRank
      let sent := (List.range s.sparks).foldl
        (sendRank stubs s.config s.clockNs ticket layer rows reqSer retSer computeNs)
        ⟨s.rankFreeAtNs, 0, [], s.queue, s.nextEventKey, s.nextSeq⟩
      let acct : LayerAcct :=
        { computeNs
          rttNs := s.config.wireRttNs
          serNs := reqSer + retSer
          streamBytesPerRank
          uniqueExperts := experts.length }
      let state : TicketState F :=
        { layer, acct
          rowCount := rows.length
          expected := sent.expected
          received := []
          receivedSeqs := []
          lost := []
          finishedNs := sent.finishedNs }
      ({ s with
          nextTicket := s.nextTicket + 1
          rankFreeAtNs := sent.rankFreeAtNs
          queue := sent.queue
          nextEventKey := sent.nextEventKey
          nextSeq := sent.nextSeq
          tickets := Function.update s.tickets ticket (some state) },
        .ok ticket)

/-- Delivers the next frame of the queue; whether there was one. -/
def advanceOneEvent (s : LaneSim F) : LaneSim F × Except SimError Bool :=
  match s.queue with
  | [] => (s, .ok false)
  | ((t, _), event) :: queue =>
    let sent := s.faults.dispatch event.frame
    let faults := if sent.2.isEmpty then sent.1 else sent.1.combine sent.2.length
    let s := { s with queue, faults, clockNs := max s.clockNs t }
    match s.tickets event.ticket with
    | none => (s, .error (.unknownTicket event.ticket))
    | some state =>
      ({ s with
          tickets := Function.update s.tickets event.ticket
            (some (state.take event.frame.seq sent.2)) },
        .ok true)

/-- The ticket's result if all its frames have come, which closes it; so does a lost frame. -/
def tryFinish [Add F] [Zero F] (s : LaneSim F) (ticket : ℕ) :
    LaneSim F × Except SimError (Option (StepResult F)) :=
  match s.tickets ticket with
  | none => (s, .error (.unknownTicket ticket))
  | some state =>
    let closed := { s with tickets := Function.update s.tickets ticket none }
    match (state.lost.mergeSort fun a b => decide (a.le b)).head? with
    | some lost => (closed, .error (.frameLost lost))
    | none =>
      if state.expected.length ≤ state.receivedSeqs.length then
        (closed, .ok (some (state.result s.config.collectMode ticket)))
      else (s, .ok none)

/-- Advances the clock by at most one event. -/
def poll [Add F] [Zero F] (s : LaneSim F) (ticket : ℕ) :
    LaneSim F × Except SimError (Option (StepResult F)) :=
  match s.tickets ticket with
  | none => (s, .error (.unknownTicket ticket))
  | some _ =>
    match s.tryFinish ticket with
    | (s, .ok none) =>
      match s.advanceOneEvent with
      | (s, .error e) => (s, .error e)
      | (s, .ok _) => s.tryFinish ticket
    | done => done

/-- The loop of `collect`; a turn that does not end it takes an event from the queue. -/
def collectLoop [Add F] [Zero F] (ticket : ℕ) : ℕ → LaneSim F →
    LaneSim F × Except SimError (StepResult F)
  | 0, s => (s, .error (.stalled ticket))
  | fuel + 1, s =>
    match s.tryFinish ticket with
    | (s, .error e) => (s, .error e)
    | (s, .ok (some result)) => (s, .ok result)
    | (s, .ok none) =>
      match s.advanceOneEvent with
      | (s, .error e) => (s, .error e)
      | (s, .ok false) => (s, .error (.stalled ticket))
      | (s, .ok true) => collectLoop ticket fuel s

/-- Advances the clock until the ticket is ready. -/
def collect [Add F] [Zero F] (s : LaneSim F) (ticket : ℕ) :
    LaneSim F × Except SimError (StepResult F) :=
  match s.tickets ticket with
  | none => (s, .error (.unknownTicket ticket))
  | some _ => collectLoop ticket (s.queue.length + 1) s

end LaneSim

end Lanesim

end Mimo26

import Mimo26.Coordinator.WireClientRules
import Mimo26.Library.Runs

/-!
# Steps over one client

The layer loop of a prefill, a decode step or a verify step (`dforward.rs`): one or two lanes, whose
exchanges with the Sparks are sent by `ffn_start` and collected at the lane's next layer by
`moe_finish`, oldest first. The queue of exchanges in flight belongs to the client, which outlives
the step: a step that fails leaves there what it has not collected, and the next step collects that
instead of its own.

The kernels are functions of a `Model`, and a rank's return planes are its answer to the request it
answers. What fails is up to the step's `Env`. Which exchange a collection takes is recorded beside
the state: nothing the loop does reads it.

## Main definitions

* `Model`, `LaneState`, `Env` — kernels and answers; the state of a step; what fails
* `ffnStart`, `moeFinish`, `layerLane`, `runGroup`, `runStep` — the loop
* `serialStep` — the same step with every exchange answered at once
* `Exact` — every collection takes the step's own exchange, and a result is the serial one
* `Abandons` — the step fails while an exchange of another of its lanes is in flight

## Main results

* `Mid.layerLane`, `Mid.lastLane` — one lane of one layer keeps the lanes in step with the serial
  run
* `exact_along` — a run in which no step abandons an exchange is exact throughout
* `not_exact_abandoned` — after an abandoned exchange a step takes the older step's planes
-/

namespace Mimo26

namespace Coordinator

namespace LaneSteps

open Wire Fallible Runs

/-! ### Kernels -/

/-- A quantized MoE request: the routes, and the payload and scale planes of the rows. -/
structure LayerRequest where
  routes : List (UInt32 × UInt32)
  payload : List UInt8
  scales : List UInt8
  deriving DecidableEq, Repr

/-- What the device and the Sparks compute: `H` is the residual stream of a lane, `K` the caches of
a step, `P` a return plane. -/
structure Model (H K P : Type) where
  layers : ℕ
  isMoe : ℕ → Bool
  topk : ℕ
  /-- Norms, attention and residual of a layer for a lane. -/
  attn : ℕ → ℕ → K → H → K × H
  dense : ℕ → H → H
  /-- Router and quantization. -/
  request : ℕ → H → LayerRequest
  /-- A rank's planes for a layer's request. -/
  answer : ℕ → ℕ → LayerRequest → P
  addPlanes : H → (ℕ → P) → H
  /-- Requests of this many rows are filled by the device. -/
  deviceFill : ℕ → Bool

/-! ### State -/

/-- Where a step stands: the group, its number of lanes, the layer and the lane. The last
collections of a group are at layer `layers`. -/
structure Place where
  group : ℕ
  lanes : ℕ
  layer : ℕ
  lane : ℕ
  deriving DecidableEq, Repr

/-- An exchange: the step that sent it, and where. -/
abbrev Tag := ℕ × Place

inductive DeviceCall where
  | attn
  | dense
  | router
  | download
  | fill
  | planes
  | capture
  deriving DecidableEq, Repr

/-- What fails during a step, and what the ranks do. -/
structure Env where
  start : ℕ → Bool
  dev : Place → DeviceCall → Bool
  tail : Bool
  send : Place → ℕ → Io
  recv : Place → ℕ → Io
  nocrc : Bool

/-- The state of a step. -/
structure LaneState (H K : Type) where
  client : WireClient
  kv : K
  h : ℕ → H
  pending : ℕ → Bool
  /-- Where the step stands. -/
  place : Place
  /-- Whose the exchanges in flight are, and their requests, oldest first. -/
  flight : List (Tag × LayerRequest)
  /-- For every collection, the lane's own exchange and the one taken. -/
  collected : List (Tag × Tag)

variable {H K P : Type}

abbrev Lanes (H K : Type) := EStateM ClientError (LaneState H K)

/-- A call of the client. -/
def onClient {α : Type} (m : Client α) : Lanes H K α := fun s =>
  match m s.client with
  | .ok a c => .ok a { s with client := c }
  | .error e c => .error e { s with client := c }

/-- A device call that may fail. -/
def device (env : Env) (p : Place) (c : DeviceCall) : Lanes H K Unit :=
  check (!env.dev p c) (.io "cuda")

/-! ### The layer loop -/

/-- Send a lane's exchange: filled by the device, copied into the mapped frame, or written to the
streams. -/
def sendLane (M : Model H K P) (env : Env) (p : Place) (t : ℕ) (req : LayerRequest) :
    Lanes H K Unit := do
  let s ← get
  let layerId := UInt32.ofNat p.layer
  if s.client.rdmaBody && M.deviceFill t then
    onClient (moeSendDevice layerId t M.topk (!env.dev p .fill) (env.send p))
  else
    device env p .download
    if s.client.rdmaBody then
      onClient (moeSendMapped layerId req.routes M.topk (!env.dev p .fill) (env.send p))
    else
      onClient (moeSendRaw layerId req.payload req.scales req.routes M.topk env.nocrc (env.send p))

/-- The post-attention half of a layer: a dense layer is done now, a MoE layer is sent. -/
def ffnStart (M : Model H K P) (env : Env) (step : ℕ) (p : Place) (t : ℕ) : Lanes H K Bool := do
  let s ← get
  if !M.isMoe p.layer then
    device env p .dense
    modify fun s => { s with h := Function.update s.h p.lane (M.dense p.layer (s.h p.lane)) }
    return false
  else
    device env p .router
    let req := M.request p.layer (s.h p.lane)
    sendLane M env p t req
    modify fun s => { s with flight := s.flight ++ [((step, p), req)] }
    return true

/-- Collect the oldest exchange in flight, for a lane. -/
def moeFinish (M : Model H K P) (env : Env) (step : ℕ) (p : Place) (t : ℕ) :
    Lanes H K Unit := do
  let s ← get
  set { s with flight := s.flight.tail }
  let (_, n) ← onClient (moeRecvRaw env.nocrc (env.recv p))
  check (n = t) (.refused "moe_finish: rows")
  let s' ← get
  -- `rank_plane` indexes every rank's connection.
  check (s'.client.conns.length = sparks) (.refused "rank_plane")
  device env p .planes
  match s.flight with
  | [] => throw (.refused "wire: no exchange in flight")
  | (tag, req) :: _ =>
    modify fun s =>
      { s with
        h := Function.update s.h p.lane
          (M.addPlanes (s.h p.lane) fun rank => M.answer rank tag.2.layer req)
        collected := s.collected ++ [((step, { p with layer := p.layer - 1 }), tag)] }

/-- What a lane does first at a place: it collects the exchange it waits for. The layer loop takes
the lane's flag, the last collections leave it. -/
def settle (M : Model H K P) (env : Env) (step : ℕ) (p : Place) (t : ℕ) (take : Bool) :
    Lanes H K Unit := do
  modify fun s => { s with place := p }
  let s ← get
  if s.pending p.lane then
    modify fun s =>
      if take then { s with pending := Function.update s.pending p.lane false } else s
    moeFinish M env step p t
    device env p .capture

/-- One lane of one layer. -/
def layerLane (M : Model H K P) (env : Env) (step : ℕ) (p : Place) (t : ℕ) : Lanes H K Unit := do
  settle M env step p t true
  device env p .attn
  modify fun s =>
    let (kv, h) := M.attn p.layer p.lane s.kv (s.h p.lane)
    { s with kv := kv, h := Function.update s.h p.lane h }
  let sent ← ffnStart M env step p t
  modify fun s => { s with pending := Function.update s.pending p.lane sent }
  if !sent then device env p .capture

/-- Collect a lane's last exchange. -/
def lastLane (M : Model H K P) (env : Env) (step : ℕ) (p : Place) (t : ℕ) : Lanes H K Unit :=
  settle M env step p t false

/-- A group: the rows of each lane, and the residual streams it starts from. -/
structure Group (H : Type) where
  lanes : List ℕ
  h : ℕ → H

/-- Run a group of lanes through every layer. -/
def runGroup (M : Model H K P) (env : Env) (step g : ℕ) (group : Group H) : Lanes H K Unit := do
  let n := group.lanes.length
  modify fun s => { s with place := ⟨g, n, 0, 0⟩ }
  check (!env.start g) (.io "upload")
  modify fun s => { s with h := group.h, pending := fun _ => false }
  (List.range M.layers).forM fun layer =>
    group.lanes.zipIdx.forM fun x => layerLane M env step ⟨g, n, layer, x.2⟩ x.1
  group.lanes.zipIdx.forM fun x => lastLane M env step ⟨g, n, M.layers, x.2⟩ x.1

/-- A step: the groups of a prefill, or the one of a decode or verify step, and the caches. -/
structure Step (H K : Type) where
  groups : List (Group H)
  kv : K
  h : ℕ → H
  env : Env

/-- Run the groups, stopping at the first that fails. -/
def runGroups (M : Model H K P) (step : ℕ) (e : Step H K) : Lanes H K Unit := do
  e.groups.zipIdx.forM fun x => runGroup M e.env step x.2 x.1
  check (!e.env.tail) (.io "lm_head")

/-! ### Runs -/

/-- What outlives a step: the client, with the exchanges in flight, and the number of steps. -/
structure Served where
  client : WireClient
  flight : List (Tag × LayerRequest)
  steps : ℕ

/-- A client with no history. -/
def Served.connect (rdma : Bool) : Served := ⟨.connect rdma, [], 0⟩

/-- The state a step starts in. -/
def Served.start (s : Served) (e : Step H K) : LaneState H K where
  client := s.client
  kv := e.kv
  h := e.h
  pending := fun _ => false
  place := ⟨0, 0, 0, 0⟩
  flight := s.flight
  collected := []

/-- A step from a client with a history. -/
def runStep (M : Model H K P) (s : Served) (e : Step H K) :
    EStateM.Result ClientError (LaneState H K) Unit :=
  runGroups M s.steps e (s.start e)

/-- The state a result carries. -/
def final : EStateM.Result ClientError (LaneState H K) Unit → LaneState H K
  | .ok _ s => s
  | .error _ s => s

/-- The client goes on, whether or not the step failed. -/
def serveStep (M : Model H K P) (s : Served) (e : Step H K) : Served :=
  let s' := final (runStep M s e)
  ⟨s'.client, s'.flight, s.steps + 1⟩

/-! ### The promise -/

/-- One lane of one layer, its exchange answered at once. -/
def serialLane (M : Model H K P) (layer lane : ℕ) (x : K × (ℕ → H)) : K × (ℕ → H) :=
  let (kv, h) := M.attn layer lane x.1 (x.2 lane)
  let h' :=
    if M.isMoe layer then M.addPlanes h fun rank => M.answer rank layer (M.request layer h)
    else M.dense layer h
  (kv, Function.update x.2 lane h')

/-- A group, every exchange answered at once. -/
def serialGroup (M : Model H K P) (kv : K) (group : Group H) : K × (ℕ → H) :=
  (List.range M.layers).foldl
    (fun x layer =>
      (List.range group.lanes.length).foldl (fun x lane => serialLane M layer lane x) x)
    (kv, group.h)

/-- The result of a step, every exchange answered at once: no client, no history. -/
def serialStep (M : Model H K P) (e : Step H K) : K × (ℕ → H) :=
  e.groups.foldl (fun x group => serialGroup M x.1 group) (e.kv, e.h)

/-- Every collection of the step took the exchange the step sent for its lane and layer, and when
nothing failed the result is that of a client with no history. -/
def Exact (M : Model H K P) (s : Served) (e : Step H K) : Prop :=
  (∀ x ∈ (final (runStep M s e)).collected, x.2 = x.1) ∧
    ∀ s', runStep M s e = .ok () s' → (s'.kv, s'.h) = serialStep M e

/-- At this place an exchange of another lane is in flight: of the last layer for a later lane, or
of this layer for an earlier one. -/
def Exposed (M : Model H K P) (p : Place) : Prop :=
  (0 < p.layer ∧ M.isMoe (p.layer - 1) = true ∧ p.lane + 1 < p.lanes) ∨
    (p.layer < M.layers ∧ M.isMoe p.layer = true ∧ 0 < p.lane)

/-- The step fails at a place where an exchange of another of its lanes is in flight. -/
def Abandons (M : Model H K P) (s : Served) (e : Step H K) : Prop :=
  ∃ err s', runStep M s e = .error err s' ∧ Exposed M s'.place

/-! ### The queue of the client -/

/-- `k` exchanges are in flight. -/
def InFlight (k : ℕ) (c : WireClient) : Prop := c.inflight.length = k

variable {k : ℕ}

/-- The call leaves the queue alone. -/
def Keeps {α : Type} (m : Client α) : Prop :=
  ∀ k, Triple (InFlight k) m (fun _ => InFlight k) (InFlight k)

theorem Keeps.bind {α β : Type} {m : Client α} {f : α → Client β} (hm : Keeps m)
    (hf : ∀ a, Keeps (f a)) : Keeps (m >>= f) := fun k => .bind (hm k) fun a => hf a k

theorem Keeps.pure {α : Type} (a : α) : Keeps (pure a) := fun _ => .pure fun _ h => h

theorem Keeps.get : Keeps get := fun _ => .get fun _ h => h

theorem Keeps.check {b : Bool} {e : ClientError} : Keeps (check b e) := fun _ =>
  .check (fun _ _ h => h) fun _ _ h => h

theorem Keeps.call {α : Type} {r : Except ClientError α} : Keeps (call r) := fun _ =>
  .call (fun _ _ _ h => h) fun _ _ _ h => h

theorem Keeps.wireCall {α : Type} {r : Except WireError α} : Keeps (wireCall r) := Keeps.call

theorem Keeps.ite {α : Type} {p : Prop} [Decidable p] {m m' : Client α} (hm : Keeps m)
    (hm' : Keeps m') : Keeps (if p then m else m') := fun k => .ite (fun _ => hm k) fun _ => hm' k

theorem keeps_forConns {τ : Type} (body : ℕ → EStateM ClientError (SparkConn × τ) Unit) (t : τ) :
    Keeps (forConns body t) := by
  intro k c hc
  rw [forConns]
  cases each body 0 c.conns t with
  | ok u x => exact hc
  | error e x => exact hc

theorem keeps_takeRequestId : Keeps takeRequestId := by
  intro k
  refine .get_bind fun c hc => .bind (Q := fun _ => InFlight k) (.set fun _ _ => hc) fun _ =>
    .pure fun _ h => h

theorem keeps_claimHalf (io : ℕ → Io) : Keeps (claimHalf io) := by
  intro k
  refine .get_bind fun c hc => .bind (Q := fun _ => InFlight k) (.set fun _ _ => hc) fun _ => ?_
  exact .bind (keeps_forConns _ _ k) fun _ => .pure fun _ h => h

theorem keeps_postHalf (half : ℕ) (io : ℕ → Io) : Keeps (postHalf half io) := keeps_forConns _ _

theorem keeps_writeRanks (tokens : ℕ) (encoded : List (List UInt8)) (io : ℕ → Io) :
    Keeps (writeRanks tokens encoded io) := by
  intro k
  refine .ite (fun _ => ?_) fun _ => keeps_forConns _ _ k
  refine .get_bind fun c hc => .bind (Q := fun _ => InFlight k) (.set fun _ _ => hc) fun _ => ?_
  exact .bind (Keeps.call k) fun conns => .modify fun _ h => h

theorem keeps_sendLayer (layerId : UInt32) (tokens : ℕ) (rows : List HiddenRow)
    (routes : List (UInt32 × UInt32)) (topk : ℕ) (nocrc : Bool) (io : ℕ → Io) :
    Keeps (sendLayer layerId tokens rows routes topk nocrc io) := by
  refine Keeps.check.bind fun _ => keeps_takeRequestId.bind fun id => Keeps.get.bind fun c => ?_
  refine Keeps.ite ?_ ?_
  · refine Keeps.wireCall.bind fun _ => Keeps.check.bind fun _ => ?_
    exact (keeps_claimHalf io).bind fun half => (keeps_postHalf half io).bind fun _ => Keeps.pure _
  · exact (keeps_forConns _ _).bind fun encoded =>
      (keeps_writeRanks tokens encoded io).bind fun _ => Keeps.pure _

theorem push_triple (x : UInt64 × UInt32 × ℕ) {E : WireClient → Prop} :
    Triple (InFlight k) (modify fun c => { c with inflight := c.inflight ++ [x] } : Client Unit)
      (fun _ => InFlight (k + 1)) E :=
  .modify fun c hc => by
    show (c.inflight ++ [x]).length = k + 1
    rw [List.length_append, List.length_singleton, hc]

theorem moeSendDevice_inFlight (layerId : UInt32) (tokens topk : ℕ) (fill : Bool) (io : ℕ → Io) :
    Triple (InFlight k) (moeSendDevice layerId tokens topk fill io) (fun _ => InFlight (k + 1))
      (InFlight k) := by
  refine .bind (Keeps.get k) fun c => .bind (Keeps.check k) fun _ => .bind (Keeps.check k) fun _ =>
    ?_
  refine .bind (keeps_takeRequestId k) fun id => .bind (keeps_claimHalf io k) fun half => ?_
  refine .bind (Keeps.wireCall k) fun _ => .bind (Keeps.check k) fun _ => ?_
  exact .bind (keeps_postHalf half io k) fun _ => push_triple _

theorem moeSendMapped_inFlight (layerId : UInt32) (routes : List (UInt32 × UInt32)) (topk : ℕ)
    (fill : Bool) (io : ℕ → Io) :
    Triple (InFlight k) (moeSendMapped layerId routes topk fill io) (fun _ => InFlight (k + 1))
      (InFlight k) := by
  refine .bind (Keeps.get k) fun c => .bind (Keeps.check k) fun _ => .bind (Keeps.check k) fun _ =>
    ?_
  refine .bind (Keeps.check k) fun _ => .bind (keeps_takeRequestId k) fun id => ?_
  refine .bind (keeps_claimHalf io k) fun half => .bind (Keeps.wireCall k) fun frame => ?_
  refine .bind (Keeps.check k) fun _ => .bind (Keeps.check k) fun _ => ?_
  exact .bind (keeps_postHalf half io k) fun _ => push_triple _

theorem moeSendRaw_inFlight (layerId : UInt32) (payload scales : List UInt8)
    (routes : List (UInt32 × UInt32)) (topk : ℕ) (nocrc : Bool) (io : ℕ → Io) :
    Triple (InFlight k) (moeSendRaw layerId payload scales routes topk nocrc io)
      (fun _ => InFlight (k + 1)) (InFlight k) := by
  refine .bind (Keeps.check k) fun _ => .bind (Keeps.get k) fun c => .bind (Keeps.check k) fun _ =>
    ?_
  exact .bind (keeps_sendLayer _ _ _ _ _ _ _ k) fun id => push_triple _

theorem keeps_recvRanks (layerId : UInt32) (requestId : UInt64) (tokens : ℕ) (nocrc : Bool)
    (io : ℕ → Io) : Keeps (recvRanks layerId requestId tokens nocrc io) := by
  intro k
  refine .get_bind fun c hc => ?_
  have hpre : ∀ s, s = c → InFlight k s := fun s hs => by rw [hs]; exact hc
  refine .ite (fun _ => (keeps_forConns _ _ k).pre hpre) fun _ => ?_
  refine .ite (fun _ => ?_) fun _ => (keeps_forConns _ _ k).pre hpre
  exact .bind (Q := fun _ => InFlight k) (.set fun _ _ => hc) fun _ => Keeps.call k

/-- Collecting takes the oldest exchange in flight, also where it fails. -/
theorem moeRecvRaw_inFlight (nocrc : Bool) (io : ℕ → Io) :
    Triple (InFlight k) (moeRecvRaw nocrc io) (fun _ c => 0 < k ∧ InFlight (k - 1) c)
      (InFlight (k - 1)) := by
  refine .bind (Q := fun _ => InFlight k) (.modify fun _ h => h) fun _ => .get_bind fun c hc => ?_
  split
  · next hnil =>
    refine .throw fun s hs => ?_
    rw [hs]
    show c.inflight.length = k - 1
    rw [← hc, hnil]
    rfl
  · next id layerId tokens rest hcons =>
    have hlen : rest.length + 1 = k := by rw [← hc, hcons, List.length_cons]
    refine .bind (Q := fun _ => InFlight (k - 1)) (.set fun _ _ => ?_) fun _ => ?_
    · show rest.length = k - 1
      omega
    · exact .bind (keeps_recvRanks _ _ _ _ _ _) fun _ => .pure fun _ h => ⟨by omega, h⟩

/-! ### The lanes and the serial run -/

variable {M : Model H K P} {env : Env} {step g n : ℕ} {owes : ℕ → Option ℕ} {order : List ℕ}
  {x : K × (ℕ → H)} {s : LaneState H K}

/-- A lane's residual stream once the exchange it still owes, if any, is added. -/
def settled (M : Model H K P) : Option ℕ → H → H
  | none, h => h
  | some layer, h => M.addPlanes h fun rank => M.answer rank layer (M.request layer h)

/-- The exchanges of the lanes of `order` that owe one, in that order. -/
def queue (M : Model H K P) (step g n : ℕ) (owes : ℕ → Option ℕ) (order : List ℕ) (h : ℕ → H) :
    List (Tag × LayerRequest) :=
  order.filterMap fun lane =>
    (owes lane).map fun layer => ((step, ⟨g, n, layer, lane⟩), M.request layer (h lane))

/-- **The lanes and the serial run.** The queue holds what the lanes of `order` owe, and with it
each lane is where the serial run has it. -/
structure Mid (M : Model H K P) (step g n : ℕ) (owes : ℕ → Option ℕ) (order : List ℕ)
    (x : K × (ℕ → H)) (s : LaneState H K) : Prop where
  sync : InFlight s.flight.length s.client
  flight : s.flight = queue M step g n owes order s.h
  kv : s.kv = x.1
  h : ∀ lane, x.2 lane = settled M (owes lane) (s.h lane)
  own : ∀ y ∈ s.collected, y.2 = y.1

/-- A lane waits for its exchange exactly when it owes one. -/
def Flags (owes : ℕ → Option ℕ) (order : List ℕ) (pending : ℕ → Bool) : Prop :=
  ∀ lane ∈ order, pending lane = (owes lane).isSome

/-- What a failed step leaves. -/
structure Fails (M : Model H K P) (s : LaneState H K) : Prop where
  sync : InFlight s.flight.length s.client
  flight : ¬ Exposed M s.place → s.flight = []
  own : ∀ y ∈ s.collected, y.2 = y.1

theorem queue_congr {owes' : ℕ → Option ℕ} {h h' : ℕ → H}
    (heq : ∀ lane ∈ order, owes' lane = owes lane ∧ h' lane = h lane) :
    queue M step g n owes' order h' = queue M step g n owes order h := by
  refine List.filterMap_congr fun lane hlane => ?_
  rw [(heq lane hlane).1, (heq lane hlane).2]

theorem queue_update {j : ℕ} (hj : j ∉ order) (o : Option ℕ) (h : ℕ → H) (v : H) :
    queue M step g n (Function.update owes j o) order (Function.update h j v) =
      queue M step g n owes order h := by
  refine queue_congr fun lane hlane => ?_
  have hne : lane ≠ j := fun heq => hj (heq ▸ hlane)
  exact ⟨Function.update_of_ne hne _ _, Function.update_of_ne hne _ _⟩

theorem queue_eq_nil {h : ℕ → H} (hnone : ∀ lane ∈ order, owes lane = none) :
    queue M step g n owes order h = [] := by
  refine List.filterMap_eq_nil_iff.mpr fun lane hlane => ?_
  rw [hnone lane hlane]
  rfl

theorem Mid.fails (h : Mid M step g n owes order x s)
    (hexp : ¬ Exposed M s.place → ∀ lane ∈ order, owes lane = none) : Fails M s :=
  ⟨h.sync, fun hplace => by rw [h.flight, queue_eq_nil (hexp hplace)], h.own⟩

/-- A lane that owes nothing may leave the order, and come back last. -/
theorem Mid.of_settled {j : ℕ} (h : Mid M step g n owes (j :: order) x s) (hnone : owes j = none) :
    Mid M step g n owes order x s := by
  refine ⟨h.sync, ?_, h.kv, h.h, h.own⟩
  rw [h.flight, queue, List.filterMap_cons_none (by rw [hnone]; rfl)]
  rfl

theorem Mid.append_settled {j : ℕ} (h : Mid M step g n owes order x s) (hnone : owes j = none) :
    Mid M step g n owes (order ++ [j]) x s := by
  refine ⟨h.sync, ?_, h.kv, h.h, h.own⟩
  rw [h.flight, queue, queue, List.filterMap_append, List.filterMap_cons_none (by rw [hnone]; rfl)]
  simp

/-- A lane that owes nothing may move on, with the serial run. -/
theorem Mid.move {j : ℕ} (h : Mid M step g n owes order x s) (hj : j ∉ order)
    (hnone : owes j = none)
    (kv : K) (v : H) :
    Mid M step g n owes order (kv, Function.update x.2 j v)
      { s with kv := kv, h := Function.update s.h j v } := by
  refine ⟨h.sync, ?_, rfl, fun lane => ?_, h.own⟩
  · have hqueue := @queue_update _ _ _ M step g n owes order j hj (owes j) s.h v
    rw [Function.update_eq_self] at hqueue
    exact h.flight.trans hqueue.symm
  · by_cases hlane : lane = j
    · rw [hlane, hnone]
      show Function.update x.2 j v j = Function.update s.h j v j
      rw [Function.update_self, Function.update_self]
    · show Function.update x.2 j v lane = settled M (owes lane) (Function.update s.h j v lane)
      rw [Function.update_of_ne hlane, Function.update_of_ne hlane]
      exact h.h lane

/-! ### One lane of one layer -/

theorem onClient_triple {α : Type} {m : Client α} {C D : WireClient → Prop}
    {B : α → WireClient → Prop} (hm : Triple C m B D) (hs : C s.client) :
    Triple (fun s' => s' = s) (onClient m : Lanes H K α)
      (fun a s' => ∃ c, B a c ∧ s' = { s with client := c })
      (fun s' => ∃ c, D c ∧ s' = { s with client := c }) := by
  rintro s' rfl
  have hpost := hm s'.client hs
  rw [onClient]
  cases hres : m s'.client with
  | ok a c =>
    rw [hres] at hpost
    exact ⟨c, hpost, rfl⟩
  | error e c =>
    rw [hres] at hpost
    exact ⟨c, hpost, rfl⟩

/-- A check that leaves the state alone. -/
theorem keep_check {b : Bool} {e : ClientError} {R E : LaneState H K → Prop} (h : ∀ s, R s → E s) :
    Triple R (check b e : Lanes H K Unit) (fun _ => R) E :=
  .check (fun _ _ hs => hs) fun _ => h

/-- The lane at a place, while it is dealt with: the lanes of `order` are waiting. -/
structure At (M : Model H K P) (step : ℕ) (p : Place) (owes : ℕ → Option ℕ) (order : List ℕ)
    (x : K × (ℕ → H)) (s : LaneState H K) : Prop
    extends Mid M step p.group p.lanes owes order x s where
  place : s.place = p
  flags : Flags owes order s.pending

variable {p : Place}

theorem At.fails (h : At M step p owes order x s)
    (hexp : ¬ Exposed M p → ∀ lane ∈ order, owes lane = none) : Fails M s :=
  h.toMid.fails (h.place ▸ hexp)

/-- **Collecting.** The exchange taken is the lane's own, and its planes settle the lane. -/
theorem moeFinish_triple (hnodup : (p.lane :: order).Nodup)
    (howes : owes p.lane = some (p.layer - 1))
    (hexp : ¬ Exposed M p → ∀ lane ∈ order, owes lane = none) (t : ℕ) :
    Triple (fun s => Mid M step p.group p.lanes owes (p.lane :: order) x s ∧ s.place = p ∧
        Flags owes order s.pending)
      (moeFinish M env step p t)
      (fun _ => At M step p (Function.update owes p.lane none) order x) (Fails M) := by
  refine .get_bind fun a ⟨hmid, hplace, hflags⟩ => ?_
  have hnot : p.lane ∉ order := (List.nodup_cons.mp hnodup).1
  have hqueue : a.flight = ((step, ⟨p.group, p.lanes, p.layer - 1, p.lane⟩),
      M.request (p.layer - 1) (a.h p.lane)) :: queue M step p.group p.lanes owes order a.h := by
    rw [hmid.flight, queue, List.filterMap_cons_some (by rw [howes]; rfl)]
    rfl
  have hlen : a.client.inflight.length - 1 = a.flight.tail.length := by
    rw [hmid.sync, List.length_tail]
  -- What is left when the exchange is taken, also where the collection fails.
  let taken (s : LaneState H K) : Prop := ∃ c, InFlight (a.client.inflight.length - 1) c ∧
    s = { a with flight := a.flight.tail, client := c }
  have hstop : ∀ s, taken s → Fails M s := by
    rintro s ⟨c, hc, rfl⟩
    refine ⟨hc.trans hlen, fun hplace' => ?_, hmid.own⟩
    show a.flight.tail = []
    rw [hqueue, List.tail_cons]
    exact queue_eq_nil (hexp (hplace ▸ hplace'))
  refine .bind (Q := fun _ s => s = { a with flight := a.flight.tail }) (.set fun _ _ => rfl)
    fun _ => ?_
  refine .bind (Q := fun _ => taken) ?_ fun r => ?_
  · refine (onClient_triple (s := { a with flight := a.flight.tail }) (moeRecvRaw_inFlight _ _)
      (rfl : InFlight _ a.client)).weaken (fun _ h => h) (fun _ s hs => ?_) fun s hs => hstop s hs
    obtain ⟨c, ⟨-, hc⟩, rfl⟩ := hs
    exact ⟨c, hc, rfl⟩
  refine .bind (keep_check hstop) fun _ => .bind (Q := fun _ => taken) (.get fun s hs => hs)
    fun s' => ?_
  refine .bind (keep_check hstop) fun _ => .bind (keep_check hstop) fun _ => ?_
  rw [hqueue]
  refine .modify ?_
  rintro s ⟨c, hc, rfl⟩
  have howed : Function.update owes p.lane none p.lane = none := Function.update_self ..
  refine ⟨⟨hc.trans hlen, ?_, hmid.kv, fun lane => ?_, fun y hy => ?_⟩, hplace, fun lane hlane =>
    ?_⟩
  · rw [show a.flight.tail = _ from congrArg List.tail hqueue, List.tail_cons]
    exact (queue_update hnot none a.h _).symm
  · by_cases hlane : lane = p.lane
    · rw [hlane, howed, hmid.h, howes]
      exact (Function.update_self p.lane _ a.h).symm
    · rw [Function.update_of_ne hlane, hmid.h lane]
      exact congrArg _ (Function.update_of_ne hlane _ a.h).symm
  · obtain hy | hy := List.mem_append.mp hy
    · exact hmid.own y hy
    · rw [List.mem_singleton] at hy
      rw [hy]
  · have hne : lane ≠ p.lane := fun heq => hnot (heq ▸ hlane)
    rw [Function.update_of_ne hne]
    exact hflags lane hlane

/-- Sending puts one exchange in flight, or fails and puts none. -/
theorem sendLane_triple (t : ℕ) (req : LayerRequest) (a : LaneState H K) :
    Triple (fun s => s = a) (sendLane M env p t req)
      (fun _ s => ∃ c, InFlight (a.client.inflight.length + 1) c ∧ s = { a with client := c })
      (fun s => ∃ c, InFlight a.client.inflight.length c ∧ s = { a with client := c }) := by
  have hsame : ∀ s, s = a →
      ∃ c, InFlight a.client.inflight.length c ∧ s = { a with client := c } := by
    rintro s rfl
    exact ⟨s.client, rfl, rfl⟩
  refine .bind (Q := fun _ s => s = a) (.get fun _ h => h) fun s => ?_
  refine .ite (fun _ => ?_) fun _ => .bind (keep_check hsame) fun _ => .ite (fun _ => ?_) fun _ =>
    ?_
  · exact onClient_triple (moeSendDevice_inFlight _ _ _ _ _) rfl
  · exact onClient_triple (moeSendMapped_inFlight _ _ _ _ _) rfl
  · exact onClient_triple (moeSendRaw_inFlight _ _ _ _ _ _ _) rfl

/-- The exchange a lane owes after this layer. -/
def now (M : Model H K P) (layer : ℕ) : Option ℕ := if M.isMoe layer then some layer else none

/-- The feed-forward half of a layer, its exchange answered at once. -/
def serialFfn (M : Model H K P) (layer : ℕ) (h : H) : H :=
  if M.isMoe layer then M.addPlanes h fun rank => M.answer rank layer (M.request layer h)
  else M.dense layer h

/-- **Sending.** After it the lane owes the layer's exchange, or has done a dense layer. -/
theorem ffnStart_triple (hnot : p.lane ∉ order) (howes : owes p.lane = none)
    (hexp : ¬ Exposed M p → ∀ lane ∈ order, owes lane = none) (t : ℕ) (v : H)
    (hv : x.2 p.lane = v) :
    Triple (At M step p owes order x) (ffnStart M env step p t)
      (fun sent s => sent = M.isMoe p.layer ∧
        Mid M step p.group p.lanes (Function.update owes p.lane (now M p.layer)) (order ++ [p.lane])
          (x.1, Function.update x.2 p.lane (serialFfn M p.layer v)) s ∧ s.place = p ∧
        Flags owes order s.pending) (Fails M) := by
  refine .get_bind fun a ha => ?_
  have hav : a.h p.lane = v := by
    rw [← hv, ha.h, howes]
    rfl
  have hfails : ∀ s, s = a → Fails M s := fun s hs => by rw [hs]; exact ha.fails hexp
  refine .ite (fun hdense => ?_) fun hmoe => ?_
  · have hmoe : M.isMoe p.layer = false := by simpa using hdense
    let after : ℕ → H := Function.update a.h p.lane (M.dense p.layer (a.h p.lane))
    refine .bind (keep_check hfails) fun _ => .bind (Q := fun _ s => s = { a with h := after })
      (.modify fun s hs => by rw [hs]) fun _ => .pure fun s hs => ?_
    rw [hs]
    have hnow : now M p.layer = none := by rw [now, hmoe, if_neg Bool.false_ne_true]
    have hmove :=
        (ha.toMid.move hnot howes a.kv (M.dense p.layer (a.h p.lane))).append_settled howes
    refine ⟨hmoe.symm, ?_, ha.place, ha.flags⟩
    rw [hnow, ← howes, Function.update_eq_self, serialFfn, hmoe, if_neg Bool.false_ne_true, ← hav,
      ← ha.kv]
    exact hmove
  · have hmoe : M.isMoe p.layer = true := by simpa using hmoe
    refine .bind (keep_check hfails) fun _ => .bind (Q := fun _ s =>
      ∃ c, InFlight (a.client.inflight.length + 1) c ∧ s = { a with client := c })
      ((sendLane_triple _ _ a).weaken (fun _ h => h) (fun _ _ h => h) ?_) fun _ => ?_
    · rintro s ⟨c, hc, rfl⟩
      exact ⟨hc.trans ha.sync, (ha.fails hexp).flight, ha.own⟩
    · let flight := a.flight ++ [((step, p), M.request p.layer (a.h p.lane))]
      refine .bind (Q := fun _ s => ∃ c, InFlight (a.client.inflight.length + 1) c ∧
        s = { a with client := c, flight := flight }) (.modify ?_) fun _ => .pure ?_
      · rintro s ⟨c, hc, rfl⟩
        exact ⟨c, hc, rfl⟩
      rintro s ⟨c, hc, rfl⟩
      have hnow : now M p.layer = some p.layer := by rw [now, hmoe, if_pos rfl]
      refine ⟨hmoe.symm, ⟨?_, ?_, ha.kv, fun lane => ?_, ha.own⟩, ha.place, ha.flags⟩
      · show c.inflight.length = (a.flight ++ [_]).length
        rw [List.length_append, List.length_singleton, ← ha.sync]
        exact hc
      · have hold := @queue_update _ _ _ M step p.group p.lanes owes _ _ hnot (now M p.layer) a.h
          (a.h p.lane)
        rw [Function.update_eq_self] at hold
        rw [queue, List.filterMap_append]
        show a.flight ++ _ = _
        rw [ha.flight, ← hold]
        congr 1
        rw [List.filterMap_cons_some (b := ((step, p), M.request p.layer (a.h p.lane)))
          (by rw [Function.update_self, hnow]; rfl), List.filterMap_nil]
      · show Function.update x.2 p.lane (serialFfn M p.layer v) lane =
          settled M (Function.update owes p.lane (now M p.layer) lane) (a.h lane)
        by_cases hlane : lane = p.lane
        · rw [hlane, Function.update_self, Function.update_self, hnow, serialFfn, hmoe, if_pos rfl,
            ← hav]
          rfl
        · rw [Function.update_of_ne hlane, Function.update_of_ne hlane]
          exact ha.h lane

/-- The exchange a lane still owes when it comes to this layer. -/
def before (M : Model H K P) (layer : ℕ) : Option ℕ :=
  if 0 < layer ∧ M.isMoe (layer - 1) = true then some (layer - 1) else none

theorem serialLane_eq (layer lane : ℕ) (x : K × (ℕ → H)) :
    serialLane M layer lane x = ((M.attn layer lane x.1 (x.2 lane)).1,
      Function.update x.2 lane (serialFfn M layer (M.attn layer lane x.1 (x.2 lane)).2)) := rfl

/-- **Settling.** -/
theorem settle_triple (hnodup : (p.lane :: order).Nodup) (howes : owes p.lane = before M p.layer)
    (hexp : ¬ Exposed M p → ∀ lane ∈ order, owes lane = none) (t : ℕ) (take : Bool) :
    Triple (fun s => Mid M step p.group p.lanes owes (p.lane :: order) x s ∧
        Flags owes (p.lane :: order) s.pending)
      (settle M env step p t take)
      (fun _ => At M step p (Function.update owes p.lane none) order x) (Fails M) := by
  have hnot : p.lane ∉ order := (List.nodup_cons.mp hnodup).1
  have hne : ∀ lane ∈ order, lane ≠ p.lane := fun lane hlane heq => hnot (heq ▸ hlane)
  have hexp' : ¬ Exposed M p → ∀ lane ∈ order, Function.update owes p.lane none lane = none := by
    intro h lane hlane
    rw [Function.update_of_ne (hne lane hlane)]
    exact hexp h lane hlane
  refine .bind (Q := fun _ s => (Mid M step p.group p.lanes owes (p.lane :: order) x s ∧
    s.place = p) ∧ Flags owes (p.lane :: order) s.pending) (.modify fun s hs => ?_) fun _ => ?_
  · exact ⟨⟨⟨hs.1.sync, hs.1.flight, hs.1.kv, hs.1.h, hs.1.own⟩, rfl⟩, hs.2⟩
  refine .get_bind fun a ⟨⟨hmid, hplace⟩, hflags⟩ => ?_
  obtain ⟨hself, hflags⟩ := List.forall_mem_cons.mp hflags
  refine .ite (fun hpending => ?_) fun hpending => .pure fun s hs => ?_
  · have hsome : owes p.lane = some (p.layer - 1) := by
      rw [hpending, howes, before] at hself
      rw [howes, before]
      split
      · rfl
      · next hno =>
        rw [if_neg hno] at hself
        cases hself
    refine .bind (Q := fun _ s => Mid M step p.group p.lanes owes (p.lane :: order) x s ∧
      s.place = p ∧ Flags owes order s.pending) (.modify fun s hs => ?_) fun _ =>
      .bind (moeFinish_triple hnodup hsome hexp t) fun _ => keep_check fun s hs => hs.fails hexp'
    rw [hs]
    split
    · refine ⟨⟨hmid.sync, hmid.flight, hmid.kv, hmid.h, hmid.own⟩, hplace, fun lane hlane => ?_⟩
      rw [← hflags lane hlane]
      exact Function.update_of_ne (hne lane hlane) _ _
    · exact ⟨hmid, hplace, hflags⟩
  · have hnone : owes p.lane = none := by
      rw [← Option.not_isSome_iff_eq_none, ← hself]
      exact hpending
    have hupdate : Function.update owes p.lane none = owes := by
      rw [← hnone, Function.update_eq_self]
    rw [hs, hupdate]
    exact ⟨hmid.of_settled hnone, hplace, hflags⟩

/-- **One lane of one layer** goes on as the serial run does. -/
theorem layerLane_triple (hnodup : (p.lane :: order).Nodup) (howes : owes p.lane = before M p.layer)
    (hexp : ¬ Exposed M p → ∀ lane ∈ order, owes lane = none) (t : ℕ) :
    Triple (fun s => Mid M step p.group p.lanes owes (p.lane :: order) x s ∧
        Flags owes (p.lane :: order) s.pending)
      (layerLane M env step p t)
      (fun _ s => Mid M step p.group p.lanes (Function.update owes p.lane (now M p.layer))
          (order ++ [p.lane]) (serialLane M p.layer p.lane x) s ∧
        Flags (Function.update owes p.lane (now M p.layer)) (order ++ [p.lane]) s.pending)
      (Fails M) := by
  have hnot : p.lane ∉ order := (List.nodup_cons.mp hnodup).1
  have hne : ∀ lane ∈ order, lane ≠ p.lane := fun lane hlane heq => hnot (heq ▸ hlane)
  have hexp' : ¬ Exposed M p → ∀ lane ∈ order, Function.update owes p.lane none lane = none := by
    intro h lane hlane
    rw [Function.update_of_ne (hne lane hlane)]
    exact hexp h lane hlane
  have hnone : Function.update owes p.lane none p.lane = none := Function.update_self ..
  refine .bind (settle_triple hnodup howes hexp t true) fun _ => ?_
  refine .bind (keep_check fun s hs => hs.fails hexp') fun _ => ?_
  -- The attention half, in both runs.
  let kh := M.attn p.layer p.lane x.1 (x.2 p.lane)
  refine .bind (Q := fun _ => At M step p (Function.update owes p.lane none) order
    (kh.1, Function.update x.2 p.lane kh.2)) (.modify fun s hs => ?_) fun _ => ?_
  · have hlane : s.h p.lane = x.2 p.lane := by
      rw [hs.h, hnone]
      rfl
    have hattn : M.attn p.layer p.lane s.kv (s.h p.lane) = kh := by rw [hlane, hs.kv]
    show At M step p _ order _ { s with
      kv := (M.attn p.layer p.lane s.kv (s.h p.lane)).1
      h := Function.update s.h p.lane (M.attn p.layer p.lane s.kv (s.h p.lane)).2 }
    rw [hattn]
    exact ⟨hs.toMid.move hnot hnone kh.1 kh.2, hs.place, hs.flags⟩
  refine .bind (ffnStart_triple hnot hnone hexp' t kh.2 (Function.update_self ..)) fun sent => ?_
  refine .of_pure fun hsent => ?_
  refine .bind (Q := fun _ s => Mid M step p.group p.lanes (Function.update owes p.lane
      (now M p.layer)) (order ++ [p.lane]) (serialLane M p.layer p.lane x) s ∧
    Flags (Function.update owes p.lane (now M p.layer)) (order ++ [p.lane]) s.pending ∧
    s.place = p) (.modify fun s hs => ?_) fun _ => ?_
  · obtain ⟨hmid, hplace, hflags⟩ := hs
    dsimp only at hmid
    rw [Function.update_idem, Function.update_idem] at hmid
    refine ⟨⟨hmid.sync, hmid.flight, hmid.kv, hmid.h, hmid.own⟩, fun lane hlane => ?_, hplace⟩
    show Function.update s.pending p.lane sent lane = _
    obtain hlane | hlane := List.mem_append.mp hlane
    · have hflag := hflags lane hlane
      rw [Function.update_of_ne (hne lane hlane)] at hflag
      rw [Function.update_of_ne (hne lane hlane), Function.update_of_ne (hne lane hlane)]
      exact hflag
    · rw [List.mem_singleton.mp hlane, Function.update_self, Function.update_self, hsent, now]
      cases M.isMoe p.layer <;> rfl
  · refine .ite (fun hdense => ?_) fun _ => .pure fun s hs => ⟨hs.1, hs.2.1⟩
    have hnow : now M p.layer = none := by
      have hmoe : M.isMoe p.layer = false := by simpa [hsent] using hdense
      rw [now, hmoe, if_neg Bool.false_ne_true]
    refine .check (fun _ s hs => ⟨hs.1, hs.2.1⟩) fun _ s hs => hs.1.fails fun hplace lane hlane =>
      ?_
    obtain hlane | hlane := List.mem_append.mp hlane
    · rw [Function.update_of_ne (hne lane hlane)]
      exact hexp (hs.2.2 ▸ hplace) lane hlane
    · rw [List.mem_singleton.mp hlane, Function.update_self, hnow]

/-- **The last collection** of a lane. -/
theorem lastLane_triple (hnodup : (p.lane :: order).Nodup) (howes : owes p.lane = before M p.layer)
    (hexp : ¬ Exposed M p → ∀ lane ∈ order, owes lane = none) (t : ℕ) :
    Triple (fun s => Mid M step p.group p.lanes owes (p.lane :: order) x s ∧
        Flags owes (p.lane :: order) s.pending)
      (lastLane M env step p t)
      (fun _ s => Mid M step p.group p.lanes (Function.update owes p.lane none) order x s ∧
        Flags (Function.update owes p.lane none) order s.pending)
      (Fails M) :=
  (settle_triple hnodup howes hexp t false).post fun _ _ hs => ⟨hs.toMid, hs.flags⟩

/-! ### Groups -/

/-- What the `n` lanes owe in a layer, when those before `i` are done with it. -/
def owesAt (M : Model H K P) (n layer i lane : ℕ) : Option ℕ :=
  if lane < i then now M layer else if lane < n then before M layer else none

theorem owesAt_update {layer i : ℕ} :
    Function.update (owesAt M n layer i) i (now M layer) = owesAt M n layer (i + 1) := by
  funext lane
  by_cases hlane : lane = i
  · rw [hlane, Function.update_self, owesAt, if_pos (Nat.lt_succ_self i)]
  · rw [Function.update_of_ne hlane, owesAt, owesAt]
    have hiff : lane < i ↔ lane < i + 1 := by omega
    simp only [hiff]

theorem before_succ (layer : ℕ) : before M (layer + 1) = now M layer := by
  rw [before, now, Nat.add_sub_cancel]
  simp

/-- After its last lane a layer is where the next one starts. -/
theorem owesAt_next (layer : ℕ) : owesAt M n layer n = owesAt M n (layer + 1) 0 := by
  funext lane
  rw [owesAt, owesAt, if_neg (Nat.not_lt_zero lane), before_succ]
  split
  · rfl
  · rfl

/-- Where no other lane's exchange is in flight, no other lane owes one. -/
theorem owesAt_of_not_exposed {layer i : ℕ} (hlayer : layer < M.layers)
    (h : ¬ Exposed M ⟨g, n, layer, i⟩) {lane : ℕ} (hlane : lane ≠ i) :
        owesAt M n layer i lane = none := by
  obtain ⟨hbefore, hnow⟩ := not_or.mp h
  rw [owesAt, now, before]
  split
  · refine if_neg fun hmoe => hnow ⟨hlayer, hmoe, ?_⟩
    show 0 < i
    omega
  · split
    · refine if_neg fun hmoe => hbefore ⟨hmoe.1, hmoe.2, ?_⟩
      show i + 1 < n
      omega
    · rfl

/-- The lanes in the order they are dealt with, from lane `i` on, are each there once. -/
theorem nodup_rotation (i len : ℕ) : (List.range' i len ++ List.range i).Nodup := by
  refine List.nodup_append.mpr ⟨List.nodup_range', List.nodup_range, fun a ha b hb => ?_⟩
  have hle := (List.mem_range'_1.mp ha).1
  have hlt := List.mem_range.mp hb
  omega

/-- **Layer.** The lanes of one layer. -/
theorem layer_triple {layer : ℕ} (hlayer : layer < M.layers) (ts : List ℕ) (i : ℕ)
    (hi : i + ts.length = n) (x : K × (ℕ → H)) :
    Triple (fun s => Mid M step g n (owesAt M n layer i)
      (List.range' i ts.length ++ List.range i) x s ∧
        Flags (owesAt M n layer i) (List.range' i ts.length ++ List.range i) s.pending)
      ((ts.zipIdx i).forM fun y => layerLane M env step ⟨g, n, layer, y.2⟩ y.1)
      (fun _ s => Mid M step g n (owesAt M n layer n) (List.range n)
          ((List.range' i ts.length).foldl (fun x lane => serialLane M layer lane x) x) s ∧
        Flags (owesAt M n layer n) (List.range n) s.pending)
      (Fails M) := by
  induction ts generalizing i x with
  | nil =>
    obtain rfl : i = n := hi
    exact .pure fun s hs => hs
  | cons t ts ih =>
    have hlt : i < n := by
      rw [List.length_cons] at hi
      omega
    have hnodup := nodup_rotation i (ts.length + 1)
    have howes : owesAt M n layer i i = before M layer := by
      rw [owesAt, if_neg (Nat.lt_irrefl i), if_pos hlt]
    have hlane := @layerLane_triple _ _ _ M env step _
      (List.range' (i + 1) ts.length ++ List.range i) x ⟨g, n, layer, i⟩ hnodup howes
      (fun hexp lane hlane => owesAt_of_not_exposed hlayer hexp fun heq =>
        (List.nodup_cons.mp hnodup).1 (heq ▸ hlane)) t
    rw [owesAt_update, List.append_assoc, ← List.range_succ] at hlane
    rw [List.zipIdx_cons, List.forM_eq_forM, List.forM_cons]
    exact .bind hlane fun _ => ih (i + 1) (by rw [← hi, List.length_cons]; omega) _

/-- What the `n` lanes owe at the last collections, when those before `i` have collected. -/
def lastAt (M : Model H K P) (n i lane : ℕ) : Option ℕ :=
  if lane < i then none else if lane < n then before M M.layers else none

theorem lastAt_update {i : ℕ} : Function.update (lastAt M n i) i none = lastAt M n (i + 1) := by
  funext lane
  by_cases hlane : lane = i
  · rw [hlane, Function.update_self, lastAt, if_pos (Nat.lt_succ_self i)]
  · rw [Function.update_of_ne hlane, lastAt, lastAt]
    have hiff : lane < i ↔ lane < i + 1 := by omega
    simp only [hiff]

/-- **The last collections.** -/
theorem last_triple (ts : List ℕ) (i : ℕ) (hi : i + ts.length = n) :
    Triple (fun s => Mid M step g n (lastAt M n i) (List.range' i ts.length) x s ∧
        Flags (lastAt M n i) (List.range' i ts.length) s.pending)
      ((ts.zipIdx i).forM fun y => lastLane M env step ⟨g, n, M.layers, y.2⟩ y.1)
      (fun _ s => Mid M step g n (lastAt M n n) [] x s) (Fails M) := by
  induction ts generalizing i with
  | nil =>
    obtain rfl : i = n := hi
    exact .pure fun s hs => hs.1
  | cons t ts ih =>
    have hlt : i < n := by
      rw [List.length_cons] at hi
      omega
    have howes : lastAt M n i i = before M M.layers := by
      rw [lastAt, if_neg (Nat.lt_irrefl i), if_pos hlt]
    have hexp : ¬ Exposed M ⟨g, n, M.layers, i⟩ → ∀ lane ∈ List.range' (i + 1) ts.length,
        lastAt M n i lane = none := by
      intro h lane hlane
      have hle := List.mem_range'_1.mp hlane
      rw [lastAt, if_neg (by omega), before]
      split
      · refine if_neg fun hmoe => (not_or.mp h).1 ⟨hmoe.1, hmoe.2, ?_⟩
        show i + 1 < n
        omega
      · rfl
    have hlane := @lastLane_triple _ _ _ M env step _ _ x
      ⟨g, n, M.layers, i⟩ (List.nodup_range' (s := i) (n := ts.length + 1)) howes hexp t
    rw [lastAt_update] at hlane
    rw [List.zipIdx_cons, List.forM_eq_forM, List.forM_cons]
    exact .bind hlane fun _ => ih (i + 1) (by rw [← hi, List.length_cons]; omega)

/-- Between groups: nothing is in flight, and the lanes are where the serial run has them. -/
structure Done (x : K × (ℕ → H)) (s : LaneState H K) : Prop where
  sync : InFlight s.flight.length s.client
  flight : s.flight = []
  kv : s.kv = x.1
  h : s.h = x.2
  own : ∀ y ∈ s.collected, y.2 = y.1

theorem Done.fails (h : Done x s) : Fails M s := ⟨h.sync, fun _ => h.flight, h.own⟩

theorem Mid.done (h : Mid M step g n (lastAt M n n) [] x s) : Done x s := by
  refine ⟨h.sync, h.flight, h.kv, funext fun lane => ?_, h.own⟩
  have hlane := h.h lane
  have hnone : lastAt M n n lane = none := by
    rw [lastAt]
    split
    · rfl
    · rfl
  rw [hnone] at hlane
  exact hlane.symm

/-- **Group.** -/
theorem runGroup_triple (g : ℕ) (group : Group H) :
    Triple (Done x) (runGroup M env step g group) (fun _ => Done (serialGroup M x.1 group))
      (Fails M) := by
  let n := group.lanes.length
  let upto (k : ℕ) : K × (ℕ → H) := (List.range k).foldl
    (fun x layer => (List.range n).foldl (fun x lane => serialLane M layer lane x) x) (x.1, group.h)
  let I (k : ℕ) (s : LaneState H K) : Prop :=
    Mid M step g n (owesAt M n k 0) (List.range n) (upto k) s ∧
    Flags (owesAt M n k 0) (List.range n) s.pending
  refine .bind (Q := fun _ => Done x)
    (.modify fun s hs => ⟨hs.sync, hs.flight, hs.kv, hs.h, hs.own⟩)
    fun _ => .bind (keep_check fun s hs => hs.fails) fun _ => ?_
  refine .bind (Q := fun _ => I 0) (.modify fun s hs => ?_) fun _ =>
    .bind (Q := fun _ => I M.layers)
    (.forM_range fun k hk => ?_) fun _ => ?_
  · have hnone : ∀ lane, owesAt M n 0 0 lane = none := fun lane => by
      rw [owesAt, if_neg (Nat.not_lt_zero lane), before]
      simp
    refine ⟨⟨hs.sync, ?_, hs.kv, fun lane => ?_, hs.own⟩, fun lane _ => ?_⟩
    · exact hs.flight.trans (queue_eq_nil fun lane _ => hnone lane).symm
    · rw [hnone lane]
      rfl
    · rw [hnone lane]
      rfl
  · have hlayer := @layer_triple _ _ _ M env step g n k hk group.lanes 0
      (Nat.zero_add n) (upto k)
    rw [List.range_zero, List.append_nil, ← List.range_eq_range', owesAt_next] at hlayer
    refine hlayer.post fun _ s hs => ?_
    show Mid M step g n (owesAt M n (k + 1) 0) (List.range n) (upto (k + 1)) s ∧ _
    rw [show upto (k + 1) = (List.range n).foldl (fun x lane => serialLane M k lane x) (upto k) by
      simp only [upto, List.range_succ, List.foldl_append, List.foldl_cons, List.foldl_nil]]
    exact hs
  · have hlast := @last_triple _ _ _ M env step g n (upto M.layers)
      group.lanes 0 (Nat.zero_add n)
    have hstart : lastAt M n 0 = owesAt M n M.layers 0 := by
      funext lane
      rw [lastAt, owesAt, if_neg (Nat.not_lt_zero lane), if_neg (Nat.not_lt_zero lane)]
    rw [hstart, ← List.range_eq_range'] at hlast
    exact hlast.post fun _ s hs => hs.done

theorem groups_triple (groups : List (Group H)) (i : ℕ) (x : K × (ℕ → H)) :
    Triple (Done x) ((groups.zipIdx i).forM fun y => runGroup M env step y.2 y.1)
      (fun _ => Done (groups.foldl (fun x group => serialGroup M x.1 group) x)) (Fails M) := by
  induction groups generalizing i x with
  | nil => exact .pure fun s hs => hs
  | cons group groups ih =>
    rw [List.zipIdx_cons, List.forM_eq_forM, List.forM_cons]
    exact .bind (runGroup_triple i group) fun _ => ih (i + 1) _

/-- **Step.** From an empty queue, a step collects its own exchanges and has the serial result. -/
theorem runGroups_triple (e : Step H K) :
    Triple (Done (e.kv, e.h)) (runGroups M step e) (fun _ => Done (serialStep M e)) (Fails M) :=
  .bind (groups_triple e.groups 0 (e.kv, e.h)) fun _ => keep_check fun _ hs => hs.fails

/-! ### Runs -/

/-- Nothing is in flight. -/
def Idle (s : Served) : Prop := InFlight 0 s.client ∧ s.flight = []

variable {sv : Served} {e : Step H K}

theorem Idle.start (h : Idle sv) : Done (e.kv, e.h) (sv.start e) := by
  refine ⟨?_, h.2, rfl, rfl, fun y hy => ?_⟩
  · show InFlight sv.flight.length sv.client
    rw [h.2]
    exact h.1
  · cases hy

/-- From an idle client a step is exact. -/
theorem Idle.exact (h : Idle sv) : Exact M sv e := by
  have hpost := @runGroups_triple _ _ _ M sv.steps e _ h.start
  rw [Exact, runStep]
  cases hres : runGroups M sv.steps e (sv.start e) with
  | ok u s' =>
    rw [hres] at hpost
    refine ⟨hpost.own, fun s'' hs'' => ?_⟩
    cases hs''
    rw [hpost.kv, hpost.h]
  | error err s' =>
    rw [hres] at hpost
    exact ⟨hpost.own, fun s'' hs'' => by cases hs''⟩

/-- A step that abandons no exchange leaves the client idle, also when it fails. -/
theorem Idle.serveStep (h : Idle sv) (hkept : ¬ Abandons M sv e) :
    Idle (LaneSteps.serveStep M sv e) := by
  have hpost := @runGroups_triple _ _ _ M sv.steps e _ h.start
  rw [Abandons, runStep] at hkept
  rw [LaneSteps.serveStep, runStep]
  cases hres : runGroups M sv.steps e (sv.start e) with
  | ok u s' =>
    rw [hres] at hpost
    have hsync := hpost.sync
    rw [hpost.flight] at hsync
    exact ⟨hsync, hpost.flight⟩
  | error err s' =>
    rw [hres] at hpost hkept
    have hflight := hpost.flight fun hexp => hkept ⟨err, s', rfl, hexp⟩
    have hsync := hpost.sync
    rw [hflight] at hsync
    exact ⟨hsync, hflight⟩

end LaneSteps

end Coordinator

end Mimo26

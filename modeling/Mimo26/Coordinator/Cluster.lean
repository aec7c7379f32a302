import Mimo26.Coordinator.ExchangeSteps
import Mimo26.Library.Runs
import Mimo26.Spark.RouteSum
import Mimo26.Spark.Serve
import Mimo26.Wire.InPlaceAgree

/-!
# The coordinator and its four Sparks

The whole of the host-sum path over TCP: the client sends a layer to the four ranks, each daemon
takes its request off its stream and answers with its experts' rows, and the client adds the
answers. What can go wrong on a Spark's side is left to the environment: its reads, its machine, the
sending of its answer. The client's own reads do not fail, and a write fails only towards a Spark
that has left its connection; the bytes of a parallel write that fails are not followed further.

## Main definitions

* `Peer`, `Weather`, `Cluster` — a Spark, what the environment does in one exchange, the system
* `Cluster.value`, `Cluster.step` — what an exchange returns, and the system after it
* `MoeSum` — the sum over the ranks of what their experts compute
* `InSync`, `Spent` — every rank in step; a rank that answers no more

## Main results

* `inSync_step`, `spent_step` — one exchange
* `exchanges_exact` — over every run, an exchange returns its own sum or fails
-/

namespace Mimo26

namespace Coordinator

open Wire Fallible Runs Spark

/-! ### The system -/

/-- The arguments of an exchange. -/
structure MoeCall where
  layerId : UInt32
  tokens : ℕ
  hiddenRows : List HiddenRow
  routes : List (UInt32 × UInt32)
  topk : ℕ
  deriving DecidableEq

/-- The request to a rank. -/
def MoeCall.frame (x : MoeCall) (requestId : UInt64) (rank : ℕ) : RequestFrame :=
  layerRequest requestId x.layerId x.tokens x.hiddenRows x.routes x.topk rank

/-- A Spark at the other end of a connection. -/
structure Peer where
  daemon : Daemon
  /-- The daemon has not left the connection. -/
  serving : Bool

/-- What the environment does to each rank in one exchange. -/
structure Weather where
  /-- The client's write fails after this many bytes. -/
  write : ℕ → Option ℕ
  /-- What the reads of the Spark meet. -/
  turns : ℕ → List Turn
  /-- The sending of the answer fails after this many bytes. -/
  sending : ℕ → Option ℕ

structure Cluster where
  client : WireClient
  peers : List Peer

/-- A daemon in its loop takes what has come; gives the bytes that it sends. -/
def Peer.serve {G : Type} (m : Machine G) (nocrc : Bool) (turns : List Turn)
    (sending : Option ℕ) (bytes : List UInt8) (p : Peer) : Peer × List UInt8 :=
  if p.serving = true ∧ bytes ≠ [] then
    let stream : Source UInt8 := ⟨p.daemon.transport.stream.rest ++ bytes, turns⟩
    let r := Daemon.pass m nocrc sending
      { p.daemon with transport := { p.daemon.transport with stream := stream } }
    (⟨r.1, r.2.2 = .continued⟩, r.2.1)
  else (p, [])

namespace Cluster

/-- The client after the send half of an exchange. -/
def sent (nocrc : Bool) (x : MoeCall) (w : Weather) (c : WireClient) : WireClient :=
  match sendLayer x.layerId x.tokens x.hiddenRows x.routes x.topk nocrc
    (fun r => { write := w.write r }) c with
  | .ok _ c' => c'
  | .error _ c' => c'

/-- What was written to a rank. -/
def bytesTo (c c' : WireClient) (r : ℕ) : List UInt8 :=
  match c.conns[r]?, c'.conns[r]? with
  | some conn, some conn' => conn'.written.drop conn.written.length
  | _, _ => []

variable {G : Type} (ms : ℕ → Machine G) (nocrc : Bool)

/-- The Sparks after an exchange, with what each of them sent. -/
def served (s : Cluster) (op : MoeCall × Weather) : List (Peer × List UInt8) :=
  s.peers.mapIdx fun r p => p.serve (ms r) nocrc (op.2.turns r) (op.2.sending r)
    (bytesTo s.client (sent nocrc op.1 op.2 s.client) r)

/-- What the client meets. -/
def io (s : Cluster) (op : MoeCall × Weather) (r : ℕ) : Io where
  write := op.2.write r
  arrived := ((s.served ms nocrc op)[r]?.map Prod.snd).getD []

/-- The exchange itself. -/
def exchanged (F : Type) [Fp32 F] (s : Cluster) (op : MoeCall × Weather) :
    EStateM.Result ClientError WireClient (List F) :=
  exchange op.1.layerId op.1.tokens op.1.hiddenRows op.1.routes op.1.topk nocrc
    (s.io ms nocrc op) s.client

/-- What an exchange returns. -/
def value (F : Type) [Fp32 F] (s : Cluster) (op : MoeCall × Weather) :
    Except ClientError (List F) :=
  match s.exchanged ms nocrc F op with
  | .ok v _ => .ok v
  | .error e _ => .error e

/-- The system after an exchange. -/
def step (F : Type) [Fp32 F] (s : Cluster) (op : MoeCall × Weather) : Cluster where
  client :=
    match s.exchanged ms nocrc F op with
    | .ok _ c => c
    | .error _ c => c
  peers := (s.served ms nocrc op).map Prod.fst

/-- The system when the client has connected; the daemons keep the images they have loaded. -/
def connect (caches : ℕ → ℕ → Option (List UInt8)) : Cluster where
  client := .connect false
  peers := (List.range sparks).map fun r => ⟨.accepted ⟨[], []⟩ (caches r), true⟩

end Cluster

/-! ### The promise -/

variable {G : Type}

/-- The sum over the ranks, in their order, of the rows that their experts compute. -/
def MoeSum {F : Type} [Fp32 F] (ms : ℕ → Machine G) (x : MoeCall) (v : List F) : Prop :=
  ∃ partialOf : ℕ → ℕ → List UInt16,
    (∀ rank < sparks, ∀ token < x.tokens, ∃ codes,
      (ms rank).Computes x.layerId x.hiddenRows (decodeRoutes x.routes x.tokens x.topk) x.tokens
        codes ∧
      partialOf rank token = (codes.drop (token * hiddenDim)).take hiddenDim) ∧
    v = CoordinatorSum.rankOrderSum x.tokens hiddenDim partialOf

/-- A write fails only towards a Spark that has left. -/
def WritesThrough (s : Cluster) (op : MoeCall × Weather) : Prop :=
  ∀ (r : ℕ) (p : Peer), s.peers[r]? = some p → op.2.write r ≠ none → p.serving = false

/-- The batch is one that a request can hold. -/
structure MoeCall.Fits (x : MoeCall) : Prop where
  tokens_pos : 0 < x.tokens
  rowBytes_lt : x.tokens * rowDescriptorLen < 2 ^ 32
  routeBytes_lt : x.tokens * x.topk * routeEntryLen < 2 ^ 32
  routes_len : x.routes.length = x.tokens * x.topk
  hiddenRows_len : x.hiddenRows.length = x.tokens
  hiddenRow_len : ∀ row ∈ x.hiddenRows, row.payload.length = hiddenDim ∧
    row.scales.length = scaleLen

/-- The batch fits a request, every rank can compute it, and nothing fails on the way. -/
structure Served (ms : ℕ → Machine G) (op : MoeCall × Weather) : Prop where
  fits : op.1.Fits
  computes : ∀ rank < sparks, ∃ codes, (ms rank).Computes op.1.layerId op.1.hiddenRows
    (decodeRoutes op.1.routes op.1.tokens op.1.topk) op.1.tokens codes
  calm : ∀ rank, .failed ∉ op.2.turns rank
  sending : ∀ rank, op.2.sending rank = none

/-! ### The invariants -/

/-- Connection and Spark are in step: nothing is under way, and each end expects the sequence number
that the other stamps next. -/
structure InStep (m : Machine G) (conn : SparkConn) (p : Peer) : Prop where
  serving : p.serving = true
  rest : p.daemon.transport.stream.rest = []
  cached : p.daemon.Cached m
  connTx : conn.tx.naive = .none
  rx : p.daemon.rx = ⟨.none, conn.tx.nextSeq⟩
  tx : p.daemon.tx.naive = .none
  connRx : conn.rx = ⟨.none, p.daemon.tx.nextSeq⟩
  incoming : conn.incoming = []

/-- Every rank is in step. -/
structure InSync (ms : ℕ → Machine G) (s : Cluster) : Prop where
  tcp : s.client.rdmaBody = false
  idle : s.client.inflight = []
  conns : s.client.conns.length = sparks
  peers : s.peers.length = sparks
  inStep : ∀ (r : ℕ) (conn : SparkConn) (p : Peer), s.client.conns[r]? = some conn →
    s.peers[r]? = some p → InStep (ms r) conn p

/-- The Spark expects a request that was stamped and never written. -/
structure Behind (n : ℕ) (conn : SparkConn) (p : Peer) : Prop where
  connTx : conn.tx.naive = .none
  rest : p.daemon.transport.stream.rest = []
  gap : ∃ expected k, p.daemon.rx = ⟨.none, expected⟩ ∧ 0 < k ∧ k ≤ n ∧
    conn.tx.nextSeq = expected + UInt64.ofNat k

/-- The Spark answers no more, and nothing lies in the stream that passes for an answer. -/
structure Lost (nocrc : Bool) (n : ℕ) (conn : SparkConn) (p : Peer) : Prop where
  barren : Barren nocrc conn
  peer : p.serving = false ∨ Behind n conn p

/-- A rank is lost, or every connection. -/
structure Spent (nocrc : Bool) (n : ℕ) (s : Cluster) : Prop where
  tcp : s.client.rdmaBody = false
  idle : s.client.inflight = []
  rank : s.client.conns = [] ∨ ∃ (r : ℕ) (conn : SparkConn) (p : Peer),
    s.client.conns[r]? = some conn ∧ s.peers[r]? = some p ∧ Lost nocrc n conn p

/-! ### One Spark -/

section Peer

variable {m : Machine G} {nocrc : Bool} {turns : List Turn} {sending : Option ℕ}
  {bytes : List UInt8} {conn : SparkConn} {p : Peer} {req : RequestFrame}

theorem serve_left (h : p.serving = false) : p.serve m nocrc turns sending bytes = (p, []) := by
  rw [Peer.serve, if_neg (by rw [h]; simp)]

theorem serve_nil : p.serve m nocrc turns sending [] = (p, []) := by
  rw [Peer.serve, if_neg (by simp)]

/-- The bytes of a frame are served. -/
theorem serve_cons (h : p.serving = true) (hrest : p.daemon.transport.stream.rest = [])
    (hb : Produced .none bytes) :
    p.serve m nocrc turns sending bytes =
      (⟨(Daemon.pass m nocrc sending { p.daemon with
          transport := { p.daemon.transport with stream := ⟨bytes, turns⟩ } }).1,
        (Daemon.pass m nocrc sending { p.daemon with
          transport := { p.daemon.transport with stream := ⟨bytes, turns⟩ } }).2.2 = .continued⟩,
        (Daemon.pass m nocrc sending { p.daemon with
          transport := { p.daemon.transport with stream := ⟨bytes, turns⟩ } }).2.1) := by
  have hne : bytes ≠ [] := by
    rintro rfl
    exact absurd hb.headerLen_le (by decide)
  rw [Peer.serve, if_pos ⟨h, hne⟩, hrest, List.nil_append]

/-- A Spark that is behind leaves at the next request. -/
theorem serve_behind {n : ℕ} (hn : n < 2 ^ 64) (h : Behind n conn p)
    (henc : encodeRequestSeq req conn.tx.nextSeq .none nocrc = .ok bytes) :
    ∃ p', p.serve m nocrc turns sending bytes = (p', []) ∧ p'.serving = false := by
  cases hserving : p.serving with
  | false => exact ⟨p, serve_left hserving, hserving⟩
  | true =>
    obtain ⟨expected, k, hrx, hpos, hk, hseq⟩ := h.gap
    have hne : conn.tx.nextSeq ≠ expected := by
      rw [hseq]
      intro heq
      have hzero : UInt64.ofNat k = 0 := by
        have hcancel : expected + UInt64.ofNat k = expected + 0 := by rw [heq, UInt64.add_zero]
        exact (UInt64.add_right_inj expected).mp hcancel
      have hnat := congrArg UInt64.toNat hzero
      rw [UInt64.toNat_ofNat_of_lt' (by rw [UInt64.size]; omega)] at hnat
      exact hpos.ne' hnat
    obtain ⟨d', hpass⟩ := @Daemon.pass_skipped G m { p.daemon with
      transport := { p.daemon.transport with stream := ⟨bytes, turns⟩ } } nocrc sending req bytes
      conn.tx.nextSeq rfl expected hrx hne henc
    rw [serve_cons hserving h.rest (Daemon.produced_request henc), hpass]
    exact ⟨_, rfl, rfl⟩

/-- The Spark has sent its reply to the request, and is in step with the connection that has read it
or has left. -/
def Answered (m : Machine G) (nocrc : Bool) (req : RequestFrame) (conn : SparkConn)
    (y : Peer × List UInt8) : Prop :=
  ∃ ret, m.reply req = .ok ret ∧
    encodeReturnSeq ret conn.rx.expected .none nocrc = .ok y.2 ∧
    (y.1.serving = false ∨ ∀ conn' : SparkConn, conn'.tx = conn.stamped.tx →
      conn'.rx = ⟨.none, conn.rx.expected + 1⟩ → conn'.incoming = [] → InStep m conn' y.1)

/-- The Spark has left without a reply. -/
def Silent (nocrc : Bool) (conn : SparkConn) (y : Peer × List UInt8) : Prop :=
  y.1.serving = false ∧ Barren nocrc { conn with incoming := y.2 }

theorem encodable_withSeq (hreq : req.Encodable) (seq : UInt64) :
    { req with seq := seq }.Encodable :=
  ⟨hreq.rows_ne, hreq.hiddenRows_len, hreq.rowsRoutes, hreq.payload_len, hreq.scales_len,
    hreq.rowBytes_lt, hreq.routeBytes_lt⟩

/-- A frame of which `send` takes all, or that is cut short. -/
theorem silent_send {ret : ReturnFrame} {seq : UInt64} {stamped : List UInt8} {q : Peer}
    (hstamped : encodeReturnSeq ret seq .none nocrc = .ok stamped) {k : ℕ}
    (hq : q.serving = false) :
    stamped.take k = stamped ∨ Silent nocrc conn (q, stamped.take k) := by
  rcases Nat.lt_or_ge k stamped.length with hlt | hge
  · exact .inr ⟨hq, barren_take (Daemon.produced_return hstamped) hlt rfl⟩
  · exact .inl (List.take_of_length_le hge)

/-- A request with a reply is answered with it, unless something fails on the way. -/
theorem serve_reply (h : InStep m conn p) (hreq : req.Encodable) {ret : ReturnFrame}
    (hret : m.reply req = .ok ret)
    (henc : encodeRequestSeq req conn.tx.nextSeq .none nocrc = .ok bytes) :
    (Answered m nocrc req conn (p.serve m nocrc turns sending bytes) ∨
      Silent nocrc conn (p.serve m nocrc turns sending bytes)) ∧
    (.failed ∉ turns → sending = none →
      Answered m nocrc req conn (p.serve m nocrc turns sending bytes) ∧
      (p.serve m nocrc turns sending bytes).1.serving = true) := by
  have hexpected : conn.rx.expected = p.daemon.tx.nextSeq := by rw [h.connRx]
  rw [serve_cons h.serving h.rest (Daemon.produced_request henc)]
  rcases @Daemon.pass_request G m { p.daemon with
      transport := { p.daemon.transport with stream := ⟨bytes, turns⟩ } } nocrc sending req bytes
      conn.tx.nextSeq rfl h.rx henc with ⟨t, ht, hpass⟩ | ⟨hcalm, d', hpass⟩
  · obtain ⟨stamped, cache, hstamped, hanswer, hcached⟩ := @Daemon.answer_reply G m
      { p.daemon with transport := t, rx := ⟨.none, conn.tx.nextSeq + 1⟩ } nocrc sending
      { req with seq := conn.tx.nextSeq } h.cached h.tx (encodable_withSeq hreq _) ret hret
    have hstep : ∀ conn' : SparkConn, conn'.tx = conn.stamped.tx →
        conn'.rx = ⟨.none, conn.rx.expected + 1⟩ → conn'.incoming = [] → InStep m conn'
          ⟨{ p.daemon with
              transport := t
              rx := ⟨.none, conn.tx.nextSeq + 1⟩
              tx := ⟨.none, p.daemon.tx.nextSeq + 1⟩
              deviceCache := cache }, true⟩ := by
      intro conn' htx hrx hin
      refine ⟨rfl, ht, hcached, ?_, ?_, rfl, ?_, hin⟩
      · rw [htx]
        exact h.connTx
      · rw [htx]
        rfl
      · rw [hrx, hexpected]
    rw [hpass, hanswer]
    cases sending with
    | none =>
      have hdone : Answered m nocrc req conn
          (⟨{ p.daemon with
              transport := t
              rx := ⟨.none, conn.tx.nextSeq + 1⟩
              tx := ⟨.none, p.daemon.tx.nextSeq + 1⟩
              deviceCache := cache }, true⟩, stamped) :=
        ⟨ret, hret, by rw [hexpected]; exact hstamped, .inr hstep⟩
      exact ⟨.inl hdone, fun _ _ => ⟨hdone, rfl⟩⟩
    | some k =>
      refine ⟨?_, fun _ hsome => absurd hsome (by simp)⟩
      rcases @silent_send nocrc conn ret p.daemon.tx.nextSeq stamped
        ⟨{ p.daemon with
            transport := t
            rx := ⟨.none, conn.tx.nextSeq + 1⟩
            tx := ⟨.none, p.daemon.tx.nextSeq + 1⟩
            deviceCache := cache }, false⟩ hstamped k rfl with hwhole | hsilent
      · refine .inl ⟨ret, hret, ?_, .inl rfl⟩
        show encodeReturnSeq ret conn.rx.expected .none nocrc = .ok (stamped.take k)
        rw [hwhole, hexpected]
        exact hstamped
      · exact .inr hsilent
  · rw [hpass]
    exact ⟨.inr ⟨rfl, barren_nil rfl⟩, fun hturns => absurd hturns hcalm⟩

/-- A request without a reply costs the connection. -/
theorem serve_refused (h : InStep m conn p) {e : ServeError} (hret : m.reply req = .error e)
    (henc : encodeRequestSeq req conn.tx.nextSeq .none nocrc = .ok bytes) :
    Silent nocrc conn (p.serve m nocrc turns sending bytes) := by
  have hexpected : conn.rx.expected = p.daemon.tx.nextSeq := by rw [h.connRx]
  rw [serve_cons h.serving h.rest (Daemon.produced_request henc)]
  rcases @Daemon.pass_request G m { p.daemon with
      transport := { p.daemon.transport with stream := ⟨bytes, turns⟩ } } nocrc sending req bytes
      conn.tx.nextSeq rfl h.rx henc with ⟨t, ht, hpass⟩ | ⟨-, d', hpass⟩
  · obtain ⟨d', out, hanswer, hout⟩ := @Daemon.answer_refused G m
      { p.daemon with transport := t, rx := ⟨.none, conn.tx.nextSeq + 1⟩ } nocrc sending
      { req with seq := conn.tx.nextSeq } h.cached h.tx e hret
    rw [hpass, hanswer]
    rcases hout with rfl | ⟨stamped, hstamped, rfl⟩
    · exact ⟨rfl, barren_nil rfl⟩
    · have hdec : decodeFrame stamped .none nocrc = .ok (.return
          { errorReturn req with seq := p.daemon.tx.nextSeq }) :=
        decodeFrame_encodeReturnSeq hstamped (.inl (by simp [errorReturn]))
      have hwhole : Barren nocrc { conn with incoming := stamped } :=
        barren_error (Daemon.produced_return hstamped) rfl hdec h.connRx (by simp [errorReturn])
      cases sending with
      | none => exact ⟨rfl, hwhole⟩
      | some k =>
        rcases @silent_send nocrc conn _ _ stamped ⟨d', false⟩ hstamped k rfl with hall | hsilent
        · refine ⟨rfl, ?_⟩
          show Barren nocrc { conn with incoming := stamped.take k }
          rwa [hall]
        · exact hsilent
  · rw [hpass]
    exact ⟨rfl, barren_nil rfl⟩

/-- **One Spark.** -/
theorem serve_cases (h : InStep m conn p) (hreq : req.Encodable)
    (henc : encodeRequestSeq req conn.tx.nextSeq .none nocrc = .ok bytes) :
    Answered m nocrc req conn (p.serve m nocrc turns sending bytes) ∨
      Silent nocrc conn (p.serve m nocrc turns sending bytes) := by
  cases hret : m.reply req with
  | ok ret => exact (serve_reply h hreq hret henc).1
  | error e => exact .inr (serve_refused h hret henc)

end Peer

/-! ### One exchange -/

section Step

variable {F : Type} [Fp32 F] {ms : ℕ → Machine G} {nocrc : Bool} {s : Cluster}
  {op : MoeCall × Weather} {n : ℕ}

/-- Over TCP a send depends on the writes alone. -/
theorem sendLayer_writes {layerId : UInt32} {tokens : ℕ} {hiddenRows : List HiddenRow}
    {routes : List (UInt32 × UInt32)} {topk : ℕ} {io io' : ℕ → Io} {c : WireClient}
    (htcp : c.rdmaBody = false) (hio : ∀ r, (io r).write = (io' r).write) :
    sendLayer layerId tokens hiddenRows routes topk nocrc io c =
      sendLayer layerId tokens hiddenRows routes topk nocrc io' c := by
  have hwrite (encoded : List (List UInt8)) :
      writeRanks tokens encoded io = writeRanks tokens encoded io' := by
    simp only [writeRanks, writeBlocking, hio]
  by_cases hroutes : routes.length = tokens * topk
  · simp only [sendLayer_tcp htcp hroutes, hwrite]
  · rw [sendLayer, sendLayer, decide_eq_false hroutes]
    rfl

/-- What the receive half of an exchange makes of a client that has sent. -/
def receiveHalf (F : Type) [Fp32 F] (ms : ℕ → Machine G) (nocrc : Bool) (s : Cluster)
    (op : MoeCall × Weather) : Client (List F) := do
  deliver (s.io ms nocrc op)
  let sum : CoordinatorSum F ← sumRanks op.1.tokens nocrc (s.io ms nocrc op)
  wireCall sum.result

theorem exchanged_eq (htcp : s.client.rdmaBody = false) (hidle : s.client.inflight = []) :
    s.exchanged ms nocrc F op =
      (sendLayer op.1.layerId op.1.tokens op.1.hiddenRows op.1.routes op.1.topk nocrc
        (fun r => { write := op.2.write r }) >>= fun _ => receiveHalf F ms nocrc s op)
            s.client := by
  rw [Cluster.exchanged, exchange]
  show (check (!s.client.rdmaBody) _ >>= _ : Client (List F)) s.client = _
  rw [htcp]
  show (check s.client.inflight.isEmpty _ >>= _ : Client (List F)) s.client = _
  rw [hidle]
  show EStateM.bind (sendLayer _ _ _ _ _ _ _) _ _ = EStateM.bind _ _ _
  rw [EStateM.bind, EStateM.bind, @sendLayer_writes nocrc _ _ _ _ _ _
    (fun r => { write := op.2.write r }) s.client htcp fun _ => rfl]
  rfl

/-- A send that fails is the whole exchange. -/
theorem exchanged_sendError (htcp : s.client.rdmaBody = false) (hidle : s.client.inflight = [])
    {e : ClientError} {c : WireClient}
    (hsend : sendLayer op.1.layerId op.1.tokens op.1.hiddenRows op.1.routes op.1.topk nocrc
      (fun r => { write := op.2.write r }) s.client = .error e c) :
    s.exchanged ms nocrc F op = .error e c ∧ Cluster.sent nocrc op.1 op.2 s.client = c := by
  rw [exchanged_eq htcp hidle, Cluster.sent, hsend]
  refine ⟨?_, rfl⟩
  show EStateM.bind _ _ _ = _
  rw [EStateM.bind, hsend]

/-- After a send that succeeds the returns are received. -/
theorem exchanged_sendOk (htcp : s.client.rdmaBody = false) (hidle : s.client.inflight = [])
    {requestId : UInt64} {c : WireClient}
    (hsend : sendLayer op.1.layerId op.1.tokens op.1.hiddenRows op.1.routes op.1.topk nocrc
      (fun r => { write := op.2.write r }) s.client = .ok requestId c) :
    s.exchanged ms nocrc F op =
      (sumRanks op.1.tokens nocrc (s.io ms nocrc op) >>= fun sum : CoordinatorSum F =>
        wireCall sum.result) { c with conns := arrivedConns (s.io ms nocrc op) c.conns } ∧
    Cluster.sent nocrc op.1 op.2 s.client = c := by
  rw [exchanged_eq htcp hidle, Cluster.sent, hsend]
  refine ⟨?_, rfl⟩
  show EStateM.bind _ _ _ = _
  rw [EStateM.bind, hsend]
  rfl

theorem getElem?_served (r : ℕ) : (s.served ms nocrc op)[r]? = s.peers[r]?.map fun p =>
    p.serve (ms r) nocrc (op.2.turns r) (op.2.sending r)
      (Cluster.bytesTo s.client (Cluster.sent nocrc op.1 op.2 s.client) r) :=
  List.getElem?_mapIdx

theorem bytesTo_eq {c c' : WireClient} {r : ℕ} {conn : SparkConn} {bytes : List UInt8}
    (h : c.conns[r]? = some conn) (h' : c'.conns[r]? = some (conn.stamped.wrote bytes)) :
    Cluster.bytesTo c c' r = bytes := by
  rw [Cluster.bytesTo, h, h']
  exact List.drop_left

theorem bytesTo_self {c c' : WireClient} {r : ℕ} {conn : SparkConn}
    (h : c.conns[r]? = some conn) (h' : c'.conns[r]? = some conn) :
    Cluster.bytesTo c c' r = [] := by
  rw [Cluster.bytesTo, h, h']
  exact List.drop_length

/-- What a lost rank does when the client has sent: nothing arrives from it. -/
theorem Lost.sent (hw : WritesThrough s op) (hn : n + 1 < 2 ^ 64) {r : ℕ} {conn conn' : SparkConn}
    {p : Peer} (hconn : s.client.conns[r]? = some conn) (hp : s.peers[r]? = some p)
    (h : Lost nocrc n conn p)
    (hconn' : (Cluster.sent nocrc op.1 op.2 s.client).conns[r]? = some conn')
    (hrow : SentRow (op.1.frame s.client.nextRequestId) nocrc
      (fun r => { write := op.2.write r }) r conn conn') :
    ∃ p', (s.served ms nocrc op)[r]? = some (p', []) ∧
      (p'.serving = false ∨ Behind (n + 1) conn' p') := by
  have hserved := @getElem?_served G ms nocrc s op r
  rw [hp, Option.map_some] at hserved
  rcases hrow with rfl | ⟨bytes, rfl, hbytes⟩
  · rw [bytesTo_self hconn hconn', serve_nil] at hserved
    refine ⟨p, hserved, h.peer.imp_right fun hb => ⟨hb.connTx, hb.rest, ?_⟩⟩
    obtain ⟨expected, k, hrx, hpos, hk, hseq⟩ := hb.gap
    exact ⟨expected, k, hrx, hpos, hk.trans n.le_succ, hseq⟩
  rw [bytesTo_eq hconn hconn'] at hserved
  rcases h.peer with hleft | hb
  · rw [serve_left hleft] at hserved
    exact ⟨p, hserved, .inl hleft⟩
  rcases hbytes with rfl | henc | hfail
  · rw [serve_nil] at hserved
    refine ⟨p, hserved, .inr ⟨hb.connTx, hb.rest, ?_⟩⟩
    obtain ⟨expected, k, hrx, hpos, hk, hseq⟩ := hb.gap
    refine ⟨expected, k + 1, hrx, k.succ_pos, Nat.succ_le_succ hk, ?_⟩
    show conn.tx.nextSeq + 1 = _
    rw [hseq, UInt64.ofNat_add, UInt64.add_assoc]
    rfl
  · have henc' : encodeRequestSeq (op.1.frame s.client.nextRequestId r) conn.tx.nextSeq .none
        nocrc =
        .ok bytes := by
      rw [← hb.connTx]
      exact henc
    obtain ⟨p', hserve, hleft⟩ := @serve_behind G (ms r) nocrc (op.2.turns r)
      (op.2.sending r) bytes conn p _ n (by omega) hb henc'
    rw [hserve] at hserved
    exact ⟨p', hserved, .inl hleft⟩
  · have hleft := hw r p hp hfail
    rw [serve_left hleft] at hserved
    exact ⟨p, hserved, .inl hleft⟩

/-- What the send half leaves of a system that is spent. -/
theorem Spent.sent (h : Spent nocrc n s) (hw : WritesThrough s op) (hn : n + 1 < 2 ^ 64)
    {c : WireClient} (hc : Cluster.sent nocrc op.1 op.2 s.client = c) :
    (c.rdmaBody = false ∧ c.inflight = []) ∧
      (c.conns = [] ∨ ∃ (r : ℕ) (conn : SparkConn) (p : Peer), c.conns[r]? = some conn ∧
        (s.served ms nocrc op)[r]? = some (p, []) ∧ Lost nocrc (n + 1) conn p) := by
  have hsend := @sendLayer_sent op.1.layerId op.1.tokens op.1.hiddenRows op.1.routes op.1.topk nocrc
    (fun r => { write := op.2.write r }) s.client h.tcp s.client rfl
  have hrows : (c.rdmaBody = false ∧ c.inflight = s.client.inflight) ∧
      (Rows (SentRow (op.1.frame s.client.nextRequestId) nocrc
        (fun r => { write := op.2.write r })) 0 s.client.conns c.conns ∨ c.conns = []) := by
    rw [← hc, Cluster.sent]
    generalize sendLayer op.1.layerId op.1.tokens op.1.hiddenRows op.1.routes op.1.topk nocrc
      (fun r => { write := op.2.write r }) s.client = y at hsend ⊢
    cases y with
    | ok u c' => exact ⟨hsend.1, .inl hsend.2⟩
    | error e c' => exact hsend
  obtain ⟨⟨htcp, hidle⟩, hrows⟩ := hrows
  refine ⟨⟨htcp, hidle.trans h.idle⟩, ?_⟩
  rcases hrows with hrows | hnil
  swap
  · exact .inl hnil
  rcases h.rank with hnil | ⟨r, conn, p, hconn, hp, hlost⟩
  · refine .inl (List.length_eq_zero_iff.mp ?_)
    rw [hrows.1, hnil]
    rfl
  · obtain ⟨conn', hconn', hrow⟩ := hrows.2 r conn hconn
    rw [Nat.zero_add] at hrow
    subst hc
    obtain ⟨p', hserved, hpeer⟩ := @Lost.sent G ms nocrc s op n hw hn r conn conn' p hconn hp hlost
      hconn' hrow
    refine .inr ⟨r, conn', p', hconn', hserved, hlost.barren.congr ?_, hpeer⟩
    rcases hrow with rfl | ⟨bytes, rfl, -⟩
    · rfl
    · rfl

theorem getElem?_arrivedConns {io : ℕ → Io} {conns : List SparkConn} {r : ℕ} {conn : SparkConn}
    (h : conns[r]? = some conn) : (arrivedConns io conns)[r]? =
      some { conn with incoming := conn.incoming ++ (io r).arrived } := by
  rw [arrivedConns, List.getElem?_mapIdx, h]
  rfl

theorem io_arrived {r : ℕ} {y : Peer × List UInt8} (h : (s.served ms nocrc op)[r]? = some y) :
    (s.io ms nocrc op r).arrived = y.2 := by
  rw [Cluster.io, h]
  rfl

theorem getElem?_peers_step (r : ℕ) : (s.step ms nocrc F op).peers[r]? =
    (s.served ms nocrc op)[r]?.map Prod.fst :=
  List.getElem?_map

/-- The sum without a rank. -/
theorem result_new {tokens : ℕ} {v : List F}
    (h : (CoordinatorSum.new tokens hiddenDim .none : CoordinatorSum F).result = .ok v) :
    tokens = 0 ∧ v = [] := by
  rw [CoordinatorSum.result] at h
  split at h
  · cases h
  · next hcount =>
    have hzero : 0 = tokens * sparks := not_not.mp hcount
    have htokens : tokens = 0 := by
      rw [sparks] at hzero
      omega
    subst htokens
    refine ⟨rfl, (Except.ok.inj h).symm.trans ?_⟩
    show List.replicate (0 * hiddenDim) (Fp32.zero : F) = _
    rw [Nat.zero_mul]
    rfl

/-- **A system that is spent** sums nothing, and is spent afterwards. -/
theorem spent_step (h : Spent nocrc n s) (hw : WritesThrough s op) (hn : n + 1 < 2 ^ 64) :
    (∀ v, s.value ms nocrc F op = .ok v → op.1.tokens = 0 ∧ v = []) ∧
      Spent nocrc (n + 1) (s.step ms nocrc F op) := by
  cases hsend : sendLayer op.1.layerId op.1.tokens op.1.hiddenRows op.1.routes op.1.topk nocrc
    (fun r => { write := op.2.write r }) s.client with
  | error e c =>
    obtain ⟨hex, hsent⟩ := @exchanged_sendError G F _ ms nocrc s op h.tcp h.idle e c hsend
    obtain ⟨⟨htcp, hidle⟩, hrank⟩ := @Spent.sent G ms nocrc s op n h hw hn c hsent
    have hclient : (s.step ms nocrc F op).client = c := by rw [Cluster.step, hex]
    refine ⟨fun v hv => ?_, by rw [hclient]; exact htcp, by rw [hclient]; exact hidle, ?_⟩
    · rw [Cluster.value, hex] at hv
      cases hv
    · rw [hclient]
      refine hrank.imp_right ?_
      rintro ⟨r, conn, p, hconn, hserved, hlost⟩
      exact ⟨r, conn, p, hconn, by rw [getElem?_peers_step, hserved]; rfl, hlost⟩
  | ok requestId c =>
    obtain ⟨hex, hsent⟩ := @exchanged_sendOk G F _ ms nocrc s op h.tcp h.idle requestId c hsend
    obtain ⟨⟨htcp, hidle⟩, hrank⟩ := @Spent.sent G ms nocrc s op n h hw hn c hsent
    rcases hrank with hnil | ⟨r, conn, p, hconn, hserved, hlost⟩
    · have hnone : arrivedConns (s.io ms nocrc op) c.conns = [] := by
        rw [hnil]
        rfl
      have hsum := @sumRanks_nil op.1.tokens nocrc (s.io ms nocrc op) F _
        { c with conns := arrivedConns (s.io ms nocrc op) c.conns } hnone
      have hall : s.exchanged ms nocrc F op =
          wireCall (CoordinatorSum.new op.1.tokens hiddenDim .none : CoordinatorSum F).result
            { c with conns := arrivedConns (s.io ms nocrc op) c.conns } := by
        rw [hex]
        show EStateM.bind _ _ _ = _
        rw [EStateM.bind, hsum]
      have hclient : (s.step ms nocrc F op).client =
          { c with conns := arrivedConns (s.io ms nocrc op) c.conns } := by
        rw [Cluster.step, hall]
        cases (CoordinatorSum.new op.1.tokens hiddenDim .none : CoordinatorSum F).result with
        | ok v => rfl
        | error e => rfl
      refine ⟨fun v hv => result_new ?_, by rw [hclient]; exact htcp, by rw [hclient]; exact hidle,
        .inl (by rw [hclient]; exact hnone)⟩
      rw [Cluster.value, hall] at hv
      generalize (CoordinatorSum.new op.1.tokens hiddenDim .none : CoordinatorSum F).result =
        y at hv ⊢
      cases y with
      | ok u => exact congrArg Except.ok (Except.ok.inj hv)
      | error e => cases hv
    · have harrived := @getElem?_arrivedConns (s.io ms nocrc op) c.conns r conn hconn
      rw [io_arrived hserved] at harrived
      obtain ⟨e, c', hsum, hc', hconns⟩ := @sumRanks_barren op.1.tokens nocrc (s.io ms nocrc op) F _
        { c with conns := arrivedConns (s.io ms nocrc op) c.conns } (fun _ => ⟨rfl, rfl, rfl⟩) r _
        harrived (hlost.barren.congr (by rw [List.append_nil]))
      have hfail : s.exchanged ms nocrc F op = .error e c' := by
        rw [hex]
        show EStateM.bind _ _ _ = _
        rw [EStateM.bind, hsum]
      have hclient : (s.step ms nocrc F op).client = c' := by rw [Cluster.step, hfail]
      refine ⟨fun v hv => ?_, ?_, ?_, ?_⟩
      · rw [Cluster.value, hfail] at hv
        cases hv
      · rw [hclient, hc']
        exact htcp
      · rw [hclient, hc']
        exact hidle
      · rw [hclient]
        refine hconns.imp_right ?_
        rintro ⟨conn', hconn', hbarren, htx⟩
        refine ⟨r, conn', p, hconn', by rw [getElem?_peers_step, hserved]; rfl, hbarren,
          hlost.peer.imp_right fun hb => ⟨by rw [htx]; exact hb.connTx, hb.rest, ?_⟩⟩
        rw [htx]
        exact hb.gap

end Step

/-! ### Requests and replies -/

section Frames

variable {x : MoeCall} {requestId : UInt64} {rank : ℕ}

theorem MoeCall.Fits.encodable (h : x.Fits) : (x.frame requestId rank).Encodable := by
  have hroutes : (x.frame requestId rank).routes.length = x.tokens * x.topk :=
      length_decodeRoutes ..
  have hrows : (x.frame requestId rank).rows.length = x.tokens := length_decodeRows ..
  have hlt : x.tokens * x.topk < 2 ^ 32 := by
    have hbytes := h.routeBytes_lt
    rw [routeEntryLen] at hbytes
    omega
  refine ⟨fun hnil => ?_, h.hiddenRows_len.trans hrows.symm,
    (validateRowsRoutes_decodeRows hlt hroutes).mpr fun e he => ?_,
    fun row hrow => (h.hiddenRow_len row hrow).1, fun row hrow => ?_, ?_, ?_⟩
  · have hpos := h.tokens_pos
    rw [← hrows, hnil] at hpos
    exact absurd hpos (by decide)
  · obtain ⟨t, ht, he⟩ := List.mem_flatMap.mp he
    obtain ⟨k, -, rfl⟩ := List.mem_map.mp he
    have hbytes := h.rowBytes_lt
    rw [rowDescriptorLen] at hbytes
    have htokens := List.mem_range.mp ht
    show (UInt32.ofNat t).toNat < x.tokens
    rwa [UInt32.toNat_ofNat_of_lt' (by rw [UInt32.size]; omega)]
  · rw [(h.hiddenRow_len row hrow).2]
    decide
  · rw [hrows]
    exact h.rowBytes_lt
  · rw [hroutes]
    exact h.routeBytes_lt

/-- The requests to the ranks differ in the rank alone. -/
theorem encodable_rank (h : (x.frame requestId 0).Encodable) : (x.frame requestId rank).Encodable :=
  ⟨h.rows_ne, h.hiddenRows_len, h.rowsRoutes, h.payload_len, h.scales_len, h.rowBytes_lt,
    h.routeBytes_lt⟩

theorem tokens_lt (h : (x.frame requestId rank).Encodable) : x.tokens < 2 ^ 32 := by
  have hlt := h.rows_lt
  rwa [show (x.frame requestId rank).rows.length = x.tokens from length_decodeRows ..] at hlt

theorem reply_frame {m : Machine G} {ret : ReturnFrame}
    (h : (x.frame requestId rank).Encodable) : m.reply (x.frame requestId rank) = .ok ret ↔
      ∃ codes, m.Computes x.layerId x.hiddenRows (decodeRoutes x.routes x.tokens x.topk) x.tokens
          codes ∧
        ret = { returnMeta (x.frame requestId rank) with rows := rowsOfCodes codes x.tokens } := by
  have hrows : (x.frame requestId rank).rows.length = x.tokens := length_decodeRows ..
  rw [reply_eq_ok h.rows_lt, hrows]
  rfl

theorem addressedFrom_map (f : ReturnFrame) (g : ℕ → List UInt16) (k n : ℕ) :
    f.addressedFrom k ((List.range' k n).map fun t => ⟨g t⟩) =
      (List.range' k n).map fun t => ((f.executorId.toNat, f.tokenPosition.toNat + t), g t) := by
  induction n generalizing k with
  | zero => rfl
  | succ n ih =>
    rw [List.range'_succ, List.map_cons, List.map_cons, ReturnFrame.addressedFrom, ih]

/-- The replies of the ranks deliver the rows that their experts compute. -/
theorem delivers_replies {codes : ℕ → List UInt16} {fs : ℕ → ReturnFrame}
    (ht : x.tokens ≤ usizeMax)
    (hlen : ∀ r < sparks, (codes r).length = x.tokens * hiddenDim)
    (hfs : ∀ r < sparks, ∃ seq, fs r = { returnMeta (x.frame requestId r) with
      seq := seq
      rows := rowsOfCodes (codes r) x.tokens }) :
    Delivers x.tokens hiddenDim
      (fun rank token => ((codes rank).drop (token * hiddenDim)).take hiddenDim)
      ((List.range sparks).map fs) := by
  have hexecutor {r : ℕ} (hr : r < sparks) : (UInt64.ofNat r).toNat = r := by
    rw [sparks] at hr
    exact UInt64.toNat_ofNat_of_lt' (by rw [UInt64.size]; omega)
  refine ⟨ht, fun rank hrank token htoken => ?_, fun f hf => ?_, ?_⟩
  · exact length_codes_rowsOfCodes (hlen rank hrank) _
      (List.mem_map.mpr ⟨token, List.mem_range.mpr htoken, rfl⟩)
  · obtain ⟨r, hr, rfl⟩ := List.mem_map.mp hf
    obtain ⟨seq, hseq⟩ := hfs r (List.mem_range.mp hr)
    rw [hseq]
    rfl
  · have hrow : ∀ r ∈ List.range sparks, (fs r).addressed = (List.range x.tokens).map fun t =>
        ((r, t), ((codes r).drop (t * hiddenDim)).take hiddenDim) := by
      intro r hr
      have hlt := List.mem_range.mp hr
      obtain ⟨seq, hseq⟩ := hfs r hlt
      rw [hseq, ReturnFrame.addressed, rowsOfCodes, List.range_eq_range', addressedFrom_map]
      refine List.map_congr_left fun t _ => ?_
      show (((UInt64.ofNat r).toNat, 0 + t), _) = _
      rw [hexecutor hlt, Nat.zero_add]
    rw [List.flatMap_map, List.flatMap_congr hrow]
    refine List.Perm.of_eq ?_
    show _ = ((List.range sparks).flatMap fun r => (List.range x.tokens).map (Prod.mk r)).map _
    rw [List.map_flatMap]
    simp only [List.map_map]
    rfl

end Frames

/-! ### A system in step -/

section Sync

variable {F : Type} [Fp32 F] {ms : ℕ → Machine G} {nocrc : Bool} {s : Cluster}
  {op : MoeCall × Weather}

/-- A rank and its Spark. -/
theorem InSync.rank (h : InSync ms s) {r : ℕ} (hr : r < sparks) : ∃ (conn : SparkConn) (p : Peer),
    s.client.conns[r]? = some conn ∧ s.peers[r]? = some p ∧ InStep (ms r) conn p := by
  have hconn := List.getElem?_eq_getElem (by rwa [h.conns] : r < s.client.conns.length)
  have hp := List.getElem?_eq_getElem (by rwa [h.peers] : r < s.peers.length)
  exact ⟨_, _, hconn, hp, h.inStep r _ _ hconn hp⟩

theorem InSync.conn (h : InSync ms s) {r : ℕ} {conn : SparkConn}
    (hconn : s.client.conns[r]? = some conn) :
    r < sparks ∧ ∃ p, s.peers[r]? = some p ∧ InStep (ms r) conn p := by
  have hlt := (List.getElem?_eq_some_iff.mp hconn).1
  rw [h.conns] at hlt
  obtain ⟨conn', p, hconn', hp, hstep⟩ := h.rank hlt
  obtain rfl := Option.some.inj (hconn.symm.trans hconn')
  exact ⟨hlt, p, hp, hstep⟩

/-- Sparks to which nothing was written are as they were. -/
theorem peers_step_of_idle
    (h : ∀ r, Cluster.bytesTo s.client (Cluster.sent nocrc op.1 op.2 s.client) r = []) :
    (s.step ms nocrc F op).peers = s.peers := by
  refine List.ext_getElem? fun r => ?_
  rw [getElem?_peers_step, getElem?_served, h r]
  cases s.peers[r]? with
  | none => rfl
  | some p => rw [Option.map_some, Option.map_some, serve_nil]

/-- Routes that do not fit the tokens are refused, and nothing happens. -/
theorem inSync_refused (h : InSync ms s) (hroutes : op.1.routes.length ≠ op.1.tokens * op.1.topk) :
    (∃ e, s.value ms nocrc F op = .error e) ∧ InSync ms (s.step ms nocrc F op) := by
  have hsend : sendLayer op.1.layerId op.1.tokens op.1.hiddenRows op.1.routes op.1.topk nocrc
      (fun r => { write := op.2.write r }) s.client =
        .error (.refused "wire: routes for tokens") s.client := by
    rw [sendLayer, decide_eq_false hroutes]
    rfl
  obtain ⟨hex, hsent⟩ := @exchanged_sendError G F _ ms nocrc s op h.tcp h.idle _ _ hsend
  have hclient : (s.step ms nocrc F op).client = s.client := by rw [Cluster.step, hex]
  have hpeers : (s.step ms nocrc F op).peers = s.peers := by
    refine peers_step_of_idle fun r => ?_
    rw [hsent]
    cases hconn : s.client.conns[r]? with
    | none => rw [Cluster.bytesTo, hconn]
    | some conn => exact bytesTo_self hconn hconn
  refine ⟨⟨_, by rw [Cluster.value, hex]⟩, ?_⟩
  have hsame : s.step ms nocrc F op = s := by
    cases s with
    | mk client peers =>
      exact congrArg₂ Cluster.mk hclient hpeers
  rw [hsame]
  exact h

/-- A request that cannot be encoded takes the sequence number of rank 0 with it. -/
theorem inSync_unencodable (h : InSync ms s)
    (hroutes : op.1.routes.length = op.1.tokens * op.1.topk)
    (hnot : ¬ (op.1.frame s.client.nextRequestId 0).Encodable) :
    (∃ e, s.value ms nocrc F op = .error e) ∧ Spent nocrc 1 (s.step ms nocrc F op) := by
  obtain ⟨conn, p, hconn, hp, hstep⟩ := @InSync.rank G ms s h 0 (by decide)
  obtain ⟨rest, hrest⟩ : ∃ rest, s.client.conns = conn :: rest := by
    cases hconns : s.client.conns with
    | nil =>
      rw [hconns] at hconn
      cases hconn
    | cons c rest =>
      rw [hconns] at hconn
      obtain rfl := Option.some.inj hconn
      exact ⟨rest, rfl⟩
  obtain ⟨e, henc⟩ : ∃ e, encodeRequestSeq (op.1.frame s.client.nextRequestId 0) conn.tx.nextSeq
      conn.tx.naive nocrc = .error e := by
    cases hres : encodeRequestSeq (op.1.frame s.client.nextRequestId 0) conn.tx.nextSeq
      conn.tx.naive nocrc with
    | error e => exact ⟨e, rfl⟩
    | ok bytes =>
      rw [hstep.connTx] at hres
      exact absurd (encodeRequestSeq_eq_ok.mp hres).1 hnot
  have hsend : sendLayer op.1.layerId op.1.tokens op.1.hiddenRows op.1.routes op.1.topk nocrc
      (fun r => { write := op.2.write r }) s.client = .error (.wire e)
        { s.client with
          nextRequestId := s.client.nextRequestId + 1
          conns := conn.stamped :: rest } := by
    have hfail : encodeRanks (op.1.frame s.client.nextRequestId) nocrc
        { s.client with nextRequestId := s.client.nextRequestId + 1 } = .error (.wire e)
          { s.client with
            nextRequestId := s.client.nextRequestId + 1
            conns := conn.stamped :: rest } := by
      have hloop : each (encodeRank (op.1.frame s.client.nextRequestId) nocrc) 0 s.client.conns [] =
          .error (.wire e) (conn.stamped :: rest, []) := by
        rw [hrest, each, encodeRank, StreamSender.encodeRequest, henc]
        rfl
      rw [encodeRanks, forConns]
      dsimp only
      rw [hloop]
    rw [sendLayer_tcp h.tcp hroutes]
    show EStateM.bind (encodeRanks (op.1.frame s.client.nextRequestId) nocrc) _ _ = _
    rw [EStateM.bind, hfail]
  obtain ⟨hex, hsent⟩ := @exchanged_sendError G F _ ms nocrc s op h.tcp h.idle _ _ hsend
  have hpeers : (s.step ms nocrc F op).peers = s.peers := by
    refine peers_step_of_idle fun r => ?_
    rw [hsent, Cluster.bytesTo, hrest]
    cases r with
    | zero => exact List.drop_length
    | succ r =>
      simp only [List.getElem?_cons_succ]
      cases rest[r]? with
      | none => rfl
      | some other => exact List.drop_length
  have hclient : (s.step ms nocrc F op).client = { s.client with
      nextRequestId := s.client.nextRequestId + 1
      conns := conn.stamped :: rest } := by
    rw [Cluster.step, hex]
  refine ⟨⟨_, by rw [Cluster.value, hex]⟩, by rw [hclient]; exact h.tcp,
    by rw [hclient]; exact h.idle, .inr ⟨0, conn.stamped, p, by rw [hclient]; rfl, by rwa [hpeers],
      barren_nil hstep.incoming, .inr ⟨hstep.connTx, hstep.rest, conn.tx.nextSeq, 1, hstep.rx,
        Nat.one_pos, le_rfl, rfl⟩⟩⟩

/-- What rank `r` has made of the exchange. -/
def servedBy (ms : ℕ → Machine G) (nocrc : Bool) (op : MoeCall × Weather) (encoded : ℕ → List UInt8)
    (r : ℕ) (p : Peer) : Peer × List UInt8 :=
  p.serve (ms r) nocrc (op.2.turns r) (op.2.sending r) (encoded r)

/-- Every rank was sent its request. -/
structure Requested (ms : ℕ → Machine G) (nocrc : Bool) (s : Cluster) (op : MoeCall × Weather)
    (encoded : ℕ → List UInt8) (c : WireClient) : Prop where
  send : sendLayer op.1.layerId op.1.tokens op.1.hiddenRows op.1.routes op.1.topk nocrc
    (fun r => { write := op.2.write r }) s.client = .ok s.client.nextRequestId c
  tcp : c.rdmaBody = false
  idle : c.inflight = []
  conns : c.conns = s.client.conns.mapIdx fun r conn => conn.stamped.wrote (encoded r)
  frame : ∀ (r : ℕ) (conn : SparkConn), s.client.conns[r]? = some conn →
    encodeRequestSeq (op.1.frame s.client.nextRequestId r) conn.tx.nextSeq .none nocrc =
      .ok (encoded r)
  served : ∀ (r : ℕ) (conn : SparkConn) (p : Peer), s.client.conns[r]? = some conn →
    s.peers[r]? = some p →
      (s.served ms nocrc op)[r]? = some (servedBy ms nocrc op encoded r p)

theorem InSync.requested (h : InSync ms s) (hw : WritesThrough s op)
    (hroutes : op.1.routes.length = op.1.tokens * op.1.topk)
    (hencodable : (op.1.frame s.client.nextRequestId 0).Encodable) :
    ∃ encoded c, Requested ms nocrc s op encoded c := by
  obtain ⟨encoded, hencoded⟩ : ∃ encoded : ℕ → List UInt8, ∀ (r : ℕ) (conn : SparkConn),
      s.client.conns[r]? = some conn → encodeRequestSeq (op.1.frame s.client.nextRequestId r)
        conn.tx.nextSeq .none nocrc = .ok (encoded r) := by
    refine ⟨fun r => (s.client.conns[r]?.map fun conn => sealFrame (writeHeader (requestHeader
      (op.1.frame s.client.nextRequestId r) conn.tx.nextSeq) .none ++ requestBody
        (op.1.frame s.client.nextRequestId r) .none) .none nocrc).getD [], fun r conn hconn => ?_⟩
    simp only [hconn]
    exact encodeRequestSeq_eq_ok.mpr ⟨encodable_rank hencodable, rfl⟩
  have hsend := @sendLayer_eq op.1.layerId op.1.tokens op.1.hiddenRows op.1.routes op.1.topk nocrc
    (fun r => { write := op.2.write r }) s.client h.tcp hroutes encoded
    (fun r conn hconn => by
      obtain ⟨-, p, -, hstep⟩ := h.conn hconn
      show encodeRequestSeq (op.1.frame s.client.nextRequestId r) conn.tx.nextSeq conn.tx.naive
        nocrc = _
      rw [hstep.connTx]
      exact hencoded r conn hconn)
    (fun r hr => by
      obtain ⟨-, p, hp, hstep⟩ := h.conn (List.getElem?_eq_getElem hr)
      by_contra hwrite
      have hleft := hw r p hp hwrite
      rw [hstep.serving] at hleft
      cases hleft)
  refine ⟨encoded, _, hsend, h.tcp, h.idle, rfl, hencoded, fun r conn p hconn hp => ?_⟩
  have hsent := (@exchanged_sendOk G FloatTerm _ ms nocrc s op h.tcp h.idle _ _ hsend).2
  rw [getElem?_served, hp, hsent, Option.map_some]
  rw [@bytesTo_eq s.client _ r conn (encoded r) hconn
    (by rw [List.getElem?_mapIdx, hconn, Option.map_some])]
  rfl

/-- What lies in the stream of a rank that was sent its request. -/
theorem Requested.arrived {encoded : ℕ → List UInt8} {c : WireClient}
    (hreq : Requested ms nocrc s op encoded c) {r : ℕ} {conn : SparkConn} {p : Peer}
    (hconn : s.client.conns[r]? = some conn) (hp : s.peers[r]? = some p)
    (hstep : InStep (ms r) conn p) :
    (arrivedConns (s.io ms nocrc op) c.conns)[r]? = some { conn.stamped.wrote (encoded r) with
      incoming := (servedBy ms nocrc op encoded r p).2 } := by
  have hat : c.conns[r]? = some (conn.stamped.wrote (encoded r)) := by
    rw [hreq.conns, List.getElem?_mapIdx, hconn]
    rfl
  have harrived := @getElem?_arrivedConns (s.io ms nocrc op) c.conns r _ hat
  have hincoming : (conn.stamped.wrote (encoded r)).incoming = [] := hstep.incoming
  rw [harrived, io_arrived (hreq.served r conn p hconn hp), hincoming, List.nil_append]

/-- A silent rank fails the exchange and is lost. -/
theorem Requested.silent {encoded : ℕ → List UInt8} {c : WireClient} (h : InSync ms s)
    (hreq : Requested ms nocrc s op encoded c) {r : ℕ} {conn : SparkConn} {p : Peer}
    (hconn : s.client.conns[r]? = some conn) (hp : s.peers[r]? = some p)
    (hsilent : Silent nocrc conn (servedBy ms nocrc op encoded r p)) :
    (∃ e, s.value ms nocrc F op = .error e) ∧ Spent nocrc 1 (s.step ms nocrc F op) := by
  have hstep := h.inStep r conn p hconn hp
  obtain ⟨e, c', hsum, hc', hconns⟩ := @sumRanks_barren op.1.tokens nocrc (s.io ms nocrc op) F _
    { c with conns := arrivedConns (s.io ms nocrc op) c.conns } (fun _ => ⟨rfl, rfl, rfl⟩) r _
    (hreq.arrived hconn hp hstep) (hsilent.2.congr rfl)
  have hfail : s.exchanged ms nocrc F op = .error e c' := by
    rw [(@exchanged_sendOk G F _ ms nocrc s op h.tcp h.idle _ _ hreq.send).1]
    show EStateM.bind _ _ _ = _
    rw [EStateM.bind, hsum]
  have hclient : (s.step ms nocrc F op).client = c' := by rw [Cluster.step, hfail]
  refine ⟨⟨e, by rw [Cluster.value, hfail]⟩, ?_, ?_, ?_⟩
  · rw [hclient, hc']
    exact hreq.tcp
  · rw [hclient, hc']
    exact hreq.idle
  · rw [hclient]
    refine hconns.imp_right ?_
    rintro ⟨conn', hconn', hbarren, -⟩
    refine ⟨r, conn', _, hconn', ?_, hbarren, .inl hsilent.1⟩
    rw [getElem?_peers_step, hreq.served r conn p hconn hp]
    rfl

/-- A receive from a connection that its Spark has answered. -/
theorem Answered.recv {m : Machine G} {conn : SparkConn} {p : Peer} {requestId : UInt64} {r : ℕ}
    {y : Peer × List UInt8} {x : Io} {bytes : List UInt8} (hstep : InStep m conn p)
    (hencodable : (op.1.frame requestId r).Encodable)
    (h : Answered m nocrc (op.1.frame requestId r) conn y) (hx : x.Reads) :
    ∃ codes, m.Computes op.1.layerId op.1.hiddenRows
        (decodeRoutes op.1.routes op.1.tokens op.1.topk) op.1.tokens codes ∧
      recvFrameBlocking nocrc x { conn.stamped.wrote bytes with incoming := y.2 } =
        .ok { returnMeta (op.1.frame requestId r) with
          seq := conn.rx.expected
          rows := rowsOfCodes codes op.1.tokens }
        { conn.stamped.wrote bytes with incoming := [], rx := ⟨.none, conn.rx.expected + 1⟩ } := by
  obtain ⟨ret, hret, hstamped, -⟩ := h
  obtain ⟨codes, hcodes, rfl⟩ := (reply_frame hencodable).mp hret
  have hdec := decodeFrame_encodeReturnSeq hstamped (.inr (UInt32.and_self ..))
  have hrx : ({ conn.stamped.wrote bytes with incoming := y.2 } : SparkConn).rx =
      ⟨.none, conn.rx.expected⟩ := by
    show conn.rx = _
    rw [hstep.connRx]
  exact ⟨codes, hcodes, recvFrameBlocking_eq hx (Daemon.produced_return hstamped) rfl hdec hrx⟩

/-- What is received from rank `r`. -/
theorem Requested.recv {encoded : ℕ → List UInt8} {c : WireClient} (h : InSync ms s)
    (hreq : Requested ms nocrc s op encoded c)
    (hencodable : (op.1.frame s.client.nextRequestId 0).Encodable)
    (hall : ∀ (r : ℕ) (conn : SparkConn) (p : Peer), s.client.conns[r]? = some conn →
      s.peers[r]? = some p → Answered (ms r) nocrc (op.1.frame s.client.nextRequestId r) conn
        (servedBy ms nocrc op encoded r p)) (r : ℕ) :
    ∃ codes f, r < sparks → (ms r).Computes op.1.layerId op.1.hiddenRows
        (decodeRoutes op.1.routes op.1.tokens op.1.topk) op.1.tokens codes ∧
      (∃ seq, f = { returnMeta (op.1.frame s.client.nextRequestId r) with
        seq := seq
        rows := rowsOfCodes codes op.1.tokens }) ∧
      ∀ conn', (arrivedConns (s.io ms nocrc op) c.conns)[r]? = some conn' →
        recvFrameBlocking nocrc (s.io ms nocrc op r) conn' =
          .ok f { conn' with incoming := [], rx := ⟨.none, conn'.rx.expected + 1⟩ } := by
  by_cases hr : r < sparks
  · obtain ⟨conn, p, hconn, hp, hstep⟩ := h.rank hr
    obtain ⟨codes, hcodes, hrecv⟩ := @Answered.recv G nocrc op (ms r) conn p _ r _ _ (encoded r)
      hstep (encodable_rank hencodable) (hall r conn p hconn hp)
      (⟨rfl, rfl, rfl⟩ : (s.io ms nocrc op r).Reads)
    refine ⟨codes, { returnMeta (op.1.frame s.client.nextRequestId r) with
      seq := conn.rx.expected
      rows := rowsOfCodes codes op.1.tokens }, fun _ => ⟨hcodes, ⟨conn.rx.expected, rfl⟩, ?_⟩⟩
    intro conn' hconn'
    rw [hreq.arrived hconn hp hstep] at hconn'
    obtain rfl := Option.some.inj hconn'
    exact hrecv
  · exact ⟨[], errorReturn (op.1.frame 0 0), fun hlt => absurd hlt hr⟩

/-- Ranks that all answer are summed. -/
theorem Requested.answered {encoded : ℕ → List UInt8} {c : WireClient} (h : InSync ms s)
    (hreq : Requested ms nocrc s op encoded c)
    (hencodable : (op.1.frame s.client.nextRequestId 0).Encodable)
    (hall : ∀ (r : ℕ) (conn : SparkConn) (p : Peer), s.client.conns[r]? = some conn →
      s.peers[r]? = some p → Answered (ms r) nocrc (op.1.frame s.client.nextRequestId r) conn
        (servedBy ms nocrc op encoded r p)) :
    ∃ v, s.exchanged ms nocrc F op = .ok v { c with
        conns := (arrivedConns (s.io ms nocrc op) c.conns).mapIdx fun _ conn =>
          { conn with incoming := [], rx := ⟨.none, conn.rx.expected + 1⟩ } } ∧
      MoeSum ms op.1 v := by
  choose codes fs hrecv using hreq.recv h hencodable hall
  have hlen : (arrivedConns (s.io ms nocrc op) c.conns).length = sparks := by
    rw [arrivedConns, List.length_mapIdx, hreq.conns, List.length_mapIdx, h.conns]
  have hdelivers : Delivers op.1.tokens hiddenDim
      (fun rank token => ((codes rank).drop (token * hiddenDim)).take hiddenDim)
      ((List.range sparks).map fs) :=
    delivers_replies ((tokens_lt hencodable).le.trans (by decide))
      (fun r hr => (hrecv r hr).1.codes_len) fun r hr => (hrecv r hr).2.1
  have hexecutor (r : ℕ) (hr : r < sparks) : (fs r).executorId.toNat = r := by
    obtain ⟨seq, hseq⟩ := (hrecv r hr).2.1
    rw [hseq]
    rw [sparks] at hr
    exact UInt64.toNat_ofNat_of_lt' (by rw [UInt64.size]; omega)
  have hsum := @sumRanks_eq op.1.tokens nocrc (s.io ms nocrc op) F _
    { c with conns := arrivedConns (s.io ms nocrc op) c.conns } fs _
    (fun r conn hconn => (hrecv r ((List.getElem?_eq_some_iff.mp hconn).1.trans_eq hlen)).2.2 conn
      hconn)
    fun r hr => addReturn_fedBy hdelivers hexecutor (hr.trans_eq hlen)
  have hresult : (fedBy op.1.tokens fs (arrivedConns (s.io ms nocrc op) c.conns).length :
      CoordinatorSum F).result = .ok (CoordinatorSum.rankOrderSum op.1.tokens hiddenDim
        fun rank token => ((codes rank).drop (token * hiddenDim)).take hiddenDim) := by
    rw [hlen]
    exact CoordinatorSum.result_feed_of_delivers hdelivers
  refine ⟨_, ?_, _, fun rank hrank token _ => ⟨codes rank, (hrecv rank hrank).1, rfl⟩, rfl⟩
  rw [(@exchanged_sendOk G F _ ms nocrc s op h.tcp h.idle _ _ hreq.send).1]
  show EStateM.bind _ _ _ = _
  rw [EStateM.bind, hsum]
  show wireCall (fedBy op.1.tokens fs _ : CoordinatorSum F).result _ = _
  rw [hresult]
  rfl

/-- What ranks that all answer leave: every rank in step, or one that has left. -/
theorem Requested.after {encoded : ℕ → List UInt8} {c : WireClient} (h : InSync ms s)
    (hreq : Requested ms nocrc s op encoded c) {v : List F}
    (hex : s.exchanged ms nocrc F op = .ok v { c with
      conns := (arrivedConns (s.io ms nocrc op) c.conns).mapIdx fun _ conn =>
        { conn with incoming := [], rx := ⟨.none, conn.rx.expected + 1⟩ } })
    (hall : ∀ (r : ℕ) (conn : SparkConn) (p : Peer), s.client.conns[r]? = some conn →
      s.peers[r]? = some p → Answered (ms r) nocrc (op.1.frame s.client.nextRequestId r) conn
        (servedBy ms nocrc op encoded r p)) :
    (InSync ms (s.step ms nocrc F op) ∨ Spent nocrc 1 (s.step ms nocrc F op)) ∧
    ((∀ r p, s.peers[r]? = some p → (servedBy ms nocrc op encoded r p).1.serving = true) →
      InSync ms (s.step ms nocrc F op)) := by
  have hclient : (s.step ms nocrc F op).client = { c with
      conns := (arrivedConns (s.io ms nocrc op) c.conns).mapIdx fun _ conn =>
        { conn with incoming := [], rx := ⟨.none, conn.rx.expected + 1⟩ } } := by
    rw [Cluster.step, hex]
  have hconn' {r : ℕ} {conn : SparkConn} {p : Peer} (hconn : s.client.conns[r]? = some conn)
      (hp : s.peers[r]? = some p) : (s.step ms nocrc F op).client.conns[r]? =
        some { conn.stamped.wrote (encoded r) with
          incoming := []
          rx := ⟨.none, conn.rx.expected + 1⟩ } := by
    rw [hclient]
    show (List.mapIdx _ _)[r]? = _
    rw [List.getElem?_mapIdx, hreq.arrived hconn hp (h.inStep r conn p hconn hp)]
    rfl
  have hpeer {r : ℕ} {conn : SparkConn} {p : Peer} (hconn : s.client.conns[r]? = some conn)
      (hp : s.peers[r]? = some p) :
      (s.step ms nocrc F op).peers[r]? = some (servedBy ms nocrc op encoded r p).1 := by
    rw [getElem?_peers_step, hreq.served r conn p hconn hp]
    rfl
  have hsync (hserving : ∀ r p, s.peers[r]? = some p →
      (servedBy ms nocrc op encoded r p).1.serving = true) : InSync ms (s.step ms nocrc F op) := by
    refine ⟨by rw [hclient]; exact hreq.tcp, by rw [hclient]; exact hreq.idle, ?_, ?_, ?_⟩
    · rw [hclient]
      show (List.mapIdx _ _).length = _
      rw [List.length_mapIdx, arrivedConns, List.length_mapIdx, hreq.conns, List.length_mapIdx,
        h.conns]
    · rw [Cluster.step]
      show (List.map _ _).length = _
      rw [List.length_map, Cluster.served, List.length_mapIdx, h.peers]
    · intro r conn₁ p₁ hconn₁ hp₁
      have hr : r < sparks := by
        have hlt := (List.getElem?_eq_some_iff.mp hp₁).1
        rwa [Cluster.step, List.length_map, Cluster.served, List.length_mapIdx, h.peers] at hlt
      obtain ⟨conn, p, hconn, hp, hstep⟩ := h.rank hr
      rw [hconn' hconn hp] at hconn₁
      rw [hpeer hconn hp] at hp₁
      obtain rfl := Option.some.inj hconn₁
      obtain rfl := Option.some.inj hp₁
      obtain ⟨-, -, -, hleft | hkept⟩ := hall r conn p hconn hp
      · rw [hserving r p hp] at hleft
        cases hleft
      · exact hkept _ rfl rfl rfl
  refine ⟨?_, hsync⟩
  by_cases hserving : ∀ r p, s.peers[r]? = some p →
    (servedBy ms nocrc op encoded r p).1.serving = true
  · exact .inl (hsync hserving)
  push Not at hserving
  obtain ⟨r, p, hp, hleft⟩ := hserving
  have hr := (List.getElem?_eq_some_iff.mp hp).1
  rw [h.peers] at hr
  obtain ⟨conn, p', hconn, hp', -⟩ := h.rank hr
  obtain rfl := Option.some.inj (hp.symm.trans hp')
  exact .inr ⟨by rw [hclient]; exact hreq.tcp, by rw [hclient]; exact hreq.idle,
    .inr ⟨r, _, _, hconn' hconn hp, hpeer hconn hp, barren_nil rfl,
      .inl (Bool.not_eq_true _ ▸ hleft)⟩⟩

/-- **An exchange of a system in step** returns its own sum or fails, and leaves every rank in step
or one that answers no more. -/
theorem inSync_step (h : InSync ms s) (hw : WritesThrough s op) :
    (∀ v, s.value ms nocrc F op = .ok v → MoeSum ms op.1 v) ∧
      (InSync ms (s.step ms nocrc F op) ∨ Spent nocrc 1 (s.step ms nocrc F op)) := by
  have hnone {v : List F} (hfail : ∃ e, s.value ms nocrc F op = .error e)
      (hv : s.value ms nocrc F op = .ok v) : MoeSum ms op.1 v := by
    obtain ⟨e, he⟩ := hfail
    rw [he] at hv
    cases hv
  by_cases hroutes : op.1.routes.length = op.1.tokens * op.1.topk
  swap
  · obtain ⟨hfail, hafter⟩ := @inSync_refused G F _ ms nocrc s op h hroutes
    exact ⟨fun v => hnone hfail, .inl hafter⟩
  by_cases hencodable : (op.1.frame s.client.nextRequestId 0).Encodable
  swap
  · obtain ⟨hfail, hafter⟩ := @inSync_unencodable G F _ ms nocrc s op h hroutes hencodable
    exact ⟨fun v => hnone hfail, .inr hafter⟩
  obtain ⟨encoded, c, hreq⟩ := @InSync.requested G ms nocrc s op h hw hroutes hencodable
  have hcases (r : ℕ) (conn : SparkConn) (p : Peer) (hconn : s.client.conns[r]? = some conn)
      (hp : s.peers[r]? = some p) :=
    @serve_cases G (ms r) nocrc (op.2.turns r) (op.2.sending r) _ conn p _
      (h.inStep r conn p hconn hp) (encodable_rank hencodable) (hreq.frame r conn hconn)
  by_cases hall : ∀ (r : ℕ) (conn : SparkConn) (p : Peer), s.client.conns[r]? = some conn →
    s.peers[r]? = some p → Answered (ms r) nocrc (op.1.frame s.client.nextRequestId r) conn
      (servedBy ms nocrc op encoded r p)
  · obtain ⟨v, hex, hsum⟩ :=
      @Requested.answered G F _ ms nocrc s op encoded c h hreq hencodable hall
    refine ⟨fun u hu => ?_, (hreq.after h hex hall).1⟩
    rw [Cluster.value, hex] at hu
    exact Except.ok.inj hu ▸ hsum
  · push Not at hall
    obtain ⟨r, conn, p, hconn, hp, hnot⟩ := hall
    obtain ⟨hfail, hafter⟩ :=
      @Requested.silent G F _ ms nocrc s op encoded c h hreq r conn p hconn hp
      ((hcases r conn p hconn hp).resolve_left hnot)
    exact ⟨fun v => hnone hfail, .inr hafter⟩

/-- **Nothing fails**: the sum is returned, and every rank stays in step. -/
theorem inSync_served (h : InSync ms s) (hserved : Served ms op) (hw : WritesThrough s op) :
    (∃ v, s.value ms nocrc F op = .ok v ∧ MoeSum ms op.1 v) ∧
      InSync ms (s.step ms nocrc F op) := by
  have hencodable := @MoeCall.Fits.encodable op.1 s.client.nextRequestId 0 hserved.fits
  obtain ⟨encoded, c, hreq⟩ :=
    @InSync.requested G ms nocrc s op h hw hserved.fits.routes_len hencodable
  have hanswered {r : ℕ} {conn : SparkConn} {p : Peer} (hconn : s.client.conns[r]? = some conn)
      (hp : s.peers[r]? = some p) :
      Answered (ms r) nocrc (op.1.frame s.client.nextRequestId r) conn
          (servedBy ms nocrc op encoded r p) ∧
        (servedBy ms nocrc op encoded r p).1.serving = true := by
    obtain ⟨codes, hcodes⟩ := hserved.computes r (h.conn hconn).1
    have hreply := (@reply_frame G op.1 s.client.nextRequestId r (ms r) _
      (encodable_rank hencodable)).mpr ⟨codes, hcodes, rfl⟩
    exact (serve_reply (h.inStep r conn p hconn hp) (encodable_rank hencodable) hreply
      (hreq.frame r conn hconn)).2 (hserved.calm r) (hserved.sending r)
  obtain ⟨v, hex, hsum⟩ := @Requested.answered G F _ ms nocrc s op encoded c h hreq hencodable
    fun r conn p hconn hp => (hanswered hconn hp).1
  refine ⟨⟨v, by rw [Cluster.value, hex], hsum⟩,
    (hreq.after h hex fun r conn p hconn hp => (hanswered hconn hp).1).2 fun r p hp => ?_⟩
  have hr := (List.getElem?_eq_some_iff.mp hp).1
  rw [h.peers] at hr
  obtain ⟨conn, -, hconn, -, -⟩ := h.rank hr
  exact (hanswered hconn hp).2

end Sync

/-! ### Runs -/

section Run

variable {F : Type} [Fp32 F] {ms : ℕ → Machine G} {nocrc : Bool}

/-- A system just connected is in step. -/
theorem inSync_connect {caches : ℕ → ℕ → Option (List UInt8)}
    (hcaches : ∀ rank, (Daemon.accepted ⟨[], []⟩ (caches rank)).Cached (ms rank)) :
    InSync ms (.connect caches) := by
  refine ⟨rfl, rfl, rfl, rfl, fun r conn p hconn hp => ?_⟩
  have hconns : (Cluster.connect caches).client.conns =
      (List.range sparks).map fun rank => .connect rank false := rfl
  rw [hconns, List.getElem?_map] at hconn
  rw [Cluster.connect, List.getElem?_map] at hp
  obtain ⟨rank, hrank, rfl⟩ := Option.map_eq_some_iff.mp hconn
  rw [hrank] at hp
  obtain rfl := Option.some.inj hp
  rw [List.getElem?_range (by
    have hlt := (List.getElem?_eq_some_iff.mp hrank).1
    rwa [List.length_range] at hlt)] at hrank
  obtain rfl := Option.some.inj hrank
  exact ⟨rfl, rfl, hcaches r, rfl, rfl, rfl, rfl, rfl⟩

/-- An exchange returns its own sum or fails. -/
def OwnSum (F : Type) [Fp32 F] (ms : ℕ → Machine G) (nocrc : Bool) (s : Cluster)
    (op : MoeCall × Weather) : Prop :=
  ∀ v, s.value ms nocrc F op = .ok v → MoeSum ms op.1 v

/-- An exchange returns its own sum. -/
def Returned (F : Type) [Fp32 F] (ms : ℕ → Machine G) (nocrc : Bool) (s : Cluster)
    (op : MoeCall × Weather) : Prop :=
  ∃ v, s.value ms nocrc F op = .ok v ∧ MoeSum ms op.1 v

/-- The sum over no token. -/
theorem moeSum_nil {x : MoeCall} (h : x.tokens = 0) : MoeSum ms x ([] : List F) := by
  refine ⟨fun _ _ => [], fun rank _ token htoken => ?_, ?_⟩
  · rw [h] at htoken
    exact absurd htoken (Nat.not_lt_zero token)
  · rw [h]
    rfl

theorem ownSum_run {s : Cluster} {n : ℕ} {ops : List (MoeCall × Weather)}
    (h : InSync ms s ∨ Spent nocrc n s) (hn : n + ops.length < 2 ^ 64)
    (hops : Along (fun s op => s.step ms nocrc F op) WritesThrough s ops) :
    Along (fun s op => s.step ms nocrc F op) (OwnSum F ms nocrc) s ops := by
  induction ops generalizing s n with
  | nil => trivial
  | cons op ops ih =>
    rw [List.length_cons] at hn
    rcases h with hsync | hspent
    · obtain ⟨hexact, hafter⟩ := @inSync_step G F _ ms nocrc s op hsync hops.1
      exact ⟨hexact, @ih _ 1 hafter (by omega) hops.2⟩
    · obtain ⟨hnone, hafter⟩ := @spent_step G F _ ms nocrc s op n hspent hops.1 (by omega)
      refine ⟨fun v hv => ?_, @ih _ (n + 1) (.inr hafter) (by omega) hops.2⟩
      obtain ⟨htokens, rfl⟩ := hnone v hv
      exact moeSum_nil htokens

theorem returned_run {s : Cluster} {ops : List (MoeCall × Weather)} (h : InSync ms s)
    (hserved : ∀ op ∈ ops, Served ms op)
    (hops : Along (fun s op => s.step ms nocrc F op) WritesThrough s ops) :
    Along (fun s op => s.step ms nocrc F op) (Returned F ms nocrc) s ops := by
  induction ops generalizing s with
  | nil => trivial
  | cons op ops ih =>
    obtain ⟨hop, hrest⟩ := List.forall_mem_cons.mp hserved
    obtain ⟨hsum, hafter⟩ := @inSync_served G F _ ms nocrc s op h hop hops.1
    exact ⟨hsum, ih hafter hrest hops.2⟩

/-- **The exchanges of a connection.** Whatever the Sparks' reads, machines and sends meet, an
exchange returns the sum of what the experts compute for its own batch or fails; and it returns it
in every run in which nothing fails. -/
theorem exchanges_exact (F : Type) [Fp32 F] (ms : ℕ → Machine G) (nocrc : Bool)
    {caches : ℕ → ℕ → Option (List UInt8)}
    (hcaches : ∀ rank, (Daemon.accepted ⟨[], []⟩ (caches rank)).Cached (ms rank))
    {ops : List (MoeCall × Weather)} (hlen : ops.length < 2 ^ 64)
    (hops : Along (fun s op => s.step ms nocrc F op) WritesThrough (.connect caches) ops) :
    Along (fun s op => s.step ms nocrc F op) (OwnSum F ms nocrc) (.connect caches) ops ∧
    ((∀ op ∈ ops, Served ms op) →
      Along (fun s op => s.step ms nocrc F op) (Returned F ms nocrc) (.connect caches) ops) :=
  ⟨ownSum_run (n := 0) (.inl (inSync_connect hcaches)) (by rwa [Nat.zero_add]) hops,
    fun hserved => returned_run (inSync_connect hcaches) hserved hops⟩

theorem getElem?_decodeRoutes {routes : List (UInt32 × UInt32)} {tokens topk t k : ℕ}
    (ht : t < tokens) (hk : k < topk) : (decodeRoutes routes tokens topk)[t * topk + k]? =
      some ⟨UInt32.ofNat t, (routes.getD (t * topk + k) (0, 0)).1,
        (routes.getD (t * topk + k) (0, 0)).2⟩ := by
  rw [decodeRoutes, Grid.getElem?_flatMap_range
    (fun t _ => by rw [List.length_map, List.length_range]) ht hk, List.getElem?_map,
    List.getElem?_range hk]
  rfl

/-- Eight routes a token make a plan. -/
theorem fromRoutes_decodeRoutes {routes : List (UInt32 × UInt32)} {tokens : ℕ}
    (ht : tokens < 2 ^ 32) : ∃ rp, fromRoutes (decodeRoutes routes tokens 8) tokens = .ok rp := by
  refine exists_fromRoutes (length_decodeRoutes ..) fun slot route hroute => ?_
  have hslot := (List.getElem?_eq_some_iff.mp hroute).1
  rw [length_decodeRoutes] at hslot
  have hat := @getElem?_decodeRoutes routes tokens 8 (slot / 8) (slot % 8) (by omega)
    (Nat.mod_lt slot (by decide))
  rw [Nat.div_add_mod', hroute] at hat
  obtain rfl := Option.some.inj hat
  exact UInt32.toNat_ofNat_of_lt' (by rw [UInt32.size]; omega)

/-- A rank whose experts make ones of everything. -/
def onesMachine (r : Resident) : Machine Unit where
  resident := r
  cell _ _ := ()
  ffn _ hidden _ := .ok (List.replicate hidden.length 0x3F80)

/-- Two tokens for layer 1, all their routes to expert 3. -/
def onesCall : MoeCall where
  layerId := 1
  tokens := 2
  hiddenRows := List.replicate 2 ⟨List.replicate hiddenDim 0, List.replicate scaleLen 0⟩
  routes := List.replicate 16 (3, 0x3E000000)
  topk := 8

def calmWeather : Weather := ⟨fun _ => none, fun _ => [], fun _ => none⟩

theorem onesCall_fits : onesCall.Fits := by
  refine ⟨by decide, by decide, by decide, by decide, List.length_replicate, fun row hrow => ?_⟩
  rw [List.eq_of_mem_replicate hrow]
  exact ⟨List.length_replicate, List.length_replicate⟩

theorem onesCall_computes {r : Resident} {image : List UInt8}
    (himage : r.groupedImage 1 Repack.expertsPerLayer = .ok image) :
    (onesMachine r).Computes onesCall.layerId onesCall.hiddenRows
      (decodeRoutes onesCall.routes onesCall.tokens onesCall.topk) onesCall.tokens
      (List.replicate (2 * hiddenDim) 0x3F80) := by
  obtain ⟨rp, hrp⟩ := @fromRoutes_decodeRoutes onesCall.routes 2 (by decide)
  obtain ⟨row, hrow⟩ : ∃ row, decodeHidden (onesMachine r).cell (List.replicate hiddenDim 0)
      (List.replicate scaleLen 0) = .ok row :=
    ⟨_, decodeHidden_eq_ok.mpr ⟨List.length_replicate, List.length_replicate, rfl⟩⟩
  have hhidden : (onesCall.hiddenRows.mapM fun h =>
      decodeHidden (onesMachine r).cell h.payload h.scales) = .ok [row, row] := by
    show ([_, _] : List HiddenRow).mapM _ = _
    simp only [List.mapM_cons, List.mapM_nil, hrow]
    rfl
  refine ⟨by decide, List.length_replicate, List.length_replicate, image, [row, row], rp, himage,
    hhidden, hrp, ?_⟩
  show Except.ok (List.replicate [row, row].flatten.length 0x3F80) = _
  rw [List.flatten_cons, List.flatten_cons, List.flatten_nil, List.append_nil, List.length_append,
    length_decodeHidden hrow, Nat.two_mul]

/-- Two exchanges with four Sparks that make ones of everything. -/
theorem exchanges_exact_ones : ∃ r : Resident, Along
    (fun s op => s.step (fun _ => onesMachine r) false FloatTerm op)
    (Returned FloatTerm (fun _ => onesMachine r) false) (.connect fun _ _ => none)
    [(onesCall, calmWeather), (onesCall, calmWeather)] := by
  obtain ⟨-, r, image, -, -, himage⟩ := @demoDir_passes id fun e he => ⟨e, he, rfl⟩
  have hserved : Served (fun _ => onesMachine r) (onesCall, calmWeather) :=
    ⟨onesCall_fits, fun _ _ => ⟨_, onesCall_computes himage⟩, fun _ => List.not_mem_nil,
      fun _ => rfl⟩
  have hwrites (s : Cluster) : WritesThrough s (onesCall, calmWeather) :=
    fun _ _ _ hne => absurd rfl hne
  refine ⟨r, (@exchanges_exact Unit FloatTerm _ (fun _ => onesMachine r) false (fun _ _ => none)
    (fun _ _ _ h => by cases h) [(onesCall, calmWeather), (onesCall, calmWeather)] (by decide)
    ⟨hwrites _, hwrites _, trivial⟩).2 fun op hop => ?_⟩
  rw [@List.eq_of_mem_replicate _ (onesCall, calmWeather) op 2 hop]
  exact hserved

end Run

end Coordinator

end Mimo26

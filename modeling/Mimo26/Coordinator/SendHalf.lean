import Mathlib.Data.Nat.Bitwise
import Mimo26.Coordinator.WireClientRules
import Mimo26.Library.Runs

/-!
# The double-buffered request body

The client builds each RDMA request in one of two halves of a shared body and posts it without
waiting. Before it takes a half again it reaps completions until every rank has at most one send
outstanding, which is enough as long as the newest send of a rank is not in that half.

It is not, because each claim toggles the half and each send posts it. A send that fails after its
claim has toggled posts nothing: the next claim returns the half of the newest posted send, and
that one may still be outstanding.

## Main definitions

* `ClientOp` — the calls of a run, and the completions in between
* `Posts` — nothing fails between the claim of a send and its last post
* `ClaimSafe` — no claim returns a half some rank's queue still reads
* `Alternating` — the invariant

## Main results

* `Alternating.step`, `alternating_run` — kept by every send that posts or finds the queues idle
* `claimSafe_run` — so every claim of such a run is safe
* `not_claimSafe_failedFill` — a failing fill breaks it
-/

namespace Mimo26

namespace Coordinator

open Wire Fallible Runs

/-! ### Runs of the client -/

/-- A call of the client, or a completion in the hardware. -/
inductive ClientOp where
  /-- The oldest uncompleted send of a rank completes. -/
  | complete (rank : ℕ)
  | sendRaw (layerId : UInt32) (payload scales : List UInt8) (routes : List (UInt32 × UInt32))
      (topk : ℕ) (nocrc : Bool) (io : ℕ → Io)
  | sendMapped (layerId : UInt32) (routes : List (UInt32 × UInt32)) (topk : ℕ) (fill : Bool)
      (io : ℕ → Io)
  | sendDevice (layerId : UInt32) (tokens topk : ℕ) (fill : Bool) (io : ℕ → Io)
  | recvRaw (nocrc : Bool) (io : ℕ → Io)

/-- The oldest posted send of `rank` completes. -/
def completeSend (rank : ℕ) (c : WireClient) : WireClient :=
  { c with conns := c.conns.modify rank fun conn =>
      { conn with rdma := conn.rdma.map RdmaConn.complete } }

def ClientOp.run : ClientOp → Client Unit
  | .complete rank => modify (completeSend rank)
  | .sendRaw layerId payload scales routes topk nocrc io =>
    moeSendRaw layerId payload scales routes topk nocrc io
  | .sendMapped layerId routes topk fill io => moeSendMapped layerId routes topk fill io
  | .sendDevice layerId tokens topk fill io => moeSendDevice layerId tokens topk fill io
  | .recvRaw nocrc io => do let _ ← moeRecvRaw nocrc io

/-- The client a call leaves behind, whether or not it fails. -/
def clientStep (c : WireClient) (op : ClientOp) : WireClient :=
  match op.run c with
  | .ok _ c' => c'
  | .error _ c' => c'

/-- Whatever the waits do, a claim returns no half that a posted, uncompleted send still reads. -/
def ClaimSafe (c : WireClient) : Prop :=
  ∀ (io : ℕ → Io) (half : ℕ) (c' : WireClient), claimHalf io c = .ok half c' →
    ∀ conn ∈ c'.conns, ∀ rc, conn.rdma = some rc → half ∉ rc.pending

/-- No rank has an uncompleted send. -/
def Idle (c : WireClient) : Prop :=
  ∀ conn ∈ c.conns, ∀ rc, conn.rdma = some rc → rc.pending = []

/-- No wait, re-post or post of the call fails. -/
structure Healthy (io : ℕ → Io) : Prop where
  waitSend : ∀ r n, (io r).waitSend n = false
  postRecv : ∀ r slot, (io r).postRecv slot = false
  postSend : ∀ r, (io r).postSend = false

/-- The checks a send makes before it claims a half. -/
def Claims (c : WireClient) : ClientOp → Prop
  | .complete _ => False
  | .sendRaw layerId payload scales routes topk nocrc _ =>
    let tokens := payload.length / hiddenDim
    (payload.length = tokens * hiddenDim ∧ tokens ≠ 0 ∧
      scales.length = tokens * (hiddenDim / 32)) ∧
    c.inflight.length < 2 ∧ routes.length = tokens * topk ∧
    ∃ bytes, encodeRequestSeq (layerRequest c.nextRequestId layerId tokens
      (planeRows payload scales tokens) routes topk 0) 0 c.naive nocrc = .ok bytes ∧
      fitsHalf bytes = true
  | .sendMapped _ routes topk _ _ =>
    (topk ≠ 0 ∧ routes ≠ [] ∧ routes.length % topk = 0) ∧ c.inflight.length < 2
  | .sendDevice _ _ _ _ _ => c.inflight.length < 2
  | .recvRaw _ _ => False

/-- Nothing fails between the claim of a send and its last post. -/
def Posts (c : WireClient) : ClientOp → Prop
  | .complete _ => True
  | .sendRaw _ _ _ _ _ _ io => Healthy io
  | .sendMapped layerId routes topk fill io =>
    Healthy io ∧ fill = true ∧
    ∃ frame, encodeRequestMetaInto reqHalf c.nextRequestId layerId 0 0 routes topk c.naive =
        .ok frame ∧
      frame.hiddenOffset + routes.length / topk * hiddenRowBytesCanonical = frame.bodyLen
  | .sendDevice layerId tokens topk fill io =>
    Healthy io ∧ fill = true ∧
    ∃ layout, encodeRequestDescInto reqHalf c.nextRequestId layerId 0 0 tokens topk c.naive =
      .ok layout
  | .recvRaw _ _ => True

/-- A send that claims a half posts it, or no rank has an uncompleted send. -/
def PostsOrIdle (c : WireClient) (op : ClientOp) : Prop := Claims c op → Posts c op ∨ Idle c

/-! ### The invariant -/

theorem xor_one_ne (half : ℕ) : half ^^^ 1 ≠ half := by
  intro h
  have hzero : half ^^^ 1 ^^^ half = half ^^^ half := congrArg (· ^^^ half) h
  rw [Nat.xor_self, Nat.xor_comm half 1, Nat.xor_assoc, Nat.xor_self, Nat.xor_zero] at hzero
  exact absurd hzero (by decide)

/-- A queue pair with at most `depth` sends not reaped. -/
structure Queue (depth : ℕ) (rc : RdmaConn) : Prop where
  sendsOut : rc.sendsOut = rc.posted.length
  posted : rc.posted.length ≤ depth

/-- The queue of a rank when `half` is claimed next: its newest send is not in `half`, or no longer
read. -/
structure QueueReady (half : ℕ) (rc : RdmaConn) : Prop where
  queue : Queue 2 rc
  newest : rc.pending = [] ∨ rc.posted.getLast? ≠ some half

/-- The queue of a rank while `half` is claimed; `posts` says that the claim will be posted. -/
structure QueueClaimed (half : ℕ) (posts : Prop) (rc : RdmaConn) : Prop where
  queue : Queue 1 rc
  clear : half ∉ rc.pending
  idle : posts ∨ rc.pending = []

/-- The queue of a rank after a send that failed. -/
structure QueueLeft (posts : Prop) (rc : RdmaConn) : Prop where
  queue : Queue 2 rc
  idle : posts ∨ rc.pending = []

/-- Every rank's newest send is not in the half claimed next, or no longer read. -/
structure Alternating (c : WireClient) : Prop where
  rdmaBody : c.rdmaBody = true
  conns : ∀ conn ∈ c.conns, RdmaSide (QueueReady c.sendHalf) conn

theorem alternating_connect : Alternating (.connect true) := by
  refine ⟨rfl, fun conn hconn => ?_⟩
  obtain ⟨rank, -, rfl⟩ := List.mem_map.mp hconn
  exact ⟨⟨[], 0, [], none, 0⟩, rfl, ⟨rfl, Nat.zero_le _⟩, Or.inl rfl⟩

/-! ### Queues -/

variable {half : ℕ} {posts : Prop} {rc : RdmaConn}

theorem RdmaConn.pending_eq_nil : rc.pending = [] ↔ rc.posted.length ≤ rc.completed :=
  List.drop_eq_nil_iff

theorem QueueLeft.ready (h : QueueLeft posts rc) (hposts : ¬ posts) (half : ℕ) :
    QueueReady half rc :=
  ⟨h.queue, Or.inl (h.idle.resolve_left hposts)⟩

theorem QueueClaimed.left (h : QueueClaimed half posts rc) : QueueLeft posts rc :=
  ⟨⟨h.queue.sendsOut, le_trans h.queue.posted (by decide)⟩, h.idle⟩

theorem QueueReady.complete (h : QueueReady half rc) : QueueReady half rc.complete := by
  refine ⟨⟨h.queue.sendsOut, h.queue.posted⟩, h.newest.imp_left fun hidle => ?_⟩
  rw [RdmaConn.pending_eq_nil] at hidle ⊢
  show rc.posted.length ≤ min (rc.completed + 1) rc.posted.length
  omega

/-- With at most one send not reaped, none still reads the half to be claimed. -/
theorem QueueReady.claimed (h : QueueReady half rc) (hone : rc.posted.length ≤ 1)
    (hidle : posts ∨ rc.pending = []) : QueueClaimed half posts rc := by
  refine ⟨⟨h.queue.sendsOut, hone⟩, fun hmem => ?_, hidle⟩
  rcases h.newest with hnil | hlast
  · rw [hnil] at hmem
    exact absurd hmem List.not_mem_nil
  · have hposted : half ∈ rc.posted := List.mem_of_mem_drop hmem
    obtain ⟨x, hx⟩ := List.length_eq_one_iff.mp
      (le_antisymm hone (List.length_pos_of_mem hposted))
    rw [hx] at hposted hlast
    exact hlast (by rw [List.mem_singleton.mp hposted]; rfl)

/-- Reaping the older of two sends. -/
theorem QueueReady.waitSend (h : QueueReady half rc) (htwo : 2 ≤ rc.sendsOut) :
    QueueReady half { rc.waitSend with sendsOut := rc.sendsOut - 1 } := by
  have hlen := h.queue.sendsOut
  have htail : rc.posted.tail.length = rc.posted.length - 1 := List.length_tail
  refine ⟨⟨?_, ?_⟩, h.newest.imp (fun hidle => ?_) fun hlast => ?_⟩
  · show rc.sendsOut - 1 = rc.posted.tail.length
    omega
  · show rc.posted.tail.length ≤ 2
    have hle := h.queue.posted
    omega
  · rw [RdmaConn.pending_eq_nil] at hidle ⊢
    show rc.posted.tail.length ≤ rc.completed - 1
    omega
  · show rc.posted.tail.getLast? ≠ some half
    rw [List.getLast?_tail, if_neg (by omega)]
    exact hlast

theorem idle_waitSend (h : rc.pending = []) :
    RdmaConn.pending { rc.waitSend with sendsOut := rc.sendsOut - 1 } = [] := by
  rw [RdmaConn.pending_eq_nil] at h ⊢
  show rc.posted.tail.length ≤ rc.completed - 1
  rw [List.length_tail]
  omega

/-- Posting the claimed half makes the queue ready for the other one. -/
theorem QueueClaimed.post (h : QueueClaimed half posts rc) :
    QueueReady (half ^^^ 1)
      { rc with posted := rc.posted ++ [half], sendsOut := rc.sendsOut + 1 } := by
  refine ⟨⟨?_, ?_⟩, Or.inr ?_⟩
  · rw [List.length_append, h.queue.sendsOut]
    rfl
  · rw [List.length_append]
    exact Nat.add_le_add_right h.queue.posted 1
  · rw [List.getLast?_concat]
    intro heq
    exact xor_one_ne half (Option.some.inj heq).symm

/-- Reaping down to one outstanding send leaves none in the half to be claimed. -/
theorem reap_triple {healthy : Prop} {fail : ℕ → Bool} (hfail : healthy → ∀ n, fail n = false)
    (n : ℕ) :
    Triple (fun rc => QueueReady half rc ∧ (posts ∨ rc.pending = []) ∧ n = rc.sendsOut - 1)
      (RdmaConn.reap fail n) (fun _ => QueueClaimed half posts)
      (fun rc => ¬ healthy ∧ QueueLeft posts rc) := by
  induction n with
  | zero =>
    refine .pure fun rc ⟨hready, hidle, hn⟩ => hready.claimed ?_ hidle
    rw [hready.queue.sendsOut] at hn
    omega
  | succ n ih =>
    refine .bind (Q := fun _ rc => QueueReady half rc ∧ (posts ∨ rc.pending = []) ∧
      n + 1 = rc.sendsOut - 1) (.check (fun _ _ h => h) ?_) fun _ => ?_
    · rintro hwait rc ⟨hready, hidle, -⟩
      exact ⟨fun h => by simp [hfail h n] at hwait, hready.queue, hidle⟩
    · refine .bind (.modify ?_) fun _ => ih
      rintro rc ⟨hready, hidle, hn⟩
      refine ⟨hready.waitSend (by omega), hidle.imp_right idle_waitSend, ?_⟩
      show n = rc.sendsOut - 1 - 1
      omega

/-! ### Claiming and posting -/

/-- `half` is claimed. -/
structure Claimed (half : ℕ) (posts : Prop) (c : WireClient) : Prop where
  rdmaBody : c.rdmaBody = true
  sendHalf : c.sendHalf = half ^^^ 1
  conns : ∀ conn ∈ c.conns, RdmaSide (QueueClaimed half posts) conn

/-- What a send that failed leaves. -/
structure Left (posts : Prop) (c : WireClient) : Prop where
  rdmaBody : c.rdmaBody = true
  conns : ∀ conn ∈ c.conns, RdmaSide (QueueLeft posts) conn

/-- A claim that is not posted does no harm when every queue is idle. -/
theorem Left.alternating {c : WireClient} (h : Left posts c) (hposts : ¬ posts) : Alternating c :=
  ⟨h.rdmaBody, fun conn hconn => (h.conns conn hconn).imp fun _ hq => hq.ready hposts _⟩

theorem Claimed.alternating {c : WireClient} (h : Claimed half posts c) (hposts : ¬ posts) :
    Alternating c :=
  ⟨h.rdmaBody, fun conn hconn => (h.conns conn hconn).imp fun _ hq => hq.left.ready hposts _⟩

/-- The rest of the client while `half` is claimed. -/
def ClaimedRest (half : ℕ) (c : WireClient) : Prop := c.rdmaBody = true ∧ c.sendHalf = half ^^^ 1

variable {io : ℕ → Io}

/-- The condition on a queue before a claim. -/
def Claimable (half : ℕ) (posts : Prop) (rc : RdmaConn) : Prop :=
  QueueReady half rc ∧ (posts ∨ rc.pending = [])

/-- **Claim.** -/
theorem claimHalf_triple {healthy : Prop} (hio : healthy → Healthy io) (c : WireClient)
    (hc : Alternating c) (hidle : posts ∨ Idle c) :
    Triple (fun s => s = c) (claimHalf io)
      (fun half s => half = c.sendHalf ∧ Claimed c.sendHalf posts s)
      (fun s => ¬ healthy ∧ Left posts s) := by
  have hloop : Triple
      (fun s => ClaimedRest c.sendHalf s ∧
        ∀ conn ∈ s.conns, RdmaSide (Claimable c.sendHalf posts) conn)
      (forConns (fun r => onConn (onRdma do
        let rc ← get
        RdmaConn.reap (io r).waitSend (rc.sendsOut - 1))) ())
      (fun _ s => (ClaimedRest c.sendHalf s ∧
        ∀ conn ∈ s.conns, RdmaSide (QueueClaimed c.sendHalf posts) conn) ∧ True)
      (fun s => ¬ healthy ∧ ClaimedRest c.sendHalf s ∧
        ∀ conn ∈ s.conns, RdmaSide (QueueLeft posts) conn) := by
    refine forConns_triple (I := fun _ => True) (fun r => ?_)
      (fun _ conn h => h.imp fun rc hq => ⟨hq.1.queue, hq.2⟩)
      (fun _ conn h => h.imp fun rc hq => hq.left) (fun _ _ h => h) trivial
    refine onConn_triple (B := fun _ => RdmaSide (QueueClaimed c.sendHalf posts))
      (I := fun _ => True) (onRdma_triple (Q := Claimable c.sendHalf posts)
        (R := fun _ => QueueClaimed c.sendHalf posts) ?_)
    intro rc hrc
    exact reap_triple (fun h => (hio h).waitSend r) (rc.sendsOut - 1) rc ⟨hrc.1, hrc.2, rfl⟩
  refine .bind (Q := fun a s => a = c ∧ s = c) (.get fun s hs => ⟨hs, hs⟩) fun a => ?_
  refine .of_pure fun ha => ?_
  subst ha
  refine .bind (.set ?_) fun _ => .bind (hloop.weaken (fun _ h => h) (fun _ _ h => h.1) ?_)
    fun _ => .pure fun s hs => ⟨rfl, hs.1.1, hs.1.2, hs.2⟩
  · rintro s -
    refine ⟨⟨hc.rdmaBody, rfl⟩, fun conn hconn => ?_⟩
    obtain ⟨rc, hrc, hready⟩ := hc.conns conn hconn
    exact ⟨rc, hrc, hready, hidle.imp_right fun h => h conn hconn rc hrc⟩
  · rintro s ⟨hfail, hrest, hconns⟩
    exact ⟨hfail, hrest.1, hconns⟩

/-- The claim of a send: a failing one leaves the queues as they must be. -/
theorem claimHalf_send (hio : posts → Healthy io) {c : WireClient} (hc : Alternating c)
    (hidle : posts ∨ Idle c) :
    Triple (fun s => s = c) (claimHalf io)
      (fun half s => half = c.sendHalf ∧ Claimed c.sendHalf posts s) Alternating :=
  (claimHalf_triple hio c hc hidle).weaken (fun _ h => h) (fun _ _ h => h) fun _ h =>
    h.2.alternating h.1

/-- **Post.** -/
theorem postHalf_triple (hio : posts → Healthy io) :
    Triple (Claimed half posts) (postHalf half io) (fun _ => Alternating) Alternating := by
  have hloop : Triple
      (fun s => ClaimedRest half s ∧ ∀ conn ∈ s.conns, RdmaSide (QueueClaimed half posts) conn)
      (postHalf half io)
      (fun _ s => (ClaimedRest half s ∧
        ∀ conn ∈ s.conns, RdmaSide (QueueReady (half ^^^ 1)) conn) ∧ True)
      (fun s => ¬ posts ∧ ClaimedRest half s ∧
        ∀ conn ∈ s.conns, RdmaSide (QueueReady (half ^^^ 1)) conn) := by
    refine forConns_triple (I := fun _ => True) (fun r => ?_)
      (fun hposts conn h => h.imp fun rc hq => hq.left.ready hposts _)
      (fun _ _ h => h) (fun _ _ h => h) trivial
    refine onConn_triple (B := fun _ => RdmaSide (QueueReady (half ^^^ 1)))
      (D := fun conn => ¬ posts ∧ RdmaSide (QueueReady (half ^^^ 1)) conn) (I := fun _ => True) ?_
    refine .bind (Q := fun _ => RdmaSide (QueueClaimed half posts)) (.modify fun _ h => h)
      fun _ => onRdma_triple (R := fun _ => QueueReady (half ^^^ 1)) ?_
    have hfail : ∀ rc, QueueClaimed half posts rc → ¬ posts →
        ¬ posts ∧ QueueReady (half ^^^ 1) rc :=
      fun rc hq hposts => ⟨hposts, hq.left.ready hposts _⟩
    refine .bind (Q := fun _ => QueueClaimed half posts) ?_ fun _ => ?_
    · refine .bind (Q := fun a _ => QueueClaimed half posts a) (.get fun _ h => h) fun a => ?_
      refine .bind (Q := fun _ => QueueClaimed half posts) (.set fun _ h => ?_) fun _ =>
        .check (fun _ _ h => h) fun hpost rc hq => hfail rc hq fun hposts => ?_
      · exact ⟨⟨h.queue.sendsOut, h.queue.posted⟩, h.clear, h.idle⟩
      · simp [(hio hposts).postRecv] at hpost
    · refine .bind (Q := fun _ => QueueClaimed half posts)
        (.check (fun _ _ h => h) fun hpost rc hq => hfail rc hq fun hposts => ?_) fun _ =>
          .modify fun _ h => h.post
      simp [(hio hposts).postSend] at hpost
  refine hloop.weaken (fun s h => ⟨⟨h.rdmaBody, h.sendHalf⟩, h.conns⟩) (fun _ s h => ?_) fun s h =>
    ?_
  · obtain ⟨⟨⟨hbody, hhalf⟩, hconns⟩, -⟩ := h
    exact ⟨hbody, by rw [hhalf]; exact hconns⟩
  · obtain ⟨-, ⟨hbody, hhalf⟩, hconns⟩ := h
    exact ⟨hbody, by rw [hhalf]; exact hconns⟩

/-! ### Sends -/

/-- The client after a request id is taken. -/
def WireClient.idTaken (c : WireClient) : WireClient :=
  { c with nextRequestId := c.nextRequestId + 1 }

theorem takeRequestId_triple (c : WireClient) {E : WireClient → Prop} :
    Triple (fun s => s = c) takeRequestId (fun id s => id = c.nextRequestId ∧ s = c.idTaken) E :=
  fun _ hs => hs ▸ ⟨rfl, rfl⟩

theorem Alternating.idTaken {c : WireClient} (hc : Alternating c) : Alternating c.idTaken :=
  ⟨hc.rdmaBody, hc.conns⟩

/-- A check that leaves the client as it is. -/
theorem check_triple {c : WireClient} (hc : Alternating c) (b : Bool) (e : ClientError) :
    Triple (fun s => s = c) (check b e : Client Unit) (fun _ s => b = true ∧ s = c) Alternating :=
  .check (fun hb _ hs => ⟨hb, hs⟩) fun _ _ hs => hs ▸ hc

theorem get_triple {c : WireClient} {E : WireClient → Prop} :
    Triple (fun s => s = c) (get : Client WireClient) (fun a s => a = c ∧ s = c) E :=
  .get fun _ hs => ⟨hs, hs⟩

theorem pushInflight_triple {E : WireClient → Prop} (x : UInt64 × UInt32 × ℕ) :
    Triple Alternating (modify fun c => { c with inflight := c.inflight ++ [x] } : Client Unit)
      (fun _ => Alternating) E :=
  .modify fun _ h => ⟨h.rdmaBody, h.conns⟩

variable {c : WireClient}

theorem moeSendDevice_triple (hc : Alternating c) {layerId : UInt32} {tokens topk : ℕ} {fill : Bool}
    (hop : PostsOrIdle c (.sendDevice layerId tokens topk fill io)) :
    Triple (fun s => s = c) (moeSendDevice layerId tokens topk fill io) (fun _ => Alternating)
      Alternating := by
  refine .bind get_triple fun a => .of_pure fun ha => ?_
  subst ha
  refine .bind (check_triple hc _ _) fun _ => .of_pure fun _ => ?_
  refine .bind (check_triple hc _ _) fun _ => .of_pure fun hlimit => ?_
  have hposts := hop (show a.inflight.length < 2 from of_decide_eq_true hlimit)
  refine .bind (takeRequestId_triple a) fun requestId => .of_pure fun hid => ?_
  subst hid
  refine .bind (claimHalf_send (fun h => h.1) hc.idTaken hposts) fun half =>
    .of_pure fun hhalf => ?_
  subst hhalf
  refine .bind (wireCall_triple ?_) fun _ => .of_pure fun _ => ?_
  · rintro e he s hs
    refine hs.alternating fun ⟨_, _, layout, hlayout⟩ => ?_
    exact absurd (hlayout.symm.trans he) (by simp)
  refine .bind (Q := fun _ => Claimed a.sendHalf _) (.check (fun _ _ h => h) ?_) fun _ => ?_
  · rintro hfill s hs
    exact hs.alternating fun h => by simp [h.2.1] at hfill
  exact .bind (postHalf_triple fun h => h.1) fun _ => pushInflight_triple _

theorem moeSendMapped_triple (hc : Alternating c) {layerId : UInt32}
    {routes : List (UInt32 × UInt32)} {topk : ℕ} {fill : Bool}
    (hop : PostsOrIdle c (.sendMapped layerId routes topk fill io)) :
    Triple (fun s => s = c) (moeSendMapped layerId routes topk fill io) (fun _ => Alternating)
      Alternating := by
  refine .bind get_triple fun a => .of_pure fun ha => ?_
  subst ha
  refine .bind (check_triple hc _ _) fun _ => .of_pure fun _ => ?_
  refine .bind (check_triple hc _ _) fun _ => .of_pure fun hrows => ?_
  refine .bind (check_triple hc _ _) fun _ => .of_pure fun hlimit => ?_
  have hposts := hop ⟨of_decide_eq_true hrows, of_decide_eq_true hlimit⟩
  refine .bind (takeRequestId_triple a) fun requestId => .of_pure fun hid => ?_
  subst hid
  refine .bind (claimHalf_send (fun h => h.1) hc.idTaken hposts) fun half =>
    .of_pure fun hhalf => ?_
  subst hhalf
  refine .bind (wireCall_triple ?_) fun frame => .of_pure fun hframe => ?_
  · rintro e he s hs
    refine hs.alternating fun ⟨_, _, frame, hframe, _⟩ => ?_
    exact absurd (hframe.symm.trans he) (by simp)
  refine .bind (Q := fun _ => Claimed a.sendHalf _) (.check (fun _ _ h => h) ?_) fun _ => ?_
  · rintro hlayout s hs
    refine hs.alternating fun ⟨_, _, frame', hframe', hfits⟩ => ?_
    obtain rfl := Except.ok.inj (hframe.symm.trans hframe')
    exact of_decide_eq_false hlayout hfits
  refine .bind (Q := fun _ => Claimed a.sendHalf _) (.check (fun _ _ h => h) ?_) fun _ => ?_
  · rintro hfill s hs
    exact hs.alternating fun h => by simp [h.2.1] at hfill
  exact .bind (postHalf_triple fun h => h.1) fun _ => pushInflight_triple _

theorem sendLayer_triple (hc : Alternating c) {layerId : UInt32} {tokens : ℕ}
    {hiddenRows : List HiddenRow} {routes : List (UInt32 × UInt32)} {topk : ℕ} {nocrc : Bool}
    (hposts : ∀ bytes, routes.length = tokens * topk →
      encodeRequestSeq (layerRequest c.nextRequestId layerId tokens hiddenRows routes topk 0) 0
        c.naive nocrc = .ok bytes →
      fitsHalf bytes = true → Healthy io ∨ Idle c) :
    Triple (fun s => s = c) (sendLayer layerId tokens hiddenRows routes topk nocrc io)
      (fun _ => Alternating) Alternating := by
  refine .bind (check_triple hc _ _) fun _ => .of_pure fun hroutes => ?_
  refine .bind (takeRequestId_triple c) fun requestId => .of_pure fun hid => ?_
  subst hid
  refine .bind get_triple fun a => .of_pure fun ha => ?_
  subst ha
  refine .ite (fun _ => ?_) fun htcp => absurd hc.rdmaBody htcp
  refine .bind (wireCall_triple ?_) fun bytes => .of_pure fun hbytes => ?_
  · rintro e - s rfl
    exact hc.idTaken
  refine .bind (check_triple hc.idTaken _ _) fun _ => .of_pure fun hfits => ?_
  have hhealthy := hposts bytes (of_decide_eq_true hroutes) hbytes hfits
  refine .bind (claimHalf_send id hc.idTaken hhealthy) fun half =>
    .of_pure fun hhalf => ?_
  subst hhalf
  exact .bind (postHalf_triple id) fun _ => .pure fun _ h => h

theorem moeSendRaw_triple (hc : Alternating c) {layerId : UInt32} {payload scales : List UInt8}
    {routes : List (UInt32 × UInt32)} {topk : ℕ} {nocrc : Bool}
    (hop : PostsOrIdle c (.sendRaw layerId payload scales routes topk nocrc io)) :
    Triple (fun s => s = c) (moeSendRaw layerId payload scales routes topk nocrc io)
      (fun _ => Alternating) Alternating := by
  refine .bind (check_triple hc _ _) fun _ => .of_pure fun hplanes => ?_
  refine .bind get_triple fun a => .of_pure fun ha => ?_
  subst ha
  refine .bind (check_triple hc _ _) fun _ => .of_pure fun hlimit => ?_
  refine .bind (sendLayer_triple hc fun bytes hroutes hbytes hfits => ?_) fun requestId =>
    pushInflight_triple _
  refine hop ⟨of_decide_eq_true hplanes, ?_, hroutes, bytes, hbytes, hfits⟩
  rw [hc.rdmaBody] at hlimit
  exact of_decide_eq_true hlimit

/-! ### Receives -/

/-- Receiving moves slots and the last return of a queue pair, not its sends. -/
theorem recvRdma_triple (layerId : UInt32) (requestId : UInt64) (tokens : ℕ) (io : Io) :
    Triple (RdmaSide (QueueReady half)) (recvRdma layerId requestId tokens io)
      (fun _ => RdmaSide (QueueReady half))
          (fun conn => True ∧ RdmaSide (QueueReady half) conn) := by
  refine .bind (Q := fun _ => RdmaSide (QueueReady half)) (.get fun _ h => h) fun conn => ?_
  refine .bind (onRdma_triple (R := fun _ => QueueReady half) ?_) fun seq => ?_
  · split
    · exact .throw fun _ h => ⟨trivial, h⟩
    · refine .bind (Q := fun _ => QueueReady half)
        (.modify fun _ h => ⟨⟨h.queue.sendsOut, h.queue.posted⟩, h.newest⟩) fun _ => ?_
      refine .bind (Q := fun _ => QueueReady half)
        (.check (fun _ _ h => h) fun _ _ h => ⟨trivial, h⟩)
        fun _ => ?_
      refine .bind (Q := fun _ => QueueReady half)
        (.call (fun _ _ _ h => h) fun _ _ _ h => ⟨trivial, h⟩) fun _ => ?_
      refine .bind (Q := fun _ => QueueReady half)
        (.check (fun _ _ h => h) fun _ _ h => ⟨trivial, h⟩)
        fun _ => ?_
      exact .bind (Q := fun _ => QueueReady half)
        (.modify fun _ h => ⟨⟨h.queue.sendsOut, h.queue.posted⟩, h.newest⟩) fun _ =>
          .pure fun _ h => h
  · refine .bind (Q := fun a _ => RdmaSide (QueueReady half) a) (.get fun _ h => h) fun a => ?_
    exact .bind (Q := fun _ => RdmaSide (QueueReady half)) (.set fun _ h => h) fun _ =>
      .call (fun _ _ _ h => h) fun _ _ _ h => ⟨trivial, h⟩

theorem recvRanks_triple (layerId : UInt32) (requestId : UInt64) (tokens : ℕ) (nocrc : Bool) :
    Triple Alternating (recvRanks layerId requestId tokens nocrc io) (fun _ => Alternating)
      Alternating := by
  refine .bind (Q := fun a s => Alternating a ∧ s = a) (.get fun _ h => ⟨h, rfl⟩) fun a =>
    .of_pure fun ha => ?_
  refine .ite (fun _ => ?_) fun htcp => absurd ha.rdmaBody htcp
  have hloop := forConns_triple (t := ()) (I := fun _ => True) (F := True)
    (K := fun s => s.rdmaBody = true ∧ s.sendHalf = a.sendHalf)
    (fun r => onConn_triple (I := fun _ => True)
      (@recvRdma_triple a.sendHalf layerId requestId tokens (io r)))
    (fun _ _ h => h) (fun _ _ h => h) (fun _ _ h => h) trivial
  refine hloop.weaken ?_ (fun _ s h => ?_) fun s h => ?_
  · rintro s rfl
    exact ⟨⟨ha.rdmaBody, rfl⟩, ha.conns⟩
  · obtain ⟨⟨⟨hbody, hhalf⟩, hconns⟩, -⟩ := h
    exact ⟨hbody, by rw [hhalf]; exact hconns⟩
  · obtain ⟨-, ⟨hbody, hhalf⟩, hconns⟩ := h
    exact ⟨hbody, by rw [hhalf]; exact hconns⟩

theorem moeRecvRaw_triple (nocrc : Bool) :
    Triple Alternating (moeRecvRaw nocrc io) (fun _ => Alternating) Alternating := by
  refine .bind (Q := fun _ => Alternating) (.modify fun c hc => ⟨hc.rdmaBody, ?_⟩) fun _ => ?_
  · intro conn hconn
    obtain ⟨r, hr, rfl⟩ := List.mem_mapIdx.mp hconn
    exact hc.conns c.conns[r] (List.getElem_mem hr)
  · refine .bind (Q := fun a s => Alternating a ∧ Alternating s) (.get fun _ h => ⟨h, h⟩) fun a =>
      .of_pure fun ha => ?_
    split
    · exact .throw fun _ h => h
    · next requestId layerId tokens rest hinflight =>
      refine .bind (Q := fun _ => Alternating) (.set fun _ _ => ⟨ha.rdmaBody, ha.conns⟩) fun _ => ?_
      exact .bind (recvRanks_triple _ _ _ _) fun _ => .pure fun _ h => h

/-! ### Runs -/

theorem completeSend_alternating (hc : Alternating c) (rank : ℕ) :
    Alternating (completeSend rank c) := by
  refine ⟨hc.rdmaBody, fun conn hconn => ?_⟩
  obtain ⟨r, hr, rfl⟩ := List.mem_iff_getElem.mp hconn
  have hlen : r < c.conns.length := by
    rwa [completeSend, List.length_modify] at hr
  obtain ⟨rc, hrc, hready⟩ := hc.conns c.conns[r] (List.getElem_mem hlen)
  simp only [completeSend, List.getElem_modify]
  split
  · exact ⟨rc.complete, by rw [hrc]; rfl, hready.complete⟩
  · exact ⟨rc, hrc, hready⟩

/-- **Step.** -/
theorem Alternating.step (hc : Alternating c) {op : ClientOp} (hop : PostsOrIdle c op) :
    Alternating (clientStep c op) := by
  have hrun : Triple (fun s => s = c) op.run (fun _ => Alternating) Alternating := by
    cases op with
    | complete rank => exact .modify fun s hs => hs ▸ completeSend_alternating hc rank
    | sendRaw => exact moeSendRaw_triple hc hop
    | sendMapped => exact moeSendMapped_triple hc hop
    | sendDevice => exact moeSendDevice_triple hc hop
    | recvRaw nocrc io =>
      exact .bind ((moeRecvRaw_triple nocrc).pre fun s hs => hs ▸ hc) fun _ => .pure fun _ h => h
  have hpost := hrun c rfl
  rw [clientStep]
  cases hres : op.run c with
  | ok a c' =>
    rw [hres] at hpost
    exact hpost
  | error e c' =>
    rw [hres] at hpost
    exact hpost

/-- **Run.** -/
theorem alternating_run {ops : List ClientOp}
    (hops : Along clientStep PostsOrIdle (.connect true) ops) :
    Alternating (run clientStep (.connect true) ops) :=
  inv_run (fun _ _ hc hop => hc.step hop) alternating_connect hops

theorem Alternating.claimSafe (hc : Alternating c) : ClaimSafe c := by
  intro io half c' hclaim conn hconn rc hrc
  have hpost := @claimHalf_triple True io _ False.elim c hc (Or.inl trivial) c rfl
  rw [hclaim] at hpost
  obtain ⟨rfl, hclaimed⟩ := hpost
  obtain ⟨rc', hrc', hq⟩ := hclaimed.conns conn hconn
  obtain rfl := Option.some.inj (hrc.symm.trans hrc')
  exact hq.clear

/-- **Safe claims.** -/
theorem claimSafe_run {ops : List ClientOp}
    (hops : Along clientStep PostsOrIdle (.connect true) ops) :
    ClaimSafe (run clientStep (.connect true) ops) :=
  (alternating_run hops).claimSafe

/-- Nothing fails. -/
def healthyIo : ℕ → Io := fun _ => {}

theorem healthy_healthyIo : Healthy healthyIo := ⟨fun _ _ => rfl, fun _ _ => rfl, fun _ => rfl⟩

/-- Two sends of one token that nothing disturbs. -/
theorem claimSafe_run_twoSends :
    ClaimSafe (run clientStep (.connect true)
      [.sendDevice 0 1 8 true healthyIo, .sendDevice 1 1 8 true healthyIo]) :=
  claimSafe_run ⟨fun _ => Or.inl ⟨healthy_healthyIo, rfl, _, rfl⟩,
    fun _ => Or.inl ⟨healthy_healthyIo, rfl, _, rfl⟩, trivial⟩

/-- A send of one token, and then one whose fill fails. -/
def failedFill : List ClientOp :=
  [.sendDevice 0 1 8 true healthyIo, .sendDevice 1 1 8 false healthyIo]

/-- After the failed fill the next claim returns half 0, which every rank still reads. -/
theorem not_claimSafe_failedFill : ¬ ∀ ops, ClaimSafe (run clientStep (.connect true) ops) := by
  intro h
  have hclaim : claimHalf healthyIo (run clientStep (.connect true) failedFill) = .ok 0
    { run clientStep (.connect true) failedFill with sendHalf := 1 } := rfl
  have hconn : ∀ conn ∈ (run clientStep (.connect true) failedFill).conns,
      conn.rdma = some ⟨[0], 0, [], none, 1⟩ := by decide
  have hfirst : (run clientStep (.connect true) failedFill).conns ≠ [] := by decide
  obtain ⟨conn, hmem⟩ := List.exists_mem_of_ne_nil _ hfirst
  exact h failedFill healthyIo 0 _ hclaim conn hmem _ (hconn conn hmem) (by decide)

end Coordinator

end Mimo26

import Mathlib.Data.List.Perm.Basic
import Mathlib.Data.List.TakeWhile
import Mimo26.Coordinator.RanksKept

/-!
# The receive ring of the coordinator

Each rank's queue pair has two receive slots. A return lands in the oldest posted one, a receive
collects it, and the slot is posted again only inside the next send, so that the device can read the
plane until then. Up to two exchanges are in flight, and each of their returns needs a slot.

The ring is what the hardware holds of this: the posted slots, the returns landed in them and the
requests the rank has still to answer. It runs beside the client's own model, whose receives take
their completions from it.

## Main definitions

* `RecvEnd`, `RingSys`, `ringStep` — a rank's ring, and the client with the rings of its ranks
* `RingOk` — each slot is in one place, every return to land has one, a plane in use is not posted
* `SendsRoomy` — a send finds every rank owing one return at most

## Main results

* `ringInv_run` — the ring is in order throughout a run of roomy sends
-/

namespace Mimo26

namespace Coordinator

open Wire Fallible Runs

/-! ### Rings -/

/-- The receive side of a rank's queue pair, and the rank at the other end. -/
structure RecvEnd where
  /-- Slots posted, oldest first. -/
  posted : List ℕ
  /-- Returns landed and not collected, oldest first, each with its slot. -/
  landed : List (ℕ × List UInt8)
  /-- Requests the rank has still to answer; the return of each is still to land. -/
  answers : ℕ
  deriving DecidableEq, Repr

namespace RecvEnd

/-- The ring as `rdma_setup` leaves it. -/
def setup : RecvEnd := ⟨[0, 1], [], 0⟩

/-- The rank's next return lands in the oldest posted slot; without one it has to wait. -/
def land (frame : List UInt8) (e : RecvEnd) : RecvEnd :=
  match e.posted, e.answers with
  | slot :: posted, answers + 1 => ⟨posted, e.landed ++ [(slot, frame)], answers⟩
  | _, _ => e

end RecvEnd

/-- Slots collected and not posted again. -/
def SparkConn.consumed (conn : SparkConn) : List ℕ := (conn.rdma.map (·.consumed)).getD []

/-- Slot and length of the last return: where `rank_plane` reads. -/
def SparkConn.last (conn : SparkConn) : Option (ℕ × ℕ) := conn.rdma.bind (·.last)

/-- What a call of the client did to a rank's ring, told by the connection before and after it. A
request takes its sequence number right before the consumed slots are posted again and the request
is sent; a slot is consumed where a completion is taken. -/
def RecvEnd.after (e : RecvEnd) (io : Io) (conn conn' : SparkConn) : RecvEnd :=
  if conn'.tx.nextSeq ≠ conn.tx.nextSeq then
    { e with
      posted := e.posted ++ conn.consumed.takeWhile fun slot => !io.postRecv slot
      answers := if io.postSend || conn.consumed.any io.postRecv then e.answers
        else e.answers + 1 }
  else if conn.consumed.length < conn'.consumed.length then { e with landed := e.landed.tail }
  else e

/-! ### The client with its rings -/

/-- The client, the rings of its ranks, and whether a receive has succeeded since the last send. -/
structure RingSys where
  client : WireClient
  ends : ℕ → RecvEnd
  planes : Bool

/-- A return lands at a rank, or the client is called. -/
inductive RingOp where
  | land (rank : ℕ) (frame : List UInt8)
  | call (op : ClientOp)

/-- What the environment does to each rank during a call. -/
def ClientOp.io : ClientOp → ℕ → Io
  | .complete _ => fun _ => {}
  | .sendRaw _ _ _ _ _ _ io => io
  | .sendMapped _ _ _ _ io => io
  | .sendDevice _ _ _ _ io => io
  | .recvRaw _ io => io

/-- A wait for a return that does not fail takes the oldest landed one, if there is one. -/
def ClientOp.onRings (ends : ℕ → RecvEnd) : ClientOp → ClientOp
  | .recvRaw nocrc io => .recvRaw nocrc fun r =>
      { io r with waitRecv := (io r).waitRecv.bind fun _ => (ends r).landed.head? }
  | op => op

/-- Whether planes can be read after a call: a receive that succeeds brings them in, and the next
send may post their slots. -/
def planesAfter (s : RingSys) (op : ClientOp) : Bool :=
  match op with
  | .complete _ => s.planes
  | .recvRaw _ _ =>
    match op.run s.client with
    | .ok _ _ => true
    | .error _ _ => s.planes
  | _ => false

def ringStep (s : RingSys) : RingOp → RingSys
  | .land rank frame => { s with ends := Function.update s.ends rank ((s.ends rank).land frame) }
  | .call op =>
    let op := op.onRings s.ends
    let c := clientStep s.client op
    { client := c
      ends := fun r =>
        match s.client.conns[r]?, c.conns[r]? with
        | some conn, some conn' => (s.ends r).after (op.io r) conn conn'
        | _, _ => s.ends r
      planes := planesAfter s op }

/-- The client as `connect` makes it over RDMA. -/
def RingSys.connect : RingSys := ⟨.connect true, fun _ => .setup, false⟩

/-! ### The property -/

/-- The slots of a rank. -/
structure Slots (e : RecvEnd) (conn : SparkConn) : Prop where
  /-- Each of the two is posted, landed or consumed, and in one place only. -/
  parts : (e.posted ++ e.landed.map (·.1) ++ conn.consumed).Perm [0, 1]
  /-- One is posted for every return still to land. -/
  room : e.answers ≤ e.posted.length

/-- The rings are in order: the slots of every rank are, and no slot is posted that `rank_plane`
reads after a receive. -/
structure RingOk (s : RingSys) : Prop where
  slots : ∀ r conn, s.client.conns[r]? = some conn → Slots (s.ends r) conn
  plane : s.planes = true → ∀ r conn, s.client.conns[r]? = some conn →
    ∃ slot len, conn.last = some (slot, len) ∧ slot ∉ (s.ends r).posted

/-- The returns of a rank that the client has not collected. -/
def RecvEnd.owed (e : RecvEnd) : ℕ := e.answers + e.landed.length

/-- A rank's queue pair is there, and the completions a claim waits for come. -/
def Waited (io : Io) (conn : SparkConn) : Prop :=
  ∃ rc, conn.rdma = some rc ∧ ∀ n < rc.sendsOut - 1, io.waitSend n = false

/-- Every rank is ready for a claim. -/
def Ready (c : WireClient) (io : ℕ → Io) : Prop :=
  ∀ r conn, c.conns[r]? = some conn → Waited (io r) conn

/-- The frame of a send is filled. -/
def Fills (c : WireClient) : ClientOp → Prop
  | .sendMapped layerId routes topk fill _ =>
    fill = true ∧
    ∃ frame, encodeRequestMetaInto reqHalf c.nextRequestId layerId 0 0 routes topk c.naive =
        .ok frame ∧
      frame.hiddenOffset + routes.length / topk * hiddenRowBytesCanonical = frame.bodyLen
  | .sendDevice layerId tokens topk fill _ =>
    fill = true ∧
    ∃ layout, encodeRequestDescInto reqHalf c.nextRequestId layerId 0 0 tokens topk c.naive =
      .ok layout
  | _ => True

/-- A send gets as far as posting its request. -/
structure Reaches (c : WireClient) (op : ClientOp) : Prop where
  claims : Claims c op
  ready : Ready c op.io
  fills : Fills c op

/-- A send that gets as far as posting its request finds every rank owing one return at most, but
for a rank it fails to post to. -/
def SendsRoomy (s : RingSys) : RingOp → Prop
  | .land _ _ => True
  | .call op => Reaches s.client op → ∀ r < sparks, (op.io r).postSend = false → (s.ends r).owed ≤ 1

/-- Posting a slot again succeeds. -/
def Reposts : RingOp → Prop
  | .land _ _ => True
  | .call op => ∀ r slot, (op.io r).postRecv slot = false

/-- A send of the client. -/
def ClientOp.Sends : ClientOp → Prop
  | .complete _ => False
  | .sendRaw _ _ _ _ _ _ _ => True
  | .sendMapped _ _ _ _ _ => True
  | .sendDevice _ _ _ _ _ => True
  | .recvRaw _ _ => False

/-! ### What a call does to a connection -/

/-- Nothing the ring sees changed. -/
structure Unseen (r : ℕ) (conn conn' : SparkConn) : Prop where
  seq : conn'.tx.nextSeq = conn.tx.nextSeq
  side : conn'.rdma.isSome = conn.rdma.isSome
  consumed : conn'.consumed = conn.consumed
  last : conn'.last = conn.last

/-- The consumed slots were posted again. -/
structure Posted (r : ℕ) (conn conn' : SparkConn) : Prop where
  seq : conn'.tx.nextSeq = conn.tx.nextSeq + 1
  side : conn'.rdma.isSome = conn.rdma.isSome
  consumed : conn'.consumed = []
  last : conn'.last = conn.last

/-- A return was collected, whether or not its header was right. -/
structure Drawn (io : ℕ → Io) (r : ℕ) (conn conn' : SparkConn) : Prop where
  seq : conn'.tx.nextSeq = conn.tx.nextSeq
  side : conn'.rdma.isSome = conn.rdma.isSome
  slot : ∃ slot frame, (io r).waitRecv = some (slot, frame) ∧
    conn'.consumed = conn.consumed ++ [slot] ∧
    (conn'.last = conn.last ∨ conn'.last = some (slot, frame.length))

/-- A return was collected and is the one `rank_plane` reads. -/
structure Took (io : ℕ → Io) (r : ℕ) (conn conn' : SparkConn) : Prop where
  seq : conn'.tx.nextSeq = conn.tx.nextSeq
  side : conn'.rdma.isSome = conn.rdma.isSome
  slot : ∃ slot frame, (io r).waitRecv = some (slot, frame) ∧
    conn'.consumed = conn.consumed ++ [slot] ∧ conn'.last = some (slot, frame.length)

theorem Unseen.refl (r : ℕ) (conn : SparkConn) : Unseen r conn conn := ⟨rfl, rfl, rfl, rfl⟩

theorem Unseen.trans {r : ℕ} {a b c : SparkConn} (h : Unseen r a b) (h' : Unseen r b c) :
    Unseen r a c :=
  ⟨h'.seq.trans h.seq, h'.side.trans h.side, h'.consumed.trans h.consumed, h'.last.trans h.last⟩

theorem Unseen.posted {r : ℕ} {a b c : SparkConn} (h : Unseen r a b) (h' : Posted r b c) :
    Posted r a c :=
  ⟨h.seq ▸ h'.seq, h'.side.trans h.side, h'.consumed, h'.last.trans h.last⟩

theorem Unseen.drawn {io : ℕ → Io} {r : ℕ} {a b c : SparkConn} (h : Unseen r a b)
    (h' : Drawn io r b c) : Drawn io r a c := by
  obtain ⟨slot, frame, hwait, hconsumed, hlast⟩ := h'.slot
  exact ⟨h'.seq.trans h.seq, h'.side.trans h.side, slot, frame, hwait, h.consumed ▸ hconsumed,
    h.last ▸ hlast⟩

theorem Unseen.took {io : ℕ → Io} {r : ℕ} {a b c : SparkConn} (h : Unseen r a b)
    (h' : Took io r b c) : Took io r a c := by
  obtain ⟨slot, frame, hwait, hconsumed, hlast⟩ := h'.slot
  exact ⟨h'.seq.trans h.seq, h'.side.trans h.side, slot, frame, hwait, h.consumed ▸ hconsumed,
    hlast⟩

theorem Took.drawn {io : ℕ → Io} {r : ℕ} {conn conn' : SparkConn} (h : Took io r conn conn') :
    Drawn io r conn conn' := by
  obtain ⟨slot, frame, hwait, hconsumed, hlast⟩ := h.slot
  exact ⟨h.seq, h.side, slot, frame, hwait, hconsumed, .inr hlast⟩

/-- A connection nothing was seen of, or whose consumed slots were posted again. -/
def UnseenOrPosted (r : ℕ) (conn conn' : SparkConn) : Prop :=
  Unseen r conn conn' ∨ Posted r conn conn'

/-- A connection nothing was seen of, or a return was collected from. -/
def UnseenOrDrawn (io : ℕ → Io) (r : ℕ) (conn conn' : SparkConn) : Prop :=
  Unseen r conn conn' ∨ Drawn io r conn conn'

/-- The ring's part of the RDMA side is unchanged. -/
theorem unseen_rdma {conn : SparkConn} {rc rc' : RdmaConn} (hrc : conn.rdma = some rc)
    (hconsumed : rc'.consumed = rc.consumed) (hlast : rc'.last = rc.last) (r : ℕ) :
    Unseen r conn { conn with rdma := some rc' } where
  seq := rfl
  side := by rw [hrc]; rfl
  consumed := by
    rw [SparkConn.consumed, SparkConn.consumed, hrc]
    exact hconsumed
  last := by
    rw [SparkConn.last, SparkConn.last, hrc]
    exact hlast

/-- An RDMA client whose connections come from those of `c` by `R`. -/
structure ComesBy (R : ℕ → SparkConn → SparkConn → Prop) (c s : WireClient) : Prop where
  rdmaBody : s.rdmaBody = true
  rows : Rows R 0 c.conns s.conns

variable {io : ℕ → Io} {c : WireClient}

theorem ComesBy.refl (hc : c.rdmaBody = true) : ComesBy Unseen c c := ⟨hc, .refl Unseen.refl⟩

theorem ComesBy.imp {R S : ℕ → SparkConn → SparkConn → Prop} {s : WireClient} (h : ComesBy R c s)
    (himp : ∀ r conn conn', R r conn conn' → S r conn conn') : ComesBy S c s :=
  ⟨h.rdmaBody, h.rows.imp himp⟩

/-- What the ring does not see may come before. -/
theorem ComesBy.after_unseen {R : ℕ → SparkConn → SparkConn → Prop} {a s : WireClient}
    (h : ComesBy Unseen c a) (h' : ComesBy R a s)
    (hR : ∀ r x y z, Unseen r x y → R r y z → R r x z) : ComesBy R c s :=
  ⟨h'.rdmaBody, h.rows.trans h'.rows hR⟩

/-- What a step does to the RDMA side of a connection, whether or not it fails. -/
theorem onRdma_rel {α : Type} {m : EStateM ClientError RdmaConn α}
    {Q : RdmaConn → α → RdmaConn → Prop} {E : RdmaConn → RdmaConn → Prop}
    (hm : ∀ rc, Triple (fun s => s = rc) m (Q rc) (E rc)) (conn : SparkConn) :
    Triple (fun s => s = conn) (onRdma m)
      (fun a s => ∃ rc rc', Q rc a rc' ∧ conn.rdma = some rc ∧ s = { conn with rdma := some rc' })
      (fun s => s = conn ∧ conn.rdma = none ∨
        ∃ rc rc', E rc rc' ∧ conn.rdma = some rc ∧ s = { conn with rdma := some rc' }) := by
  rintro s rfl
  rw [onRdma]
  cases hrdma : s.rdma with
  | none => exact .inl ⟨rfl, rfl⟩
  | some rc =>
    have hpost := hm rc rc rfl
    dsimp only
    cases hres : m rc with
    | ok a rc' =>
      rw [hres] at hpost
      exact ⟨rc, rc', hpost, rfl, rfl⟩
    | error e rc' =>
      rw [hres] at hpost
      exact .inr ⟨rc, rc', hpost, rfl, rfl⟩

/-- Every connection of a client that comes from another comes from one of its own. -/
theorem ComesBy.conn {R : ℕ → SparkConn → SparkConn → Prop} {s : WireClient} (h : ComesBy R c s)
    {r : ℕ} {conn' : SparkConn} (hr : s.conns[r]? = some conn') :
    ∃ conn, c.conns[r]? = some conn ∧ R r conn conn' := by
  obtain ⟨hlt, -⟩ := List.getElem?_eq_some_iff.mp hr
  rw [h.rows.1] at hlt
  obtain ⟨conn₁, hconn₁, hrel⟩ := h.rows.2 r c.conns[r] (List.getElem?_eq_getElem hlt)
  obtain rfl := Option.some.inj (hconn₁.symm.trans hr)
  rw [Nat.zero_add] at hrel
  exact ⟨c.conns[r], List.getElem?_eq_getElem hlt, hrel⟩

/-- A loop over the connections of an RDMA client; a failure at any of them means `F`. -/
theorem forConns_rdma {τ : Type} {b : ℕ → EStateM ClientError (SparkConn × τ) Unit} {F : Prop}
    {R S : ℕ → SparkConn → SparkConn → Prop}
    (hbody : ∀ r conn t, c.conns[r]? = some conn →
      Outcome (fun _ x => R r conn x.1) (fun x => F ∧ S r conn x.1) (b r (conn, t)))
    (hRS : ∀ r conn conn', R r conn conn' → S r conn conn') (hS : ∀ r conn, S r conn conn)
    (hc : c.rdmaBody = true) (t : τ) :
    Triple (fun s => s = c) (forConns b t) (fun _ => ComesBy R c) (fun s => F ∧ ComesBy S c s) := by
  rintro s rfl
  have hloop := each_rows_at (i := 0)
    (fun r conn t hconn => by rw [Nat.zero_add]; exact hbody r conn t hconn) hRS hS t
  rw [forConns]
  cases hres : each b 0 s.conns t with
  | ok u x =>
    rw [hres] at hloop
    exact ⟨hc, hloop⟩
  | error e x =>
    rw [hres] at hloop
    exact ⟨hloop.1, hc, hloop.2⟩

/-! ### Sends -/

/-- Reaping touches neither the consumed slots nor the last return, and fails at a wait that does. -/
theorem reap_waited (fail : ℕ → Bool) (n : ℕ) (rc : RdmaConn) :
    Triple (fun s => s.consumed = rc.consumed ∧ s.last = rc.last) (RdmaConn.reap fail n)
      (fun _ s => (∀ k < n, fail k = false) ∧ s.consumed = rc.consumed ∧ s.last = rc.last)
      (fun s => (¬ ∀ k < n, fail k = false) ∧ s.consumed = rc.consumed ∧ s.last = rc.last) := by
  induction n with
  | zero => exact .pure fun _ h => ⟨fun k hk => absurd hk (Nat.not_lt_zero k), h⟩
  | succ n ih =>
    refine .bind (Q := fun _ s => fail n = false ∧ s.consumed = rc.consumed ∧ s.last = rc.last)
      (.check (fun hok _ h => ⟨by simpa using hok, h⟩) fun hfail _ h => ⟨fun hall => ?_, h⟩)
      fun _ => .of_pure fun hn => ?_
    · rw [hall n (Nat.lt_succ_self n)] at hfail
      cases hfail
    · refine .bind (.modify fun _ h => h) fun _ => ih.weaken (fun _ h => h) ?_ ?_
      · rintro _ s ⟨hwaits, h⟩
        refine ⟨fun k hk => ?_, h⟩
        rcases Nat.lt_succ_iff_lt_or_eq.mp hk with hk | rfl
        · exact hwaits k hk
        · exact hn
      · rintro s ⟨hnot, h⟩
        exact ⟨fun hall => hnot fun k hk => hall k (Nat.lt_succ_of_lt hk), h⟩

/-- What a claim does at one rank. -/
theorem claimConn_waited (r : ℕ) (conn : SparkConn) :
    Triple (fun s => s = conn) (onRdma do
        let rc ← get
        RdmaConn.reap (io r).waitSend (rc.sendsOut - 1))
      (fun _ s => Waited (io r) conn ∧ Unseen r conn s)
      (fun s => ¬ Waited (io r) conn ∧ Unseen r conn s) := by
  have hreap (rc : RdmaConn) : Triple (fun s => s = rc) (do
      let rc ← get
      RdmaConn.reap (io r).waitSend (rc.sendsOut - 1))
      (fun _ s => (∀ k < rc.sendsOut - 1, (io r).waitSend k = false) ∧
        s.consumed = rc.consumed ∧ s.last = rc.last)
      (fun s => (¬ ∀ k < rc.sendsOut - 1, (io r).waitSend k = false) ∧
        s.consumed = rc.consumed ∧ s.last = rc.last) := by
    refine .bind (Q := fun a s => a = rc ∧ s = rc) (.get fun _ h => ⟨h, h⟩) fun a =>
      .of_pure fun ha => ?_
    subst ha
    exact (reap_waited _ _ a).pre fun _ h => h ▸ ⟨rfl, rfl⟩
  refine (onRdma_rel hreap conn).weaken (fun _ h => h) ?_ ?_
  · rintro a s ⟨rc, rc', ⟨hwaits, hconsumed, hlast⟩, hrc, rfl⟩
    exact ⟨⟨rc, hrc, hwaits⟩, unseen_rdma hrc hconsumed hlast r⟩
  · rintro s (⟨rfl, hnone⟩ | ⟨rc, rc', ⟨hnot, hconsumed, hlast⟩, hrc, rfl⟩)
    · refine ⟨?_, .refl r s⟩
      rintro ⟨rc, hrc, -⟩
      rw [hnone] at hrc
      cases hrc
    · refine ⟨?_, unseen_rdma hrc hconsumed hlast r⟩
      rintro ⟨rc₁, hrc₁, hwaits⟩
      obtain rfl := Option.some.inj (hrc.symm.trans hrc₁)
      exact hnot hwaits

/-- A claim is seen by no ring, and fails exactly when some rank is not ready. -/
theorem claimHalf_ready (c : WireClient) :
    Triple (fun s => s.rdmaBody = true ∧ s.conns = c.conns) (claimHalf io)
      (fun _ s => Ready c io ∧ ComesBy Unseen c s) (fun s => ¬ Ready c io ∧ ComesBy Unseen c s) := by
  refine .bind (Q := fun a s => (a.rdmaBody = true ∧ a.conns = c.conns) ∧ s = a)
    (.get fun _ h => ⟨h, rfl⟩) fun a => .of_pure fun ha => ?_
  refine .bind (Q := fun _ s => s = { a with sendHalf := a.sendHalf ^^^ 1 }) (.set fun _ _ => rfl)
    fun _ => ?_
  have hcomes {R : ℕ → SparkConn → SparkConn → Prop} {s : WireClient}
      (h : ComesBy R { a with sendHalf := a.sendHalf ^^^ 1 } s) : ComesBy R c s :=
    ⟨h.rdmaBody, ha.2 ▸ h.rows⟩
  have hrow (r : ℕ) (conn : SparkConn) (t : Unit)
      (hconn : { a with sendHalf := a.sendHalf ^^^ 1 }.conns[r]? = some conn) :=
    onConn_row ((@claimConn_waited io r conn).weaken (fun _ h => h) (fun _ _ h => h)
      fun s h => show ¬ Ready c io ∧ Unseen r conn s from
        ⟨fun hready => h.1 (hready r conn (ha.2 ▸ hconn)), h.2⟩) t
  have hloop := forConns_rdma (c := { a with sendHalf := a.sendHalf ^^^ 1 })
    (R := fun r conn conn' => Waited (io r) conn ∧ Unseen r conn conn') (S := Unseen) hrow
    (fun _ _ _ h => h.2) Unseen.refl ha.1 ()
  refine .bind (hloop.weaken (fun _ h => h) (fun _ s h => ?_) fun _ h => ⟨h.1, hcomes h.2⟩)
    fun _ => .pure fun _ h => h
  have hrows := hcomes h
  refine ⟨fun r conn hconn => ?_, hrows.imp fun _ _ _ h => h.2⟩
  obtain ⟨conn', -, hrel⟩ := hrows.rows.2 r conn hconn
  rw [Nat.zero_add] at hrel
  exact hrel.1

/-- Posting the requests of a send does not fail. -/
def PostsOk (io : ℕ → Io) : Prop :=
  ∀ r, (io r).postSend = false ∧ ∀ slot, (io r).postRecv slot = false

/-- What posting a request does to the RDMA side of a rank. -/
theorem postRdma_posted (half r : ℕ) (rc : RdmaConn) :
    Triple (fun s => s = rc) (do
        RdmaConn.repost (io r).postRecv
        check (!(io r).postSend) (.io "ibv_post_send")
        modify fun rc => { rc with posted := rc.posted ++ [half], sendsOut := rc.sendsOut + 1 })
      (fun _ s => s.consumed = [] ∧ s.last = rc.last)
      (fun s => ¬ PostsOk io ∧ s.consumed = [] ∧ s.last = rc.last) := by
  refine .bind (Q := fun _ s => s.consumed = [] ∧ s.last = rc.last) ?_ fun _ => ?_
  · refine .bind (Q := fun a _ => a = rc) (.get fun _ h => h) fun a => ?_
    refine .bind (Q := fun _ s => s.consumed = [] ∧ s.last = rc.last)
      (.set fun _ h => h ▸ ⟨rfl, rfl⟩) fun _ => .check (fun _ _ h => h) fun hfail _ h =>
        ⟨fun hok => ?_, h⟩
    simp [(hok r).2] at hfail
  · refine .bind (Q := fun _ s => s.consumed = [] ∧ s.last = rc.last)
      (.check (fun _ _ h => h) fun hfail _ h => ⟨fun hok => ?_, h⟩) fun _ => .modify fun _ h => h
    simp [(hok r).1] at hfail

/-- What posting a request does to a connection that has its queue pair. -/
theorem postConn_posted (half r : ℕ) {conn : SparkConn} (hside : conn.rdma.isSome = true) :
    Triple (fun s => s = conn) (do
        modify fun conn => { conn with tx := { conn.tx with nextSeq := conn.tx.nextSeq + 1 } }
        onRdma do
          RdmaConn.repost (io r).postRecv
          check (!(io r).postSend) (.io "ibv_post_send")
          modify fun rc => { rc with posted := rc.posted ++ [half], sendsOut := rc.sendsOut + 1 })
      (fun _ => Posted r conn) (fun s => ¬ PostsOk io ∧ Posted r conn s) := by
  have hposted {rc rc' : RdmaConn} (h : rc'.consumed = [] ∧ rc'.last = rc.last)
      (hrc : conn.rdma = some rc) : Posted r conn { conn with
        tx := { conn.tx with nextSeq := conn.tx.nextSeq + 1 }, rdma := some rc' } := by
    refine ⟨rfl, hside.symm, h.1, ?_⟩
    rw [SparkConn.last, SparkConn.last, hrc]
    exact h.2
  refine .bind (Q := fun _ s => s =
    { conn with tx := { conn.tx with nextSeq := conn.tx.nextSeq + 1 } })
    (.modify fun _ h => h ▸ rfl) fun _ => ?_
  refine (onRdma_rel (postRdma_posted half r) _).weaken (fun _ h => h) ?_ ?_
  · rintro a s ⟨rc, rc', h, hrc, rfl⟩
    exact hposted h hrc
  · rintro s (⟨rfl, hnone⟩ | ⟨rc, rc', h, hrc, rfl⟩)
    · have hnone : conn.rdma = none := hnone
      rw [hnone] at hside
      cases hside
    · exact ⟨h.1, hposted h.2 hrc⟩

/-- Posting the request of a claimed half posts every rank's consumed slots again; where it fails,
those of a part of the ranks. -/
theorem postHalf_posted (half : ℕ) (hready : Ready c io) :
    Triple (ComesBy Unseen c) (postHalf half io) (fun _ => ComesBy Posted c)
      (fun s => ¬ PostsOk io ∧ ComesBy UnseenOrPosted c s) := by
  intro s hs
  have hside (r : ℕ) (conn : SparkConn) (hconn : s.conns[r]? = some conn) :
      conn.rdma.isSome = true := by
    obtain ⟨conn₀, hconn₀, hrel⟩ := hs.conn hconn
    obtain ⟨rc, hrc, -⟩ := hready r conn₀ hconn₀
    rw [hrel.side, hrc]
    rfl
  have hrow (r : ℕ) (conn : SparkConn) (t : Unit) (hconn : s.conns[r]? = some conn) :=
    onConn_row ((@postConn_posted io half r conn (hside r conn hconn)).weaken
      (fun _ h => h) (fun _ _ h => h)
      fun s h => show ¬ PostsOk io ∧ UnseenOrPosted r conn s from ⟨h.1, .inr h.2⟩) t
  have hloop := forConns_rdma (c := s) (R := Posted) (S := UnseenOrPosted) hrow
    (fun _ _ _ h => .inr h) (fun r conn => .inl (.refl r conn)) hs.rdmaBody ()
  refine (hloop.weaken (fun _ h => h) (fun _ _ h => ?_) fun _ h => ⟨h.1, ?_⟩) s rfl
  · exact hs.after_unseen h fun _ _ _ _ h h' => h.posted h'
  · refine hs.after_unseen h.2 fun _ _ _ _ h h' => ?_
    exact h'.imp h.trans h.posted

/-- What a send leaves: one that gets as far as posting its request posts the consumed slots, at
every rank or, where posting fails, at a part of them; no other send is seen by a ring. -/
inductive SendLeft (c : WireClient) (op : ClientOp) (s : WireClient) : Prop
  | short (hreaches : ¬ Reaches c op) (h : ComesBy Unseen c s)
  | posted (hreaches : Reaches c op) (h : ComesBy Posted c s)
  | broke (hreaches : Reaches c op) (hposts : ¬ PostsOk op.io) (h : ComesBy UnseenOrPosted c s)

/-- A send that fails before it touches the client. -/
theorem SendLeft.of_eq {op : ClientOp} (hc : c.rdmaBody = true) (hop : ¬ Claims c op)
    {s : WireClient} (hs : s = c) : SendLeft c op s := by
  rw [hs]
  exact .short (fun h => hop h.claims) (.refl hc)

/-- What a send does from its claim on, when its frame needs no filling. -/
theorem postHalf_sendLeft {op : ClientOp} (hio : op.io = io) (hclaims : Claims c op)
    (hready : Ready c io) (hfills : Fills c op) (half : ℕ) :
    Triple (ComesBy Unseen c) (postHalf half io) (fun _ => SendLeft c op) (SendLeft c op) := by
  subst hio
  exact (postHalf_posted half hready).weaken (fun _ h => h)
    (fun _ _ h => .posted ⟨hclaims, hready, hfills⟩ h)
    fun _ h => .broke ⟨hclaims, hready, hfills⟩ h.1 h.2

/-- The bookkeeping after a send. -/
theorem pushInflight_sendLeft {op : ClientOp} (x : UInt64 × UInt32 × ℕ) :
    Triple (SendLeft c op)
      (modify fun c => { c with inflight := c.inflight ++ [x] } : Client Unit)
      (fun _ => SendLeft c op) (SendLeft c op) := by
  refine .modify fun s h => ?_
  rcases h with ⟨hreaches, h⟩ | ⟨hreaches, h⟩ | ⟨hreaches, hposts, h⟩
  · exact .short hreaches ⟨h.rdmaBody, h.rows⟩
  · exact .posted hreaches ⟨h.rdmaBody, h.rows⟩
  · exact .broke hreaches hposts ⟨h.rdmaBody, h.rows⟩

/-- The claim of a send; a send whose claim fails is seen by no ring. -/
theorem claimHalf_sendLeft {op : ClientOp} (hio : op.io = io) {a : WireClient}
    (ha : a.rdmaBody = true ∧ a.conns = c.conns) :
    Triple (fun s => s = a) (claimHalf io) (fun _ s => Ready c io ∧ ComesBy Unseen c s)
      (SendLeft c op) := by
  subst hio
  exact (claimHalf_ready c).weaken (fun _ h => h ▸ ha) (fun _ _ h => h) fun _ h =>
    .short (fun hreaches => h.1 hreaches.ready) h.2

variable {layerId : UInt32} {tokens topk : ℕ} {fill : Bool} {routes : List (UInt32 × UInt32)}

theorem moeSendDevice_left (hc : c.rdmaBody = true) :
    Triple (fun s => s = c) (moeSendDevice layerId tokens topk fill io)
      (fun _ => SendLeft c (.sendDevice layerId tokens topk fill io))
      (SendLeft c (.sendDevice layerId tokens topk fill io)) := by
  refine .bind get_triple fun a => .of_pure fun ha => ?_
  subst ha
  refine .bind (Q := fun _ s => s = a) (.check (fun _ _ h => h) fun hnot => ?_) fun _ => ?_
  · rw [hc] at hnot
    cases hnot
  refine .bind (.guard_not fun hnot _ h => ?_) fun _ => .of_pure fun hlimit => ?_
  · refine .of_eq hc ?_ h
    exact hnot
  refine .bind (takeRequestId_triple a) fun requestId => .of_pure fun hid => ?_
  subst hid
  refine .bind (claimHalf_sendLeft rfl ⟨hc, rfl⟩) fun half => .of_pure fun hready => ?_
  refine .bind (wireCall_triple fun e he _ h => .short (fun hreaches => ?_) h) fun layout =>
    .of_pure fun hlayout => ?_
  · obtain ⟨layout, hlayout⟩ := hreaches.fills.2
    rw [hlayout] at he
    cases he
  refine .bind (Q := fun _ s => fill = true ∧ ComesBy Unseen a s)
    (.check (fun hfill _ h => ⟨hfill, h⟩) fun hfill _ h => .short (fun hreaches => ?_) h)
    fun _ => .of_pure fun hfill => ?_
  · rw [hreaches.fills.1] at hfill
    cases hfill
  refine .bind (postHalf_sendLeft rfl ?_ hready ?_ half) fun _ => pushInflight_sendLeft _
  · exact hlimit
  · exact ⟨hfill, layout, hlayout⟩

theorem moeSendMapped_left (hc : c.rdmaBody = true) :
    Triple (fun s => s = c) (moeSendMapped layerId routes topk fill io)
      (fun _ => SendLeft c (.sendMapped layerId routes topk fill io))
      (SendLeft c (.sendMapped layerId routes topk fill io)) := by
  refine .bind get_triple fun a => .of_pure fun ha => ?_
  subst ha
  refine .bind (Q := fun _ s => s = a) (.check (fun _ _ h => h) fun hnot => ?_) fun _ => ?_
  · rw [hc] at hnot
    cases hnot
  refine .bind (.guard_not fun hnot _ h => ?_) fun _ => .of_pure fun hrows => ?_
  · refine .of_eq hc (fun hop => hnot ?_) h
    exact hop.1
  refine .bind (.guard_not fun hnot _ h => ?_) fun _ => .of_pure fun hlimit => ?_
  · refine .of_eq hc (fun hop => hnot ?_) h
    exact hop.2
  refine .bind (takeRequestId_triple a) fun requestId => .of_pure fun hid => ?_
  subst hid
  refine .bind (claimHalf_sendLeft rfl ⟨hc, rfl⟩) fun half => .of_pure fun hready => ?_
  refine .bind (wireCall_triple fun e he _ h => .short (fun hreaches => ?_) h) fun frame =>
    .of_pure fun hframe => ?_
  · obtain ⟨frame, hframe, -⟩ := hreaches.fills.2
    rw [hframe] at he
    cases he
  refine .bind (.guard_not fun hnot _ h => .short (fun hreaches => ?_) h) fun _ =>
    .of_pure fun hlayout => ?_
  · obtain ⟨frame', hframe', hlayout⟩ := hreaches.fills.2
    rw [hframe] at hframe'
    obtain rfl := Except.ok.inj hframe'
    exact hnot hlayout
  refine .bind (Q := fun _ s => fill = true ∧ ComesBy Unseen a s)
    (.check (fun hfill _ h => ⟨hfill, h⟩) fun hfill _ h => .short (fun hreaches => ?_) h)
    fun _ => .of_pure fun hfill => ?_
  · rw [hreaches.fills.1] at hfill
    cases hfill
  refine .bind (postHalf_sendLeft rfl ?_ hready ?_ half) fun _ => pushInflight_sendLeft _
  · exact ⟨hrows, hlimit⟩
  · exact ⟨hfill, frame, hframe, hlayout⟩

/-- The layer's frame, encoded. -/
theorem sendLayer_left (hc : c.rdmaBody = true) {op : ClientOp} (hio : op.io = io)
    {hiddenRows : List HiddenRow} {nocrc : Bool}
    (hop : Claims c op ↔ routes.length = tokens * topk ∧ ∃ bytes,
      encodeRequestSeq (layerRequest c.nextRequestId layerId tokens hiddenRows routes topk 0) 0
        c.naive nocrc = .ok bytes ∧ fitsHalf bytes = true) (hfills : Fills c op) :
    Triple (fun s => s = c) (sendLayer layerId tokens hiddenRows routes topk nocrc io)
      (fun _ => SendLeft c op) (SendLeft c op) := by
  refine .bind (.guard_not fun hnot _ h => ?_) fun _ => .of_pure fun hroutes => ?_
  · exact .of_eq hc (fun h => hnot (hop.mp h).1) h
  refine .bind (takeRequestId_triple c) fun requestId => .of_pure fun hid => ?_
  subst hid
  refine .bind get_triple fun a => .of_pure fun ha => ?_
  subst ha
  have htaken {s : WireClient} (hs : s = c.idTaken) : ComesBy Unseen c s := by
    subst hs
    exact ⟨hc, .refl Unseen.refl⟩
  refine .ite (fun _ => ?_) fun htcp => absurd hc htcp
  refine .bind (wireCall_triple fun e he _ h => .short (fun hreaches => ?_) (htaken h))
    fun bytes => .of_pure fun hbytes => ?_
  · obtain ⟨-, bytes, hbytes, -⟩ := hop.mp hreaches.claims
    have he : encodeRequestSeq (layerRequest c.nextRequestId layerId tokens hiddenRows routes topk 0)
      0 c.naive nocrc = .error e := he
    rw [hbytes] at he
    cases he
  have hbytes : encodeRequestSeq (layerRequest c.nextRequestId layerId tokens hiddenRows routes topk
    0) 0 c.naive nocrc = .ok bytes := hbytes
  refine .bind (Q := fun _ s => fitsHalf bytes = true ∧ s = c.idTaken)
    (.check (fun hfits _ h => ⟨hfits, h⟩) fun hfits _ h => .short (fun hreaches => ?_) (htaken h))
    fun _ => .of_pure fun hfits => ?_
  · obtain ⟨-, bytes', hbytes', hfits'⟩ := hop.mp hreaches.claims
    rw [hbytes] at hbytes'
    obtain rfl := Except.ok.inj hbytes'
    rw [hfits'] at hfits
    cases hfits
  refine .bind (claimHalf_sendLeft hio ⟨hc, rfl⟩) fun half => .of_pure fun hready => ?_
  exact .bind (postHalf_sendLeft hio (hop.mpr ⟨hroutes, bytes, hbytes, hfits⟩) hready hfills half)
    fun _ => .pure fun _ h => h

theorem moeSendRaw_left (hc : c.rdmaBody = true) {payload scales : List UInt8} {nocrc : Bool} :
    Triple (fun s => s = c) (moeSendRaw layerId payload scales routes topk nocrc io)
      (fun _ => SendLeft c (.sendRaw layerId payload scales routes topk nocrc io))
      (SendLeft c (.sendRaw layerId payload scales routes topk nocrc io)) := by
  refine .bind (.guard_not fun hnot _ h => ?_) fun _ => .of_pure fun hplanes => ?_
  · refine .of_eq hc (fun hop => hnot ?_) h
    exact hop.1
  refine .bind get_triple fun a => .of_pure fun ha => ?_
  subst ha
  refine .bind (.guard_not fun hnot _ h => ?_) fun _ => .of_pure fun hlimit => ?_
  · refine .of_eq hc (fun hop => hnot ?_) h
    rw [hc]
    exact hop.2.1
  rw [hc] at hlimit
  have hop : Claims a (.sendRaw layerId payload scales routes topk nocrc io) ↔
      routes.length = payload.length / hiddenDim * topk ∧ ∃ bytes,
        encodeRequestSeq (layerRequest a.nextRequestId layerId (payload.length / hiddenDim)
          (planeRows payload scales (payload.length / hiddenDim)) routes topk 0) 0 a.naive nocrc =
          .ok bytes ∧ fitsHalf bytes = true := by
    rw [Claims]
    exact ⟨fun h => h.2.2, fun h => ⟨hplanes, hlimit, h⟩⟩
  have hio : ClientOp.io (.sendRaw layerId payload scales routes topk nocrc io) = io := rfl
  have hfills : Fills a (.sendRaw layerId payload scales routes topk nocrc io) := trivial
  have hlayer := sendLayer_left hc hio hop hfills
  exact .bind hlayer fun requestId => pushInflight_sendLeft _

/-! ### Receives -/

/-- The RDMA side of a receive: the slot is consumed before the frame is checked. -/
def Consumed (io : Io) (rc rc' : RdmaConn) : Prop :=
  ∃ slot frame, io.waitRecv = some (slot, frame) ∧ rc'.consumed = rc.consumed ++ [slot] ∧
    (rc'.last = rc.last ∨ rc'.last = some (slot, frame.length))

/-- What taking a completion does to the RDMA side of a rank. -/
theorem recvCompletion_took (layerId : UInt32) (requestId : UInt64) (tokens rank : ℕ) (io : Io)
    (rc : RdmaConn) :
    Triple (fun s => s = rc) (match io.waitRecv with
      | none => throw (.io "rdma: return timed out")
      | some (slot, frame) => do
        modify fun rc => { rc with consumed := rc.consumed ++ [slot] }
        check (headerLen ≤ frame.length) (.refused "rdma: short frame")
        let seq ← call (validateReturnHeader (frame.take headerLen) rank layerId requestId tokens)
        check (frame.length = headerLen + tokens * returnRowBytesCanonical)
          (.refused "rdma: frame length")
        modify fun rc => { rc with last := some (slot, frame.length) }
        return seq)
      (fun _ rc' => ∃ slot frame, io.waitRecv = some (slot, frame) ∧
        rc'.consumed = rc.consumed ++ [slot] ∧ rc'.last = some (slot, frame.length))
      (fun rc' => rc' = rc ∨ Consumed io rc rc') := by
  split
  · exact .throw fun _ h => .inl h
  · next slot frame hwait =>
    have hheld {rc' : RdmaConn} (h : rc'.consumed = rc.consumed ++ [slot] ∧ rc'.last = rc.last) :
        rc' = rc ∨ Consumed io rc rc' := .inr ⟨slot, frame, hwait, h.1, .inl h.2⟩
    refine .bind (Q := fun _ rc' => rc'.consumed = rc.consumed ++ [slot] ∧ rc'.last = rc.last)
      (.modify fun _ h => h ▸ ⟨rfl, rfl⟩) fun _ => ?_
    refine .bind (Q := fun _ rc' => rc'.consumed = rc.consumed ++ [slot] ∧ rc'.last = rc.last)
      (.check (fun _ _ h => h) fun _ _ h => hheld h) fun _ => ?_
    refine .bind (Q := fun _ rc' => rc'.consumed = rc.consumed ++ [slot] ∧ rc'.last = rc.last)
      (.call (fun _ _ _ h => h) fun _ _ _ h => hheld h) fun seq => ?_
    refine .bind (Q := fun _ rc' => rc'.consumed = rc.consumed ++ [slot] ∧ rc'.last = rc.last)
      (.check (fun _ _ h => h) fun _ _ h => hheld h) fun _ => ?_
    refine .bind (Q := fun _ rc' => rc'.consumed = rc.consumed ++ [slot] ∧
      rc'.last = some (slot, frame.length)) (.modify fun _ h => ⟨h.1, rfl⟩) fun _ =>
      .pure fun _ h => ⟨slot, frame, hwait, h⟩

theorem recvRdma_took (layerId : UInt32) (requestId : UInt64) (tokens r : ℕ) (conn : SparkConn) :
    Triple (fun s => s = conn) (recvRdma layerId requestId tokens (io r))
      (fun _ => Took io r conn) (UnseenOrDrawn io r conn) := by
  refine .bind (Q := fun a s => a = conn ∧ s = conn) (.get fun _ h => ⟨h, h⟩) fun a =>
    .of_pure fun ha => ?_
  subst ha
  refine .bind (Q := fun _ => Took io r a) ((onRdma_rel
    (recvCompletion_took layerId requestId tokens a.rank (io r)) a).weaken (fun _ h => h) ?_ ?_)
    fun seq => ?_
  · rintro seq s ⟨rc, rc', ⟨slot, frame, hwait, hconsumed, hlast⟩, hrc, rfl⟩
    refine ⟨rfl, by rw [hrc]; rfl, slot, frame, hwait, ?_, hlast⟩
    rw [SparkConn.consumed, SparkConn.consumed, hrc]
    exact hconsumed
  · rintro s (⟨rfl, -⟩ | ⟨rc, rc', rfl | ⟨slot, frame, hwait, hconsumed, hlast⟩, hrc, rfl⟩)
    · exact .inl (.refl r s)
    · exact .inl (unseen_rdma hrc rfl rfl r)
    · refine .inr ⟨rfl, by rw [hrc]; rfl, slot, frame, hwait, ?_, ?_⟩
      · rw [SparkConn.consumed, SparkConn.consumed, hrc]
        exact hconsumed
      · rw [SparkConn.last, SparkConn.last, hrc]
        exact hlast
  · refine .bind (Q := fun b s => Took io r a b ∧ Took io r a s) (.get fun _ h => ⟨h, h⟩) fun b =>
      .of_pure fun hb => ?_
    exact .bind (Q := fun _ => Took io r a) (.set fun _ _ => ⟨hb.seq, hb.side, hb.slot⟩) fun _ =>
      .call (fun _ _ _ h => h) fun _ _ _ h => .inr h.drawn

theorem recvRanks_took (hc : c.rdmaBody = true) (layerId : UInt32) (requestId : UInt64)
    (tokens : ℕ) (nocrc : Bool) :
    Triple (fun s => s = c) (recvRanks layerId requestId tokens nocrc io)
      (fun _ => ComesBy (Took io) c) (ComesBy (UnseenOrDrawn io) c) := by
  refine .bind get_triple fun a => .of_pure fun ha => ?_
  subst ha
  refine .ite (fun _ => ?_) fun htcp => absurd hc htcp
  have hrow (r : ℕ) (conn : SparkConn) (t : Unit) (_ : a.conns[r]? = some conn) :=
    onConn_row ((@recvRdma_took io layerId requestId tokens r conn).weaken
      (fun _ h => h) (fun _ _ h => h)
      fun s h => show True ∧ UnseenOrDrawn io r conn s from ⟨trivial, h⟩) t
  exact (forConns_rdma hrow (fun _ _ _ h => .inr h.drawn) (fun r conn => .inl (.refl r conn)) hc
    ()).weaken (fun _ h => h) (fun _ _ h => h) fun _ h => h.2

/-- What a receive leaves: one that succeeds has collected from every rank. -/
theorem moeRecvRaw_took (hc : c.rdmaBody = true) (nocrc : Bool) :
    Triple (fun s => s = c) (moeRecvRaw nocrc io) (fun _ => ComesBy (Took io) c)
      (ComesBy (UnseenOrDrawn io) c) := by
  refine .bind (Q := fun _ => ComesBy Unseen c) ((deliver_rows c).weaken (fun _ h => h) ?_
    fun _ h => h.elim) fun _ => ?_
  · rintro u s ⟨hs, hrows⟩
    refine ⟨by rw [hs]; exact hc, hrows.imp ?_⟩
    rintro r conn conn' rfl
    exact ⟨rfl, rfl, rfl, rfl⟩
  refine .bind (Q := fun a s => ComesBy Unseen c a ∧ s = a) (.get fun _ h => ⟨h, rfl⟩) fun a =>
    .of_pure fun ha => ?_
  split
  · refine .throw fun s hs => ?_
    rw [hs]
    exact ha.imp fun _ _ _ h => .inl h
  · next requestId layerId tokens rest hinflight =>
    refine .bind (Q := fun _ s => s = { a with inflight := rest }) (.set fun _ _ => rfl) fun _ => ?_
    have ha : ComesBy Unseen c { a with inflight := rest } := ⟨ha.rdmaBody, ha.rows⟩
    exact .bind ((recvRanks_took (c := { a with inflight := rest }) ha.rdmaBody layerId requestId
      tokens nocrc).weaken (fun _ h => h)
      (fun _ _ h => ha.after_unseen h fun _ _ _ _ h h' => h.took h')
      fun _ h => ha.after_unseen h fun _ _ _ _ h h' => h'.imp h.trans h.drawn) fun _ =>
        .pure fun _ h => h

/-! ### The rings after a call -/

/-- What a call that keeps `P` whether or not it fails leaves. -/
theorem clientStep_of_triple {op : ClientOp} {P : WireClient → Prop}
    (h : Triple (fun s => s = c) op.run (fun _ => P) P) : P (clientStep c op) := by
  have hpost := h c rfl
  rw [clientStep]
  cases hres : op.run c with
  | ok a c' =>
    rw [hres] at hpost
    exact hpost
  | error e c' =>
    rw [hres] at hpost
    exact hpost

namespace RecvEnd

variable {e : RecvEnd} {conn conn' : SparkConn} {r : ℕ}

theorem after_unseen {io : Io} (h : Unseen r conn conn') : e.after io conn conn' = e := by
  rw [after, if_neg (not_not.mpr h.seq), if_neg (by rw [h.consumed]; exact lt_irrefl _)]

theorem after_posted {io : Io} (h : Posted r conn conn')
    (hrepost : ∀ slot, io.postRecv slot = false) : e.after io conn conn' =
    { e with
      posted := e.posted ++ conn.consumed
      answers := if io.postSend then e.answers else e.answers + 1 } := by
  have hseq : conn'.tx.nextSeq ≠ conn.tx.nextSeq := by
    rw [h.seq]
    exact fun hsame => absurd (UInt64.add_eq_left.mp hsame) (by decide)
  have htake : (conn.consumed.takeWhile fun slot => !io.postRecv slot) = conn.consumed :=
    List.takeWhile_eq_self_iff.mpr fun slot _ => by rw [hrepost slot]; rfl
  have hany : conn.consumed.any io.postRecv = false :=
    List.any_eq_false.mpr fun slot _ => by rw [hrepost slot]; exact Bool.false_ne_true
  rw [after, if_pos hseq, htake, hany, Bool.or_false]

theorem after_drawn (h : Drawn io r conn conn') (i : Io) :
    e.after i conn conn' = { e with landed := e.landed.tail } := by
  obtain ⟨slot, frame, -, hconsumed, -⟩ := h.slot
  rw [after, if_neg (not_not.mpr h.seq), if_pos]
  rw [hconsumed, List.length_append]
  exact Nat.lt_succ_self conn.consumed.length

end RecvEnd

namespace Slots

variable {e : RecvEnd} {conn conn' : SparkConn} {r : ℕ}

theorem length_eq (h : Slots e conn) :
    e.posted.length + e.landed.length + conn.consumed.length = 2 := by
  have hlen := h.parts.length_eq
  rwa [List.length_append, List.length_append, List.length_map] at hlen

theorem unseen (h : Slots e conn) (hrel : Unseen r conn conn') : Slots e conn' :=
  ⟨by rw [hrel.consumed]; exact h.parts, h.room⟩

/-- A slot is in one place only. -/
theorem not_posted (h : Slots e conn) {slot : ℕ} (hslot : slot ∈ conn.consumed) :
    slot ∉ e.posted := by
  have hnodup : (e.posted ++ e.landed.map (·.1) ++ conn.consumed).Nodup :=
    h.parts.nodup_iff.mpr (by decide)
  intro hposted
  exact (List.nodup_append.mp hnodup).2.2 slot (List.mem_append_left _ hposted) slot hslot rfl

/-- **Posting** the consumed slots again makes room for one more return where the rank owed one at
most. -/
theorem posted (h : Slots e conn) {io : Io} (hrepost : ∀ slot, io.postRecv slot = false)
    (howed : io.postSend = false → e.owed ≤ 1) (hrel : Posted r conn conn') :
    Slots (e.after io conn conn') conn' := by
  have hlen := h.length_eq
  have hroom := h.room
  rw [RecvEnd.owed] at howed
  rw [RecvEnd.after_posted hrel hrepost]
  refine ⟨?_, ?_⟩
  · rw [hrel.consumed, List.append_nil]
    have hswap : (e.posted ++ conn.consumed ++ e.landed.map (·.1)).Perm
        (e.posted ++ e.landed.map (·.1) ++ conn.consumed) := by
      rw [List.append_assoc, List.append_assoc]
      exact List.perm_append_comm.append_left e.posted
    exact hswap.trans h.parts
  · show (if io.postSend then e.answers else e.answers + 1) ≤ (e.posted ++ conn.consumed).length
    rw [List.length_append]
    cases hsend : io.postSend with
    | true =>
      rw [if_pos rfl]
      omega
    | false =>
      have hone := howed hsend
      rw [if_neg Bool.false_ne_true]
      omega

/-- **Collecting** moves the slot of the oldest landed return. -/
theorem drawn (h : Slots e conn) {i : Io} (hrel : Drawn io r conn conn')
    (hwait : (io r).waitRecv = e.landed.head?) : Slots (e.after i conn conn') conn' := by
  rw [RecvEnd.after_drawn hrel]
  obtain ⟨slot, frame, hslot, hconsumed, -⟩ := hrel.slot
  refine ⟨?_, h.room⟩
  have hparts := h.parts
  cases hlanded : e.landed with
  | nil =>
    rw [hlanded, hslot] at hwait
    cases hwait
  | cons head rest =>
    rw [hlanded, hslot, List.head?_cons] at hwait
    obtain rfl := Option.some.inj hwait
    rw [hlanded, List.map_cons] at hparts
    rw [hconsumed, List.tail_cons]
    refine List.Perm.trans ?_ hparts
    rw [List.append_assoc, List.append_assoc]
    refine List.Perm.append_left e.posted ?_
    rw [← List.append_assoc]
    exact List.perm_append_singleton slot _

/-- **Landing** moves the oldest posted slot. -/
theorem land (h : Slots e conn) (frame : List UInt8) : Slots (e.land frame) conn := by
  obtain ⟨posted, landed, answers⟩ := e
  cases posted with
  | nil => exact h
  | cons slot posted =>
    cases answers with
    | zero => exact h
    | succ answers =>
      refine ⟨?_, Nat.le_of_succ_le_succ h.room⟩
      refine List.Perm.trans ?_ h.parts
      show (posted ++ (landed ++ [(slot, frame)]).map (·.1) ++ conn.consumed).Perm
        (slot :: posted ++ landed.map (·.1) ++ conn.consumed)
      rw [List.map_append, ← List.append_assoc]
      exact (List.perm_append_singleton slot _).append_right conn.consumed

end Slots

/-! ### Runs -/

/-- The invariant: the slots of every rank are in order, and every plane in use is consumed. -/
structure RingInv (s : RingSys) : Prop where
  rdmaBody : s.client.rdmaBody = true
  ranks : s.client.conns.length = sparks
  slots : ∀ r conn, s.client.conns[r]? = some conn → Slots (s.ends r) conn
  plane : s.planes = true → ∀ (r : ℕ) (conn : SparkConn), s.client.conns[r]? = some conn →
    ∃ slot len, conn.last = some (slot, len) ∧ slot ∈ conn.consumed

theorem RingInv.ok {s : RingSys} (h : RingInv s) : RingOk s := by
  refine ⟨h.slots, fun hplanes r conn hconn => ?_⟩
  obtain ⟨slot, len, hlast, hslot⟩ := h.plane hplanes r conn hconn
  exact ⟨slot, len, hlast, (h.slots r conn hconn).not_posted hslot⟩

/-- The ring of a rank after a call, told by its connection. -/
theorem ends_ringStep {s : RingSys} {op : ClientOp} {r : ℕ} {conn conn' : SparkConn}
    (hconn : s.client.conns[r]? = some conn)
    (hconn' : (clientStep s.client (op.onRings s.ends)).conns[r]? = some conn') :
    (ringStep s (.call op)).ends r =
      (s.ends r).after ((op.onRings s.ends).io r) conn conn' := by
  simp only [ringStep, hconn, hconn']

/-- A call that relates the connections by `R` keeps the rings in order when `R` keeps the slots of
a rank in order and the planes in use. -/
theorem RingInv.call {s : RingSys} (hs : RingInv s) {op : ClientOp}
    {R : ℕ → SparkConn → SparkConn → Prop}
    (hcomes : ComesBy R s.client (clientStep s.client (op.onRings s.ends)))
    (hslots : ∀ r conn conn', s.client.conns[r]? = some conn → R r conn conn' →
      Slots ((s.ends r).after ((op.onRings s.ends).io r) conn conn') conn')
    (hplane : planesAfter s (op.onRings s.ends) = true → ∀ (r : ℕ) (conn conn' : SparkConn),
      s.client.conns[r]? = some conn → R r conn conn' →
      ∃ slot len, conn'.last = some (slot, len) ∧ slot ∈ conn'.consumed) :
    RingInv (ringStep s (.call op)) where
  rdmaBody := hcomes.rdmaBody
  ranks := hcomes.rows.1.trans hs.ranks
  slots := by
    intro r conn' hconn'
    obtain ⟨conn, hconn, hrel⟩ := hcomes.conn hconn'
    rw [ends_ringStep hconn hconn']
    exact hslots r conn conn' hconn hrel
  plane := by
    intro hplanes r conn' hconn'
    obtain ⟨conn, hconn, hrel⟩ := hcomes.conn hconn'
    exact hplane hplanes r conn conn' hconn hrel

/-- What a send leaves. -/
theorem sendLeft_clientStep {op : ClientOp} (hop : op.Sends) (hc : c.rdmaBody = true) :
    SendLeft c op (clientStep c op) := by
  cases op with
  | complete rank => exact hop.elim
  | sendRaw layerId payload scales routes topk nocrc io =>
    exact clientStep_of_triple (moeSendRaw_left hc)
  | sendMapped layerId routes topk fill io => exact clientStep_of_triple (moeSendMapped_left hc)
  | sendDevice layerId tokens topk fill io => exact clientStep_of_triple (moeSendDevice_left hc)
  | recvRaw nocrc io => exact hop.elim

/-- No wait for a return is part of a send. -/
theorem ClientOp.Sends.onRings {op : ClientOp} (hop : op.Sends) (ends : ℕ → RecvEnd) :
    op.onRings ends = op := by
  cases op with
  | complete rank => exact hop.elim
  | sendRaw layerId payload scales routes topk nocrc io => rfl
  | sendMapped layerId routes topk fill io => rfl
  | sendDevice layerId tokens topk fill io => rfl
  | recvRaw nocrc io => exact hop.elim

/-- A send may post the slots of the planes. -/
theorem ClientOp.Sends.planesAfter {op : ClientOp} (hop : op.Sends) (s : RingSys) :
    planesAfter s op = false := by
  cases op with
  | complete rank => exact hop.elim
  | sendRaw layerId payload scales routes topk nocrc io => rfl
  | sendMapped layerId routes topk fill io => rfl
  | sendDevice layerId tokens topk fill io => rfl
  | recvRaw nocrc io => exact hop.elim

/-- Only a send gets as far as posting a request. -/
theorem Reaches.sends {op : ClientOp} (h : Reaches c op) : op.Sends := by
  have hclaims := h.claims
  cases op with
  | complete rank => exact hclaims
  | sendRaw layerId payload scales routes topk nocrc io => trivial
  | sendMapped layerId routes topk fill io => trivial
  | sendDevice layerId tokens topk fill io => trivial
  | recvRaw nocrc io => exact hclaims

/-- A send. -/
theorem RingInv.send {s : RingSys} (hs : RingInv s) {op : ClientOp} (hop : op.Sends)
    (hrepost : ∀ r slot, (op.io r).postRecv slot = false) (hroomy : SendsRoomy s (.call op)) :
    RingInv (ringStep s (.call op)) := by
  have hsame := hop.onRings s.ends
  have hplanes : planesAfter s (op.onRings s.ends) = true → False := by
    rw [hsame, hop.planesAfter s]
    exact Bool.false_ne_true
  have hposts (hreaches : Reaches s.client op) {r : ℕ} {conn conn' : SparkConn}
      (hconn : s.client.conns[r]? = some conn) (hrel : Posted r conn conn') :
      Slots ((s.ends r).after (op.io r) conn conn') conn' := by
    have hr : r < sparks := hs.ranks ▸ (List.getElem?_eq_some_iff.mp hconn).1
    exact (hs.slots r conn hconn).posted (hrepost r) (hroomy hreaches r hr) hrel
  have hunseens {r : ℕ} {conn conn' : SparkConn} (hconn : s.client.conns[r]? = some conn)
      (hrel : Unseen r conn conn') : Slots ((s.ends r).after (op.io r) conn conn') conn' := by
    rw [RecvEnd.after_unseen hrel]
    exact (hs.slots r conn hconn).unseen hrel
  have hleft := sendLeft_clientStep hop hs.rdmaBody
  rw [← hsame] at hposts hunseens
  rcases hleft with ⟨-, hcomes⟩ | ⟨hreaches, hcomes⟩ | ⟨hreaches, -, hcomes⟩
  · exact hs.call (hsame.symm ▸ hcomes) (fun r conn conn' hconn hrel => hunseens hconn hrel)
      fun h => (hplanes h).elim
  · exact hs.call (hsame.symm ▸ hcomes)
      (fun r conn conn' hconn hrel => hposts (hsame.symm ▸ hreaches) hconn hrel)
      fun h => (hplanes h).elim
  · refine hs.call (hsame.symm ▸ hcomes) (fun r conn conn' hconn hrel => ?_)
      fun h => (hplanes h).elim
    rcases hrel with hrel | hrel
    · exact hunseens hconn hrel
    · exact hposts (hsame.symm ▸ hreaches) hconn hrel

/-- A completion a receive takes is the ring's oldest landed return. -/
theorem waitRecv_onRings {ends : ℕ → RecvEnd} {nocrc : Bool} {io : ℕ → Io} {r slot : ℕ}
    {frame : List UInt8}
    (h : (((ClientOp.recvRaw nocrc io).onRings ends).io r).waitRecv = some (slot, frame)) :
    (((ClientOp.recvRaw nocrc io).onRings ends).io r).waitRecv = (ends r).landed.head? := by
  obtain ⟨w, -, hhead⟩ := Option.bind_eq_some_iff.mp h
  rw [h, hhead]

/-- A receive, whether or not it fails. -/
theorem RingInv.recv {s : RingSys} (hs : RingInv s) (nocrc : Bool) (io : ℕ → Io) :
    RingInv (ringStep s (.call (.recvRaw nocrc io))) := by
  have hdrawn {r : ℕ} {conn conn' : SparkConn} (hconn : s.client.conns[r]? = some conn)
      (h : Drawn ((ClientOp.recvRaw nocrc io).onRings s.ends).io r conn conn') :
      Slots ((s.ends r).after (((ClientOp.recvRaw nocrc io).onRings s.ends).io r) conn conn')
        conn' := by
    obtain ⟨slot, frame, hslot, -⟩ := h.slot
    exact (hs.slots r conn hconn).drawn h (waitRecv_onRings hslot)
  have hrun : Triple (fun s' => s' = s.client) ((ClientOp.recvRaw nocrc io).onRings s.ends).run
      (fun _ => ComesBy (Took ((ClientOp.recvRaw nocrc io).onRings s.ends).io) s.client)
      (ComesBy (UnseenOrDrawn ((ClientOp.recvRaw nocrc io).onRings s.ends).io) s.client) :=
    .bind (moeRecvRaw_took hs.rdmaBody nocrc) fun _ => .pure fun _ h => h
  have hpost := hrun s.client rfl
  have hplanes : planesAfter s ((ClientOp.recvRaw nocrc io).onRings s.ends) =
      match ((ClientOp.recvRaw nocrc io).onRings s.ends).run s.client with
      | .ok _ _ => true
      | .error _ _ => s.planes := rfl
  cases hres : ((ClientOp.recvRaw nocrc io).onRings s.ends).run s.client with
  | ok u c' =>
    rw [hres] at hpost
    have hclient : clientStep s.client ((ClientOp.recvRaw nocrc io).onRings s.ends) = c' := by
      rw [clientStep, hres]
    refine hs.call (hclient.symm ▸ hpost) (fun r conn conn' hconn h => hdrawn hconn h.drawn)
      fun _ r conn conn' _ h => ?_
    obtain ⟨slot, frame, -, hconsumed, hlast⟩ := h.slot
    exact ⟨slot, frame.length, hlast, by rw [hconsumed]; exact List.mem_concat_self⟩
  | error e c' =>
    rw [hres] at hpost
    rw [hres] at hplanes
    have hclient : clientStep s.client ((ClientOp.recvRaw nocrc io).onRings s.ends) = c' := by
      rw [clientStep, hres]
    refine hs.call (hclient.symm ▸ hpost) (fun r conn conn' hconn h => ?_)
      fun hp r conn conn' hconn h => ?_
    · rcases h with h | h
      · rw [RecvEnd.after_unseen h]
        exact (hs.slots r conn hconn).unseen h
      · exact hdrawn hconn h
    · rw [hplanes] at hp
      obtain ⟨slot, len, hlast, hslot⟩ := hs.plane hp r conn hconn
      rcases h with h | h
      · exact ⟨slot, len, h.last.trans hlast, by rw [h.consumed]; exact hslot⟩
      · obtain ⟨slot', frame, -, hconsumed, hlast' | hlast'⟩ := h.slot
        · refine ⟨slot, len, hlast'.trans hlast, ?_⟩
          rw [hconsumed]
          exact List.mem_append_left _ hslot
        · exact ⟨slot', frame.length, hlast', by rw [hconsumed]; exact List.mem_concat_self⟩

/-- The completion of a send is none of the ring's business. -/
theorem completeSend_unseen (hc : c.rdmaBody = true) (rank : ℕ) :
    ComesBy Unseen c (completeSend rank c) := by
  refine ⟨hc, List.length_modify .., fun r conn hconn => ?_⟩
  rw [completeSend, List.getElem?_modify, hconn]
  split
  · cases hrdma : conn.rdma with
    | none =>
      refine ⟨conn, ?_, .refl _ conn⟩
      simp [hrdma]
      rw [← hrdma]
    | some rc =>
      have hunseen : Unseen (0 + r) conn { conn with rdma := some rc.complete } :=
        @unseen_rdma conn rc rc.complete hrdma rfl rfl (0 + r)
      refine ⟨{ conn with rdma := some rc.complete }, ?_, hunseen⟩
      simp [hrdma]
  · exact ⟨conn, rfl, .refl _ conn⟩

/-- **Step.** -/
theorem RingInv.step {s : RingSys} (hs : RingInv s) {e : RingOp} (hrepost : Reposts e)
    (hroomy : SendsRoomy s e) : RingInv (ringStep s e) := by
  cases e with
  | land rank frame =>
    refine ⟨hs.rdmaBody, hs.ranks, fun r conn hconn => ?_, hs.plane⟩
    have hslots := hs.slots r conn hconn
    show Slots (Function.update s.ends rank ((s.ends rank).land frame) r) conn
    by_cases hr : r = rank
    · rw [hr, Function.update_self]
      exact (hr ▸ hslots).land frame
    · rw [Function.update_of_ne hr]
      exact hslots
  | call op =>
    cases op with
    | complete rank =>
      refine hs.call (completeSend_unseen hs.rdmaBody rank) (fun r conn conn' hconn h => ?_)
        fun hp r conn conn' hconn h => ?_
      · rw [RecvEnd.after_unseen h]
        exact (hs.slots r conn hconn).unseen h
      · obtain ⟨slot, len, hlast, hslot⟩ := hs.plane hp r conn hconn
        exact ⟨slot, len, h.last.trans hlast, by rw [h.consumed]; exact hslot⟩
    | sendRaw layerId payload scales routes topk nocrc io => exact hs.send trivial hrepost hroomy
    | sendMapped layerId routes topk fill io => exact hs.send trivial hrepost hroomy
    | sendDevice layerId tokens topk fill io => exact hs.send trivial hrepost hroomy
    | recvRaw nocrc io => exact hs.recv nocrc io

end Coordinator

end Mimo26

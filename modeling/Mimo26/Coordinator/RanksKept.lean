import Mimo26.Coordinator.Exchange

/-!
# The connections over a run

A call takes the connections out of the client, drives them and puts them back. The parallel receive
of a raw exchange joins every thread before it returns the first error. The parallel write, and the
parallel receive of a host-sum exchange, return at the first error they join: the connections are
dropped, and a client without connections sends to nobody and reads from nobody with success.

## Main definitions

* `HoldsRanks` — the client holds its connections to all ranks, in rank order
* `Contacts` — a raw send or receive that succeeds has reached every rank
* `ThreadFails` — a thread of a parallel write, or of a parallel host-sum receive, fails
* `ServesRanks` — the promise over a run

## Main results

* `holdsRanks_step` — kept by every call in which no such thread fails
* `servesRanks_iff` — the promise holds of exactly the runs in which none does
* `not_servesRanks_failedWrite` — a failing write breaks it, and the next send succeeds on nobody
-/

namespace Mimo26

namespace Coordinator

open Wire Fallible Runs

/-! ### The promise -/

/-- The client holds its connections to all ranks, in rank order. -/
def HoldsRanks (c : WireClient) : Prop := c.conns.map (·.rank) = List.range sparks

/-- Rank `r` was sent the request: its frame was written to the stream, or the half it is in was
posted. -/
def SentTo (c : WireClient) (frame : ℕ → RequestFrame) (nocrc : Bool) (r : ℕ)
    (conn conn' : SparkConn) : Prop :=
  conn'.rank = conn.rank ∧
    if c.rdmaBody then
      ∃ rc rc' n, conn.rdma = some rc ∧ conn'.rdma = some rc' ∧
        rc'.posted = rc.posted.drop n ++ [c.sendHalf]
    else
      ∃ bytes, (conn.tx.encodeRequest nocrc (frame r)).2 = .ok bytes ∧
        conn'.written = conn.written ++ bytes

/-- The frame is rank `r`'s return to the request, next on its connection. -/
def Validated (conn : SparkConn) (layerId : UInt32) (requestId : UInt64) (tokens : ℕ)
    (seqOnly : Bool) (frame : List UInt8) : Prop :=
  frame.length = headerLen + tokens * returnRowBytesCanonical ∧
    ∃ seq, validateReturnHeader (frame.take headerLen) conn.rank layerId requestId tokens =
      .ok seq ∧
      if seqOnly then (conn.rx.acceptSeq seq).2 = .ok ()
      else ∃ f, (conn.rx.accept false frame).2 = .ok (.return f)

/-- A return of the rank was read and validated. -/
def ReadFrom (c : WireClient) (layerId : UInt32) (requestId : UInt64) (tokens : ℕ) (nocrc : Bool)
    (io : ℕ → Io) (r : ℕ) (conn conn' : SparkConn) : Prop :=
  conn'.rank = conn.rank ∧
    if c.rdmaBody then
      ∃ slot frame rc', (io r).waitRecv = some (slot, frame) ∧
        Validated conn layerId requestId tokens true frame ∧
        conn'.rdma = some rc' ∧ rc'.last = some (slot, frame.length)
    else
      ∃ frame, conn.incoming ++ (io r).arrived = frame ++ conn'.incoming ∧
        Validated conn layerId requestId tokens nocrc frame ∧ conn'.buf = frame

/-- If the call is a raw send or receive that succeeds, every one of the ranks was sent the request,
or its return was read and validated. -/
def Contacts (c : WireClient) : ServeOp → Prop
  | .other (.sendRaw layerId payload scales routes topk nocrc io) =>
    let tokens := payload.length / hiddenDim
    ∀ c', moeSendRaw layerId payload scales routes topk nocrc io c = .ok () c' →
      ∀ r < sparks, ∃ conn conn', c.conns[r]? = some conn ∧ c'.conns[r]? = some conn' ∧
        conn.rank = r ∧
        SentTo c (layerRequest c.nextRequestId layerId tokens (planeRows payload scales tokens)
          routes topk) nocrc r conn conn'
  | .other (.recvRaw nocrc io) =>
    ∀ requestId layerId tokens rest, c.inflight = (requestId, layerId, tokens) :: rest →
      ∀ out c', moeRecvRaw nocrc io c = .ok out c' →
      ∀ r < sparks, ∃ conn conn', c.conns[r]? = some conn ∧ c'.conns[r]? = some conn' ∧
        conn.rank = r ∧ ReadFrom c layerId requestId tokens nocrc io r conn conn'
  | _ => True

/-- Throughout the run the client holds its connections, and its raw sends and receives succeed only
on all of them. -/
def ServesRanks (F : Type) [Fp32 F] (rdma : Bool) (ops : List ServeOp) : Prop :=
  (∀ n, HoldsRanks (run (serveStep F) (.connect rdma) (ops.take n))) ∧
    Along (serveStep F) Contacts (.connect rdma) ops

/-! ### The failing threads -/

/-- Encode the request for one rank. -/
def encodeRank (frame : ℕ → RequestFrame) (nocrc : Bool) (r : ℕ) :
    EStateM ClientError (SparkConn × List (List UInt8)) Unit := fun (conn, encoded) =>
  match conn.tx.encodeRequest nocrc (frame r) with
  | (tx, .ok bytes) => .ok () ({ conn with tx := tx }, encoded ++ [bytes])
  | (tx, .error e) => .error (.wire e) ({ conn with tx := tx }, encoded)

/-- Encode the request for every rank. -/
def encodeRanks (frame : ℕ → RequestFrame) (nocrc : Bool) : Client (List (List UInt8)) :=
  forConns (encodeRank frame nocrc) []

/-- The send of a layer reaches its parallel writes, and one of them fails. -/
def WriteFails (c : WireClient) (layerId : UInt32) (tokens : ℕ) (hiddenRows : List HiddenRow)
    (routes : List (UInt32 × UInt32)) (topk : ℕ) (nocrc : Bool) (io : ℕ → Io) : Prop :=
  c.rdmaBody = false ∧ 1 < tokens ∧ routes.length = tokens * topk ∧
    (∃ encoded c', encodeRanks (layerRequest c.nextRequestId layerId tokens hiddenRows routes topk)
      nocrc { c with nextRequestId := c.nextRequestId + 1 } = .ok encoded c') ∧
    ∃ r < c.conns.length, (io r).write ≠ none

/-- The exchange reaches its parallel receives, and one of them fails or gives a return that the sum
refuses. -/
def ReceiveFails (F : Type) [Fp32 F] (c : WireClient) (x : ExchangeCall) : Prop :=
  1 < x.tokens ∧ ∃ requestId c' e,
    sendLayer x.layerId x.tokens x.hiddenRows x.routes x.topk x.nocrc x.io c = .ok requestId c' ∧
    joinReturns (.new x.tokens hiddenDim .none : CoordinatorSum F) (c'.conns.mapIdx fun r conn =>
      recvFrameBlocking x.nocrc (x.io r)
        { conn with incoming := conn.incoming ++ (x.io r).arrived }) = .error e

/-- A thread whose error drops the connections fails. -/
def ThreadFails (F : Type) [Fp32 F] (c : WireClient) : ServeOp → Prop
  | .exchange x =>
    c.rdmaBody = false ∧ c.inflight = [] ∧
      (WriteFails c x.layerId x.tokens x.hiddenRows x.routes x.topk x.nocrc x.io ∨
        ReceiveFails F c x)
  | .other (.sendRaw layerId payload scales routes topk nocrc io) =>
    let tokens := payload.length / hiddenDim
    (payload.length = tokens * hiddenDim ∧ tokens ≠ 0 ∧
      scales.length = tokens * (hiddenDim / 32)) ∧ c.inflight = [] ∧
    WriteFails c layerId tokens (planeRows payload scales tokens) routes topk nocrc io
  | .other _ => False

/-! ### One connection -/

/-- The connection is to the same rank. -/
def SameRank (_ : ℕ) (conn conn' : SparkConn) : Prop := conn'.rank = conn.rank

theorem writeBlocking_row (bytes : List UInt8) (io : Io) (conn : SparkConn) :
    Outcome (fun _ s => s.rank = conn.rank ∧ s.written = conn.written ++ bytes)
      (fun s => s.rank = conn.rank) (writeBlocking bytes io conn) := by
  rw [writeBlocking]
  cases io.write with
  | some k => exact rfl
  | none => exact ⟨rfl, rfl⟩

theorem readExact_row (n : ℕ) (fail : Option ℕ) (text : String) (conn : SparkConn) :
    Triple (fun s => s = conn) (readExact n fail text)
      (fun bytes s => n ≤ conn.incoming.length ∧ bytes = conn.incoming.take n ∧
        s = { conn with incoming := conn.incoming.drop n }) (fun s => s.rank = conn.rank) := by
  refine .bind (Q := fun a s => a = conn ∧ s = conn) (.get fun _ h => ⟨h, h⟩) fun a =>
    .of_pure fun ha => ?_
  subst ha
  split
  · exact .bind (Q := fun _ s => s.rank = a.rank) (.set fun _ _ => rfl) fun _ =>
      .throw fun _ h => h
  · refine .ite (fun hle => ?_) fun _ => ?_
    · exact .bind (Q := fun _ s => s = { a with incoming := a.incoming.drop n })
        (.set fun _ _ => rfl) fun _ => .pure fun s hs => ⟨hle, rfl, hs⟩
    · exact .bind (Q := fun _ s => s.rank = a.rank) (.set fun _ _ => rfl) fun _ =>
        .throw fun _ h => h

theorem acceptSeqOnly_row (seq : UInt64) (conn : SparkConn) :
    Triple (fun s => s = conn) (acceptSeqOnly seq)
      (fun _ s => (conn.rx.acceptSeq seq).2 = .ok () ∧ s = { conn with rx := s.rx })
      (fun s => s.rank = conn.rank) := by
  refine .bind (Q := fun a s => a = conn ∧ s = conn) (.get fun _ h => ⟨h, h⟩) fun a =>
    .of_pure fun ha => ?_
  subst ha
  refine .bind (Q := fun _ s => s = { a with rx := (a.rx.acceptSeq seq).1 })
    (.set fun _ _ => rfl) fun _ => ?_
  refine (wireCall_triple fun e _ s hs => ?_).post ?_
  · rw [hs]
  · rintro u s ⟨hok, rfl⟩
    exact ⟨hok, rfl⟩

theorem acceptFrame_row (bytes : List UInt8) (nocrc : Bool) (conn : SparkConn) :
    Triple (fun s => s = conn) (acceptFrame bytes nocrc)
      (fun f s => (conn.rx.accept nocrc bytes).2 = .ok f ∧ s = { conn with rx := s.rx })
      (fun s => s.rank = conn.rank) := by
  refine .bind (Q := fun a s => a = conn ∧ s = conn) (.get fun _ h => ⟨h, h⟩) fun a =>
    .of_pure fun ha => ?_
  subst ha
  refine .bind (Q := fun _ s => s = { a with rx := (a.rx.accept nocrc bytes).1 })
    (.set fun _ _ => rfl) fun _ => ?_
  refine (wireCall_triple fun e _ s hs => ?_).post ?_
  · rw [hs]
  · rintro f s ⟨hok, rfl⟩
    exact ⟨hok, rfl⟩

/-- A raw TCP receive that succeeds has read and validated one return. -/
theorem recvRawBlocking_row (layerId : UInt32) (requestId : UInt64) (tokens : ℕ) (nocrc : Bool)
    (io : Io) (conn : SparkConn) :
    Triple (fun s => s = conn) (recvRawBlocking layerId requestId tokens nocrc io)
      (fun _ s => s.rank = conn.rank ∧ ∃ frame, conn.incoming = frame ++ s.incoming ∧
        Validated conn layerId requestId tokens nocrc frame ∧ s.buf = frame)
      (fun s => s.rank = conn.rank) := by
  refine .bind (Q := fun _ s => s = conn) (.check (fun _ _ h => h) fun _ _ h => by rw [h])
    fun _ => ?_
  refine .bind (Q := fun a s => a = conn ∧ s = conn) (.get fun _ h => ⟨h, h⟩) fun a =>
    .of_pure fun ha => ?_
  subst ha
  refine .bind (readExact_row _ _ _ a) fun header => .of_pure fun hlen => .of_pure fun hheader => ?_
  refine .bind (Q := fun seq s => validateReturnHeader header a.rank layerId requestId tokens =
      .ok seq ∧ s = { a with incoming := a.incoming.drop headerLen })
    (.call (fun seq hseq _ h => ⟨hseq, h⟩) fun _ _ _ h => by rw [h]) fun seq => .of_pure fun hseq =>
      ?_
  refine .bind ((readExact_row _ _ _ _).weaken (fun _ h => h) (fun _ _ h => h) fun _ h => h)
    fun body => .of_pure fun hblen => .of_pure fun hbody => ?_
  have hlen' : tokens * returnRowBytesCanonical ≤ a.incoming.length - headerLen := by
    rwa [List.length_drop] at hblen
  have hsplit : a.incoming = (header ++ body) ++
      (a.incoming.drop headerLen).drop (tokens * returnRowBytesCanonical) := by
    rw [hheader, hbody, List.append_assoc, List.take_append_drop, List.take_append_drop]
  have hhead : (header ++ body).take headerLen = header :=
    List.take_left' (by rw [hheader, List.length_take, Nat.min_eq_left hlen])
  have htotal : (header ++ body).length = headerLen + tokens * returnRowBytesCanonical := by
    rw [List.length_append, hheader, hbody, List.length_take, List.length_take, List.length_drop,
      Nat.min_eq_left hlen, Nat.min_eq_left hlen']
  obtain ⟨read, hread⟩ : ∃ read : SparkConn, read =
      { a with incoming := (a.incoming.drop headerLen).drop (tokens * returnRowBytesCanonical),
               buf := header ++ body } := ⟨_, rfl⟩
  have hrank : read.rank = a.rank := by rw [hread]
  have hdone (s : SparkConn) (hs : s = { read with rx := s.rx })
      (hok : if nocrc then (a.rx.acceptSeq seq).2 = .ok ()
        else ∃ f, (a.rx.accept false (header ++ body)).2 = .ok (.return f)) :
      s.rank = a.rank ∧ ∃ frame, a.incoming = frame ++ s.incoming ∧
        Validated a layerId requestId tokens nocrc frame ∧ s.buf = frame := by
    rw [hs, hread]
    exact ⟨rfl, _, hsplit, ⟨htotal, seq, by rwa [hhead], hok⟩, rfl⟩
  have hrx : a.rx = read.rx := by rw [hread]
  refine .bind (Q := fun _ s => s = read) (.modify fun s hs => by rw [hs, hread]) fun _ => ?_
  rw [← hrank]
  refine .ite (fun hnocrc => ?_) fun hnocrc => ?_
  · refine (acceptSeqOnly_row seq read).post fun _ s h => ?_
    rw [hrank]
    refine hdone s h.2 ?_
    rw [if_pos hnocrc, hrx]
    exact h.1
  · refine .bind (acceptFrame_row (header ++ body) nocrc read) fun f => .of_pure fun hf => ?_
    cases f with
    | request f =>
      exact .bind (Q := fun _ _ => False) (.throw fun s hs => by rw [hs]) fun _ _ h => h.elim
    | «return» f =>
      refine .bind (Q := fun _ s => s = { read with rx := s.rx }) (.pure fun _ h => h) fun _ =>
        .pure fun s hs => ?_
      rw [hrank]
      refine hdone s hs ?_
      rw [if_neg hnocrc, hrx]
      exact ⟨f, by rwa [Bool.eq_false_iff.mpr hnocrc] at hf⟩

/-- An RDMA receive that succeeds has taken and validated one return. -/
theorem recvRdma_row (layerId : UInt32) (requestId : UInt64) (tokens : ℕ) (io : Io)
    (conn : SparkConn) :
    Triple (fun s => s = conn) (recvRdma layerId requestId tokens io)
      (fun _ s => s.rank = conn.rank ∧ ∃ slot frame rc', io.waitRecv = some (slot, frame) ∧
        Validated conn layerId requestId tokens true frame ∧
        s.rdma = some rc' ∧ rc'.last = some (slot, frame.length))
      (fun s => s.rank = conn.rank) := by
  refine .bind (Q := fun a s => a = conn ∧ s = conn) (.get fun _ h => ⟨h, h⟩) fun a =>
    .of_pure fun ha => ?_
  subst ha
  refine .bind (onRdma_row (Q := fun _ seq rc' => ∃ slot frame, io.waitRecv = some (slot, frame) ∧
      frame.length = headerLen + tokens * returnRowBytesCanonical ∧
      validateReturnHeader (frame.take headerLen) a.rank layerId requestId tokens = .ok seq ∧
      rc'.last = some (slot, frame.length)) (fun rc => ?_) a) fun seq => ?_
  · split
    · exact .throw fun _ _ => trivial
    · next slot frame hwait =>
      refine .bind (Q := fun _ _ => True) (.modify fun _ _ => trivial) fun _ => ?_
      refine .bind (Q := fun _ _ => True) (.check (fun _ _ h => h) fun _ _ _ => trivial) fun _ => ?_
      refine .bind (Q := fun seq _ => validateReturnHeader (frame.take headerLen) a.rank layerId
        requestId tokens = .ok seq) (.call (fun _ h _ _ => h) fun _ _ _ _ => trivial) fun seq => ?_
      refine .bind (.guard fun _ _ => trivial) fun _ => .of_pure fun hlen => ?_
      refine .bind (Q := fun _ rc' => validateReturnHeader (frame.take headerLen) a.rank layerId
        requestId tokens = .ok seq ∧ rc'.last = some (slot, frame.length))
        (.modify fun _ h => ⟨h, rfl⟩) fun _ => .pure fun _ h => ?_
      exact ⟨slot, frame, hwait, hlen, h.1, h.2⟩
  · refine .of_exists fun rc => .of_exists fun rc' => .of_pure ?_
    rintro ⟨slot, frame, hwait, hlen, hseq, hlast⟩
    refine ((acceptSeqOnly_row seq { a with rdma := some rc' }).pre fun s hs => hs.2).post ?_
    rintro u s ⟨hok, hs⟩
    rw [hs]
    exact ⟨rfl, slot, frame, rc', hwait, ⟨hlen, seq, hseq, hok⟩, rfl, hlast⟩

/-! ### Sends -/

/-- Completions of the rank were reaped. -/
def Reaped (_ : ℕ) (conn conn' : SparkConn) : Prop :=
  conn'.rank = conn.rank ∧ ∃ rc rc' n, conn.rdma = some rc ∧ conn'.rdma = some rc' ∧
    rc'.posted = rc.posted.drop n

/-- The half was posted to the rank. -/
def PostedTo (half : ℕ) (_ : ℕ) (conn conn' : SparkConn) : Prop :=
  conn'.rank = conn.rank ∧ ∃ rc rc', conn.rdma = some rc ∧ conn'.rdma = some rc' ∧
    rc'.posted = rc.posted ++ [half]

theorem reap_row (fail : ℕ → Bool) (n : ℕ) (rc : RdmaConn) :
    Triple (fun s => ∃ k, s.posted = rc.posted.drop k) (RdmaConn.reap fail n)
      (fun _ s => ∃ k, s.posted = rc.posted.drop k) fun _ => True := by
  induction n with
  | zero => exact .pure fun _ h => h
  | succ n ih =>
    refine .bind (Q := fun _ s => ∃ k, s.posted = rc.posted.drop k)
      (.check (fun _ _ h => h) fun _ _ _ => trivial) fun _ => ?_
    refine .bind (Q := fun _ s => ∃ k, s.posted = rc.posted.drop k) (.modify ?_) fun _ => ih
    rintro s ⟨k, hk⟩
    refine ⟨k + 1, ?_⟩
    show s.posted.tail = _
    rw [hk, List.tail_drop]

theorem claimHalf_rows (io : ℕ → Io) (c : WireClient) :
    Triple (fun s => s = c) (claimHalf io)
      (fun half s => half = c.sendHalf ∧ Rows Reaped 0 c.conns s.conns)
      (fun s => Rows SameRank 0 c.conns s.conns) := by
  refine .bind (Q := fun a s => a = c ∧ s = c) (.get fun _ h => ⟨h, h⟩) fun a =>
    .of_pure fun ha => ?_
  subst ha
  refine .bind (Q := fun _ s => s = { a with sendHalf := a.sendHalf ^^^ 1 }) (.set fun _ _ => rfl)
    fun _ => ?_
  refine .bind (forConns_rows (R := Reaped) (S := SameRank) (fun r conn t => ?_)
    (fun _ _ _ h => h.1) (fun _ _ => rfl) _ ()) fun _ => .pure fun s h => ⟨rfl, h.2⟩
  refine onConn_row ((onRdma_row (Q := fun rc _ rc' => ∃ k, rc'.posted = rc.posted.drop k)
    (fun rc => ?_) conn).post ?_) t
  · refine .bind (Q := fun _ s => ∃ k, s.posted = rc.posted.drop k) (.get ?_) fun a =>
      reap_row _ _ rc
    rintro s rfl
    exact ⟨0, rfl⟩
  · rintro u s ⟨rc, rc', ⟨k, hk⟩, hrc, rfl⟩
    exact ⟨rfl, rc, rc', k, hrc, rfl, hk⟩

theorem postHalf_rows (half : ℕ) (io : ℕ → Io) (c : WireClient) :
    Triple (fun s => s = c) (postHalf half io)
      (fun _ s => Rows (PostedTo half) 0 c.conns s.conns)
      (fun s => Rows SameRank 0 c.conns s.conns) := by
  refine (forConns_rows (R := PostedTo half) (S := SameRank) (fun r conn t => ?_)
    (fun _ _ _ h => h.1) (fun _ _ => rfl) c ()).post fun _ s h => h.2
  refine onConn_row (.bind (Q := fun _ s => s =
      { conn with tx := { conn.tx with nextSeq := conn.tx.nextSeq + 1 } })
    (.modify fun s hs => by rw [hs]) fun _ => ?_) t
  refine (onRdma_row (Q := fun rc _ rc' => rc'.posted = rc.posted ++ [half])
    (fun rc => ?_) _).weaken
    (fun _ h => h) ?_ fun _ h => h
  · refine .bind (Q := fun _ s => s.posted = rc.posted) ?_ fun _ => ?_
    · refine .bind (Q := fun a s => a = rc) (.get fun _ h => h) fun a => ?_
      refine .bind (Q := fun _ s => s.posted = rc.posted) (.set fun _ h => by rw [h]) fun _ =>
        .check (fun _ _ h => h) fun _ _ _ => trivial
    · refine .bind (Q := fun _ s => s.posted = rc.posted)
        (.check (fun _ _ h => h) fun _ _ _ => trivial) fun _ => .modify fun s hs => ?_
      show s.posted ++ [half] = _
      rw [hs]
  · rintro u s ⟨rc, rc', hposted, hrc, rfl⟩
    exact ⟨rfl, rc, rc', hrc, rfl, hposted⟩

/-- A claimed half that is posted. -/
theorem Rows.sentTo {c : WireClient} (hrdma : c.rdmaBody = true) {conns conns' : List SparkConn}
    (h : Rows Reaped 0 c.conns conns) (h' : Rows (PostedTo c.sendHalf) 0 conns conns')
    (frame : ℕ → RequestFrame) (nocrc : Bool) : Rows (SentTo c frame nocrc) 0 c.conns conns' := by
  refine h.trans h' fun r conn conn₁ conn' ⟨hrank, rc, rc₁, n, hrc, hrc₁, hdrop⟩
    ⟨hrank', rc₂, rc', hrc₂, hrc', hposted⟩ => ⟨hrank'.trans hrank, ?_⟩
  obtain rfl := Option.some.inj (hrc₁.symm.trans hrc₂)
  rw [if_pos hrdma]
  exact ⟨rc, rc', n, hrc, hrc', by rw [hposted, hdrop]⟩

/-! ### Writes of threads -/

variable {α : Type} {results : List (EStateM.Result ClientError SparkConn α)}

theorem joinAll_ok {joined : List SparkConn} (h : joinAll results = .ok joined) :
    joined.length = results.length ∧ ∀ (j : ℕ) (r : EStateM.Result ClientError SparkConn α),
      results[j]? = some r → ∃ a conn, r = .ok a conn ∧ joined[j]? = some conn := by
  induction results generalizing joined with
  | nil =>
    obtain rfl := Except.ok.inj h
    exact ⟨rfl, by simp⟩
  | cons r results ih =>
    cases r with
    | error e conn => exact absurd h (by simp [joinAll])
    | ok a conn =>
      rw [joinAll] at h
      cases hrest : joinAll results with
      | error e =>
        rw [hrest] at h
        exact absurd h (by simp [Except.map])
      | ok rest =>
        rw [hrest] at h
        obtain rfl := Except.ok.inj h
        obtain ⟨hlen, hall⟩ := ih hrest
        refine ⟨by simp [hlen], fun j r hr => ?_⟩
        cases j with
        | zero =>
          obtain rfl := Option.some.inj hr
          exact ⟨a, conn, rfl, rfl⟩
        | succ j => exact hall j r hr

theorem joinAll_error {e : ClientError} (h : joinAll results = .error e) :
    ∃ (j : ℕ) (e' : ClientError) (conn : SparkConn), results[j]? = some (.error e' conn) := by
  induction results generalizing e with
  | nil => exact absurd h (by simp [joinAll])
  | cons r results ih =>
    cases r with
    | error e' conn => exact ⟨0, e', conn, rfl⟩
    | ok a conn =>
      rw [joinAll] at h
      cases hrest : joinAll results with
      | ok rest =>
        rw [hrest] at h
        exact absurd h (by simp [Except.map])
      | error e' =>
        obtain ⟨j, hj⟩ := ih hrest
        exact ⟨j + 1, hj⟩

/-- The threads that write. -/
def writeResults (encoded : List (List UInt8)) (io : ℕ → Io) (conns : List SparkConn) :
    List (EStateM.Result ClientError SparkConn Unit) :=
  conns.mapIdx fun r conn => writeBlocking (encoded.getD r []) (io r) conn

theorem joinAll_writeResults {encoded : List (List UInt8)} {io : ℕ → Io} {conns : List SparkConn} :
    (∃ e, joinAll (writeResults encoded io conns) = .error e) ↔
      ∃ r < conns.length, (io r).write ≠ none := by
  have hat (j : ℕ) : (writeResults encoded io conns)[j]? =
      conns[j]?.map fun conn => writeBlocking (encoded.getD j []) (io j) conn :=
        List.getElem?_mapIdx
  constructor
  · rintro ⟨e, he⟩
    obtain ⟨j, e', conn', hj⟩ := joinAll_error he
    rw [hat] at hj
    obtain ⟨conn, hconn, hwrite⟩ := Option.map_eq_some_iff.mp hj
    refine ⟨j, (List.getElem?_eq_some_iff.mp hconn).1, fun hnone => ?_⟩
    rw [writeBlocking, hnone] at hwrite
    exact absurd hwrite (by intro h; cases h)
  · rintro ⟨r, hr, hwrite⟩
    cases hjoin : joinAll (writeResults encoded io conns) with
    | error e => exact ⟨e, rfl⟩
    | ok joined =>
      obtain ⟨-, hall⟩ := joinAll_ok hjoin
      obtain ⟨a, conn, hok, -⟩ := hall r _ (by rw [hat, List.getElem?_eq_getElem hr]; rfl)
      obtain ⟨k, hk⟩ := Option.ne_none_iff_exists'.mp hwrite
      rw [writeBlocking, hk] at hok
      exact absurd hok (by intro h; cases h)

/-- The connection's stream was written. -/
def Written (encoded : List (List UInt8)) (r : ℕ) (conn conn' : SparkConn) : Prop :=
  conn'.rank = conn.rank ∧ conn'.written = conn.written ++ encoded.getD r []

/-- **Write.** A failing thread drops every connection. -/
theorem writeRanks_rows (tokens : ℕ) (encoded : List (List UInt8)) (io : ℕ → Io) (c : WireClient) :
    Triple (fun s => s = c) (writeRanks tokens encoded io)
      (fun _ s => Rows (Written encoded) 0 c.conns s.conns)
      (fun s => Rows SameRank 0 c.conns s.conns ∨
        1 < tokens ∧ (∃ r < c.conns.length, (io r).write ≠ none) ∧ s.conns = []) := by
  refine .ite (fun htokens => ?_) fun _ => ?_
  · refine .bind (Q := fun a s => a = c) (.get fun _ h => h) fun a => ?_
    refine .bind (Q := fun _ s => a = c ∧ s.conns = []) (.set fun _ h => ⟨h, rfl⟩) fun _ =>
      .of_pure fun ha => ?_
    subst ha
    refine .bind (Q := fun joined _ => joinAll (writeResults encoded io a.conns) = .ok joined)
      (.call (fun _ h _ _ => h) fun e he s hs => Or.inr ⟨htokens, ?_, hs⟩) fun joined => ?_
    · exact joinAll_writeResults.mp ⟨e, he⟩
    · refine .modify fun s hjoin => ?_
      obtain ⟨hlen, hall⟩ := joinAll_ok hjoin
      refine ⟨by rw [hlen, writeResults, List.length_mapIdx], fun j conn hconn => ?_⟩
      obtain ⟨u, conn', hok, hat⟩ := hall j (writeBlocking (encoded.getD j []) (io j) conn)
        (by rw [writeResults, List.getElem?_mapIdx, hconn]; rfl)
      have hrow := writeBlocking_row (encoded.getD j []) (io j) conn
      rw [hok] at hrow
      exact ⟨conn', hat, by rwa [Nat.zero_add]⟩
  · refine (forConns_rows (R := Written encoded) (S := SameRank) (fun r conn t => ?_)
      (fun _ _ _ h => h.1) (fun _ _ => rfl) c ()).weaken (fun _ h => h) (fun _ _ h => h.2)
      fun _ h => Or.inl h
    refine onConn_row (fun s hs => ?_) t
    rw [hs]
    exact writeBlocking_row _ _ conn

/-! ### The send of a layer -/

variable {layerId : UInt32} {tokens : ℕ} {hiddenRows : List HiddenRow}
  {routes : List (UInt32 × UInt32)} {topk : ℕ} {nocrc : Bool} {io : ℕ → Io}

/-- The rank's request was encoded, next in `encoded`. -/
def EncodedTo (frame : ℕ → RequestFrame) (nocrc : Bool) (encoded : List (List UInt8)) (r : ℕ)
    (conn conn' : SparkConn) : Prop :=
  conn'.rank = conn.rank ∧ conn'.written = conn.written ∧
    ∃ bytes, (conn.tx.encodeRequest nocrc (frame r)).2 = .ok bytes ∧ encoded[r]? = some bytes

theorem encodeRanks_rows (frame : ℕ → RequestFrame) (c : WireClient) :
    Triple (fun s => s = c) (encodeRanks frame nocrc)
      (fun encoded s => s = { c with conns := s.conns } ∧
        Rows (EncodedTo frame nocrc encoded) 0 c.conns s.conns)
      (fun s => Rows SameRank 0 c.conns s.conns) := by
  rintro s rfl
  -- what is encoded already stays at the front
  have hloop (i : ℕ) (conns : List SparkConn) (acc : List (List UInt8)) (hi : acc.length = i) :
      Outcome (fun _ x => acc <+: x.2 ∧ Rows (EncodedTo frame nocrc x.2) i conns x.1)
        (fun x => Rows SameRank i conns x.1) (each (encodeRank frame nocrc) i conns acc) := by
    induction conns generalizing i acc with
    | nil => exact ⟨List.prefix_rfl, .nil⟩
    | cons conn conns ih =>
      rw [each, encodeRank]
      cases henc : conn.tx.encodeRequest nocrc (frame i) with
      | mk tx res =>
        cases res with
        | error e => exact .cons (R := SameRank) rfl (.refl fun _ _ => rfl)
        | ok bytes =>
          have htail := ih (i + 1) (acc ++ [bytes]) (by simp [hi])
          dsimp only
          cases hres : each (encodeRank frame nocrc) (i + 1) conns (acc ++ [bytes]) with
          | error e x =>
            rw [hres] at htail
            exact .cons (R := SameRank) rfl htail
          | ok u x =>
            rw [hres] at htail
            obtain ⟨⟨rest, hrest⟩, hrows⟩ := htail
            refine ⟨⟨bytes :: rest, ?_⟩, .cons ⟨rfl, rfl, bytes, by rw [henc], ?_⟩ hrows⟩
            · rw [← hrest, List.append_assoc, List.singleton_append]
            · rw [← hrest, ← hi]
              simp
  have hall := hloop 0 s.conns [] rfl
  rw [encodeRanks, forConns]
  cases hres : each (encodeRank frame nocrc) 0 s.conns [] with
  | ok u x =>
    rw [hres] at hall
    exact ⟨rfl, hall.2⟩
  | error e x =>
    rw [hres] at hall
    exact hall

theorem sendLayer_tcp {c : WireClient} (htcp : c.rdmaBody = false)
    (hroutes : routes.length = tokens * topk) :
    sendLayer layerId tokens hiddenRows routes topk nocrc io c =
      (do
        let encoded ← encodeRanks
          (layerRequest c.nextRequestId layerId tokens hiddenRows routes topk) nocrc
        writeRanks tokens encoded io
        return c.nextRequestId : Client UInt64) { c with nextRequestId :=
            c.nextRequestId + 1 } := by
  have hcheck : decide (routes.length = tokens * topk) = true := decide_eq_true hroutes
  rw [sendLayer, hcheck]
  show (if ({ c with nextRequestId := c.nextRequestId + 1 } : WireClient).rdmaBody = true then _
    else _ : Client UInt64) _ = _
  rw [if_neg (by rw [htcp]; decide)]
  rfl

/-- **Send.** When it succeeds it has reached every connection; when it fails it has kept them,
unless a thread of a parallel write failed. -/
theorem sendLayer_rows (c : WireClient) :
    Triple (fun s => s = c) (sendLayer layerId tokens hiddenRows routes topk nocrc io)
      (fun _ s =>
        Rows (SentTo c (layerRequest c.nextRequestId layerId tokens hiddenRows routes topk)
        nocrc) 0 c.conns s.conns)
      (fun s => Rows SameRank 0 c.conns s.conns ∨
        WriteFails c layerId tokens hiddenRows routes topk nocrc io ∧ s.conns = []) := by
  by_cases hroutes : routes.length = tokens * topk
  swap
  · rintro s rfl
    rw [sendLayer, decide_eq_false hroutes]
    exact Or.inl (.refl fun _ _ => rfl)
  cases hbody : c.rdmaBody with
  | true =>
    refine .bind (Q := fun _ s => s = c) (.check (fun _ _ h => h) fun _ s h => ?_) fun _ => ?_
    · rw [h]
      exact Or.inl (.refl fun _ _ => rfl)
    refine .bind (Q := fun _ s => s = { c with nextRequestId := c.nextRequestId + 1 }) ?_ fun id =>
      ?_
    · rintro s rfl
      exact rfl
    refine .bind (Q := fun a s => a = { c with nextRequestId := c.nextRequestId + 1 } ∧ s = a)
      (.get fun _ h => ⟨h, rfl⟩) fun a => .of_pure fun ha => ?_
    rw [if_pos (by rw [ha]; exact hbody)]
    have hkept : ∀ s : WireClient, s = a → Rows SameRank 0 c.conns s.conns := by
      rintro s rfl
      rw [ha]
      exact .refl fun _ _ => rfl
    refine .bind (Q := fun _ s => s = a)
      ((wireCall_triple fun _ _ s h => Or.inl (hkept s h)).post fun _ _ h => h.2) fun bytes => ?_
    refine .bind (Q := fun _ s => s = a) (.check (fun _ _ h => h) fun _ s h => Or.inl (hkept s h))
      fun _ => ?_
    have hconns : a.conns = c.conns := by rw [ha]
    have hhalf : a.sendHalf = c.sendHalf := by rw [ha]
    refine .bind ((claimHalf_rows io a).weaken (fun _ h => h) (fun _ _ h => h) fun s h =>
      Or.inl (hconns ▸ h)) fun half => .of_pure fun hclaim => ?_
    rw [hconns] at *
    refine .bind (Q := fun _ s => Rows (SentTo c (layerRequest c.nextRequestId layerId tokens
      hiddenRows routes topk) nocrc) 0 c.conns s.conns) ?_ fun _ => .pure fun _ h => h
    intro s hs
    refine ((postHalf_rows half io s).weaken (fun _ h => h) (fun _ s' h => ?_) fun s' h => ?_) s rfl
    · rw [hclaim, hhalf] at h
      exact Rows.sentTo hbody hs h _ _
    · exact Or.inl (hs.trans h fun _ _ _ _ h₁ h₂ => h₂.trans h₁.1)
  | false =>
    rintro s rfl
    rw [sendLayer_tcp hbody hroutes]
    refine Triple.bind (P := fun s' => s' = { s with nextRequestId := s.nextRequestId + 1 })
      ((@encodeRanks_rows nocrc _ { s with nextRequestId := s.nextRequestId + 1 }).with_run.weaken
        (fun _ h => h) (fun _ _ h => h) fun _ h => Or.inl h)
      (fun encoded => ?_) _ rfl
    rintro s₁ ⟨hrun, hs₁, hrows⟩
    have hconns : s₁.conns.length = s.conns.length := hrows.1
    refine Triple.bind (P := fun s' => s' = s₁) (Q := fun _ s' => Rows (SentTo s
      (layerRequest s.nextRequestId layerId tokens hiddenRows routes topk) nocrc) 0 s.conns
        s'.conns)
      ((writeRanks_rows tokens encoded io s₁).weaken (fun _ h => h) (fun _ s' h => ?_) fun s' h =>
        ?_)
      (fun _ => .pure fun _ h => h) s₁ rfl
    · refine hrows.trans h fun r conn conn₁ conn' ⟨hrank, hwritten, bytes, henc, hat⟩
        ⟨hrank', hwritten'⟩ => ⟨hrank'.trans hrank, ?_⟩
      rw [if_neg (by rw [hbody]; decide)]
      rw [List.getD_eq_getElem?_getD, hat] at hwritten'
      exact ⟨bytes, henc, by rw [hwritten', hwritten]; rfl⟩
    · rcases h with h | ⟨htokens, hfail, hnil⟩
      · exact Or.inl (hrows.trans h fun _ _ _ _ h₁ h₂ => h₂.trans h₁.1)
      · rw [hconns] at hfail
        exact Or.inr ⟨⟨hbody, htokens, hroutes, ⟨encoded, s₁, hrun⟩, hfail⟩, hnil⟩

/-- A failing thread of the write drops every connection. -/
theorem WriteFails.sendLayer {c : WireClient}
    (h : WriteFails c layerId tokens hiddenRows routes topk nocrc io) :
    ∃ e s, sendLayer layerId tokens hiddenRows routes topk nocrc io c = .error e s ∧
      s.conns = [] := by
  obtain ⟨hbody, htokens, hroutes, ⟨encoded, s₁, hrun⟩, hfail⟩ := h
  have hrows := @encodeRanks_rows nocrc
    (layerRequest c.nextRequestId layerId tokens hiddenRows routes topk)
    { c with nextRequestId := c.nextRequestId + 1 } _ rfl
  rw [hrun] at hrows
  obtain ⟨e, he⟩ := (@joinAll_writeResults encoded io s₁.conns).mpr
    (by rw [hrows.2.1]; exact hfail)
  have hwrite : writeRanks tokens encoded io s₁ = .error e { s₁ with conns := [] } := by
    rw [writeRanks, if_pos htokens]
    show (call (joinAll (writeResults encoded io s₁.conns)) >>= _ : Client Unit) _ = _
    rw [he]
    rfl
  refine ⟨e, { s₁ with conns := [] }, ?_, rfl⟩
  rw [sendLayer_tcp hbody hroutes]
  show EStateM.bind _ _ _ = _
  rw [EStateM.bind, hrun]
  show EStateM.bind _ _ _ = _
  rw [EStateM.bind, hwrite]

/-! ### Calls of the client -/

theorem sameRank_of_sentTo {c : WireClient} {frame : ℕ → RequestFrame}
    {conns conns' : List SparkConn}
    (h : Rows (SentTo c frame nocrc) 0 conns conns') : Rows SameRank 0 conns conns' :=
  h.imp fun _ _ _ hsent => hsent.1

theorem moeSendRaw_rows {payload scales : List UInt8} {c : WireClient} :
    Triple (fun s => s = c) (moeSendRaw layerId payload scales routes topk nocrc io)
      (fun _ s => Rows (SentTo c (layerRequest c.nextRequestId layerId (payload.length / hiddenDim)
        (planeRows payload scales (payload.length / hiddenDim)) routes topk) nocrc) 0 c.conns
          s.conns)
      (fun s => Rows SameRank 0 c.conns s.conns ∨
        ((payload.length = payload.length / hiddenDim * hiddenDim ∧ payload.length / hiddenDim ≠ 0 ∧
          scales.length = payload.length / hiddenDim * (hiddenDim / 32)) ∧ c.inflight = [] ∧
        WriteFails c layerId (payload.length / hiddenDim)
          (planeRows payload scales (payload.length / hiddenDim)) routes topk nocrc io) ∧
        s.conns = []) := by
  have hkept : ∀ s : WireClient, s = c → Rows SameRank 0 c.conns s.conns := by
    rintro s rfl
    exact .refl fun _ _ => rfl
  refine .bind (.guard fun s h => Or.inl (hkept s h)) fun _ => .of_pure fun hplanes => ?_
  refine .bind (Q := fun a s => a = c ∧ s = c) (.get fun _ h => ⟨h, h⟩) fun a =>
    .of_pure fun ha => ?_
  subst ha
  refine .bind (.guard fun s h => Or.inl (hkept s h)) fun _ => .of_pure fun hlimit => ?_
  refine .bind ((sendLayer_rows a).weaken (fun _ h => h) (fun _ _ h => h) fun s h =>
    h.imp_right fun hfail => ⟨⟨hplanes, ?_, hfail.1⟩, hfail.2⟩) fun requestId =>
      .modify fun _ h => h
  rw [if_neg (by rw [hfail.1.1]; decide)] at hlimit
  exact List.length_eq_zero_iff.mp (Nat.lt_one_iff.mp hlimit)

/-- The connections of the client are those of `conns`, rank by rank. -/
def KeptRanks (conns : List SparkConn) (s : WireClient) : Prop := Rows SameRank 0 conns s.conns

theorem KeptRanks.rows {R : ℕ → SparkConn → SparkConn → Prop} {conns : List SparkConn}
    {s s' : WireClient}
    (h : KeptRanks conns s) (hrows : Rows R 0 s.conns s'.conns)
    (hR : ∀ r conn conn', R r conn conn' → SameRank r conn conn') : KeptRanks conns s' :=
  h.trans hrows fun _ _ _ _ h₁ h₂ => (hR _ _ _ h₂).trans h₁

theorem claimHalf_kept (conns : List SparkConn) :
    Triple (KeptRanks conns) (claimHalf io) (fun _ => KeptRanks conns) (KeptRanks conns) := by
  intro s hs
  exact ((claimHalf_rows io s).weaken (fun _ h => h)
    (fun _ _ h => hs.rows h.2 fun _ _ _ h => h.1) fun _ h => hs.rows h fun _ _ _ h => h) s rfl

theorem postHalf_kept (conns : List SparkConn) (half : ℕ) :
    Triple (KeptRanks conns) (postHalf half io) (fun _ => KeptRanks conns) (KeptRanks conns) := by
  intro s hs
  exact ((postHalf_rows half io s).weaken (fun _ h => h)
    (fun _ _ h => hs.rows h fun _ _ _ h => h.1) fun _ h => hs.rows h fun _ _ _ h => h) s rfl

theorem moeSendDevice_kept (conns : List SparkConn) (fill : Bool) :
    Triple (KeptRanks conns) (moeSendDevice layerId tokens topk fill io) (fun _ => KeptRanks conns)
      (KeptRanks conns) := by
  refine .bind (Q := fun _ => KeptRanks conns) (.get fun _ h => h) fun a => ?_
  refine .bind (Q := fun _ => KeptRanks conns) (.check (fun _ _ h => h) fun _ _ h => h) fun _ => ?_
  refine .bind (Q := fun _ => KeptRanks conns) (.check (fun _ _ h => h) fun _ _ h => h) fun _ => ?_
  refine .bind (Q := fun _ => KeptRanks conns) (fun s h => h) fun requestId => ?_
  refine .bind (claimHalf_kept conns) fun half => ?_
  refine .bind (Q := fun _ => KeptRanks conns)
    ((wireCall_triple fun _ _ _ h => h).post fun _ _ h => h.2) fun _ => ?_
  refine .bind (Q := fun _ => KeptRanks conns) (.check (fun _ _ h => h) fun _ _ h => h) fun _ => ?_
  exact .bind (postHalf_kept conns half) fun _ => .modify fun _ h => h

theorem moeSendMapped_kept (conns : List SparkConn) (fill : Bool) :
    Triple (KeptRanks conns) (moeSendMapped layerId routes topk fill io) (fun _ => KeptRanks conns)
      (KeptRanks conns) := by
  refine .bind (Q := fun _ => KeptRanks conns) (.get fun _ h => h) fun a => ?_
  refine .bind (Q := fun _ => KeptRanks conns) (.check (fun _ _ h => h) fun _ _ h => h) fun _ => ?_
  refine .bind (Q := fun _ => KeptRanks conns) (.check (fun _ _ h => h) fun _ _ h => h) fun _ => ?_
  refine .bind (Q := fun _ => KeptRanks conns) (.check (fun _ _ h => h) fun _ _ h => h) fun _ => ?_
  refine .bind (Q := fun _ => KeptRanks conns) (fun s h => h) fun requestId => ?_
  refine .bind (claimHalf_kept conns) fun half => ?_
  refine .bind (Q := fun _ => KeptRanks conns)
    ((wireCall_triple fun _ _ _ h => h).post fun _ _ h => h.2) fun _ => ?_
  refine .bind (Q := fun _ => KeptRanks conns) (.check (fun _ _ h => h) fun _ _ h => h) fun _ => ?_
  refine .bind (Q := fun _ => KeptRanks conns) (.check (fun _ _ h => h) fun _ _ h => h) fun _ => ?_
  exact .bind (postHalf_kept conns half) fun _ => .modify fun _ h => h

/-! ### Receives -/

/-- The bytes that arrive are behind those not read yet. -/
def Arrived (io : ℕ → Io) (r : ℕ) (conn conn' : SparkConn) : Prop :=
  conn' = { conn with incoming := conn.incoming ++ (io r).arrived }

theorem deliver_rows (c : WireClient) :
    Triple (fun s => s = c) (deliver io)
      (fun _ s => s = { c with conns := s.conns } ∧ Rows (Arrived io) 0 c.conns s.conns)
      fun _ => False := by
  refine .modify ?_
  rintro s rfl
  refine ⟨rfl, List.length_mapIdx, fun j conn hconn => ?_⟩
  refine ⟨{ conn with incoming := conn.incoming ++ (io j).arrived }, ?_, by rw [Nat.zero_add]; rfl⟩
  show (s.conns.mapIdx _)[j]? = _
  rw [List.getElem?_mapIdx, hconn]
  rfl

theorem firstError_ok {results : List (EStateM.Result ClientError SparkConn α)}
    (h : firstError results = .ok ()) :
    ∀ (j : ℕ) (r : EStateM.Result ClientError SparkConn α), results[j]? = some r →
      ∃ a conn, r = .ok a conn := by
  induction results with
  | nil => simp
  | cons r results ih =>
    cases r with
    | error e conn => exact absurd h (by simp [firstError])
    | ok a conn =>
      intro j r hr
      cases j with
      | zero => exact ⟨a, conn, (Option.some.inj hr).symm⟩
      | succ j => exact ih h j r hr

/-- What a raw receive does to one connection. -/
def Read (rdma : Bool) (layerId : UInt32) (requestId : UInt64) (tokens : ℕ) (nocrc : Bool)
    (io : ℕ → Io) (r : ℕ) (conn conn' : SparkConn) : Prop :=
  conn'.rank = conn.rank ∧
    if rdma then
      ∃ slot frame rc', (io r).waitRecv = some (slot, frame) ∧
        Validated conn layerId requestId tokens true frame ∧
        conn'.rdma = some rc' ∧ rc'.last = some (slot, frame.length)
    else
      ∃ frame, conn.incoming = frame ++ conn'.incoming ∧
        Validated conn layerId requestId tokens nocrc frame ∧ conn'.buf = frame

/-- **Receive.** Every thread is joined, so a failing one costs no connection. -/
theorem recvRanks_rows {requestId : UInt64} (c : WireClient) :
    Triple (fun s => s = c) (recvRanks layerId requestId tokens nocrc io)
      (fun _ s => Rows (Read c.rdmaBody layerId requestId tokens nocrc io) 0 c.conns s.conns)
      (KeptRanks c.conns) := by
  refine .bind (Q := fun a s => a = c ∧ s = c) (.get fun _ h => ⟨h, h⟩) fun a =>
    .of_pure fun ha => ?_
  subst ha
  have htcp (htcp : ¬ a.rdmaBody = true) (r : ℕ) (conn : SparkConn) :
      Triple (fun s => s = conn) (recvRawBlocking layerId requestId tokens nocrc (io r))
        (fun _ => Read a.rdmaBody layerId requestId tokens nocrc io r conn)
        (SameRank r conn) :=
    (recvRawBlocking_row layerId requestId tokens nocrc (io r) conn).post fun _ s h =>
      ⟨h.1, by rw [if_neg htcp]; exact h.2⟩
  refine .ite (fun hrdma => ?_) fun hrdma => .ite (fun htokens => ?_) fun _ => ?_
  · have hrow (r : ℕ) (conn : SparkConn) :
        Triple (fun s => s = conn) (recvRdma layerId requestId tokens (io r))
          (fun _ => Read a.rdmaBody layerId requestId tokens nocrc io r conn) (SameRank r conn) :=
      (recvRdma_row layerId requestId tokens (io r) conn).post fun _ s h =>
        ⟨h.1, by rw [if_pos hrdma]; exact h.2⟩
    exact (forConns_rows (S := SameRank) (fun r conn t => onConn_row (hrow r conn) t)
      (fun _ _ _ h => h.1) (fun _ _ => rfl) a ()).post fun _ _ h => h.2
  · have hat (j : ℕ) : (a.conns.mapIdx fun r conn =>
        recvRawBlocking layerId requestId tokens nocrc (io r) conn)[j]? =
        a.conns[j]?.map fun conn => recvRawBlocking layerId requestId tokens nocrc (io j) conn :=
      List.getElem?_mapIdx
    have hleft : Rows (fun r conn conn' => conn' =
        leftConn (recvRawBlocking layerId requestId tokens nocrc (io r) conn)) 0 a.conns
        ((a.conns.mapIdx fun r conn =>
          recvRawBlocking layerId requestId tokens nocrc (io r) conn).map leftConn) := by
      refine ⟨by simp, fun j conn hconn => ⟨_, ?_, rfl⟩⟩
      rw [List.getElem?_map, hat, hconn, Nat.zero_add]
      rfl
    refine .bind (Q := fun _ s => s.conns = (a.conns.mapIdx fun r conn =>
      recvRawBlocking layerId requestId tokens nocrc (io r) conn).map leftConn)
      (.set fun _ _ => rfl) fun _ => .call (fun u hok s hs => ?_) fun e _ s hs => ?_
    · rw [hs]
      refine ⟨hleft.1, fun j conn hconn => ?_⟩
      obtain ⟨conn', hconn', hres⟩ := hleft.2 j conn hconn
      rw [Nat.zero_add] at hres ⊢
      obtain ⟨u', conn₁, hr⟩ := firstError_ok hok j
        (recvRawBlocking layerId requestId tokens nocrc (io j) conn) (by rw [hat, hconn]; rfl)
      have hrow := htcp hrdma j conn conn rfl
      rw [hr] at hrow hres
      exact ⟨conn', hconn', by rw [hres]; exact hrow⟩
    · rw [KeptRanks, hs]
      refine hleft.imp fun r conn conn' hres => ?_
      have hrow := htcp hrdma r conn conn rfl
      rw [hres]
      cases hr : recvRawBlocking layerId requestId tokens nocrc (io r) conn with
      | ok u' conn₁ =>
        rw [hr] at hrow
        exact hrow.1
      | error e' conn₁ =>
        rw [hr] at hrow
        exact hrow
  · exact (forConns_rows (S := SameRank) (fun r conn t => onConn_row (htcp hrdma r conn) t)
      (fun _ _ _ h => h.1) (fun _ _ => rfl) a ()).post fun _ _ h => h.2

theorem moeRecvRaw_rows (c : WireClient) :
    Triple (fun s => s = c) (moeRecvRaw nocrc io)
      (fun _ s => ∃ requestId layerId tokens rest, c.inflight =
        (requestId, layerId, tokens) :: rest ∧
        Rows (ReadFrom c layerId requestId tokens nocrc io) 0 c.conns s.conns)
            (KeptRanks c.conns) := by
  refine .bind ((deliver_rows c).weaken (fun _ h => h) (fun _ _ h => h) fun _ h => h.elim)
    fun _ => ?_
  rintro s ⟨hs, harrived⟩
  have hkept : KeptRanks c.conns s := harrived.imp fun r conn conn' h => by rw [h]; rfl
  have hinflight : s.inflight = c.inflight := by rw [hs]
  have hbody : s.rdmaBody = c.rdmaBody := by rw [hs]
  refine Triple.bind (P := fun s' => s' = s) (Q := fun a s' => a = s ∧ s' = s)
    (.get fun _ h => ⟨h, h⟩) (fun a => .of_pure fun ha => ?_) s rfl
  subst ha
  split
  · exact .throw fun s' h => by rw [h]; exact hkept
  · next requestId layerId tokens rest hcons =>
    refine .bind (Q := fun _ s' => s' = { a with inflight := rest }) (.set fun _ _ => rfl) fun _ =>
      ?_
    refine .bind ((recvRanks_rows { a with inflight := rest }).weaken (fun _ h => h)
      (fun _ _ h => h) fun s' h => hkept.rows h fun _ _ _ h => h) fun _ => .pure fun s' h => ?_
    refine ⟨requestId, layerId, tokens, rest, hinflight ▸ hcons, harrived.trans h ?_⟩
    rintro r conn conn₁ conn' rfl ⟨hrank, hread⟩
    refine ⟨hrank, ?_⟩
    rw [hbody] at hread
    split at hread
    · next hrdma =>
      rw [if_pos hrdma]
      exact hread
    · next hrdma =>
      rw [if_neg hrdma]
      exact hread

/-! ### Exchanges -/

variable {F : Type} [Fp32 F]

theorem recvFrameBlocking_rank (nocrc : Bool) (io : Io) (conn : SparkConn) :
    Triple (fun s => s = conn) (recvFrameBlocking nocrc io) (fun _ s => s.rank = conn.rank)
      (fun s => s.rank = conn.rank) := by
  refine .bind (Q := fun _ s => s = conn) (.check (fun _ _ h => h) fun _ _ h => by rw [h])
    fun _ => ?_
  refine .bind ((readExact_row _ _ _ conn).post fun _ _ h => h.2.2) fun header => ?_
  refine .bind (Q := fun _ s => s = { conn with incoming := conn.incoming.drop headerLen })
    (.check (fun _ _ h => h) fun _ _ h => by rw [h]) fun _ => ?_
  refine .bind ((readExact_row _ _ _ { conn with incoming := conn.incoming.drop headerLen }).post
    fun _ _ h => h.2.2) fun body => ?_
  refine .bind (Q := fun _ s => s.rank = conn.rank)
    ((acceptFrame_row (header ++ body) nocrc _).post fun _ s h => by rw [h.2]) fun f => ?_
  cases f with
  | request f => exact .throw fun _ h => h
  | «return» f => exact .pure fun _ h => h

theorem joinReturns_ok {sum : CoordinatorSum F}
    {results : List (EStateM.Result ClientError SparkConn ReturnFrame)}
    {out : List SparkConn × CoordinatorSum F} (h : joinReturns sum results = .ok out) :
    out.1.length = results.length ∧
      ∀ (j : ℕ) (r : EStateM.Result ClientError SparkConn ReturnFrame), results[j]? = some r →
        ∃ f conn, r = .ok f conn ∧ out.1[j]? = some conn := by
  induction results generalizing sum out with
  | nil =>
    obtain rfl := Except.ok.inj h
    exact ⟨rfl, by simp⟩
  | cons r results ih =>
    cases r with
    | error e conn => exact absurd h (by simp [joinReturns])
    | ok f conn =>
      rw [joinReturns] at h
      obtain ⟨sum', -, h⟩ := Result.bind_eq_ok.mp h
      obtain ⟨rest, hrest, h⟩ := Result.bind_eq_ok.mp h
      obtain rfl := Except.ok.inj h
      obtain ⟨hlen, hall⟩ := ih hrest
      refine ⟨by simp [hlen], fun j r hr => ?_⟩
      cases j with
      | zero =>
        obtain rfl := Option.some.inj hr
        exact ⟨f, conn, rfl, rfl⟩
      | succ j => exact hall j r hr

/-- The threads that receive a frame each. -/
def frameResults (nocrc : Bool) (io : ℕ → Io) (conns : List SparkConn) :
    List (EStateM.Result ClientError SparkConn ReturnFrame) :=
  conns.mapIdx fun r conn => recvFrameBlocking nocrc (io r) conn

/-- **Sum.** An error of a thread, or of the sum over the joined threads, drops every connection. -/
theorem sumRanks_rows (tokens : ℕ) (c : WireClient) :
    Triple (fun s => s = c) (sumRanks tokens nocrc io)
      (fun (_ : CoordinatorSum F) s => KeptRanks c.conns s)
      (fun s => KeptRanks c.conns s ∨ (1 < tokens ∧ ∃ e, joinReturns
        (.new tokens hiddenDim .none : CoordinatorSum F) (frameResults nocrc io c.conns) =
          .error e) ∧
        s.conns = []) := by
  refine .ite (fun htokens => ?_) fun _ => ?_
  · refine .bind (Q := fun a s => a = c) (.get fun _ h => h) fun a => ?_
    refine .bind (Q := fun _ s => a = c ∧ s.conns = []) (.set fun _ h => ⟨h, rfl⟩) fun _ =>
      .of_pure fun ha => ?_
    subst ha
    refine .bind (Q := fun out _ => joinReturns (.new tokens hiddenDim .none : CoordinatorSum F)
        (frameResults nocrc io a.conns) = .ok out)
      (.call (fun _ h _ _ => h) fun e he s hs => Or.inr ⟨⟨htokens, e, he⟩, hs⟩) fun out => ?_
    refine .bind (Q := fun _ s => KeptRanks a.conns s) (.modify fun s hjoin => ?_) fun _ =>
      .pure fun _ h => h
    obtain ⟨hlen, hall⟩ := joinReturns_ok hjoin
    refine ⟨by rw [hlen, frameResults, List.length_mapIdx], fun j conn hconn => ?_⟩
    obtain ⟨f, conn', hok, hat⟩ := hall j (recvFrameBlocking nocrc (io j) conn)
      (by rw [frameResults, List.getElem?_mapIdx, hconn]; rfl)
    have hrank := recvFrameBlocking_rank nocrc (io j) conn conn rfl
    rw [hok] at hrank
    exact ⟨conn', hat, hrank⟩
  · refine (forConns_rows (R := SameRank) (S := SameRank) (fun r conn sum => ?_)
      (fun _ _ _ h => h) (fun _ _ => rfl) c _).weaken (fun _ h => h) (fun _ _ h => h.2)
      fun _ h => Or.inl h
    have hrank := recvFrameBlocking_rank nocrc (io r) conn conn rfl
    dsimp only
    cases hres : recvFrameBlocking nocrc (io r) conn with
    | error e conn' =>
      rw [hres] at hrank
      exact hrank
    | ok f conn' =>
      rw [hres] at hrank
      dsimp only
      cases addReturn sum f with
      | ok sum' => exact hrank
      | error e => exact hrank

/-- The connections with what arrives on them. -/
def arrivedConns (io : ℕ → Io) (conns : List SparkConn) : List SparkConn :=
  conns.mapIdx fun r conn => { conn with incoming := conn.incoming ++ (io r).arrived }

theorem deliver_eq (c : WireClient) :
    deliver io c = .ok () { c with conns := arrivedConns io c.conns } := rfl

theorem frameResults_arrivedConns (x : ExchangeCall) (conns : List SparkConn) :
    frameResults x.nocrc x.io (arrivedConns x.io conns) =
      conns.mapIdx fun r conn => recvFrameBlocking x.nocrc (x.io r)
        { conn with incoming := conn.incoming ++ (x.io r).arrived } := by
  rw [frameResults, arrivedConns, List.mapIdx_mapIdx]
  rfl

/-- **Exchange.** The connections are kept, unless a thread of a parallel write or receive failed.
-/
theorem exchange_rows (x : ExchangeCall) (c : WireClient) :
    Triple (fun s => s = c) (x.run : Client (List F)) (fun _ s => KeptRanks c.conns s)
      (fun s => KeptRanks c.conns s ∨ ThreadFails F c (.exchange x) ∧ s.conns = []) := by
  have hkept : ∀ s : WireClient, s = c → KeptRanks c.conns s := by
    rintro s rfl
    exact .refl fun _ _ => rfl
  refine .bind (Q := fun a s => a = c ∧ s = c) (.get fun _ h => ⟨h, h⟩) fun a =>
    .of_pure fun ha => ?_
  subst ha
  refine .bind (Q := fun _ s => (!a.rdmaBody) = true ∧ s = a)
    (.check (fun h _ hs => ⟨h, hs⟩) fun _ s h => Or.inl (hkept s h)) fun _ => .of_pure fun hbody =>
      ?_
  refine .bind (Q := fun _ s => a.inflight.isEmpty = true ∧ s = a)
    (.check (fun h _ hs => ⟨h, hs⟩) fun _ s h => Or.inl (hkept s h)) fun _ => .of_pure fun hidle =>
      ?_
  have htcp : a.rdmaBody = false := by simpa using hbody
  have hinflight : a.inflight = [] := List.isEmpty_iff.mp hidle
  refine .bind ((sendLayer_rows a).with_run.weaken (fun _ h => h) (fun _ _ h => h) fun s h =>
    h.imp_right fun hfail => ⟨⟨htcp, hinflight, Or.inl hfail.1⟩, hfail.2⟩) fun requestId => ?_
  rintro s ⟨hrun, hsent⟩
  have hsentKept : KeptRanks a.conns s := sameRank_of_sentTo hsent
  show Outcome _ _ (EStateM.bind _ _ s)
  rw [EStateM.bind, deliver_eq]
  have hdelivered : KeptRanks a.conns { s with conns := arrivedConns x.io s.conns } :=
    hsentKept.rows (@deliver_rows x.io s s rfl).2 fun r conn conn' h => by rw [h]; rfl
  refine Triple.bind (P := fun s' => s' = _) (Q := fun _ s' => KeptRanks a.conns s')
    ((sumRanks_rows x.tokens _).weaken (fun _ h => h) (fun _ _ h => hdelivered.rows h
      fun _ _ _ h => h) fun s' h => ?_) (fun sum => ?_) _ rfl
  · rcases h with h | ⟨⟨htokens, e, he⟩, hnil⟩
    · exact Or.inl (hdelivered.rows h fun _ _ _ h => h)
    · rw [frameResults_arrivedConns] at he
      exact Or.inr ⟨⟨htcp, hinflight, Or.inr ⟨htokens, requestId, s, e, hrun, he⟩⟩, hnil⟩
  · exact (wireCall_triple fun _ _ _ h => Or.inl h).post fun _ _ h => h.2

/-! ### Runs -/

theorem HoldsRanks.of_kept {c s : WireClient} (hc : HoldsRanks c) (h : KeptRanks c.conns s) :
    HoldsRanks s := h.map_eq.trans hc

/-- The connection of a rank. -/
theorem HoldsRanks.conn {c : WireClient} (hc : HoldsRanks c) {r : ℕ} (hr : r < sparks) :
    ∃ conn, c.conns[r]? = some conn ∧ conn.rank = r := by
  have hat : (c.conns.map (·.rank))[r]? = some r := by rw [hc, List.getElem?_range hr]
  rw [List.getElem?_map] at hat
  obtain ⟨conn, hconn, hrank⟩ := Option.map_eq_some_iff.mp hat
  exact ⟨conn, hconn, hrank⟩

/-- A call of the client keeps the connections, or a failing thread has dropped them. -/
theorem serveStep_cases (F : Type) [Fp32 F] (c : WireClient) (op : ServeOp) :
    KeptRanks c.conns (serveStep F c op) ∨ ThreadFails F c op ∧ (serveStep F c op).conns = [] := by
  have hrefl : KeptRanks c.conns c := .refl fun _ _ => rfl
  cases op with
  | exchange x =>
    have hrows := exchange_rows (F := F) x c c rfl
    rw [serveStep]
    cases hres : (x.run : Client (List F)) c with
    | ok v s =>
      rw [hres] at hrows
      exact Or.inl hrows
    | error e s =>
      rw [hres] at hrows
      exact hrows
  | other op =>
    rw [serveStep]
    have hout (hkept : Triple (KeptRanks c.conns) op.run (fun _ => KeptRanks c.conns)
        (KeptRanks c.conns)) : KeptRanks c.conns (clientStep c op) := by
      have h := hkept c hrefl
      rw [clientStep]
      cases hres : op.run c with
      | ok u s =>
        rw [hres] at h
        exact h
      | error e s =>
        rw [hres] at h
        exact h
    cases op with
    | complete rank =>
      refine Or.inl (hout (.modify fun s h => h.rows (R := SameRank) ?_ fun _ _ _ h => h))
      refine ⟨List.length_modify .., fun j conn hconn => ?_⟩
      show ∃ conn', (s.conns.modify rank _)[j]? = _ ∧ _
      rw [List.getElem?_modify, hconn]
      refine ⟨_, rfl, ?_⟩
      show (if rank = j then _ else _ : SparkConn).rank = _
      split <;> rfl
    | sendMapped layerId routes topk fill io => exact Or.inl (hout (moeSendMapped_kept _ _))
    | sendDevice layerId tokens topk fill io => exact Or.inl (hout (moeSendDevice_kept _ _))
    | recvRaw nocrc io =>
      refine Or.inl (hout fun s hs => ?_)
      have hrecv : Triple (fun s' => s' = s) (do let _ ← moeRecvRaw nocrc io : Client Unit)
          (fun _ => KeptRanks c.conns) (KeptRanks c.conns) := by
        refine .bind (Q := fun _ s' => KeptRanks c.conns s')
          ((moeRecvRaw_rows s).weaken (fun _ h => h) ?_
          fun _ h => hs.rows h fun _ _ _ h => h) fun _ => .pure fun _ h => h
        rintro out s' ⟨requestId, layerId, tokens, rest, -, h⟩
        exact hs.rows h fun _ _ _ h => h.1
      exact hrecv s rfl
    | sendRaw layerId payload scales routes topk nocrc io =>
      have hrows := @moeSendRaw_rows layerId routes topk nocrc io payload scales c c rfl
      rw [clientStep, ClientOp.run]
      cases hres : moeSendRaw layerId payload scales routes topk nocrc io c with
      | ok u s =>
        rw [hres] at hrows
        exact Or.inl (sameRank_of_sentTo hrows)
      | error e s =>
        rw [hres] at hrows
        exact hrows

/-- **Step.** -/
theorem holdsRanks_step {c : WireClient} {op : ServeOp} (hc : HoldsRanks c)
    (hop : ¬ ThreadFails F c op) : HoldsRanks (serveStep F c op) := by
  rcases serveStep_cases F c op with hkept | ⟨hfail, -⟩
  · exact hc.of_kept hkept
  · exact absurd hfail hop

/-- A failing thread drops every connection. -/
theorem ThreadFails.step {c : WireClient} {op : ServeOp} (h : ThreadFails F c op) :
    ¬ HoldsRanks (serveStep F c op) := by
  have hempty : (serveStep F c op).conns = [] := by
    cases op with
    | exchange x =>
      obtain ⟨htcp, hidle, hfail⟩ := h
      have hrun : (x.run : Client (List F)) c = EStateM.bind (sendLayer x.layerId x.tokens
          x.hiddenRows x.routes x.topk x.nocrc x.io) (fun _ => do
            deliver x.io
            let sum : CoordinatorSum F ← sumRanks x.tokens x.nocrc x.io
            wireCall sum.result) c := by
        rw [ExchangeCall.run, exchange]
        show (check (!c.rdmaBody) _ >>= _ : Client (List F)) c = _
        rw [htcp]
        show (check c.inflight.isEmpty _ >>= _ : Client (List F)) c = _
        rw [hidle]
        rfl
      suffices herr : ∃ e s, (x.run : Client (List F)) c = .error e s ∧ s.conns = [] by
        obtain ⟨e, s, hs, hnil⟩ := herr
        rw [serveStep, hs]
        exact hnil
      rw [hrun, EStateM.bind]
      rcases hfail with hwrite | ⟨htokens, requestId, c', e, hsend, he⟩
      · obtain ⟨e, s, hs, hnil⟩ := hwrite.sendLayer
        rw [hs]
        exact ⟨e, s, rfl, hnil⟩
      · rw [hsend]
        have hsum : (sumRanks x.tokens x.nocrc x.io : Client (CoordinatorSum F))
            { c' with conns := arrivedConns x.io c'.conns } = .error e { c' with conns := [] } := by
          rw [sumRanks, if_pos htokens]
          show (call (joinReturns _ (frameResults x.nocrc x.io (arrivedConns x.io c'.conns))) >>=
              _ :
            Client (CoordinatorSum F)) _ = _
          rw [frameResults_arrivedConns, he]
          rfl
        refine ⟨e, { c' with conns := [] }, ?_, rfl⟩
        show EStateM.bind (deliver x.io) _ c' = _
        rw [EStateM.bind, deliver_eq]
        show EStateM.bind (sumRanks x.tokens x.nocrc x.io) _ _ = _
        rw [EStateM.bind, hsum]
    | other op =>
      cases op with
      | sendRaw layerId payload scales routes topk nocrc io =>
        obtain ⟨hplanes, hidle, hwrite⟩ := h
        obtain ⟨e, s, hs, hnil⟩ := hwrite.sendLayer
        have hrun : moeSendRaw layerId payload scales routes topk nocrc io c = .error e s := by
          rw [moeSendRaw]
          show (check (decide _) _ >>= _ : Client Unit) c = _
          rw [decide_eq_true hplanes]
          show (check (decide _) _ >>= _ : Client Unit) c = _
          rw [hwrite.1, decide_eq_true (by rw [hidle]; decide)]
          show EStateM.bind (sendLayer layerId (payload.length / hiddenDim) _ routes topk nocrc io)
              _ c
            = _
          rw [EStateM.bind, hs]
        rw [serveStep, clientStep, ClientOp.run, hrun]
        exact hnil
      | complete rank => exact h.elim
      | sendMapped layerId routes topk fill io => exact h.elim
      | sendDevice layerId tokens topk fill io => exact h.elim
      | recvRaw nocrc io => exact h.elim
  intro hranks
  rw [HoldsRanks, hempty] at hranks
  exact absurd hranks (by decide)

/-- A raw send or receive of a client that holds its connections succeeds only on all of them. -/
theorem contacts_of_holdsRanks {c : WireClient} (hc : HoldsRanks c) (op : ServeOp) :
    Contacts c op := by
  cases op with
  | exchange x => trivial
  | other op =>
    cases op with
    | complete rank => trivial
    | sendMapped layerId routes topk fill io => trivial
    | sendDevice layerId tokens topk fill io => trivial
    | sendRaw layerId payload scales routes topk nocrc io =>
      intro c' hok r hr
      have hrows := @moeSendRaw_rows layerId routes topk nocrc io payload scales c c rfl
      rw [hok] at hrows
      obtain ⟨conn, hconn, hrank⟩ := hc.conn hr
      obtain ⟨conn', hconn', hsent⟩ := hrows.2 r conn hconn
      exact ⟨conn, conn', hconn, hconn', hrank, by rwa [Nat.zero_add] at hsent⟩
    | recvRaw nocrc io =>
      intro requestId layerId tokens rest hcons out c' hok r hr
      have hrows := @moeRecvRaw_rows nocrc io c c rfl
      rw [hok] at hrows
      obtain ⟨requestId', layerId', tokens', rest', hcons', hrows⟩ := hrows
      obtain ⟨hentry, -⟩ := List.cons.inj (hcons.symm.trans hcons')
      simp only [Prod.mk.injEq] at hentry
      obtain ⟨rfl, rfl, rfl⟩ := hentry
      obtain ⟨conn, hconn, hrank⟩ := hc.conn hr
      obtain ⟨conn', hconn', hread⟩ := hrows.2 r conn hconn
      exact ⟨conn, conn', hconn, hconn', hrank, by rwa [Nat.zero_add] at hread⟩

theorem holdsRanks_connect (rdma : Bool) : HoldsRanks (.connect rdma) := by
  cases rdma <;> rfl

/-- **The connections are served** in exactly the runs in which no thread of a parallel write, or of
a parallel host-sum receive, fails. -/
theorem servesRanks_iff (F : Type) [Fp32 F] (rdma : Bool) (ops : List ServeOp) :
    ServesRanks F rdma ops ↔
      Along (serveStep F) (fun c op => ¬ ThreadFails F c op) (.connect rdma) ops := by
  have hiff :=
      @forall_take_iff_along _ _ (serveStep F) (fun c op => ¬ ThreadFails F c op) HoldsRanks
    HoldsRanks (fun _ _ hc hop => holdsRanks_step hc hop) (fun _ h => h)
    (fun _ _ _ hop => (not_not.mp hop).step) _ (holdsRanks_connect rdma) ops
  constructor
  · rintro ⟨hranks, -⟩
    exact hiff.mp hranks
  · intro hops
    exact ⟨hiff.mpr hops, hops.of_inv (fun _ _ hc hop => holdsRanks_step hc hop)
      (fun _ op hc _ => contacts_of_holdsRanks hc op) (holdsRanks_connect rdma)⟩

/-! ### A failing write -/

theorem encodeRanks_ok {frame : ℕ → RequestFrame} {c : WireClient}
    (hn : ∀ conn ∈ c.conns, conn.tx.naive = .none) (hf : ∀ r, (frame r).Encodable) :
    ∃ encoded c', encodeRanks frame nocrc c = .ok encoded c' := by
  have hloop (i : ℕ) (conns : List SparkConn) (acc : List (List UInt8))
      (hn : ∀ conn ∈ conns, conn.tx.naive = .none) :
      ∃ x, each (encodeRank frame nocrc) i conns acc = .ok () x := by
    induction conns generalizing i acc with
    | nil => exact ⟨_, rfl⟩
    | cons conn conns ih =>
      obtain ⟨hconn, hrest⟩ := List.forall_mem_cons.mp hn
      have henc : encodeRequestSeq (frame i) conn.tx.nextSeq .none nocrc = _ :=
        encodeRequestSeq_eq_ok.mpr ⟨hf i, rfl⟩
      rw [each, encodeRank, StreamSender.encodeRequest, hconn, henc]
      dsimp only
      obtain ⟨x, hx⟩ := ih (i + 1) (acc ++ [_]) hrest
      rw [hx]
      exact ⟨_, rfl⟩
  obtain ⟨x, hx⟩ := hloop 0 c.conns [] hn
  rw [encodeRanks, forConns, hx]
  exact ⟨_, _, rfl⟩

/-- A raw send of two tokens to one expert each. -/
def sendTwoTokens (io : ℕ → Io) : ServeOp :=
  .other (.sendRaw 0 (List.replicate (2 * hiddenDim) 0) (List.replicate (2 * (hiddenDim / 32)) 0)
    [(0, 0), (0, 0)] 1 true io)

/-- The write of rank 1 fails at once. -/
def rankOneDown : ℕ → Io := fun r => if r = 1 then { write := some 0 } else {}

theorem encodable_twoTokens (requestId : UInt64) (r : ℕ) :
    (layerRequest requestId 0 2 (planeRows (List.replicate (2 * hiddenDim) 0)
      (List.replicate (2 * (hiddenDim / 32)) 0) 2) [(0, 0), (0, 0)] 1 r).Encodable := by
  refine ⟨by simp [layerRequest, decodeRows], by simp [layerRequest, decodeRows, planeRows], rfl,
    ?_, ?_, by simp [layerRequest, decodeRows, rowDescriptorLen],
    by simp [layerRequest, decodeRoutes, routeEntryLen]⟩
  · intro row hrow
    obtain ⟨t, ht, rfl⟩ := List.mem_map.mp hrow
    have hlt := List.mem_range.mp ht
    refine Bytes.length_slice ?_
    rw [List.length_replicate]
    exact Nat.le_trans (by rw [← Nat.succ_mul]) (Nat.mul_le_mul_right hiddenDim hlt)
  · intro row hrow
    obtain ⟨t, ht, rfl⟩ := List.mem_map.mp hrow
    have hlt := List.mem_range.mp ht
    refine Bytes.length_slice ?_
    rw [List.length_replicate]
    exact Nat.le_trans (by rw [← Nat.succ_mul]) (Nat.mul_le_mul_right (hiddenDim / 32) hlt)

/-- **A failing write drops the connections.** After a send of two tokens whose write to rank 1
fails, the client has no ranks. -/
theorem not_servesRanks_failedWrite :
    ¬ ServesRanks FloatTerm false [sendTwoTokens rankOneDown, sendTwoTokens fun _ => {}] := by
  rintro ⟨hranks, -⟩
  have hone := hranks 1
  rw [List.take_succ_cons, List.take_zero, run_cons, run_nil] at hone
  refine ThreadFails.step ?_ hone
  have htokens : (List.replicate (2 * hiddenDim) (0 : UInt8)).length / hiddenDim = 2 := by
    rw [List.length_replicate]
    rfl
  show (_ ∧ _ ∧ _) ∧ _ ∧ WriteFails _ _ _ _ _ _ _ _
  rw [htokens]
  refine ⟨⟨List.length_replicate, by decide, List.length_replicate⟩, rfl, rfl, by decide, rfl, ?_,
    1, by decide, by simp [rankOneDown]⟩
  exact encodeRanks_ok (by simp [WireClient.connect, SparkConn.connect, StreamSender.new]) fun r =>
    encodable_twoTokens _ r

end Coordinator

end Mimo26

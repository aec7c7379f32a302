import Mimo26.Coordinator.RanksKept
import Mimo26.Coordinator.RecvFrame
import Mimo26.Wire.RankOrder

/-!
# The steps of a host-sum exchange

What the send and the receive of an exchange do to each connection: exactly, where nothing fails,
and in outline, where something does. A connection is barren when nothing that lies in its stream is
a return without error; an exchange that reads from a barren connection fails.

## Main definitions

* `SentRow` — what a send can do to a connection
* `Barren` — nothing to read but the end of the stream or an error return

## Main results

* `sendLayer_eq`, `sendLayer_sent` — the send
* `recvFrameBlocking_eq`, `barren_take` — one receive
* `sumRanks_eq`, `sumRanks_barren` — the receives of all ranks and their sum
-/

namespace Mimo26

namespace Coordinator

open Wire Fallible

variable {layerId : UInt32} {tokens : ℕ} {hiddenRows : List HiddenRow}
  {routes : List (UInt32 × UInt32)} {topk : ℕ} {nocrc : Bool} {io : ℕ → Io}

/-! ### The send -/

/-- The connection after a request was encoded for it. -/
def SparkConn.stamped (conn : SparkConn) : SparkConn :=
  { conn with tx := { conn.tx with nextSeq := conn.tx.nextSeq + 1 } }

/-- The connection after bytes were written to it. -/
def SparkConn.wrote (conn : SparkConn) (bytes : List UInt8) : SparkConn :=
  { conn with written := conn.written ++ bytes }

theorem joinAll_mapIdx (f : ℕ → SparkConn → SparkConn) (conns : List SparkConn) :
    joinAll (conns.mapIdx fun r conn => (.ok () (f r conn) :
      EStateM.Result ClientError SparkConn Unit)) = .ok (conns.mapIdx f) := by
  induction conns generalizing f with
  | nil => rfl
  | cons conn conns ih =>
    rw [List.mapIdx_cons, List.mapIdx_cons, joinAll, ih fun r => f (r + 1)]
    rfl

theorem writeBlocking_eq {bytes : List UInt8} {x : Io} {conn : SparkConn} (h : x.write = none) :
    writeBlocking bytes x conn = .ok () (conn.wrote bytes) := by
  rw [writeBlocking, h]
  rfl

theorem writeRanks_eq {c : WireClient} {encoded : List (List UInt8)}
    (h : ∀ r < c.conns.length, (io r).write = none) :
    writeRanks tokens encoded io c =
      .ok () { c with conns := c.conns.mapIdx fun r conn => conn.wrote (encoded.getD r []) } := by
  rw [writeRanks]
  by_cases htokens : 1 < tokens
  · have hresults : (c.conns.mapIdx fun r conn => writeBlocking (encoded.getD r []) (io r) conn) =
        c.conns.mapIdx fun r conn => (.ok () (conn.wrote (encoded.getD r [])) :
          EStateM.Result ClientError SparkConn Unit) := by
      refine List.ext_getElem (by simp) fun r hr hr' => ?_
      rw [List.length_mapIdx] at hr
      rw [List.getElem_mapIdx, List.getElem_mapIdx, writeBlocking_eq (h r hr)]
    rw [if_pos htokens]
    show (call (joinAll (c.conns.mapIdx fun r conn =>
      writeBlocking (encoded.getD r []) (io r) conn)) >>= _ : Client Unit) _ = _
    rw [hresults, joinAll_mapIdx]
    rfl
  · have hloop := @each_eq_ok ClientError Unit SparkConn
      (fun r => onConn (writeBlocking (encoded.getD r []) (io r)))
      (fun r conn => conn.wrote (encoded.getD r [])) (fun _ => ()) 0 c.conns fun r conn hconn => by
        have hlt := (List.getElem?_eq_some_iff.mp hconn).1
        rw [Nat.zero_add, onConn, writeBlocking_eq (h r hlt)]
    rw [if_neg htokens, forConns, hloop]
    simp only [Nat.zero_add]

theorem encodeRanks_eq {c : WireClient} {frame : ℕ → RequestFrame} {encoded : ℕ → List UInt8}
    (h : ∀ (r : ℕ) (conn : SparkConn), c.conns[r]? = some conn →
      (conn.tx.encodeRequest nocrc (frame r)).2 = .ok (encoded r)) :
    encodeRanks frame nocrc c = .ok ((List.range c.conns.length).map encoded)
      { c with conns := c.conns.mapIdx fun _ conn => conn.stamped } := by
  have hloop := @each_eq_ok ClientError (List (List UInt8)) SparkConn (encodeRank frame nocrc)
    (fun _ conn => conn.stamped) (fun r => (List.range r).map encoded) 0 c.conns
    fun r conn hconn => by
      have henc : encodeRequestSeq (frame r) conn.tx.nextSeq conn.tx.naive nocrc =
          .ok (encoded r) := h r conn hconn
      rw [Nat.zero_add, encodeRank, StreamSender.encodeRequest, henc, List.range_succ,
        List.map_append]
      rfl
  rw [List.range_zero, List.map_nil, Nat.zero_add] at hloop
  rw [encodeRanks, forConns, hloop]

/-- **A send that fails nowhere.** -/
theorem sendLayer_eq {c : WireClient} (htcp : c.rdmaBody = false)
    (hroutes : routes.length = tokens * topk) {encoded : ℕ → List UInt8}
    (hencoded : ∀ (r : ℕ) (conn : SparkConn), c.conns[r]? = some conn →
      (conn.tx.encodeRequest nocrc
        (layerRequest c.nextRequestId layerId tokens hiddenRows routes topk r)).2 =
          .ok (encoded r))
    (hwrite : ∀ r < c.conns.length, (io r).write = none) :
    sendLayer layerId tokens hiddenRows routes topk nocrc io c = .ok c.nextRequestId
      { c with
        nextRequestId := c.nextRequestId + 1
        conns := c.conns.mapIdx fun r conn => conn.stamped.wrote (encoded r) } := by
  have henc :=
      @encodeRanks_eq nocrc { c with nextRequestId := c.nextRequestId + 1 } _ encoded hencoded
  have hwrote := @writeRanks_eq tokens io
    { c with
      nextRequestId := c.nextRequestId + 1
      conns := c.conns.mapIdx fun _ conn => conn.stamped }
    ((List.range c.conns.length).map encoded) (by rwa [List.length_mapIdx])
  rw [sendLayer_tcp htcp hroutes]
  show EStateM.bind _ _ _ = _
  rw [EStateM.bind, henc]
  show EStateM.bind _ _ _ = _
  rw [EStateM.bind, hwrote, List.mapIdx_mapIdx]
  show EStateM.Result.ok _ _ = _
  congr 2
  refine List.ext_getElem (by simp) fun r hr hr' => ?_
  rw [List.length_mapIdx] at hr
  rw [List.getElem_mapIdx, List.getElem_mapIdx, Function.comp_apply, List.getD_eq_getElem?_getD,
    List.getElem?_map, List.getElem?_range hr]
  rfl

/-- What a send can do to the connection of rank `r`: nothing; or its sequence number is taken, and
the stream gets nothing, the request, or what a failing write has written. -/
def SentRow (frame : ℕ → RequestFrame) (nocrc : Bool) (io : ℕ → Io) (r : ℕ)
    (conn conn' : SparkConn) : Prop :=
  conn' = conn ∨ ∃ bytes, conn' = conn.stamped.wrote bytes ∧
    (bytes = [] ∨ (conn.tx.encodeRequest nocrc (frame r)).2 = .ok bytes ∨ (io r).write ≠ none)

/-- The request was encoded, and is the next of `encoded`. -/
def StampedRow (frame : ℕ → RequestFrame) (nocrc : Bool) (encoded : List (List UInt8)) (r : ℕ)
    (conn conn' : SparkConn) : Prop :=
  conn' = conn.stamped ∧ (conn.tx.encodeRequest nocrc (frame r)).2 = .ok (encoded.getD r [])

/-- The sequence number was taken, or not. -/
def MaybeStampedRow (_ : ℕ) (conn conn' : SparkConn) : Prop := conn' = conn ∨ conn' = conn.stamped

theorem encodeRanks_stamped (frame : ℕ → RequestFrame) (c : WireClient) :
    Triple (fun s => s = c) (encodeRanks frame nocrc)
      (fun encoded s => s = { c with conns := s.conns } ∧
        Rows (StampedRow frame nocrc encoded) 0 c.conns s.conns)
      (fun s => s = { c with conns := s.conns } ∧
        Rows MaybeStampedRow 0 c.conns s.conns) := by
  rintro s rfl
  -- what is encoded already stays at the front
  have hloop (i : ℕ) (conns : List SparkConn) (acc : List (List UInt8)) (hi : acc.length = i) :
      Outcome (fun _ x => acc <+: x.2 ∧ Rows (StampedRow frame nocrc x.2) i conns x.1)
        (fun x => Rows MaybeStampedRow i conns x.1)
        (each (encodeRank frame nocrc) i conns acc) := by
    induction conns generalizing i acc with
    | nil => exact ⟨List.prefix_rfl, .nil⟩
    | cons conn conns ih =>
      rw [each, encodeRank, StreamSender.encodeRequest]
      cases henc : encodeRequestSeq (frame i) conn.tx.nextSeq conn.tx.naive nocrc with
      | error e => exact .cons (R := MaybeStampedRow) (.inr rfl) (.refl fun _ _ => .inl rfl)
      | ok bytes =>
        have htail := ih (i + 1) (acc ++ [bytes]) (by simp [hi])
        dsimp only
        cases hres : each (encodeRank frame nocrc) (i + 1) conns (acc ++ [bytes]) with
        | error e x =>
          rw [hres] at htail
          exact .cons (R := MaybeStampedRow) (.inr rfl) htail
        | ok u x =>
          rw [hres] at htail
          obtain ⟨⟨rest, hrest⟩, hrows⟩ := htail
          have hat : x.2.getD i [] = bytes := by
            rw [← hrest, ← hi]
            simp
          refine ⟨⟨bytes :: rest, ?_⟩, .cons ⟨rfl, ?_⟩ hrows⟩
          · rw [← hrest, List.append_assoc, List.singleton_append]
          · rw [hat]
            exact henc
  have hall := hloop 0 s.conns [] rfl
  rw [encodeRanks, forConns]
  cases hres : each (encodeRank frame nocrc) 0 s.conns [] with
  | ok u x =>
    rw [hres] at hall
    exact ⟨rfl, hall.2⟩
  | error e x =>
    rw [hres] at hall
    exact ⟨rfl, hall⟩

/-- A write leaves everything but the stream alone. -/
def WroteRow (encoded : List (List UInt8)) (io : ℕ → Io) (r : ℕ) (conn conn' : SparkConn) : Prop :=
  ∃ bytes, conn' = conn.wrote bytes ∧
    (bytes = [] ∨ bytes = encoded.getD r [] ∨ (io r).write ≠ none)

theorem writeBlocking_wrote (encoded : List (List UInt8)) (r : ℕ) (conn : SparkConn) :
    Outcome (fun _ s => WroteRow encoded io r conn s) (fun s => WroteRow encoded io r conn s)
      (writeBlocking (encoded.getD r []) (io r) conn) := by
  rw [writeBlocking]
  cases hwrite : (io r).write with
  | some k => exact ⟨_, rfl, .inr (.inr (by rw [hwrite]; simp))⟩
  | none => exact ⟨_, rfl, .inr (.inl rfl)⟩

theorem wrote_nil (conn : SparkConn) : conn.wrote [] = conn := by
  rw [SparkConn.wrote, List.append_nil]

/-- Of a parallel write that fails no connection is left. -/
theorem writeRanks_wrote (encoded : List (List UInt8)) (c : WireClient) :
    Triple (fun s => s = c) (writeRanks tokens encoded io)
      (fun _ s => s = { c with conns := s.conns } ∧ Rows (WroteRow encoded io) 0 c.conns s.conns)
      (fun s => s = { c with conns := s.conns } ∧
        (Rows (WroteRow encoded io) 0 c.conns s.conns ∨ s.conns = [])) := by
  rintro s rfl
  rw [writeRanks]
  by_cases htokens : 1 < tokens
  · rw [if_pos htokens]
    show Outcome _ _ ((call (joinAll (s.conns.mapIdx fun r conn =>
      writeBlocking (encoded.getD r []) (io r) conn)) >>= _ : Client Unit) { s with conns := [] })
    cases hjoin : joinAll (s.conns.mapIdx fun r conn =>
      writeBlocking (encoded.getD r []) (io r) conn) with
    | error e => exact ⟨rfl, .inr rfl⟩
    | ok joined =>
      obtain ⟨hlen, hall⟩ := joinAll_ok hjoin
      refine ⟨rfl, by simpa using hlen, fun r conn hconn => ?_⟩
      obtain ⟨u, conn', hok, hat⟩ := hall r (writeBlocking (encoded.getD r []) (io r) conn)
        (by rw [List.getElem?_mapIdx, hconn]; rfl)
      have hrow := @writeBlocking_wrote io encoded r conn
      rw [hok] at hrow
      exact ⟨conn', hat, by rwa [Nat.zero_add]⟩
  · rw [if_neg htokens, forConns]
    have hloop := @each_rows _ _ _ (WroteRow encoded io) (WroteRow encoded io)
      (fun r => onConn (writeBlocking (encoded.getD r []) (io r))) (fun r conn t =>
        onConn_row (fun s hs => by rw [hs]; exact writeBlocking_wrote encoded r conn) t)
      (fun _ _ _ h => h) (fun _ conn => ⟨[], (wrote_nil conn).symm, .inl rfl⟩) 0 s.conns ()
    cases hres : each (fun r => onConn (writeBlocking (encoded.getD r []) (io r))) 0 s.conns () with
    | ok u x =>
      rw [hres] at hloop
      exact ⟨rfl, hloop⟩
    | error e x =>
      rw [hres] at hloop
      exact ⟨rfl, .inl hloop⟩

/-- **Send.** It changes each connection as its row says, or it has lost every connection. -/
theorem sendLayer_sent {c : WireClient} (htcp : c.rdmaBody = false) :
    Triple (fun s => s = c) (sendLayer layerId tokens hiddenRows routes topk nocrc io)
      (fun _ s => (s.rdmaBody = false ∧ s.inflight = c.inflight) ∧
        Rows (SentRow (layerRequest c.nextRequestId layerId tokens hiddenRows routes topk) nocrc io)
          0 c.conns s.conns)
      (fun s => (s.rdmaBody = false ∧ s.inflight = c.inflight) ∧
        (Rows (SentRow (layerRequest c.nextRequestId layerId tokens hiddenRows routes topk) nocrc
          io)
          0 c.conns s.conns ∨ s.conns = [])) := by
  rintro s rfl
  by_cases hroutes : routes.length = tokens * topk
  swap
  · rw [sendLayer, decide_eq_false hroutes]
    exact ⟨⟨htcp, rfl⟩, .inl (.refl fun _ _ => .inl rfl)⟩
  have hrow {conns conns' conns'' : List SparkConn} {encoded : List (List UInt8)}
      (h : Rows (StampedRow (layerRequest s.nextRequestId layerId tokens hiddenRows routes topk)
        nocrc encoded) 0 conns conns') (h' : Rows (WroteRow encoded io) 0 conns' conns'') :
      Rows (SentRow (layerRequest s.nextRequestId layerId tokens hiddenRows routes topk) nocrc io)
        0 conns conns'' := by
    refine h.trans h' ?_
    rintro r conn conn₁ conn₂ ⟨rfl, henc⟩ ⟨bytes, rfl, hbytes⟩
    refine .inr ⟨bytes, rfl, ?_⟩
    rcases hbytes with hnil | rfl | hfail
    · exact .inl hnil
    · exact .inr (.inl henc)
    · exact .inr (.inr hfail)
  rw [sendLayer_tcp htcp hroutes]
  refine Triple.bind (P := fun s' => s' = { s with nextRequestId := s.nextRequestId + 1 })
    ((encodeRanks_stamped _ _).weaken (fun _ h => h) (fun _ _ h => h) fun s' h => ?_)
    (fun encoded => ?_) _ rfl
  · obtain ⟨hs', hrows⟩ := h
    rw [hs']
    refine ⟨⟨htcp, rfl⟩, .inl (hrows.imp ?_)⟩
    rintro r conn conn' (rfl | rfl)
    · exact .inl rfl
    · exact .inr ⟨[], (wrote_nil _).symm, .inl rfl⟩
  · rintro s₁ ⟨hs₁, hstamped⟩
    refine Triple.bind (P := fun s' => s' = s₁) (Q := fun _ s' =>
      (s'.rdmaBody = false ∧ s'.inflight = s.inflight) ∧ Rows (SentRow (layerRequest
        s.nextRequestId layerId tokens hiddenRows routes topk) nocrc io) 0 s.conns s'.conns)
      ((writeRanks_wrote encoded s₁).weaken (fun _ h => h) (fun _ s' h => ?_) fun s' h => ?_)
      (fun _ => .pure fun _ h => h) s₁ rfl
    · obtain ⟨hs', hwrote⟩ := h
      refine ⟨?_, hrow hstamped hwrote⟩
      rw [hs', hs₁]
      exact ⟨htcp, rfl⟩
    · obtain ⟨hs', hwrote⟩ := h
      refine ⟨?_, hwrote.imp_left (hrow hstamped)⟩
      rw [hs', hs₁]
      exact ⟨htcp, rfl⟩

/-! ### One receive -/

/-- No system call of a receive fails. -/
def Io.Reads (x : Io) : Prop := x.setup = false ∧ x.header = none ∧ x.body = none

variable {x : Io} {conn : SparkConn} {bytes : List UInt8}

/-- The header of a frame at the front of a stream is read, and then as much as it declares. -/
theorem recvFrameBlocking_header (hx : x.Reads) (hlen : headerLen ≤ conn.incoming.length)
    (hle : headerLen ≤ declaredLen (conn.incoming.take headerLen)) :
    recvFrameBlocking nocrc x conn =
      (do
        let body ← readExact (declaredLen (conn.incoming.take headerLen) - headerLen) none
          "spark read body"
        let f ← acceptFrame (conn.incoming.take headerLen ++ body) nocrc
        expectReturn f : Conn ReturnFrame)
        { conn with incoming := conn.incoming.drop headerLen } := by
  obtain ⟨hsetup, hheader, hbody⟩ := hx
  have hcheck (c : SparkConn) (e : ClientError) : (check true e : Conn Unit) c = .ok () c := rfl
  have hdeclared : Bytes.ofLe (Bytes.slice (conn.incoming.take headerLen) Hdr.wireBytes.off 8) =
      declaredLen (conn.incoming.take headerLen) := rfl
  rw [recvFrameBlocking, hsetup, hheader, hbody]
  simp only [bind, EStateM.bind, Bool.not_false, hcheck, readExact_of_le hlen, hdeclared,
    decide_eq_true hle]

/-- A return that is the whole stream is received. -/
theorem recvFrameBlocking_eq (hx : x.Reads) (hb : Produced .none bytes)
    (hin : conn.incoming = bytes) {f : ReturnFrame}
    (hdec : decodeFrame bytes .none nocrc = .ok (.return f)) (hrx : conn.rx = ⟨.none, f.seq⟩) :
    recvFrameBlocking nocrc x conn =
      .ok f { conn with incoming := [], rx := ⟨.none, f.seq + 1⟩ } := by
  have hlen := hb.headerLen_le
  have hdeclared : declaredLen (conn.incoming.take headerLen) = bytes.length := by
    rw [hin, declaredLen_take hlen, hb.declaredLen_eq]
  have haccept : conn.rx.accept nocrc bytes = (⟨.none, f.seq + 1⟩, .ok (.return f)) := by
    rw [hrx, StreamReceiver.accept, hdec]
    simp [StreamReceiver.acceptSeq, Frame.seq]
  rw [recvFrameBlocking_header hx (by rwa [hin]) (by rwa [hdeclared]), hdeclared]
  have hbody := @readExact_of_le (bytes.length - headerLen)
    { conn with incoming := conn.incoming.drop headerLen }
    (by rw [hin, List.length_drop]) "spark read body"
  show EStateM.bind (readExact _ none _) _ _ = _
  rw [EStateM.bind, hbody]
  have htake : (bytes.drop headerLen).take (bytes.length - headerLen) = bytes.drop headerLen :=
    List.take_of_length_le List.length_drop.le
  have hdrop : (bytes.drop headerLen).drop (bytes.length - headerLen) = [] :=
    List.drop_of_length_le List.length_drop.le
  simp only [hin, htake, hdrop, List.take_append_drop]
  show EStateM.bind (acceptFrame bytes nocrc) expectReturn _ = _
  have hframe : acceptFrame bytes nocrc { conn with incoming := [] } =
      .ok (.return f) { conn with incoming := [], rx := ⟨.none, f.seq + 1⟩ } := by
    show wireCall (conn.rx.accept nocrc bytes).2
      { conn with incoming := [], rx := (conn.rx.accept nocrc bytes).1 } = _
    rw [haccept]
    rfl
  rw [EStateM.bind, hframe]
  rfl

/-- Whatever a receive makes of what lies in the stream, it is no return without error, and after it
the stream is read up. -/
def Barren (nocrc : Bool) (conn : SparkConn) : Prop :=
  ∀ (x : Io) (conn' : SparkConn), x.Reads → conn'.readSide = conn.readSide →
    Outcome (fun f s => f.status ≠ .ok ∧ s.incoming = []) (fun s => s.incoming = [])
      (recvFrameBlocking nocrc x conn')

/-- What was written to the connection does not matter. -/
theorem Barren.congr {conn' : SparkConn} (h : Barren nocrc conn)
    (hside : conn'.readSide = conn.readSide) : Barren nocrc conn' :=
  fun x other hx hother => h x other hx (hother.trans hside)

theorem barren_of_short (h : conn.incoming.length < headerLen) : Barren nocrc conn := by
  rintro x other ⟨hsetup, hheader, hbody⟩ hside
  have hshort : other.incoming.length < headerLen := by rwa [(Prod.mk.inj hside).2]
  have hcheck (c : SparkConn) (e : ClientError) : (check true e : Conn Unit) c = .ok () c := rfl
  rw [recvFrameBlocking, hsetup, hheader]
  simp only [bind, EStateM.bind, Bool.not_false, hcheck, readExact_of_lt hshort]
  exact rfl

theorem barren_nil (h : conn.incoming = []) : Barren nocrc conn :=
  barren_of_short (by rw [h]; decide)

/-- A frame that is cut short. -/
theorem barren_take (hb : Produced .none bytes) {k : ℕ} (hk : k < bytes.length)
    (hin : conn.incoming = bytes.take k) : Barren nocrc conn := by
  have hkept : (bytes.take k).length = k := by rw [List.length_take, Nat.min_eq_left hk.le]
  rcases Nat.lt_or_ge k headerLen with hshort | hlen
  · exact barren_of_short (by rwa [hin, hkept])
  intro x other hx hside
  have hother : other.incoming = bytes.take k := (Prod.mk.inj hside).2.trans hin
  have hdeclared : declaredLen (other.incoming.take headerLen) = bytes.length := by
    rw [hother, List.take_take, Nat.min_eq_left hlen, declaredLen_take hb.headerLen_le,
      hb.declaredLen_eq]
  rw [recvFrameBlocking_header hx (by rwa [hother, hkept])
    (by rw [hdeclared]; exact hb.headerLen_le), hdeclared]
  have hbody := @readExact_of_lt (bytes.length - headerLen)
    { other with incoming := other.incoming.drop headerLen }
    (by rw [List.length_drop, hother, hkept]; omega) "spark read body"
  show Outcome _ _ (EStateM.bind (readExact _ none _) _ _)
  rw [EStateM.bind, hbody]
  exact rfl

/-- An error return. -/
theorem barren_error (hb : Produced .none bytes) (hin : conn.incoming = bytes) {f : ReturnFrame}
    (hdec : decodeFrame bytes .none nocrc = .ok (.return f)) (hrx : conn.rx = ⟨.none, f.seq⟩)
    (hstatus : f.status ≠ .ok) : Barren nocrc conn := by
  intro x other hx hside
  obtain ⟨hother, hincoming⟩ := Prod.mk.inj hside
  rw [recvFrameBlocking_eq hx hb (hincoming.trans hin) hdec (hother.trans hrx)]
  exact ⟨hstatus, rfl⟩

/-- A receive leaves the sender alone. -/
theorem recvFrameBlocking_tx (x : Io) (tx : StreamSender) :
    Triple (fun s => s.tx = tx) (recvFrameBlocking nocrc x) (fun _ s => s.tx = tx)
      (fun s => s.tx = tx) := by
  have hread (n : ℕ) (fail : Option ℕ) (text : String) :
      Triple (fun s => s.tx = tx) (readExact n fail text) (fun _ s => s.tx = tx)
        (fun s => s.tx = tx) := by
    refine .bind (Q := fun a s => a.tx = tx ∧ s.tx = tx) (.get fun _ h => ⟨h, h⟩) fun a =>
      .of_pure fun ha => ?_
    split
    · exact .bind (Q := fun _ s => s.tx = tx) (.set fun _ _ => ha) fun _ => .throw fun _ h => h
    · refine .ite (fun _ => ?_) fun _ => ?_
      · exact .bind (Q := fun _ s => s.tx = tx) (.set fun _ _ => ha) fun _ => .pure fun _ h => h
      · exact .bind (Q := fun _ s => s.tx = tx) (.set fun _ _ => ha) fun _ => .throw fun _ h => h
  refine .bind (Q := fun _ s => s.tx = tx) (.check (fun _ _ h => h) fun _ _ h => h) fun _ => ?_
  refine .bind (hread _ _ _) fun header => ?_
  refine .bind (Q := fun _ s => s.tx = tx) (.check (fun _ _ h => h) fun _ _ h => h) fun _ => ?_
  refine .bind (hread _ _ _) fun body => ?_
  refine .bind (Q := fun _ s => s.tx = tx) ?_ fun f => ?_
  · refine .bind (Q := fun a s => a.tx = tx) (.get fun _ h => h) fun a => ?_
    refine .bind (Q := fun _ s => s.tx = tx) (.set fun _ h => h) fun _ => ?_
    exact (wireCall_triple fun _ _ _ h => h).post fun _ _ h => h.2
  · cases f with
    | request f => exact .throw fun _ h => h
    | «return» f => exact .pure fun _ h => h

/-! ### The sum -/

variable {F : Type} [Fp32 F]

theorem addReturn_eq_ok {sum sum' : CoordinatorSum F} {f : ReturnFrame}
    (h : addReturn sum f = .ok sum') : f.status = .ok := by
  by_contra hstatus
  rw [addReturn, CoordinatorSum.accumulate, if_pos hstatus] at h
  cases h

/-- The sum after the returns of the first `n` ranks. -/
def fedBy (tokens : ℕ) (fs : ℕ → ReturnFrame) (n : ℕ) : CoordinatorSum F :=
  (CoordinatorSum.new tokens hiddenDim .none).feed ((List.range n).map fs)

/-- Receive the return of one rank and add it. -/
def addRank (nocrc : Bool) (io : ℕ → Io) (r : ℕ) :
    EStateM ClientError (SparkConn × CoordinatorSum F) Unit := fun (conn, sum) =>
  match recvFrameBlocking nocrc (io r) conn with
  | .error e conn => .error e (conn, sum)
  | .ok f conn =>
    match addReturn sum f with
    | .ok sum' => .ok () (conn, sum')
    | .error e => .error e (conn, sum)

theorem sumRanks_sequential (htokens : ¬ 1 < tokens) :
    (sumRanks tokens nocrc io : Client (CoordinatorSum F)) =
      forConns (addRank nocrc io) (.new tokens hiddenDim .none) := by
  rw [sumRanks, if_neg htokens]
  rfl

/-- **Receives that fail nowhere.** -/
theorem sumRanks_eq {c : WireClient} {fs : ℕ → ReturnFrame} {g : ℕ → SparkConn → SparkConn}
    (hrecv : ∀ (r : ℕ) (conn : SparkConn), c.conns[r]? = some conn →
      recvFrameBlocking nocrc (io r) conn = .ok (fs r) (g r conn))
    (hsum : ∀ r < c.conns.length,
      addReturn (fedBy tokens fs r : CoordinatorSum F) (fs r) = .ok (fedBy tokens fs (r + 1))) :
    sumRanks tokens nocrc io c =
      .ok (fedBy tokens fs c.conns.length : CoordinatorSum F)
        { c with conns := c.conns.mapIdx g } := by
  have hnew : (CoordinatorSum.new tokens hiddenDim .none : CoordinatorSum F) = fedBy tokens fs 0 :=
      rfl
  by_cases htokens : 1 < tokens
  · have hresults : (c.conns.mapIdx fun r conn => recvFrameBlocking nocrc (io r) conn) =
        c.conns.mapIdx fun r conn => (.ok (fs r) (g r conn) :
          EStateM.Result ClientError SparkConn ReturnFrame) := by
      refine List.ext_getElem (by simp) fun r hr hr' => ?_
      rw [List.length_mapIdx] at hr
      rw [List.getElem_mapIdx, List.getElem_mapIdx, hrecv r _ (List.getElem?_eq_getElem hr)]
    have hjoin (i : ℕ) (conns : List SparkConn) (hlen : i + conns.length ≤ c.conns.length) :
        joinReturns (fedBy tokens fs i : CoordinatorSum F)
          (conns.mapIdx fun r conn => (.ok (fs (i + r)) (g (i + r) conn) :
            EStateM.Result ClientError SparkConn ReturnFrame)) =
          .ok (conns.mapIdx fun r conn => g (i + r) conn, fedBy tokens fs (i + conns.length)) := by
      induction conns generalizing i with
      | nil => rfl
      | cons conn conns ih =>
        rw [List.length_cons] at hlen
        have hrest := ih (i + 1) (by omega)
        rw [List.mapIdx_cons, List.mapIdx_cons, joinReturns, Nat.add_zero, hsum i (by omega)]
        simp only [Nat.add_assoc, Nat.add_comm 1] at hrest
        show (joinReturns (fedBy tokens fs (i + 1)) _ >>= _ :
          Except ClientError (List SparkConn × CoordinatorSum F)) = _
        rw [hrest]
        rfl
    have hall := hjoin 0 c.conns (by rw [Nat.zero_add])
    simp only [Nat.zero_add] at hall
    rw [sumRanks, if_pos htokens]
    show (call (joinReturns _ (c.conns.mapIdx fun r conn =>
      recvFrameBlocking nocrc (io r) conn)) >>= _ : Client (CoordinatorSum F)) _ = _
    rw [hresults, hnew, hall]
    rfl
  · have hloop := @each_eq_ok ClientError (CoordinatorSum F) SparkConn (addRank nocrc io) g
      (fedBy tokens fs) 0 c.conns fun r conn hconn => by
        have hlt := (List.getElem?_eq_some_iff.mp hconn).1
        simp only [addRank, Nat.zero_add, hrecv r conn hconn, hsum r hlt]
    rw [sumRanks_sequential htokens, forConns, hnew, hloop]
    simp only [Nat.zero_add]

/-- Without a connection there is nothing to receive. -/
theorem sumRanks_nil {c : WireClient} (h : c.conns = []) :
    sumRanks tokens nocrc io c =
      .ok (CoordinatorSum.new tokens hiddenDim .none : CoordinatorSum F) c := by
  cases c with
  | mk conns nextRequestId rdmaBody inflight sendHalf =>
    obtain rfl : conns = [] := h
    rw [sumRanks]
    split
    · rfl
    · rfl

theorem joinReturns_status {sum : CoordinatorSum F}
    {results : List (EStateM.Result ClientError SparkConn ReturnFrame)}
    {out : List SparkConn × CoordinatorSum F} (h : joinReturns sum results = .ok out) :
    ∀ r ∈ results, Outcome (fun f _ => f.status = .ok) (fun _ => False) r := by
  induction results generalizing sum out with
  | nil => simp
  | cons r results ih =>
    cases r with
    | error e conn => exact absurd h (by simp [joinReturns])
    | ok f conn =>
      rw [joinReturns] at h
      obtain ⟨sum', hadd, h⟩ := Result.bind_eq_ok.mp h
      obtain ⟨rest, hrest, -⟩ := Result.bind_eq_ok.mp h
      exact List.forall_mem_cons.mpr ⟨addReturn_eq_ok hadd, ih hrest⟩

/-- What was received from the connection was a return without error. -/
def PassedRow (nocrc : Bool) (_ : ℕ) (conn conn' : SparkConn) : Prop :=
  ¬ Barren nocrc conn ∧ conn'.tx = conn.tx

/-- A barren connection is barren still. -/
def BarrenRow (nocrc : Bool) (_ : ℕ) (conn conn' : SparkConn) : Prop :=
  (Barren nocrc conn → Barren nocrc conn') ∧ conn'.tx = conn.tx

theorem addRank_row (hio : ∀ r, (io r).Reads) (r : ℕ) (conn : SparkConn)
    (sum : CoordinatorSum F) : Outcome (fun _ y => PassedRow nocrc r conn y.1)
      (fun y => BarrenRow nocrc r conn y.1) (addRank nocrc io r (conn, sum)) := by
  have htx := @recvFrameBlocking_tx nocrc (io r) conn.tx conn rfl
  have hread (hb : Barren nocrc conn) := hb (io r) conn (hio r) rfl
  rw [addRank]
  cases hres : recvFrameBlocking nocrc (io r) conn with
  | error e conn' =>
    rw [hres] at htx hread
    exact ⟨fun hb => barren_nil (hread hb), htx⟩
  | ok f conn' =>
    rw [hres] at htx hread
    dsimp only
    cases hadd : addReturn sum f with
    | error e => exact ⟨fun hb => barren_nil (hread hb).2, htx⟩
    | ok sum' => exact ⟨fun hb => (hread hb).1 (addReturn_eq_ok hadd), htx⟩

/-- **A barren connection fails the sum**, and stays barren, unless every connection is lost. -/
theorem sumRanks_barren {c : WireClient} (hio : ∀ r, (io r).Reads) {r : ℕ} {conn : SparkConn}
    (hconn : c.conns[r]? = some conn) (hb : Barren nocrc conn) :
    ∃ e s, (sumRanks tokens nocrc io : Client (CoordinatorSum F)) c = .error e s ∧
      s = { c with conns := s.conns } ∧ (s.conns = [] ∨ ∃ conn', s.conns[r]? = some conn' ∧
        Barren nocrc conn' ∧ conn'.tx = conn.tx) := by
  by_cases htokens : 1 < tokens
  · rw [sumRanks, if_pos htokens]
    show ∃ e s, (call (joinReturns _ (c.conns.mapIdx fun r conn =>
      recvFrameBlocking nocrc (io r) conn)) >>= _ : Client (CoordinatorSum F))
        { c with conns := [] } = _ ∧ _
    cases hjoin : joinReturns (.new tokens hiddenDim .none : CoordinatorSum F)
      (c.conns.mapIdx fun r conn => recvFrameBlocking nocrc (io r) conn) with
    | error e => exact ⟨e, _, rfl, rfl, .inl rfl⟩
    | ok out =>
      have hmem : recvFrameBlocking nocrc (io r) conn ∈
          c.conns.mapIdx fun r conn => recvFrameBlocking nocrc (io r) conn :=
        List.mem_of_getElem? (i := r) (by rw [List.getElem?_mapIdx, hconn]; rfl)
      have hok := joinReturns_status hjoin _ hmem
      have hrecv := hb (io r) conn (hio r) rfl
      cases hres : recvFrameBlocking nocrc (io r) conn with
      | error e s =>
        rw [hres] at hok
        exact hok.elim
      | ok f s =>
        rw [hres] at hok hrecv
        exact absurd hok hrecv.1
  · have hloop := each_rows (R := PassedRow nocrc) (S := BarrenRow nocrc)
      (fun j a sum => @addRank_row nocrc io F _ hio j a sum)
      (fun _ _ _ h => ⟨fun ha => absurd ha h.1, h.2⟩) (fun _ _ => ⟨fun h => h, rfl⟩) 0 c.conns
      (.new tokens hiddenDim .none : CoordinatorSum F)
    rw [sumRanks_sequential htokens, forConns]
    cases hres : each (addRank nocrc io) 0 c.conns
      (.new tokens hiddenDim .none : CoordinatorSum F) with
    | ok u y =>
      rw [hres] at hloop
      obtain ⟨-, -, hnot, -⟩ := hloop.2 r conn hconn
      exact absurd hb hnot
    | error e y =>
      rw [hres] at hloop
      obtain ⟨conn', hconn', hkept, htx⟩ := hloop.2 r conn hconn
      exact ⟨e, _, rfl, rfl, .inr ⟨conn', hconn', hkept hb, htx⟩⟩

/-! ### One return from each rank -/

/-- The rows of a delivery fit the sum. -/
theorem Delivers.fit {rows hidden : ℕ} {partialOf : ℕ → ℕ → List UInt16} {fs : List ReturnFrame}
    (hd : Delivers rows hidden partialOf fs) : ∀ f ∈ fs, ∀ y ∈ f.addressed,
      y.1 ∈ Grid.slots sparks rows ∧ y.2.length = hidden := by
  intro f hf y hy
  obtain ⟨slot, hslot, rfl⟩ := List.mem_map.mp
    (hd.contents.mem_iff.mp (List.mem_flatMap.mpr ⟨f, hf, hy⟩))
  obtain ⟨hrank, htoken⟩ := Grid.mem_slots.mp hslot
  exact ⟨hslot, hd.codes_len _ hrank _ htoken⟩

/-- No two rows of a delivery are for one slot. -/
theorem Delivers.free {rows hidden : ℕ} {partialOf : ℕ → ℕ → List UInt16} {fs : List ReturnFrame}
    (hd : Delivers rows hidden partialOf fs) :
    ((fs.flatMap ReturnFrame.partials).map Partial.key).Nodup := by
  have hlog : slotCodes (fs.flatMap ReturnFrame.partials) = fs.flatMap ReturnFrame.addressed := by
    rw [slotCodes, List.map_flatMap]
    refine List.flatMap_congr fun f hf => ReturnFrame.slotCodes_partialsFrom fun y hy => ?_
    exact (Grid.mem_slots.mp (Delivers.fit hd f hf y hy).1).2.le.trans hd.rows_le
  have hslots : ((fs.flatMap ReturnFrame.partials).map (·.key.slot)).Perm
      (Grid.slots sparks rows) := by
    have hmap := hd.contents.map Prod.fst
    rwa [List.map_map, Function.comp_def, List.map_id', ← hlog, map_fst_slotCodes] at hmap
  refine List.Nodup.of_map SlotKey.slot ?_
  rw [List.map_map]
  exact hslots.nodup_iff.mpr (Grid.nodup_slots _ _)

/-- The sum takes one return from each rank. -/
theorem addReturn_fedBy {fs : ℕ → ReturnFrame} {partialOf : ℕ → ℕ → List UInt16}
    (hd : Delivers tokens hiddenDim partialOf ((List.range sparks).map fs))
    (hrank : ∀ r < sparks, (fs r).executorId.toNat = r) {r : ℕ} (hr : r < sparks) :
    addReturn (fedBy tokens fs r : CoordinatorSum F) (fs r) = .ok (fedBy tokens fs (r + 1)) := by
  have hsplit : (List.range sparks).map fs =
      (List.range r).map fs ++ fs r :: ((List.range sparks).drop (r + 1)).map fs := by
    have hdrop : (List.range sparks).drop r = r :: (List.range sparks).drop (r + 1) := by
      rw [List.drop_eq_getElem_cons (by rwa [List.length_range]), List.getElem_range]
    rw [← List.map_cons, ← hdrop, ← List.map_append]
    congr 1
    rw [← Nat.min_eq_left hr.le, ← List.take_range, Nat.min_eq_left hr.le, List.take_append_drop]
  have hmem (f : ReturnFrame) (hf : f ∈ (List.range r).map fs ∨ f = fs r) :
      f ∈ (List.range sparks).map fs := by
    rw [hsplit]
    rcases hf with hf | rfl
    · exact List.mem_append_left _ hf
    · exact List.mem_append_right _ List.mem_cons_self
  have hfree := Delivers.free hd
  rw [hsplit, List.flatMap_append, List.flatMap_cons, ← List.append_assoc, List.map_append] at hfree
  have hfree' := (List.nodup_append.mp hfree).1
  have hbefore := @CoordinatorSum.Holds.feed_all F _ _ []
    (CoordinatorSum.holds_new tokens hiddenDim) ((List.range r).map fs) hd.rows_le
    (fun f hf => hd.status_ok f (hmem f (.inl hf)))
    (fun f hf => Delivers.fit hd f (hmem f (.inl hf)))
    (by
      rw [List.map_append] at hfree'
      exact (List.nodup_append.mp hfree').1)
  have hstatus := hd.status_ok (fs r) (hmem _ (.inr rfl))
  have hok := (hbefore.holds.accumulateRows_ok (r := 0) (f := fs r)
    (by rw [hbefore.rows]; exact hd.rows_le)
    (by
      rw [hbefore.rows, hbefore.hidden]
      exact Delivers.fit hd (fs r) (hmem _ (.inr rfl)))
    hfree').1
  have hnext : ((fedBy tokens fs r : CoordinatorSum F).accumulate (fs r)).1 =
      fedBy tokens fs (r + 1) := by
    rw [fedBy, fedBy, List.range_succ, List.map_append, CoordinatorSum.feed_append]
    rfl
  have haccumulate : (fedBy tokens fs r : CoordinatorSum F).accumulate (fs r) =
      CoordinatorSum.accumulateRows (fs r) (fs r).executorId.toNat (fedBy tokens fs r) 0
          (fs r).rows := by
    rw [CoordinatorSum.accumulate, if_neg (by rw [hstatus]; simp),
      if_neg (by rw [hrank r hr]; omega)]
  change (CoordinatorSum.accumulateRows (fs r) (fs r).executorId.toNat (fedBy tokens fs r) 0
    (fs r).rows).2 = _ at hok
  rw [addReturn, ← hnext]
  rw [← haccumulate] at hok
  generalize (fedBy tokens fs r : CoordinatorSum F).accumulate (fs r) = y at hok ⊢
  obtain ⟨sum', result⟩ := y
  dsimp only at hok
  rw [hok]

end Coordinator

end Mimo26

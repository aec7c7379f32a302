import Mimo26.Coordinator.WireClientRules
import Mimo26.Spark.Transport

/-!
# The coordinator's frame receive

`recv_frame_full` takes a return off a Spark's stream the way the Spark takes a request off the
coordinator's: the header first, then as much as the header says. The zero-copy receive beside it
checks the length against the exchange before it reads on; this one has nothing to check it against.

## Main definitions

* `recvFrameFull` — one return off a stream, with the buffer it asks for

## Main results

* `recvFrameFull_eq_blocking` — where every read succeeds it is the client's receive
* `tcp_framing_iff` — the framing of a TCP stream, and which headers ask for a bounded buffer
-/

namespace Mimo26

namespace Coordinator

open Wire Fallible

/-- A receive's result (none where it panics), the length of the buffer it asked for, and the stream
and the receiver it leaves. -/
structure FrameRecv where
  result : Option (Except ClientError ReturnFrame)
  requested : Option ℕ
  stream : Source UInt8
  rx : StreamReceiver

/-- Accept a frame, which must be a return. -/
def acceptReturn (nocrc : Bool) (rx : StreamReceiver) (bytes : List UInt8) :
    StreamReceiver × Except ClientError ReturnFrame :=
  match rx.accept nocrc bytes with
  | (rx, .error e) => (rx, .error (.wire e))
  | (rx, .ok (.return f)) => (rx, .ok f)
  | (rx, .ok (.request _)) => (rx, .error (.refused "wire: unexpected request frame from Spark"))

/-- Read one return frame and accept it. -/
def recvFrameFull (nocrc : Bool) (stream : Source UInt8) (rx : StreamReceiver) : FrameRecv :=
  let r := readFrame stream
  match r.outcome with
  | .noHeader _ => ⟨some (.error (.io "spark read header")), r.requested, r.stream, rx⟩
  | .badLength _ => ⟨some (.error (.refused "wire: bad frame length")), r.requested, r.stream, rx⟩
  | .panicked => ⟨none, r.requested, r.stream, rx⟩
  | .noBody _ => ⟨some (.error (.io "spark read body")), r.requested, r.stream, rx⟩
  | .frame bytes =>
    let a := acceptReturn nocrc rx bytes
    ⟨some a.2, r.requested, r.stream, a.1⟩

theorem requested_recvFrameFull (nocrc : Bool) (stream : Source UInt8) (rx : StreamReceiver) :
    (recvFrameFull nocrc stream rx).requested = (readFrame stream).requested := by
  rw [recvFrameFull]
  cases (readFrame stream).outcome with
  | frame bytes => rfl
  | noHeader e => rfl
  | badLength wb => rfl
  | panicked => rfl
  | noBody e => rfl

/-- A result without the state it leaves. -/
def resultOf : EStateM.Result ClientError SparkConn ReturnFrame → Except ClientError ReturnFrame
  | .ok f _ => .ok f
  | .error e _ => .error e

theorem readExact_of_le {n : ℕ} {conn : SparkConn} (h : n ≤ conn.incoming.length) (text : String) :
    readExact n none text conn =
      .ok (conn.incoming.take n) { conn with incoming := conn.incoming.drop n } := by
  show (if n ≤ conn.incoming.length then _ else _ : Conn (List UInt8)) conn = _
  rw [if_pos h]
  rfl

theorem readExact_of_lt {n : ℕ} {conn : SparkConn} (h : conn.incoming.length < n) (text : String) :
    readExact n none text conn = .error (.io text) { conn with incoming := [] } := by
  show (if n ≤ conn.incoming.length then _ else _ : Conn (List UInt8)) conn = _
  rw [if_neg h.not_ge]
  rfl

theorem resultOf_acceptFrame (nocrc : Bool) (conn : SparkConn) (bytes : List UInt8) :
    resultOf ((acceptFrame bytes nocrc >>= expectReturn) conn) =
      (acceptReturn nocrc conn.rx bytes).2 := by
  rw [acceptReturn]
  have hframe : acceptFrame bytes nocrc conn =
      wireCall (conn.rx.accept nocrc bytes).2
        { conn with rx := (conn.rx.accept nocrc bytes).1 } := rfl
  show resultOf (EStateM.bind (acceptFrame bytes nocrc) expectReturn conn) = _
  rw [EStateM.bind, hframe]
  generalize conn.rx.accept nocrc bytes = r
  obtain ⟨rx, result⟩ := r
  cases result with
  | error e => rfl
  | ok f =>
    cases f with
    | request f => rfl
    | «return» f => rfl

/-- Where every read succeeds, and short of a length no `Vec` has, this is the receive of the
client's model, which has the whole stream at hand. -/
theorem recvFrameFull_eq_blocking (nocrc : Bool) {stream : Source UInt8} (hs : stream.Calm)
    (conn : SparkConn) (hconn : conn.incoming = stream.rest)
    (hvec : declaredLen (stream.rest.take headerLen) ≤ isizeMax) :
    (recvFrameFull nocrc stream conn.rx).result =
      some (resultOf (recvFrameBlocking nocrc {} conn)) := by
  have hcheck (c : SparkConn) (e : ClientError) : (check true e : Conn Unit) c = .ok () c := rfl
  rw [recvFrameBlocking, recvFrameFull, readFrame]
  simp only [bind, EStateM.bind, Bool.not_false, hcheck]
  rcases Nat.lt_or_ge stream.rest.length headerLen with hshort | hlen
  · obtain ⟨s', hfill, -, -⟩ := Source.fill_of_lt hs hshort
    rw [hfill, readExact_of_lt (by rwa [hconn])]
    rfl
  · obtain ⟨s', hfill, hrest, hs'⟩ := Source.fill_of_le hs (List.length_take_of_le hlen)
      (List.take_append_drop headerLen stream.rest).symm
    rw [hfill, readExact_of_le (by rwa [hconn]), hconn]
    simp only
    generalize stream.rest.take headerLen = header at hvec ⊢
    rw [show Bytes.ofLe (Bytes.slice header Hdr.wireBytes.off 8) = declaredLen header from rfl]
    generalize declaredLen header = wb at hvec ⊢
    by_cases hbad : wb < headerLen
    · rw [if_pos hbad, decide_eq_false (Nat.not_le.mpr hbad)]
      rfl
    rw [if_neg hbad, if_neg hvec.not_gt, decide_eq_true (Nat.not_lt.mp hbad)]
    simp only [hcheck]
    rcases Nat.lt_or_ge s'.rest.length (wb - headerLen) with hshort | hbody
    · obtain ⟨s'', hfill', -, -⟩ := Source.fill_of_lt hs' hshort
      rw [hfill', readExact_of_lt (by rwa [← hrest])]
      rfl
    · obtain ⟨s'', hfill', -, -⟩ := Source.fill_of_le hs' (List.length_take_of_le hbody)
        (List.take_append_drop (wb - headerLen) s'.rest).symm
      rw [hfill', readExact_of_le (by rwa [← hrest]), ← hrest]
      have haccept := resultOf_acceptFrame nocrc { conn with incoming := s'.rest.drop (wb - headerLen) }
        (header ++ s'.rest.take (wb - headerLen))
      simp only [bind, EStateM.bind] at haccept
      rw [haccept]

/-! ### The framing of a stream -/

/-- **Frames of a TCP stream.** The frames a peer's encoders produced are received whole and in
order, then nothing, however the stream falls into reads. Both receives ask for a buffer no longer
than the longest frame exactly where the header declares no more than that. -/
theorem tcp_framing_iff (naive : WireNaive) :
    (∀ (frames : List (List UInt8)) (t : Spark.TcpTransport) (n : ℕ),
      (∀ bytes ∈ frames, ∃ naive, Produced naive bytes) → t.stream.Calm →
      t.stream.rest = frames.flatten →
      Spark.TcpTransport.recvs (frames.length + n) t =
        frames.map (fun bytes => .returned (some bytes)) ++ List.replicate n (.returned none)) ∧
    ∀ header : List UInt8, header.length = headerLen →
      ((∀ more turns closed,
          Bounded naive (Spark.TcpTransport.recv ⟨⟨header ++ more, turns⟩, closed⟩).requested) ↔
        declaredLen header ≤ largestFrame naive) ∧
      ((∀ more turns rx nocrc,
          Bounded naive (recvFrameFull nocrc ⟨header ++ more, turns⟩ rx).requested) ↔
        declaredLen header ≤ largestFrame naive) := by
  refine ⟨fun frames t n hframes ht hrest => Spark.TcpTransport.recvs_frames frames hframes ht hrest n,
    fun header hheader => ?_⟩
  rw [← bounded_readFrame_iff hheader]
  constructor
  · constructor
    · intro h more turns
      have hrecv := h more turns false
      rwa [Spark.TcpTransport.requested_recv] at hrecv
    · intro h more turns closed
      rw [Spark.TcpTransport.requested_recv]
      exact h more turns
  · constructor
    · intro h more turns
      have hrecv := h more turns (.new .none) false
      rwa [requested_recvFrameFull] at hrecv
    · intro h more turns rx nocrc
      rw [requested_recvFrameFull]
      exact h more turns

/-- The header of an encoded request with one bit of its length flipped. -/
def flippedHeader : HeaderFields :=
  { requestHeader oneRow 5 with wireBytes := (requestHeader oneRow 5).wireBytes ^^^ (1 : UInt64) <<< 62 }

/-- Every frame is shorter than what the flipped header declares. -/
theorem largestFrame_lt_flipped :
    largestFrame .none < declaredLen (writeHeader flippedHeader .none) := by
  rw [declaredLen_writeHeader, largestFrame, if_neg (by decide), returnRowBytes_none]
  decide

/-- The flipped header asks both receives for a buffer no frame is as long as. -/
theorem not_bounded_flipped :
    ¬ Bounded .none (Spark.TcpTransport.recv
        ⟨⟨writeHeader flippedHeader .none ++ [], []⟩, false⟩).requested ∧
      ¬ Bounded .none (recvFrameFull false ⟨writeHeader flippedHeader .none ++ [], []⟩
        (.new .none)).requested := by
  have hasked := not_bounded_of_lt (length_writeHeader flippedHeader .none) largestFrame_lt_flipped []
  rw [Spark.TcpTransport.requested_recv, requested_recvFrameFull]
  exact ⟨hasked, hasked⟩

/-- A request read a byte at a time with an interruption, and the flipped header. -/
theorem tcp_framing_oneRow : (∃ bytes, encodeRequestSeq oneRow 5 .none false = .ok bytes ∧
      Spark.TcpTransport.recvs 2 ⟨⟨bytes, [.upTo 0, .interrupted, .upTo 0]⟩, false⟩ =
        [.returned (some bytes), .returned none]) ∧
    ¬ ∀ more turns closed, Bounded .none
      (Spark.TcpTransport.recv ⟨⟨writeHeader flippedHeader .none ++ more, turns⟩, closed⟩).requested := by
  refine ⟨?_, fun h => ?_⟩
  · obtain ⟨bytes, hbytes⟩ : ∃ bytes, encodeRequestSeq oneRow 5 .none false = .ok bytes :=
      ⟨_, encodeRequestSeq_eq_ok.mpr ⟨encodable_oneRow, rfl⟩⟩
    have hproduced : Produced .none bytes := by
      obtain ⟨n, hn, hle⟩ := framed_of_encodeRequestSeq hbytes
      refine ⟨?_, 5, false, .inl ⟨oneRow, hbytes⟩⟩
      rw [hn.length, isizeMax, headerLen]
      omega
    have hcalm : Source.Calm ⟨bytes, [.upTo 0, .interrupted, .upTo 0]⟩ :=
      show Turn.failed ∉ [Turn.upTo 0, Turn.interrupted, Turn.upTo 0] from by decide
    have hframes := (tcp_framing_iff .none).1 [bytes]
      ⟨⟨bytes, [.upTo 0, .interrupted, .upTo 0]⟩, false⟩ 1
      (List.forall_mem_singleton.mpr ⟨.none, hproduced⟩) hcalm (List.append_nil bytes).symm
    exact ⟨bytes, hbytes, hframes⟩
  · exact largestFrame_lt_flipped.not_ge
      (((tcp_framing_iff .none).2 _ (length_writeHeader flippedHeader .none)).1.mp h)

end Coordinator

end Mimo26

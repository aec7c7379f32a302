import Mimo26.Wire.TcpFrame

/-!
# The Spark side of the TCP transport

`TcpTransport` hands the rank one whole frame at a time (`transport.rs`). The peer's frames come as
one stream of bytes, and how the stream falls into reads is the network's choice.

## Main definitions

* `TcpTransport`, `TcpTransport.recv` — the transport and one receive
* `TcpTransport.recvs` — receiving again and again

## Main results

* `TcpTransport.recvs_frames` — the frames the peer sent are received whole and in order, then
  nothing
-/

namespace Mimo26

namespace Spark

open Wire

/-- A stream to a peer, and whether the peer was seen to be gone. -/
structure TcpTransport where
  stream : Source UInt8
  closed : Bool
  deriving DecidableEq, Repr

/-- What a call of `recv` does: it returns, or it panics. -/
inductive Received where
  | returned (frame : Option (List UInt8))
  | panicked
  deriving DecidableEq, Repr

/-- A receive, the length of the buffer it asked for, and the transport it leaves. -/
structure Recv where
  received : Received
  requested : Option ℕ
  transport : TcpTransport
  deriving DecidableEq, Repr

namespace TcpTransport

/-- Receive one frame; without a complete one the peer counts as gone. -/
def recv (t : TcpTransport) : Recv :=
  let r := readFrame t.stream
  match r.outcome with
  | .frame bytes => ⟨.returned (some bytes), r.requested, ⟨r.stream, t.closed⟩⟩
  | .panicked => ⟨.panicked, r.requested, ⟨r.stream, t.closed⟩⟩
  | .noHeader _ => ⟨.returned none, r.requested, ⟨r.stream, true⟩⟩
  | .badLength _ => ⟨.returned none, r.requested, ⟨r.stream, true⟩⟩
  | .noBody _ => ⟨.returned none, r.requested, ⟨r.stream, true⟩⟩

/-- What `n` calls of `recv` give. -/
def recvs : ℕ → TcpTransport → List Received
  | 0, _ => []
  | n + 1, t => t.recv.received :: recvs n t.recv.transport

variable {t : TcpTransport}

theorem requested_recv (t : TcpTransport) : t.recv.requested = (readFrame t.stream).requested := by
  rw [recv]
  cases (readFrame t.stream).outcome with
  | frame bytes => rfl
  | noHeader e => rfl
  | badLength wb => rfl
  | panicked => rfl
  | noBody e => rfl

/-- A frame at the front of the stream is received whole. -/
theorem recv_frame {naive : WireNaive} {bytes more : List UInt8} (ht : t.stream.Calm)
    (hb : Produced naive bytes) (hrest : t.stream.rest = bytes ++ more) :
    t.recv.received = .returned (some bytes) ∧ t.recv.transport.stream.rest = more ∧
      t.recv.transport.stream.Calm := by
  obtain ⟨s', hread, hmore, hs'⟩ := readFrame_frame ht hb hrest
  rw [recv, hread]
  exact ⟨rfl, hmore, hs'⟩

/-- At the end of the stream nothing is received. -/
theorem recv_nil (ht : t.stream.Calm) (hrest : t.stream.rest = []) :
    t.recv.received = .returned none ∧ t.recv.transport.stream.rest = [] ∧
      t.recv.transport.stream.Calm := by
  obtain ⟨s', hread, hnil, hs'⟩ := readFrame_nil ht hrest
  rw [recv, hread]
  exact ⟨rfl, hnil, hs'⟩

theorem recvs_nil (n : ℕ) (ht : t.stream.Calm) (hrest : t.stream.rest = []) :
    recvs n t = List.replicate n (.returned none) := by
  induction n generalizing t with
  | zero => rfl
  | succ n ih =>
    obtain ⟨hnone, hrest', ht'⟩ := recv_nil ht hrest
    rw [recvs, hnone, ih ht' hrest', List.replicate_succ]

/-- **The frames are received whole and in order**, however the stream falls into reads, and after
them nothing. -/
theorem recvs_frames (frames : List (List UInt8)) (hframes : ∀ bytes ∈ frames, ∃ naive,
    Produced naive bytes) (ht : t.stream.Calm) (hrest : t.stream.rest = frames.flatten) (n : ℕ) :
    recvs (frames.length + n) t =
      frames.map (fun bytes => .returned (some bytes)) ++ List.replicate n (.returned none) := by
  induction frames generalizing t with
  | nil =>
    rw [List.length_nil, Nat.zero_add]
    exact recvs_nil n ht hrest
  | cons bytes frames ih =>
    obtain ⟨naive, hb⟩ := hframes bytes List.mem_cons_self
    obtain ⟨hsome, hrest', ht'⟩ := recv_frame ht hb hrest
    have hrun := ih (fun b hmem => hframes b (List.mem_cons_of_mem bytes hmem)) ht' hrest'
    rw [List.length_cons, Nat.add_right_comm, recvs, hsome, hrun]
    rfl

end TcpTransport

end Spark

end Mimo26

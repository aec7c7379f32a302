import Mimo26.Library.Source
import Mimo26.Wire.FrameLength

/-!
# Frames of a TCP stream

A TCP stream has no separators: a reader takes a header, and the header's own length says how much
follows. Both readers of the repository (`TcpTransport::recv`, `recv_frame_full`) take a frame this
way; they differ in what they make of the outcome.

The length is used before any checksum is read. Nothing but the header's size bounds it, so a header
can ask for a buffer of any length.

## Main definitions

* `readFrame` — one frame off a stream: its outcome and the buffer it asks for
* `Bounded` — the buffer asked for is no longer than some frame

## Main results

* `readFrame_frame`, `readFrame_nil` — a frame is read whole however the reads split it; the end of
  the stream is found between frames
* `bounded_readFrame_iff` — the buffer is bounded exactly when the header's length is
-/

namespace Mimo26

namespace Wire

/-- How reading a frame ends. -/
inductive FrameOutcome where
  | frame (bytes : List UInt8)
  /-- The stream ended or failed within the header. -/
  | noHeader (e : Unfilled)
  /-- The declared length is below the header's. -/
  | badLength (wb : ℕ)
  /-- `vec![0u8; wb]` panics: no `Vec` is that long. -/
  | panicked
  /-- The stream ended or failed within the body. -/
  | noBody (e : Unfilled)
  deriving DecidableEq, Repr

/-- What reading a frame gives: its outcome, the length of the buffer it asked for and the stream
it leaves. -/
structure FrameRead where
  outcome : FrameOutcome
  requested : Option ℕ
  stream : Source UInt8
  deriving DecidableEq, Repr

/-- Read a header, then a body as long as the header says. -/
def readFrame (stream : Source UInt8) : FrameRead :=
  match stream.fill headerLen [] with
  | (.error e, stream) => ⟨.noHeader e, none, stream⟩
  | (.ok header, stream) =>
    let wb := declaredLen header
    if wb < headerLen then ⟨.badLength wb, none, stream⟩
    else if isizeMax < wb then ⟨.panicked, some wb, stream⟩
    else
      match stream.fill (wb - headerLen) [] with
      | (.error e, stream) => ⟨.noBody e, some wb, stream⟩
      | (.ok body, stream) => ⟨.frame (header ++ body), some wb, stream⟩

variable {stream : Source UInt8} {naive : WireNaive}

/-! ### A stream of frames -/

/-- **A frame is read whole**, whatever each read brings, and the next one starts where it ended. -/
theorem readFrame_frame (hs : stream.Calm) {bytes more : List UInt8} (hb : Produced naive bytes)
    (hrest : stream.rest = bytes ++ more) :
    ∃ s', readFrame stream = ⟨.frame bytes, some bytes.length, s'⟩ ∧ s'.rest = more ∧ s'.Calm := by
  have hlen := hb.headerLen_le
  have hdeclared : declaredLen (bytes.take headerLen) = bytes.length := by
    rw [declaredLen_take hlen, hb.declaredLen_eq]
  have hhead : stream.rest = bytes.take headerLen ++ (bytes.drop headerLen ++ more) := by
    rw [hrest, ← List.append_assoc, List.take_append_drop]
  obtain ⟨s', hheader, hrest', hs'⟩ := Source.fill_of_le hs (List.length_take_of_le hlen) hhead
  obtain ⟨s'', hbody, hmore, hs''⟩ := Source.fill_of_le hs' List.length_drop hrest'
  refine ⟨s'', ?_, hmore, hs''⟩
  rw [readFrame, hheader]
  simp only
  rw [hdeclared, if_neg hlen.not_gt, if_neg hb.1.not_gt, hbody]
  simp only
  rw [List.take_append_drop]

/-- The end of a stream is no frame. -/
theorem readFrame_nil (hs : stream.Calm) (hrest : stream.rest = []) :
    ∃ s', readFrame stream = ⟨.noHeader .ended, none, s'⟩ ∧ s'.rest = [] ∧ s'.Calm := by
  obtain ⟨s', hheader, hrest', hs'⟩ :=
    Source.fill_of_lt (n := headerLen) hs (by rw [hrest]; decide)
  refine ⟨s', ?_, hrest', hs'⟩
  rw [readFrame, hheader]

/-! ### The buffer asked for -/

/-- The buffer asked for, if one is, is no longer than the longest frame an encoder produces. -/
def Bounded (naive : WireNaive) (requested : Option ℕ) : Prop :=
  ∀ n ∈ requested, ∃ bytes, Produced naive bytes ∧ n ≤ bytes.length

theorem bounded_some {n : ℕ} : Bounded naive (some n) ↔ n ≤ largestFrame naive := by
  constructor
  · intro h
    obtain ⟨bytes, hbytes, hle⟩ := h n rfl
    exact hle.trans hbytes.length_le
  · intro hle m hm
    obtain rfl := Option.some.inj hm
    obtain ⟨bytes, hbytes, hlen⟩ := exists_produced_largestFrame naive
    exact ⟨bytes, hbytes, hlen ▸ hle⟩

theorem bounded_none : Bounded naive none := by
  intro n hn
  cases hn

/-- The buffer asked for is as long as the header says; a length below the header's is reported. -/
theorem requested_readFrame (stream : Source UInt8) :
    (readFrame stream).requested = none ∨ ∃ header more, header.length = headerLen ∧
      stream.rest = header ++ more ∧ (readFrame stream).requested = some (declaredLen header) := by
  have hfill := Source.fill_spec headerLen [] stream
  rw [readFrame]
  generalize stream.fill headerLen [] = r at hfill ⊢
  obtain ⟨result, s'⟩ := r
  cases result with
  | error e => exact .inl rfl
  | ok header =>
    obtain ⟨taken, rfl, hheader, hrest, -⟩ := hfill
    simp only
    by_cases hshort : declaredLen header < headerLen
    · rw [if_pos hshort]
      exact .inl rfl
    · refine .inr ⟨header, s'.rest, hheader, hrest, ?_⟩
      rw [if_neg hshort]
      split
      · rfl
      · generalize s'.fill _ [] = body
        obtain ⟨result, s''⟩ := body
        cases result with
        | error e => rfl
        | ok b => rfl

/-- A header that comes in whole and declares no less than itself is asked a buffer for. -/
theorem requested_readFrame_of_calm (hs : stream.Calm) {header more : List UInt8}
    (hheader : header.length = headerLen) (hrest : stream.rest = header ++ more)
    (hle : headerLen ≤ declaredLen header) :
    (readFrame stream).requested = some (declaredLen header) := by
  obtain ⟨s', hfill, -, -⟩ := Source.fill_of_le hs hheader hrest
  rw [readFrame, hfill]
  simp only
  rw [if_neg hle.not_gt]
  split
  · rfl
  · generalize s'.fill _ [] = body
    obtain ⟨result, s''⟩ := body
    cases result with
    | error e => rfl
    | ok b => rfl

theorem headerLen_le_largestFrame (naive : WireNaive) : headerLen ≤ largestFrame naive :=
  (Nat.le_add_right headerLen _).trans (request_le_largestFrame naive)

/-- A header that declares more than every frame is asked a buffer longer than every frame for. -/
theorem not_bounded_of_lt {header : List UInt8} (hheader : header.length = headerLen)
    (hlt : largestFrame naive < declaredLen header) (more : List UInt8) :
    ¬ Bounded naive (readFrame ⟨header ++ more, []⟩).requested := by
  have hcalm : Source.Calm ⟨header ++ more, []⟩ := List.not_mem_nil
  rw [requested_readFrame_of_calm hcalm hheader rfl ((headerLen_le_largestFrame naive).trans hlt.le),
    bounded_some]
  exact hlt.not_ge

/-- **The buffer asked for is bounded exactly when the header's length is**, whatever follows the
header and however it is read. -/
theorem bounded_readFrame_iff {header : List UInt8} (hheader : header.length = headerLen) :
    (∀ more turns, Bounded naive (readFrame ⟨header ++ more, turns⟩).requested) ↔
      declaredLen header ≤ largestFrame naive := by
  constructor
  · intro h
    by_contra hlt
    exact not_bounded_of_lt hheader (Nat.lt_of_not_le hlt) [] (h [] [])
  · intro hle more turns
    rcases requested_readFrame ⟨header ++ more, turns⟩ with hnone | ⟨h, more', hlen, hrest, hsome⟩
    · rw [hnone]
      exact bounded_none
    · obtain ⟨rfl, -⟩ := List.append_inj hrest (hheader.trans hlen.symm)
      rw [hsome]
      exact bounded_some.mpr hle

end Wire

end Mimo26

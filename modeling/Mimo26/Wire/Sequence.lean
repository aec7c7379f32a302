import Mimo26.Wire.Ladder

/-!
# Sequence numbers of a stream

A sender takes a sequence number before it validates the frame, and keeps it when the encoder
refuses: the next frame it sends is one ahead of what a receiver expects, which accepts nothing
from there on. Whether the encoders refuse a frame is independent of the number.

The receiver also refuses an `Ok` return that does not carry the flags of a reduced one, which the
encoder does not look at.

## Main definitions

* `Frame.Encodable` — the frames the encoders accept
* `StreamReceiver.acceptAll` — what a receiver answers to a sequence of frames
* `Gapless` — no number is lost before a frame that is sent

## Main results

* `encode_eq_ok` — when a call of the sender succeeds
* `allAccepted_iff` — when everything that is sent is accepted
* `not_allAccepted_emptyReturn` — a refused call before a good one
-/

namespace Mimo26

namespace Wire

open Result

/-! ### What the encoders accept -/

instance (f : RequestFrame) : Decidable f.Encodable :=
  decidable_of_iff (f.rows ≠ [] ∧ f.hiddenRows.length = f.rows.length ∧
      validateRowsRoutes f.rows f.routes = .ok () ∧
      (∀ r ∈ f.hiddenRows, r.payload.length = hiddenDim) ∧
      (∀ r ∈ f.hiddenRows, r.scales.length = hiddenStride - hiddenDim) ∧
      f.rows.length * rowDescriptorLen < 2 ^ 32 ∧ f.routes.length * routeEntryLen < 2 ^ 32)
    ⟨fun ⟨h₁, h₂, h₃, h₄, h₅, h₆, h₇⟩ => ⟨h₁, h₂, h₃, h₄, h₅, h₆, h₇⟩,
      fun ⟨h₁, h₂, h₃, h₄, h₅, h₆, h₇⟩ => ⟨h₁, h₂, h₃, h₄, h₅, h₆, h₇⟩⟩

instance (f : ReturnFrame) : Decidable f.Encodable :=
  decidable_of_iff (f.rows ≠ [] ∧ f.routeCount ≠ 0 ∧
      (∀ row ∈ f.rows, row.codes.length = hiddenDim) ∧ f.rows.length < 2 ^ 32 ∧
      f.routeCount < 2 ^ 32)
    ⟨fun ⟨h₁, h₂, h₃, h₄, h₅⟩ => ⟨h₁, h₂, h₃, h₄, h₅⟩,
      fun ⟨h₁, h₂, h₃, h₄, h₅⟩ => ⟨h₁, h₂, h₃, h₄, h₅⟩⟩

/-- The frames the encoders accept. -/
def Frame.Encodable : Frame → Prop
  | .request f => f.Encodable
  | .return f => f.Encodable

instance : DecidablePred Frame.Encodable
  | .request f => inferInstanceAs (Decidable f.Encodable)
  | .return f => inferInstanceAs (Decidable f.Encodable)

/-- An `Ok` return carries the flags of a reduced one. -/
def Frame.Flagged : Frame → Prop
  | .request _ => True
  | .return f => f.status ≠ .ok ∨ f.flags &&& flagReturnRequired = flagReturnRequired

/-! ### Delivery in order -/

/-- The answers of a receiver to a sequence of frames. -/
def StreamReceiver.acceptAll (nocrc : Bool) :
    StreamReceiver → List (List UInt8) → List (Except WireError Frame)
  | _, [] => []
  | s, item :: items =>
    let (s', answer) := s.accept nocrc item
    answer :: s'.acceptAll nocrc items

/-- What `s` sends of the frames `fs`, `r` accepts. -/
def Accepts (nocrc : Bool) (s : StreamSender) (r : StreamReceiver) (fs : List Frame) : Prop :=
  r.acceptAll nocrc ((s.sendAll nocrc fs).map Prod.snd) = (s.sendAll nocrc fs).map (.ok ·.1)

/-- What a new sender sends of the frames `fs`, a new receiver accepts. -/
def AllAccepted (nocrc : Bool) (fs : List Frame) : Prop :=
  Accepts nocrc (.new .none) (.new .none) fs

/-- The frames the encoders refuse. -/
def refused (fs : List Frame) : ℕ := fs.countP fun f => ¬ f.Encodable

/-- Each frame that is sent comes after no refused one, or after a multiple of `2 ^ 64` of them, as
the number then wraps back. -/
def Gapless (fs : List Frame) : Prop :=
  ∀ i f, fs[i]? = some f → f.Encodable → 2 ^ 64 ∣ refused (fs.take i)

variable {nocrc : Bool} {s : StreamSender} {r : StreamReceiver} {f : Frame} {fs : List Frame}

/-- A call succeeds exactly for an encodable frame. -/
theorem encode_eq_ok (hn : s.naive = .none) :
    (∃ bytes, (s.encode nocrc f).2 = .ok bytes) ↔ f.Encodable := by
  cases f with
  | request f =>
    rw [StreamSender.encode, StreamSender.encodeRequest, hn]
    simp only [encodeRequestSeq_eq_ok, exists_and_left, exists_eq, and_true, Frame.Encodable]
  | «return» f =>
    rw [StreamSender.encode, StreamSender.encodeReturn, hn]
    simp only [encodeReturnSeq_eq_ok, exists_and_left, exists_eq, and_true, Frame.Encodable]

/-- The bytes of a sent frame decode to it exactly if it carries its flags. -/
theorem decodeFrame_of_encode_iff (hn : s.naive = .none) {bytes : List UInt8}
    (henc : (s.encode nocrc f).2 = .ok bytes) :
    decodeFrame bytes .none nocrc = .ok (f.withSeq s.nextSeq) ↔ f.Flagged := by
  cases f with
  | request f =>
    rw [StreamSender.encode, StreamSender.encodeRequest, hn] at henc
    exact iff_of_true (decodeFrame_encodeRequestSeq henc) trivial
  | «return» f =>
    rw [StreamSender.encode, StreamSender.encodeReturn, hn] at henc
    by_cases hflags : f.status ≠ .ok ∨ f.flags &&& flagReturnRequired = flagReturnRequired
    · exact iff_of_true (decodeFrame_encodeReturnSeq henc hflags) hflags
    · refine iff_of_false (fun hdec => ?_) hflags
      rw [decodeFrame_encodeReturnSeq_of_not henc hflags] at hdec
      cases hdec

/-- A receiver accepts a sent frame exactly if it carries its flags and the expected number. -/
theorem accept_of_encode (hn : s.naive = .none) (hr : r.naive = .none) {bytes : List UInt8}
    (henc : (s.encode nocrc f).2 = .ok bytes) :
    (r.accept nocrc bytes).2 = .ok (f.withSeq s.nextSeq) ↔ f.Flagged ∧ s.nextSeq = r.expected := by
  rw [← decodeFrame_of_encode_iff hn henc, StreamReceiver.accept, hr]
  cases hdec : decodeFrame bytes .none nocrc with
  | error e => simp
  | ok g =>
    obtain rfl := decodeFrame_of_encode hn henc hdec
    dsimp only
    rw [Frame.seq_withSeq]
    by_cases hseq : s.nextSeq = r.expected
    · rw [hseq, acceptSeq_of_eq hr]
      simp
    · obtain ⟨e, he⟩ := acceptSeq_of_ne hr hseq
      rw [he]
      simp [hseq]

/-- What the receiver expects after an accepted frame. -/
theorem accept_fst (hn : s.naive = .none) (hr : r.naive = .none) {bytes : List UInt8}
    (henc : (s.encode nocrc f).2 = .ok bytes) (hf : f.Flagged) (hseq : s.nextSeq = r.expected) :
    (r.accept nocrc bytes).1 = { r with expected := r.expected + 1 } := by
  rw [StreamReceiver.accept, hr, (decodeFrame_of_encode_iff hn henc).mpr hf]
  dsimp only
  rw [Frame.seq_withSeq, hseq, acceptSeq_of_eq hr, hr]

theorem forall_cons_iff {p : ℕ → Frame → Prop} :
    (∀ i g, (f :: fs)[i]? = some g → p i g) ↔ p 0 f ∧ ∀ i g, fs[i]? = some g → p (i + 1) g := by
  constructor
  · intro h
    exact ⟨h 0 f rfl, fun i g hg => h (i + 1) g hg⟩
  · rintro ⟨hhead, htail⟩ i g hg
    cases i with
    | zero =>
      obtain rfl := Option.some.inj hg
      exact hhead
    | succ i => exact htail i g hg

/-- A refused call sends nothing. -/
theorem sendAll_of_not (hn : s.naive = .none) (hf : ¬ f.Encodable) :
    s.sendAll nocrc (f :: fs) =
      ({ s with nextSeq := s.nextSeq + 1 } : StreamSender).sendAll nocrc fs := by
  rw [StreamSender.sendAll]
  have hfst := encode_fst nocrc s f
  cases henc : s.encode nocrc f with
  | mk s' res =>
    rw [henc] at hfst
    obtain rfl := hfst
    cases res with
    | ok bytes => exact absurd ((encode_eq_ok hn).mp ⟨bytes, by rw [henc]⟩) hf
    | error e => rfl

/-- A call that succeeds sends its frame first. -/
theorem sendAll_of_encode {bytes : List UInt8} (henc : (s.encode nocrc f).2 = .ok bytes) :
    s.sendAll nocrc (f :: fs) = (f.withSeq s.nextSeq, bytes) ::
      ({ s with nextSeq := s.nextSeq + 1 } : StreamSender).sendAll nocrc fs := by
  have hpair : s.encode nocrc f = ({ s with nextSeq := s.nextSeq + 1 }, .ok bytes) :=
    Prod.ext (encode_fst nocrc s f) henc
  rw [StreamSender.sendAll, hpair]

/-- A sender that has lost `lost` numbers: what it sends is accepted exactly if every frame carries
its flags and the numbers lost before it add up to none. -/
theorem accepts_iff (hn : s.naive = .none) (hr : r.naive = .none) {lost : ℕ}
    (hlost : s.nextSeq = r.expected + UInt64.ofNat lost) :
    Accepts nocrc s r fs ↔
      ∀ i f, fs[i]? = some f → f.Encodable → f.Flagged ∧ 2 ^ 64 ∣ lost + refused (fs.take i) := by
  induction fs generalizing s r lost with
  | nil => simp [Accepts, StreamSender.sendAll, StreamReceiver.acceptAll]
  | cons f fs ih =>
    rw [forall_cons_iff]
    by_cases hf : f.Encodable
    · obtain ⟨bytes, henc⟩ := (@encode_eq_ok nocrc s f hn).mpr hf
      have hseq : s.nextSeq = r.expected ↔ 2 ^ 64 ∣ lost := by
        rw [hlost, UInt64.add_eq_left, ← UInt64.toNat_inj, UInt64.toNat_ofNat',
          Nat.dvd_iff_mod_eq_zero]
        rfl
      have hrefused (i : ℕ) : refused ((f :: fs).take (i + 1)) = refused (fs.take i) := by
        simp [refused, hf]
      have hhead := accept_of_encode hn hr henc
      have hnext : s.nextSeq + 1 = r.expected + 1 + UInt64.ofNat lost := by
        rw [hlost]
        ac_rfl
      have hrest := ih (s := { s with nextSeq := s.nextSeq + 1 })
        (r := { r with expected := r.expected + 1 }) hn hr hnext
      rw [Accepts, sendAll_of_encode henc, List.map_cons, List.map_cons, StreamReceiver.acceptAll]
      simp only [List.cons.injEq, hrefused]
      rw [hhead, hseq, ← hrest]
      constructor
      · rintro ⟨⟨hflags, hdvd⟩, hsent⟩
        rw [accept_fst hn hr henc hflags (hseq.mpr hdvd)] at hsent
        exact ⟨fun _ => ⟨hflags, hdvd⟩, hsent⟩
      · rintro ⟨hzero, hsent⟩
        obtain ⟨hflags, hdvd⟩ := hzero hf
        rw [accept_fst hn hr henc hflags (hseq.mpr hdvd)]
        exact ⟨⟨hflags, hdvd⟩, hsent⟩
    · have hrefused (i : ℕ) : lost + refused ((f :: fs).take (i + 1)) =
          lost + 1 + refused (fs.take i) := by
        simp [refused, hf]
        omega
      have hnext : s.nextSeq + 1 = r.expected + UInt64.ofNat (lost + 1) := by
        rw [hlost, UInt64.ofNat_add]
        exact UInt64.add_assoc _ _ _
      rw [Accepts, sendAll_of_not hn hf]
      simp only [hrefused]
      rw [← ih (s := { s with nextSeq := s.nextSeq + 1 }) hn hr hnext]
      exact ⟨fun hrest => ⟨fun henc => absurd henc hf, hrest⟩, And.right⟩

/-- **Delivery in order.** For any sequence of calls, everything the successful ones return is
accepted exactly if no number is lost before one of them and the returns carry their flags. -/
theorem allAccepted_iff (nocrc : Bool) (fs : List Frame) :
    AllAccepted nocrc fs ↔ Gapless fs ∧ ∀ f ∈ fs, f.Encodable → f.Flagged := by
  rw [AllAccepted, @accepts_iff nocrc _ _ fs rfl rfl 0 rfl]
  simp only [Nat.zero_add]
  constructor
  · intro h
    refine ⟨fun i f hf henc => (h i f hf henc).2, fun f hf henc => ?_⟩
    obtain ⟨i, hi⟩ := List.mem_iff_getElem?.mp hf
    exact (h i f hi henc).1
  · rintro ⟨hgap, hflags⟩ i f hf henc
    exact ⟨hflags f (List.mem_of_getElem? hf) henc, hgap i f hf henc⟩

/-- **A lost number.** A return without rows is refused, and the next one, of rank 0 and in order, is
not accepted. -/
theorem not_allAccepted_emptyReturn :
    let empty : ReturnFrame := { rankZeroAnswer 0 with rows := [] }
    let fs : List Frame := [.return empty, .return (rankZeroAnswer 1)]
    (∀ f ∈ fs, f.Flagged) ∧ (∃ sent, (StreamSender.new .none).sendAll false fs = [sent]) ∧
      ¬ AllAccepted false fs := by
  intro empty fs
  have hgood := sendable_rankZeroAnswer 1
  have hempty : ¬ (Frame.return empty).Encodable := fun henc => ReturnFrame.Encodable.rows_ne henc rfl
  refine ⟨?_, ?_, fun hall => ?_⟩
  · intro f hf
    rcases List.mem_cons.mp hf with rfl | hf
    · exact hgood.2
    · obtain rfl := List.mem_singleton.mp hf
      exact hgood.2
  · obtain ⟨bytes, -, hsend⟩ := sendAll_cons false (s := ⟨.none, 1⟩) rfl hgood []
    exact ⟨_, (sendAll_of_not (s := .new .none) rfl hempty).trans hsend⟩
  · have hgap := ((allAccepted_iff false fs).mp hall).1 1 _ rfl hgood.1
    exact absurd hgap (by decide)

end Wire

end Mimo26

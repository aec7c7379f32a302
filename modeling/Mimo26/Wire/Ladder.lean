import Mimo26.Wire.SumInvariant

/-!
# The ladder end to end

Frames stamped by one sender, a channel that reorders, duplicates, loses and corrupts, and the
receiving side: decode, sequence check, sum. What the receiver accepts is a prefix of what was sent,
and when all summed frames answer one request and layer, a complete sum is the rank-ordered sum of
partials that were sent.

The sum counts rows and does not know whose they are: four answers of one rank under four request
ids complete the sum of one token.

## Main definitions

* `StreamSender.sendAll` — the frames a sender puts on the channel, with their bytes
* `Channel` — what the channel may deliver
* `Pipeline`, `Pipeline.run` — the receiving side over a run
* `LadderSound` — what the ladder promises for a list of frames

## Main results

* `Pipeline.Tracks.step`, `Pipeline.tracks_run` — the accepted frames stay a prefix of the sent ones
* `ladderSound_of_sameIds` — the promise holds when the frames answer one request and layer
* `not_ladderSound_mixedRequests` — it fails when they do not
-/

namespace Mimo26

namespace Wire

open Result CoordinatorSum

/-! ### The sending side -/

def Frame.withSeq (seq : UInt64) : Frame → Frame
  | .request f => .request { f with seq := seq }
  | .return f => .return { f with seq := seq }

@[simp] theorem Frame.seq_withSeq (seq : UInt64) (f : Frame) : (f.withSeq seq).seq = seq := by
  cases f <;> rfl

namespace StreamSender

/-- Encode a frame of either kind. -/
def encode (s : StreamSender) (nocrc : Bool) : Frame → StreamSender × Except WireError (List UInt8)
  | .request f => s.encodeRequest nocrc f
  | .return f => s.encodeReturn nocrc f

/-- The frames put on the channel, as stamped, with their bytes; a frame the encoder refuses is not
sent. -/
def sendAll (nocrc : Bool) : StreamSender → List Frame → List (Frame × List UInt8)
  | _, [] => []
  | s, f :: fs =>
    match s.encode nocrc f with
    | (s', .ok bytes) => (f.withSeq s.nextSeq, bytes) :: s'.sendAll nocrc fs
    | (s', .error _) => s'.sendAll nocrc fs

end StreamSender

/-- What the channel may deliver: bytes that were sent, or bytes the decoder rejects. -/
def Channel (nocrc : Bool) (sent : List (Frame × List UInt8)) (item : List UInt8) : Prop :=
  (∃ f, (f, item) ∈ sent) ∨ ∃ e, decodeFrame item .none nocrc = .error e

/-! ### The receiving side -/

variable {F : Type} [Fp32 F]

/-- A receiver, the frames it has accepted and the sum they feed. -/
structure Pipeline (F : Type) where
  receiver : StreamReceiver
  accepted : List Frame
  sum : CoordinatorSum F

namespace Pipeline

def start (rows hidden : ℕ) : Pipeline F := ⟨.new .none, [], .new rows hidden .none⟩

/-- A return frame goes into the sum, a request does not. -/
def absorb (sum : CoordinatorSum F) : Frame → CoordinatorSum F
  | .return f => (sum.accumulate f).1
  | .request _ => sum

/-- One delivered item. -/
def step (nocrc : Bool) (p : Pipeline F) (item : List UInt8) : Pipeline F :=
  match p.receiver.accept nocrc item with
  | (receiver, .error _) => { p with receiver := receiver }
  | (receiver, .ok f) =>
    { receiver := receiver, accepted := p.accepted ++ [f], sum := absorb p.sum f }

def run (nocrc : Bool) (p : Pipeline F) (items : List (List UInt8)) : Pipeline F :=
  items.foldl (step nocrc) p

end Pipeline

/-- A frame of `sent` carries `codes` as the partial of `rank` for `token`. -/
def SentPartial (sent : List Frame) (rank token : ℕ) (codes : List UInt16) : Prop :=
  ∃ f, .return f ∈ sent ∧ ((rank, token), codes) ∈ f.addressed

/-- The promise of the ladder for the frames `fs` handed to one sender: whatever the channel
delivers, the accepted frames are a prefix of the sent ones with none twice, and a complete sum is
the rank-ordered sum of sent partials. -/
def LadderSound (fs : List Frame) : Prop :=
  ∀ (F : Type) [Fp32 F] (nocrc : Bool) (rows hidden : ℕ) (items : List (List UInt8)),
    let sent := (StreamSender.new .none).sendAll nocrc fs
    let p : Pipeline F := (Pipeline.start rows hidden).run nocrc items
    (∀ item ∈ items, Channel nocrc sent item) →
      p.accepted <+: sent.map Prod.fst ∧ p.accepted.Nodup ∧
        (p.sum.isComplete = true → ∃ partialOf : ℕ → ℕ → List UInt16,
          (∀ rank < sparks, ∀ token < rows,
            SentPartial (sent.map Prod.fst) rank token (partialOf rank token)) ∧
          p.sum.result = .ok (rankOrderSum rows hidden partialOf))

/-! ### Sent frames -/

variable {nocrc : Bool}

/-- A return frame without the required flags does not decode. -/
theorem decodeFrame_encodeReturnSeq_of_not {f : ReturnFrame} {seq : UInt64} {bytes : List UInt8}
    (henc : encodeReturnSeq f seq .none nocrc = .ok bytes)
    (hflags : ¬ (f.status ≠ .ok ∨ f.flags &&& flagReturnRequired = flagReturnRequired)) :
    decodeFrame bytes .none nocrc = .error (.unpresummedReturn f.flags) := by
  obtain ⟨hf, rfl⟩ := encodeReturnSeq_eq_ok.mp henc
  have hwire : (returnHeader f seq).wireBytes.toNat = headerLen + (returnBody f).length := by
    rw [hf.length_body]
    exact toNat_ofNat_of_le hf.wireBytes_lt
  rw [decodeFrame_sealed_return rfl hwire, decodeReturn]
  simp only [returnHeader_status, returnHeader_flags]
  rw [ensure, if_neg (by simpa using hflags)]
  rfl

/-- The bytes of a sent frame decode to it or not at all. -/
theorem decodeFrame_of_encode {s : StreamSender} (hn : s.naive = .none) {f g : Frame}
    {bytes : List UInt8} (henc : (s.encode nocrc f).2 = .ok bytes)
    (hdec : decodeFrame bytes .none nocrc = .ok g) : g = f.withSeq s.nextSeq := by
  cases f with
  | request f =>
    rw [StreamSender.encode, StreamSender.encodeRequest, hn] at henc
    rw [decodeFrame_encodeRequestSeq henc] at hdec
    exact (Except.ok.inj hdec).symm
  | «return» f =>
    rw [StreamSender.encode, StreamSender.encodeReturn, hn] at henc
    by_cases hflags : f.status ≠ .ok ∨ f.flags &&& flagReturnRequired = flagReturnRequired
    · rw [decodeFrame_encodeReturnSeq henc hflags] at hdec
      exact (Except.ok.inj hdec).symm
    · rw [decodeFrame_encodeReturnSeq_of_not henc hflags] at hdec
      exact absurd hdec (by simp)

theorem encode_fst (nocrc : Bool) (s : StreamSender) (f : Frame) :
    (s.encode nocrc f).1 = { s with nextSeq := s.nextSeq + 1 } := by
  cases f <;> rfl

/-- What is known of every frame a sender puts on the channel. -/
structure Stamped (nocrc : Bool) (fs : List Frame) (next : ℕ) (x : Frame × List UInt8) : Prop where
  le : next ≤ x.1.seq.toNat
  lt : x.1.seq.toNat < next + fs.length
  mem : ∃ f ∈ fs, ∃ seq, x.1 = f.withSeq seq
  decode : ∀ g, decodeFrame x.2 .none nocrc = .ok g → g = x.1

theorem sendAll_spec (nocrc : Bool) {s : StreamSender} (hn : s.naive = .none) (fs : List Frame)
    (hlen : s.nextSeq.toNat + fs.length < 2 ^ 64) :
    (∀ x ∈ s.sendAll nocrc fs, Stamped nocrc fs s.nextSeq.toNat x) ∧
      (s.sendAll nocrc fs).Pairwise fun x y => x.1.seq < y.1.seq := by
  induction fs generalizing s with
  | nil => exact ⟨by simp [StreamSender.sendAll], List.Pairwise.nil⟩
  | cons f fs ih =>
    rw [List.length_cons] at hlen
    have hfst := encode_fst nocrc s f
    have hnext : (s.nextSeq + 1).toNat = s.nextSeq.toNat + 1 := by
      rw [UInt64.toNat_add, UInt64.toNat_one, Nat.mod_eq_of_lt (by omega)]
    obtain ⟨hspec, hpair⟩ := ih (s := { s with nextSeq := s.nextSeq + 1 }) hn
      (by show (s.nextSeq + 1).toNat + _ < _; omega)
    have hweak : ∀ x ∈ ({ s with nextSeq := s.nextSeq + 1 } : StreamSender).sendAll nocrc fs,
        Stamped nocrc (f :: fs) s.nextSeq.toNat x ∧ s.nextSeq < x.1.seq := by
      intro x hx
      obtain ⟨hle, hlt, ⟨g, hg, seq, hgx⟩, hdec⟩ := hspec x hx
      have hle' : s.nextSeq.toNat + 1 ≤ x.1.seq.toNat := hnext ▸ hle
      have hlt' : x.1.seq.toNat < s.nextSeq.toNat + 1 + fs.length := hnext ▸ hlt
      exact ⟨⟨by omega, by rw [List.length_cons]; omega, ⟨g, List.mem_cons_of_mem f hg, seq, hgx⟩,
        hdec⟩,
        UInt64.lt_iff_toNat_lt.mpr (by omega)⟩
    rw [StreamSender.sendAll]
    cases henc : s.encode nocrc f with
    | mk s' res =>
      rw [henc] at hfst
      obtain rfl : s' = { s with nextSeq := s.nextSeq + 1 } := hfst
      cases res with
      | error e => exact ⟨fun x hx => (hweak x hx).1, hpair⟩
      | ok bytes =>
        refine ⟨fun x hx => ?_, List.pairwise_cons.mpr ⟨fun x hx => ?_, hpair⟩⟩
        · rcases List.mem_cons.mp hx with rfl | hx
          · refine ⟨by simp, by simp, ⟨f, List.mem_cons_self, s.nextSeq, rfl⟩, fun g hg => ?_⟩
            exact decodeFrame_of_encode hn (by rw [henc]) hg
          · exact (hweak x hx).1
        · rw [Frame.seq_withSeq]
          exact (hweak x hx).2

/-! ### The receiving side keeps a prefix -/

def Frame.asReturn : Frame → Option ReturnFrame
  | .return f => some f
  | .request _ => none

theorem acceptSeq_of_eq {s : StreamReceiver} (hn : s.naive = .none) :
    s.acceptSeq s.expected = ({ s with expected := s.expected + 1 }, .ok ()) := by
  simp [StreamReceiver.acceptSeq, hn]

theorem acceptSeq_of_ne {s : StreamReceiver} (hn : s.naive = .none) {seq : UInt64}
    (hne : seq ≠ s.expected) : ∃ e, s.acceptSeq seq = (s, .error e) := by
  rw [StreamReceiver.acceptSeq, hn, WireNaive.has_none, if_neg (by decide), if_neg hne]
  split
  · exact ⟨_, rfl⟩
  · exact ⟨_, rfl⟩

namespace Pipeline

/-- An item that decodes to the expected frame is accepted. -/
theorem step_of_expected {p : Pipeline F} (hn : p.receiver.naive = .none) {item : List UInt8}
    {f : Frame} (hdec : decodeFrame item .none nocrc = .ok f) (hseq : f.seq = p.receiver.expected) :
    p.step nocrc item =
      { receiver := { p.receiver with expected := p.receiver.expected + 1 }
        accepted := p.accepted ++ [f]
        sum := absorb p.sum f } := by
  rw [step, StreamReceiver.accept, hn, hdec]
  dsimp only
  rw [hseq, acceptSeq_of_eq hn]

/-- Any other item leaves the receiving side as it is. -/
theorem step_of_other {p : Pipeline F} (hn : p.receiver.naive = .none) {item : List UInt8}
    (h : ∀ f, decodeFrame item .none nocrc = .ok f → f.seq ≠ p.receiver.expected) :
    p.step nocrc item = p := by
  rw [step, StreamReceiver.accept, hn]
  cases hdec : decodeFrame item .none nocrc with
  | error e => rfl
  | ok f =>
    obtain ⟨e, he⟩ := acceptSeq_of_ne hn (h f hdec)
    dsimp only
    rw [he]

/-- The receiving side has accepted a prefix of `sent`, everything below `expected`, and the sum has
been fed the returns among it. -/
structure Tracks (rows hidden : ℕ) (sent : List Frame) (p : Pipeline F) : Prop where
  naive : p.receiver.naive = .none
  split : ∃ rest, sent = p.accepted ++ rest ∧ ∀ f ∈ rest, p.receiver.expected ≤ f.seq
  below : ∀ f ∈ p.accepted, f.seq < p.receiver.expected
  sum : p.sum = (CoordinatorSum.new rows hidden .none).feed (p.accepted.filterMap Frame.asReturn)

variable {rows hidden : ℕ} {sent : List Frame}

theorem tracks_start (sent : List Frame) : Tracks rows hidden sent (start rows hidden : Pipeline F)
    where
  naive := rfl
  split := ⟨sent, rfl, fun f _ => UInt64.zero_le⟩
  below := by simp [start]
  sum := rfl

theorem absorb_eq (sum : CoordinatorSum F) (f : Frame) :
    absorb sum f = sum.feed ([f].filterMap Frame.asReturn) := by
  cases f <;> rfl

/-- **Step.** Whatever the channel delivers, the accepted frames stay a prefix of the sent ones. -/
theorem Tracks.step {p : Pipeline F} (h : p.Tracks rows hidden sent)
    (hsorted : sent.Pairwise fun f g => f.seq < g.seq)
    (hlt : ∀ f ∈ sent, f.seq.toNat + 1 < 2 ^ 64) {item : List UInt8}
    (hitem : ∀ f, decodeFrame item .none nocrc = .ok f → f ∈ sent) :
    (p.step nocrc item).Tracks rows hidden sent := by
  by_cases hexp : ∃ f, decodeFrame item .none nocrc = .ok f ∧ f.seq = p.receiver.expected
  · obtain ⟨f, hdec, hseq⟩ := hexp
    have hf := hitem f hdec
    have hnext : (p.receiver.expected + 1).toNat = p.receiver.expected.toNat + 1 := by
      have hbound := hlt f hf
      rw [hseq] at hbound
      rw [UInt64.toNat_add, UInt64.toNat_one, Nat.mod_eq_of_lt hbound]
    have hstep : p.receiver.expected < p.receiver.expected + 1 :=
      UInt64.lt_iff_toNat_lt.mpr (by omega)
    obtain ⟨rest, hsplit, hrest⟩ := h.split
    have hfrest : f ∈ rest := by
      rw [hsplit] at hf
      rcases List.mem_append.mp hf with hacc | hmem
      · exact absurd (h.below f hacc) (by rw [hseq]; exact UInt64.lt_irrefl _)
      · exact hmem
    rw [step_of_expected h.naive hdec hseq]
    cases rest with
    | nil => exact absurd hfrest List.not_mem_nil
    | cons g rest =>
      -- the expected frame is the first that is left, since the stamps increase
      have hrestSorted := (List.pairwise_append.mp (hsplit ▸ hsorted)).2.1
      have hgrest := (List.pairwise_cons.mp hrestSorted).1
      obtain rfl : f = g := by
        rcases List.mem_cons.mp hfrest with rfl | hmem
        · rfl
        · have hge := hrest g List.mem_cons_self
          have hgt := hgrest f hmem
          rw [hseq] at hgt
          exact absurd hgt (UInt64.not_lt.mpr hge)
      refine
        { naive := h.naive
          split := ⟨rest, by simp [hsplit], fun x hx => ?_⟩
          below := fun x hx => ?_
          sum := ?_ }
      · have hgt := UInt64.lt_iff_toNat_lt.mp (hgrest x hx)
        rw [hseq] at hgt
        exact UInt64.le_iff_toNat_le.mpr (by show (p.receiver.expected + 1).toNat ≤ _; omega)
      · rcases List.mem_append.mp hx with hx | hx
        · exact UInt64.lt_trans (h.below x hx) hstep
        · rw [List.mem_singleton.mp hx, hseq]
          exact hstep
      · show absorb p.sum f = _
        rw [absorb_eq, h.sum, List.filterMap_append, feed_append]
  · rw [step_of_other h.naive fun f hdec hseq => hexp ⟨f, hdec, hseq⟩]
    exact h

/-- **Run.** -/
theorem tracks_run {p : Pipeline F} (h : p.Tracks rows hidden sent)
    (hsorted : sent.Pairwise fun f g => f.seq < g.seq)
    (hlt : ∀ f ∈ sent, f.seq.toNat + 1 < 2 ^ 64) {items : List (List UInt8)}
    (hitems : ∀ item ∈ items, ∀ f, decodeFrame item .none nocrc = .ok f → f ∈ sent) :
    (p.run nocrc items).Tracks rows hidden sent := by
  induction items generalizing p with
  | nil => exact h
  | cons item items ih =>
    exact ih (h.step hsorted hlt (hitems item List.mem_cons_self))
      fun i hi => hitems i (List.mem_cons_of_mem item hi)

end Pipeline

/-! ### The promise -/

/-- The partial each slot holds, read from a log. -/
def partialAt (log : List Partial) (rank token : ℕ) : List UInt16 :=
  ((log.filter (·.key.slot = (rank, token))).map (·.codes)).headD []

theorem partialAt_of_mem {log : List Partial} (hn : (log.map (·.key.slot)).Nodup) {p : Partial}
    (hp : p ∈ log) : partialAt log p.key.slot.1 p.key.slot.2 = p.codes := by
  have hfilter : log.filter (fun q => q.key.slot = (p.key.slot.1, p.key.slot.2)) = [p] :=
    Grid.filter_eq_singleton (f := fun q : Partial => q.key.slot) hn hp
  rw [partialAt, hfilter]
  rfl

/-- **Ladder.** Fewer than `2 ^ 64` frames, whose `Ok` returns answer one request and layer. -/
theorem ladderSound_of_sameIds {fs : List Frame} {requestId : UInt64} {layerId : UInt32}
    (hlen : fs.length < 2 ^ 64)
    (hids : ∀ f, .return f ∈ fs → f.status = .ok →
      f.requestId = requestId ∧ f.layerId = layerId) : LadderSound fs := by
  intro F _ nocrc rows hidden items sent p hitems
  have hzero : (StreamSender.new .none).nextSeq.toNat = 0 := rfl
  obtain ⟨hspec, hpair⟩ := sendAll_spec nocrc (s := .new .none) rfl fs
    (by rw [hzero]; omega)
  have hsorted : (sent.map Prod.fst).Pairwise fun f g => f.seq < g.seq :=
    List.pairwise_map.mpr hpair
  have htracks : p.Tracks rows hidden (sent.map Prod.fst) := by
    refine Pipeline.tracks_run (Pipeline.tracks_start _) hsorted ?_ ?_
    · intro f hf
      obtain ⟨x, hx, rfl⟩ := List.mem_map.mp hf
      have hstamp := (hspec x hx).lt
      omega
    · intro item hitem f hdec
      rcases hitems item hitem with ⟨g, hg⟩ | ⟨e, he⟩
      · rw [(hspec _ hg).decode f hdec]
        exact List.mem_map_of_mem hg
      · rw [he] at hdec
        exact absurd hdec (by simp)
  obtain ⟨rest, hsplit, -⟩ := htracks.split
  have haccepted : p.accepted <+: sent.map Prod.fst := ⟨rest, hsplit.symm⟩
  have hsentIds {f : ReturnFrame} (hf : .return f ∈ sent.map Prod.fst) (hok : f.status = .ok) :
      f.requestId = requestId ∧ f.layerId = layerId := by
    obtain ⟨x, hx, hxf⟩ := List.mem_map.mp hf
    obtain ⟨g, hg, seq, hgx⟩ := (hspec x hx).mem
    rw [hxf] at hgx
    cases g with
    | request g => exact absurd hgx (by simp [Frame.withSeq])
    | «return» g =>
      obtain rfl := Frame.return.inj hgx
      exact hids g hg hok
  refine ⟨haccepted, ?_, fun hc => ?_⟩
  · exact (hsorted.sublist haccepted.sublist).imp fun {f g} (hlt : f.seq < g.seq) (heq : f = g) =>
      UInt64.lt_irrefl g.seq (by rwa [heq] at hlt)
  · obtain ⟨log, hmem, hext⟩ := (holds_new (F := F) rows hidden).feed
      (p.accepted.filterMap Frame.asReturn)
    rw [← htracks.sum] at hext
    have hholds : p.sum.Holds log := hext.holds
    have hrow (q : Partial) (hq : q ∈ log) : ∃ f, .return f ∈ sent.map Prod.fst ∧ RowOf f q := by
      obtain ⟨f, hf, hfq⟩ := hmem q hq
      obtain ⟨g, hg, hgf⟩ := List.mem_filterMap.mp hf
      cases g with
      | request g => exact absurd hgf (by simp [Frame.asReturn])
      | «return» g =>
        obtain rfl := Option.some.inj hgf
        exact ⟨g, haccepted.subset hg, hfq⟩
    have hsame : SameIds log requestId layerId := by
      intro q hq
      obtain ⟨f, hf, hfq⟩ := hrow q hq
      obtain ⟨hr, hl, -⟩ := ReturnFrame.mem_partialsFrom hfq.key
      obtain ⟨hr', hl'⟩ := hsentIds hf hfq.status
      exact ⟨hr.trans hr', hl.trans hl'⟩
    have hperm := hholds.perm_of_isComplete hsame hc
    have hn := hholds.nodup_slots hsame
    refine ⟨partialAt log, fun rank hrank token htoken => ?_, ?_⟩
    · have hslot : (rank, token) ∈ log.map (·.key.slot) := by
        refine hperm.mem_iff.mpr (Grid.mem_slots.mpr ⟨hrank, ?_⟩)
        rw [hext.rows]
        exact htoken
      obtain ⟨q, hq, hqslot⟩ := List.mem_map.mp hslot
      obtain ⟨f, hf, hfq⟩ := hrow q hq
      have hat := partialAt_of_mem hn hq
      rw [hqslot] at hat
      rw [hat]
      exact ⟨f, hf, hqslot ▸ hfq.slot⟩
    · have hres := hholds.result_of_perm hperm (partialAt log)
        fun q hq => (partialAt_of_mem hn hq).symm
      rw [hext.rows, hext.hidden] at hres
      exact hres

/-! ### A lossless channel, and mixed requests -/

/-- The frames that are sent and decode. -/
def Frame.Sendable : Frame → Prop
  | .request f => f.Encodable
  | .return f => f.Encodable ∧
      (f.status ≠ .ok ∨ f.flags &&& flagReturnRequired = flagReturnRequired)

theorem encode_of_sendable (nocrc : Bool) {s : StreamSender} (hn : s.naive = .none) {f : Frame}
    (hf : f.Sendable) : ∃ bytes, (s.encode nocrc f).2 = .ok bytes ∧
      decodeFrame bytes .none nocrc = .ok (f.withSeq s.nextSeq) := by
  cases f with
  | request f =>
    have henc : encodeRequestSeq f s.nextSeq .none nocrc = _ :=
      encodeRequestSeq_eq_ok.mpr ⟨hf, rfl⟩
    refine ⟨_, ?_, decodeFrame_encodeRequestSeq henc⟩
    rw [StreamSender.encode, StreamSender.encodeRequest, hn, henc]
  | «return» f =>
    obtain ⟨hf, hflags⟩ := hf
    have henc : encodeReturnSeq f s.nextSeq .none nocrc = _ :=
      encodeReturnSeq_eq_ok.mpr ⟨hf, rfl⟩
    refine ⟨_, ?_, decodeFrame_encodeReturnSeq henc hflags⟩
    rw [StreamSender.encode, StreamSender.encodeReturn, hn, henc]

theorem sendAll_cons (nocrc : Bool) {s : StreamSender} (hn : s.naive = .none) {f : Frame}
    (hf : f.Sendable)
    (fs : List Frame) : ∃ bytes,
      decodeFrame bytes .none nocrc = .ok (f.withSeq s.nextSeq) ∧
      s.sendAll nocrc (f :: fs) = (f.withSeq s.nextSeq, bytes) ::
        ({ s with nextSeq := s.nextSeq + 1 } : StreamSender).sendAll nocrc fs := by
  obtain ⟨bytes, henc, hdec⟩ := encode_of_sendable nocrc hn hf
  refine ⟨bytes, hdec, ?_⟩
  have hpair : s.encode nocrc f = ({ s with nextSeq := s.nextSeq + 1 }, .ok bytes) :=
    Prod.ext (encode_fst nocrc s f) henc
  rw [StreamSender.sendAll, hpair]

/-- Frames under consecutive sequence numbers. -/
def stampFrom : UInt64 → List Frame → List Frame
  | _, [] => []
  | n, f :: fs => f.withSeq n :: stampFrom (n + 1) fs

theorem map_fst_sendAll (nocrc : Bool) {s : StreamSender} (hn : s.naive = .none) {fs : List Frame}
    (hfs : ∀ f ∈ fs, f.Sendable) : (s.sendAll nocrc fs).map Prod.fst = stampFrom s.nextSeq fs := by
  induction fs generalizing s with
  | nil => rfl
  | cons f fs ih =>
    obtain ⟨bytes, -, hcons⟩ := sendAll_cons nocrc hn (hfs f List.mem_cons_self) fs
    rw [hcons, List.map_cons, ih (s := { s with nextSeq := s.nextSeq + 1 }) hn
      fun g hg => hfs g (List.mem_cons_of_mem f hg)]
    rfl

/-- A channel that delivers everything in order has everything accepted. -/
theorem run_sendAll (nocrc : Bool) {s : StreamSender} {p : Pipeline F} (hs : s.naive = .none)
    (hp : p.receiver.naive = .none) (hseq : p.receiver.expected = s.nextSeq) {fs : List Frame}
    (hfs : ∀ f ∈ fs, f.Sendable) :
    (p.run nocrc ((s.sendAll nocrc fs).map Prod.snd)).sum
      = p.sum.feed (((s.sendAll nocrc fs).map Prod.fst).filterMap Frame.asReturn) := by
  induction fs generalizing s p with
  | nil => rfl
  | cons f fs ih =>
    obtain ⟨bytes, hdec, hcons⟩ := sendAll_cons nocrc hs (hfs f List.mem_cons_self) fs
    have hstep := Pipeline.step_of_expected (p := p) hp hdec (by rw [Frame.seq_withSeq, hseq])
    have hrest := ih (s := { s with nextSeq := s.nextSeq + 1 }) (p := p.step nocrc bytes) hs
      (by rw [hstep]; exact hp) (by rw [hstep, ← hseq])
      fun g hg => hfs g (List.mem_cons_of_mem f hg)
    have hsum : (p.step nocrc bytes).sum = p.sum.feed ([f.withSeq s.nextSeq].filterMap
        Frame.asReturn) := by
      rw [hstep]
      exact Pipeline.absorb_eq p.sum _
    rw [hcons, List.map_cons, List.map_cons, Pipeline.run, List.foldl_cons, ← Pipeline.run, hrest,
      hsum, ← feed_append, ← List.filterMap_append, List.singleton_append]

/-- Rank 0's answer to request `requestId` for token 0 of layer 0. -/
def rankZeroAnswer (requestId : UInt64) : ReturnFrame where
  requestId := requestId
  placementVersion := 1
  layerId := 0
  executorId := 0
  tokenPosition := 0
  status := .ok
  flags := flagReturnRequired
  routeCount := 8
  seq := 0
  rows := [⟨List.replicate hiddenDim 0⟩]

/-- The four ranks' answers to one request keep the promise. -/
theorem ladderSound_oneRequest : LadderSound
    [.return { rankZeroAnswer 0 with executorId := 0 },
      .return { rankZeroAnswer 0 with executorId := 1 },
      .return { rankZeroAnswer 0 with executorId := 2 },
      .return { rankZeroAnswer 0 with executorId := 3 }] := by
  refine @ladderSound_of_sameIds _ 0 0 (by decide) ?_
  intro f hf _
  simp only [List.mem_cons, Frame.return.injEq, List.not_mem_nil, or_false] at hf
  rcases hf with rfl | rfl | rfl | rfl <;> exact ⟨rfl, rfl⟩

/-- Four answers of rank 0, to four requests. -/
def mixedRequests : List Frame :=
  [.return (rankZeroAnswer 0), .return (rankZeroAnswer 1), .return (rankZeroAnswer 2),
    .return (rankZeroAnswer 3)]

theorem sendable_rankZeroAnswer (requestId : UInt64) :
    (Frame.return (rankZeroAnswer requestId)).Sendable := by
  have hflags : flagReturnRequired &&& flagReturnRequired = flagReturnRequired := by decide
  refine ⟨⟨by simp [rankZeroAnswer], by simp [rankZeroAnswer], ?_, by simp [rankZeroAnswer],
    by simp [rankZeroAnswer]⟩, Or.inr hflags⟩
  intro row hrow
  rw [List.mem_singleton.mp hrow, List.length_replicate]

/-- Feeding the four answers of rank 0 completes the sum of one token. -/
theorem isComplete_mixedRequests :
    ((CoordinatorSum.new 1 hiddenDim .none : CoordinatorSum F).feed
      ((stampFrom 0 mixedRequests).filterMap Frame.asReturn)).isComplete = true := by
  have hext := @Holds.feed_all F _ _ _ (holds_new 1 hiddenDim)
    ((stampFrom 0 mixedRequests).filterMap Frame.asReturn)
    (show 1 ≤ usizeMax by decide)
    (by simp [stampFrom, mixedRequests, Frame.withSeq, Frame.asReturn, rankZeroAnswer])
    (by
        simp [stampFrom, mixedRequests, Frame.withSeq, Frame.asReturn, rankZeroAnswer,
          ReturnFrame.addressed, ReturnFrame.addressedFrom, Grid.mem_slots, CoordinatorSum.new,
            sparks]
        rintro _ _ _ rfl rfl rfl
        simp)
    (by simp [stampFrom, mixedRequests, Frame.withSeq, Frame.asReturn, rankZeroAnswer,
      ReturnFrame.partials, ReturnFrame.partialsFrom, ReturnFrame.key])
  rw [isComplete, hext.holds.distinct, hext.rows]
  rfl

/-- **Mixed requests break the ladder.** Sent in order over a channel that loses nothing, the four
answers of rank 0 complete the sum of one token, to which ranks 1 to 3 contributed nothing. -/
theorem not_ladderSound_mixedRequests : ¬ LadderSound mixedRequests := by
  intro hsound
  have hsend : ∀ f ∈ mixedRequests, f.Sendable := by
    intro f hf
    simp only [mixedRequests, List.mem_cons, List.not_mem_nil, or_false] at hf
    rcases hf with rfl | rfl | rfl | rfl <;> exact sendable_rankZeroAnswer _
  have hsent := map_fst_sendAll false (s := .new .none) rfl hsend
  have hsum := run_sendAll false (p := (Pipeline.start 1 hiddenDim : Pipeline FloatTerm))
    (s := .new .none) rfl rfl rfl hsend
  rw [hsent] at hsum
  have hchannel : ∀ item ∈ ((StreamSender.new .none).sendAll false mixedRequests).map Prod.snd,
      Channel false ((StreamSender.new .none).sendAll false mixedRequests) item := by
    intro item hitem
    obtain ⟨x, hx, rfl⟩ := List.mem_map.mp hitem
    exact Or.inl ⟨x.1, hx⟩
  obtain ⟨-, -, hcomplete⟩ := hsound FloatTerm false 1 hiddenDim _ hchannel
  obtain ⟨partialOf, hsent1, -⟩ := hcomplete (by rw [hsum]; exact isComplete_mixedRequests)
  -- no frame was sent by rank 1
  obtain ⟨f, hf, hmem⟩ := hsent1 1 (by decide) 0 (by decide)
  rw [hsent] at hf
  simp only [stampFrom, mixedRequests, Frame.withSeq, List.mem_cons, Frame.return.injEq,
    List.not_mem_nil, or_false] at hf
  rcases hf with rfl | rfl | rfl | rfl <;>
    simp [ReturnFrame.addressed, ReturnFrame.addressedFrom, rankZeroAnswer] at hmem

end Wire

end Mimo26

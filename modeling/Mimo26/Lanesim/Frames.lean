import Mathlib.Data.List.Perm.Basic
import Mimo26.Lanesim.Sim

/-!
# The frames of a ticket

What `submit` puts into the queue for a ticket, what is known of a ticket that is open, and what the
sum over its frames is.

## Main definitions

* `Submission`, `framesOf` — what a ticket was issued for, and its frames
* `Open` — each of an open ticket's frames has arrived, is lost or is still to be delivered
* `rankSum` — the sum of the ranks' partials for a row

## Main results

* `sends_submit` — the loop of `submit` sends the frames of the submission
* `Open.take`, `Open.complete` — a delivery; a ticket all of whose keys have arrived
* `foldl_addFrame_framesOf` — the sum over the frames is the ranks' sum for every row
-/

namespace Mimo26

namespace Lanesim

variable {F W : Type}

/-! ### The frames of a ticket -/

structure Submission (F W : Type) where
  layer : ℕ
  rows : List (RequestRow F W)

/-- The frames that a rank returns, numbered from `base`. -/
def rankFrames (stubs : StubSparks F W) (sub : Submission F W) (base rank : ℕ) :
    List (ReturnFrame F) :=
  sub.rows.zipIdx.map fun p => ⟨⟨rank, p.2, base + p.2⟩, stubs.preSum rank sub.layer p.1⟩

/-- The frames of a submission to `ranks` Sparks. -/
def framesOf (stubs : StubSparks F W) (sub : Submission F W) (base ranks : ℕ) :
    List (ReturnFrame F) :=
  (List.range ranks).flatMap fun rank => rankFrames stubs sub (base + rank * sub.rows.length) rank

variable {stubs : StubSparks F W} {sub : Submission F W} {base rank ranks : ℕ} {f : ReturnFrame F}

theorem length_rankFrames : (rankFrames stubs sub base rank).length = sub.rows.length := by
  rw [rankFrames, List.length_map, List.length_zipIdx]

theorem mem_rankFrames : f ∈ rankFrames stubs sub base rank ↔
    ∃ row, sub.rows[f.seq.row]? = some row ∧
      f = ⟨⟨rank, f.seq.row, base + f.seq.row⟩, stubs.preSum rank sub.layer row⟩ := by
  rw [rankFrames, List.mem_map]
  constructor
  · rintro ⟨⟨row, i⟩, hp, rfl⟩
    exact ⟨row, List.mem_zipIdx_iff_getElem?.mp hp, rfl⟩
  · rintro ⟨row, hrow, hf⟩
    exact ⟨(row, f.seq.row), List.mem_zipIdx_iff_getElem?.mpr hrow, hf.symm⟩

theorem length_framesOf : (framesOf stubs sub base ranks).length = ranks * sub.rows.length := by
  simp [framesOf, length_rankFrames, List.length_flatMap]

/-- Before, by rank and row. -/
def FrameSeq.Before (a b : FrameSeq) : Prop := a.rank < b.rank ∨ a.rank = b.rank ∧ a.row < b.row

theorem pairwise_rankFrames :
    (rankFrames stubs sub base rank).Pairwise fun a b => a.seq.Before b.seq := by
  rw [rankFrames, List.pairwise_map]
  have hidx : (sub.rows.zipIdx.map Prod.snd).Pairwise (· < ·) := by
    rw [List.zipIdx_map_snd]
    exact List.pairwise_lt_range'
  rw [List.pairwise_map] at hidx
  exact hidx.imp fun h => .inr ⟨rfl, h⟩

/-- **The frames come in the order of their keys.** -/
theorem pairwise_framesOf :
    (framesOf stubs sub base ranks).Pairwise fun a b => a.seq.Before b.seq := by
  rw [framesOf, List.pairwise_flatMap]
  refine ⟨fun rank _ => pairwise_rankFrames, List.pairwise_lt_range.imp ?_⟩
  intro rank rank' hlt f hf f' hf'
  obtain ⟨row, -, hf⟩ := mem_rankFrames.mp hf
  obtain ⟨row', -, hf'⟩ := mem_rankFrames.mp hf'
  rw [hf, hf']
  exact .inl hlt

theorem nodup_framesOf : ((framesOf stubs sub base ranks).map ReturnFrame.seq).Nodup := by
  rw [List.Nodup, List.pairwise_map]
  refine pairwise_framesOf.imp fun h heq => ?_
  rw [heq] at h
  rcases h with h | h
  · exact Nat.lt_irrefl _ h
  · exact Nat.lt_irrefl _ h.2

/-! ### Sending -/

namespace LaneSim

variable {x x' x'' : Sending F} {t : ℕ} {fs fs' : List (ReturnFrame F)}

/-- Every key that was given out is used up. -/
def Sending.Fresh (x : Sending F) : Prop := ∀ q ∈ x.expected, q.seq < x.nextSeq

/-- From `x` to `x'` the frames `fs` of the ticket `t` were sent. -/
structure Sending.Sends (t : ℕ) (x x' : Sending F) (fs : List (ReturnFrame F)) : Prop where
  queue : (x'.queue.map Prod.snd).Perm (fs.map (Event.mk t) ++ x.queue.map Prod.snd)
  expected : x'.expected.Perm (fs.map ReturnFrame.seq ++ x.expected)
  nextSeq : x'.nextSeq = x.nextSeq + fs.length
  fresh : x'.Fresh

theorem Sending.Sends.refl (h : x.Fresh) : x.Sends t x [] :=
  ⟨.refl _, .refl _, rfl, h⟩

theorem Sending.Sends.trans (h : x.Sends t x' fs) (h' : x'.Sends t x'' fs') :
    x.Sends t x'' (fs ++ fs') := by
  refine ⟨?_, ?_, ?_, h'.fresh⟩
  · refine h'.queue.trans ?_
    rw [List.map_append, List.append_assoc]
    refine (List.Perm.append_left _ h.queue).trans ?_
    rw [← List.append_assoc, ← List.append_assoc]
    exact List.Perm.append_right _ List.perm_append_comm
  · refine h'.expected.trans ?_
    rw [List.map_append, List.append_assoc]
    refine (List.Perm.append_left _ h.expected).trans ?_
    rw [← List.append_assoc, ← List.append_assoc]
    exact List.Perm.append_right _ List.perm_append_comm
  · rw [h'.nextSeq, h.nextSeq, List.length_append, Nat.add_assoc]

theorem sends_sendFrame (h : x.Fresh) (rank deliver : ℕ) (p : List F × ℕ) :
    x.Sends t (sendFrame t rank deliver x p) [⟨⟨rank, p.2, x.nextSeq⟩, p.1⟩] := by
  have hnew : (⟨rank, p.2, x.nextSeq⟩ : FrameSeq) ∉ x.expected :=
    fun hmem => Nat.lt_irrefl _ (h _ hmem)
  have hexpected : (sendFrame t rank deliver x p).expected = ⟨rank, p.2, x.nextSeq⟩ :: x.expected :=
    if_neg hnew
  refine ⟨?_, ?_, rfl, ?_⟩
  · exact (List.perm_orderedInsert _ _ _).map Prod.snd
  · rw [hexpected]
    rfl
  · intro q hq
    rw [hexpected] at hq
    rcases List.mem_cons.mp hq with rfl | hq
    · exact Nat.lt_succ_self _
    · exact Nat.lt_succ_of_lt (h q hq)

theorem sends_frames (h : x.Fresh) (rank deliver k : ℕ) (partials : List (List F)) :
    x.Sends t ((partials.zipIdx k).foldl (sendFrame t rank deliver) x)
      (partials.zipIdx.map fun p => ⟨⟨rank, k + p.2, x.nextSeq + p.2⟩, p.1⟩) := by
  induction partials generalizing x k with
  | nil => exact .refl h
  | cons p partials ih =>
    have hfirst := sends_sendFrame (t := t) h rank deliver (p, k)
    have hrest := ih hfirst.fresh (k + 1)
    have hframes : ((p :: partials).zipIdx.map fun p => (⟨⟨rank, k + p.2, x.nextSeq + p.2⟩, p.1⟩ :
        ReturnFrame F)) = [⟨⟨rank, k, x.nextSeq⟩, p⟩] ++
          partials.zipIdx.map fun p => ⟨⟨rank, k + 1 + p.2, x.nextSeq + 1 + p.2⟩, p.1⟩ := by
      rw [List.zipIdx_cons, List.zipIdx_succ, List.map_cons, List.map_map]
      simp [Function.comp_def, Nat.add_assoc, Nat.add_comm 1]
    rw [hframes]
    exact hfirst.trans hrest

theorem sends_sendRank (h : x.Fresh) (stubs : StubSparks F W) (c : LaneSimConfig)
    (now layer reqSer retSer computeNs rank : ℕ) (rows : List (RequestRow F W)) :
    x.Sends t (sendRank stubs c now t layer rows reqSer retSer computeNs x rank)
      (rankFrames stubs ⟨layer, rows⟩ x.nextSeq rank) := by
  have hframes : rankFrames stubs ⟨layer, rows⟩ x.nextSeq rank =
      (rows.map (stubs.preSum rank layer)).zipIdx.map fun p =>
        ⟨⟨rank, 0 + p.2, x.nextSeq + p.2⟩, p.1⟩ := by
    rw [rankFrames, List.zipIdx_map, List.map_map]
    simp [Function.comp_def]
  rw [hframes]
  let busy := sendRank stubs c now t layer [] reqSer retSer computeNs x rank
  have hsent := sends_frames (x := busy) (t := t) h rank
    (max (now + c.wireRttNs / 2 + reqSer) (x.rankFreeAtNs.getD rank 0) + computeNs +
      c.wireRttNs / 2 + retSer) 0 (rows.map (stubs.preSum rank layer))
  exact ⟨hsent.queue, hsent.expected, hsent.nextSeq, hsent.fresh⟩

/-- **The loop of `submit`** sends the frames of the submission. -/
theorem sends_submit (h : x.Fresh) (stubs : StubSparks F W) (c : LaneSimConfig)
    (now layer reqSer retSer computeNs ranks : ℕ) (rows : List (RequestRow F W)) :
    x.Sends t ((List.range ranks).foldl
        (sendRank stubs c now t layer rows reqSer retSer computeNs) x)
      (framesOf stubs ⟨layer, rows⟩ x.nextSeq ranks) := by
  induction ranks with
  | zero => exact .refl h
  | succ ranks ih =>
    have hbase := ih.nextSeq
    rw [length_framesOf] at hbase
    have hlast :=
        sends_sendRank (t := t) ih.fresh stubs c now layer reqSer retSer computeNs ranks rows
    rw [hbase] at hlast
    rw [List.range_succ, List.foldl_append, framesOf, List.range_succ, List.flatMap_append,
      List.flatMap_singleton]
    exact ih.trans hlast

end LaneSim

/-! ### The invariant -/

/-- The keys of the ticket's frames that are still to be delivered. -/
def pending (t : ℕ) (events : List (Event F)) : List FrameSeq :=
  (events.filter fun e => decide (e.ticket = t)).map fun e => e.frame.seq

/-- Of an open ticket with the frames `frames`: each has arrived, is lost or is still to be
delivered. -/
structure Open (frames : List (ReturnFrame F)) (t : ℕ) (events : List (Event F))
    (state : TicketState F) : Prop where
  keys : (state.receivedSeqs ++ (state.lost ++ pending t events)).Perm (frames.map ReturnFrame.seq)
  expected : state.expected.length = frames.length
  received : ∀ f ∈ state.received, f ∈ frames ∧ f.seq ∈ state.receivedSeqs
  arrived : ∀ q ∈ state.receivedSeqs, ∃ f ∈ state.received, f.seq = q
  queued : ∀ e ∈ events, e.ticket = t → e.frame ∈ frames

variable {frames : List (ReturnFrame F)} {t : ℕ} {e : Event F} {events : List (Event F)}
  {state : TicketState F} {q : FrameSeq}

theorem pending_cons_self (h : e.ticket = t) :
    pending t (e :: events) = e.frame.seq :: pending t events := by
  simp [pending, h]

theorem pending_cons_of_ne (h : e.ticket ≠ t) : pending t (e :: events) = pending t events := by
  simp [pending, h]

theorem foldl_insertSeq_replicate {α : Type} (g : α → FrameSeq) (a : α) (n : ℕ) (l : List FrameSeq)
    (h : g a ∉ l) : (List.replicate (n + 1) a).foldl (fun l c => insertSeq (g c) l) l =
        g a :: l := by
  induction n with
  | zero => exact if_neg h
  | succ n ih =>
    rw [List.replicate_succ', List.foldl_append, ih]
    exact if_pos List.mem_cons_self

/-- The delivery of another ticket's frame. -/
theorem Open.skip (h : Open frames t (e :: events) state) (hne : e.ticket ≠ t) :
    Open frames t events state where
  keys := by
    have hkeys := h.keys
    rwa [pending_cons_of_ne hne] at hkeys
  expected := h.expected
  received := h.received
  arrived := h.arrived
  queued e' he' := h.queued e' (List.mem_cons_of_mem e he')

/-- **The delivery of a frame** moves its key to those that have arrived, or to those lost. -/
theorem Open.take (h : Open frames t (e :: events) state)
    (hnodup : (frames.map ReturnFrame.seq).Nodup)
    (ht : e.ticket = t) (n : ℕ) :
    Open frames t events (state.take e.frame.seq (List.replicate n e.frame)) := by
  have hkeys := h.keys
  rw [pending_cons_self ht] at hkeys
  have hmove : (state.receivedSeqs ++ (state.lost ++ e.frame.seq :: pending t events)).Perm
      (e.frame.seq :: (state.receivedSeqs ++ (state.lost ++ pending t events))) :=
    (List.Perm.append_left _ List.perm_middle).trans List.perm_middle
  have hnew := (List.nodup_cons.mp ((hmove.symm.trans hkeys).nodup_iff.mpr hnodup)).1
  simp only [List.mem_append, not_or] at hnew
  have hframe := h.queued e List.mem_cons_self ht
  have hqueued : ∀ e' ∈ events, e'.ticket = t → e'.frame ∈ frames :=
    fun e' he' => h.queued e' (List.mem_cons_of_mem e he')
  cases n with
  | zero =>
    have htake : state.take e.frame.seq (List.replicate 0 e.frame) =
        { state with lost := e.frame.seq :: state.lost } := by
      simp [TicketState.take, insertSeq, hnew.2.1]
    rw [htake]
    refine ⟨?_, h.expected, h.received, h.arrived, hqueued⟩
    exact (List.Perm.append_left _ List.perm_middle.symm).trans hkeys
  | succ n =>
    have htake : state.take e.frame.seq (List.replicate (n + 1) e.frame) =
        { state with
          receivedSeqs := e.frame.seq :: state.receivedSeqs
          received := state.received ++ List.replicate (n + 1) e.frame } := by
      rw [TicketState.take, foldl_insertSeq_replicate _ _ _ _ hnew.1]
      simp
    rw [htake]
    refine ⟨?_, h.expected, fun f hf => ?_, fun q hq => ?_, hqueued⟩
    · exact hmove.symm.trans hkeys
    · rcases List.mem_append.mp hf with hf | hf
      · exact ⟨(h.received f hf).1, List.mem_cons_of_mem _ (h.received f hf).2⟩
      · obtain rfl := List.eq_of_mem_replicate hf
        exact ⟨hframe, List.mem_cons_self⟩
    · rcases List.mem_cons.mp hq with rfl | hq
      · exact ⟨e.frame, List.mem_append_right _ (by simp), rfl⟩
      · obtain ⟨f, hf, hfq⟩ := h.arrived q hq
        exact ⟨f, List.mem_append_left _ hf, hfq⟩

/-! ### The result -/

section Counted

variable {seen : List FrameSeq} {L : List (ReturnFrame F)}

theorem sublist_counted : (counted .dedupBySeq seen L).Sublist L := by
  induction L generalizing seen with
  | nil => exact .slnil
  | cons f L ih =>
    rw [counted]
    split
    · exact ih.cons f
    · exact ih.cons_cons f

theorem seq_notMem_of_mem_counted (h : f ∈ counted .dedupBySeq seen L) : f.seq ∉ seen := by
  induction L generalizing seen with
  | nil => cases h
  | cons g L ih =>
    rw [counted] at h
    split at h
    · exact ih h
    · rename_i hnew
      rcases List.mem_cons.mp h with rfl | h
      · exact hnew
      · exact fun hmem => ih h (List.mem_cons_of_mem _ hmem)

theorem nodup_counted : ((counted .dedupBySeq seen L).map ReturnFrame.seq).Nodup := by
  induction L generalizing seen with
  | nil => exact List.nodup_nil
  | cons f L ih =>
    rw [counted]
    split
    · exact ih
    · refine List.nodup_cons.mpr ⟨fun hmem => ?_, ih⟩
      obtain ⟨g, hg, hgf⟩ := List.mem_map.mp hmem
      exact seq_notMem_of_mem_counted hg (hgf ▸ List.mem_cons_self)

/-- A key is counted unless it was seen. -/
theorem exists_mem_counted (hf : f ∈ L) (hnew : f.seq ∉ seen) :
    ∃ g ∈ counted .dedupBySeq seen L, g.seq = f.seq := by
  induction L generalizing seen with
  | nil => cases hf
  | cons g L ih =>
    rw [counted]
    rcases List.mem_cons.mp hf with rfl | hf
    · rw [if_neg hnew]
      exact ⟨f, List.mem_cons_self, rfl⟩
    · split
      · exact ih hf hnew
      · by_cases hgf : g.seq = f.seq
        · exact ⟨g, List.mem_cons_self, hgf⟩
        · have hnew' : f.seq ∉ g.seq :: seen := by
            rw [List.mem_cons, not_or]
            exact ⟨fun h => hgf h.symm, hnew⟩
          obtain ⟨g', hg', hseq⟩ := ih hf hnew'
          exact ⟨g', List.mem_cons_of_mem _ hg', hseq⟩

end Counted

theorem FrameSeq.le_trans {a b c : FrameSeq} (hab : a.le b) (hbc : b.le c) : a.le c := by
  unfold FrameSeq.le at *
  omega

theorem FrameSeq.le_total (a b : FrameSeq) : a.le b ∨ b.le a := by
  unfold FrameSeq.le
  omega

theorem FrameSeq.le_antisymm {a b : FrameSeq} (hab : a.le b) (hba : b.le a) : a = b := by
  obtain ⟨rank, row, seq⟩ := a
  obtain ⟨rank', row', seq'⟩ := b
  simp only [FrameSeq.le, FrameSeq.mk.injEq] at *
  omega

theorem FrameSeq.Before.le {a b : FrameSeq} (h : a.Before b) : a.le b := by
  unfold FrameSeq.Before at h
  unfold FrameSeq.le
  omega

/-- Frames with one key are one frame. -/
theorem eq_of_seq_eq {frames : List (ReturnFrame F)} {f g : ReturnFrame F}
    (hnodup : (frames.map ReturnFrame.seq).Nodup) (hf : f ∈ frames) (hg : g ∈ frames)
    (h : f.seq = g.seq) : f = g :=
  List.inj_on_of_nodup_map hnodup hf hg h

/-- **A ticket all of whose keys have arrived** has lost none, awaits none, and counts each of its
frames once, in order. -/
theorem Open.complete (h : Open frames t events state)
    (hsorted : frames.Pairwise fun a b => a.seq.Before b.seq)
    (hnodup : (frames.map ReturnFrame.seq).Nodup)
    (hall : state.expected.length ≤ state.receivedSeqs.length) :
    pending t events = [] ∧ state.receivedSeqs.length = frames.length ∧
      counted .dedupBySeq [] (state.received.mergeSort fun a b => decide (a.seq.le b.seq)) =
        frames := by
  have hlen := h.keys.length_eq
  rw [List.length_append, List.length_append, List.length_map] at hlen
  rw [h.expected] at hall
  have hlost : state.lost = [] := List.eq_nil_of_length_eq_zero (by omega)
  have hpending : pending t events = [] := List.eq_nil_of_length_eq_zero (by omega)
  refine ⟨hpending, by omega, ?_⟩
  have hkeys := h.keys
  rw [hlost, hpending, List.append_nil, List.append_nil] at hkeys
  set L := state.received.mergeSort fun a b => decide (a.seq.le b.seq) with hL
  have hmem : ∀ f, f ∈ L ↔ f ∈ state.received := fun f => List.mem_mergeSort
  have hsub : ∀ f ∈ counted .dedupBySeq [] L, f ∈ frames :=
    fun f hf => (h.received f ((hmem f).mp (sublist_counted.mem hf))).1
  have hLsorted : L.Pairwise fun a b => a.seq.le b.seq := by
    have htrans : ∀ a b c : ReturnFrame F, decide (a.seq.le b.seq) → decide (b.seq.le c.seq) →
        decide (a.seq.le c.seq) := fun a b c hab hbc => decide_eq_true
      (FrameSeq.le_trans (of_decide_eq_true hab) (of_decide_eq_true hbc))
    have htotal : ∀ a b : ReturnFrame F,
        (decide (a.seq.le b.seq) || decide (b.seq.le a.seq)) = true :=
      fun a b => by simpa using FrameSeq.le_total a.seq b.seq
    have hsort := List.pairwise_mergeSort htrans htotal state.received
    exact hsort.imp fun hab => of_decide_eq_true hab
  refine List.Perm.eq_of_pairwise ?_
    (hLsorted.sublist sublist_counted) (hsorted.imp FrameSeq.Before.le) ?_
  · intro a b ha hb hab hba
    exact eq_of_seq_eq hnodup (hsub a ha) hb (FrameSeq.le_antisymm hab hba)
  · refine (List.perm_ext_iff_of_nodup nodup_counted.of_map hnodup.of_map).mpr fun f =>
      ⟨hsub f, fun hf => ?_⟩
    have hseq : f.seq ∈ state.receivedSeqs :=
      hkeys.mem_iff.mpr (List.mem_map_of_mem hf)
    obtain ⟨g, hg, hgf⟩ := h.arrived _ hseq
    obtain ⟨g', hg', hgg⟩ := exists_mem_counted ((hmem g).mpr hg) List.not_mem_nil
    obtain rfl := eq_of_seq_eq hnodup (hsub g' hg') hf (hgg.trans hgf)
    exact hg'

/-! ### The sum -/

section Sum

variable [Add F]

theorem foldl_addFrame_zipIdx (g : RequestRow F W → List F) (rank base : ℕ)
    (done lines : List (List F)) (rows : List (RequestRow F W)) (h : lines.length = rows.length) :
    ((rows.zipIdx done.length).map fun p =>
        (⟨⟨rank, p.2, base + p.2⟩, g p.1⟩ : ReturnFrame F)).foldl addFrame (done ++ lines) =
      done ++ lines.zipWith (fun line row => line.zipWith (· + ·) (g row)) rows := by
  induction rows generalizing done lines with
  | nil =>
    obtain rfl := List.eq_nil_of_length_eq_zero h
    rfl
  | cons row rows ih =>
    cases lines with
    | nil => cases h
    | cons line lines =>
      have hadd : addFrame (done ++ line :: lines)
          ⟨⟨rank, done.length, base + done.length⟩, g row⟩ =
            (done ++ [line.zipWith (· + ·) (g row)]) ++ lines := by
        rw [List.append_assoc]
        exact List.modifyTailIdx_add _ 0 done (line :: lines)
      have hrest := ih (done ++ [line.zipWith (· + ·) (g row)]) lines (Nat.succ.inj h)
      rw [List.length_append, List.length_singleton] at hrest
      rw [List.zipIdx_cons, List.map_cons, List.foldl_cons, hadd, hrest, List.append_assoc]
      rfl

/-- The frames of a rank add its partial to every line. -/
theorem foldl_addFrame_rankFrames (lines : List (List F)) (h : lines.length = sub.rows.length) :
    (rankFrames stubs sub base rank).foldl addFrame lines =
      lines.zipWith (fun line row => line.zipWith (· + ·) (stubs.preSum rank sub.layer row))
        sub.rows :=
  foldl_addFrame_zipIdx (stubs.preSum rank sub.layer) rank base [] lines sub.rows h

variable [Zero F]

/-- The sum of the ranks' partials for a row, in the order of the ranks. -/
def rankSum (stubs : StubSparks F W) (layer ranks : ℕ) (row : RequestRow F W) : List F :=
  (List.range ranks).foldl (fun line rank => line.zipWith (· + ·) (stubs.preSum rank layer row))
    (List.replicate row.hidden.length 0)

theorem foldl_addFrame_framesOf {dim : ℕ} (hdim : ∀ row ∈ sub.rows, row.hidden.length = dim) :
    (framesOf stubs sub base ranks).foldl addFrame
        (List.replicate sub.rows.length (List.replicate dim 0)) =
      sub.rows.map (rankSum stubs sub.layer ranks) := by
  induction ranks with
  | zero =>
    change List.replicate sub.rows.length (List.replicate dim 0) = _
    rw [← List.map_const']
    exact List.map_congr_left fun row hrow => by rw [rankSum, hdim row hrow]; rfl
  | succ ranks ih =>
    have hrow : ∀ row, rankSum stubs sub.layer (ranks + 1) row =
        (rankSum stubs sub.layer ranks row).zipWith (· + ·) (stubs.preSum ranks sub.layer row) := by
      intro row
      rw [rankSum, List.range_succ, List.foldl_append]
      rfl
    rw [framesOf, List.range_succ, List.flatMap_append, List.flatMap_singleton, List.foldl_append]
    change ((rankFrames stubs sub _ ranks).foldl addFrame
      ((framesOf stubs sub base ranks).foldl addFrame _)) = _
    rw [ih, foldl_addFrame_rankFrames _ (List.length_map _), List.zipWith_map_left,
      List.zipWith_self]
    exact List.map_congr_left fun row _ => (hrow row).symm

end Sum

end Lanesim

end Mimo26

import Mimo26.Lanesim.Frames

/-!
# What a ticket's sum is

Whatever the lanes duplicate or drop, and however the calls about different tickets interleave, a
ticket ends once: with the sum of its own frames, each counted once in the order of rank and row, or
failed for a frame of its own that was lost. A call about an open ticket fails for another one only
where it meets an event that a failed ticket has left in the queue.

## Main definitions

* `Reach` — the states of a run, with the submissions of its tickets and how they ended
* `Holds` — the invariant of every run
* `Answers` — what a call about an open ticket may return

## Main results

* `reach_holds` — every run keeps the invariant
* `ticket_sums` — each result is its ticket's exact sum, each ticket ends once, and what its calls
  return
-/

namespace Mimo26

namespace Lanesim

/-- The stub Sparks are counted as `u16`. -/
def LaneSimConfig.ranks (c : LaneSimConfig) : ℕ := c.geom.sparkRanks % 2 ^ 16

variable {F W : Type} {stubs : StubSparks F W} {sub : Submission F W} {base ranks t : ℕ}
  {events events' new : List (Event F)} {state : TicketState F} {config : LaneSimConfig}
  {fate : ℕ → Fate} {log : List (Submission F W)} {done : List (StepResult F)} {lost : List ℕ}
  {s : LaneSim F}

/-! ### Runs -/

/-- What a call has handed out. -/
def given : Except SimError (Option (StepResult F)) → List (StepResult F)
  | .ok (some r) => [r]
  | _ => []

/-- The ticket, if a call has closed it for a lost frame. -/
def failed (t : ℕ) : Except SimError (Option (StepResult F)) → List ℕ
  | .error (.frameLost _) => [t]
  | _ => []

/-- The tickets that have ended. -/
def ended (done : List (StepResult F)) (lost : List ℕ) :
    List ℕ := done.map StepResult.ticket ++ lost

section Runs

variable [Add F] [Zero F]

/-- The states of a run from `s₀`, with what its tickets were issued for, the results that were
handed out and the tickets that failed. -/
inductive Reach (stubs : StubSparks F W) (s₀ : LaneSim F) :
    List (Submission F W) → List (StepResult F) → List ℕ → LaneSim F → Prop
  | start : Reach stubs s₀ [] [] [] s₀
  | submit {log : List (Submission F W)} {done : List (StepResult F)} {lost : List ℕ}
    {s : LaneSim F}
      {layer ticket : ℕ} {rows : List (RequestRow F W)} (h : Reach stubs s₀ log done lost s)
      (hok : (s.submit stubs layer rows).2 = .ok ticket) :
      Reach stubs s₀ (log ++ [⟨layer, rows⟩]) done lost (s.submit stubs layer rows).1
  | refused {log : List (Submission F W)} {done : List (StepResult F)} {lost : List ℕ}
    {s : LaneSim F}
      {layer : ℕ} {rows : List (RequestRow F W)} {e : SimError} (h : Reach stubs s₀ log done lost s)
      (herr : (s.submit stubs layer rows).2 = .error e) :
      Reach stubs s₀ log done lost (s.submit stubs layer rows).1
  | poll {log : List (Submission F W)} {done : List (StepResult F)} {lost : List ℕ} {s : LaneSim F}
      (h : Reach stubs s₀ log done lost s) (ticket : ℕ) :
      Reach stubs s₀ log (done ++ given (s.poll ticket).2) (lost ++ failed ticket (s.poll ticket).2)
        (s.poll ticket).1
  | collect {log : List (Submission F W)} {done : List (StepResult F)} {lost : List ℕ}
    {s : LaneSim F}
      (h : Reach stubs s₀ log done lost s) (ticket : ℕ) :
      Reach stubs s₀ log (done ++ given ((s.collect ticket).2.map some))
        (lost ++ failed ticket ((s.collect ticket).2.map some)) (s.collect ticket).1

/-- A result of what its ticket was issued for. -/
def Exact (stubs : StubSparks F W) (ranks : ℕ) (log : List (Submission F W)) (r : StepResult F) :
    Prop :=
  ∃ sub, log[r.ticket]? = some sub ∧ r.layer = sub.layer ∧
    r.combined = sub.rows.map (rankSum stubs sub.layer ranks) ∧
    r.framesReceived = ranks * sub.rows.length

/-- A ticket's state is of the submission. -/
structure Issued (dim : ℕ) (sub : Submission F W) (state : TicketState F) : Prop where
  layer : state.layer = sub.layer
  rowCount : state.rowCount = sub.rows.length
  rows : sub.rows ≠ []
  hidden : ∀ row ∈ sub.rows, row.hidden.length = dim

/-- What is known of an open ticket. -/
def Opened (stubs : StubSparks F W) (config : LaneSimConfig) (fate : ℕ → Fate)
    (log : List (Submission F W)) (events : List (Event F)) (t : ℕ) (state : TicketState F) :
        Prop :=
  ∃ sub base, log[t]? = some sub ∧ Issued config.geom.hidden sub state ∧
    Open (framesOf stubs sub base config.ranks) t events state ∧
    (state.lost ≠ [] → ∃ n, fate n = .dropped)

/-- The invariant of every run. -/
structure Holds (stubs : StubSparks F W) (config : LaneSimConfig) (fate : ℕ → Fate)
    (log : List (Submission F W)) (done : List (StepResult F)) (lost : List ℕ) (s : LaneSim F) :
    Prop where
  same : s.config = config
  fates : s.faults.fate = fate
  nextTicket : s.nextTicket = log.length
  opened : ∀ t state, s.tickets t = some state →
    Opened stubs config fate log (s.queue.map Prod.snd) t state
  queued : ∀ e ∈ s.queue.map Prod.snd, s.tickets e.ticket ≠ none ∨ e.ticket ∈ lost
  closed : ∀ t, s.tickets t = none ↔ log.length ≤ t ∨ t ∈ ended done lost
  exact : ∀ r ∈ done, Exact stubs config.ranks log r
  once : (ended done lost).Nodup
  issued : ∀ t ∈ ended done lost, t < log.length
  lossy : lost ≠ [] → ∃ n, fate n = .dropped

omit [Add F] [Zero F] in
theorem Issued.take {dim : ℕ} (h : Issued dim sub state) (seq : FrameSeq)
    (copies : List (ReturnFrame F)) : Issued dim sub (state.take seq copies) := by
  unfold TicketState.take
  split
  · exact ⟨h.layer, h.rowCount, h.rows, h.hidden⟩
  · exact ⟨h.layer, h.rowCount, h.rows, h.hidden⟩

/-- The result of an open ticket all of whose keys have arrived. -/
theorem exact_result {dim : ℕ} (hlog : log[t]? = some sub) (hissued : Issued dim sub state)
    (hopen : Open (framesOf stubs sub base ranks) t events state) (hranks : 0 < ranks)
    (hall : state.expected.length ≤ state.receivedSeqs.length) :
    Exact stubs ranks log (state.result .dedupBySeq t) := by
  obtain ⟨-, hlen, hcounted⟩ := hopen.complete pairwise_framesOf nodup_framesOf hall
  rw [length_framesOf] at hlen
  refine ⟨sub, hlog, hissued.layer, ?_, hlen⟩
  have hdim : (state.received.head?.map fun f => f.partials.length).getD 0 = dim := by
    cases hreceived : state.received with
    | nil =>
      have hkeys : state.receivedSeqs = [] :=
        List.eq_nil_iff_forall_not_mem.mpr fun q hq => by
          obtain ⟨f, hf, -⟩ := hopen.arrived q hq
          rw [hreceived] at hf
          cases hf
      rw [hkeys] at hlen
      have hrows := List.length_pos_of_ne_nil hissued.rows
      exact absurd hlen.symm (Nat.mul_pos hranks hrows).ne'
    | cons f received =>
      have hf := (hopen.received f (hreceived ▸ List.mem_cons_self)).1
      rw [framesOf, List.mem_flatMap] at hf
      obtain ⟨rank, -, hf⟩ := hf
      obtain ⟨row, hrow, hfeq⟩ := mem_rankFrames.mp hf
      change f.partials.length = dim
      rw [hfeq, stubs.length_preSum]
      exact hissued.hidden row (List.mem_of_getElem? hrow)
  change ((counted .dedupBySeq [] _).foldl addFrame _) = _
  rw [hdim, hcounted, hissued.rowCount]
  exact foldl_addFrame_framesOf hissued.hidden

/-! ### The steps of a call -/

/-- A ticket's entry removed. -/
def LaneSim.close (s : LaneSim F) (t : ℕ) : LaneSim F :=
  { s with tickets := Function.update s.tickets t none }

omit [Add F] [Zero F] in
@[simp] theorem close_self (s : LaneSim F) (t : ℕ) : (s.close t).tickets t = none :=
  Function.update_self ..

omit [Add F] [Zero F] in
theorem close_of_ne {t t' : ℕ} (h : t' ≠ t) : (s.close t).tickets t' = s.tickets t' :=
  Function.update_of_ne h ..

theorem tryFinish_none (h : s.tickets t = none) :
    s.tryFinish t = (s, .error (.unknownTicket t)) := by
  rw [LaneSim.tryFinish, h]

/-- What `tryFinish` does with an open ticket. -/
theorem tryFinish_some (h : s.tickets t = some state) :
    (∃ q ∈ state.lost, s.tryFinish t = (s.close t, .error (.frameLost q))) ∨
    (state.expected.length ≤ state.receivedSeqs.length ∧
      s.tryFinish t = (s.close t, .ok (some (state.result s.config.collectMode t)))) ∨
    (state.lost = [] ∧ state.receivedSeqs.length < state.expected.length ∧
      s.tryFinish t = (s, .ok none)) := by
  have hperm := List.mergeSort_perm state.lost fun a b => decide (a.le b)
  cases hhead : (state.lost.mergeSort fun a b => decide (a.le b)).head? with
  | some q =>
    refine .inl ⟨q, hperm.mem_iff.mp (List.mem_of_mem_head? hhead), ?_⟩
    · simp only [LaneSim.tryFinish, h, hhead]
      rfl
  | none =>
    rw [List.head?_eq_none_iff.mp hhead] at hperm
    by_cases hall : state.expected.length ≤ state.receivedSeqs.length
    · refine .inr (.inl ⟨hall, ?_⟩)
      simp only [LaneSim.tryFinish, h, hhead, hall]
      rfl
    · refine .inr (.inr ⟨hperm.symm.eq_nil, Nat.lt_of_not_le hall, ?_⟩)
      simp only [LaneSim.tryFinish, h, hhead, hall]
      rfl

/-- The next event taken from the queue, with the copies of its frame that arrive. -/
def LaneSim.arrive (s : LaneSim F) (x : (ℕ × ℕ) × Event F) (queue : List ((ℕ × ℕ) × Event F)) :
    LaneSim F :=
  let sent := s.faults.dispatch x.2.frame
  { s with
    queue
    faults := if sent.2.isEmpty then sent.1 else sent.1.combine sent.2.length
    clockNs := max s.clockNs x.1.1 }

omit [Add F] [Zero F] in
theorem advanceOneEvent_nil (h : s.queue = []) : s.advanceOneEvent = (s, .ok false) := by
  rw [LaneSim.advanceOneEvent, h]

omit [Add F] [Zero F] in
theorem advanceOneEvent_none {x : (ℕ × ℕ) × Event F} {queue : List ((ℕ × ℕ) × Event F)}
    (h : s.queue = x :: queue) (ht : s.tickets x.2.ticket = none) :
    s.advanceOneEvent = (s.arrive x queue, .error (.unknownTicket x.2.ticket)) := by
  obtain ⟨⟨at', key⟩, e⟩ := x
  rw [LaneSim.advanceOneEvent, h]
  simp only [ht]
  rfl

omit [Add F] [Zero F] in
theorem advanceOneEvent_some {x : (ℕ × ℕ) × Event F} {queue : List ((ℕ × ℕ) × Event F)}
    (h : s.queue = x :: queue) (ht : s.tickets x.2.ticket = some state) :
    s.advanceOneEvent =
      ({ s.arrive x queue with
          tickets := Function.update s.tickets x.2.ticket
            (some (state.take x.2.frame.seq
              (List.replicate (s.faults.fate s.faults.sent).copies x.2.frame))) },
        .ok true) := by
  obtain ⟨⟨at', key⟩, e⟩ := x
  rw [LaneSim.advanceOneEvent, h]
  simp only [ht]
  rfl

omit [Add F] [Zero F] in
theorem fate_arrive (x : (ℕ × ℕ) × Event F) (queue : List ((ℕ × ℕ) × Event F)) :
    (s.arrive x queue).faults.fate = s.faults.fate := by
  simp only [LaneSim.arrive]
  split
  · rfl
  · rfl

/-! ### Every call keeps the invariant -/

/-- **A ticket's end.** -/
theorem Holds.close (h : Holds stubs config fate log done lost s) (ht : s.tickets t = some state)
    {done' : List (StepResult F)} {lost' : List ℕ}
    (hexact : ∀ r ∈ done', Exact stubs config.ranks log r)
    (hended : (ended done' lost').Perm (t :: ended done lost))
    (hevents : pending t (s.queue.map Prod.snd) = [] ∨ t ∈ lost') (hlost : ∀ u ∈ lost, u ∈ lost')
    (hlossy : lost' ≠ [] → ∃ n, fate n = .dropped) :
    Holds stubs config fate log done' lost' (s.close t) := by
  have hopen : t < log.length ∧ t ∉ ended done lost := by
    have hnone := (not_congr (h.closed t)).mp (by rw [ht]; exact Option.some_ne_none _)
    rw [not_or, Nat.not_le] at hnone
    exact hnone
  refine ⟨h.same, h.fates, h.nextTicket, fun u st hu => ?_, fun e he => ?_, fun u => ?_, hexact,
    ?_, ?_, hlossy⟩
  · by_cases hut : u = t
    · rw [hut, close_self] at hu
      cases hu
    · rw [close_of_ne hut] at hu
      exact h.opened u st hu
  · by_cases het : e.ticket = t
    · rcases hevents with hnone | hmem
      · have hmem : e.frame.seq ∈ pending t (s.queue.map Prod.snd) :=
          List.mem_map_of_mem (List.mem_filter.mpr ⟨he, decide_eq_true het⟩)
        rw [hnone] at hmem
        cases hmem
      · exact .inr (het ▸ hmem)
    · rw [close_of_ne het]
      exact (h.queued e he).imp id (hlost _)
  · rw [hended.mem_iff, List.mem_cons]
    by_cases hut : u = t
    · rw [hut, close_self]
      exact iff_of_true rfl (.inr (.inl rfl))
    · rw [close_of_ne hut, h.closed u]
      exact or_congr_right (or_iff_right hut).symm
  · exact hended.nodup_iff.mpr (List.nodup_cons.mpr ⟨hopen.2, h.once⟩)
  · intro u hu
    rcases List.mem_cons.mp (hended.mem_iff.mp hu) with rfl | hu
    · exact hopen.1
    · exact h.issued u hu

theorem Holds.tryFinish (h : Holds stubs config fate log done lost s)
    (hmode : config.collectMode = .dedupBySeq) (hranks : 0 < config.ranks) (t : ℕ) :
    Holds stubs config fate log (done ++ given (s.tryFinish t).2)
      (lost ++ failed t (s.tryFinish t).2)
      (s.tryFinish t).1 := by
  have hsame : Holds stubs config fate log (done ++ []) (lost ++ []) s := by
    rwa [List.append_nil, List.append_nil]
  cases ht : s.tickets t with
  | none =>
    rw [tryFinish_none ht]
    exact hsame
  | some state =>
    obtain ⟨sub, base, hlog, hissued, hopen, hlossy⟩ := h.opened t state ht
    rcases tryFinish_some ht with ⟨q, hq, hfin⟩ | ⟨hall, hfin⟩ | ⟨-, -, hfin⟩
    · rw [hfin]
      change Holds stubs config fate log (done ++ []) (lost ++ [t]) (s.close t)
      rw [List.append_nil]
      refine h.close ht h.exact ?_ (.inr (List.mem_append_right _ List.mem_cons_self))
        (fun u => List.mem_append_left _) fun _ => hlossy (List.ne_nil_of_mem hq)
      rw [ended, ← List.append_assoc]
      exact List.perm_append_singleton t _
    · have hcomplete := hopen.complete pairwise_framesOf nodup_framesOf hall
      rw [hfin, h.same, hmode]
      change Holds stubs config fate log (done ++ [_]) (lost ++ []) (s.close t)
      rw [List.append_nil]
      refine h.close ht ?_ ?_ (.inl hcomplete.1) (fun u hu => hu) h.lossy
      · intro r hr
        rcases List.mem_append.mp hr with hr | hr
        · exact h.exact r hr
        · rw [List.mem_singleton.mp hr]
          exact exact_result hlog hissued hopen hranks hall
      · rw [ended, List.map_append, List.append_assoc]
        exact List.perm_middle
    · rw [hfin]
      exact hsame

theorem Holds.advance (h : Holds stubs config fate log done lost s) :
    Holds stubs config fate log done lost s.advanceOneEvent.1 := by
  cases hqueue : s.queue with
  | nil =>
    rw [advanceOneEvent_nil hqueue]
    exact h
  | cons x queue =>
    have hevents : s.queue.map Prod.snd = x.2 :: queue.map Prod.snd := by rw [hqueue]; rfl
    have hopened : ∀ u state, s.tickets u = some state →
        Opened stubs config fate log (x.2 :: queue.map Prod.snd) u state :=
      fun u state hu => hevents ▸ h.opened u state hu
    have hqueued : ∀ e ∈ queue.map Prod.snd, s.tickets e.ticket ≠ none ∨ e.ticket ∈ lost :=
      fun e he => h.queued e (hevents ▸ List.mem_cons_of_mem _ he)
    cases ht : s.tickets x.2.ticket with
    | none =>
      rw [advanceOneEvent_none hqueue ht]
      refine ⟨h.same, (fate_arrive x queue).trans h.fates, h.nextTicket, fun u state hu => ?_,
        hqueued, h.closed, h.exact, h.once, h.issued, h.lossy⟩
      obtain ⟨sub, base, hlog, hissued, hopen, hlossy⟩ := hopened u state hu
      have hne : x.2.ticket ≠ u := fun heq => by
        rw [heq] at ht
        cases ht.symm.trans hu
      exact ⟨sub, base, hlog, hissued, hopen.skip hne, hlossy⟩
    | some state =>
      rw [advanceOneEvent_some hqueue ht]
      have hnone : ∀ (st : TicketState F) u,
          Function.update s.tickets x.2.ticket (some st) u = none ↔ s.tickets u = none := by
        intro st u
        by_cases heq : u = x.2.ticket
        · rw [heq, Function.update_self, ht]
          exact iff_of_false (Option.some_ne_none _) (Option.some_ne_none _)
        · rw [Function.update_of_ne heq]
      refine ⟨h.same, (fate_arrive x queue).trans h.fates, h.nextTicket, fun u state' hu => ?_,
        fun e he => ?_, fun u => ?_, h.exact, h.once, h.issued, h.lossy⟩
      · change Function.update s.tickets _ _ u = some state' at hu
        by_cases heq : u = x.2.ticket
        · rw [heq, Function.update_self] at hu
          obtain rfl := Option.some.inj hu
          obtain ⟨sub, base, hlog, hissued, hopen, hlossy⟩ := hopened _ state ht
          refine ⟨sub, base, heq ▸ hlog, hissued.take _ _, heq ▸ hopen.take nodup_framesOf rfl _,
            ?_⟩
          intro hne
          cases hfate : s.faults.fate s.faults.sent with
          | dropped => exact ⟨_, h.fates ▸ hfate⟩
          | delivered | duplicated =>
            rw [hfate] at hne
            exact hlossy hne
        · rw [Function.update_of_ne heq] at hu
          obtain ⟨sub, base, hlog, hissued, hopen, hlossy⟩ := hopened u state' hu
          exact ⟨sub, base, hlog, hissued, hopen.skip fun heq' => heq heq'.symm, hlossy⟩
      · exact (hqueued e he).imp (not_congr (hnone _ _)).mpr id
      · exact (hnone _ u).trans (h.closed u)

/-- A turn that waits leaves the state to the next event. -/
theorem tryFinish_wait {s' : LaneSim F} (h : s.tryFinish t = (s', .ok none)) : s' = s := by
  cases ht : s.tickets t with
  | none =>
    rw [tryFinish_none ht] at h
    cases h
  | some state =>
    rcases tryFinish_some ht with ⟨q, -, h'⟩ | ⟨-, h'⟩ | ⟨-, -, h'⟩
    · rw [h'] at h
      cases h
    · rw [h'] at h
      cases h
    · rw [h'] at h
      exact (congrArg Prod.fst h).symm

omit [Add F] [Zero F] in
/-- An event of a ticket that is closed fails the call that meets it. -/
theorem error_advanceOneEvent {s' : LaneSim F} {e : SimError}
    (h : s.advanceOneEvent = (s', .error e)) : ∃ u, e = .unknownTicket u := by
  cases hqueue : s.queue with
  | nil =>
    rw [advanceOneEvent_nil hqueue] at h
    cases h
  | cons x queue =>
    cases ht : s.tickets x.2.ticket with
    | none =>
      rw [advanceOneEvent_none hqueue ht] at h
      cases h
      exact ⟨_, rfl⟩
    | some state =>
      rw [advanceOneEvent_some hqueue ht] at h
      cases h

section Keeps

/-! What `tryFinish` and `advanceOneEvent` keep, `poll` and `collect` keep. -/

variable {P : List (StepResult F) → List ℕ → LaneSim F → Prop}
  (htry : ∀ done lost s t, P done lost s →
    P (done ++ given (s.tryFinish t).2) (lost ++ failed t (s.tryFinish t).2) (s.tryFinish t).1)
  (hadv : ∀ done lost s, P done lost s → P done lost s.advanceOneEvent.1)

omit [Add F] [Zero F] in
theorem same (h : P done lost s) : P (done ++ []) (lost ++ []) s := by
  rwa [List.append_nil, List.append_nil]

include htry hadv

theorem poll_keeps (t : ℕ) (h : P done lost s) :
    P (done ++ given (s.poll t).2) (lost ++ failed t (s.poll t).2) (s.poll t).1 := by
  have hdone := htry done lost s t h
  cases ht : s.tickets t with
  | none =>
    simp only [LaneSim.poll, ht]
    exact same h
  | some state =>
    rcases hfin : s.tryFinish t with ⟨s', e | r | r⟩
    · rw [hfin] at hdone
      simp only [LaneSim.poll, ht, hfin]
      exact hdone
    · obtain rfl := tryFinish_wait hfin
      have hnext := hadv done lost s' h
      rcases hout : s'.advanceOneEvent with ⟨s'', e | b⟩
      · obtain ⟨u, rfl⟩ := error_advanceOneEvent hout
        rw [hout] at hnext
        simp only [LaneSim.poll, ht, hfin, hout]
        exact same hnext
      · rw [hout] at hnext
        simp only [LaneSim.poll, ht, hfin, hout]
        exact htry done lost s'' t hnext
    · rw [hfin] at hdone
      simp only [LaneSim.poll, ht, hfin]
      exact hdone

theorem collectLoop_keeps (t fuel : ℕ) (s : LaneSim F) (h : P done lost s) :
    P (done ++ given ((LaneSim.collectLoop t fuel s).2.map some))
      (lost ++ failed t ((LaneSim.collectLoop t fuel s).2.map some))
      (LaneSim.collectLoop t fuel s).1 := by
  induction fuel generalizing s with
  | zero => exact same h
  | succ fuel ih =>
    have hdone := htry done lost s t h
    rcases hfin : s.tryFinish t with ⟨s', e | r | r⟩
    · rw [hfin] at hdone
      simp only [LaneSim.collectLoop, hfin]
      exact hdone
    · obtain rfl := tryFinish_wait hfin
      have hnext := hadv done lost s' h
      rcases hout : s'.advanceOneEvent with ⟨s'', e | _ | _⟩
      · obtain ⟨u, rfl⟩ := error_advanceOneEvent hout
        rw [hout] at hnext
        simp only [LaneSim.collectLoop, hfin, hout]
        exact same hnext
      · rw [hout] at hnext
        simp only [LaneSim.collectLoop, hfin, hout]
        exact same hnext
      · rw [hout] at hnext
        simp only [LaneSim.collectLoop, hfin, hout]
        exact ih s'' hnext
    · rw [hfin] at hdone
      simp only [LaneSim.collectLoop, hfin]
      exact hdone

theorem collect_keeps (t : ℕ) (h : P done lost s) :
    P (done ++ given ((s.collect t).2.map some)) (lost ++ failed t ((s.collect t).2.map some))
      (s.collect t).1 := by
  cases ht : s.tickets t with
  | none =>
    simp only [LaneSim.collect, ht]
    exact same h
  | some state =>
    simp only [LaneSim.collect, ht]
    exact collectLoop_keeps htry hadv t _ s h

end Keeps

omit [Add F] [Zero F] in
theorem hidden_of_checkRows {g : ModelGeom} {tokens : List ℕ} {rows : List (RequestRow F W)}
    (h : LaneSim.checkRows g tokens rows = .ok ()) :
        ∀ row ∈ rows, row.hidden.length = g.hidden := by
  induction rows generalizing tokens with
  | nil => exact List.forall_mem_nil _
  | cons row rows ih =>
    rw [LaneSim.checkRows] at h
    split at h
    · cases h
    · rename_i hhidden
      split at h
      · cases h
      · split at h
        · cases h
        · exact List.forall_mem_cons.mpr ⟨not_not.mp hhidden, ih h⟩

omit [Add F] [Zero F] in
/-- What `submit` does: it refuses, or sends the submission's frames for a new ticket. -/
theorem submit_cases (stubs : StubSparks F W) (s : LaneSim F) (layer : ℕ)
    (rows : List (RequestRow F W)) :
    (∃ e, s.submit stubs layer rows = (s, .error e)) ∨
    ∃ s' state, s.submit stubs layer rows = (s', .ok s.nextTicket) ∧ s'.config = s.config ∧
      s'.faults = s.faults ∧ s'.nextTicket = s.nextTicket + 1 ∧
      s'.tickets = Function.update s.tickets s.nextTicket (some state) ∧
      Issued s.config.geom.hidden ⟨layer, rows⟩ state ∧ state.received = [] ∧
      state.receivedSeqs = [] ∧ state.lost = [] ∧
      state.expected.length = (framesOf stubs ⟨layer, rows⟩ s.nextSeq s.sparks).length ∧
      (s'.queue.map Prod.snd).Perm
        ((framesOf stubs ⟨layer, rows⟩ s.nextSeq s.sparks).map (Event.mk s.nextTicket) ++
          s.queue.map Prod.snd) := by
  by_cases hrows : rows = []
  · exact .inl ⟨_, if_pos hrows⟩
  · cases hcheck : LaneSim.checkRows s.config.geom [] rows with
    | error e =>
      refine .inl ⟨.config e, ?_⟩
      simp only [LaneSim.submit, hrows, hcheck, if_false]
    | ok _ =>
      have hsent := LaneSim.sends_submit (t := s.nextTicket)
        (x := ⟨s.rankFreeAtNs, 0, [], s.queue, s.nextEventKey, s.nextSeq⟩)
        (List.forall_mem_nil _) stubs s.config s.clockNs layer
        (ceilNs (rows.map RequestRow.wireBytes).sum s.config.linkBytesPerSec)
        (ceilNs (rows.length * s.config.geom.returnBytesPerToken) s.config.linkBytesPerSec)
        (s.config.streamNs ((rows.flatMap fun r => r.routes.map Prod.fst).dedup.length *
          s.config.quarterSliceBytes)) s.sparks rows
      have hexpected := hsent.expected.length_eq
      rw [List.append_nil, List.length_map] at hexpected
      simp only [LaneSim.submit, hrows, hcheck, if_false]
      exact .inr ⟨_, _, rfl, rfl, rfl, rfl, rfl, ⟨rfl, rfl, hrows, hidden_of_checkRows hcheck⟩, rfl,
        rfl, rfl, hexpected, hsent.queue⟩

omit [Add F] [Zero F] in
/-- A submission's frames are all to be delivered. -/
theorem open_of_sent {frames : List (ReturnFrame F)}
    (hqueue : events.Perm (frames.map (Event.mk t) ++ events'))
    (hold : ∀ e ∈ events', e.ticket ≠ t) (hexpected : state.expected.length = frames.length)
    (hreceived : state.received = []) (hseqs : state.receivedSeqs = []) (hlost : state.lost = []) :
    Open frames t events state := by
  have hpending : (pending t events).Perm (frames.map ReturnFrame.seq) := by
    refine ((hqueue.filter _).map _).trans ?_
    have hrest : events'.filter (fun e => decide (e.ticket = t)) = [] :=
      List.filter_eq_nil_iff.mpr fun e he => by simpa using hold e he
    have hall : (frames.map (Event.mk t)).filter (fun e => decide (e.ticket = t)) =
        frames.map (Event.mk t) := List.filter_eq_self.mpr fun e he => by
      obtain ⟨f, -, rfl⟩ := List.mem_map.mp he
      exact decide_eq_true rfl
    rw [List.filter_append, hrest, hall, List.append_nil, List.map_map]
    exact .refl _
  refine ⟨?_, hexpected, ?_, ?_, fun e he ht => ?_⟩
  · rw [hseqs, hlost]
    exact hpending
  · rw [hreceived]
    exact List.forall_mem_nil _
  · rw [hseqs]
    exact List.forall_mem_nil _
  · rcases List.mem_append.mp (hqueue.mem_iff.mp he) with he | he
    · obtain ⟨f, hf, rfl⟩ := List.mem_map.mp he
      exact hf
    · exact absurd ht (hold e he)

omit [Add F] [Zero F] in
/-- More events of other tickets. -/
theorem Open.more {frames : List (ReturnFrame F)} (h : Open frames t events state)
    (hqueue : events'.Perm (new ++ events)) (hnew : ∀ e ∈ new, e.ticket ≠ t) :
    Open frames t events' state := by
  have hpending : (pending t events').Perm (pending t events) := by
    refine ((hqueue.filter _).map _).trans ?_
    have hnone : new.filter (fun e => decide (e.ticket = t)) = [] :=
      List.filter_eq_nil_iff.mpr fun e he => by simpa using hnew e he
    rw [List.filter_append, hnone, List.nil_append]
    exact .refl _
  refine ⟨?_, h.expected, h.received, h.arrived, fun e he ht => ?_⟩
  · exact ((hpending.append_left _).append_left _).trans h.keys
  · rcases List.mem_append.mp (hqueue.mem_iff.mp he) with he | he
    · exact absurd ht (hnew e he)
    · exact h.queued e he ht

omit [Add F] [Zero F] in
theorem getElem?_issue (h : log[t]? = some sub) (sub' : Submission F W) :
    (log ++ [sub'])[t]? = some sub :=
  (List.getElem?_append_left (List.getElem?_eq_some_iff.mp h).1).trans h

theorem Holds.submit {layer ticket : ℕ} {rows : List (RequestRow F W)}
    (h : Holds stubs config fate log done lost s)
    (hok : (s.submit stubs layer rows).2 = .ok ticket) :
    Holds stubs config fate (log ++ [⟨layer, rows⟩]) done lost (s.submit stubs layer rows).1 := by
  rcases submit_cases stubs s layer rows with ⟨e, he⟩ |
    ⟨s', state, hs', hconfig, hfaults, hnext, htickets, hissued, hrec, hseqs, hlost, hexp, hqueue⟩
  · rw [he] at hok
    cases hok
  rw [hs']
  have hlen : (log ++ [(⟨layer, rows⟩ : Submission F W)]).length = log.length + 1 := by
    rw [List.length_append, List.length_singleton]
  have hsparks : s.sparks = config.ranks := congrArg LaneSimConfig.ranks h.same
  have hfresh : s.tickets log.length = none := (h.closed _).mpr (.inl (Nat.le_refl _))
  rw [h.nextTicket] at hnext htickets hqueue
  rw [h.same] at hissued hconfig
  rw [hsparks] at hexp hqueue
  refine ⟨hconfig, hfaults ▸ h.fates, hnext.trans hlen.symm, fun t st hst => ?_, fun e he => ?_,
    fun t => ?_, fun r hr => ?_, h.once, fun t ht => ?_, h.lossy⟩
  · rw [htickets] at hst
    by_cases ht : t = log.length
    · rw [ht, Function.update_self] at hst
      obtain rfl := Option.some.inj hst
      rw [ht]
      refine ⟨⟨layer, rows⟩, s.nextSeq, ?_, hissued,
        open_of_sent hqueue (fun e he heq => ?_) hexp hrec hseqs hlost, fun hne => absurd hlost hne⟩
      · rw [List.getElem?_append_right (Nat.le_refl _), Nat.sub_self]
        rfl
      · rcases h.queued e he with hopen | hmem
        · exact hopen (heq ▸ hfresh)
        · exact absurd (h.issued _ (List.mem_append_right _ hmem)) (heq ▸ Nat.lt_irrefl _)
    · rw [Function.update_of_ne ht] at hst
      obtain ⟨sub, base, hlog, hissued', hopen, hlossy⟩ := h.opened t st hst
      refine ⟨sub, base, getElem?_issue hlog _, hissued', hopen.more hqueue ?_, hlossy⟩
      intro e he heq
      obtain ⟨f, -, rfl⟩ := List.mem_map.mp he
      exact ht heq.symm
  · rw [htickets]
    by_cases ht : e.ticket = log.length
    · rw [ht, Function.update_self]
      exact .inl (Option.some_ne_none _)
    · rw [Function.update_of_ne ht]
      rcases List.mem_append.mp (hqueue.mem_iff.mp he) with he | he
      · obtain ⟨f, -, rfl⟩ := List.mem_map.mp he
        exact absurd rfl ht
      · exact h.queued e he
  · rw [htickets, hlen]
    by_cases ht : t = log.length
    · rw [ht, Function.update_self]
      refine iff_of_false (Option.some_ne_none _) ?_
      rintro (hle | hmem)
      · exact Nat.not_succ_le_self _ hle
      · exact Nat.lt_irrefl _ (h.issued _ hmem)
    · rw [Function.update_of_ne ht, h.closed t]
      exact or_congr_left (by omega)
  · obtain ⟨sub, hlog, hrest⟩ := h.exact r hr
    exact ⟨sub, getElem?_issue hlog _, hrest⟩
  · rw [hlen]
    exact Nat.lt_succ_of_lt (h.issued t ht)

omit [Add F] [Zero F] in
theorem new_eq {s₀ : LaneSim F} {faults : LaneFaults} (h : LaneSim.new config faults = .ok s₀) :
    s₀ = ⟨config, faults, 0, [], 0, 0, 0, List.replicate config.geom.sparkRanks 0, fun _ =>
        none⟩ := by
  rw [LaneSim.new] at h
  cases hv : config.validate with
  | error e =>
    rw [hv] at h
    cases h
  | ok _ =>
    rw [hv] at h
    exact (Except.ok.inj h).symm

/-- **The invariant holds in every run.** -/
theorem reach_holds {s₀ : LaneSim F} {faults : LaneFaults}
    (hnew : LaneSim.new config faults = .ok s₀) (hmode : config.collectMode = .dedupBySeq)
    (hranks : 0 < config.ranks) (h : Reach stubs s₀ log done lost s) :
    Holds stubs config faults.fate log done lost s := by
  induction h with
  | start =>
    rw [new_eq hnew]
    refine ⟨rfl, rfl, rfl, ?_, List.forall_mem_nil _, fun t =>
      iff_of_true rfl (.inl (Nat.zero_le t)),
      List.forall_mem_nil _, List.nodup_nil, List.forall_mem_nil _, fun hne => absurd rfl hne⟩
    intro t state ht
    cases ht
  | submit _ hok ih => exact ih.submit hok
  | @refused _ _ _ s layer rows _ _ herr ih =>
    rcases submit_cases stubs s layer rows with ⟨e, he⟩ | ⟨s', state, hs', -⟩
    · rw [he]
      exact ih
    · rw [hs'] at herr
      cases herr
  | poll _ ticket ih =>
    exact poll_keeps (fun _ _ _ t h => h.tryFinish hmode hranks t) (fun _ _ _ h => h.advance) ticket
      ih
  | collect _ ticket ih =>
    exact collect_keeps (fun _ _ _ t h => h.tryFinish hmode hranks t) (fun _ _ _ h => h.advance)
      ticket ih

/-! ### What the calls return -/

/-- What a call about the open ticket `t` may return: its own result, a lost frame of its own, or a
failed ticket that has left events. -/
def Answers (stubs : StubSparks F W) (ranks : ℕ) (log : List (Submission F W)) (lost : List ℕ)
    (t : ℕ) : Except SimError (Option (StepResult F)) → Prop
  | .ok none => True
  | .ok (some r) => r.ticket = t
  | .error (.frameLost q) =>
    ∃ sub base, log[t]? = some sub ∧ q ∈ (framesOf stubs sub base ranks).map ReturnFrame.seq
  | .error (.unknownTicket u) => u ∈ lost
  | .error _ => False

/-- What `tryFinish` returns of an open ticket; if it waits, an event is to come. -/
theorem Holds.answers_tryFinish (h : Holds stubs config fate log done lost s)
    (ht : s.tickets t ≠ none) :
    Answers stubs config.ranks log lost t (s.tryFinish t).2 ∧
      (s.tryFinish t = (s, .ok none) → s.queue ≠ []) := by
  obtain ⟨state, hstate⟩ := Option.ne_none_iff_exists'.mp ht
  obtain ⟨sub, base, hlog, hissued, hopen, -⟩ := h.opened t state hstate
  rcases tryFinish_some hstate with ⟨q, hq, hfin⟩ | ⟨-, hfin⟩ | ⟨hlost, hwait, hfin⟩
  · rw [hfin]
    refine ⟨⟨sub, base, hlog, hopen.keys.mem_iff.mp ?_⟩, fun heq => by cases congrArg Prod.snd heq⟩
    exact List.mem_append_right _ (List.mem_append_left _ hq)
  · rw [hfin]
    exact ⟨rfl, fun heq => by cases congrArg Prod.snd heq⟩
  · rw [hfin]
    refine ⟨trivial, fun _ hnil => ?_⟩
    have hlen := hopen.keys.length_eq
    rw [hnil, hlost, List.length_map, ← hopen.expected] at hlen
    change (state.receivedSeqs ++ []).length = _ at hlen
    rw [List.append_nil] at hlen
    exact hwait.ne hlen

/-- An event's delivery keeps the ticket open, or fails for a failed ticket. -/
theorem Holds.answers_advance (h : Holds stubs config fate log done lost s) :
    (∃ s' b, s.advanceOneEvent = (s', .ok b) ∧ (s.queue ≠ [] → b = true) ∧
      (b = true → s'.queue.length + 1 = s.queue.length) ∧
      ∀ t, s.tickets t ≠ none → s'.tickets t ≠ none) ∨
    ∃ s', ∃ u ∈ lost, s.advanceOneEvent = (s', .error (.unknownTicket u)) := by
  cases hqueue : s.queue with
  | nil =>
    refine .inl ⟨s, false, advanceOneEvent_nil hqueue, fun hne => absurd rfl hne, ?_,
      fun _ ht => ht⟩
    intro heq
    cases heq
  | cons x queue =>
    cases ht : s.tickets x.2.ticket with
    | none =>
      have hevent : x.2 ∈ s.queue.map Prod.snd := by
        rw [hqueue]
        exact List.mem_cons_self
      have hlost := (h.queued x.2 hevent).resolve_left (not_not.mpr ht)
      exact .inr ⟨_, x.2.ticket, hlost, advanceOneEvent_none hqueue ht⟩
    | some state =>
      refine .inl ⟨_, true, advanceOneEvent_some hqueue ht, fun _ => rfl, fun _ => rfl, ?_⟩
      intro t hopen
      by_cases heq : t = x.2.ticket
      · change Function.update s.tickets _ _ t ≠ none
        rw [heq, Function.update_self]
        exact Option.some_ne_none _
      · change Function.update s.tickets _ _ t ≠ none
        rwa [Function.update_of_ne heq]

theorem Holds.answers_poll (h : Holds stubs config fate log done lost s) (ht : s.tickets t ≠ none) :
    Answers stubs config.ranks log lost t (s.poll t).2 := by
  obtain ⟨state, hstate⟩ := Option.ne_none_iff_exists'.mp ht
  have hfirst := (h.answers_tryFinish ht).1
  rcases hfin : s.tryFinish t with ⟨s', e | r | r⟩
  · rw [hfin] at hfirst
    simp only [LaneSim.poll, hstate, hfin]
    exact hfirst
  · obtain rfl := tryFinish_wait hfin
    rcases h.answers_advance with ⟨s'', b, hadv, -, -, hkept⟩ | ⟨s'', u, hu, hadv⟩
    · have hnext := h.advance
      rw [hadv] at hnext
      simp only [LaneSim.poll, hstate, hfin, hadv]
      exact (hnext.answers_tryFinish (hkept t ht)).1
    · simp only [LaneSim.poll, hstate, hfin, hadv]
      exact hu
  · rw [hfin] at hfirst
    simp only [LaneSim.poll, hstate, hfin]
    exact hfirst

/-- The loop of `collect` ends before its fuel does. -/
theorem Holds.answers_collectLoop (t fuel : ℕ) (s : LaneSim F)
    (h : Holds stubs config fate log done lost s) (ht : s.tickets t ≠ none)
    (hfuel : s.queue.length < fuel) :
    Answers stubs config.ranks log lost t ((LaneSim.collectLoop t fuel s).2.map some) := by
  induction fuel generalizing s with
  | zero => cases hfuel
  | succ fuel ih =>
    obtain ⟨hfirst, hwait⟩ := h.answers_tryFinish ht
    rcases hfin : s.tryFinish t with ⟨s', e | r | r⟩
    · rw [hfin] at hfirst
      simp only [LaneSim.collectLoop, hfin]
      exact hfirst
    · obtain rfl := tryFinish_wait hfin
      rcases h.answers_advance with ⟨s'', b, hadv, hmore, hlen, hkept⟩ | ⟨s'', u, hu, hadv⟩
      · obtain rfl := hmore (hwait hfin)
        have hnext := h.advance
        rw [hadv] at hnext
        simp only [LaneSim.collectLoop, hfin, hadv]
        refine ih s'' hnext (hkept t ht) ?_
        have hshorter := hlen rfl
        omega
      · simp only [LaneSim.collectLoop, hfin, hadv]
        exact hu
    · rw [hfin] at hfirst
      simp only [LaneSim.collectLoop, hfin]
      exact hfirst

/-- **A ticket ends once, and with its own exact sum or for a lost frame of its own.** In every run,
whatever the lanes drop, duplicate or delay and however the calls interleave, no ticket ends twice;
each result has for every row of its submission the sum of the ranks' partials in the order of the
ranks; a call about a ticket that has not ended returns its own result, a lost frame of its own, or
a ticket that failed before; and no ticket fails unless a frame is dropped. -/
theorem ticket_sums {s₀ : LaneSim F} {faults : LaneFaults}
    (hnew : LaneSim.new config faults = .ok s₀) (hmode : config.collectMode = .dedupBySeq)
    (hranks : 0 < config.ranks) (h : Reach stubs s₀ log done lost s) :
    (ended done lost).Nodup ∧ (∀ r ∈ done, Exact stubs config.ranks log r) ∧
      (∀ t < log.length, t ∉ ended done lost →
        Answers stubs config.ranks log lost t (s.poll t).2 ∧
          Answers stubs config.ranks log lost t ((s.collect t).2.map some)) ∧
      (lost ≠ [] → ∃ n, faults.fate n = .dropped) := by
  have hholds := reach_holds hnew hmode hranks h
  refine ⟨hholds.once, hholds.exact, fun t ht hnot => ?_, hholds.lossy⟩
  have hopen : s.tickets t ≠ none := by
    rw [Ne, hholds.closed t, not_or]
    exact ⟨Nat.not_le.mpr ht, hnot⟩
  refine ⟨hholds.answers_poll hopen, ?_⟩
  obtain ⟨state, hstate⟩ := Option.ne_none_iff_exists'.mp hopen
  simp only [LaneSim.collect, hstate]
  exact hholds.answers_collectLoop t _ s hopen (Nat.lt_succ_self _)

end Runs

/-- Two Sparks, and lanes that deliver each frame twice. -/
def twoSparks : LaneSimConfig :=
  ⟨⟨1, 0, 1, 2⟩, true, 10, 1, 1, 1, id, .dedupBySeq⟩

def twice : LaneFaults := ⟨fun _ => .duplicated, 0, 0, 0, 0, 0⟩

/-- A Spark that returns a row with its rank added. -/
def addRank : StubSparks ℕ Unit := ⟨fun rank _ row => row.hidden.map (· + rank), by simp⟩

def twoSparksStart : LaneSim ℕ := ⟨twoSparks, twice, 0, [], 0, 0, 0, [0, 0], fun _ => none⟩

theorem ticket_sums_twice :
    (∀ r ∈ given (((twoSparksStart.submit addRank 4 [⟨7, [5], []⟩]).1.collect 0).2.map some),
      Exact addRank 2 [⟨4, [⟨7, [5], []⟩]⟩] r) ∧
      Answers addRank 2 [⟨4, [⟨7, [5], []⟩]⟩] [] 0
        (((twoSparksStart.submit addRank 4 [⟨7, [5], []⟩]).1.collect 0).2.map some) := by
  have hnew : LaneSim.new twoSparks twice = .ok twoSparksStart := rfl
  have hsent : Reach addRank twoSparksStart [⟨4, [⟨7, [5], []⟩]⟩] [] []
      (twoSparksStart.submit addRank 4 [⟨7, [5], []⟩]).1 := .submit .start rfl
  refine ⟨?_, ?_⟩
  · exact (ticket_sums hnew rfl (by decide) (hsent.collect 0)).2.1
  · exact ((ticket_sums hnew rfl (by decide) hsent).2.2.1 0 (by decide) List.not_mem_nil).2

end Lanesim

end Mimo26

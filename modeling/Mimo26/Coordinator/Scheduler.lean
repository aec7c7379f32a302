import Mathlib.Algebra.BigOperators.Group.List.Basic
import Mathlib.Logic.Function.Iterate
import Mimo26.Coordinator.KvPool
import Mimo26.Library.Runs

/-!
# The A4 scheduler

Admitted requests prefill in chunks, then decode in lanes (`scheduler.rs`). The head of the pending
queue is the one that prefills; a decode round is over all decoding requests.

## Main definitions

* `Scheduler`, `submit`, `nextStep`, `preemptLowestPriority`, `finish` — the scheduler
* `Op`, `step` — a run of operations

## Main results

* `steps_nextStep` — what a step can do
* `progress_run` — the head request makes progress, if requests are submitted with tokens to prefill
* `accounted_run` — the pool's bytes are those of the requests
-/

namespace Mimo26

namespace Coordinator

namespace A4

open Runs

inductive RequestState where
  | pending
  | prefilling
  | decoding
  | done
  deriving DecidableEq, Repr

structure Request where
  id : ℕ
  promptTokens : ℕ
  maxTokens : ℕ
  state : RequestState := .pending
  /-- Tokens prefilled so far. -/
  prefillPos : ℕ := 0
  reservation : ℕ := 0
  deriving DecidableEq, Repr

structure SchedulerConfig where
  prefillChunk : ℕ := 2048
  longContextThreshold : ℕ := 524288
  maxConcurrency : ℕ := 8
  deriving DecidableEq, Repr

inductive Step where
  | prefillChunk (requestId start len : ℕ)
  | decodeRound (requestIds : List ℕ)
  | idle
  deriving DecidableEq, Repr

inductive SubmitOutcome where
  | accepted
  | rejected
  deriving DecidableEq, Repr

structure Scheduler where
  config : SchedulerConfig
  pool : KvPool
  pending : List Request := []
  decoding : List Request := []
  deriving DecidableEq, Repr

namespace Scheduler

def new (config : SchedulerConfig) (pool : KvPool) : Scheduler := { config := config, pool := pool }

/-- Requests over the threshold run alone. -/
def isLongContext (s : Scheduler) (promptTokens : ℕ) : Bool :=
  s.config.longContextThreshold < promptTokens

/-- The decode concurrency of a request. -/
def concurrencyFor (s : Scheduler) (promptTokens : ℕ) : ℕ :=
  if s.isLongContext promptTokens then 1 else s.config.maxConcurrency

/-- Admit a new request and enqueue it. -/
def submit (s : Scheduler) (req : Request) : SubmitOutcome × Scheduler :=
  (s.pool.admission req.promptTokens req.maxTokens defaultAdmitReserve).elim (.rejected, s)
    fun (reservation, pool) =>
      (.accepted, { s with
        pool := pool
        pending := s.pending ++ [{ req with reservation := reservation, state := .pending }] })

/-- A round over the lanes. -/
def decodeOrIdle (s : Scheduler) : Step × Scheduler :=
  if s.decoding ≠ [] then (.decodeRound (s.decoding.map (·.id)), s) else (.idle, s)

def nextStep (s : Scheduler) : Step × Scheduler :=
  if s.decoding = [] ∧ s.pending = [] then (.idle, s)
  else
    match s.pending with
    | [] => s.decodeOrIdle
    | req :: rest =>
      let req := if req.state = .pending then { req with state := .prefilling } else req
      let start := req.prefillPos
      let remaining := req.promptTokens - start
      if 0 < remaining then
        let len := min remaining s.config.prefillChunk
        let req := { req with prefillPos := req.prefillPos + len }
        if req.promptTokens ≤ req.prefillPos then
          (.prefillChunk req.id start len,
            { s with pending := rest, decoding := s.decoding ++ [{ req with state := .decoding }] })
        else (.prefillChunk req.id start len, { s with pending := req :: rest })
      else decodeOrIdle { s with pending := req :: rest }

/-- Preempt the last decode lane. -/
def preemptLowestPriority (s : Scheduler) : Option Request × Scheduler :=
  match s.decoding.getLast? with
  | none => (none, s)
  | some req =>
    (some req, { s with decoding := s.decoding.dropLast, pool := s.pool.release req.reservation })

/-- Finish a decoding request. -/
def finish (s : Scheduler) (id : ℕ) : Option Request × Scheduler :=
  match s.decoding.findIdx? (·.id = id) with
  | none => (none, s)
  | some idx =>
    match s.decoding[idx]? with
    | none => (none, s)
    | some req =>
      (some { req with state := .done },
        { s with decoding := s.decoding.eraseIdx idx, pool := s.pool.release req.reservation })

/-- An operation on the scheduler. -/
inductive Op where
  | submit (req : Request)
  | nextStep
  | preempt
  | finish (id : ℕ)

def step (s : Scheduler) : Op → Scheduler
  | .submit req => (s.submit req).2
  | .nextStep => s.nextStep.2
  | .preempt => s.preemptLowestPriority.2
  | .finish id => (s.finish id).2

/-! ### What the operations do -/

variable {s s' : Scheduler}

/-- **Submit.** -/
theorem submit_cases (s : Scheduler) (req : Request) :
    s.submit req = (.rejected, s) ∨ ∃ reservation pool,
      s.pool.admission req.promptTokens req.maxTokens defaultAdmitReserve = some (reservation, pool) ∧
      s.submit req = (.accepted, { s with
        pool := pool
        pending :=
            s.pending ++ [{ req with reservation := reservation, state := .pending }] }) := by
  rw [submit]
  cases s.pool.admission req.promptTokens req.maxTokens defaultAdmitReserve with
  | none => exact Or.inl rfl
  | some r => exact Or.inr ⟨r.1, r.2, rfl, rfl⟩

/-- The head as the queue holds it while it prefills. -/
def started (req : Request) : Request :=
  if req.state = .pending then { req with state := .prefilling } else req

@[simp] theorem started_id (req : Request) : (started req).id = req.id := by
  rw [started]
  split
  · rfl
  · rfl

@[simp] theorem started_promptTokens (req : Request) :
    (started req).promptTokens = req.promptTokens := by
  rw [started]
  split
  · rfl
  · rfl

@[simp] theorem started_prefillPos (req : Request) :
    (started req).prefillPos = req.prefillPos := by
  rw [started]
  split
  · rfl
  · rfl

@[simp] theorem started_reservation (req : Request) :
    (started req).reservation = req.reservation := by
  rw [started]
  split
  · rfl
  · rfl

/-- What a step can do: a chunk of the head that is not its last, the last one, or a round over the
lanes. -/
inductive Steps (s : Scheduler) : Step × Scheduler → Prop where
  | chunk {req : Request} {rest : List Request} {len : ℕ} (hpending : s.pending = req :: rest)
    (hlen : len = min (req.promptTokens - req.prefillPos) s.config.prefillChunk)
    (hmore : req.prefillPos + len < req.promptTokens) :
    Steps s (.prefillChunk req.id req.prefillPos len,
      { s with pending := { started req with prefillPos := req.prefillPos + len } :: rest })
  | last {req : Request} {rest : List Request} {len : ℕ} (hpending : s.pending = req :: rest)
    (hlen : len = min (req.promptTokens - req.prefillPos) s.config.prefillChunk)
    (hleft : req.prefillPos < req.promptTokens)
    (hlast : req.promptTokens = req.prefillPos + len) :
    Steps s (.prefillChunk req.id req.prefillPos len,
      { s with
        pending := rest
        decoding := s.decoding ++
          [{ started req with prefillPos := req.prefillPos + len, state := .decoding }] })
  | round {pending : List Request} (hpending : pending = s.pending.modifyHead started)
    (hstuck : ∀ req rest, s.pending = req :: rest → req.promptTokens ≤ req.prefillPos) :
    Steps s (if s.decoding = [] then .idle else .decodeRound (s.decoding.map (·.id)),
      { s with pending := pending })

theorem steps_nextStep (s : Scheduler) : Steps s s.nextStep := by
  have hround (pending : List Request) (hpending : pending = s.pending.modifyHead started)
      (hstuck : ∀ req rest, s.pending = req :: rest → req.promptTokens ≤ req.prefillPos) :
      Steps s (decodeOrIdle { s with pending := pending }) := by
    rw [decodeOrIdle]
    have hsteps := Steps.round hpending hstuck
    split
    · next h =>
      rw [if_neg h] at hsteps
      exact hsteps
    · next h =>
      rw [if_pos (not_not.mp h)] at hsteps
      exact hsteps
  rw [nextStep]
  split
  · next hempty =>
    have hnone := hround s.pending (by rw [hempty.2]; rfl) (by simp [hempty.2])
    rw [decodeOrIdle, if_neg (not_not.mpr hempty.1)] at hnone
    exact hnone
  · cases hpending : s.pending with
    | nil =>
      have hnone := hround s.pending (by rw [hpending]; rfl) (by simp [hpending])
      exact hnone
    | cons req rest =>
      have hstarted : (if req.state = .pending then { req with state := .prefilling } else req) =
          started req := rfl
      have hid := started_id req
      have htokens := started_promptTokens req
      have hpos := started_prefillPos req
      dsimp only
      rw [hstarted]
      split
      · next hleft =>
        split
        · next hend =>
          have hlast := Steps.last (s := s) hpending rfl (by omega) (by omega)
          rw [← hid, ← htokens, ← hpos] at hlast
          exact hlast
        · next hmore =>
          have hchunk := Steps.chunk (s := s) hpending rfl (by omega)
          rw [← hid, ← htokens, ← hpos] at hchunk
          exact hchunk
      · next hstuck =>
        refine hround _ (by rw [hpending]; rfl) fun req' rest' heq => ?_
        obtain ⟨rfl, -⟩ := List.cons.inj (hpending.symm.trans heq)
        omega

/-- **Preempt.** -/
theorem preempt_cases (s : Scheduler) :
    s.decoding = [] ∧ s.preemptLowestPriority = (none, s) ∨
    ∃ lanes req, s.decoding = lanes ++ [req] ∧ s.preemptLowestPriority =
      (some req, { s with decoding := lanes, pool := s.pool.release req.reservation }) := by
  rcases List.eq_nil_or_concat s.decoding with hnil | ⟨lanes, req, hlanes⟩
  · left
    rw [preemptLowestPriority, hnil]
    exact ⟨rfl, rfl⟩
  · right
    rw [List.concat_eq_append] at hlanes
    refine ⟨lanes, req, hlanes, ?_⟩
    rw [preemptLowestPriority, hlanes, List.getLast?_concat, List.dropLast_concat]

/-- **Finish.** -/
theorem finish_cases (s : Scheduler) (id : ℕ) :
    s.finish id = (none, s) ∨
    ∃ idx req, s.decoding[idx]? = some req ∧ s.finish id = (some { req with state := .done },
      { s with decoding := s.decoding.eraseIdx idx, pool := s.pool.release req.reservation }) := by
  rw [finish]
  split
  · exact Or.inl rfl
  · next idx hidx =>
    split
    · exact Or.inl rfl
    · next req hreq => exact Or.inr ⟨idx, req, hreq, rfl⟩

@[simp] theorem config_step (s : Scheduler) (op : Op) : (s.step op).config = s.config := by
  cases op with
  | submit req =>
    rcases submit_cases s req with h | ⟨reservation, pool, -, h⟩
    · rw [step, h]
    · rw [step, h]
  | nextStep =>
    have hsteps := steps_nextStep s
    rw [step]
    generalize s.nextStep = out at hsteps ⊢
    cases hsteps with
    | _ => rfl
  | preempt =>
    rcases preempt_cases s with ⟨-, h⟩ | ⟨lanes, req, -, h⟩
    · rw [step, h]
    · rw [step, h]
  | finish id =>
    rcases finish_cases s id with h | ⟨idx, req, -, h⟩
    · rw [step, h]
    · rw [step, h]

/-! ### Progress -/

/-- The head of the queue prefills a chunk, and decodes after its last one. -/
def Progresses (s : Scheduler) : Prop :=
  ∀ head rest, s.pending = head :: rest → ∃ len, 0 < len ∧
    s.nextStep.1 = .prefillChunk head.id head.prefillPos len ∧
    (s.nextStep.2.pending = { started head with prefillPos := head.prefillPos + len } :: rest ∨
      s.nextStep.2.pending = rest ∧ s.nextStep.2.decoding = s.decoding ++
        [{ started head with prefillPos := head.prefillPos + len, state := .decoding }])

/-- After some steps the head decodes. -/
def Decodes (s : Scheduler) : Prop :=
  ∀ head rest, s.pending = head :: rest → ∃ n,
    ((fun s : Scheduler => s.nextStep.2)^[n] s).pending = rest ∧
    ((fun s : Scheduler => s.nextStep.2)^[n] s).decoding.map (·.id) =
      s.decoding.map (·.id) ++ [head.id]

/-- Every pending request has tokens to prefill. -/
def HasTokens (s : Scheduler) : Prop := ∀ req ∈ s.pending, req.prefillPos < req.promptTokens

/-- A request is submitted with tokens to prefill. -/
def SubmitsTokens : Op → Prop
  | .submit req => req.prefillPos < req.promptTokens
  | _ => True

/-- A step with tokens to prefill. -/
theorem nextStep_of_pending (hchunk : 0 < s.config.prefillChunk) (hs : HasTokens s)
    {head : Request} {rest : List Request} (hpending : s.pending = head :: rest) :
    ∃ len, 0 < len ∧ s.nextStep.1 = .prefillChunk head.id head.prefillPos len ∧
      (head.prefillPos + len < head.promptTokens ∧ s.nextStep.2 =
          { s with pending := { started head with prefillPos := head.prefillPos + len } :: rest } ∨
        s.nextStep.2 = { s with
          pending := rest
          decoding := s.decoding ++
            [{ started head with prefillPos := head.prefillPos + len, state := .decoding }] }) := by
  have hhead : head.prefillPos < head.promptTokens :=
    hs head (by rw [hpending]; exact List.mem_cons_self)
  have hsteps := steps_nextStep s
  generalize s.nextStep = out at hsteps
  cases hsteps with
  | chunk hreq hlen hmore =>
    obtain ⟨rfl, rfl⟩ := List.cons.inj (hpending.symm.trans hreq)
    exact ⟨_, by omega, rfl, Or.inl ⟨hmore, rfl⟩⟩
  | last hreq hlen hleft hlast =>
    obtain ⟨rfl, rfl⟩ := List.cons.inj (hpending.symm.trans hreq)
    exact ⟨_, by omega, rfl, Or.inr rfl⟩
  | round _ hstuck => exact absurd hhead (Nat.not_lt.mpr (hstuck head rest hpending))

/-- **Step.** -/
theorem HasTokens.step (hs : HasTokens s) {op : Op} (hop : SubmitsTokens op) :
    HasTokens (s.step op) := by
  cases op with
  | submit req =>
    rcases submit_cases s req with h | ⟨reservation, pool, -, h⟩
    · rw [Scheduler.step, h]
      exact hs
    · rw [Scheduler.step, h]
      intro req' hreq'
      rcases List.mem_append.mp hreq' with hmem | hmem
      · exact hs req' hmem
      · rw [List.mem_singleton.mp hmem]
        exact hop
  | nextStep =>
    rw [Scheduler.step]
    have hsteps := steps_nextStep s
    generalize s.nextStep = out at hsteps ⊢
    cases hsteps with
    | chunk hreq hlen hmore =>
      intro req' hreq'
      rcases List.mem_cons.mp hreq' with rfl | hmem
      · show _ < (started _).promptTokens
        rw [started_promptTokens]
        exact hmore
      · exact hs req' (by rw [hreq]; exact List.mem_cons_of_mem _ hmem)
    | last hreq hlen hleft hlast =>
      exact fun req' hreq' => hs req' (by rw [hreq]; exact List.mem_cons_of_mem _ hreq')
    | round hpending hstuck =>
      subst hpending
      cases hpend : s.pending with
      | nil =>
        exact fun req' hreq' => absurd hreq' List.not_mem_nil
      | cons req rest =>
        have hlt := hs req (by rw [hpend]; exact List.mem_cons_self)
        exact absurd hlt (Nat.not_lt.mpr (hstuck req rest hpend))
  | preempt =>
    rcases preempt_cases s with ⟨-, h⟩ | ⟨lanes, req, -, h⟩
    · rw [Scheduler.step, h]
      exact hs
    · rw [Scheduler.step, h]
      exact hs
  | finish id =>
    rcases finish_cases s id with h | ⟨idx, req, -, h⟩
    · rw [Scheduler.step, h]
      exact hs
    · rw [Scheduler.step, h]
      exact hs

theorem HasTokens.progresses (hchunk : 0 < s.config.prefillChunk) (hs : HasTokens s) :
    Progresses s := by
  intro head rest hpending
  obtain ⟨len, hlen, hout, ⟨-, hnext⟩ | hnext⟩ := nextStep_of_pending hchunk hs hpending
  · exact ⟨len, hlen, hout, Or.inl (by rw [hnext])⟩
  · exact ⟨len, hlen, hout, Or.inr (by rw [hnext]; exact ⟨rfl, rfl⟩)⟩

/-- The tokens that the head has left go down with every step. -/
theorem HasTokens.decodes (hchunk : 0 < s.config.prefillChunk) (hs : HasTokens s) : Decodes s := by
  intro head rest hpending
  generalize hleft : head.promptTokens - head.prefillPos = left
  induction left using Nat.strongRecOn generalizing s head with
  | ind left ih =>
    obtain ⟨len, hlen, -, ⟨hmore, hnext⟩ | hnext⟩ := nextStep_of_pending hchunk hs hpending
    · have hs' : HasTokens s.nextStep.2 :=
          HasTokens.step hs (show SubmitsTokens .nextStep from trivial)
      have hchunk' : 0 < s.nextStep.2.config.prefillChunk := by
        rw [hnext]
        exact hchunk
      have hsmaller : (started head).promptTokens - (head.prefillPos + len) < left := by
        rw [started_promptTokens]
        omega
      obtain ⟨n, hrest, hlanes⟩ := ih _ hsmaller hchunk' hs'
        { started head with prefillPos := head.prefillPos + len } (by rw [hnext]) rfl
      refine ⟨n + 1, hrest, hlanes.trans ?_⟩
      rw [hnext]
      show _ ++ [(started head).id] = _
      rw [started_id]
    · refine ⟨1, ?_, ?_⟩
      · show s.nextStep.2.pending = rest
        rw [hnext]
      · show s.nextStep.2.decoding.map (·.id) = _
        rw [hnext, List.map_append]
        show _ ++ [(started head).id] = _
        rw [started_id]

/-- **Progress.** If requests are submitted with tokens to prefill, the head of the queue prefills
at every step in every state of a run, and comes to decode. -/
theorem progress_run (config : SchedulerConfig) (pool : KvPool) (hchunk : 0 < config.prefillChunk)
    {ops : List Op} (hops : ∀ op ∈ ops, SubmitsTokens op) :
    Progresses (run step (new config pool) ops) ∧ Decodes (run step (new config pool) ops) := by
  have hstep (s : Scheduler) (op : Op)
      (hs : s.config = config ∧ HasTokens s) (hop : SubmitsTokens op) :
      (s.step op).config = config ∧ HasTokens (s.step op) :=
    ⟨(config_step s op).trans hs.1, hs.2.step hop⟩
  obtain ⟨hconfig, hs⟩ := inv_run hstep (s := new config pool) ⟨rfl, nofun⟩
    (along_of_forall hops)
  rw [← hconfig] at hchunk
  exact ⟨hs.progresses hchunk, hs.decodes hchunk⟩

theorem progress_run_second :
    let s := run step (new {} ⟨200000000, 0⟩) [.submit ⟨1, 100, 16, .pending, 0, 0⟩, .nextStep,
      .submit ⟨2, 5000, 16, .pending, 0, 0⟩, .preempt, .nextStep]
    s.pending.map (·.prefillPos) = [2048] ∧ Progresses s ∧ Decodes s :=
  ⟨by decide, progress_run _ _ (by decide) (by simp [SubmitsTokens])⟩

/-- **A preempted request** given back as it was returned blocks the queue. -/
theorem not_progresses_resubmitted :
    ∃ req, (run step (new {} ⟨200000000, 0⟩)
        [.submit ⟨1, 100, 16, .pending, 0, 0⟩, .nextStep]).preemptLowestPriority.1 = some req ∧
      ∀ n, let s := (fun s : Scheduler => s.nextStep.2)^[n] (run step (new {} ⟨200000000, 0⟩)
          [.submit ⟨1, 100, 16, .pending, 0, 0⟩, .nextStep, .preempt, .submit req])
        s.pending.map (·.id) = [1] ∧ s.nextStep.1 = .idle ∧ ¬ Progresses s := by
  refine ⟨⟨1, 100, 16, .decoding, 100, 14115840⟩, by decide, fun n => ?_⟩
  have hidle {s : Scheduler} (hids : s.pending.map (·.id) = [1]) (hout : s.nextStep.1 = .idle) :
      ¬ Progresses s := by
    intro hs
    obtain ⟨head, hpending, -⟩ := List.map_eq_singleton_iff.mp hids
    obtain ⟨len, -, hchunk, -⟩ := hs head [] hpending
    rw [hout] at hchunk
    exact absurd hchunk (by simp)
  generalize hs : run step (new {} ⟨200000000, 0⟩) [.submit ⟨1, 100, 16, .pending, 0, 0⟩,
    .nextStep, .preempt, .submit ⟨1, 100, 16, .decoding, 100, 14115840⟩] = s
  have hfirst : s.pending.map (·.id) = [1] ∧ s.nextStep.1 = .idle := by
    rw [← hs]
    decide
  have hnext : s.nextStep.2.pending.map (·.id) = [1] ∧ s.nextStep.2.nextStep.1 = .idle ∧
      s.nextStep.2.nextStep.2 = s.nextStep.2 := by
    rw [← hs]
    decide
  cases n with
  | zero => exact ⟨hfirst.1, hfirst.2, hidle hfirst.1 hfirst.2⟩
  | succ n =>
    rw [Function.iterate_succ_apply, Function.iterate_fixed hnext.2.2]
    exact ⟨hnext.1, hnext.2.1, hidle hnext.1 hnext.2.1⟩

/-! ### Accounting -/

/-- The bytes reserved for the requests. -/
def reserved (reqs : List Request) : ℕ := (reqs.map (·.reservation)).sum

@[simp] theorem reserved_nil : reserved [] = 0 := rfl

@[simp] theorem reserved_cons (req : Request) (reqs : List Request) :
    reserved (req :: reqs) = req.reservation + reserved reqs := rfl

@[simp] theorem reserved_append (reqs reqs' : List Request) :
    reserved (reqs ++ reqs') = reserved reqs + reserved reqs' := by
  rw [reserved, List.map_append, List.sum_append, reserved, reserved]

theorem reserved_eraseIdx {reqs : List Request} {idx : ℕ} {req : Request}
    (h : reqs[idx]? = some req) :
        req.reservation + reserved (reqs.eraseIdx idx) = reserved reqs := by
  induction reqs generalizing idx with
  | nil => exact absurd h (by simp)
  | cons head rest ih =>
    cases idx with
    | zero => rw [Option.some.inj h, List.eraseIdx_cons_zero, reserved_cons]
    | succ idx =>
      rw [List.eraseIdx_cons_succ, reserved_cons, reserved_cons, ← ih h]
      omega

/-- The pool's bytes are those of the requests, and fit it. -/
structure Accounted (s : Scheduler) : Prop where
  used : s.pool.used = reserved s.pending + reserved s.decoding
  le : s.pool.used ≤ s.pool.total

/-- The bytes of the pool and of a request stay a `u64`. -/
def FitsU64 (s : Scheduler) : Op → Prop
  | .submit req => s.pool.used +
    reservationBytes req.promptTokens req.maxTokens defaultAdmitReserve < 2 ^ 64
  | _ => True

/-- **Step.** -/
theorem Accounted.step (hs : Accounted s) {op : Op} (hop : FitsU64 s op) :
    Accounted (s.step op) ∧ (s.step op).pool.total = s.pool.total := by
  have hused := hs.used
  have hle := hs.le
  cases op with
  | submit req =>
    rcases submit_cases s req with h | ⟨reservation, pool, hadmit, h⟩
    · rw [Scheduler.step, h]
      exact ⟨hs, rfl⟩
    · obtain ⟨htotal, hpool, hfits⟩ := KvPool.admission_eq_some hadmit hop
      rw [Scheduler.step, h]
      refine ⟨⟨?_, by rw [htotal]; exact hfits⟩, htotal⟩
      show pool.used = reserved (s.pending ++ [_]) + reserved s.decoding
      rw [hpool, hused, reserved_append]
      show _ = _ + (reservation + 0) + _
      omega
  | nextStep =>
    rw [Scheduler.step]
    have hsteps := steps_nextStep s
    generalize s.nextStep = out at hsteps ⊢
    cases hsteps with
    | chunk hpending _ _ =>
      refine ⟨⟨?_, hle⟩, rfl⟩
      rw [hpending] at hused
      show _ = (started _).reservation + _ + _
      rw [started_reservation]
      exact hused
    | @last req rest _ hpending _ _ _ =>
      refine ⟨⟨?_, hle⟩, rfl⟩
      rw [hpending, reserved_cons] at hused
      show s.pool.used = reserved rest + reserved (s.decoding ++ [_])
      rw [reserved_append]
      show _ = _ + (_ + ((started _).reservation + 0))
      rw [started_reservation]
      omega
    | round hpending _ =>
      refine ⟨⟨?_, hle⟩, rfl⟩
      subst hpending
      show _ = reserved (s.pending.modifyHead started) + _
      cases hreqs : s.pending with
      | nil =>
        rw [hreqs] at hused
        exact hused
      | cons req rest =>
        rw [hreqs] at hused
        show _ = (started _).reservation + _ + _
        rw [started_reservation]
        exact hused
  | preempt =>
    rcases preempt_cases s with ⟨-, h⟩ | ⟨lanes, req, hlanes, h⟩
    · rw [Scheduler.step, h]
      exact ⟨hs, rfl⟩
    · rw [Scheduler.step, h]
      rw [hlanes, reserved_append, reserved_cons, reserved_nil] at hused
      refine ⟨⟨?_, Nat.le_trans (Nat.sub_le _ _) hle⟩, rfl⟩
      show s.pool.used - req.reservation = reserved s.pending + reserved lanes
      omega
  | finish id =>
    rcases finish_cases s id with h | ⟨idx, req, hreq, h⟩
    · rw [Scheduler.step, h]
      exact ⟨hs, rfl⟩
    · rw [Scheduler.step, h]
      have hsum := reserved_eraseIdx hreq
      refine ⟨⟨?_, Nat.le_trans (Nat.sub_le _ _) hle⟩, rfl⟩
      show s.pool.used - req.reservation = reserved s.pending + reserved (s.decoding.eraseIdx idx)
      omega

/-- **Accounting.** In every state of a run the bytes in use are the reservations of the pending and
the decoding requests, within the total. -/
theorem accounted_run (config : SchedulerConfig) (total : ℕ) {ops : List Op}
    (hops : Along step FitsU64 (new config { total := total }) ops) :
    let s := run step (new config { total := total }) ops
    s.pool.used = (s.pending.map (·.reservation)).sum + (s.decoding.map (·.reservation)).sum ∧
      s.pool.used ≤ s.pool.total ∧ s.pool.total = total := by
  have hstep (s : Scheduler) (op : Op)
      (hs : Accounted s ∧ s.pool.total = total) (hop : FitsU64 s op) :
      Accounted (s.step op) ∧ (s.step op).pool.total = total := by
    obtain ⟨hacc, htotal⟩ := hs.1.step hop
    exact ⟨hacc, htotal.trans hs.2⟩
  have hnew : Accounted (new config { total := total }) := ⟨rfl, Nat.zero_le _⟩
  obtain ⟨hacc, htotal⟩ := inv_run hstep ⟨hnew, rfl⟩ hops
  exact ⟨hacc.used, hacc.le, htotal⟩

theorem accounted_run_finish :
    let s := run step (new {} { total := 50000000 }) [.submit ⟨1, 100, 16, .pending, 0, 0⟩,
      .submit ⟨2, 100, 16, .pending, 0, 0⟩, .nextStep, .finish 1]
    s.pool.used = (s.pending.map (·.reservation)).sum + (s.decoding.map (·.reservation)).sum ∧
      s.pool.used ≤ s.pool.total ∧ s.pool.total = 50000000 :=
  accounted_run {} 50000000 ⟨show _ < _ by decide, show _ < _ by decide, trivial,
    trivial, trivial⟩

end Scheduler

end A4

end Coordinator

end Mimo26

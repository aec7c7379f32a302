import Mathlib.Data.List.Nodup
import Mimo26.Coordinator.SpecExact
import Mimo26.Coordinator.Streaming
import Mimo26.Library.Arrange

/-!
# The token budget

What the scheduler sends its clients over a run. A request's channel is written by `start` and by
the decode steps, of either kind; `Channels` keeps the log of what was sent, beside the scheduler's
state. Each job has a channel of its own, and the limit that `generate_inner` gives it.

## Main definitions

* `received` — the tokens of a step that reach a request's client
* `Channels`, `channelStep` — the scheduler with the log of its channels
* `Within`, `Running` — a client's tokens within the budget, and a running request's

## Main results

* `Running.emit` — the tokens of a step, handed out
* `InBudget.step`, `budget_run` — one step, and a whole run
-/

namespace Mimo26

namespace Coordinator

open Runs

variable {S : Type}

/-- The tokens of `out` that reach the client, until the request ends. -/
def received (t : Forward S) (a : Active S) : List ℕ → List ℕ
  | [] => []
  | next :: out =>
    let a := { a with last := next, generated := a.generated + 1, hist := a.hist ++ [next] }
    let got := if a.job.gone a.generated then [] else [next]
    if next ∈ t.eos ∨ a.job.max ≤ a.generated ∨ a.job.gone a.generated then got
    else got ++ received t a out

/-- The log of a step's tokens, each under its channel. -/
def logOf (t : Forward S) (outs : List (Active S × List ℕ × List ℕ)) : List (ℕ × ℕ) :=
  outs.flatMap fun (a, kv, out) => (received t { a with kv := kv } out).map fun next =>
    (a.job.tx, next)

/-- What an event sends. -/
def sends (t : Forward S) (s : Sched S) : SchedEvent S → List (ℕ × ℕ)
  | .start job => logOf t [(job.prefilled, job.ids, [t.pick job.sampling job.ids 0])]
  | .spec env =>
    let planned := s.active.map (plan t)
    match specStep t env (planned.map (·.2)) with
    | .ok outs => logOf t ((planned.map (·.1)).zip outs)
    | .error _ => []
  | .decode device => if device then logOf t (s.active.map fun a => (a, decodeOne t a)) else []
  | .cancel _ => []

/-- The scheduler, the jobs it has started, and the tokens sent on their channels. -/
structure Channels (S : Type) where
  sched : Sched S := {}
  started : List (Job S) := []
  log : List (ℕ × ℕ) := []

def startedBy : SchedEvent S → List (Job S)
  | .start job => [job]
  | _ => []

def channelStep (t : Forward S) (s : Channels S) (e : SchedEvent S) : Channels S where
  sched := schedStep t s.sched e
  started := s.started ++ startedBy e
  log := s.log ++ sends t s.sched e

/-- The tokens sent on a channel. -/
def sentOn (log : List (ℕ × ℕ)) (tx : ℕ) : List ℕ := (log.filter (·.1 = tx)).map (·.2)

/-- A job has a channel of its own and the limit of its request. -/
def Admits (s : Channels S) : SchedEvent S → Prop
  | .start job => (∀ job' ∈ s.started, job'.tx ≠ job.tx) ∧
    ∃ maxTokens, job.max = tokenLimit maxTokens
  | _ => True

/-- At most the limit, and nothing after an end token. -/
structure Within (t : Forward S) (job : Job S) (tokens : List ℕ) : Prop where
  le : tokens.length ≤ job.max
  noneAfter : ∀ next ∈ tokens.dropLast, next ∉ t.eos

/-- A request that goes on, having sent `tokens`. -/
structure Running (t : Forward S) (a : Active S) (tokens : List ℕ) : Prop where
  hist : a.hist = a.job.ids ++ tokens
  generated : a.generated = tokens.length
  budget : a.generated < a.job.max
  noEnd : ∀ next ∈ tokens, next ∉ t.eos

variable {t : Forward S}

theorem Running.within {a : Active S} {tokens : List ℕ} (h : Running t a tokens) :
    Within t a.job tokens where
  le := h.generated ▸ h.budget.le
  noneAfter next hnext := h.noEnd next (List.mem_of_mem_dropLast hnext)

/-- **The tokens of a step**, handed to a request. -/
theorem Running.emit {a : Active S} {tokens : List ℕ} (h : Running t a tokens) (out : List ℕ) :
    (Coordinator.emit t a out).1.job = a.job ∧ Within t a.job (tokens ++ received t a out) ∧
      ((Coordinator.emit t a out).2 = false →
        Running t (Coordinator.emit t a out).1 (tokens ++ received t a out) ∧
        a.generated + out.length = (Coordinator.emit t a out).1.generated) := by
  induction out generalizing a tokens with
  | nil =>
    rw [received, List.append_nil]
    exact ⟨rfl, h.within, fun _ => ⟨h, rfl⟩⟩
  | cons next out ih =>
    rw [Coordinator.emit, received]
    dsimp only
    split
    · next hend =>
      refine ⟨rfl, ?_, fun h => by cases h⟩
      split
      · rw [List.append_nil]
        exact h.within
      · refine ⟨?_, fun x hx => ?_⟩
        · rw [List.length_append, List.length_singleton, ← h.generated]
          exact h.budget
        · rw [List.dropLast_concat] at hx
          exact h.noEnd x hx
    · next hgo =>
      rw [not_or, not_or] at hgo
      obtain ⟨heos, hmax, hgone⟩ := hgo
      rw [if_neg hgone, ← List.append_assoc]
      have hrun : Running t { a with last := next, generated := a.generated + 1, hist :=
          a.hist ++ [next] }
          (tokens ++ [next]) := by
        refine ⟨?_, ?_, Nat.not_le.mp hmax, fun x hx => ?_⟩
        · show a.hist ++ [next] = a.job.ids ++ (tokens ++ [next])
          rw [h.hist, List.append_assoc]
        · show a.generated + 1 = _
          rw [List.length_append, List.length_singleton, h.generated]
        · rcases List.mem_append.mp hx with hmem | hmem
          · exact h.noEnd x hmem
          · rwa [List.mem_singleton.mp hmem]
      obtain ⟨hjob, hwithin, hrest⟩ := ih hrun
      refine ⟨hjob, hwithin, fun hd => ⟨(hrest hd).1, ?_⟩⟩
      rw [← (hrest hd).2, List.length_cons]
      show a.generated + (out.length + 1) = a.generated + 1 + out.length
      omega

/-! ### Logs -/

theorem sentOn_append (log log' : List (ℕ × ℕ)) (tx : ℕ) :
    sentOn (log ++ log') tx = sentOn log tx ++ sentOn log' tx := by
  rw [sentOn, List.filter_append, List.map_append]
  rfl

theorem sentOn_map (tx' : ℕ) (tokens : List ℕ) (tx : ℕ) :
    sentOn (tokens.map fun next => (tx', next)) tx = if tx' = tx then tokens else [] := by
  rw [sentOn, List.filter_map, List.map_map]
  split
  · next h => simp [Function.comp_def, h]
  · next h => simp [Function.comp_def, h]

theorem sentOn_logOf (outs : List (Active S × List ℕ × List ℕ)) (tx : ℕ) :
    sentOn (logOf t outs) tx =
    outs.flatMap fun y => if y.1.job.tx = tx then received t { y.1 with kv := y.2.1 } y.2.2 else
        [] := by
  induction outs with
  | nil => rfl
  | cons y outs ih =>
    rw [logOf, List.flatMap_cons, sentOn_append, sentOn_map, List.flatMap_cons, ← ih]
    rfl

theorem sentOn_logOf_mem {outs : List (Active S × List ℕ × List ℕ)}
    (hnodup : (outs.map (·.1.job.tx)).Nodup)
    {y : Active S × List ℕ × List ℕ} (hy : y ∈ outs) :
    sentOn (logOf t outs) y.1.job.tx = received t { y.1 with kv := y.2.1 } y.2.2 := by
  rw [sentOn_logOf]
  exact Arrange.flatMap_ite_of_nodup (g := fun y : Active S × List ℕ × List ℕ => y.1.job.tx) hnodup
    hy _

theorem sentOn_logOf_of_ne {outs : List (Active S × List ℕ × List ℕ)} {tx : ℕ}
    (h : ∀ y ∈ outs, y.1.job.tx ≠ tx) : sentOn (logOf t outs) tx = [] := by
  rw [sentOn_logOf]
  exact Arrange.flatMap_ite_of_ne (g := fun y : Active S × List ℕ × List ℕ => y.1.job.tx) h _

theorem exists_of_mem_logOf {outs : List (Active S × List ℕ × List ℕ)} {entry : ℕ × ℕ}
    (h : entry ∈ logOf t outs) : ∃ y ∈ outs, y.1.job.tx = entry.1 := by
  obtain ⟨y, hy, hmem⟩ := List.mem_flatMap.mp h
  obtain ⟨next, -, rfl⟩ := List.mem_map.mp hmem
  exact ⟨y, hy, rfl⟩

/-! ### Runs -/

/-- Every client within its budget, and every active request short of it. -/
structure InBudget (t : Forward S) (s : Channels S) : Prop where
  channels : (s.started.map (·.tx)).Nodup
  active : ∀ a ∈ s.sched.active, a.job ∈ s.started ∧ 0 < a.generated ∧
    Running t a (sentOn s.log a.job.tx)
  own : (s.sched.active.map (·.job.tx)).Nodup
  within : ∀ job ∈ s.started, Within t job (sentOn s.log job.tx)
  logged : ∀ entry ∈ s.log, ∃ job ∈ s.started, job.tx = entry.1

/-- The requests that go on are some of those handed tokens. -/
theorem channels_deliverTokens {outs : List (Active S × List ℕ × List ℕ)}
    (retired : List (Active S))
    (h : ∀ y ∈ outs, (Coordinator.emit t { y.1 with kv := y.2.1 } y.2.2).1.job = y.1.job) :
    ((deliverTokens t outs retired).active.map (·.job.tx)).Sublist (outs.map (·.1.job.tx)) := by
  have hall : (outs.map fun y => Coordinator.emit t { y.1 with kv := y.2.1 } y.2.2).map
      (·.1.job.tx) =
      outs.map (·.1.job.tx) := by
    rw [List.map_map]
    exact List.map_congr_left fun y hy => by rw [Function.comp_apply, h y hy]
  rw [← hall, deliverTokens, List.map_map]
  exact List.filter_sublist.map _

/-- **Tokens handed out** to some requests, while the others wait. -/
theorem inBudget_deliver {s s' : Channels S} (rest : List (Active S))
    {outs : List (Active S × List ℕ × List ℕ)}
    (hchannels : (s'.started.map (·.tx)).Nodup)
    (hwithin : ∀ job ∈ s'.started, Within t job (sentOn s.log job.tx))
    (hlogged : ∀ entry ∈ s.log, ∃ job ∈ s'.started, job.tx = entry.1)
    (hrest : ∀ a ∈ rest, a.job ∈ s'.started ∧ 0 < a.generated ∧ Running t a (sentOn s.log a.job.tx))
    (houts : ∀ y ∈ outs, y.1.job ∈ s'.started ∧ 0 < y.1.generated + y.2.2.length ∧
      Running t y.1 (sentOn s.log y.1.job.tx))
    (hown : (rest.map (·.job.tx) ++ outs.map (·.1.job.tx)).Nodup)
    (hlog : s'.log = s.log ++ logOf t outs)
    (hactive : s'.sched.active = rest ++ (deliverTokens t outs s.sched.retired).active) :
        InBudget t s' := by
  obtain ⟨hnodupRest, hnodup, hapart⟩ := List.nodup_append.mp hown
  have hrun {y : Active S × List ℕ × List ℕ} (hy : y ∈ outs) :
      Running t { y.1 with kv := y.2.1 } (sentOn s.log y.1.job.tx) := by
    obtain ⟨-, -, h⟩ := houts y hy
    exact ⟨h.hist, h.generated, h.budget, h.noEnd⟩
  have hsent {y : Active S × List ℕ × List ℕ} (hy : y ∈ outs) : sentOn s'.log y.1.job.tx =
      sentOn s.log y.1.job.tx ++ received t { y.1 with kv := y.2.1 } y.2.2 := by
    rw [hlog, sentOn_append, sentOn_logOf_mem hnodup hy]
  have hkept {tx : ℕ} (h : ∀ y ∈ outs, y.1.job.tx ≠ tx) : sentOn s'.log tx = sentOn s.log tx := by
    rw [hlog, sentOn_append, sentOn_logOf_of_ne h, List.append_nil]
  -- the requests that go on
  have hends : ∀ a ∈ (deliverTokens t outs s.sched.retired).active, ∃ y ∈ outs,
      (Coordinator.emit t { y.1 with kv := y.2.1 } y.2.2) = (a, false) ∧ a.job = y.1.job := by
    intro a ha
    obtain ⟨r, hr, rfl⟩ := List.mem_map.mp ha
    obtain ⟨hmem, hd⟩ := List.mem_filter.mp hr
    obtain ⟨y, hy, rfl⟩ := List.mem_map.mp hmem
    refine ⟨y, hy, Prod.ext rfl (by simpa using hd), ?_⟩
    exact ((hrun hy).emit y.2.2).1
  refine ⟨hchannels, fun a ha => ?_, ?_, fun job hjob => ?_, fun entry hentry => ?_⟩
  · rw [hactive] at ha
    rcases List.mem_append.mp ha with hmem | hmem
    · obtain ⟨hjob, hpos, hrunning⟩ := hrest a hmem
      rw [hkept fun y hy heq =>
        hapart _ (List.mem_map_of_mem hmem) _ (List.mem_map_of_mem hy) heq.symm]
      exact ⟨hjob, hpos, hrunning⟩
    · obtain ⟨y, hy, hemit, hjob⟩ := hends a hmem
      obtain ⟨hin, hpos, -⟩ := houts y hy
      obtain ⟨-, -, hgo⟩ := (hrun hy).emit y.2.2
      rw [hemit] at hgo
      obtain ⟨hrunning, hgenerated⟩ := hgo rfl
      rw [hjob, hsent hy]
      exact ⟨hin, hgenerated ▸ hpos, hrunning⟩
  · rw [hactive, List.map_append]
    have hsub := channels_deliverTokens (t := t) s.sched.retired fun y hy =>
        ((hrun hy).emit y.2.2).1
    refine List.nodup_append.mpr ⟨hnodupRest, hnodup.sublist hsub, fun tx htx tx' htx' => ?_⟩
    exact hapart tx htx tx' (hsub.subset htx')
  · by_cases hserved : ∃ y ∈ outs, y.1.job.tx = job.tx
    · obtain ⟨y, hy, htx⟩ := hserved
      obtain ⟨hin, -, -⟩ := houts y hy
      obtain rfl : y.1.job = job := List.inj_on_of_nodup_map hchannels hin hjob htx
      rw [hsent hy]
      exact ((hrun hy).emit y.2.2).2.1
    · rw [hkept fun y hy heq => hserved ⟨y, hy, heq⟩]
      exact hwithin job hjob
  · rw [hlog] at hentry
    rcases List.mem_append.mp hentry with hmem | hmem
    · exact hlogged entry hmem
    · obtain ⟨y, hy, htx⟩ := exists_of_mem_logOf hmem
      exact ⟨y.1.job, (houts y hy).1, htx⟩

theorem inBudget_empty : InBudget t ({} : Channels S) where
  channels := List.nodup_nil
  active := nofun
  own := List.nodup_nil
  within := nofun
  logged := nofun

/-- Requests that end without a token. -/
theorem InBudget.subperm {s : Channels S} (h : InBudget t s) {sched : Sched S}
    (hsub : sched.active.Subperm s.sched.active) :
    InBudget t { sched := sched, started := s.started ++ [], log := s.log ++ [] } := by
  rw [List.append_nil, List.append_nil]
  constructor
  · exact h.channels
  · intro a ha
    exact h.active a (hsub.subset ha)
  · obtain ⟨kept, hperm, hkept⟩ := hsub
    exact (hperm.map _).nodup_iff.mp (h.own.sublist (hkept.map _))
  · exact h.within
  · exact h.logged

/-- Tokens handed to every active request. -/
theorem InBudget.deliver {s : Channels S} (h : InBudget t s)
    {outs : List (Active S × List ℕ × List ℕ)}
    (houts : ∀ y ∈ outs, 0 < y.1.generated + y.2.2.length ∧
      ∃ a ∈ s.sched.active, y.1 = { a with copy := y.1.copy })
    (hown : (outs.map (·.1.job.tx)).Sublist (s.sched.active.map (·.job.tx))) :
    InBudget t { sched := deliverTokens t outs s.sched.retired, started := s.started ++ []
                 log := s.log ++ logOf t outs } := by
  rw [List.append_nil]
  refine inBudget_deliver [] h.channels h.within h.logged nofun (fun y hy => ?_) ?_ rfl rfl
  · obtain ⟨hpos, a, ha, hcopy⟩ := houts y hy
    obtain ⟨hjob, -, hrun⟩ := h.active a ha
    have hyjob : y.1.job = a.job := by rw [hcopy]
    rw [hyjob]
    refine ⟨hjob, hpos, ?_⟩
    rw [hcopy]
    exact ⟨hrun.hist, hrun.generated, hrun.budget, hrun.noEnd⟩
  · exact h.own.sublist hown

/-- The first token of a job on a channel of its own. -/
theorem InBudget.start {s : Channels S} (h : InBudget t s) {job : Job S}
    (hfresh : ∀ job' ∈ s.started, job'.tx ≠ job.tx) (hmax : 0 < job.max) :
    InBudget t (channelStep t s (.start job)) := by
  have hnone : sentOn s.log job.tx = [] := by
    rw [sentOn, List.map_eq_nil_iff, List.filter_eq_nil_iff]
    intro entry hentry
    obtain ⟨job', hjob', htx⟩ := h.logged entry hentry
    simpa [← htx] using hfresh job' hjob'
  have hrun : Running t job.prefilled (sentOn s.log job.tx) := by
    rw [hnone]
    exact ⟨(List.append_nil _).symm, rfl, hmax, nofun⟩
  have hin {job' : Job S} (hjob' : job' ∈ s.started) : job' ∈ s.started ++ [job] :=
    List.mem_append_left _ hjob'
  refine @inBudget_deliver _ _ s _ s.sched.active
    [(job.prefilled, job.ids, [t.pick job.sampling job.ids 0])]
    ?_ ?_ ?_ ?_ ?_ ?_ rfl ?_
  · show ((s.started ++ [job]).map (·.tx)).Nodup
    rw [List.map_append, List.map_singleton, List.nodup_append]
    refine ⟨h.channels, List.nodup_singleton _, fun tx htx tx' htx' => ?_⟩
    obtain ⟨job', hjob', rfl⟩ := List.mem_map.mp htx
    rw [List.mem_singleton.mp htx']
    exact hfresh job' hjob'
  · intro job' hjob'
    rcases List.mem_append.mp hjob' with hmem | hmem
    · exact h.within job' hmem
    · rw [List.mem_singleton.mp hmem]
      exact hrun.within
  · intro entry hentry
    obtain ⟨job', hjob', htx⟩ := h.logged entry hentry
    exact ⟨job', hin hjob', htx⟩
  · intro a ha
    obtain ⟨hjob, hpos, hgo⟩ := h.active a ha
    exact ⟨hin hjob, hpos, hgo⟩
  · intro y hy
    rw [List.mem_singleton.mp hy]
    exact ⟨List.mem_append_right _ (List.mem_singleton_self job), Nat.one_pos, hrun⟩
  · refine List.nodup_append.mpr ⟨h.own, List.nodup_singleton _, fun tx htx tx' htx' => ?_⟩
    obtain ⟨a, ha, rfl⟩ := List.mem_map.mp htx
    rw [List.mem_singleton.mp htx']
    exact hfresh a.job (h.active a ha).1
  · rw [channelStep, schedStep, deliverTokens]
    dsimp only
    have hkv : { job.prefilled with kv := job.ids } = job.prefilled := rfl
    rw [List.map_singleton]
    dsimp only
    rw [hkv]
    cases hd : (emit t job.prefilled [t.pick job.sampling job.ids 0]).2 with
    | true => simp [hd]
    | false => simp [hd]

/-- **Step.** -/
theorem InBudget.step {s : Channels S} (h : InBudget t s) {e : SchedEvent S} (he : Admits s e) :
    InBudget t (channelStep t s e) := by
  cases e with
  | start job =>
    obtain ⟨hfresh, maxTokens, hmax⟩ := he
    refine h.start hfresh ?_
    rw [hmax]
    exact Nat.lt_of_lt_of_le Nat.one_pos (le_max_right _ _)
  | spec env =>
    rw [channelStep, schedStep, sends]
    cases specStep t env ((s.sched.active.map (plan t)).map (·.2)) with
    | error _ => exact h.subperm List.nil_subperm
    | ok outs =>
      refine h.deliver (fun y hy => ?_) ?_
      · obtain ⟨a, ha, haplan⟩ := List.mem_map.mp (List.of_mem_zip hy).1
        obtain ⟨p, hp, rfl⟩ := List.mem_map.mp ha
        have hfst := plan_fst t p
        rw [← haplan]
        refine ⟨?_, p, hp, hfst⟩
        rw [hfst]
        exact Nat.add_pos_left (h.active p hp).2.1 _
      · have hkept : ((s.sched.active.map (plan t)).map (·.1)).map (·.job.tx) =
            s.sched.active.map (·.job.tx) := by
          rw [List.map_map, List.map_map]
          exact List.map_congr_left fun a
            _ => by rw [Function.comp_apply, Function.comp_apply, plan_fst]
        rw [← hkept]
        exact Arrange.map_zip_sublist (fun a : Active S => a.job.tx) _ _
  | decode device =>
    rw [channelStep, schedStep, sends]
    split
    · refine h.deliver (fun y hy => ?_) ?_
      · obtain ⟨a, ha, rfl⟩ := List.mem_map.mp hy
        exact ⟨Nat.succ_pos _, a, ha, rfl⟩
      · rw [List.map_map]
        exact List.Sublist.refl _
    · exact h.subperm List.nil_subperm
  | cancel i =>
    refine h.subperm ?_
    show (if i < s.sched.active.length then Vec.swapRemove s.sched.active i else
        s.sched.active).Subperm _
    split
    · next hlt => exact Vec.subperm_swapRemove hlt
    · exact List.Subperm.refl _

/-- **Run.** Whatever the steps, an active request has been sent at least one token and fewer than
its limit, and its history is its prompt and these tokens; no request is ever sent more than its
limit, or anything after an end token. -/
theorem budget_run (t : Forward S) {events : List (SchedEvent S)}
    (h : Along (channelStep t) Admits {} events) :
    let s := run (channelStep t) {} events
    (∀ a ∈ s.sched.active, 1 ≤ a.generated ∧ a.generated < a.job.max ∧
      (sentOn s.log a.job.tx).length = a.generated ∧ a.hist = a.job.ids ++ sentOn s.log a.job.tx ∧
      ∀ next ∈ sentOn s.log a.job.tx, next ∉ t.eos) ∧
    ∀ job ∈ s.started, (sentOn s.log job.tx).length ≤ job.max ∧
      ∀ next ∈ (sentOn s.log job.tx).dropLast, next ∉ t.eos := by
  have hinv := inv_run (fun s e h he => h.step he) inBudget_empty h
  refine ⟨fun a ha => ?_, fun job hjob =>
    ⟨(hinv.within job hjob).le, (hinv.within job hjob).noneAfter⟩⟩
  obtain ⟨-, hpos, hrun⟩ := hinv.active a ha
  exact ⟨hpos, hrun.budget, hrun.generated.symm, hrun.hist, hrun.noEnd⟩

/-- A forward that counts, with 9 as its end. -/
def countForward : Forward Unit where
  vocab := 10
  vocab_pos := by decide
  maxChunk := 64
  pipelined := true
  verifyLanes := 2
  copyOn := false
  eos := [9]
  argmax := fun ctx => (ctx.getLastD 0 + 1) % 10
  draw := fun _ _ _ => 0

/-- A prompt of one token. -/
def countJob (tx id maxTokens : ℕ) : Job Unit where
  ids := [id]
  max := tokenLimit maxTokens
  sampling := none
  tx := tx
  gone := fun _ => false

/-- A step that ends one request at its limit, one at the end token, and goes on with a third. -/
def countEnv : StepEnv where
  drafts := fun i => ([[4, 5, 6, 7], [8, 9, 0, 1], [5, 5, 5, 5]] : List (List ℕ)).getD i []
  policy := fun _ => 3

theorem budget_run_count :
    let s := run (channelStep countForward) {} [.start (countJob 0 2 4), .start (countJob 1 6 20),
      .start (countJob 2 0 20), .spec countEnv, .decode true]
    (s.started.map fun job => sentOn s.log job.tx) = [[3, 4, 5, 6], [7, 8, 9], [1, 2, 3]] ∧
    s.sched.active.map (·.job.tx) = [2] ∧
    (∀ a ∈ s.sched.active, 1 ≤ a.generated ∧ a.generated < a.job.max ∧
      (sentOn s.log a.job.tx).length = a.generated ∧ a.hist = a.job.ids ++ sentOn s.log a.job.tx ∧
      ∀ next ∈ sentOn s.log a.job.tx, next ∉ countForward.eos) ∧
    ∀ job ∈ s.started, (sentOn s.log job.tx).length ≤ job.max ∧
      ∀ next ∈ (sentOn s.log job.tx).dropLast, next ∉ countForward.eos := by
  refine ⟨by decide, by decide, budget_run countForward ?_⟩
  exact ⟨⟨nofun, 4, rfl⟩, ⟨by decide, 20, rfl⟩, ⟨by decide, 20, rfl⟩, trivial, trivial, trivial⟩

end Coordinator

end Mimo26

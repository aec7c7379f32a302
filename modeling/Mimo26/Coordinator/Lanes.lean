import Mimo26.Coordinator.Scheduler

/-!
# The decode lanes of the scheduler

A request over the threshold should decode alone, and a round should be within the limit. The
scheduler puts a request in a lane when its last chunk is prefilled, and does not look at the lanes
there are; the contexts grow while they decode.

## Main definitions

* `Lanes`, `LaneOp` — the scheduler with the tokens that its lanes have decoded
* `LanesOk`, `RoundOk` — the rule, for the lanes and for a round
* `InLane` — the steps that keep to it

## Main results

* `lanesOk_run` — the lanes keep to the rule exactly when the steps do, and so do the rounds
-/

namespace Mimo26

namespace Coordinator

namespace A4

open Runs

namespace Scheduler

variable {s : Scheduler}

/-- The scheduler, and how many tokens each lane has decoded. -/
structure Lanes where
  sched : Scheduler
  grown : List ℕ := []

/-- An operation, or a lane decodes `n` more tokens. -/
inductive LaneOp where
  | op (op : Op)
  | grow (i n : ℕ)

/-- The contexts of the lanes. -/
def Lanes.contexts (l : Lanes) : List ℕ :=
  List.zipWith (fun req grown => req.promptTokens + grown) l.sched.decoding l.grown

def Lanes.step (l : Lanes) : LaneOp → Lanes
  | .op op => {
      sched := l.sched.step op
      grown := match op with
        | .submit _ => l.grown
        | .nextStep => l.grown ++
          List.replicate ((l.sched.step op).decoding.length - l.sched.decoding.length) 0
        | .preempt => l.grown.dropLast
        | .finish id => match l.sched.decoding.findIdx? (·.id = id) with
          | some idx => l.grown.eraseIdx idx
          | none => l.grown }
  | .grow i n => { l with grown := l.grown.modify i (· + n) }

/-- The lanes are within the limit, and one with a long context is alone. -/
structure LanesOk (l : Lanes) : Prop where
  le : l.sched.decoding.length ≤ l.sched.config.maxConcurrency
  alone : ∀ ctx ∈ l.contexts, l.sched.config.longContextThreshold < ctx →
    l.sched.decoding.length = 1

/-- The head of the queue has its last chunk before it. -/
def Comes (s : Scheduler) (head : Request) : Prop :=
  s.pending.head? = some head ∧ head.prefillPos < head.promptTokens ∧
    head.promptTokens ≤ head.prefillPos + s.config.prefillChunk

/-- A request comes to decode when there is room, to no lane or with no long context among them, and
a context grows over the threshold when it is alone. -/
def InLane (l : Lanes) : LaneOp → Prop
  | .op .nextStep => ∀ head, Comes l.sched head →
      l.sched.decoding.length < l.sched.config.maxConcurrency ∧
      (l.sched.decoding = [] ∨ head.promptTokens ≤ l.sched.config.longContextThreshold ∧
        ∀ ctx ∈ l.contexts, ctx ≤ l.sched.config.longContextThreshold)
  | .op _ => True
  | .grow i n => ∀ ctx, l.contexts[i]? = some ctx →
    l.sched.config.longContextThreshold < ctx + n → l.sched.decoding.length = 1

/-- The lanes and their growth go together. -/
def Lanes.Paired (l : Lanes) : Prop := l.grown.length = l.sched.decoding.length

/-- What comes to decode at a step. -/
theorem decoding_nextStep (s : Scheduler) :
    (∀ head, ¬ Comes s head) ∧ s.nextStep.2.decoding = s.decoding ∨
    ∃ head req, Comes s head ∧ req.promptTokens = head.promptTokens ∧
      s.nextStep.2.decoding = s.decoding ++ [req] := by
  have hsteps := steps_nextStep s
  generalize s.nextStep = out at hsteps ⊢
  cases hsteps with
  | @chunk req rest len hpending hlen hmore =>
    refine Or.inl ⟨fun head hcomes => ?_, rfl⟩
    obtain ⟨hhead, hleft, hlast⟩ := hcomes
    rw [hpending] at hhead
    obtain rfl := Option.some.inj hhead
    omega
  | @last head rest len hpending hlen hleft hlast =>
    refine Or.inr ⟨head,
      { started head with prefillPos := head.prefillPos + len, state := .decoding },
      ⟨by rw [hpending]; rfl, hleft, by omega⟩, ?_, rfl⟩
    exact started_promptTokens head
  | @round pending hpending hstuck =>
    refine Or.inl ⟨fun head hcomes => ?_, rfl⟩
    obtain ⟨rest, hrest⟩ := List.head?_eq_some_iff.mp hcomes.1
    exact absurd hcomes.2.1 (Nat.not_lt.mpr (hstuck head rest hrest))

/-- A request that comes to decode. -/
theorem contexts_push {l l' : Lanes} (hl : l.Paired) {req : Request}
    (hlanes : l'.sched.decoding = l.sched.decoding ++ [req]) (hgrown : l'.grown = l.grown ++ [0]) :
    l'.Paired ∧ l'.contexts = l.contexts ++ [req.promptTokens] := by
  constructor
  · rw [Lanes.Paired, hlanes, hgrown, List.length_append, List.length_append, hl]
    rfl
  · rw [Lanes.contexts, hlanes, hgrown, List.zipWith_append hl.symm]
    rfl

theorem step_finish {l : Lanes} (id : ℕ) :
    l.step (.op (.finish id)) = l ∨ ∃ idx < l.sched.decoding.length,
      (l.step (.op (.finish id))).sched.decoding = l.sched.decoding.eraseIdx idx ∧
      (l.step (.op (.finish id))).grown = l.grown.eraseIdx idx := by
  rw [Lanes.step, Scheduler.step, finish]
  cases hidx : l.sched.decoding.findIdx? (·.id = id) with
  | none => exact Or.inl rfl
  | some idx =>
    have hlt : idx < l.sched.decoding.length := by
      obtain ⟨hlt, -⟩ := List.findIdx?_eq_some_iff_getElem.mp hidx
      exact hlt
    dsimp only
    rw [List.getElem?_eq_getElem hlt]
    exact Or.inr ⟨idx, hlt, rfl, rfl⟩

/-- Lanes that go keep the rule. -/
theorem LanesOk.sublist {l l' : Lanes} (hl : LanesOk l)
    (hconfig : l'.sched.config = l.sched.config)
    (hlen : l'.sched.decoding.length + 1 = l.sched.decoding.length)
    (hcontexts : l'.contexts.Sublist l.contexts) : LanesOk l' := by
  constructor
  · rw [hconfig]
    exact Nat.le_trans (by omega) hl.le
  · intro ctx hctx hlong
    rw [hconfig] at hlong
    have hone := hl.alone ctx (hcontexts.subset hctx) hlong
    -- a lane that was alone is gone
    have hnone : l'.sched.decoding = [] := List.eq_nil_of_length_eq_zero (by omega)
    rw [Lanes.contexts, hnone] at hctx
    exact absurd hctx List.not_mem_nil

theorem LanesOk.congr {l l' : Lanes} (hl : LanesOk l) (hconfig : l'.sched.config = l.sched.config)
    (hlanes : l'.sched.decoding = l.sched.decoding) (hgrown : l'.grown = l.grown) :
    LanesOk l' := by
  constructor
  · rw [hconfig, hlanes]
    exact hl.le
  · rw [hconfig, Lanes.contexts, hlanes, hgrown]
    exact hl.alone

theorem contexts_grow (l : Lanes) (i n : ℕ) :
    (l.step (.grow i n)).contexts = l.contexts.modify i (· + n) := by
  refine List.ext_getElem? fun j => ?_
  show (List.zipWith _ l.sched.decoding (l.grown.modify i (· + n)))[j]? = _
  rw [Lanes.contexts, List.getElem?_zipWith, List.getElem?_modify, List.getElem?_modify,
    List.getElem?_zipWith]
  cases l.sched.decoding[j]? with
  | none => simp
  | some req =>
    cases l.grown[j]? with
    | none => simp
    | some g =>
      by_cases hij : i = j
      · simp [hij, Nat.add_assoc]
      · simp [hij]

/-- A lane goes. -/
theorem contexts_eraseIdx {l l' : Lanes} (hl : l.Paired) {idx : ℕ}
    (hidx : idx < l.sched.decoding.length)
    (hlanes : l'.sched.decoding = l.sched.decoding.eraseIdx idx)
    (hgrown : l'.grown = l.grown.eraseIdx idx) :
    l'.Paired ∧ l'.contexts.Sublist l.contexts ∧
      l'.sched.decoding.length + 1 = l.sched.decoding.length := by
  have hidx' : idx < l.grown.length := by rw [hl]; exact hidx
  refine ⟨?_, ?_, ?_⟩
  · rw [Lanes.Paired, hlanes, hgrown, List.length_eraseIdx_of_lt hidx,
      List.length_eraseIdx_of_lt hidx', hl]
  · have herase : l'.contexts = l.contexts.eraseIdx idx := by
      rw [Lanes.contexts, Lanes.contexts, hlanes, hgrown, List.eraseIdx_eq_take_drop_succ,
        List.eraseIdx_eq_take_drop_succ, List.eraseIdx_eq_take_drop_succ, List.take_zipWith,
        List.drop_zipWith, List.zipWith_append]
      rw [List.length_take, List.length_take, hl]
    rw [herase]
    exact List.eraseIdx_sublist _ _
  · rw [hlanes, List.length_eraseIdx_of_lt hidx]
    omega

/-- What an operation does to the lanes, except for a step. -/
theorem lanes_op {l : Lanes} (hl : l.Paired) {op : Op} (hop : op ≠ .nextStep) :
    (l.step (.op op)).Paired ∧ (LanesOk l → LanesOk (l.step (.op op))) := by
  have hconfig : (l.step (.op op)).sched.config = l.sched.config := config_step l.sched op
  cases op with
  | nextStep => exact absurd rfl hop
  | submit req =>
    have hlanes : (l.step (.op (.submit req))).sched.decoding = l.sched.decoding := by
      rw [Lanes.step, Scheduler.step]
      rcases submit_cases l.sched req with h | ⟨reservation, pool, -, h⟩
      · rw [h]
      · rw [h]
    exact ⟨hl.trans (by rw [hlanes]), fun hok => hok.congr hconfig hlanes rfl⟩
  | preempt =>
    rcases preempt_cases l.sched with ⟨hnil, h⟩ | ⟨lanes, req, hlanes, h⟩
    · have hsched : (l.step (.op .preempt)).sched = l.sched := by
        rw [Lanes.step, Scheduler.step, h]
      have hgrown : l.grown = [] := List.eq_nil_of_length_eq_zero (by rw [hl, hnil]; rfl)
      have hgrown' : (l.step (.op .preempt)).grown = l.grown := by
        show l.grown.dropLast = l.grown
        rw [hgrown]
        rfl
      refine ⟨?_, fun hok => hok.congr hconfig (by rw [hsched]) hgrown'⟩
      rw [Lanes.Paired, hsched, hgrown']
      exact hl
    · have hlast : l.sched.decoding.eraseIdx lanes.length = lanes := by
        rw [hlanes]
        simp [List.eraseIdx_append]
      have hsched : (l.step (.op .preempt)).sched.decoding =
          l.sched.decoding.eraseIdx lanes.length := by
        rw [hlast, Lanes.step, Scheduler.step, h]
      have hlen : l.grown.length = lanes.length + 1 := by
        rw [hl, hlanes, List.length_append]
        rfl
      have hgrown : (l.step (.op .preempt)).grown = l.grown.eraseIdx lanes.length := by
        show l.grown.dropLast = _
        rw [List.eraseIdx_eq_take_drop_succ, ← hlen, List.drop_length, List.append_nil,
          List.dropLast_eq_take, hlen]
        rfl
      obtain ⟨hpaired, hcontexts, hlength⟩ :=
        contexts_eraseIdx hl (by rw [hlanes, List.length_append]; exact Nat.lt_succ_self _)
          hsched hgrown
      exact ⟨hpaired, fun hok => hok.sublist hconfig hlength hcontexts⟩
  | finish id =>
    rcases step_finish (l := l) id with h | ⟨idx, hidx, hlanes, hgrown⟩
    · rw [h]
      exact ⟨hl, fun hok => hok⟩
    · obtain ⟨hpaired, hcontexts, hlength⟩ := contexts_eraseIdx hl hidx hlanes hgrown
      exact ⟨hpaired, fun hok => hok.sublist hconfig hlength hcontexts⟩

/-- What a step does to the lanes. -/
theorem lanes_nextStep {l : Lanes} (hl : l.Paired) :
    (∀ head, ¬ Comes l.sched head) ∧ (l.step (.op .nextStep)).sched.decoding = l.sched.decoding ∧
      (l.step (.op .nextStep)).grown = l.grown ∨
    ∃ head, Comes l.sched head ∧ (l.step (.op .nextStep)).Paired ∧
      (l.step (.op .nextStep)).sched.decoding.length = l.sched.decoding.length + 1 ∧
      (l.step (.op .nextStep)).contexts = l.contexts ++ [head.promptTokens] := by
  have hgrown : (l.step (.op .nextStep)).grown = l.grown ++ List.replicate
      (l.sched.nextStep.2.decoding.length - l.sched.decoding.length) 0 := rfl
  rcases decoding_nextStep l.sched with ⟨hnone, hlanes⟩ | ⟨head, req, hcomes, htokens, hlanes⟩
  · left
    refine ⟨hnone, hlanes, ?_⟩
    rw [hgrown, hlanes, Nat.sub_self, List.replicate_zero, List.append_nil]
  · right
    have hone : (l.step (.op .nextStep)).grown = l.grown ++ [0] := by
      rw [hgrown, hlanes, List.length_append, Nat.add_sub_cancel_left]
      rfl
    obtain ⟨hpaired, hcontexts⟩ := contexts_push hl hlanes hone
    refine ⟨head, hcomes, hpaired, ?_, by rw [hcontexts, htokens]⟩
    show l.sched.nextStep.2.decoding.length = _
    rw [hlanes, List.length_append]
    rfl

@[simp] theorem config_lanes (l : Lanes) (op : LaneOp) :
    (l.step op).sched.config = l.sched.config := by
  cases op with
  | op op => exact config_step l.sched op
  | grow i n => rfl

/-- **Step.** -/
theorem LanesOk.step {l : Lanes} (hok : LanesOk l ∧ l.Paired) {op : LaneOp} (hin : InLane l op) :
    LanesOk (l.step op) ∧ (l.step op).Paired := by
  obtain ⟨hok, hl⟩ := hok
  have hconfig := config_lanes l op
  cases op with
  | op op =>
    by_cases hop : op = .nextStep
    · subst hop
      rcases lanes_nextStep hl with ⟨-, hlanes, hgrown⟩ | ⟨head, hcomes, hpaired, hlen, hcontexts⟩
      · refine ⟨hok.congr hconfig hlanes hgrown, ?_⟩
        rw [Lanes.Paired, hlanes, hgrown]
        exact hl
      · obtain ⟨hroom, hlong⟩ := hin head hcomes
        refine ⟨⟨?_, ?_⟩, hpaired⟩
        · rw [hlen, hconfig]
          exact hroom
        · intro ctx hctx hover
          rw [hcontexts] at hctx
          rw [hconfig] at hover
          rcases hlong with hnil | ⟨hhead, hall⟩
          · rw [hlen, hnil]
            rfl
          · rcases List.mem_append.mp hctx with hmem | hmem
            · exact absurd hover (Nat.not_lt.mpr (hall ctx hmem))
            · rw [List.mem_singleton.mp hmem] at hover
              exact absurd hover (Nat.not_lt.mpr hhead)
    · obtain ⟨hpaired, hkeeps⟩ := lanes_op hl hop
      exact ⟨hkeeps hok, hpaired⟩
  | grow i n =>
    refine ⟨⟨hok.le, ?_⟩, ?_⟩
    · intro ctx hctx hover
      rw [contexts_grow, List.mem_iff_getElem?] at hctx
      obtain ⟨j, hj⟩ := hctx
      rw [List.getElem?_modify] at hj
      cases hold : l.contexts[j]? with
      | none =>
        rw [hold] at hj
        exact absurd hj (by simp)
      | some old =>
        rw [hold] at hj
        have hctx : (if i = j then old + n else old) = ctx := Option.some.inj hj
        by_cases hij : i = j
        · rw [if_pos hij] at hctx
          subst hij hctx
          exact hin old hold hover
        · rw [if_neg hij] at hctx
          subst hctx
          exact hok.alone old (List.mem_of_getElem? hold) hover
    · exact (List.length_modify _ _ _).trans hl

/-- A step out of the lanes breaks the rule. -/
theorem not_lanesOk_step {l : Lanes} (hok : LanesOk l ∧ l.Paired) {op : LaneOp}
    (hout : ¬ InLane l op) : ¬ LanesOk (l.step op) := by
  obtain ⟨-, hl⟩ := hok
  intro hok'
  have hconfig := config_lanes l op
  have hle := hok'.le
  have halone := hok'.alone
  rw [hconfig] at hle halone
  refine hout ?_
  cases op with
  | op op =>
    cases op with
    | nextStep =>
      intro head hcomes
      rcases lanes_nextStep hl with ⟨hnone, -⟩ | ⟨head', hcomes', -, hlen, hcontexts⟩
      · exact absurd hcomes (hnone head)
      · obtain rfl := Option.some.inj (hcomes.1.symm.trans hcomes'.1)
        refine ⟨by omega, ?_⟩
        by_cases hnil : l.sched.decoding = []
        · exact Or.inl hnil
        · -- with more than one lane, no context is long
          have hmany : 0 < l.sched.decoding.length := List.length_pos_of_ne_nil hnil
          have hshort (ctx : ℕ) (hctx : ctx ∈ (l.step (.op .nextStep)).contexts) :
              ctx ≤ l.sched.config.longContextThreshold := by
            by_contra hover
            have hone := halone ctx hctx (by omega)
            omega
          rw [hcontexts] at hshort
          exact Or.inr ⟨hshort _ (by simp), fun ctx hctx => hshort ctx (by simp [hctx])⟩
    | submit req => trivial
    | preempt => trivial
    | finish id => trivial
  | grow i n =>
    intro ctx hctx hover
    have hgrown : ctx + n ∈ (l.step (.grow i n)).contexts := by
      rw [contexts_grow, List.mem_iff_getElem?]
      refine ⟨i, ?_⟩
      rw [List.getElem?_modify, hctx]
      simp
    exact halone _ hgrown hover

/-- What a round over the lanes is. -/
theorem decodeRound_nextStep {ids : List ℕ} (h : s.nextStep.1 = .decodeRound ids) :
    ids = s.decoding.map (·.id) := by
  have hsteps := steps_nextStep s
  generalize s.nextStep = out at hsteps h
  cases hsteps with
  | chunk => exact absurd h (by simp)
  | last => exact absurd h (by simp)
  | round =>
    dsimp only at h
    split at h
    · exact absurd h (by simp)
    · exact (Step.decodeRound.inj h).symm

/-- A round is within the limit, and a request with a long context is alone in it. -/
def RoundOk (l : Lanes) : Prop :=
  ∀ ids, l.sched.nextStep.1 = .decodeRound ids →
    ids.length ≤ l.sched.config.maxConcurrency ∧
    ∀ (i : ℕ) (req : Request) (grown : ℕ), l.sched.decoding[i]? = some req → l.grown[i]? =
      some grown →
      l.sched.config.longContextThreshold < req.promptTokens + grown → ids = [req.id]

theorem LanesOk.roundOk {l : Lanes} (hok : LanesOk l) : RoundOk l := by
  intro ids hids
  rw [decodeRound_nextStep hids]
  constructor
  · rw [List.length_map]
    exact hok.le
  · intro i req grown hreq hgrown hover
    have hctx : req.promptTokens + grown ∈ l.contexts := by
      rw [Lanes.contexts, List.mem_iff_getElem?]
      exact ⟨i, by rw [List.getElem?_zipWith, hreq, hgrown]⟩
    obtain ⟨only, honly⟩ := List.length_eq_one_iff.mp (hok.alone _ hctx hover)
    rw [honly] at hreq ⊢
    cases i with
    | zero => rw [← Option.some.inj hreq]; rfl
    | succ i => exact absurd hreq (by simp)

/-- **Lanes.** The lanes keep to the rule throughout a run exactly when requests come to decode, and
contexts grow, within it; and then so does every round. -/
theorem lanesOk_run (config : SchedulerConfig) (pool : KvPool) (ops : List LaneOp) :
    ((∀ n, LanesOk (run Lanes.step ⟨new config pool, []⟩ (ops.take n))) ↔
      Along Lanes.step InLane ⟨new config pool, []⟩ ops) ∧
    (Along Lanes.step InLane ⟨new config pool, []⟩ ops →
      ∀ n, RoundOk (run Lanes.step ⟨new config pool, []⟩ (ops.take n))) := by
  have hnew : LanesOk ⟨new config pool, []⟩ ∧ Lanes.Paired ⟨new config pool, []⟩ :=
    ⟨⟨Nat.zero_le _, nofun⟩, rfl⟩
  have hstep (l : Lanes) (op : LaneOp) (hok : LanesOk l ∧ l.Paired) (hin : InLane l op) :
      LanesOk (l.step op) ∧ (l.step op).Paired := LanesOk.step hok hin
  have hiff : (∀ n, LanesOk (run Lanes.step ⟨new config pool, []⟩ (ops.take n))) ↔
      Along Lanes.step InLane ⟨new config pool, []⟩ ops :=
    forall_take_iff_along hstep (fun l hok => hok.1)
      (fun l op hok hout => not_lanesOk_step hok hout) hnew
  exact ⟨hiff, fun halong n => (hiff.mpr halong n).roundOk⟩

theorem lanesOk_run_alone :
    (∀ n, LanesOk (run Lanes.step ⟨new ⟨2048, 10, 1⟩ ⟨200000000, 0⟩, []⟩
      ([.op (.submit ⟨1, 8, 16, .pending, 0, 0⟩), .op .nextStep, .grow 0 5, .op .nextStep].take n)))
        ∧
    ∀ n, RoundOk (run Lanes.step ⟨new ⟨2048, 10, 1⟩ ⟨200000000, 0⟩, []⟩
      ([.op (.submit ⟨1, 8, 16, .pending, 0, 0⟩), .op .nextStep, .grow 0 5, .op .nextStep].take
          n)) := by
  have halong : Along Lanes.step InLane ⟨new ⟨2048, 10, 1⟩ ⟨200000000, 0⟩, []⟩
      [.op (.submit ⟨1, 8, 16, .pending, 0, 0⟩), .op .nextStep, .grow 0 5, .op .nextStep] := by
    refine ⟨trivial, fun head hcomes => ?_, fun ctx hctx hover => ?_, fun head hcomes =>
      ?_, trivial⟩
    · refine ⟨by decide, Or.inl (by decide)⟩
    · decide
    · exact absurd hcomes.1 (by rw [show List.head? _ = none by decide]; simp)
  obtain ⟨hiff, hround⟩ := lanesOk_run ⟨2048, 10, 1⟩ ⟨200000000, 0⟩
    [.op (.submit ⟨1, 8, 16, .pending, 0, 0⟩), .op .nextStep, .grow 0 5, .op .nextStep]
  exact ⟨hiff.mpr halong, hround halong⟩

/-- **Two long requests** decode in one round of two, with a limit of one. -/
theorem not_roundOk_two :
    let l := run Lanes.step ⟨new ⟨2048, 10, 1⟩ ⟨200000000, 0⟩, []⟩
      [.op (.submit ⟨1, 20, 16, .pending, 0, 0⟩), .op (.submit ⟨2, 20, 16, .pending, 0, 0⟩),
        .op .nextStep, .op .nextStep]
    l.sched.isLongContext 20 = true ∧ l.sched.concurrencyFor 20 = 1 ∧
      l.sched.nextStep.1 = .decodeRound [1, 2] ∧ ¬ RoundOk l := by
  refine ⟨by decide, by decide, by decide, fun hround => ?_⟩
  obtain ⟨hle, -⟩ := hround [1, 2] (by decide)
  exact absurd hle (by decide)

end Scheduler

end A4

end Coordinator

end Mimo26

import Mathlib.Data.List.Basic
import Mathlib.Data.List.Induction

/-!
# Runs of a state machine

A machine is a step function of a state and an event; what an environment decides (a failing call,
a message that arrives) is part of the event. `Along good` says that every step of a run is a good
one, where good may depend on the state the step is taken in.

## Main definitions

* `run`, `Along` — a run, and a property of each of its steps

## Main results

* `inv_run` — what good steps preserve holds after a run of good steps
* `forall_take_iff_along` — a property that a step that is not good breaks holds throughout a run
  exactly when its steps are good
* `since_run` — what holds after a run was set by an event, and the events after it kept it
-/

namespace Mimo26

namespace Runs

variable {σ ε : Type*} (step : σ → ε → σ)

def run (s : σ) (es : List ε) : σ := es.foldl step s

@[simp] theorem run_nil (s : σ) : run step s [] = s := rfl

@[simp] theorem run_cons (s : σ) (e : ε) (es : List ε) :
    run step s (e :: es) = run step (step s e) es := rfl

theorem run_append (s : σ) (es fs : List ε) :
    run step s (es ++ fs) = run step (run step s es) fs :=
  List.foldl_append

/-- Every step of the run of `es` from `s` is good. -/
def Along (good : σ → ε → Prop) : σ → List ε → Prop
  | _, [] => True
  | s, e :: es => good s e ∧ Along good (step s e) es

theorem along_append {good : σ → ε → Prop} {s : σ} {es fs : List ε} :
    Along step good s (es ++ fs) ↔ Along step good s es ∧ Along step good (run step s es) fs := by
  induction es generalizing s with
  | nil => simp [Along]
  | cons e es ih =>
    rw [List.cons_append, Along, Along, ih, run_cons, and_assoc]

theorem Along.of_append {good : σ → ε → Prop} {s : σ} {es fs : List ε}
    (h : Along step good s (es ++ fs)) : Along step good s es :=
  ((along_append step).mp h).1

variable {step}

/-- What every good step has, every step of a good run has. -/
theorem Along.imp {good good' : σ → ε → Prop} (h : ∀ s e, good s e → good' s e) {s : σ}
    {es : List ε} (hes : Along step good s es) : Along step good' s es := by
  induction es generalizing s with
  | nil => trivial
  | cons e es ih => exact ⟨h s e hes.1, ih hes.2⟩

/-- A run of events that are good in any state. -/
theorem along_of_forall {good : ε → Prop} {s : σ} {es : List ε} (h : ∀ e ∈ es, good e) :
    Along step (fun _ e => good e) s es := by
  induction es generalizing s with
  | nil => trivial
  | cons e es ih =>
    exact ⟨h e List.mem_cons_self, ih fun e' he => h e' (List.mem_cons_of_mem e he)⟩

/-- **The invariant rule.** -/
theorem inv_run {good : σ → ε → Prop} {Inv : σ → Prop}
    (hstep : ∀ s e, Inv s → good s e → Inv (step s e)) {s : σ} (hs : Inv s) {es : List ε}
    (hes : Along step good s es) : Inv (run step s es) := by
  induction es generalizing s with
  | nil => exact hs
  | cons e es ih => exact ih (hstep s e hs hes.1) hes.2

/-- What a good step has in a state with the invariant, every step of a good run has. -/
theorem Along.of_inv {good good' : σ → ε → Prop} {Inv : σ → Prop}
    (hstep : ∀ s e, Inv s → good s e → Inv (step s e)) (h : ∀ s e, Inv s → good s e → good' s e)
    {s : σ} (hs : Inv s) {es : List ε} (hes : Along step good s es) : Along step good' s es := by
  induction es generalizing s with
  | nil => trivial
  | cons e es ih => exact ⟨h s e hs hes.1, ih (hstep s e hs hes.1) hes.2⟩

/-- A property throughout a good run of admitted events. -/
theorem forall_take_of_along {admitted : ε → Prop} {good : σ → ε → Prop} {Inv P : σ → Prop}
    (hstep : ∀ s e, admitted e → Inv s → good s e → Inv (step s e)) (hinv : ∀ s, Inv s → P s)
    {s : σ} (hs : Inv s) {es : List ε} (hes : ∀ e ∈ es, admitted e) (halong : Along step good s es)
    (n : ℕ) : P (run step s (es.take n)) := by
  induction es generalizing s n with
  | nil =>
    rw [List.take_nil]
    exact hinv s hs
  | cons e es ih =>
    obtain ⟨he, hes⟩ := List.forall_mem_cons.mp hes
    obtain ⟨hgood, hgoods⟩ := halong
    cases n with
    | zero => exact hinv s hs
    | succ n => exact ih (hstep s e he hs hgood) hes hgoods n

/-- **The exact condition** for a property throughout a run of admitted events. -/
theorem forall_take_iff_along_of {admitted : ε → Prop} {good : σ → ε → Prop} {Inv P : σ → Prop}
    (hstep : ∀ s e, admitted e → Inv s → good s e → Inv (step s e)) (hinv : ∀ s, Inv s → P s)
    (hbad : ∀ s e, admitted e → Inv s → ¬ good s e → ¬ P (step s e)) {s : σ} (hs : Inv s)
    {es : List ε} (hes : ∀ e ∈ es, admitted e) :
    (∀ n, P (run step s (es.take n))) ↔ Along step good s es := by
  refine ⟨fun hall => ?_, forall_take_of_along hstep hinv hs hes⟩
  induction es generalizing s with
  | nil => trivial
  | cons e es ih =>
    obtain ⟨he, hes⟩ := List.forall_mem_cons.mp hes
    have hgood : good s e := by
      by_contra hnot
      have hone := hall 1
      rw [List.take_succ_cons, List.take_zero] at hone
      exact hbad s e he hs hnot hone
    exact ⟨hgood, ih (hstep s e he hs hgood) hes fun n => hall (n + 1)⟩

/-- **The exact condition** for a property throughout a run. -/
theorem forall_take_iff_along {good : σ → ε → Prop} {Inv P : σ → Prop}
    (hstep : ∀ s e, Inv s → good s e → Inv (step s e)) (hinv : ∀ s, Inv s → P s)
    (hbad : ∀ s e, Inv s → ¬ good s e → ¬ P (step s e)) {s : σ} (hs : Inv s) {es : List ε} :
    (∀ n, P (run step s (es.take n))) ↔ Along step good s es :=
  forall_take_iff_along_of (fun s e _ => hstep s e) hinv (fun s e _ => hbad s e) hs
    fun _ _ => trivial

/-- **The last event that sets it.** -/
theorem since_run {P : σ → Prop} {sets keeps : ε → Prop}
    (hstep : ∀ s e, P (step s e) → sets e ∨ keeps e ∧ P s) {s : σ} (hs : ¬ P s) {es : List ε}
    (h : P (run step s es)) :
    ∃ before e after, es = before ++ e :: after ∧ sets e ∧ ∀ e' ∈ after, keeps e' := by
  induction es using List.reverseRecOn with
  | nil => exact absurd h hs
  | append_singleton es e ih =>
    rw [run_append, run_cons, run_nil] at h
    rcases hstep _ e h with hsets | ⟨hkeeps, hbefore⟩
    · exact ⟨es, e, [], rfl, hsets, List.forall_mem_nil _⟩
    · obtain ⟨before, e', after, rfl, hsets, hafter⟩ := ih hbefore
      refine ⟨before, e', after ++ [e], by rw [List.append_assoc, List.cons_append], hsets, ?_⟩
      exact List.forall_mem_append.mpr ⟨hafter, List.forall_mem_singleton.mpr hkeeps⟩

end Runs

end Mimo26

import Mathlib.Data.Nat.Basic
import Mathlib.Order.Basic

/-!
# Loops that may not end

A loop takes a step until one exits. Where its end is in question the loop is run on fuel: each turn
uses one unit, and the step is given what is left for the loops inside it. `Ends` is the loop's
meaning, free of fuel.

## Main definitions

* `loop`, `Steady`, `Ends` — a loop on fuel, a step that more fuel does not change, a loop's result

## Main results

* `ends_exit`, `ends_next`, `not_ends_of_none` — what a loop's first turn says of its result
* `not_ends_of_inv` — a loop that stays among states that do not exit does not end
-/

namespace Mimo26

namespace Loop

variable {σ β : Type*} (step : ℕ → σ → Option (σ ⊕ β))

/-- `step` until it exits, for at most `fuel` turns; a step without a result is out of fuel. -/
def loop : ℕ → σ → Option β
  | 0, _ => none
  | fuel + 1, s =>
    match step fuel s with
    | none => none
    | some (.inl s') => loop fuel s'
    | some (.inr b) => some b

/-- More fuel does not change a step's result. -/
def Steady : Prop := ∀ ⦃n m s x⦄, n ≤ m → step n s = some x → step m s = some x

/-- The loop ends with `b`. -/
def Ends (s : σ) (b : β) : Prop := ∃ fuel, loop step fuel s = some b

variable {step}

/-- A step that needs no fuel. -/
theorem steady_some (next : σ → σ ⊕ β) : Steady fun _ s => some (next s) := fun _ _ _ _ _ h => h

theorem loop_succ (fuel : ℕ) (s : σ) : loop step (fuel + 1) s =
    (step fuel s).bind (Sum.elim (loop step fuel) some) := by
  rw [loop]
  cases step fuel s with
  | none => rfl
  | some x =>
    cases x with
    | inl s' => rfl
    | inr b => rfl

theorem loop_mono (hstep : Steady step) {n m : ℕ} (hnm : n ≤ m) {s : σ} {b : β}
    (h : loop step n s = some b) : loop step m s = some b := by
  induction n generalizing m s with
  | zero => cases h
  | succ n ih =>
    obtain ⟨m, rfl⟩ := Nat.exists_eq_add_of_lt (Nat.lt_of_succ_le hnm)
    have hnm : n ≤ n + m := Nat.le_add_right n m
    rw [loop_succ, Option.bind_eq_some_iff] at h
    obtain ⟨x, hx, h⟩ := h
    rw [loop_succ, hstep hnm hx, Option.bind_some]
    cases x with
    | inl s' => exact ih hnm h
    | inr c => exact h

/-- A loop has one result. -/
theorem Ends.unique (hstep : Steady step) {s : σ} {b c : β} (hb : Ends step s b)
    (hc : Ends step s c) : b = c := by
  obtain ⟨n, hn⟩ := hb
  obtain ⟨m, hm⟩ := hc
  have hn := loop_mono hstep (Nat.le_max_left n m) hn
  have hm := loop_mono hstep (Nat.le_max_right n m) hm
  exact Option.some.inj (hn.symm.trans hm)

theorem ends_exit {s : σ} {b : β} {n : ℕ} (h : step n s = some (.inr b)) : Ends step s b :=
  ⟨n + 1, by rw [loop_succ, h]; rfl⟩

theorem ends_next (hstep : Steady step) {s s' : σ} {n : ℕ} (h : step n s = some (.inl s')) {b : β} :
    Ends step s b ↔ Ends step s' b := by
  constructor
  · rintro ⟨fuel, hfuel⟩
    cases fuel with
    | zero => cases hfuel
    | succ fuel =>
      have hfuel := loop_mono hstep (Nat.succ_le_succ (Nat.le_max_left fuel n)) hfuel
      rw [loop_succ, hstep (Nat.le_max_right fuel n) h] at hfuel
      exact ⟨_, hfuel⟩
  · rintro ⟨fuel, hfuel⟩
    refine ⟨max fuel n + 1, ?_⟩
    rw [loop_succ, hstep (Nat.le_max_right fuel n) h]
    exact loop_mono hstep (Nat.le_max_left fuel n) hfuel

/-- The first turn of a loop that ends. -/
theorem Ends.turn {s : σ} {b : β} (h : Ends step s b) :
    ∃ n x, step n s = some x ∧ Sum.elim (fun s' => Ends step s' b) (fun c => c = b) x := by
  obtain ⟨fuel, hfuel⟩ := h
  cases fuel with
  | zero => cases hfuel
  | succ fuel =>
    rw [loop_succ, Option.bind_eq_some_iff] at hfuel
    obtain ⟨x, hx, hfuel⟩ := hfuel
    refine ⟨fuel, x, hx, ?_⟩
    cases x with
    | inl s' => exact ⟨fuel, hfuel⟩
    | inr c => exact Option.some.inj hfuel

/-- What every turn keeps holds of the result. -/
theorem Ends.inv {Inv : σ → Prop} {Q : β → Prop}
    (hstep : ∀ n s x, Inv s → step n s = some x → Sum.elim Inv Q x) {s : σ} (hs : Inv s) {b : β}
    (h : Ends step s b) : Q b := by
  obtain ⟨fuel, hfuel⟩ := h
  induction fuel generalizing s with
  | zero => cases hfuel
  | succ fuel ih =>
    rw [loop_succ, Option.bind_eq_some_iff] at hfuel
    obtain ⟨x, hx, hfuel⟩ := hfuel
    have hnext := hstep fuel s x hs hx
    cases x with
    | inl s' => exact ih hnext hfuel
    | inr c =>
      obtain rfl := Option.some.inj hfuel
      exact hnext

theorem not_ends_of_none {s : σ} (h : ∀ n, step n s = none) (b : β) : ¬ Ends step s b := by
  intro hends
  obtain ⟨n, x, hx, -⟩ := hends.turn
  rw [h n] at hx
  cases hx

/-- **A loop that stays where it does not exit** does not end. -/
theorem not_ends_of_inv {Inv : σ → Prop}
    (hinv : ∀ s, Inv s → ∀ n x, step n s = some x → ∃ s', x = .inl s' ∧ Inv s') {s : σ} (hs : Inv s)
    (b : β) : ¬ Ends step s b := by
  rintro ⟨fuel, hfuel⟩
  induction fuel generalizing s with
  | zero => cases hfuel
  | succ fuel ih =>
    rw [loop_succ, Option.bind_eq_some_iff] at hfuel
    obtain ⟨x, hx, hfuel⟩ := hfuel
    obtain ⟨s', rfl, hs'⟩ := hinv s hs fuel x hx
    exact ih hs' hfuel

end Loop

end Mimo26

import Mathlib.Data.List.Basic

/-!
# Methods that may fail half-way

A method that updates a state and may fail keeps the part of the update it has made: it is an
`EStateM ε σ α`. `Triple P m Q E` is total correctness of such a method: from a state with `P` it
returns with `Q` or fails with `E`. The rules take a method apart along its `do` block, so a proof
names the assertion between two steps and never unfolds the monad.

## Main definitions

* `Outcome`, `Triple` — post- and error condition of a result; the same of a method
* `check`, `call` — a guard; a step whose failure the environment decides
* `each` — the loop `for x in xs.iter_mut() { body? }`
* `Rows` — two lists of components related position by position

## Main results

* `Triple.bind`, `Triple.weaken` — sequence and consequence
* `Triple.forM`, `Triple.forM_range`, `each_triple`, `each_map`, `each_rows`, `each_rows_at`,
  `each_eq_ok` — loops
-/

namespace Mimo26

namespace Fallible

variable {ε σ τ α β : Type}

/-- The outcome is a value and a state with `Q`, or a failure in a state with `E`. -/
def Outcome (Q : α → σ → Prop) (E : σ → Prop) : EStateM.Result ε σ α → Prop
  | .ok a s => Q a s
  | .error _ s => E s

/-- From a state with `P` the method returns a value and a state with `Q`, or fails in a state with
`E`. -/
def Triple (P : σ → Prop) (m : EStateM ε σ α) (Q : α → σ → Prop) (E : σ → Prop) : Prop :=
  ∀ s, P s → Outcome Q E (m s)

variable {P P' : σ → Prop} {Q Q' : α → σ → Prop} {R : β → σ → Prop} {E E' : σ → Prop}
  {m : EStateM ε σ α}

namespace Triple

/-- **Consequence.** -/
theorem weaken (h : Triple P m Q E) (hP : ∀ s, P' s → P s) (hQ : ∀ a s, Q a s → Q' a s)
    (hE : ∀ s, E s → E' s) : Triple P' m Q' E' := by
  intro s hs
  have hm := h s (hP s hs)
  cases hres : m s with
  | ok a s' =>
    rw [hres] at hm
    exact hQ a s' hm
  | error e s' =>
    rw [hres] at hm
    exact hE s' hm

theorem pre (h : Triple P m Q E) (hP : ∀ s, P' s → P s) : Triple P' m Q E :=
  h.weaken hP (fun _ _ hq => hq) fun _ he => he

theorem post (h : Triple P m Q E) (hQ : ∀ a s, Q a s → Q' a s) : Triple P m Q' E :=
  h.weaken (fun _ hp => hp) hQ fun _ he => he

/-- Two facts about one method. -/
protected theorem and (h : Triple P m Q E) (h' : Triple P' m Q' E') :
    Triple (fun s => P s ∧ P' s) m (fun a s => Q a s ∧ Q' a s) fun s => E s ∧ E' s := by
  intro s hs
  have hm := h s hs.1
  have hm' := h' s hs.2
  cases hres : m s with
  | ok a s' =>
    rw [hres] at hm hm'
    exact ⟨hm, hm'⟩
  | error e s' =>
    rw [hres] at hm hm'
    exact ⟨hm, hm'⟩

protected theorem pure {a : α} (h : ∀ s, P s → Q a s) :
    Triple P (pure a : EStateM ε σ α) Q E := fun s hs => h s hs

protected theorem throw {e : ε} (h : ∀ s, P s → E s) :
    Triple P (throw e : EStateM ε σ α) Q E := fun s hs => h s hs

/-- **Sequence.** -/
protected theorem bind {f : α → EStateM ε σ β} (hm : Triple P m Q E)
    (hf : ∀ a, Triple (Q a) (f a) R E) : Triple P (m >>= f) R E := by
  intro s hs
  have hmid := hm s hs
  show Outcome R E (EStateM.bind m f s)
  rw [EStateM.bind]
  cases hres : m s with
  | ok a s' =>
    rw [hres] at hmid
    exact hf a s' hmid
  | error e s' =>
    rw [hres] at hmid
    exact hmid

protected theorem get {Q : σ → σ → Prop} (h : ∀ s, P s → Q s s) :
    Triple P (get : EStateM ε σ σ) Q E := fun s hs => h s hs

/-- Reading the state fixes it. -/
theorem get_bind {f : σ → EStateM ε σ α} (h : ∀ s, P s → Triple (fun s' => s' = s) (f s) Q E) :
    Triple P (get >>= f) Q E := fun s hs => h s hs s rfl

protected theorem set {s' : σ} {Q : PUnit → σ → Prop} (h : ∀ s, P s → Q ⟨⟩ s') :
    Triple P (set s' : EStateM ε σ PUnit) Q E := fun s hs => h s hs

protected theorem modify {f : σ → σ} {Q : PUnit → σ → Prop} (h : ∀ s, P s → Q ⟨⟩ (f s)) :
    Triple P (modify f : EStateM ε σ PUnit) Q E := fun s hs => h s hs

protected theorem ite {c : Prop} [Decidable c] {m₁ m₂ : EStateM ε σ α}
    (h₁ : c → Triple P m₁ Q E) (h₂ : ¬ c → Triple P m₂ Q E) :
    Triple P (if c then m₁ else m₂) Q E := by
  split
  · next h => exact h₁ h
  · next h => exact h₂ h

/-- A fact that does not mention the state comes out of the precondition. -/
theorem of_pure {p : Prop} (h : p → Triple P m Q E) : Triple (fun s => p ∧ P s) m Q E :=
  fun s hs => h hs.1 s hs.2

theorem of_exists {ι : Sort*} {P : ι → σ → Prop} (h : ∀ i, Triple (P i) m Q E) :
    Triple (fun s => ∃ i, P i s) m Q E := fun s hs => h hs.choose s hs.choose_spec

/-- From a known state, the result is the run's. -/
theorem with_run {s : σ} (h : Triple (fun s' => s' = s) m Q E) :
    Triple (fun s' => s' = s) m (fun a s' => m s = .ok a s' ∧ Q a s') E := by
  rintro s' rfl
  have hm := h s' rfl
  cases hres : m s' with
  | ok a s'' =>
    rw [hres] at hm
    exact ⟨rfl, hm⟩
  | error e s'' =>
    rw [hres] at hm
    exact hm

/-- **Loop.** -/
protected theorem forM {f : β → EStateM ε σ PUnit} {l : List β} {I : σ → Prop}
    (h : ∀ b ∈ l, Triple I (f b) (fun _ => I) E) :
    Triple I (l.forM f) (fun _ => I) E := by
  induction l with
  | nil => exact Triple.pure fun s hs => hs
  | cons b l ih =>
    rw [List.forM_eq_forM, List.forM_cons]
    exact Triple.bind (h b List.mem_cons_self) fun _ =>
      ih fun c hc => h c (List.mem_cons_of_mem b hc)

/-- **Counted loop.** -/
theorem forM_range {f : ℕ → EStateM ε σ PUnit} {n : ℕ} {I : ℕ → σ → Prop}
    (h : ∀ i < n, Triple (I i) (f i) (fun _ => I (i + 1)) E) :
    Triple (I 0) ((List.range n).forM f) (fun _ => I n) E := by
  induction n with
  | zero => exact Triple.pure fun s hs => hs
  | succ n ih =>
    rw [List.range_succ, List.forM_eq_forM, List.forM_append]
    refine Triple.bind (ih fun i hi => h i (Nat.lt_succ_of_lt hi)) fun _ => ?_
    rw [List.forM_cons]
    exact Triple.bind (h n (Nat.lt_succ_self n)) fun _ => Triple.pure fun s hs => hs

end Triple

/-! ### Steps -/

/-- A guard. -/
def check (c : Bool) (e : ε) : EStateM ε σ Unit := if c then pure () else throw e

theorem Triple.check {c : Bool} {e : ε} {Q : Unit → σ → Prop} (hok : c = true → ∀ s, P s → Q () s)
    (hfail : c = false → ∀ s, P s → E s) : Triple P (check c e) Q E := by
  cases c with
  | true => exact Triple.pure fun s hs => hok rfl s hs
  | false => exact Triple.throw fun s hs => hfail rfl s hs

/-- A guard that is passed is known to hold, and one that fails not to. -/
theorem Triple.guard_not {p : Prop} [Decidable p] {e : ε} (hfail : ¬ p → ∀ s, P s → E s) :
    Triple P (Fallible.check p e) (fun _ s => p ∧ P s) E :=
  .check (fun hp _ hs => ⟨of_decide_eq_true hp, hs⟩) fun hp => hfail (of_decide_eq_false hp)

theorem Triple.guard {p : Prop} [Decidable p] {e : ε} (hfail : ∀ s, P s → E s) :
    Triple P (Fallible.check p e) (fun _ s => p ∧ P s) E :=
  .guard_not fun _ => hfail

/-- A step whose result is known: a computed one, or one the environment decides. -/
def call (r : Except ε α) : EStateM ε σ α :=
  match r with
  | .ok a => pure a
  | .error e => throw e

theorem Triple.call {r : Except ε α} (hok : ∀ a, r = .ok a → ∀ s, P s → Q a s)
    (hfail : ∀ e, r = .error e → ∀ s, P s → E s) : Triple P (call r) Q E := by
  cases r with
  | ok a => exact Triple.pure fun s hs => hok a rfl s hs
  | error e => exact Triple.throw fun s hs => hfail e rfl s hs

/-! ### Loops over components -/

/-- Component `i`, `i + 1`, … through `body`, which also threads a state of its own, stopping at the
first error with the components after it as they were. -/
def each (body : ℕ → EStateM ε (α × τ) Unit) :
    ℕ → List α → τ → EStateM.Result ε (List α × τ) Unit
  | _, [], t => .ok () ([], t)
  | i, a :: as, t =>
    match body i (a, t) with
    | .error e (a', t') => .error e (a' :: as, t')
    | .ok () (a', t') =>
      match each body (i + 1) as t' with
      | .error e (as', t'') => .error e (a' :: as', t'')
      | .ok () (as', t'') => .ok () (a' :: as', t'')

/-- **Loop over components.** The body takes every component from `C` to `C'` and keeps `I` of the
threaded state; when it fails, `F` holds, and with it every component is left with `D`. -/
theorem each_triple {body : ℕ → EStateM ε (α × τ) Unit} {C C' D : α → Prop} {I : τ → Prop}
    {F : Prop} (hbody : ∀ i, Triple (fun x => C x.1 ∧ I x.2) (body i) (fun _ x => C' x.1 ∧ I x.2)
      (fun x => F ∧ D x.1))
    (hC : F → ∀ a, C a → D a) (hC' : F → ∀ a, C' a → D a) {i : ℕ} {as : List α} {t : τ}
    (has : ∀ a ∈ as, C a) (ht : I t) :
    Outcome (fun _ x => (∀ a ∈ x.1, C' a) ∧ I x.2) (fun x => F ∧ ∀ a ∈ x.1, D a)
      (each body i as t) := by
  induction as generalizing i t with
  | nil => exact ⟨by simp, ht⟩
  | cons a as ih =>
    have hhead := hbody i (a, t) ⟨has a List.mem_cons_self, ht⟩
    have hrest : ∀ b ∈ as, C b := fun b hb => has b (List.mem_cons_of_mem a hb)
    rw [each]
    cases hres : body i (a, t) with
    | error e x =>
      rw [hres] at hhead
      obtain ⟨hF, hD⟩ := hhead
      exact ⟨hF, List.forall_mem_cons.mpr ⟨hD, fun b hb => hC hF b (hrest b hb)⟩⟩
    | ok u x =>
      rw [hres] at hhead
      have htail := ih (i := i + 1) (t := x.2) hrest hhead.2
      dsimp only
      cases hres' : each body (i + 1) as x.2 with
      | error e y =>
        rw [hres'] at htail
        obtain ⟨hF, hD⟩ := htail
        exact ⟨hF, List.forall_mem_cons.mpr ⟨hC' hF x.1 hhead.1, hD⟩⟩
      | ok u y =>
        rw [hres'] at htail
        exact ⟨List.forall_mem_cons.mpr ⟨hhead.1, htail.1⟩, htail.2⟩

/-- The components at the same position, counted from `i`, are related. -/
def Rows (R : ℕ → α → α → Prop) (i : ℕ) (l l' : List α) : Prop :=
  l'.length = l.length ∧ ∀ j a, l[j]? = some a → ∃ a', l'[j]? = some a' ∧ R (i + j) a a'

variable {R S : ℕ → α → α → Prop} {i : ℕ} {l l' l'' : List α}

theorem Rows.nil : Rows R i ([] : List α) [] := ⟨rfl, by simp⟩

theorem Rows.cons {a a' : α} (h : R i a a') (hl : Rows R (i + 1) l l') :
    Rows R i (a :: l) (a' :: l') := by
  refine ⟨by simp [hl.1], fun j b hb => ?_⟩
  cases j with
  | zero =>
    obtain rfl := Option.some.inj hb
    exact ⟨a', rfl, h⟩
  | succ j =>
    obtain ⟨b', hb', hrel⟩ := hl.2 j b hb
    exact ⟨b', hb', by rwa [Nat.add_assoc, Nat.add_comm 1 j] at hrel⟩

theorem Rows.imp (h : Rows R i l l') (himp : ∀ j a a', R j a a' → S j a a') : Rows S i l l' :=
  ⟨h.1, fun j a ha => (h.2 j a ha).imp fun _ hrel => ⟨hrel.1, himp _ _ _ hrel.2⟩⟩

theorem Rows.refl (h : ∀ j a, R j a a) : Rows R i l l := ⟨rfl, fun _ a ha => ⟨a, ha, h _ a⟩⟩

theorem Rows.trans {T : ℕ → α → α → Prop} (h : Rows R i l l') (h' : Rows S i l' l'')
    (hT : ∀ j a b c, R j a b → S j b c → T j a c) : Rows T i l l'' := by
  refine ⟨h'.1.trans h.1, fun j a ha => ?_⟩
  obtain ⟨b, hb, hab⟩ := h.2 j a ha
  obtain ⟨c, hc, hbc⟩ := h'.2 j b hb
  exact ⟨c, hc, hT _ a b c hab hbc⟩

/-- A part that related components share is shared by the lists. -/
theorem Rows.map_eq {γ : Type} {g : α → γ} (h : Rows (fun _ a a' => g a' = g a) i l l') :
    l'.map g = l.map g := by
  refine List.ext_getElem? fun j => ?_
  rw [List.getElem?_map, List.getElem?_map]
  cases hj : l[j]? with
  | none =>
    have hlen := List.getElem?_eq_none_iff.mp hj
    rw [List.getElem?_eq_none_iff.mpr (h.1 ▸ hlen)]
  | some a =>
    obtain ⟨a', ha', hg⟩ := h.2 j a hj
    rw [ha', Option.map_some, Option.map_some, hg]

/-- **Loop over components, position by position.** The body relates each component it passes by
`R`; a component it fails on, or does not reach, is related by `S`. A failure of the body at any
component means `F`. -/
theorem each_rows_at {F : Prop} {body : ℕ → EStateM ε (α × τ) Unit} {i : ℕ} {l : List α}
    (hbody : ∀ j a t, l[j]? = some a → Outcome (fun _ x => R (i + j) a x.1)
      (fun x => F ∧ S (i + j) a x.1) (body (i + j) (a, t)))
    (hRS : ∀ j a a', R j a a' → S j a a') (hS : ∀ j a, S j a a) (t : τ) :
    Outcome (fun _ x => Rows R i l x.1) (fun x => F ∧ Rows S i l x.1) (each body i l t) := by
  induction l generalizing i t with
  | nil => exact .nil
  | cons a as ih =>
    have hhead := hbody 0 a t rfl
    rw [Nat.add_zero] at hhead
    have hrest : ∀ j b t, as[j]? = some b → Outcome (fun _ x => R (i + 1 + j) b x.1)
        (fun x => F ∧ S (i + 1 + j) b x.1) (body (i + 1 + j) (b, t)) := by
      intro j b t hb
      have hat := hbody (j + 1) b t hb
      rwa [Nat.add_comm j 1, ← Nat.add_assoc] at hat
    rw [each]
    cases hres : body i (a, t) with
    | error e x =>
      rw [hres] at hhead
      exact ⟨hhead.1, .cons hhead.2 (.refl hS)⟩
    | ok u x =>
      rw [hres] at hhead
      have htail := ih hrest x.2
      dsimp only
      cases hres' : each body (i + 1) as x.2 with
      | error e y =>
        rw [hres'] at htail
        exact ⟨htail.1, .cons (hRS _ _ _ hhead) htail.2⟩
      | ok u y =>
        rw [hres'] at htail
        exact .cons hhead htail

theorem each_rows {body : ℕ → EStateM ε (α × τ) Unit}
    (hbody : ∀ j a t, Outcome (fun _ x => R j a x.1) (fun x => S j a x.1) (body j (a, t)))
    (hRS : ∀ j a a', R j a a' → S j a a') (hS : ∀ j a, S j a a) (i : ℕ) (l : List α) (t : τ) :
    Outcome (fun _ x => Rows R i l x.1) (fun x => Rows S i l x.1) (each body i l t) := by
  have hat (j : ℕ) (a : α) (t : τ) : Outcome (fun _ x => R (i + j) a x.1)
      (fun x => True ∧ S (i + j) a x.1) (body (i + j) (a, t)) := by
    have hrel := hbody (i + j) a t
    cases hres : body (i + j) (a, t) with
    | ok u x =>
      rw [hres] at hrel
      exact hrel
    | error e x =>
      rw [hres] at hrel
      exact ⟨trivial, hrel⟩
  have hloop := each_rows_at (l := l) (fun j a t _ => hat j a t) hRS hS t
  cases hres : each body i l t with
  | ok u x =>
    rw [hres] at hloop
    exact hloop
  | error e x =>
    rw [hres] at hloop
    exact hloop.2

/-- **Loop over components that fails nowhere**, along the threaded states `ts`. -/
theorem each_eq_ok {body : ℕ → EStateM ε (α × τ) Unit} {f : ℕ → α → α} {ts : ℕ → τ} {i : ℕ}
    {l : List α} (hbody : ∀ j a, l[j]? = some a →
      body (i + j) (a, ts (i + j)) = .ok () (f (i + j) a, ts (i + j + 1))) :
    each body i l (ts i) = .ok () (l.mapIdx fun j a => f (i + j) a, ts (i + l.length)) := by
  induction l generalizing i with
  | nil => rfl
  | cons a as ih =>
    have hhead := hbody 0 a rfl
    rw [Nat.add_zero] at hhead
    have htail := @ih (i + 1) fun j b hb => by
      have hat := hbody (j + 1) b hb
      rwa [Nat.add_comm j 1, ← Nat.add_assoc] at hat
    rw [each, hhead]
    dsimp only
    rw [htail, List.mapIdx_cons, List.length_cons, Nat.add_assoc i 1, Nat.add_comm 1 as.length]
    simp only [Nat.add_comm 1, Nat.add_assoc, Nat.add_zero]

end Fallible

end Mimo26

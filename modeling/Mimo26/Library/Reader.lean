import Mathlib.Data.List.Basic
import Mathlib.Data.Nat.Notation

/-!
# Readers of a sequence

A reader takes tokens from the front of a sequence, keeps the number taken for its error texts, and
refuses a sequence with a text. A loop of a reader runs on fuel: `Reads` is a rule of partial
correctness that also says that the fuel lasts.

## Main definitions

* `Cursor`, `Reader` — what is left to read, and a computation on it
* `Reads` — what a reader reads is as a relation says, and its fuel lasts
* `Ends` — what a reader reads is as a relation says
* `Runs`, `Fails`, `Gives` — what a reader does on a known sequence

## Main results

* `Reads.bind`, `Ends.bind`, `Gives.bind` — the rules of sequences
-/

namespace Mimo26

/-- What is left to read, and how much was read. -/
structure Cursor (τ : Type) where
  pos : ℕ
  rest : List τ
  deriving DecidableEq

/-- Why a reader fails. -/
inductive Refusal where
  | refused (text : String)
  /-- The fuel of a loop ran out. -/
  | exhausted
  deriving DecidableEq, Repr

abbrev Reader (τ : Type) := EStateM Refusal (Cursor τ)

namespace Reader

variable {τ α β : Type}

/-- Fails with a text that may name the position. -/
def refuse (text : ℕ → String) : Reader τ α := fun s => .error (.refused (text s.pos)) s

def demand (ok : Prop) [Decidable ok] (text : ℕ → String) : Reader τ Unit :=
  if ok then pure () else refuse text

def peek : Reader τ (Option τ) := fun s => .ok s.rest.head? s

def bump : Reader τ Unit := fun s => .ok () ⟨s.pos + 1, s.rest.tail⟩

/-- Takes the tokens that `p` holds of. -/
def takeWhile (p : τ → Bool) : Reader τ (List τ) := fun s =>
  .ok (s.rest.takeWhile p) ⟨s.pos + (s.rest.takeWhile p).length, s.rest.dropWhile p⟩

/-- How many tokens are left, which the fuel of a loop is taken from. -/
def remaining : Reader τ ℕ := fun s => .ok s.rest.length s

/-- The next `n` tokens, if there are so many. -/
def next (n : ℕ) : Reader τ (Option (List τ)) := fun s =>
  .ok (if n ≤ s.rest.length then some (s.rest.take n) else none) s

/-- Skips `n` tokens. -/
def advance (n : ℕ) : Reader τ Unit := fun s => .ok () ⟨s.pos + n, s.rest.drop n⟩

/-! ### What a reader reads -/

/-- From `s` the fuel of `m` lasts, and what it reads, with the cursor after it, is as `q` says. -/
structure Reads (s : Cursor τ) (m : Reader τ α) (q : α → Cursor τ → Prop) : Prop where
  ok : ∀ a s', m s = .ok a s' → q a s'
  fuel : ∀ s', m s ≠ .error .exhausted s'

variable {s s' : Cursor τ} {m : Reader τ α} {f : α → Reader τ β} {q q' : α → Cursor τ → Prop}
  {r : β → Cursor τ → Prop} {a : α}

theorem bind_run (hm : m s = .ok a s') : (m >>= f) s = f a s' := by
  show EStateM.bind m f s = f a s'
  rw [EStateM.bind, hm]

theorem bind_run_error {e : Refusal} (hm : m s = .error e s') : (m >>= f) s = .error e s' := by
  show EStateM.bind m f s = .error e s'
  rw [EStateM.bind, hm]

theorem Reads.mono (h : Reads s m q) (hq : ∀ a s', q a s' → q' a s') : Reads s m q' :=
  ⟨fun a s' hres => hq a s' (h.ok a s' hres), h.fuel⟩

/-- A sequence: the second part starts where the first ends. -/
theorem Reads.bind (hm : Reads s m q) (hf : ∀ a s', q a s' → Reads s' (f a) r) :
    Reads s (m >>= f) r := by
  cases hres : m s with
  | ok a s' =>
    have hend := hf a s' (hm.ok a s' hres)
    constructor
    · intro b s'' hrun
      rw [bind_run hres] at hrun
      exact hend.ok b s'' hrun
    · intro s''
      rw [bind_run hres]
      exact hend.fuel s''
  | error e s' =>
    constructor
    · intro b s'' hrun
      rw [bind_run_error hres] at hrun
      exact absurd hrun nofun
    · intro s'' hrun
      rw [bind_run_error hres] at hrun
      cases hrun
      exact hm.fuel s' hres

theorem reads_pure (h : q a s) : Reads s (pure a) q := by
  constructor
  · intro b s' hres
    cases hres
    exact h
  · exact nofun

theorem reads_refuse (text : ℕ → String) : Reads s (refuse text) q := ⟨nofun, nofun⟩

theorem Reads.ite {c : Prop} [Decidable c] {m' : Reader τ α} (h : c → Reads s m q)
    (h' : ¬c → Reads s m' q) : Reads s (if c then m else m') q := by
  split
  · next hc => exact h hc
  · next hc => exact h' hc

theorem reads_demand {ok : Prop} [Decidable ok] {text : ℕ → String} :
    Reads s (demand ok text) fun _ s' => ok ∧ s' = s :=
  .ite (fun hok => reads_pure ⟨hok, rfl⟩) fun _ => reads_refuse text

theorem reads_peek : Reads s peek fun c s' => c = s.rest.head? ∧ s' = s := by
  constructor
  · intro c s' hres
    cases hres
    exact ⟨rfl, rfl⟩
  · exact nofun

theorem reads_remaining : Reads s remaining fun n s' => n = s.rest.length ∧ s' = s := by
  constructor
  · intro n s' hres
    cases hres
    exact ⟨rfl, rfl⟩
  · exact nofun

theorem reads_bump : Reads s bump fun _ s' => s' = ⟨s.pos + 1, s.rest.tail⟩ := by
  constructor
  · intro c s' hres
    cases hres
    rfl
  · exact nofun

theorem reads_takeWhile (p : τ → Bool) : Reads s (takeWhile p) fun taken s' =>
    taken = s.rest.takeWhile p ∧ s'.rest = s.rest.dropWhile p := by
  constructor
  · intro taken s' hres
    cases hres
    exact ⟨rfl, rfl⟩
  · exact nofun

theorem reads_next (n : ℕ) : Reads s (next n) fun taken s' =>
    taken = (if n ≤ s.rest.length then some (s.rest.take n) else none) ∧ s' = s := by
  constructor
  · intro taken s' hres
    cases hres
    exact ⟨rfl, rfl⟩
  · exact nofun

theorem reads_advance (n : ℕ) : Reads s (advance n) fun _ s' => s'.rest = s.rest.drop n := by
  constructor
  · intro c s' hres
    cases hres
    rfl
  · exact nofun

/-! ### What a reader that succeeds has read -/

/-- If `m` reads something from `s`, it is as `q` says. -/
def Ends (s : Cursor τ) (m : Reader τ α) (q : α → Cursor τ → Prop) : Prop :=
  ∀ a s', m s = .ok a s' → q a s'

theorem Reads.ends (h : Reads s m q) : Ends s m q := h.ok

theorem Ends.mono (h : Ends s m q) (hq : ∀ a s', q a s' → q' a s') : Ends s m q' :=
  fun a s' hres => hq a s' (h a s' hres)

/-- A sequence: the second part starts where the first ends. -/
theorem Ends.bind (hm : Ends s m q) (hf : ∀ a s', q a s' → Ends s' (f a) r) :
    Ends s (m >>= f) r := by
  intro b s'' hrun
  cases hres : m s with
  | ok a s' =>
    rw [bind_run hres] at hrun
    exact hf a s' (hm a s' hres) b s'' hrun
  | error e s' =>
    rw [bind_run_error hres] at hrun
    cases hrun

theorem ends_pure (h : q a s) : Ends s (pure a) q := (reads_pure h).ok

theorem ends_refuse (text : ℕ → String) : Ends s (refuse text) q := (reads_refuse text).ok

theorem Ends.ite {c : Prop} [Decidable c] {m' : Reader τ α} (h : c → Ends s m q)
    (h' : ¬c → Ends s m' q) : Ends s (if c then m else m') q := by
  split
  · next hc => exact h hc
  · next hc => exact h' hc

/-! ### Known runs -/

/-- On `i` the reader reads `a` and leaves `o`, at any position. -/
def Runs (m : Reader τ α) (i : List τ) (a : α) (o : List τ) : Prop :=
  ∀ pos, ∃ pos', m ⟨pos, i⟩ = .ok a ⟨pos', o⟩

/-- On `i` the reader fails. -/
def Fails (m : Reader τ α) (i : List τ) : Prop := ∀ pos, ∃ e s, m ⟨pos, i⟩ = .error e s

/-- On `i` the reader reads what is in `x` and leaves `o`, or fails if nothing is. -/
structure Gives (m : Reader τ α) (i : List τ) (x : Option α) (o : List τ) : Prop where
  runs : ∀ a, x = some a → Runs m i a o
  fails : x = none → Fails m i

variable {i o o' : List τ} {b : β} {x : Option α} {y : Option β}

theorem Runs.bind (hm : Runs m i a o) (hf : Runs (f a) o b o') : Runs (m >>= f) i b o' := by
  intro pos
  obtain ⟨pos', hrun⟩ := hm pos
  obtain ⟨pos'', hrun'⟩ := hf pos'
  exact ⟨pos'', (bind_run hrun).trans hrun'⟩

theorem Runs.bind_fails (hm : Runs m i a o) (hf : Fails (f a) o) : Fails (m >>= f) i := by
  intro pos
  obtain ⟨pos', hrun⟩ := hm pos
  obtain ⟨e, s, hrun'⟩ := hf pos'
  exact ⟨e, s, (bind_run hrun).trans hrun'⟩

theorem Fails.bind (hm : Fails m i) : Fails (m >>= f) i := by
  intro pos
  obtain ⟨e, s, hrun⟩ := hm pos
  exact ⟨e, s, bind_run_error hrun⟩

theorem Runs.gives (hm : Runs m i a o) : Gives m i (some a) o :=
  ⟨fun _ h => Option.some.inj h ▸ hm, nofun⟩

/-- A known first part before one that may fail. -/
theorem Runs.next (hm : Runs m i a o) (hf : Gives (f a) o y o') : Gives (m >>= f) i y o' :=
  ⟨fun b h => hm.bind (hf.runs b h), fun h => hm.bind_fails (hf.fails h)⟩

/-- The rule of sequences for parts that may fail. -/
theorem Gives.bind {g : α → Option β} (hm : Gives m i x o)
    (hf : ∀ a, x = some a → Gives (f a) o (g a) o') : Gives (m >>= f) i (x.bind g) o' := by
  cases x with
  | none => exact ⟨nofun, fun _ => (hm.fails rfl).bind⟩
  | some a => exact (hm.runs a rfl).next (hf a rfl)

theorem runs_pure (a : α) (i : List τ) : Runs (pure a) i a i := fun pos => ⟨pos, rfl⟩

theorem runs_peek (i : List τ) : Runs peek i i.head? i := fun pos => ⟨pos, rfl⟩

theorem runs_remaining (i : List τ) : Runs remaining i i.length i := fun pos => ⟨pos, rfl⟩

theorem runs_bump (c : τ) (i : List τ) : Runs bump (c :: i) () i := fun pos => ⟨pos + 1, rfl⟩

theorem runs_demand {ok : Prop} [Decidable ok] {text : ℕ → String} (h : ok) (i : List τ) :
    Runs (demand ok text) i () i := by
  intro pos
  rw [demand, if_pos h]
  exact ⟨pos, rfl⟩

theorem runs_takeWhile (p : τ → Bool) (i : List τ) :
    Runs (takeWhile p) i (i.takeWhile p) (i.dropWhile p) :=
  fun pos => ⟨pos + (i.takeWhile p).length, rfl⟩

theorem runs_next {n : ℕ} (h : n ≤ i.length) : Runs (next n) i (some (i.take n)) i := by
  intro pos
  refine ⟨pos, ?_⟩
  rw [next, if_pos h]

theorem runs_advance (n : ℕ) (i : List τ) : Runs (advance n) i () (i.drop n) :=
  fun pos => ⟨pos + n, rfl⟩

theorem fails_refuse (text : ℕ → String) (i : List τ) : Fails (refuse text : Reader τ α) i :=
  fun pos => ⟨.refused (text pos), ⟨pos, i⟩, rfl⟩

end Reader

end Mimo26

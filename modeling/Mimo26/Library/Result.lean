import Mathlib.Data.List.Forall2

/-!
# Results of fallible computations

Peeling an `Except` computation apart, and running one over a list. A proof about a function in
`do` notation takes the function's steps one at a time by `bind_eq_ok` and never unfolds the monad.

## Main results

* `demand_eq_ok` — a check that is passed holds
* `bind_eq_ok`, `bind_eq_error` — a sequence succeeds through its parts, and fails in one of them
* `forall₂_of_mapM` — a loop that succeeds gives the result of each step
* `mapM_range_eq_ok` — an indexed loop that succeeds on every index
* `forM_eq_ok` — a loop of checks succeeds when every check does
-/

namespace Mimo26

namespace Result

universe u v

variable {ε : Type u} {α β : Type v}

theorem bind_eq_ok {x : Except ε α} {f : α → Except ε β} {b : β} :
    x >>= f = .ok b ↔ ∃ a, x = .ok a ∧ f a = .ok b := by
  cases x with
  | error e =>
    constructor
    · intro h
      exact absurd h (by simp [bind, Except.bind])
    · rintro ⟨a, h, -⟩
      exact absurd h (by simp)
  | ok a =>
    constructor
    · intro h
      exact ⟨a, rfl, h⟩
    · rintro ⟨a', h, hf⟩
      obtain rfl := Except.ok.inj h
      exact hf

theorem bind_eq_error {x : Except ε α} {f : α → Except ε β} {e : ε} :
    x >>= f = .error e ↔ x = .error e ∨ ∃ a, x = .ok a ∧ f a = .error e := by
  cases x with
  | error e' =>
    constructor
    · intro h
      exact Or.inl (by rw [Except.error.inj h])
    · rintro (h | ⟨a, h, -⟩)
      · rw [Except.error.inj h]
        rfl
      · exact absurd h (by simp)
  | ok a =>
    constructor
    · exact fun h => Or.inr ⟨a, rfl, h⟩
    · rintro (h | ⟨a', h, hf⟩)
      · exact absurd h (by simp)
      · obtain rfl := Except.ok.inj h
        exact hf

theorem map_eq_ok {f : α → β} {x : Except ε α} {b : β} :
    x.map f = .ok b ↔ ∃ a, x = .ok a ∧ f a = b := by
  cases x with
  | error e => exact iff_of_false nofun fun ⟨a, h, _⟩ => nomatch h
  | ok a =>
    constructor
    · exact fun h => ⟨a, rfl, Except.ok.inj h⟩
    · rintro ⟨a', h, rfl⟩
      rw [Except.ok.inj h]
      rfl

@[simp] theorem ok_bind (a : α) (f : α → Except ε β) : (Except.ok a : Except ε α) >>= f = f a :=
  rfl

@[simp] theorem error_bind (e : ε) (f : α → Except ε β) :
    (Except.error e : Except ε α) >>= f = .error e := rfl

@[simp] theorem pure_eq_ok (a : α) : (pure a : Except ε α) = .ok a := rfl

@[simp] theorem throw_eq_error (e : ε) : (throw e : Except ε α) = .error e := rfl

/-- A check. -/
def demand (p : Prop) [Decidable p] (e : ε) : Except ε Unit := if p then .ok () else .error e

theorem demand_eq_ok {p : Prop} [Decidable p] {e : ε} : demand p e = .ok () ↔ p := by
  rw [demand]
  split
  · next h => exact ⟨fun _ => h, fun _ => rfl⟩
  · next h => exact ⟨fun h' => absurd h' (by simp), fun h' => absurd h' h⟩

theorem mapM_eq_ok {f : α → Except ε β} {g : α → β} {l : List α} (h : ∀ a ∈ l, f a = .ok (g a)) :
    l.mapM f = .ok (l.map g) := by
  induction l with
  | nil => rfl
  | cons a l ih =>
    rw [List.mapM_cons, h a List.mem_cons_self, ih fun b hb => h b (List.mem_cons_of_mem a hb)]
    rfl

/-- A loop whose steps succeed succeeds. -/
theorem exists_mapM_eq_ok {f : α → Except ε β} {l : List α} (h : ∀ a ∈ l, ∃ b, f a = .ok b) :
    ∃ bs, l.mapM f = .ok bs := by
  induction l with
  | nil => exact ⟨[], rfl⟩
  | cons a l ih =>
    obtain ⟨b, hb⟩ := h a List.mem_cons_self
    obtain ⟨bs, hbs⟩ := ih fun a' ha' => h a' (List.mem_cons_of_mem a ha')
    exact ⟨b :: bs, by rw [List.mapM_cons, hb, ok_bind, hbs]; rfl⟩

/-- A loop of steps each of which adds what it should adds up to what it should. -/
theorem exists_mapM_flatMap {γ : Type*} {f : α → Except ε β} {g : β → List γ} {w : α → List γ}
    {l : List α}
    (h : ∀ a ∈ l, ∃ b, f a = .ok b ∧ g b = w a) : ∃ bs, l.mapM f = .ok bs ∧
        bs.flatMap g = l.flatMap w := by
  induction l with
  | nil => exact ⟨[], rfl, rfl⟩
  | cons a l ih =>
    obtain ⟨b, hb, hgb⟩ := h a List.mem_cons_self
    obtain ⟨bs, hbs, hgbs⟩ := ih fun a' ha' => h a' (List.mem_cons_of_mem a ha')
    refine ⟨b :: bs, by rw [List.mapM_cons, hb, ok_bind, hbs]; rfl, ?_⟩
    rw [List.flatMap_cons, List.flatMap_cons, hgb, hgbs]

/-- A loop that succeeds gives the result of each step. -/
theorem forall₂_of_mapM {f : α → Except ε β} {l : List α} {bs : List β} (h : l.mapM f = .ok bs) :
    List.Forall₂ (fun a b => f a = .ok b) l bs := by
  induction l generalizing bs with
  | nil =>
    obtain rfl := Except.ok.inj h
    exact .nil
  | cons a l ih =>
    rw [List.mapM_cons, bind_eq_ok] at h
    obtain ⟨b, hb, h⟩ := h
    obtain ⟨bs', hbs', h⟩ := bind_eq_ok.mp h
    obtain rfl := Except.ok.inj h
    exact .cons hb (ih hbs')

/-- Entry by entry. -/
theorem getElem?_of_mapM {f : α → Except ε β} {l : List α} {bs : List β} (h : l.mapM f = .ok bs)
    {i : ℕ} {a : α} (ha : l[i]? = some a) : ∃ b, bs[i]? = some b ∧ f a = .ok b := by
  have hall := forall₂_of_mapM h
  clear h
  induction hall generalizing i with
  | nil => exact absurd ha (by simp)
  | @cons a' b l bs hab hall ih =>
    cases i with
    | zero =>
      obtain rfl := Option.some.inj ha
      exact ⟨b, rfl, hab⟩
    | succ i => exact ih ha

/-- A loop whose steps are parts of the steps of another. -/
theorem mapM_of_mapM {γ : Type v} {f : α → Except ε β} {f' : α → Except ε γ} {g : β → γ}
    {l : List α} {bs : List β} (h : l.mapM f = .ok bs)
    (hstep : ∀ a b, f a = .ok b → f' a = .ok (g b)) : l.mapM f' = .ok (bs.map g) := by
  have hall := forall₂_of_mapM h
  clear h
  induction hall with
  | nil => rfl
  | @cons a b l bs hab hall ih =>
    rw [List.mapM_cons, hstep a b hab, ok_bind, ih]
    rfl

/-- Each result is that of a step. -/
theorem exists_mem_of_mapM {f : α → Except ε β} {l : List α} {bs : List β}
    (h : l.mapM f = .ok bs) {b : β} (hb : b ∈ bs) : ∃ a ∈ l, f a = .ok b := by
  have hall := forall₂_of_mapM h
  clear h
  induction hall with
  | nil => exact absurd hb List.not_mem_nil
  | @cons a b' l bs hab hall ih =>
    rcases List.mem_cons.mp hb with rfl | hmem
    · exact ⟨a, List.mem_cons_self, hab⟩
    · obtain ⟨a', ha', hf⟩ := ih hmem
      exact ⟨a', List.mem_cons_of_mem a ha', hf⟩

/-- A loop over indices that reads entry `i` of a list in step `i` reads the list. -/
theorem mapM_range_eq_ok {f : ℕ → Except ε β} {l : List β}
    (h : ∀ (i : ℕ) (hi : i < l.length), f i = .ok l[i]) : (List.range l.length).mapM f = .ok l := by
  induction l generalizing f with
  | nil => rfl
  | cons b l ih =>
    have hhead : f 0 = .ok b := h 0 (by simp)
    have htail : (List.range l.length).mapM (fun i => f (i + 1)) = .ok l :=
      ih fun i hi => h (i + 1) (by simpa using hi)
    rw [List.length_cons, List.range_succ_eq_map, List.mapM_cons, hhead, ok_bind, List.mapM_map,
      Function.comp_def, htail]
    rfl

/-- A loop over indices that does in step `i` what a loop over a list does with entry `i`. -/
theorem mapM_range_congr {f : α → Except ε β} {g : ℕ → Except ε β} {l : List α}
    (h : ∀ (i : ℕ) (hi : i < l.length), g i = f l[i]) :
        (List.range l.length).mapM g = l.mapM f := by
  induction l generalizing g with
  | nil => rfl
  | cons a l ih =>
    have htail : (List.range l.length).mapM (fun i => g (i + 1)) = l.mapM f :=
      ih fun i hi => h (i + 1) (by simpa using hi)
    have hhead : g 0 = f a := h 0 (Nat.succ_pos _)
    rw [List.length_cons, List.range_succ_eq_map, List.mapM_cons, List.mapM_cons, hhead,
      List.mapM_map,
      Function.comp_def, htail]

/-- What an indexed loop reads. -/
theorem mapM_range_eq_ok_iff {γ : Type} {f : ℕ → Except ε γ} {n : ℕ} {l : List γ} :
    (List.range n).mapM f = .ok l ↔ l.length = n ∧ ∀ (i : ℕ) (hi : i < l.length), f i =
        .ok l[i] := by
  constructor
  · intro h
    have hall := forall₂_of_mapM h
    have hlen : l.length = n := by rw [← hall.length_eq, List.length_range]
    refine ⟨hlen, fun i hi => ?_⟩
    have hread := hall.get (by rwa [List.length_range, ← hlen]) hi
    simpa using hread
  · rintro ⟨rfl, h⟩
    exact mapM_range_eq_ok h

theorem forM_eq_ok {f : α → Except ε PUnit} {l : List α} :
    l.forM f = .ok ⟨⟩ ↔ ∀ a ∈ l, f a = .ok ⟨⟩ := by
  induction l with
  | nil => simp
  | cons a l ih =>
    rw [List.forM_eq_forM, List.forM_cons, bind_eq_ok, List.forall_mem_cons]
    constructor
    · rintro ⟨⟨⟩, ha, hl⟩
      exact ⟨ha, ih.mp hl⟩
    · rintro ⟨ha, hl⟩
      exact ⟨⟨⟩, ha, ih.mpr hl⟩

/-- A fold that succeeds took every step. -/
theorem exists_step_of_foldlM {f : β → α → Except ε β} {l : List α} {b c : β}
    (h : l.foldlM f b = .ok c) {a : α}
    (ha : a ∈ l) : ∃ b' c', f b' a = .ok c' := by
  induction l generalizing b with
  | nil => exact absurd ha List.not_mem_nil
  | cons a' l ih =>
    rw [List.foldlM_cons] at h
    obtain ⟨c', hstep, hrest⟩ := bind_eq_ok.mp h
    rcases List.mem_cons.mp ha with rfl | hmem
    · exact ⟨b, c', hstep⟩
    · exact ih hrest hmem

end Result

end Mimo26

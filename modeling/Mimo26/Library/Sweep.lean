import Mathlib.Data.List.ReduceOption

/-!
# Loops over what may be missing

A loop that reads something for each index, where a read may panic, is a loop over what was read:
the reads come first, and the loop is a fold. So loops that read the same in other pieces can be
compared by what they read.

## Main results

* `foldlM_map` — a loop is a fold over what it reads
* `mapM_flatMap` — reading in pieces
* `foldl_reduceOption` — a loop that passes over some entries
-/

namespace Mimo26

namespace Sweep

variable {α β σ : Type}

/-- **The reads come first.** -/
theorem foldlM_map (g : α → Option β) (f : σ → β → σ) (xs : List α) (s : σ) :
    xs.foldlM (fun s x => (g x).map (f s)) s = (xs.mapM g).map (·.foldl f s) := by
  induction xs generalizing s with
  | nil => rfl
  | cons x xs ih =>
    rw [List.foldlM_cons, List.mapM_cons]
    cases g x with
    | none => rfl
    | some y =>
      show xs.foldlM _ (f s y) = _
      rw [ih]
      show _ = Option.map _ (Option.bind (some y) fun y => Option.bind (xs.mapM g) fun ys => _)
      cases xs.mapM g with
      | none => rfl
      | some ys => rfl

theorem mapM_append (g : α → Option β) (xs ys : List α) : (xs ++ ys).mapM g =
    (xs.mapM g).bind fun zs => (ys.mapM g).map fun ws => zs ++ ws := by
  rw [List.mapM_append]
  cases xs.mapM g with
  | none => rfl
  | some zs =>
    cases ys.mapM g with
    | none => rfl
    | some ws => rfl

/-- **Reading in pieces.** -/
theorem mapM_flatMap {γ : Type} (g : β → Option γ) (f : α → List β) (xs : List α) :
    (xs.flatMap f).mapM g = (xs.mapM fun x => (f x).mapM g).map List.flatten := by
  induction xs with
  | nil => rfl
  | cons x xs ih =>
    rw [List.flatMap_cons, mapM_append, ih, List.mapM_cons]
    cases (f x).mapM g with
    | none => rfl
    | some ys =>
      cases xs.mapM fun x => (f x).mapM g with
      | none => rfl
      | some yss => rfl

theorem mapM_congr {f g : α → Option β} {xs : List α} (h : ∀ x ∈ xs, f x = g x) :
    xs.mapM f = xs.mapM g := by
  induction xs with
  | nil => rfl
  | cons x xs ih =>
    rw [List.forall_mem_cons] at h
    rw [List.mapM_cons, List.mapM_cons, h.1, ih h.2]

/-- What is read of each entry has what one read gives. -/
theorem forall_of_mapM {g : α → Option β} {P : β → Prop} {xs : List α} {ys : List β}
    (h : xs.mapM g = some ys) (hg : ∀ x ∈ xs, ∀ y, g x = some y → P y) : ∀ y ∈ ys, P y := by
  induction xs generalizing ys with
  | nil =>
    obtain rfl := Option.some.inj h
    exact fun y hy => absurd hy List.not_mem_nil
  | cons x xs ih =>
    rw [List.forall_mem_cons] at hg
    rw [List.mapM_cons] at h
    obtain ⟨z, hz, h⟩ := Option.bind_eq_some_iff.mp h
    obtain ⟨zs, hzs, h⟩ := Option.bind_eq_some_iff.mp h
    obtain rfl := Option.some.inj h
    rw [List.forall_mem_cons]
    exact ⟨hg.1 z hz, ih hzs hg.2⟩

theorem length_of_mapM {g : α → Option β} {xs : List α} {ys : List β}
    (h : xs.mapM g = some ys) : ys.length = xs.length := by
  induction xs generalizing ys with
  | nil =>
    obtain rfl := Option.some.inj h
    rfl
  | cons x xs ih =>
    rw [List.mapM_cons] at h
    obtain ⟨z, -, h⟩ := Option.bind_eq_some_iff.mp h
    obtain ⟨zs, hzs, h⟩ := Option.bind_eq_some_iff.mp h
    obtain rfl := Option.some.inj h
    rw [List.length_cons, List.length_cons, ih hzs]

/-- Reads that all succeed. -/
theorem mapM_eq_some {g : α → Option β} {f : α → β} {xs : List α}
    (h : ∀ x ∈ xs, g x = some (f x)) : xs.mapM g = some (xs.map f) := by
  induction xs with
  | nil => rfl
  | cons x xs ih =>
    rw [List.forall_mem_cons] at h
    rw [List.mapM_cons, h.1, ih h.2]
    rfl

/-- A read that another one determines. -/
theorem mapM_of_mapM {γ : Type} {g : α → Option β} {g' : α → Option γ} {f : β → γ} {xs : List α}
    {ys : List β} (h : xs.mapM g = some ys) (hg : ∀ x y, g x = some y → g' x = some (f y)) :
    xs.mapM g' = some (ys.map f) := by
  induction xs generalizing ys with
  | nil =>
    obtain rfl := Option.some.inj h
    rfl
  | cons x xs ih =>
    rw [List.mapM_cons] at h
    obtain ⟨z, hz, h⟩ := Option.bind_eq_some_iff.mp h
    obtain ⟨zs, hzs, h⟩ := Option.bind_eq_some_iff.mp h
    obtain rfl := Option.some.inj h
    rw [List.mapM_cons, hg x z hz, ih hzs]
    rfl

/-- Each read changed by a function. -/
theorem mapM_option_map {γ : Type} (g : α → Option β) (f : β → γ) (xs : List α) :
    (xs.mapM fun x => (g x).map f) = (xs.mapM g).map (List.map f) := by
  induction xs with
  | nil => rfl
  | cons x xs ih =>
    rw [List.mapM_cons, List.mapM_cons, ih]
    cases g x with
    | none => rfl
    | some y =>
      cases xs.mapM g with
      | none => rfl
      | some ys => rfl

/-- **A loop that passes over some entries.** -/
theorem foldl_reduceOption (f : σ → β → σ) (ys : List (Option β)) (s : σ) :
    ys.foldl (fun s y => y.elim s (f s)) s = ys.reduceOption.foldl f s := by
  induction ys generalizing s with
  | nil => rfl
  | cons y ys ih =>
    cases y with
    | none => exact ih s
    | some y => exact ih (f s y)

theorem reduceOption_flatten (yss : List (List (Option β))) :
    yss.flatten.reduceOption = (yss.map List.reduceOption).flatten := by
  induction yss with
  | nil => rfl
  | cons ys yss ih =>
    rw [List.flatten_cons, List.reduceOption_append, ih, List.map_cons, List.flatten_cons]

end Sweep

end Mimo26

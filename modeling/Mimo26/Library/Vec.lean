import Mathlib.Data.List.Perm.Basic
import Mathlib.Data.List.GetD

/-!
# Vectors

`swap_remove` and the index of the first minimum, on lists.

## Main definitions

* `swapRemove` — an entry removed, the last one in its place
* `minIdx` — the index of the first entry with the least key

## Main results

* `perm_swapRemove` — the other entries stay
* `minIdx_lt`, `minIdx_eq_none` — an index of the list, unless it is empty
-/

namespace Mimo26

namespace Vec

variable {α : Type*}

/-- The list without entry `i`, whose place the last one takes. -/
def swapRemove (l : List α) (i : ℕ) : List α :=
  match l.getLast? with
  | none => []
  | some x => (l.set i x).dropLast

/-- The other entries stay. -/
theorem perm_swapRemove {l : List α} {i : ℕ} {a : α} (h : l[i]? = some a) :
    l.Perm (a :: swapRemove l i) := by
  rcases List.eq_nil_or_concat l with rfl | ⟨init, x, rfl⟩
  · exact absurd h (by simp)
  · rw [List.concat_eq_append] at h ⊢
    rw [swapRemove, List.getLast?_append_of_ne_nil _ (by simp)]
    show (init ++ [x]).Perm (a :: ((init ++ [x]).set i x).dropLast)
    rcases Nat.lt_or_ge i init.length with hi | hi
    · rw [List.getElem?_append_left hi] at h
      rw [List.set_append_left _ _ hi, List.dropLast_concat]
      obtain ⟨_, ha⟩ := List.getElem?_eq_some_iff.mp h
      have hsplit : init = init.take i ++ a :: init.drop (i + 1) := by
        rw [← ha, List.getElem_cons_drop, List.take_append_drop]
      have hset : init.set i x = init.take i ++ x :: init.drop (i + 1) :=
        List.set_eq_take_append_cons_drop ▸ if_pos hi
      rw [hset]
      nth_rewrite 1 [hsplit]
      rw [List.append_assoc, List.cons_append]
      refine List.perm_middle.trans (List.Perm.cons a ?_)
      rw [← List.append_assoc]
      refine (List.perm_append_singleton x _).trans ?_
      exact List.perm_middle.symm
    · rw [List.getElem?_append_right hi] at h
      have hlast : i = init.length := by
        have hlt := (List.getElem?_eq_some_iff.mp h).1
        simp at hlt
        omega
      subst hlast
      rw [Nat.sub_self] at h
      obtain rfl : x = a := by simpa using h
      rw [List.set_append_right _ _ (Nat.le_refl _), Nat.sub_self]
      show (init ++ [x]).Perm (x :: (init ++ [x]).dropLast)
      rw [List.dropLast_concat]
      exact List.perm_append_singleton x init

theorem subperm_swapRemove {l : List α} {i : ℕ} (h : i < l.length) : (swapRemove l i).Subperm l :=
  (List.sublist_cons_self _ _).subperm.trans
    (perm_swapRemove (List.getElem?_eq_getElem h)).symm.subperm

theorem mem_swapRemove {l : List α} {i : ℕ} {x : α} (h : x ∈ swapRemove l i) : x ∈ l := by
  rw [swapRemove] at h
  cases hlast : l.getLast? with
  | none => rw [hlast] at h; exact absurd h List.not_mem_nil
  | some y =>
    rw [hlast] at h
    rcases List.mem_or_eq_of_mem_set ((List.dropLast_sublist _).subset h) with hx | rfl
    · exact hx
    · exact List.mem_of_getLast? hlast

/-- The index and the key of the first entry with the least key, counted from `i` on. -/
def minFrom {κ : Type*} (lt : κ → κ → Bool) (key : α → κ) : ℕ → List α → Option (ℕ × κ)
  | _, [] => none
  | i, a :: l =>
    match minFrom lt key (i + 1) l with
    | none => some (i, key a)
    | some (j, k) => if lt k (key a) then some (j, k) else some (i, key a)

/-- The index of the first entry with the least key. -/
def minIdx {κ : Type*} (lt : κ → κ → Bool) (key : α → κ) (l : List α) : Option ℕ :=
  (minFrom lt key 0 l).map (·.1)

variable {κ : Type*} {lt : κ → κ → Bool} {key : α → κ}

theorem minFrom_lt {l : List α} {i j : ℕ} {k : κ} (h : minFrom lt key i l = some (j, k)) :
    i ≤ j ∧ j < i + l.length := by
  induction l generalizing i j k with
  | nil => exact absurd h (by simp [minFrom])
  | cons a l ih =>
    rw [minFrom] at h
    rw [List.length_cons]
    split at h
    · obtain ⟨rfl, -⟩ := Prod.mk.inj (Option.some.inj h)
      omega
    · next j' k' hj =>
      have hrec := ih hj
      split at h
      · obtain ⟨rfl, -⟩ := Prod.mk.inj (Option.some.inj h)
        omega
      · obtain ⟨rfl, -⟩ := Prod.mk.inj (Option.some.inj h)
        omega

theorem minIdx_lt {l : List α} {j : ℕ} (h : minIdx lt key l = some j) : j < l.length := by
  rw [minIdx, Option.map_eq_some_iff] at h
  obtain ⟨⟨j', k⟩, hj, rfl⟩ := h
  have hlt := (minFrom_lt hj).2
  omega

theorem minIdx_eq_none {l : List α} (h : minIdx lt key l = none) : l = [] := by
  cases l with
  | nil => rfl
  | cons a l =>
    rw [minIdx, Option.map_eq_none_iff, minFrom] at h
    split at h
    · exact absurd h (by simp)
    · split at h
      · exact absurd h (by simp)
      · exact absurd h (by simp)

end Vec

end Mimo26

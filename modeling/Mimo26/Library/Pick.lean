import Mathlib.Data.List.Basic
import Mathlib.Data.List.Induction
import Mathlib.Order.Basic
import Mathlib.Order.Lattice

/-!
# The first greatest

A loop that keeps the best entry so far and replaces it by a strictly better one ends with the first
of the greatest.

## Main definitions

* `keep`, `pick` — a turn of the loop, and what it ends with

## Main results

* `pick_spec` — every entry before the pick is less, and none after it is greater
* `pick_eq_find?` — the pick is the first entry that reaches a bound which one reaches
-/

namespace Mimo26

namespace Pick

variable {α κ : Type*} [LinearOrder κ] (key : α → κ)

/-- The best so far, or a strictly better entry. -/
def keep (best : Option α) (x : α) : Option α :=
  if best.all (fun b => decide (key b < key x)) then some x else best

/-- The best of a list. -/
def pick (l : List α) : Option α := l.foldl (keep key) none

variable {key}

theorem pick_concat (l : List α) (x : α) : pick key (l ++ [x]) = keep key (pick key l) x := by
  rw [pick, List.foldl_append, List.foldl_cons, List.foldl_nil, pick]

theorem pick_eq_none {l : List α} : pick key l = none ↔ l = [] := by
  induction l using List.reverseRecOn with
  | nil => exact iff_of_true rfl rfl
  | append_singleton l x ih =>
    rw [pick_concat, keep]
    refine iff_of_false (fun h => ?_) (List.append_ne_nil_of_right_ne_nil l (List.cons_ne_nil x []))
    split at h
    · cases h
    · next hbest =>
      rw [h] at hbest
      exact hbest rfl

/-- **The pick** is the first of the greatest. -/
theorem pick_spec {l : List α} {x : α} (h : pick key l = some x) :
    ∃ a b, l = a ++ x :: b ∧ (∀ y ∈ a, key y < key x) ∧ ∀ y ∈ b, key y ≤ key x := by
  induction l using List.reverseRecOn generalizing x with
  | nil => cases h
  | append_singleton l y ih =>
    rw [pick_concat, keep] at h
    split at h
    · next hbest =>
      obtain rfl := Option.some.inj h
      refine ⟨l, [], rfl, fun z hz => ?_, List.forall_mem_nil _⟩
      cases hl : pick key l with
      | none => exact absurd hz (pick_eq_none.mp hl ▸ List.not_mem_nil)
      | some w =>
        obtain ⟨a, b, rfl, ha, hb⟩ := ih hl
        have hw : key w < key y := by
          rw [hl] at hbest
          exact of_decide_eq_true hbest
        rcases List.mem_append.mp hz with hmem | hmem
        · exact (ha z hmem).trans hw
        · rcases List.mem_cons.mp hmem with rfl | hmem
          · exact hw
          · exact (hb z hmem).trans_lt hw
    · next hbest =>
      obtain ⟨a, b, rfl, ha, hb⟩ := ih h
      have hy : key y ≤ key x := by
        rw [h] at hbest
        exact not_lt.mp fun hlt => hbest (decide_eq_true hlt)
      refine ⟨a, b ++ [y], by rw [List.append_assoc, List.cons_append], ha, fun z hz => ?_⟩
      rcases List.mem_append.mp hz with hmem | hmem
      · exact hb z hmem
      · rw [List.mem_singleton.mp hmem]
        exact hy

theorem mem_of_pick {l : List α} {x : α} (h : pick key l = some x) : x ∈ l := by
  obtain ⟨a, b, rfl, -⟩ := pick_spec h
  exact List.mem_append_right a List.mem_cons_self

theorem le_of_pick {l : List α} {x y : α} (h : pick key l = some x) (hy : y ∈ l) :
    key y ≤ key x := by
  obtain ⟨a, b, rfl, ha, hb⟩ := pick_spec h
  rcases List.mem_append.mp hy with hmem | hmem
  · exact (ha y hmem).le
  · rcases List.mem_cons.mp hmem with rfl | hmem
    · exact le_rfl
    · exact hb y hmem

/-- **A bound that an entry reaches.** -/
theorem pick_eq_find? {l : List α} {k : κ} (hle : ∀ y ∈ l, key y ≤ k) (hk : ∃ y ∈ l, key y = k) :
    pick key l = l.find? fun y => decide (key y = k) := by
  obtain ⟨y, hy, hyk⟩ := hk
  cases h : pick key l with
  | none => exact absurd hy (pick_eq_none.mp h ▸ List.not_mem_nil)
  | some x =>
    have hx : key x = k := (hle x (mem_of_pick h)).antisymm (hyk ▸ le_of_pick h hy)
    obtain ⟨a, b, rfl, ha, -⟩ := pick_spec h
    refine (List.find?_eq_some_iff_append.mpr ⟨?_, a, b, rfl, fun z hz => ?_⟩).symm
    · exact decide_eq_true hx
    · rw [← hx]
      simpa using (ha z hz).ne

end Pick

end Mimo26

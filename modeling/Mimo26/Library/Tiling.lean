import Mathlib.Data.List.Range

/-!
# Consecutive spans

A span is a start and a length. Spans tile an interval when the first starts at its lower end, each
other one where the one before it ends, and the last ends at the upper end.

## Main definitions

* `Tile` — the spans follow one another from one end to the other

## Main results

* `Tile.append`, `Tile.concat` — intervals that meet
* `Tile.mem_iff`, `Tile.pairwise` — every position of the interval, and no other, is in a span, and
  no two spans overlap
-/

namespace Mimo26

namespace Tiling

/-- The spans follow one another from `a` to `b`. -/
def Tile : ℕ → ℕ → List (ℕ × ℕ) → Prop
  | a, b, [] => a = b
  | a, b, span :: spans => span.1 = a ∧ Tile (a + span.2) b spans

variable {a b c i : ℕ} {spans spans' : List (ℕ × ℕ)}

theorem Tile.append (h : Tile a b spans) (h' : Tile b c spans') : Tile a c (spans ++ spans') := by
  induction spans generalizing a with
  | nil =>
    have hab : a = b := h
    rwa [hab]
  | cons span spans ih => exact ⟨h.1, ih h.2⟩

theorem Tile.concat (h : Tile a b spans) (t : ℕ) : Tile a (b + t) (spans ++ [(b, t)]) :=
  h.append ⟨rfl, rfl⟩

theorem Tile.le (h : Tile a b spans) : a ≤ b := by
  induction spans generalizing a with
  | nil => exact le_of_eq h
  | cons span spans ih => exact le_trans (Nat.le_add_right a span.2) (ih h.2)

/-- A position is in a span just when it is in the interval. -/
theorem Tile.mem_iff (h : Tile a b spans) :
    (a ≤ i ∧ i < b) ↔ ∃ span ∈ spans, span.1 ≤ i ∧ i < span.1 + span.2 := by
  induction spans generalizing a with
  | nil =>
    have hab : a = b := h
    simp only [List.not_mem_nil, false_and, exists_false, iff_false]
    omega
  | cons span spans ih =>
    obtain ⟨rfl, hrest⟩ := h
    have hle := hrest.le
    simp only [List.mem_cons, exists_eq_or_imp, ← ih hrest]
    omega

/-- A span starts at or after the end of those before it. -/
theorem Tile.pairwise (h : Tile a b spans) :
    spans.Pairwise fun span span' => span.1 + span.2 ≤ span'.1 := by
  have hstart : ∀ {a : ℕ} {spans : List (ℕ × ℕ)}, Tile a b spans → ∀ span ∈ spans, a ≤ span.1 := by
    intro a spans h
    induction spans generalizing a with
    | nil => exact List.forall_mem_nil _
    | cons span spans ih =>
      refine List.forall_mem_cons.mpr ⟨le_of_eq h.1.symm, fun span' hspan' => ?_⟩
      exact le_trans (Nat.le_add_right a span.2) (ih h.2 span' hspan')
  induction spans generalizing a with
  | nil => exact List.Pairwise.nil
  | cons span spans ih =>
    refine List.pairwise_cons.mpr ⟨fun span' hspan' => ?_, ih h.2⟩
    rw [h.1]
    exact hstart h.2 span' hspan'

end Tiling

end Mimo26

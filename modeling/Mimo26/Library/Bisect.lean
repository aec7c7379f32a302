import Mathlib.Data.List.Basic
import Mathlib.Data.List.TakeWhile
import Mathlib.Order.Basic
import Mathlib.Order.Lattice

/-!
# Bisection

## Main definitions

* `bisect` — the end of the indices with a property, by halving
* `lowerBound` — the first index of a sorted list whose entry is not less than a bound

## Main results

* `bisect_eq` — the property holds before the result and fails from there on
* `lowerBound_eq` — as many as a scan from the front takes
-/

namespace Mimo26

namespace Bisect

/-- Halve the range until it is empty. -/
def bisect (p : ℕ → Bool) (lo hi : ℕ) : ℕ :=
  if lo < hi then
    if p ((lo + hi) / 2) then bisect p ((lo + hi) / 2 + 1) hi else bisect p lo ((lo + hi) / 2)
  else lo
termination_by hi - lo

theorem bisect_eq {p : ℕ → Bool} {lo hi k : ℕ} (hlo : lo ≤ k) (hhi : k ≤ hi)
    (hbelow : ∀ i < k, p i = true) (habove : ∀ i < hi, k ≤ i → p i = false) :
    bisect p lo hi = k := by
  fun_induction bisect p lo hi with
  | case1 lo hi hlt hp ih =>
    refine ih ?_ hhi habove
    by_contra hle
    rw [habove _ (by omega) (by omega)] at hp
    cases hp
  | case2 lo hi hlt hp ih =>
    refine ih hlo ?_ fun i hi' => habove i (by omega)
    by_contra hle
    exact hp (hbelow _ (by omega))
  | case3 lo hi hge => omega

variable {α : Type*} [LinearOrder α]

/-- How many entries of a sorted list are less than `x`. -/
def lowerBound (v : List α) (x : α) : ℕ := bisect (fun i => v[i]?.any (· < x)) 0 v.length

/-- Past the entries that are less there is no other. -/
theorem le_of_mem_dropWhile {v : List α} (hv : v.Pairwise (· ≤ ·)) {x y : α}
    (hy : y ∈ v.dropWhile (· < x)) : x ≤ y := by
  induction v with
  | nil => exact absurd hy List.not_mem_nil
  | cons a v ih =>
    obtain ⟨ha, hv⟩ := List.pairwise_cons.mp hv
    rw [List.dropWhile_cons] at hy
    split at hy
    · exact ih hv hy
    · next hnot =>
      have hle : x ≤ a := not_lt.mp fun hlt => hnot (decide_eq_true hlt)
      rcases List.mem_cons.mp hy with rfl | hmem
      · exact hle
      · exact hle.trans (ha y hmem)

/-- Entries in front that all have a property are taken. -/
theorem le_length_takeWhile {β : Type*} {p : β → Bool} {l : List β} {k : ℕ} (hk : k ≤ l.length)
    (h : ∀ x ∈ l.take k, p x = true) : k ≤ (l.takeWhile p).length := by
  rw [← List.take_append_drop k l, List.takeWhile_append_of_pos h, List.length_append,
    List.length_take, Nat.min_eq_left hk]
  exact Nat.le_add_right _ _

/-- **On a sorted list** bisection finds what a scan does. -/
theorem lowerBound_eq {v : List α} (hv : v.Pairwise (· ≤ ·)) (x : α) :
    lowerBound v x = (v.takeWhile (· < x)).length := by
  have hsplit := @List.takeWhile_append_dropWhile _ (fun y => decide (y < x)) v
  refine bisect_eq (Nat.zero_le _) (List.takeWhile_prefix _).length_le (fun i hi => ?_)
    fun i hi hle => ?_
  · have hget : v[i]? = some (v.takeWhile (· < x))[i] := by
      conv_lhs => rw [← hsplit]
      rw [List.getElem?_append_left hi, List.getElem?_eq_getElem hi]
    rw [hget, Option.any_some]
    exact @List.mem_takeWhile_imp _ (fun y => decide (y < x)) v _ (List.getElem_mem hi)
  · have hget : v[i]? = (v.dropWhile (· < x))[i - (v.takeWhile (· < x)).length]? := by
      conv_lhs => rw [← hsplit]
      rw [List.getElem?_append_right hle]
    rw [hget]
    cases hat : (v.dropWhile (· < x))[i - (v.takeWhile (· < x)).length]? with
    | none => rfl
    | some y => exact decide_eq_false (not_lt.mpr (le_of_mem_dropWhile hv (List.mem_of_getElem? hat)))

end Bisect

end Mimo26

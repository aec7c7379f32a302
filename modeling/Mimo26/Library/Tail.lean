import Mathlib.Data.List.Range

/-!
# The last positions of a sequence

`tail n c` are the last `c` positions of a sequence of `n`: what a buffer holds that takes positions
in order and drops some of the oldest.

## Main results

* `tail_append`, `drop_tail`, `take_tail` — more positions, the oldest dropped, the newest dropped
* `filter_range'` — the positions in an interval
-/

namespace Mimo26

namespace Tail

/-- The last `c` positions of `n`. -/
def tail (n c : ℕ) : List ℕ := List.range' (n - c) c

@[simp] theorem length_tail (n c : ℕ) : (tail n c).length = c := List.length_range'

theorem tail_self (n : ℕ) : tail n n = List.range n := by
  rw [tail, Nat.sub_self, List.range_eq_range']

theorem tail_append {n c : ℕ} (hc : c ≤ n) (t : ℕ) :
    tail n c ++ List.range' n t = tail (n + t) (c + t) := by
  have hstart : n - c + 1 * c = n := by omega
  rw [tail, tail, show n + t - (c + t) = n - c by omega, ← List.range'_append (s := n - c), hstart]

theorem drop_tail {n c k : ℕ} (hk : k ≤ c) (hc : c ≤ n) : (tail n c).drop (c - k) = tail n k := by
  rw [tail, tail, List.drop_range', show n - c + (c - k) * 1 = n - k by omega,
    show c - (c - k) = k by omega]

theorem take_tail {n c d : ℕ} (hd : d ≤ c) (hc : c ≤ n) :
    (tail n c).take (c - d) = tail (n - d) (c - d) := by
  rw [tail, tail, List.take_range'_of_length_ge (Nat.sub_le c d),
    show n - d - (c - d) = n - c by omega]

/-- The positions of an interval, of those in a row. -/
theorem filter_range' {a k b e : ℕ} (hb : a ≤ b) (hbe : b ≤ e) (he : e ≤ a + k) :
    (List.range' a k).filter (fun q => b ≤ q ∧ q < e) = List.range' b (e - b) := by
  have hsplit : List.range' a k =
      List.range' a (b - a) ++ (List.range' b (e - b) ++ List.range' e (a + k - e)) := by
    have hend := @List.range'_append b (e - b) (a + k - e) 1
    have hall := @List.range'_append a (b - a) (a + k - b) 1
    rw [Nat.one_mul, show b + (e - b) = e by omega, show e - b + (a + k - e) = a + k - b by omega]
      at hend
    rw [Nat.one_mul, show a + (b - a) = b by omega, show b - a + (a + k - b) = k by omega] at hall
    rw [hend, hall]
  have hnil {s n : ℕ} (hout : ∀ q, s ≤ q → q < s + n → ¬ (b ≤ q ∧ q < e)) :
      (List.range' s n).filter (fun q => b ≤ q ∧ q < e) = [] := by
    refine List.filter_eq_nil_iff.mpr fun q hq => ?_
    obtain ⟨hlo, hhi⟩ := List.mem_range'_1.mp hq
    simpa using hout q hlo hhi
  have hself : (List.range' b (e - b)).filter (fun q => b ≤ q ∧ q < e) = List.range' b (e - b) := by
    refine List.filter_eq_self.mpr fun q hq => ?_
    obtain ⟨hlo, hhi⟩ := List.mem_range'_1.mp hq
    exact decide_eq_true ⟨hlo, by omega⟩
  rw [hsplit, List.filter_append, List.filter_append, hself, hnil (fun q _ _ => by omega),
    hnil (fun q _ _ => by omega), List.nil_append, List.append_nil]

end Tail

end Mimo26

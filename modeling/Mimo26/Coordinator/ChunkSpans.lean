import Mathlib.Algebra.Ring.Parity
import Mimo26.Coordinator.DeviceKv
import Mimo26.Library.Tiling

/-!
# Prefill chunks

`dforward.rs` cuts a prompt into chunks of at most `max_chunk` tokens. One lane takes full chunks
and the rest. Two lanes that overlap take an even number of chunks of about the same length, unless
the prompt is too short for both.

## Main definitions

* `Prefill.chunkSpans` — the start and length of each chunk

## Main results

* `lengths_chunkSpans` — the lengths are the ones the device cache appends
* `chunkSpans_spec` — the chunks tile the prompt and are within the limit; paired they are balanced
  and even in number, unpaired all but the last are full
-/

namespace Mimo26

namespace Coordinator

namespace Prefill

open Tiling

/-- The chunks of lengths `base + 1`, for the first `rem` of them, and `base`, and where they
end. -/
def spread (base rem c : ℕ) : List (ℕ × ℕ) × ℕ :=
  (List.range c).foldl (fun (spans, s) i =>
    let t := base + if i < rem then 1 else 0
    (spans ++ [(s, t)], s + t)) ([], 0)

/-- The chunks `(start, length)` of `n` tokens; `none` is a division by zero. -/
def chunkSpans (n maxChunk : ℕ) (paired : Bool) : Option (List (ℕ × ℕ)) :=
  if maxChunk = 0 then none
  else
    let c := (n + maxChunk - 1) / maxChunk
    if !paired then
      some ((List.range' 0 c maxChunk).map fun s => (s, min maxChunk (n - s)))
    else
      let c := if c % 2 = 1 ∧ 2 * pairMin ≤ n then c + 1 else c
      if c = 0 then none else some (spread (n / c) (n % c) c).1

/-! ### Unpaired -/

/-- The first `k` chunks of a prompt that is longer. -/
theorem tile_range' {n maxChunk k : ℕ} (hk : k * maxChunk ≤ n) :
    Tile 0 (k * maxChunk)
      ((List.range' 0 k maxChunk).map fun s => (s, min maxChunk (n - s))) := by
  induction k with
  | zero => exact (Nat.zero_mul maxChunk).symm
  | succ k ih =>
    rw [Nat.succ_mul] at hk ⊢
    have hlast : min maxChunk (n - k * maxChunk) = maxChunk := by omega
    rw [List.range'_concat, List.map_append, List.map_singleton, Nat.zero_add, Nat.mul_comm maxChunk,
      hlast]
    exact (ih (by omega)).concat maxChunk

/-- The number of chunks, where there is a token. -/
theorem count_bounds {n maxChunk : ℕ} (hn : 0 < n) (hmax : 0 < maxChunk) :
    ∃ k, (n + maxChunk - 1) / maxChunk = k + 1 ∧ k * maxChunk < n ∧ n ≤ (k + 1) * maxChunk := by
  have hpos : 0 < (n + maxChunk - 1) / maxChunk := Nat.div_pos (by omega) hmax
  obtain ⟨k, hk⟩ := Nat.exists_eq_add_of_lt hpos
  rw [Nat.zero_add] at hk
  have hlow := Nat.div_mul_le_self (n + maxChunk - 1) maxChunk
  have hhigh := Nat.lt_div_mul_add (a := n + maxChunk - 1) hmax
  rw [hk] at hlow hhigh
  rw [Nat.succ_mul] at hlow hhigh
  exact ⟨k, hk, by omega, by rw [Nat.succ_mul]; omega⟩

/-- Full chunks, and then what is left. -/
theorem chunkSpans_unpaired {n maxChunk : ℕ} (hn : 0 < n) (hmax : 0 < maxChunk) :
    ∃ full last, chunkSpans n maxChunk false = some (full ++ [last]) ∧ Tile 0 n (full ++ [last]) ∧
      (∀ span ∈ full, span.2 = maxChunk) ∧ 0 < last.2 ∧ last.2 ≤ maxChunk := by
  obtain ⟨k, hk, hlow, hhigh⟩ := count_bounds hn hmax
  rw [Nat.succ_mul] at hhigh
  refine ⟨(List.range' 0 k maxChunk).map fun s => (s, min maxChunk (n - s)),
    (k * maxChunk, n - k * maxChunk), ?_, ?_, ?_, by dsimp only; omega, by dsimp only; omega⟩
  · have hlast : min maxChunk (n - k * maxChunk) = n - k * maxChunk := by omega
    rw [chunkSpans, if_neg (by omega), Bool.not_false, if_pos rfl, hk, List.range'_concat,
      List.map_append, List.map_singleton, Nat.zero_add, Nat.mul_comm maxChunk, hlast]
  · have htile := (tile_range' (le_of_lt hlow)).concat (n - k * maxChunk)
    rwa [Nat.add_sub_cancel' (le_of_lt hlow)] at htile
  · intro span hspan
    obtain ⟨s, hs, rfl⟩ := List.mem_map.mp hspan
    obtain ⟨i, hi, rfl⟩ := List.mem_range'.mp hs
    have hnext : (i + 1) * maxChunk ≤ k * maxChunk := Nat.mul_le_mul_right maxChunk hi
    rw [Nat.succ_mul, Nat.mul_comm] at hnext
    dsimp only
    omega

/-! ### Paired -/

/-- One more chunk. -/
theorem spread_succ (base rem k : ℕ) : spread base rem (k + 1) =
    ((spread base rem k).1 ++ [((spread base rem k).2, base + if k < rem then 1 else 0)],
      (spread base rem k).2 + (base + if k < rem then 1 else 0)) := by
  rw [spread, List.range_succ, List.foldl_append]
  rfl

/-- What the loop has cut after `k` chunks. -/
theorem spread_spec (base rem k : ℕ) :
    (spread base rem k).2 = k * base + min k rem ∧
    Tile 0 (spread base rem k).2 (spread base rem k).1 ∧ (spread base rem k).1.length = k ∧
    ∀ span ∈ (spread base rem k).1, base ≤ span.2 ∧ span.2 ≤ base + if 0 < rem then 1 else 0 := by
  induction k with
  | zero => exact ⟨by simp [spread], rfl, rfl, List.forall_mem_nil _⟩
  | succ k ih =>
    obtain ⟨hend, htile, hlen, hsize⟩ := ih
    rw [spread_succ]
    refine ⟨?_, htile.concat _, by rw [List.length_append, hlen]; rfl, ?_⟩
    · dsimp only
      rw [hend, Nat.succ_mul]
      split <;> omega
    · refine List.forall_mem_append.mpr ⟨hsize, List.forall_mem_singleton.mpr ?_⟩
      dsimp only
      split <;> split <;> omega

/-- The lengths on their own. -/
theorem lengths_spread (base rem c : ℕ) :
    (spread base rem c).1.map Prod.snd =
      (List.range c).map fun i => base + if i < rem then 1 else 0 := by
  induction c with
  | zero => rfl
  | succ k ih =>
    rw [spread_succ, List.map_append, ih, List.range_succ, List.map_append]
    rfl

/-- Spread over as many chunks, the tokens are cut up, and none is left. -/
theorem spread_tile {n c : ℕ} (hc : 0 < c) : Tile 0 n (spread (n / c) (n % c) c).1 := by
  obtain ⟨hend, htile, -, -⟩ := spread_spec (n / c) (n % c) c
  have hrem := Nat.mod_lt n hc
  have hdiv := Nat.div_add_mod n c
  rw [Nat.min_eq_right (le_of_lt hrem), hdiv] at hend
  rwa [hend] at htile

/-- As many chunks as tokens or fewer, and enough of them for the limit. -/
theorem spread_size {n c maxChunk : ℕ} (hc : 0 < c) (hcn : c ≤ n) (hmax : n ≤ c * maxChunk) :
    ∀ span ∈ (spread (n / c) (n % c) c).1, 0 < span.2 ∧ span.2 ≤ maxChunk := by
  obtain ⟨-, -, -, hsize⟩ := spread_spec (n / c) (n % c) c
  have hbase : 0 < n / c := Nat.div_pos hcn hc
  have hceil : (n / c + if 0 < n % c then 1 else 0) ≤ maxChunk := by
    have hdiv := Nat.div_add_mod n c
    by_contra hlt
    have hle : maxChunk ≤ n / c := by
      by_contra hgt
      split at hlt <;> omega
    have hmul : c * maxChunk ≤ c * (n / c) := Nat.mul_le_mul_left c hle
    have hzero : n % c = 0 := by omega
    rw [hzero] at hlt hdiv
    have heq : c * (n / c) = c * maxChunk := by omega
    have hbase_eq := Nat.eq_of_mul_eq_mul_left hc heq
    rw [if_neg (lt_irrefl 0)] at hlt
    omega
  intro span hspan
  have hspan := hsize span hspan
  omega

/-- The number of chunks of a pair of lanes. -/
theorem pairedCount_spec {n maxChunk c : ℕ} (hn : 0 < n) (hmax : 2 ≤ maxChunk)
    (hc : c = (n + maxChunk - 1) / maxChunk) :
    let c' := if c % 2 = 1 ∧ 2 * pairMin ≤ n then c + 1 else c
    0 < c' ∧ c' ≤ n ∧ n ≤ c' * maxChunk ∧ (2 * pairMin ≤ n → Even c') := by
  obtain ⟨k, hk, hlow, hhigh⟩ := count_bounds hn (by omega : 0 < maxChunk)
  rw [hk] at hc
  subst hc
  have htwo : k * 2 ≤ k * maxChunk := Nat.mul_le_mul_left k hmax
  have hpair : pairMin = 64 := rfl
  dsimp only
  split
  · next hodd =>
    refine ⟨Nat.succ_pos _, by omega, ?_, fun _ => Nat.even_iff.mpr (by omega)⟩
    rw [Nat.succ_mul (k + 1)]
    omega
  · next hnot =>
    exact ⟨Nat.succ_pos k, by omega, hhigh, fun hlong => Nat.even_iff.mpr (by omega)⟩

/-! ### Both -/

/-- The lengths are the ones the device cache appends. -/
theorem lengths_chunkSpans {n maxChunk : ℕ} (hn : 1 ≤ n) (hmax : 2 ≤ maxChunk) (paired : Bool) :
    (chunkSpans n maxChunk paired).map (List.map Prod.snd) =
      some (Coordinator.chunkSpans n maxChunk paired) := by
  rw [chunkSpans, Coordinator.chunkSpans, if_neg (by omega)]
  cases paired with
  | false =>
    rw [Bool.not_false, if_pos rfl, if_pos rfl, Option.map_some, List.map_map]
    refine congrArg some (List.ext_getElem ?_ fun i _ _ => ?_)
    · rw [List.length_map, List.length_map, List.length_range', List.length_range]
    · rw [List.getElem_map, List.getElem_map, List.getElem_range', List.getElem_range,
        Nat.zero_add, Nat.mul_comm]
      rfl
  | true =>
    obtain ⟨hpos, -, -, -⟩ := pairedCount_spec hn hmax rfl
    rw [Bool.not_true, if_neg Bool.false_ne_true, if_neg Bool.false_ne_true]
    dsimp only
    rw [if_neg hpos.ne', Option.map_some, lengths_spread]

/-- **The chunks** tile the prompt and are within the limit. Paired, their lengths differ by one at
most and a prompt long enough for two lanes has an even number of them; unpaired, all but the last
are full. -/
theorem chunkSpans_spec {n maxChunk : ℕ} (hn : 1 ≤ n) (hmax : 2 ≤ maxChunk) (paired : Bool) :
    ∃ spans, chunkSpans n maxChunk paired = some spans ∧ Tile 0 n spans ∧
      (∀ span ∈ spans, 1 ≤ span.2 ∧ span.2 ≤ maxChunk) ∧
      (paired = true → (∀ span ∈ spans, ∀ span' ∈ spans, span.2 ≤ span'.2 + 1) ∧
        (128 ≤ n → Even spans.length)) ∧
      (paired = false → ∀ span ∈ spans.dropLast, span.2 = maxChunk) := by
  cases paired with
  | false =>
    obtain ⟨full, last, heq, htile, hfull, hpos, hle⟩ :=
      chunkSpans_unpaired hn (by omega : 0 < maxChunk)
    refine ⟨full ++ [last], heq, htile, ?_, fun h => absurd h Bool.false_ne_true, fun _ => ?_⟩
    · refine List.forall_mem_append.mpr ⟨fun span hspan => ?_, List.forall_mem_singleton.mpr
        ⟨hpos, hle⟩⟩
      rw [hfull span hspan]
      omega
    · rw [List.dropLast_concat]
      exact hfull
  | true =>
    obtain ⟨hpos, hcn, hlimit, heven⟩ := pairedCount_spec hn hmax rfl
    obtain ⟨-, -, hlen, hsize⟩ := spread_spec (n / _) (n % _) _
    refine ⟨_, ?_, spread_tile hpos, spread_size hpos hcn hlimit, fun _ => ⟨?_, fun hlong => ?_⟩,
      fun h => absurd h.symm Bool.false_ne_true⟩
    · rw [chunkSpans, if_neg (by omega)]
      exact if_neg hpos.ne'
    · intro span hspan span' hspan'
      have hone : ∀ rem : ℕ, (if 0 < rem then 1 else 0) ≤ 1 := by
        intro rem
        split <;> omega
      exact le_trans (hsize span hspan).2 (Nat.add_le_add (hsize span' hspan').1 (hone _))
    · rw [hlen]
      exact heven hlong

/-- A prompt for two lanes. -/
theorem chunkSpans_spec_long : ∃ spans, chunkSpans 5000 2048 true = some spans ∧
    Tile 0 5000 spans ∧ (∀ span ∈ spans, 1 ≤ span.2 ∧ span.2 ≤ 2048) ∧
      (true = true → (∀ span ∈ spans, ∀ span' ∈ spans, span.2 ≤ span'.2 + 1) ∧
        (128 ≤ 5000 → Even spans.length)) ∧
      (true = false → ∀ span ∈ spans.dropLast, span.2 = 2048) :=
  chunkSpans_spec (by decide) (by decide) true

end Prefill

end Coordinator

end Mimo26

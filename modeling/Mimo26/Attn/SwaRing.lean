import Mimo26.Attn.Attention
import Mimo26.Library.Bisect

/-!
# The sliding-window ring

The rows that a sliding-window layer keeps of one request (`RowStore` and `SwaRing` of `cache.rs`):
an append evicts the rows that no later query can see, counted from the first position of the batch.

A batch is given as the store keeps it, whether as scaled values or as their codes; the scales of
the codes, which the store evicts with them, are left out, as are the known-wrong variants that the
tests select. A result without a ring is a panic.

## Main definitions

* `RowStore` — rows in flat lists
* `SwaRing`, `evictCount`, `append` — the ring
-/

namespace Mimo26

namespace Attn

open Bisect

variable {α : Type}

/-- `xs.drain(..n)` -/
def drain (xs : List α) (n : ℕ) : Option (List α) := if n ≤ xs.length then some (xs.drop n) else none

/-- The keys and the values of some rows. -/
structure RowStore (α : Type) where
  nKv : ℕ
  dQk : ℕ
  dV : ℕ
  k : List α := []
  v : List α := []
  nRows : ℕ := 0

namespace RowStore

def append (s : RowStore α) (k v : List α) (n : ℕ) : Except AttnError (RowStore α) :=
  if k.length ≠ n * s.nKv * s.dQk ∨ v.length ≠ n * s.nKv * s.dV then
    .error (.shapeMismatch s!"RowStore::append: k {k.length} / v {v.length} for n={n} n_kv={s.nKv} d_qk={s.dQk} d_v={s.dV}")
  else .ok { s with k := s.k ++ k, v := s.v ++ v, nRows := s.nRows + n }

/-- Drop the first `n` rows. -/
def dropFront (s : RowStore α) (n : ℕ) : Option (RowStore α) :=
  if s.nRows < n then none
  else do
    let k ← drain s.k (n * (s.nKv * s.dQk))
    let v ← drain s.v (n * (s.nKv * s.dV))
    return { s with k := k, v := v, nRows := s.nRows - n }

end RowStore

structure SwaRing (α : Type) where
  store : RowStore α
  pos : List ℤ := []
  window : ℕ

namespace SwaRing

/-- How many rows an append of `batchRows` rows evicts, once they are there. -/
def evictCount (pos : List ℤ) (window batchRows : ℕ) : ℕ :=
  let n := pos.length
  let batchMin := (pos.drop (n - batchRows)).min?.getD 0
  let keepFrom := i64 (i64 (batchMin - i64 window) + 1)
  let dropKeep := lowerBound pos keepFrom
  let dropTrim := n - wrap (window + batchRows)
  min n (max dropKeep dropTrim)

def append (r : SwaRing α) (k v : List α) (positions : List ℤ) :
    Except AttnError (Option (SwaRing α)) :=
  match positions with
  | [] => .ok (some r)
  | first :: _ =>
    match r.pos.getLast? with
    | some last =>
      if first < last then
        .error (.kvLayout s!"SwaRing::append: positions must be non-decreasing ({first} after {last}) — oracle kv.py:67-68")
      else store r k v positions
    | none => store r k v positions
where
  /-- The rows appended, and the ones evicted. -/
  store (r : SwaRing α) (k v : List α) (positions : List ℤ) :
      Except AttnError (Option (SwaRing α)) := do
    let s ← r.store.append k v positions.length
    let pos := r.pos ++ positions
    let drop := evictCount pos r.window positions.length
    return do
      let s ← s.dropFront drop
      let pos ← drain pos drop
      return { r with store := s, pos := pos }

end SwaRing

/-! ### Rows -/

/-- A row as a store of these dimensions keeps it. -/
structure Row (α : Type) (nKv dQk dV : ℕ) where
  k : List α
  v : List α
  pos : ℤ
  length_k : k.length = nKv * dQk
  length_v : v.length = nKv * dV

variable {nKv dQk dV : ℕ}

def keysOf (rows : List (Row α nKv dQk dV)) : List α := rows.flatMap Row.k

def valuesOf (rows : List (Row α nKv dQk dV)) : List α := rows.flatMap Row.v

def positionsOf (rows : List (Row α nKv dQk dV)) : List ℤ := rows.map Row.pos

section flat

variable {β : Type} {f : β → List α} {m : ℕ}

/-- Rows of one length lie one after the other. -/
theorem length_flatMap_of_forall (h : ∀ r, (f r).length = m) (rows : List β) :
    (rows.flatMap f).length = rows.length * m := by
  induction rows with
  | nil => rw [List.flatMap_nil, List.length_nil, List.length_nil, Nat.zero_mul]
  | cons r rows ih =>
    rw [List.flatMap_cons, List.length_append, h, ih, List.length_cons, Nat.succ_mul, Nat.add_comm]

/-- **Whole rows are evicted.** -/
theorem drain_flatMap (h : ∀ r, (f r).length = m) {rows : List β} {d : ℕ} (hd : d ≤ rows.length) :
    drain (rows.flatMap f) (d * m) = some ((rows.drop d).flatMap f) := by
  have hlen : ((rows.take d).flatMap f).length = d * m := by
    rw [length_flatMap_of_forall h, List.length_take, Nat.min_eq_left hd]
  have hsplit : rows.flatMap f = (rows.take d).flatMap f ++ (rows.drop d).flatMap f := by
    rw [← List.flatMap_append, List.take_append_drop]
  rw [hsplit, drain, if_pos (by rw [List.length_append]; omega), ← hlen, List.drop_left]

theorem drain_map {γ : Type} (g : β → γ) {rows : List β} {d : ℕ} (hd : d ≤ rows.length) :
    drain (rows.map g) d = some ((rows.drop d).map g) := by
  rw [drain, if_pos (by rwa [List.length_map]), List.map_drop]

end flat

theorem length_keysOf (rows : List (Row α nKv dQk dV)) :
    (keysOf rows).length = rows.length * (nKv * dQk) := length_flatMap_of_forall Row.length_k rows

theorem length_valuesOf (rows : List (Row α nKv dQk dV)) :
    (valuesOf rows).length = rows.length * (nKv * dV) := length_flatMap_of_forall Row.length_v rows

theorem positionsOf_append (rows batch : List (Row α nKv dQk dV)) :
    positionsOf rows ++ positionsOf batch = positionsOf (rows ++ batch) :=
  (List.map_append ..).symm

namespace RowStore

/-- The store of some rows. -/
def ofRows (rows : List (Row α nKv dQk dV)) : RowStore α :=
  ⟨nKv, dQk, dV, keysOf rows, valuesOf rows, rows.length⟩

theorem append_ofRows (rows batch : List (Row α nKv dQk dV)) :
    (ofRows rows).append (keysOf batch) (valuesOf batch) batch.length =
      .ok (ofRows (rows ++ batch)) := by
  have hk : (keysOf batch).length = batch.length * nKv * dQk := by
    rw [length_keysOf, Nat.mul_assoc]
  have hv : (valuesOf batch).length = batch.length * nKv * dV := by
    rw [length_valuesOf, Nat.mul_assoc]
  have hdims : ¬ ((keysOf batch).length ≠ batch.length * (ofRows rows).nKv * (ofRows rows).dQk ∨
      (valuesOf batch).length ≠ batch.length * (ofRows rows).nKv * (ofRows rows).dV) :=
    not_or.mpr ⟨not_not.mpr hk, not_not.mpr hv⟩
  rw [append, if_neg hdims, ofRows, ofRows, keysOf, keysOf, keysOf, valuesOf, valuesOf, valuesOf,
    List.flatMap_append, List.flatMap_append, List.length_append]

theorem dropFront_ofRows {rows : List (Row α nKv dQk dV)} {d : ℕ} (hd : d ≤ rows.length) :
    (ofRows rows).dropFront d = some (ofRows (rows.drop d)) := by
  rw [dropFront, ofRows, if_neg (Nat.not_lt.mpr hd)]
  dsimp only
  rw [keysOf, valuesOf, drain_flatMap Row.length_k hd, drain_flatMap Row.length_v hd]
  rw [ofRows, keysOf, valuesOf, List.length_drop]
  rfl

end RowStore

namespace SwaRing

/-- The ring of some rows. -/
def ofRows (window : ℕ) (rows : List (Row α nKv dQk dV)) : SwaRing α :=
  ⟨.ofRows rows, positionsOf rows, window⟩

theorem evictCount_le (pos : List ℤ) (window batchRows : ℕ) :
    evictCount pos window batchRows ≤ pos.length := Nat.min_le_left _ _

theorem store_ofRows (window : ℕ) (rows batch : List (Row α nKv dQk dV)) :
    append.store (ofRows window rows) (keysOf batch) (valuesOf batch) (positionsOf batch) =
      .ok (some (ofRows window ((rows ++ batch).drop
        (evictCount (positionsOf (rows ++ batch)) window batch.length)))) := by
  have hn : (positionsOf batch).length = batch.length := List.length_map _
  have hdrop : evictCount (positionsOf (rows ++ batch)) window batch.length ≤
      (rows ++ batch).length := (evictCount_le _ _ _).trans_eq (List.length_map _)
  rw [append.store, hn, ofRows]
  dsimp only
  rw [RowStore.append_ofRows, positionsOf_append]
  dsimp only [bind, Except.bind, pure, Except.pure]
  rw [RowStore.dropFront_ofRows hdrop]
  generalize evictCount (positionsOf (rows ++ batch)) window batch.length = d at hdrop ⊢
  rw [positionsOf, drain_map Row.pos hdrop]
  rfl

/-- **An append** to the rows held. -/
theorem append_ofRows {window : ℕ} {rows batch : List (Row α nKv dQk dV)} (hne : batch ≠ [])
    (hpos : (positionsOf (rows ++ batch)).Pairwise (· ≤ ·)) :
    (ofRows window rows).append (keysOf batch) (valuesOf batch) (positionsOf batch) =
      .ok (some (ofRows window ((rows ++ batch).drop
        (evictCount (positionsOf (rows ++ batch)) window batch.length)))) := by
  have hstore := store_ofRows window rows batch
  cases batch with
  | nil => exact absurd rfl hne
  | cons b batch =>
    have hpositions : positionsOf (b :: batch) = b.pos :: positionsOf batch := rfl
    rw [hpositions, append, ← hpositions]
    cases hlast : (ofRows window rows).pos.getLast? with
    | none => exact hstore
    | some last =>
      have hmem : last ∈ positionsOf rows := List.mem_of_getLast? hlast
      rw [← positionsOf_append] at hpos
      have hle : last ≤ b.pos := (List.pairwise_append.mp hpos).2.2 last hmem b.pos
        List.mem_cons_self
      dsimp only
      rw [if_neg (not_lt.mpr hle)]
      exact hstore

end SwaRing

end Attn

end Mimo26

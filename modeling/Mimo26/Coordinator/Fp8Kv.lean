import Mimo26.Attn.SwaRing
import Mimo26.Coordinator.DeviceKv

/-!
# The host cache of a layer

The codes of a layer's keys and values with their positions (`Fp8KvCache` of `serving.rs`). A global
layer keeps every row; a sliding-window layer evicts as the ring of the attention crate does, with a
scan in place of its bisection.

The rows that are held after an append are those from the position on that the batch's first row
still sees. Eviction looks at the rows held only, but the position never goes back, so that the rows
evicted earlier are none of them.

The conversion of keys and values to codes, and the scale of the values, are left out.

## Main definitions

* `Fp8KvCache`, `appendCodes` — the cache
* `Ordered` — batches as a request appends them
* `held` — the rows held after some batches

## Main results

* `evictCount_eq` — as many rows are evicted as lie before the window of the batch's first row
* `appendAll_held` — the cache and the ring hold the same rows
* `holdsWindow` — what is held after each append
-/

namespace Mimo26

namespace Coordinator

open Attn Bisect

/-- The codes of one layer. -/
structure Fp8KvCache where
  kind : LayerKind
  nKv : ℕ
  dQk : ℕ
  dV : ℕ
  window : ℕ
  kCodes : List UInt8 := []
  vCodes : List UInt8 := []
  kPos : List ℤ := []

namespace Fp8KvCache

/-- Append codes, then evict; none is a panic. -/
def appendCodes (c : Fp8KvCache) (k v : List UInt8) (pos : List ℤ) : Option Fp8KvCache :=
  let kCodes := c.kCodes ++ k
  let vCodes := c.vCodes ++ v
  let kPos := c.kPos ++ pos
  match c.kind with
  | .ga => some { c with kCodes := kCodes, vCodes := vCodes, kPos := kPos }
  | .swa =>
    let n := kPos.length
    let batchRows := pos.length
    let batchMin := (kPos.drop (n - batchRows)).min?.getD 0
    let keepFrom := i64 (i64 (batchMin - i64 c.window) + 1)
    let dropKeep := (kPos.takeWhile (· < keepFrom)).length
    let dropTrim := n - wrap (c.window + batchRows)
    let drop := min n (max dropKeep dropTrim)
    if 0 < drop then do
      let kCodes ← drain kCodes (drop * c.nKv * c.dQk)
      let vCodes ← drain vCodes (drop * c.nKv * c.dV)
      let kPos ← drain kPos drop
      return { c with kCodes := kCodes, vCodes := vCodes, kPos := kPos }
    else some { c with kCodes := kCodes, vCodes := vCodes, kPos := kPos }

end Fp8KvCache

/-! ### How many rows are evicted -/

/-- An entry that is so many places before another is less by as much. -/
theorem add_le_of_mem_take {ps : List ℤ} {f : ℤ} (h : (ps ++ [f]).Pairwise (· < ·)) {w : ℕ} {p : ℤ}
    (hp : p ∈ ps.take (ps.length - w)) : p + w ≤ f := by
  induction w generalizing ps f with
  | zero =>
    rw [Nat.sub_zero, List.take_length] at hp
    have hlt := (List.pairwise_append.mp h).2.2 p hp f List.mem_cons_self
    omega
  | succ w ih =>
    induction ps using List.reverseRecOn with
    | nil =>
      rw [List.take_nil] at hp
      exact absurd hp List.not_mem_nil
    | append_singleton ps q _ =>
      obtain ⟨hps, -, hlt⟩ := List.pairwise_append.mp h
      rw [List.length_append, List.length_singleton, Nat.add_sub_add_right,
        List.take_append_of_le_length (Nat.sub_le _ _)] at hp
      have hle := ih hps hp
      have hq := hlt q (List.mem_append_right _ List.mem_cons_self) f List.mem_cons_self
      omega

theorem i64_eq {n : ℤ} (hlo : -2 ^ 63 ≤ n) (hhi : n < 2 ^ 63) : i64 n = n := by
  rw [i64]
  exact Int.bmod_eq_of_le (by omega) (by omega)

/-- Positions from 0 on, each greater than the one before; the next one is still an `i64`. -/
structure Increasing (pos : List ℤ) : Prop where
  lt : pos.Pairwise (· < ·)
  range : ∀ p ∈ pos, 0 ≤ p ∧ p + 1 < 2 ^ 63

section counts

variable {window : ℕ} {ps bs : List ℤ} {f : ℤ}

/-- The window of the first row of a batch begins behind the rows before it that are trimmed. -/
theorem trim_le (h : Increasing (ps ++ f :: bs)) :
    ps.length - window ≤ ((ps ++ f :: bs).takeWhile (· < f - window + 1)).length := by
  have hpair : (ps ++ [f]).Pairwise (· < ·) := by
    refine h.lt.sublist ?_
    exact (List.append_sublist_append_left ps).mpr (List.singleton_sublist.mpr List.mem_cons_self)
  refine le_length_takeWhile ?_ fun p hp => ?_
  · rw [List.length_append]
    omega
  · rw [List.take_append_of_le_length (Nat.sub_le _ _)] at hp
    have hle := add_le_of_mem_take hpair hp
    exact decide_eq_true (by omega)

/-- The position from which on rows are kept. -/
theorem keepFrom_eq (h : Increasing (ps ++ f :: bs)) (hwindow : window < 2 ^ 63) :
    i64 (i64 ((((ps ++ f :: bs).drop ((ps ++ f :: bs).length - (f :: bs).length)).min?.getD 0) -
      i64 window) + 1) = f - window + 1 := by
  have hdrop : (ps ++ f :: bs).drop ((ps ++ f :: bs).length - (f :: bs).length) = f :: bs := by
    rw [List.length_append, Nat.add_sub_cancel, List.drop_left]
  have hmin : (f :: bs).min? = some f := by
    refine List.min?_eq_some_iff.mpr ⟨List.mem_cons_self, fun b hb => ?_⟩
    have hlt := (List.pairwise_append.mp h.lt).2.1
    rcases List.mem_cons.mp hb with rfl | hmem
    · exact le_rfl
    · exact ((List.pairwise_cons.mp hlt).1 b hmem).le
  obtain ⟨hlo, hhi⟩ := h.range f (List.mem_append_right _ List.mem_cons_self)
  have hcast : i64 window = window := i64_eq (by omega) (by omega)
  have hsub : i64 (f - window) = f - window := i64_eq (by omega) (by omega)
  rw [hdrop, hmin, Option.getD_some, hcast, hsub, i64_eq (by omega) (by omega)]

/-- There are no more positions than the last one says. -/
theorem length_le_last {pos : List ℤ} {q : ℤ} (h : Increasing (pos ++ [q])) : pos.length ≤ q := by
  induction pos using List.reverseRecOn generalizing q with
  | nil => exact (h.range q List.mem_cons_self).1
  | append_singleton pos p ih =>
    obtain ⟨hpos, -, hlt⟩ := List.pairwise_append.mp h.lt
    have hle := ih ⟨hpos, fun x hx => h.range x (List.mem_append_left _ hx)⟩
    have hq := hlt p (List.mem_append_right _ List.mem_cons_self) q List.mem_cons_self
    rw [List.length_append, List.length_singleton]
    omega

theorem length_le_of_increasing {pos : List ℤ} (h : Increasing pos) : pos.length ≤ 2 ^ 63 := by
  rcases List.eq_nil_or_concat pos with rfl | ⟨init, q, rfl⟩
  · exact Nat.zero_le _
  · rw [List.concat_eq_append] at h ⊢
    have hle := length_le_last h
    have hlt := (h.range q (List.mem_append_right _ List.mem_cons_self)).2
    rw [List.length_append, List.length_singleton]
    omega

/-- **As many rows are evicted** as lie before the window of the batch's first row. -/
theorem min_max_eq (h : Increasing (ps ++ f :: bs)) (hwindow : window < 2 ^ 63) :
    min (ps ++ f :: bs).length (max ((ps ++ f :: bs).takeWhile (· < f - window + 1)).length
      ((ps ++ f :: bs).length - wrap (window + (f :: bs).length))) =
    ((ps ++ f :: bs).takeWhile (· < f - window + 1)).length := by
  have htrim := @trim_le window ps bs f h
  have htake : ((ps ++ f :: bs).takeWhile (· < f - window + 1)).length ≤ (ps ++ f :: bs).length :=
    (List.takeWhile_prefix _).length_le
  have hlen := length_le_of_increasing h
  rw [List.length_append] at hlen
  rw [wrap, Nat.mod_eq_of_lt (by omega)]
  rw [List.length_append] at htake ⊢
  omega

/-- The ring evicts as many. -/
theorem evictCount_eq (h : Increasing (ps ++ f :: bs)) (hwindow : window < 2 ^ 63) :
    SwaRing.evictCount (ps ++ f :: bs) window (f :: bs).length =
      ((ps ++ f :: bs).takeWhile (· < f - window + 1)).length := by
  rw [SwaRing.evictCount, keepFrom_eq h hwindow, lowerBound_eq (h.lt.imp le_of_lt), min_max_eq h hwindow]

end counts

/-! ### Appends -/

variable {nKv dQk dV : ℕ}

/-- The cache of some rows of a sliding-window layer. -/
def Fp8KvCache.ofRows (window : ℕ) (rows : List (Row UInt8 nKv dQk dV)) : Fp8KvCache :=
  ⟨.swa, nKv, dQk, dV, window, keysOf rows, valuesOf rows, positionsOf rows⟩

/-- The position of a batch's first row. -/
def firstOf (batch : List (Row UInt8 nKv dQk dV)) : ℤ := (positionsOf batch).headD 0

/-- The rows from the position on that a query at `first` sees. -/
def seenFrom (window : ℕ) (first : ℤ) (rows : List (Row UInt8 nKv dQk dV)) :
    List (Row UInt8 nKv dQk dV) :=
  rows.dropWhile (·.pos < first - window + 1)

/-- The rows left are those whose positions are not counted. -/
theorem drop_eq_seenFrom (window : ℕ) (first : ℤ) (rows : List (Row UInt8 nKv dQk dV)) :
    rows.drop ((positionsOf rows).takeWhile (· < first - window + 1)).length =
      seenFrom window first rows := by
  have hdrop := @List.drop_left _ (rows.takeWhile (·.pos < first - window + 1))
    (rows.dropWhile (·.pos < first - window + 1))
  rw [List.takeWhile_append_dropWhile] at hdrop
  rw [positionsOf, List.takeWhile_map, List.length_map]
  exact hdrop

theorem positionsOf_eq {batch : List (Row UInt8 nKv dQk dV)} (hne : batch ≠ []) :
    positionsOf batch = firstOf batch :: (positionsOf batch).tail := by
  cases batch with
  | nil => exact absurd rfl hne
  | cons b batch => rfl

theorem firstOf_mem {batch : List (Row UInt8 nKv dQk dV)} (hne : batch ≠ []) :
    firstOf batch ∈ positionsOf batch := by
  rw [positionsOf_eq hne]
  exact List.mem_cons_self

theorem positionsOf_append_eq (rows : List (Row UInt8 nKv dQk dV))
    {batch : List (Row UInt8 nKv dQk dV)} (hne : batch ≠ []) :
    positionsOf (rows ++ batch) =
      positionsOf rows ++ firstOf batch :: (positionsOf batch).tail := by
  rw [← positionsOf_append, ← positionsOf_eq hne]

/-- **An append to the cache.** -/
theorem appendCodes_ofRows {window : ℕ} {rows batch : List (Row UInt8 nKv dQk dV)}
    (hne : batch ≠ []) (hpos : Increasing (positionsOf (rows ++ batch))) (hwindow : window < 2 ^ 63) :
    (Fp8KvCache.ofRows window rows).appendCodes (keysOf batch) (valuesOf batch)
      (positionsOf batch) =
    some (Fp8KvCache.ofRows window (seenFrom window (firstOf batch) (rows ++ batch))) := by
  have hk : keysOf rows ++ keysOf batch = keysOf (rows ++ batch) := List.flatMap_append.symm
  have hv : valuesOf rows ++ valuesOf batch = valuesOf (rows ++ batch) := List.flatMap_append.symm
  have hsplit := positionsOf_append_eq rows hne
  have hcount : min (positionsOf (rows ++ batch)).length
      (max ((positionsOf (rows ++ batch)).takeWhile (· < firstOf batch - window + 1)).length
        ((positionsOf (rows ++ batch)).length - wrap (window + (positionsOf batch).length))) =
      ((positionsOf (rows ++ batch)).takeWhile (· < firstOf batch - window + 1)).length := by
    rw [positionsOf_eq hne, hsplit]
    exact min_max_eq (hsplit ▸ hpos) hwindow
  have hkeep : i64 (i64 ((((positionsOf (rows ++ batch)).drop
      ((positionsOf (rows ++ batch)).length - (positionsOf batch).length)).min?.getD 0) -
        i64 window) + 1) = firstOf batch - window + 1 := by
    rw [positionsOf_eq hne, hsplit]
    exact keepFrom_eq (hsplit ▸ hpos) hwindow
  rw [Fp8KvCache.appendCodes, Fp8KvCache.ofRows]
  dsimp only
  rw [hk, hv, positionsOf_append, hkeep, hcount, ← drop_eq_seenFrom]
  have hle : ((positionsOf (rows ++ batch)).takeWhile (· < firstOf batch - window + 1)).length ≤
      (rows ++ batch).length :=
    (List.takeWhile_prefix _).length_le.trans_eq (List.length_map _)
  generalize ((positionsOf (rows ++ batch)).takeWhile
    (· < firstOf batch - window + 1)).length = d at hle ⊢
  split
  · rw [Nat.mul_assoc, Nat.mul_assoc, keysOf, drain_flatMap Row.length_k hle, valuesOf,
      drain_flatMap Row.length_v hle, positionsOf, drain_map Row.pos hle]
    rfl
  · next hd =>
    rw [Nat.eq_zero_of_not_pos hd, List.drop_zero, Fp8KvCache.ofRows]

/-- **An append to the ring.** -/
theorem append_ofRows_seen {window : ℕ} {rows batch : List (Row UInt8 nKv dQk dV)}
    (hne : batch ≠ []) (hpos : Increasing (positionsOf (rows ++ batch))) (hwindow : window < 2 ^ 63) :
    (SwaRing.ofRows window rows).append (keysOf batch) (valuesOf batch) (positionsOf batch) =
      .ok (some (SwaRing.ofRows window (seenFrom window (firstOf batch) (rows ++ batch)))) := by
  have hsplit := positionsOf_append_eq rows hne
  have hlen : batch.length = (firstOf batch :: (positionsOf batch).tail).length := by
    rw [← positionsOf_eq hne, positionsOf, List.length_map]
  rw [SwaRing.append_ofRows hne (hpos.lt.imp le_of_lt), ← drop_eq_seenFrom, hlen, hsplit,
    evictCount_eq (hsplit ▸ hpos) hwindow]

/-! ### Runs -/

/-- The rows held after some batches. -/
def heldFrom (window : ℕ) (rows : List (Row UInt8 nKv dQk dV)) :
    List (List (Row UInt8 nKv dQk dV)) → List (Row UInt8 nKv dQk dV)
  | [] => rows
  | batch :: batches => heldFrom window (seenFrom window (firstOf batch) (rows ++ batch)) batches

/-- Append batches to a cache. -/
def Fp8KvCache.appendAll (c : Fp8KvCache) (batches : List (List (Row UInt8 nKv dQk dV))) :
    Option Fp8KvCache :=
  batches.foldlM (fun c b => c.appendCodes (keysOf b) (valuesOf b) (positionsOf b)) c

/-- Append batches to a ring. -/
def ringAppendAll (r : SwaRing UInt8) :
    List (List (Row UInt8 nKv dQk dV)) → Except AttnError (Option (SwaRing UInt8))
  | [] => .ok (some r)
  | b :: batches =>
    match r.append (keysOf b) (valuesOf b) (positionsOf b) with
    | .ok (some r') => ringAppendAll r' batches
    | stopped => stopped

/-- Batches as a request appends them, consecutive positions among others: none is empty, and the
positions go up. -/
structure Ordered (batches : List (List (Row UInt8 nKv dQk dV))) : Prop where
  ne : ∀ b ∈ batches, b ≠ []
  increasing : Increasing (positionsOf batches.flatten)

/-- Fewer positions still go up. -/
theorem Increasing.sublist {pos pos' : List ℤ} (h : Increasing pos) (hsub : pos'.Sublist pos) :
    Increasing pos' := ⟨h.lt.sublist hsub, fun p hp => h.range p (hsub.subset hp)⟩

theorem sublist_seenFrom (window : ℕ) (first : ℤ) (rows : List (Row UInt8 nKv dQk dV)) :
    (seenFrom window first rows).Sublist rows := List.dropWhile_sublist _

/-- **Runs.** The cache and the ring hold the same rows. -/
theorem appendAll_ofRows {window : ℕ} (hwindow : window < 2 ^ 63)
    {batches : List (List (Row UInt8 nKv dQk dV))} {rows : List (Row UInt8 nKv dQk dV)}
    (hne : ∀ b ∈ batches, b ≠ []) (hpos : Increasing (positionsOf (rows ++ batches.flatten))) :
    (Fp8KvCache.ofRows window rows).appendAll batches =
        some (.ofRows window (heldFrom window rows batches)) ∧
      ringAppendAll (.ofRows window rows) batches =
        .ok (some (.ofRows window (heldFrom window rows batches))) := by
  induction batches generalizing rows with
  | nil => exact ⟨rfl, rfl⟩
  | cons b batches ih =>
    obtain ⟨hb, hne⟩ := List.forall_mem_cons.mp hne
    rw [List.flatten_cons, ← List.append_assoc] at hpos
    have hnow : Increasing (positionsOf (rows ++ b)) :=
      hpos.sublist ((List.sublist_append_left _ _).map _)
    have hnext : Increasing (positionsOf (seenFrom window (firstOf b) (rows ++ b) ++
        batches.flatten)) :=
      hpos.sublist (((sublist_seenFrom _ _ _).append_right _).map _)
    obtain ⟨hcache, hring⟩ := ih hne hnext
    constructor
    · rw [Fp8KvCache.appendAll, List.foldlM_cons, appendCodes_ofRows hb hnow hwindow]
      exact hcache
    · rw [ringAppendAll, append_ofRows_seen hb hnow hwindow]
      exact hring

/-- Dropping less first changes nothing. -/
theorem dropWhile_dropWhile_append {α : Type} {p q : α → Bool} (h : ∀ x, p x = true → q x = true)
    (l r : List α) : (l.dropWhile p ++ r).dropWhile q = (l ++ r).dropWhile q := by
  induction l with
  | nil => rfl
  | cons x l ih =>
    rw [List.dropWhile_cons]
    split
    · next hp => rw [ih, List.cons_append, List.dropWhile_cons_of_pos (h x hp)]
    · rfl

/-- **The rows held** after a batch are those of all rows that its first row sees. -/
theorem heldFrom_concat {window : ℕ} {before : List (List (Row UInt8 nKv dQk dV))}
    {rows batch : List (Row UInt8 nKv dQk dV)} (hne : ∀ b ∈ before, b ≠ []) (hb : batch ≠ [])
    (hpos : Increasing (positionsOf (rows ++ before.flatten ++ batch))) :
    heldFrom window rows (before ++ [batch]) =
      seenFrom window (firstOf batch) (rows ++ before.flatten ++ batch) := by
  induction before generalizing rows with
  | nil => rw [List.flatten_nil, List.append_nil, List.nil_append, heldFrom, heldFrom]
  | cons b before ih =>
    obtain ⟨hb', hne⟩ := List.forall_mem_cons.mp hne
    rw [List.flatten_cons, ← List.append_assoc] at hpos ⊢
    have hnext : Increasing (positionsOf (seenFrom window (firstOf b) (rows ++ b) ++
        before.flatten ++ batch)) := by
      refine hpos.sublist (List.Sublist.map _ ?_)
      exact ((sublist_seenFrom _ _ _).append_right _).append_right _
    have hle : firstOf b ≤ firstOf batch := by
      have hlt := hpos.lt
      rw [← positionsOf_append] at hlt
      refine ((List.pairwise_append.mp hlt).2.2 _ ?_ _ (firstOf_mem hb)).le
      refine List.map_subset _ ?_ (firstOf_mem hb')
      exact fun r hr => List.mem_append_left _ (List.mem_append_right _ hr)
    rw [List.cons_append, heldFrom, ih hne hnext, seenFrom, List.append_assoc]
    rw [seenFrom, dropWhile_dropWhile_append, seenFrom, ← List.append_assoc]
    intro x hx
    have hlt := of_decide_eq_true hx
    exact decide_eq_true (by omega)

theorem mem_seenFrom {window : ℕ} {first : ℤ} {rows : List (Row UInt8 nKv dQk dV)}
    {r : Row UInt8 nKv dQk dV} (hr : r ∈ rows) (hle : first - window + 1 ≤ r.pos) :
    r ∈ seenFrom window first rows := by
  let p (r : Row UInt8 nKv dQk dV) : Bool := decide (r.pos < first - window + 1)
  rw [← @List.takeWhile_append_dropWhile _ p rows] at hr
  refine (List.mem_append.mp hr).resolve_left fun hmem => ?_
  have hlt : r.pos < first - window + 1 :=
    of_decide_eq_true (@List.mem_takeWhile_imp _ p rows r hmem)
  omega

/-- What a cache and a ring hold after the last of some batches: the rows `held`. -/
structure HoldsWindow (window : ℕ) (before : List (List (Row UInt8 nKv dQk dV)))
    (batch held : List (Row UInt8 nKv dQk dV)) (c : Fp8KvCache) (ring : SwaRing UInt8) : Prop where
  /-- They are the last ones appended, key, value and position row for row. -/
  suffix : held <:+ (before ++ [batch]).flatten
  k : c.kCodes = keysOf held
  v : c.vCodes = valuesOf held
  pos : c.kPos = positionsOf held
  /-- Every row that the batch's first row sees is one of them. -/
  seen : ∀ r ∈ (before ++ [batch]).flatten, firstOf batch - window + 1 ≤ r.pos → r ∈ held
  length_le : held.length ≤ window + batch.length
  ring : ring.store.k = c.kCodes ∧ ring.store.v = c.vCodes ∧ ring.pos = c.kPos

/-- **The window is held** after each batch. -/
theorem holdsWindow {window : ℕ} (hwindow : window < 2 ^ 63)
    {before : List (List (Row UInt8 nKv dQk dV))} {batch : List (Row UInt8 nKv dQk dV)}
    (h : Ordered (before ++ [batch])) :
    ∃ c ring held,
      Fp8KvCache.appendAll ⟨.swa, nKv, dQk, dV, window, [], [], []⟩ (before ++ [batch]) = some c ∧
      ringAppendAll ⟨⟨nKv, dQk, dV, [], [], 0⟩, [], window⟩ (before ++ [batch]) = .ok (some ring) ∧
      HoldsWindow window before batch held c ring := by
  have hflat : (before ++ [batch]).flatten = [] ++ before.flatten ++ batch := by
    rw [List.flatten_append, List.flatten_singleton, List.nil_append]
  have hpos : Increasing (positionsOf ([] ++ before.flatten ++ batch)) := hflat ▸ h.increasing
  obtain ⟨hbefore, hbatch⟩ := List.forall_mem_append.mp h.ne
  have hb := hbatch batch List.mem_cons_self
  obtain ⟨hcache, hring⟩ := @appendAll_ofRows nKv dQk dV window hwindow (before ++ [batch]) []
    h.ne h.increasing
  rw [heldFrom_concat hbefore hb hpos] at hcache hring
  rw [List.nil_append] at hcache hring hpos hflat
  refine ⟨_, _, seenFrom window (firstOf batch) (before.flatten ++ batch), hcache, hring, ?_, rfl,
    rfl, rfl, fun r hr hle => mem_seenFrom (hflat ▸ hr) hle, ?_, rfl, rfl, rfl⟩
  · rw [hflat]
    exact List.dropWhile_suffix _
  · have htrim := @trim_le window (positionsOf before.flatten) (positionsOf batch).tail
      (firstOf batch) (positionsOf_append_eq before.flatten hb ▸ hpos)
    rw [positionsOf, List.length_map] at htrim
    rw [← drop_eq_seenFrom, positionsOf_append_eq _ hb, List.length_drop, List.length_append]
    rw [positionsOf]
    omega

/-- A row of one key and one value. -/
def row (code : UInt8) (pos : ℤ) : Row UInt8 1 1 1 := ⟨[code], [code], pos, rfl, rfl⟩

/-- Three rows and one more, with a window of two. -/
theorem holdsWindow_fourRows : ∃ c ring held,
    Fp8KvCache.appendAll ⟨.swa, 1, 1, 1, 2, [], [], []⟩ ([[row 5 0, row 6 1, row 7 2]] ++
      [[row 8 3]]) = some c ∧
    ringAppendAll ⟨⟨1, 1, 1, [], [], 0⟩, [], 2⟩ ([[row 5 0, row 6 1, row 7 2]] ++ [[row 8 3]]) =
      .ok (some ring) ∧
    HoldsWindow 2 [[row 5 0, row 6 1, row 7 2]] [row 8 3] held c ring :=
  holdsWindow (by decide) ⟨by simp, by decide, by decide⟩

end Coordinator

end Mimo26

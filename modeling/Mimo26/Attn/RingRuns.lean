import Mimo26.Attn.SwaRing
import Mimo26.Library.Runs

/-!
# What the ring keeps

Batches of rows are appended to a ring of the attention crate. It is to keep each row that a query
of the last batch sees. It does so while the positions of a batch do not decrease, the differences
are `i64`s, and no more rows than the window and the batch together have room for begin at the
position the batch's first row still sees. The ring checks none of this: of a batch it compares the
first position only, and rows beyond the window and the batch are evicted whatever their positions.

## Main definitions

* `Session` — a ring, with every row it accepted
* `Complete` — the ring has the rows that its last batch sees
* `Room` — rows that are still seen are not trimmed

## Main results

* `complete_iff` — sorted batches keep the ring complete exactly while there is room
* `not_complete_unsorted`, `not_complete_repeated` — batches that do not
-/

namespace Mimo26

namespace Attn

open Bisect Runs

variable {α : Type} {nKv dQk dV : ℕ}

/-- A ring, every row that it accepted, and the last batch. -/
structure Session (α : Type) (nKv dQk dV : ℕ) where
  ring : SwaRing α
  history : List (Row α nKv dQk dV) := []
  batch : List (Row α nKv dQk dV) := []

namespace Session

/-- Append a batch; one that is refused changes nothing. -/
def append (s : Session α nKv dQk dV) (batch : List (Row α nKv dQk dV)) : Session α nKv dQk dV :=
  match s.ring.append (keysOf batch) (valuesOf batch) (positionsOf batch) with
  | .ok (some ring) => ⟨ring, s.history ++ batch, batch⟩
  | .ok none => s
  | .error _ => s

/-- An empty ring. -/
def new (window : ℕ) : Session α nKv dQk dV := { ring := .ofRows window ([] : List (Row α nKv dQk dV)) }

/-- No row that the last batch's first position reaches was evicted, and each of its queries sees of
the ring what it sees of every row. -/
def Complete (window : ℕ) (s : Session α nKv dQk dV) : Prop :=
  ∃ dropped held, s.history = dropped ++ held ∧ s.ring = .ofRows window held ∧
    (∀ low, (positionsOf s.batch).min? = some low → ∀ r ∈ dropped, r.pos < low - window + 1) ∧
    ∀ q ∈ s.batch, held.filter (fun r => isVisible q.pos r.pos (some window)) =
      s.history.filter fun r => isVisible q.pos r.pos (some window)

/-- If the batch is accepted, no more rows are seen from its first position on than the window and
the batch have room for. -/
def Room (window : ℕ) (s : Session α nKv dQk dV) (batch : List (Row α nKv dQk dV)) : Prop :=
  ∀ first ∈ (positionsOf batch).head?, (∀ last ∈ s.ring.pos.getLast?, last ≤ first) →
    (s.ring.pos ++ positionsOf batch).countP (first - window + 1 ≤ ·) ≤
      wrap (window + batch.length)

end Session

/-- A window and positions whose differences are all `i64`s. -/
structure InRange (window : ℕ) (positions : List ℤ) : Prop where
  window_pos : 1 ≤ window
  window_lt : window < 2 ^ 63
  lt : ∀ p ∈ positions, p < 2 ^ 63
  le : ∀ p ∈ positions, -2 ^ 63 ≤ p - window
  sub_lt : ∀ p ∈ positions, ∀ q ∈ positions, q - p < 2 ^ 63

theorem InRange.subset {window : ℕ} {ps qs : List ℤ} (h : InRange window qs) (hsub : ps ⊆ qs) :
    InRange window ps :=
  ⟨h.window_pos, h.window_lt, fun p hp => h.lt p (hsub hp), fun p hp => h.le p (hsub hp),
    fun p hp q hq => h.sub_lt p (hsub hp) q (hsub hq)⟩

section counts

variable {window : ℕ} {ps bs : List ℤ} {f : ℤ}

/-- The entries of a sorted list that are not less than `x` are what a scan leaves. -/
theorem length_takeWhile_add_countP {v : List ℤ} (hv : v.Pairwise (· ≤ ·)) (x : ℤ) :
    (v.takeWhile (· < x)).length + v.countP (x ≤ ·) = v.length := by
  have hsplit := @List.takeWhile_append_dropWhile _ (fun y => decide (y < x)) v
  have hfront : (v.takeWhile (· < x)).countP (x ≤ ·) = 0 := by
    refine List.countP_eq_zero.mpr fun y hy => ?_
    have hlt := @List.mem_takeWhile_imp _ (fun y => decide (y < x)) v y hy
    exact fun hle => absurd (of_decide_eq_true hlt) (not_lt.mpr (of_decide_eq_true hle))
  have hback : (v.dropWhile (· < x)).countP (x ≤ ·) = (v.dropWhile (· < x)).length :=
    List.countP_eq_length.mpr fun y hy => decide_eq_true (le_of_mem_dropWhile hv hy)
  calc (v.takeWhile (· < x)).length + v.countP (x ≤ ·)
      = (v.takeWhile (· < x)).length + (v.takeWhile (· < x) ++ v.dropWhile (· < x)).countP (x ≤ ·) := by
        rw [hsplit]
    _ = (v.takeWhile (· < x)).length + (v.dropWhile (· < x)).length := by
        rw [List.countP_append, hfront, hback, Nat.zero_add]
    _ = v.length := by rw [← List.length_append, hsplit]

/-- The position from which on rows are kept. -/
theorem keepFrom_eq_of_sorted (hs : (ps ++ f :: bs).Pairwise (· ≤ ·))
    (hr : InRange window (ps ++ f :: bs)) :
    i64 (i64 ((((ps ++ f :: bs).drop ((ps ++ f :: bs).length - (f :: bs).length)).min?.getD 0) -
      i64 window) + 1) = f - window + 1 := by
  have hdrop : (ps ++ f :: bs).drop ((ps ++ f :: bs).length - (f :: bs).length) = f :: bs := by
    rw [List.length_append, Nat.add_sub_cancel, List.drop_left]
  have hmin : (f :: bs).min? = some f := by
    refine List.min?_eq_some_iff.mpr ⟨List.mem_cons_self, fun b hb => ?_⟩
    rcases List.mem_cons.mp hb with rfl | hmem
    · exact le_rfl
    · exact (List.pairwise_cons.mp (List.pairwise_append.mp hs).2.1).1 b hmem
  have hmem : f ∈ ps ++ f :: bs := List.mem_append_right _ List.mem_cons_self
  have hlt := hr.lt f hmem
  have hle := hr.le f hmem
  have hpos := hr.window_pos
  have hwindow := hr.window_lt
  have hcast : i64 window = window := Int.bmod_eq_of_le (by omega) (by omega)
  have hsub : i64 (f - window) = f - window := Int.bmod_eq_of_le (by omega) (by omega)
  have hadd : i64 (f - window + 1) = f - window + 1 := Int.bmod_eq_of_le (by omega) (by omega)
  rw [hdrop, hmin, Option.getD_some, hcast, hsub, hadd]

theorem evictCount_eq_of_sorted (hs : (ps ++ f :: bs).Pairwise (· ≤ ·))
    (hr : InRange window (ps ++ f :: bs)) :
    SwaRing.evictCount (ps ++ f :: bs) window (f :: bs).length =
      min (ps ++ f :: bs).length (max ((ps ++ f :: bs).takeWhile (· < f - window + 1)).length
        ((ps ++ f :: bs).length - wrap (window + (f :: bs).length))) := by
  rw [SwaRing.evictCount, keepFrom_eq_of_sorted hs hr, lowerBound_eq hs]

/-- **With room** the rows evicted are those before the window of the batch's first row. -/
theorem evictCount_eq_of_room (hs : (ps ++ f :: bs).Pairwise (· ≤ ·))
    (hr : InRange window (ps ++ f :: bs))
    (hroom : (ps ++ f :: bs).countP (f - window + 1 ≤ ·) ≤ wrap (window + (f :: bs).length)) :
    SwaRing.evictCount (ps ++ f :: bs) window (f :: bs).length =
      ((ps ++ f :: bs).takeWhile (· < f - window + 1)).length := by
  have hcount := length_takeWhile_add_countP hs (f - window + 1)
  rw [evictCount_eq_of_sorted hs hr]
  omega

/-- Without, the next row is evicted too. -/
theorem lt_evictCount (hs : (ps ++ f :: bs).Pairwise (· ≤ ·))
    (hr : InRange window (ps ++ f :: bs))
    (hroom : ¬ (ps ++ f :: bs).countP (f - window + 1 ≤ ·) ≤ wrap (window + (f :: bs).length)) :
    ((ps ++ f :: bs).takeWhile (· < f - window + 1)).length <
      SwaRing.evictCount (ps ++ f :: bs) window (f :: bs).length := by
  have hcount := length_takeWhile_add_countP hs (f - window + 1)
  rw [evictCount_eq_of_sorted hs hr]
  omega

end counts

section rows

variable {window : ℕ} {held bs : List (Row α nKv dQk dV)} {b : Row α nKv dQk dV}

theorem positionsOf_append_cons (held bs : List (Row α nKv dQk dV)) (b : Row α nKv dQk dV) :
    positionsOf (held ++ b :: bs) = positionsOf held ++ b.pos :: positionsOf bs :=
  List.map_append ..

theorem length_cons_positionsOf (b : Row α nKv dQk dV) (bs : List (Row α nKv dQk dV)) :
    (b.pos :: positionsOf bs).length = (b :: bs).length := by
  rw [List.length_cons, List.length_cons, positionsOf, List.length_map]

theorem evictCount_rows (hs : (positionsOf (held ++ b :: bs)).Pairwise (· ≤ ·))
    (hr : InRange window (positionsOf (held ++ b :: bs)))
    (hroom : (positionsOf (held ++ b :: bs)).countP (b.pos - window + 1 ≤ ·) ≤
      wrap (window + (b :: bs).length)) :
    SwaRing.evictCount (positionsOf (held ++ b :: bs)) window (b :: bs).length =
      ((positionsOf (held ++ b :: bs)).takeWhile (· < b.pos - window + 1)).length := by
  rw [positionsOf_append_cons] at hs hr hroom ⊢
  rw [← length_cons_positionsOf] at hroom ⊢
  exact evictCount_eq_of_room hs hr hroom

theorem lt_evictCount_rows (hs : (positionsOf (held ++ b :: bs)).Pairwise (· ≤ ·))
    (hr : InRange window (positionsOf (held ++ b :: bs)))
    (hroom : ¬ (positionsOf (held ++ b :: bs)).countP (b.pos - window + 1 ≤ ·) ≤
      wrap (window + (b :: bs).length)) :
    ((positionsOf (held ++ b :: bs)).takeWhile (· < b.pos - window + 1)).length <
      SwaRing.evictCount (positionsOf (held ++ b :: bs)) window (b :: bs).length := by
  rw [positionsOf_append_cons] at hs hr hroom ⊢
  rw [← length_cons_positionsOf] at hroom ⊢
  exact lt_evictCount hs hr hroom

/-- The first row of a sorted batch is its first position. -/
theorem pos_le_of_mem (hs : (positionsOf (b :: bs)).Pairwise (· ≤ ·)) :
    ∀ p ∈ positionsOf (b :: bs), b.pos ≤ p := by
  intro p hp
  rcases List.mem_cons.mp hp with rfl | htail
  · exact le_rfl
  · exact (List.pairwise_cons.mp hs).1 p htail

end rows

/-- The rows that a scan of the positions takes. -/
theorem lt_of_mem_take {rows : List (Row α nKv dQk dV)} {x : ℤ} {r : Row α nKv dQk dV}
    (hr : r ∈ rows.take ((positionsOf rows).takeWhile (· < x)).length) : r.pos < x := by
  have hmap : (positionsOf rows).takeWhile (· < x) =
      (rows.takeWhile fun r => decide (r.pos < x)).map Row.pos := List.takeWhile_map
  rw [hmap, List.length_map, ← List.prefix_iff_eq_take.mp (List.takeWhile_prefix _)] at hr
  exact of_decide_eq_true (@List.mem_takeWhile_imp (Row α nKv dQk dV) (fun r => decide (r.pos < x)) _ _ hr)

/-- A row that a query sees is one from the window's first position on. -/
theorem not_isVisible {window : ℕ} {q p : ℤ} (hwindow : window < 2 ^ 63) (hsub : q - p < 2 ^ 63)
    (hlt : p < q - window + 1) : isVisible q p (some window) = false := by
  rw [isVisible]
  split
  · rfl
  · next hnot =>
    have hcast : i64 window = window := Int.bmod_eq_of_le (by omega) (by omega)
    have hdiff : i64 (q - p) = q - p := Int.bmod_eq_of_le (by omega) (by omega)
    rw [hcast, hdiff]
    exact decide_eq_false (by omega)

/-- Batches one after the other. -/
theorem pairwise_append_of_getLast {ps bs : List ℤ} {f : ℤ} (hps : ps.Pairwise (· ≤ ·))
    (hbs : (f :: bs).Pairwise (· ≤ ·)) (hlast : ∀ last ∈ ps.getLast?, last ≤ f) :
    (ps ++ f :: bs).Pairwise (· ≤ ·) := by
  refine List.pairwise_append.mpr ⟨hps, hbs, fun p hp b hb => ?_⟩
  have hfb : f ≤ b := by
    rcases List.mem_cons.mp hb with rfl | hmem
    · exact le_rfl
    · exact (List.pairwise_cons.mp hbs).1 b hmem
  rcases List.eq_nil_or_concat ps with rfl | ⟨init, last, rfl⟩
  · exact absurd hp List.not_mem_nil
  · rw [List.concat_eq_append] at hp hps hlast
    have hle : last ≤ f := hlast last (by rw [List.getLast?_append, List.getLast?_singleton]; rfl)
    rcases List.mem_append.mp hp with hinit | hsingle
    · exact ((List.pairwise_append.mp hps).2.2 p hinit last List.mem_cons_self).trans
        (hle.trans hfb)
    · exact (List.mem_singleton.mp hsingle).trans_le (hle.trans hfb)

namespace Session

variable {window : ℕ} {all : List ℤ} {s : Session α nKv dQk dV}
  {dropped held batch : List (Row α nKv dQk dV)}

theorem append_nil : s.append [] = ⟨s.ring, s.history, []⟩ := by
  rw [append, List.append_nil]
  rfl

/-- A batch that begins before the last row is refused. -/
theorem append_refused {b : Row α nKv dQk dV} {last : ℤ} (hlast : last ∈ s.ring.pos.getLast?)
    (hlt : b.pos < last) : s.append (b :: batch) = s := by
  have hpositions : positionsOf (b :: batch) = b.pos :: positionsOf batch := rfl
  rw [append, hpositions, SwaRing.append, Option.mem_def.mp hlast]
  dsimp only
  rw [if_pos hlt]

/-- **A batch that is accepted.** -/
theorem append_accepted {b : Row α nKv dQk dV} (hring : s.ring = .ofRows window held)
    (hlast : ∀ last ∈ (positionsOf held).getLast?, last ≤ b.pos) :
    s.append (b :: batch) = ⟨.ofRows window ((held ++ b :: batch).drop
      (SwaRing.evictCount (positionsOf (held ++ b :: batch)) window (b :: batch).length)),
      s.history ++ b :: batch, b :: batch⟩ := by
  have hstore := SwaRing.store_ofRows window held (b :: batch)
  have hpositions : positionsOf (b :: batch) = b.pos :: positionsOf batch := rfl
  have hring' : (SwaRing.ofRows window held).append (keysOf (b :: batch)) (valuesOf (b :: batch))
      (positionsOf (b :: batch)) = .ok (some (.ofRows window ((held ++ b :: batch).drop
        (SwaRing.evictCount (positionsOf (held ++ b :: batch)) window (b :: batch).length)))) := by
    rw [hpositions, SwaRing.append, ← hpositions]
    cases hget : (SwaRing.ofRows window held).pos.getLast? with
    | none => exact hstore
    | some last =>
      dsimp only
      rw [if_neg (not_lt.mpr (hlast last hget))]
      exact hstore
  rw [append, hring, hring']

/-- What sorted batches with room preserve: each row that was evicted lies before the window of a
row that is held, and of the rows of the last batch. -/
structure Holds (window : ℕ) (all : List ℤ) (s : Session α nKv dQk dV)
    (dropped held : List (Row α nKv dQk dV)) : Prop where
  history : s.history = dropped ++ held
  ring : s.ring = .ofRows window held
  sorted : (positionsOf held).Pairwise (· ≤ ·)
  behind : ∀ r ∈ dropped, ∃ x ∈ held, r.pos < x.pos - window + 1
  batch : ∀ r ∈ dropped, ∀ b ∈ s.batch, r.pos < b.pos - window + 1
  mem : ∀ r ∈ s.history, r.pos ∈ all
  mem_batch : ∀ b ∈ s.batch, b.pos ∈ all

theorem holds_new (window : ℕ) (all : List ℤ) :
    Holds window all (new window : Session α nKv dQk dV) [] [] :=
  ⟨rfl, rfl, List.Pairwise.nil, List.forall_mem_nil _, List.forall_mem_nil _, List.forall_mem_nil _,
    List.forall_mem_nil _⟩

theorem Holds.complete (h : Holds window all s dropped held) (hr : InRange window all) :
    Complete window s := by
  refine ⟨dropped, held, h.history, h.ring, fun low hlow r hmem => ?_, fun q hq => ?_⟩
  · obtain ⟨b, hb, rfl⟩ := List.mem_map.mp (List.min?_mem hlow)
    exact h.batch r hmem b hb
  · have hnone : dropped.filter (fun r => isVisible q.pos r.pos (some window)) = [] := by
      refine List.filter_eq_nil_iff.mpr fun r hmem => ?_
      have hall : r.pos ∈ all := h.mem r (h.history ▸ List.mem_append_left _ hmem)
      rw [not_isVisible hr.window_lt (hr.sub_lt r.pos hall q.pos (h.mem_batch q hq))
        (h.batch r hmem q hq)]
      exact Bool.false_ne_true
    rw [h.history, List.filter_append, hnone, List.nil_append]

theorem Holds.positions_subset (h : Holds window all s dropped held)
    (hmem : ∀ r ∈ batch, r.pos ∈ all) : positionsOf (held ++ batch) ⊆ all := by
  intro p hp
  obtain ⟨r, hrow, rfl⟩ := List.mem_map.mp hp
  rcases List.mem_append.mp hrow with hheld | hbatch
  · exact h.mem r (h.history ▸ List.mem_append_right _ hheld)
  · exact hmem r hbatch

/-- **A batch with room** keeps what is behind the windows behind. -/
theorem Holds.append_accepted {b : Row α nKv dQk dV} {bs : List (Row α nKv dQk dV)}
    (h : Holds window all s dropped held) (hr : InRange window all)
    (hlast : ∀ last ∈ (positionsOf held).getLast?, last ≤ b.pos)
    (hsorted : (positionsOf (held ++ b :: bs)).Pairwise (· ≤ ·))
    (hmem : ∀ r ∈ b :: bs, r.pos ∈ all)
    (hroom : (positionsOf (held ++ b :: bs)).countP (b.pos - window + 1 ≤ ·) ≤
      wrap (window + (b :: bs).length)) :
    ∃ dropped' held', Holds window all (s.append (b :: bs)) dropped' held' := by
  have hrange := hr.subset (h.positions_subset hmem)
  have hcount := evictCount_rows hsorted hrange hroom
  have hevicted : ∀ r ∈ (held ++ b :: bs).take (SwaRing.evictCount
      (positionsOf (held ++ b :: bs)) window (b :: bs).length), r.pos < b.pos - window + 1 := by
    intro r hmem
    rw [hcount] at hmem
    exact lt_of_mem_take hmem
  have happend := @Session.append_accepted _ _ _ _ _ _ _ bs _ h.ring hlast
  have hsorted' := hsorted
  generalize SwaRing.evictCount (positionsOf (held ++ b :: bs)) window (b :: bs).length = d at *
  have hsplit := List.take_append_drop d (held ++ b :: bs)
  have hpos := hr.window_pos
  -- the batch's first row is held
  have hb : b ∈ (held ++ b :: bs).drop d := by
    have hin : b ∈ (held ++ b :: bs).take d ++ (held ++ b :: bs).drop d := by
      rw [hsplit]
      exact List.mem_append_right _ List.mem_cons_self
    refine (List.mem_append.mp hin).resolve_left fun hin => ?_
    have hlt := hevicted b hin
    omega
  rw [positionsOf_append_cons] at hsorted'
  obtain ⟨-, hbatch, hjoin⟩ := List.pairwise_append.mp hsorted'
  have hfirst := @pos_le_of_mem α nKv dQk dV bs b hbatch
  have hdropped : ∀ r ∈ dropped ++ (held ++ b :: bs).take d, r.pos < b.pos - window + 1 := by
    intro r hrow
    rcases List.mem_append.mp hrow with hold | hnew
    · obtain ⟨x, hx, hlt⟩ := h.behind r hold
      have hle := hjoin x.pos (List.mem_map_of_mem hx) b.pos List.mem_cons_self
      omega
    · exact hevicted r hnew
  refine ⟨dropped ++ (held ++ b :: bs).take d, (held ++ b :: bs).drop d, ?_⟩
  rw [happend]
  refine ⟨?_, rfl, ?_, fun r hrow => ⟨b, hb, hdropped r hrow⟩, fun r hrow b' hb' => ?_, ?_, hmem⟩
  · rw [List.append_assoc, hsplit, h.history, List.append_assoc]
  · rw [positionsOf, List.map_drop]
    exact hsorted.drop
  · have hlt := hdropped r hrow
    have hle := hfirst b'.pos (List.mem_map_of_mem hb')
    omega
  · intro r hrow
    rcases List.mem_append.mp hrow with hold | hnew
    · exact h.mem r hold
    · exact hmem r hnew

/-- **One batch.** -/
theorem Holds.append (h : Holds window all s dropped held) (hr : InRange window all)
    (hsorted : (positionsOf batch).Pairwise (· ≤ ·)) (hmem : ∀ r ∈ batch, r.pos ∈ all)
    (hroom : Room window s batch) :
    ∃ dropped' held', Holds window all (s.append batch) dropped' held' := by
  cases batch with
  | nil =>
    rw [append_nil]
    exact ⟨dropped, held, h.history, h.ring, h.sorted, h.behind, fun _ _ => List.forall_mem_nil _,
      h.mem, List.forall_mem_nil _⟩
  | cons b bs =>
    have hpos : s.ring.pos = positionsOf held := by rw [h.ring]; rfl
    by_cases hlast : ∀ last ∈ s.ring.pos.getLast?, last ≤ b.pos
    · have hcount := hroom b.pos rfl hlast
      rw [hpos] at hlast hcount
      have hall : (positionsOf (held ++ b :: bs)).Pairwise (· ≤ ·) := by
        rw [positionsOf_append_cons]
        exact pairwise_append_of_getLast h.sorted hsorted hlast
      rw [positionsOf_append] at hcount
      exact h.append_accepted hr hlast hall hmem hcount
    · push Not at hlast
      obtain ⟨last, hlast, hlt⟩ := hlast
      rw [append_refused hlast hlt]
      exact ⟨dropped, held, h⟩

/-- **Without room** a row that is still seen is evicted. -/
theorem Holds.not_complete (h : Holds window all s dropped held) (hr : InRange window all)
    (hsorted : (positionsOf batch).Pairwise (· ≤ ·)) (hmem : ∀ r ∈ batch, r.pos ∈ all)
    (hroom : ¬ Room window s batch) : ¬ Complete window (s.append batch) := by
  rw [Room] at hroom
  push Not at hroom
  obtain ⟨first, hfirst, hlast, hcount⟩ := hroom
  cases batch with
  | nil => cases hfirst
  | cons b bs =>
    obtain rfl : b.pos = first := Option.some.inj hfirst
    have hpos : s.ring.pos = positionsOf held := by rw [h.ring]; rfl
    rw [hpos] at hlast hcount
    have hall : (positionsOf (held ++ b :: bs)).Pairwise (· ≤ ·) := by
      rw [positionsOf_append_cons]
      exact pairwise_append_of_getLast h.sorted hsorted hlast
    rw [positionsOf_append] at hcount
    have hrange := hr.subset (h.positions_subset hmem)
    have hevict := lt_evictCount_rows hall hrange (not_le.mpr hcount)
    have hle := SwaRing.evictCount_le (positionsOf (held ++ b :: bs)) window (b :: bs).length
    rw [Session.append_accepted h.ring hlast]
    generalize SwaRing.evictCount (positionsOf (held ++ b :: bs)) window (b :: bs).length = d at *
    rintro ⟨dropped', held', hhistory, hring, hlow, -⟩
    have hrows : ((held ++ b :: bs).drop d).length = held'.length :=
      congrArg (fun r => r.store.nRows) hring
    have hhistory' : (dropped ++ (held ++ b :: bs).take d) ++ (held ++ b :: bs).drop d =
        dropped' ++ held' := by
      rw [← hhistory, List.append_assoc, List.take_append_drop, h.history, List.append_assoc]
    obtain ⟨rfl, -⟩ := List.append_inj' hhistory' hrows
    have hmin : (positionsOf (b :: bs)).min? = some b.pos :=
      List.min?_eq_some_iff.mpr ⟨List.mem_cons_self, pos_le_of_mem hsorted⟩
    -- a scan takes every position that was evicted
    have hscan : d ≤ ((positionsOf (held ++ b :: bs)).takeWhile (· < b.pos - window + 1)).length := by
      refine le_length_takeWhile hle fun p hp => ?_
      rw [positionsOf, ← List.map_take] at hp
      obtain ⟨r, hrow, rfl⟩ := List.mem_map.mp hp
      exact decide_eq_true (hlow b.pos hmin r (List.mem_append_right _ hrow))
    omega

end Session

/-- **What the ring keeps.** Whatever sorted batches are appended, each state is complete exactly
when each batch that is accepted finds room. -/
theorem complete_iff {window : ℕ} {batches : List (List (Row α nKv dQk dV))}
    (hsorted : ∀ batch ∈ batches, (positionsOf batch).Pairwise (· ≤ ·))
    (hr : InRange window (batches.flatMap positionsOf)) :
    (∀ n, (run Session.append (.new window) (batches.take n)).Complete window) ↔
      Along Session.append (Session.Room window) (.new window) batches := by
  refine @forall_take_iff_along_of _ _ Session.append
    (fun batch => (positionsOf batch).Pairwise (· ≤ ·) ∧
      ∀ r ∈ batch, r.pos ∈ batches.flatMap positionsOf)
    (Session.Room window)
    (fun s => ∃ dropped held, s.Holds window (batches.flatMap positionsOf) dropped held)
    (Session.Complete window) ?_ ?_ ?_ _ ⟨[], [], Session.holds_new window _⟩ batches ?_
  · rintro s batch ⟨hbatch, hmem⟩ ⟨dropped, held, h⟩ hroom
    exact h.append hr hbatch hmem hroom
  · rintro s ⟨dropped, held, h⟩
    exact h.complete hr
  · rintro s batch ⟨hbatch, hmem⟩ ⟨dropped, held, h⟩ hroom
    exact h.not_complete hr hbatch hmem hroom
  · intro batch hbatch
    refine ⟨hsorted batch hbatch, fun r hrow => ?_⟩
    exact List.mem_flatMap_of_mem hbatch (List.mem_map_of_mem hrow)

/-- A row of one key and one value. -/
def rowAt (p : ℤ) : Row ℤ 1 1 1 := ⟨[p], [p], p, rfl, rfl⟩

/-- A ring of a window of two accepts positions 8 and 1, then 4 and 9. It evicts the row at 8, which
the query at 9 sees. -/
theorem not_complete_unsorted :
    (run Session.append (.new 2) [[rowAt 8, rowAt 1], [rowAt 4, rowAt 9]]).history =
        [rowAt 8, rowAt 1, rowAt 4, rowAt 9] ∧
      ¬ (run Session.append (.new 2) [[rowAt 8, rowAt 1], [rowAt 4, rowAt 9]]).Complete 2 := by
  have hfirst : SwaRing.evictCount (positionsOf ([] ++ [rowAt 8, rowAt 1])) 2 2 = 0 := by
    simp [positionsOf, rowAt, SwaRing.evictCount, lowerBound, bisect, i64, wrap, Int.bmod]
  have hsecond : SwaRing.evictCount (positionsOf ([rowAt 8, rowAt 1] ++ [rowAt 4, rowAt 9])) 2 2 =
      2 := by
    simp [positionsOf, rowAt, SwaRing.evictCount, lowerBound, bisect, i64, wrap, Int.bmod]
  have hone : (Session.new 2).append [rowAt 8, rowAt 1] =
      ⟨.ofRows 2 [rowAt 8, rowAt 1], [rowAt 8, rowAt 1], [rowAt 8, rowAt 1]⟩ := by
    rw [@Session.append_accepted _ _ _ _ 2 _ [] _ _ rfl (by simp [positionsOf])]
    rw [List.length_cons, List.length_singleton, hfirst]
    rfl
  have htwo : run Session.append (.new 2) [[rowAt 8, rowAt 1], [rowAt 4, rowAt 9]] =
      ⟨.ofRows 2 [rowAt 4, rowAt 9], [rowAt 8, rowAt 1, rowAt 4, rowAt 9],
        [rowAt 4, rowAt 9]⟩ := by
    rw [run_cons, run_cons, run_nil, hone]
    rw [@Session.append_accepted _ _ _ _ 2 _ [rowAt 8, rowAt 1] _ _ rfl (by decide)]
    rw [List.length_cons, List.length_singleton, hsecond]
    rfl
  rw [htwo]
  refine ⟨rfl, ?_⟩
  rintro ⟨dropped, held, hhistory, hring, hlow, -⟩
  have hlen : 2 = held.length := congrArg (fun r => r.store.nRows) hring
  have hparts : [rowAt 8, rowAt 1] ++ [rowAt 4, rowAt 9] = dropped ++ held := hhistory
  obtain ⟨rfl, -⟩ := List.append_inj' hparts hlen
  exact absurd (hlow 4 rfl (rowAt 8) List.mem_cons_self) (by decide)

/-- Nor is there room for a third row at one position in a ring of a window of one. -/
theorem not_complete_repeated :
    ¬ ∀ n, (run Session.append (.new 1)
      ([[rowAt 5], [rowAt 5], [rowAt 5]].take n)).Complete 1 := by
  have hone : SwaRing.evictCount (positionsOf ([] ++ [rowAt 5])) 1 1 = 0 := by
    simp [positionsOf, rowAt, SwaRing.evictCount, lowerBound, bisect, i64, wrap, Int.bmod]
  have htwo : SwaRing.evictCount (positionsOf ([rowAt 5] ++ [rowAt 5])) 1 1 = 0 := by
    simp [positionsOf, rowAt, SwaRing.evictCount, lowerBound, bisect, i64, wrap, Int.bmod]
  have hnew : (Session.new 1).append [rowAt 5] =
      ⟨.ofRows 1 [rowAt 5], [rowAt 5], [rowAt 5]⟩ := by
    rw [@Session.append_accepted _ _ _ _ 1 _ [] _ _ rfl (by simp [positionsOf])]
    rw [List.length_singleton, hone]
    rfl
  have hring : (((Session.new 1).append [rowAt 5]).append [rowAt 5]).ring =
      .ofRows 1 [rowAt 5, rowAt 5] := by
    rw [hnew, @Session.append_accepted _ _ _ _ 1 _ [rowAt 5] _ _ rfl (by decide)]
    rw [List.length_singleton, htwo]
    rfl
  rw [complete_iff (by decide) ⟨by decide, by decide, by decide, by decide, by decide⟩]
  rintro ⟨-, -, hroom, -⟩
  have hcount := hroom 5 rfl (by rw [hring]; decide)
  rw [hring] at hcount
  exact absurd hcount (by decide)

end Attn

end Mimo26

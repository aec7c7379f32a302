import Mathlib.Algebra.Ring.Nat
import Mathlib.Data.List.Basic
import Mathlib.Data.List.Count
import Mathlib.Data.List.Induction
import Mathlib.Data.List.Pairwise
import Mathlib.Order.Basic
import Mathlib.Order.Lattice
import Mathlib.Order.Nat

/-!
# Stable arrangements

A list put in the order of a key, the entries of one key in the order they had. Such an arrangement
is unique, and two ways to it are a stable sort and buckets kept in the order of their keys.

## Main definitions

* `Arranged` — the arrangement of a list by a key
* `pushBucket`, `buckets` — the entries of a list under their keys, the keys ascending

## Main results

* `Arranged.unique` — there is one arrangement
* `arranged_mergeSort`, `arranged_buckets` — sorting and bucketing arrange
* `Arranged.filter`, `Arranged.map` — a part of an arrangement, and its image
* `Arranged.eq_flatMap` — an arrangement by a bounded number is one run for each number
-/

namespace Mimo26

namespace Arrange

variable {α β κ : Type*} [LinearOrder κ]

/-- What a zip keeps of its first list. -/
theorem map_zip_sublist (g : α → κ) (xs : List α) (ys : List β) :
    ((xs.zip ys).map fun y => g y.1).Sublist (xs.map g) := by
  induction xs generalizing ys with
  | nil => exact List.nil_sublist _
  | cons x xs ih =>
    cases ys with
    | nil => exact List.nil_sublist _
    | cons y ys => exact (ih ys).cons_cons (g x)

/-- Of several runs, none for the key. -/
theorem flatMap_ite_of_ne {g : β → κ} {k : κ} {bs : List β} (h : ∀ b ∈ bs, g b ≠ k)
    (run : β → List α) :
    bs.flatMap (fun b => if g b = k then run b else []) = [] :=
  List.flatMap_eq_nil_iff.mpr fun b hb => if_neg (h b hb)

/-- Of several runs under different keys, the one for the key. -/
theorem flatMap_ite_of_nodup {g : β → κ} {bs : List β} (h : (bs.map g).Nodup) {b : β} (hb : b ∈ bs)
    (run : β → List α) : bs.flatMap (fun b' => if g b' = g b then run b' else []) = run b := by
  induction bs with
  | nil => exact absurd hb List.not_mem_nil
  | cons b' bs ih =>
    rw [List.map_cons, List.nodup_cons] at h
    rw [List.flatMap_cons]
    rcases List.mem_cons.mp hb with rfl | hmem
    · rw [if_pos rfl, flatMap_ite_of_ne, List.append_nil]
      intro b' hb' heq
      exact h.1 (List.mem_map.mpr ⟨b', hb', heq⟩)
    · rw [if_neg, List.nil_append, ih h.2 hmem]
      exact fun heq => h.1 (List.mem_map.mpr ⟨b, hmem, heq.symm⟩)

/-- The part of a run of one key for another key. -/
theorem filter_run {key : α → κ} {run : List α} {j : κ} (hrun : ∀ x ∈ run, key x = j) (k : κ) :
    run.filter (key · = k) = if j = k then run else [] := by
  split
  · next hjk =>
    refine List.filter_eq_self.mpr fun x hx => ?_
    simp [hrun x hx, hjk]
  · next hjk =>
    refine List.filter_eq_nil_iff.mpr fun x hx => ?_
    simp [hrun x hx, hjk]

/-- `l'` is `l` in the order of the key, and in the order of `l` within a key. -/
structure Arranged (key : α → κ) (l l' : List α) : Prop where
  sorted : l'.Pairwise (key · ≤ key ·)
  stable : ∀ k, l'.filter (key · = k) = l.filter (key · = k)

namespace Arranged

variable {key : α → κ} {l l' a b : List α}

theorem mem_iff (h : Arranged key l l') (x : α) : x ∈ l' ↔ x ∈ l := by
  have hx := congrArg (x ∈ ·) (h.stable (key x))
  simpa using hx

theorem perm [DecidableEq α] (h : Arranged key l l') : l'.Perm l := by
  refine List.perm_iff_count.mpr fun x => ?_
  have hx := congrArg (List.count x) (h.stable (key x))
  rwa [List.count_filter (by simp), List.count_filter (by simp)] at hx

/-- **There is one arrangement.** -/
theorem unique (ha : Arranged key l a) (hb : Arranged key l b) : a = b := by
  have hsame : ∀ k, a.filter (key · = k) = b.filter (key · = k) := fun k =>
    (ha.stable k).trans (hb.stable k).symm
  have hsa := ha.sorted
  have hsb := hb.sorted
  clear ha hb
  induction a generalizing b with
  | nil =>
    cases b with
    | nil => rfl
    | cons y b =>
      have hy := hsame (key y)
      simp at hy
  | cons x a ih =>
    cases b with
    | nil =>
      have hx := hsame (key x)
      simp at hx
    | cons y b =>
      obtain ⟨hxa, hsa'⟩ := List.pairwise_cons.mp hsa
      obtain ⟨hyb, hsb'⟩ := List.pairwise_cons.mp hsb
      -- the smaller of the two first keys occurs in both lists
      have hkey : key x = key y := by
        refine le_antisymm ?_ ?_
        · have hmem : y ∈ (x :: a).filter (key · = key y) := by
            rw [hsame]
            simp
          rcases List.mem_cons.mp (List.mem_filter.mp hmem).1 with rfl | hy
          · exact le_rfl
          · exact hxa y hy
        · have hmem : x ∈ (y :: b).filter (key · = key x) := by
            rw [← hsame]
            simp
          rcases List.mem_cons.mp (List.mem_filter.mp hmem).1 with rfl | hx
          · exact le_rfl
          · exact hyb x hx
      have hhead := hsame (key x)
      rw [List.filter_cons_of_pos (by simp), List.filter_cons_of_pos (by simp [hkey])] at hhead
      obtain ⟨rfl, -⟩ := List.cons.inj hhead
      refine congrArg (x :: ·) (ih (fun k => ?_) hsa' hsb')
      have hk := hsame k
      by_cases hxk : key x = k
      · rw [List.filter_cons_of_pos (by simpa using hxk),
          List.filter_cons_of_pos (by simpa using hxk)] at hk
        exact (List.cons.inj hk).2
      · rwa [List.filter_cons_of_neg (by simpa using hxk),
          List.filter_cons_of_neg (by simpa using hxk)] at hk

theorem filter (h : Arranged key l l') (p : α → Bool) :
    Arranged key (l.filter p) (l'.filter p) where
  sorted := h.sorted.filter p
  stable := by
    intro k
    rw [List.filter_comm, h.stable k, List.filter_comm]

theorem map {key : β → κ} {f : α → β} (h : Arranged (fun x => key (f x)) l l') :
    Arranged key (l.map f) (l'.map f) where
  sorted := List.pairwise_map.mpr h.sorted
  stable := by
    intro k
    rw [List.filter_map, List.filter_map]
    exact congrArg (List.map f) (h.stable k)

/-- An arrangement by a number below `n` is the run of each number in turn. -/
theorem eq_flatMap {key : α → ℕ} (h : Arranged key l l') {n : ℕ} (hlt : ∀ x ∈ l, key x < n) :
    l' = (List.range n).flatMap fun k => l.filter (key · = k) := by
  refine h.unique ⟨?_, fun k => ?_⟩
  · rw [List.pairwise_flatMap]
    constructor
    · intro k _
      refine List.pairwise_of_forall_mem_list fun x hx y hy => ?_
      rw [of_decide_eq_true (List.mem_filter.mp hx).2, of_decide_eq_true (List.mem_filter.mp hy).2]
    · refine List.pairwise_lt_range.imp fun {j k} hjk x hx y hy => ?_
      rw [of_decide_eq_true (List.mem_filter.mp hx).2, of_decide_eq_true (List.mem_filter.mp hy).2]
      exact hjk.le
  · have hrun (j : ℕ) : (l.filter (key · = j)).filter (key · = k) =
        if j = k then l.filter (key · = j) else [] :=
      filter_run (fun x hx => of_decide_eq_true (List.mem_filter.mp hx).2) k
    rw [List.filter_flatMap]
    simp only [hrun]
    by_cases hk : k < n
    · exact flatMap_ite_of_nodup (g := id) (by simpa using List.nodup_range)
        (List.mem_range.mpr hk) _
    · have hnone : ∀ j ∈ List.range n, id j ≠ k := by
        rintro j hj rfl
        exact hk (List.mem_range.mp hj)
      refine (flatMap_ite_of_ne hnone _).trans (List.filter_eq_nil_iff.mpr fun x hx => ?_).symm
      simpa using fun heq => hk (by rw [← heq]; exact hlt x hx)

end Arranged

/-- A stable sort arranges. -/
theorem arranged_mergeSort (key : α → κ) (l : List α) :
    Arranged key l (l.mergeSort fun x y => decide (key x ≤ key y)) := by
  have htrans : ∀ x y z : α, decide (key x ≤ key y) = true → decide (key y ≤ key z) = true →
      decide (key x ≤ key z) = true := by simpa using fun x y z => le_trans
  have htotal : ∀ x y : α, (decide (key x ≤ key y) || decide (key y ≤ key x)) = true := by
    simpa using fun x y => le_total (key x) (key y)
  constructor
  · have hsorted := List.pairwise_mergeSort htrans htotal l
    simpa using hsorted
  · intro k
    have hrun : (l.filter (key · = k)).Pairwise fun x y => decide (key x ≤ key y) = true := by
      refine List.pairwise_of_forall_mem_list fun x hx y hy => ?_
      simp [of_decide_eq_true (List.mem_filter.mp hx).2,
        of_decide_eq_true (List.mem_filter.mp hy).2]
    have hsub := (List.sublist_mergeSort htrans htotal hrun List.filter_sublist).filter (key · = k)
    rw [List.filter_filter] at hsub
    simp only [Bool.and_self] at hsub
    refine (hsub.eq_of_length ?_).symm
    exact ((List.mergeSort_perm l _).filter _).length_eq.symm

/-! ### Buckets -/

/-- Add an entry to the bucket of its key. -/
def pushBucket (k : κ) (x : α) : List (κ × List α) → List (κ × List α)
  | [] => [(k, [x])]
  | b :: bs =>
    if k < b.1 then (k, [x]) :: b :: bs
    else if k = b.1 then (b.1, b.2 ++ [x]) :: bs
    else b :: pushBucket k x bs

/-- The buckets of the entries of a list. -/
def buckets (key : α → κ) (l : List α) : List (κ × List α) :=
  l.foldl (fun bs x => pushBucket (key x) x bs) []

/-- The buckets `bs` hold the entries of `l`, each under its key. -/
structure Holds (key : α → κ) (l : List α) (bs : List (κ × List α)) : Prop where
  ascending : bs.Pairwise (·.1 < ·.1)
  contents : ∀ b ∈ bs, b.2 = l.filter (key · = b.1)
  complete : ∀ x ∈ l, ∃ b ∈ bs, b.1 = key x

section push

variable {k : κ} {x : α} {bs : List (κ × List α)}

/-- The buckets after an entry is added: the other ones, and the one of its key. -/
theorem mem_pushBucket {b : κ × List α} (hasc : bs.Pairwise (·.1 < ·.1))
    (hb : b ∈ pushBucket k x bs) :
    b ∈ bs ∧ b.1 ≠ k ∨ b.1 = k ∧ ((∃ b' ∈ bs, b'.1 = k ∧ b.2 = b'.2 ++ [x]) ∨
      (∀ b' ∈ bs, b'.1 ≠ k) ∧ b.2 = [x]) := by
  induction bs with
  | nil =>
    rw [pushBucket, List.mem_singleton] at hb
    rw [hb]
    exact .inr ⟨rfl, .inr ⟨nofun, rfl⟩⟩
  | cons c bs ih =>
    obtain ⟨hc, hasc⟩ := List.pairwise_cons.mp hasc
    rw [pushBucket] at hb
    split at hb
    · next hlt =>
      have hne : ∀ b' ∈ c :: bs, b'.1 ≠ k := by
        intro b' hb'
        rcases List.mem_cons.mp hb' with rfl | hmem
        · exact hlt.ne'
        · exact (hlt.trans (hc b' hmem)).ne'
      rcases List.mem_cons.mp hb with rfl | hmem
      · exact .inr ⟨rfl, .inr ⟨hne, rfl⟩⟩
      · exact .inl ⟨hmem, hne b hmem⟩
    · split at hb
      · next heq =>
        rcases List.mem_cons.mp hb with rfl | hmem
        · exact .inr ⟨heq.symm, .inl ⟨c, List.mem_cons_self, heq.symm, rfl⟩⟩
        · exact .inl ⟨List.mem_cons_of_mem c hmem, by rw [heq]; exact (hc b hmem).ne'⟩
      · next hnlt hne =>
        rcases List.mem_cons.mp hb with rfl | hmem
        · exact .inl ⟨List.mem_cons_self, fun heq => hne heq.symm⟩
        · rcases ih hasc hmem with ⟨hmem, hbk⟩ | ⟨hbk, ⟨b', hb', hkey, hval⟩ | ⟨hnone, hval⟩⟩
          · exact .inl ⟨List.mem_cons_of_mem c hmem, hbk⟩
          · exact .inr ⟨hbk, .inl ⟨b', List.mem_cons_of_mem c hb', hkey, hval⟩⟩
          · refine .inr ⟨hbk, .inr ⟨fun b' hb' => ?_, hval⟩⟩
            rcases List.mem_cons.mp hb' with rfl | hmem
            · exact fun heq => hne heq.symm
            · exact hnone b' hmem

/-- The keys after an entry is added. -/
theorem exists_mem_pushBucket {j : κ} : (∃ b ∈ pushBucket k x bs, b.1 = j) ↔ j = k ∨
    ∃ b ∈ bs, b.1 = j := by
  induction bs with
  | nil => simp [pushBucket, eq_comm]
  | cons c bs ih =>
    rw [pushBucket]
    split
    · simp [eq_comm]
    · split
      · next heq => simp [heq, eq_comm]
      · simp only [List.exists_mem_cons_iff, ih]
        exact or_left_comm

theorem ascending_pushBucket (hasc : bs.Pairwise (·.1 < ·.1)) :
    (pushBucket k x bs).Pairwise (·.1 < ·.1) := by
  induction bs with
  | nil => exact List.pairwise_singleton _ _
  | cons c bs ih =>
    obtain ⟨hc, hasc'⟩ := List.pairwise_cons.mp hasc
    rw [pushBucket]
    split
    · next hlt =>
      refine List.pairwise_cons.mpr ⟨fun b hb => ?_, hasc⟩
      rcases List.mem_cons.mp hb with rfl | hmem
      · exact hlt
      · exact hlt.trans (hc b hmem)
    · split
      · exact List.pairwise_cons.mpr ⟨hc, hasc'⟩
      · next hnlt hne =>
        refine List.pairwise_cons.mpr ⟨fun b hb => ?_, ih hasc'⟩
        rcases exists_mem_pushBucket.mp ⟨b, hb, rfl⟩ with heq | ⟨b', hb', heq⟩
        · rw [heq]
          exact lt_of_le_of_ne (not_lt.mp hnlt) (Ne.symm hne)
        · rw [← heq]
          exact hc b' hb'

/-- **Adding an entry.** -/
theorem Holds.push {key : α → κ} {l : List α} (h : Holds key l bs) (x : α) :
    Holds key (l ++ [x]) (pushBucket (key x) x bs) where
  ascending := ascending_pushBucket h.ascending
  contents := by
    intro b hb
    rw [List.filter_append]
    rcases mem_pushBucket h.ascending hb with ⟨hmem, hne⟩
      | ⟨hkey, ⟨b', hb', hkey', hval⟩ | ⟨hnone, hval⟩⟩
    · rw [List.filter_cons_of_neg (by simpa using hne.symm), List.filter_nil, List.append_nil]
      exact h.contents b hmem
    · rw [List.filter_cons_of_pos (by simpa using hkey.symm), List.filter_nil, hval,
        h.contents b' hb', hkey,
        hkey']
    · have hnil : l.filter (key · = b.1) = [] := by
        refine List.filter_eq_nil_iff.mpr fun y hy => ?_
        obtain ⟨b', hb', hkey'⟩ := h.complete y hy
        simpa [hkey, ← hkey'] using hnone b' hb'
      rw [List.filter_cons_of_pos (by simpa using hkey.symm), List.filter_nil, hval, hnil,
        List.nil_append]
  complete := by
    intro y hy
    rw [exists_mem_pushBucket]
    rcases List.mem_append.mp hy with hmem | hmem
    · exact .inr (h.complete y hmem)
    · rw [List.mem_singleton.mp hmem]
      exact .inl rfl

end push

/-- **Buckets hold their list.** -/
theorem holds_buckets (key : α → κ) (l : List α) : Holds key l (buckets key l) := by
  induction l using List.reverseRecOn with
  | nil => exact ⟨.nil, nofun, nofun⟩
  | append_singleton l x ih =>
    rw [buckets, List.foldl_append]
    exact ih.push x

/-- Entries of one key share a bucket. -/
theorem buckets_const (k : κ) {l : List α} (hl : l ≠ []) : buckets (fun _ => k) l = [(k, l)] := by
  induction l using List.reverseRecOn with
  | nil => exact absurd rfl hl
  | append_singleton l x ih =>
    rw [buckets, List.foldl_append, ← buckets]
    cases l with
    | nil => rfl
    | cons y l =>
      rw [ih (List.cons_ne_nil y l)]
      simp [pushBucket]

/-- Buckets arrange. -/
theorem Holds.arranged {key : α → κ} {l : List α} {bs : List (κ × List α)} (h : Holds key l bs) :
    Arranged key l (bs.flatMap (·.2)) where
  sorted := by
    have hkey {b : κ × List α} (hb : b ∈ bs) {x : α} (hx : x ∈ b.2) : key x = b.1 := by
      rw [h.contents b hb] at hx
      exact of_decide_eq_true (List.mem_filter.mp hx).2
    rw [List.pairwise_flatMap]
    constructor
    · intro b hb
      refine List.pairwise_of_forall_mem_list fun x hx y hy => ?_
      rw [hkey hb hx, hkey hb hy]
    · refine h.ascending.imp_of_mem fun {b c} hb hc hlt x hx y hy => ?_
      rw [hkey hb hx, hkey hc hy]
      exact hlt.le
  stable := by
    intro k
    have hrun {b : κ × List α} (hb : b ∈ bs) : b.2.filter (key · = k) = if b.1 = k then b.2 else
        [] := by
      refine filter_run (fun x hx => ?_) k
      rw [h.contents b hb] at hx
      exact of_decide_eq_true (List.mem_filter.mp hx).2
    rw [List.filter_flatMap, List.flatMap_congr fun b hb => hrun hb]
    by_cases hk : ∃ b ∈ bs, b.1 = k
    · obtain ⟨b, hb, rfl⟩ := hk
      rw [flatMap_ite_of_nodup (g := Prod.fst) (List.pairwise_map.mpr (h.ascending.imp ne_of_lt))
        hb,
        h.contents b hb]
    · have hnone : ∀ b ∈ bs, b.1 ≠ k := fun b hb heq => hk ⟨b, hb, heq⟩
      rw [flatMap_ite_of_ne (g := Prod.fst) hnone]
      refine (List.filter_eq_nil_iff.mpr fun x hx => ?_).symm
      obtain ⟨b, hb, hkey⟩ := h.complete x hx
      simpa [← hkey] using hnone b hb

end Arrange

end Mimo26

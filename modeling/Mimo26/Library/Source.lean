import Mathlib.Data.List.Basic
import Mathlib.Data.List.Infix

/-!
# Reading from a source in pieces

A source gives its items in order, but how many a read brings is not the reader's choice: a read
brings some of the items asked for, is interrupted or fails. The turns say what each read meets,
and a read past the last turn brings all it asks for. A source that has nothing left brings nothing.

## Main definitions

* `Source`, `Source.read` — a source and one read of it
* `Source.fill` — read again until enough has come
* `Source.Calm` — no read fails

## Main results

* `Source.fill_spec` — what filling brings, where it stops and what it leaves
* `Source.fill_of_le`, `Source.fill_of_lt` — from a source where no read fails, filling brings the
  next items whatever the reads bring, or finds the end
-/

namespace Mimo26

/-- What a read meets: at most `k + 1` items are there, or the read is interrupted, or it fails. -/
inductive Turn where
  | upTo (k : ℕ)
  | interrupted
  | failed
  deriving DecidableEq, Repr

/-- The items still to come, and what the next reads meet. -/
structure Source (α : Type*) where
  rest : List α
  turns : List Turn
  deriving DecidableEq, Repr

/-- What a read gives. -/
inductive Got (α : Type*) where
  | items (xs : List α)
  | interrupted
  | failed
  deriving DecidableEq, Repr

/-- Why a source was not filled from. -/
inductive Unfilled where
  | ended
  | failed
  deriving DecidableEq, Repr

namespace Source

variable {α : Type*}

/-- One read, of at most `n` items. -/
def read (n : ℕ) (s : Source α) : Got α × Source α :=
  match s.turns with
  | [] => (.items (s.rest.take n), ⟨s.rest.drop n, []⟩)
  | .upTo k :: turns =>
    (.items (s.rest.take (min n (k + 1))), ⟨s.rest.drop (min n (k + 1)), turns⟩)
  | .interrupted :: turns => (.interrupted, ⟨s.rest, turns⟩)
  | .failed :: turns => (.failed, ⟨s.rest, turns⟩)

/-- What one read of at most `n` items can do: it brings the next items, or finds the end, or uses
a turn up. -/
def ReadSpec (n : ℕ) (s : Source α) : Got α × Source α → Prop
  | (.items [], s') => s.rest = [] ∧ s'.rest = [] ∧ s'.turns <:+ s.turns
  | (.items (x :: xs), s') =>
    (x :: xs).length ≤ n ∧ s.rest = x :: xs ++ s'.rest ∧ s'.turns <:+ s.turns
  | (.interrupted, s') =>
    s'.rest = s.rest ∧ s'.turns <:+ s.turns ∧ s'.turns.length < s.turns.length
  | (.failed, s') => .failed ∈ s.turns ∧ s'.turns <:+ s.turns

theorem readSpec_items {n m : ℕ} (hm : 0 < m) (hmn : m ≤ n) {s : Source α} {turns : List Turn}
    (ht : turns <:+ s.turns) : ReadSpec n s (.items (s.rest.take m), ⟨s.rest.drop m, turns⟩) := by
  have hsplit := List.take_append_drop m s.rest
  have hlen := List.length_take_le m s.rest
  cases htaken : s.rest.take m with
  | nil =>
    have hrest : s.rest = [] := (List.take_eq_nil_iff.mp htaken).resolve_left (by omega)
    exact ⟨hrest, by rw [hrest]; exact List.drop_nil, ht⟩
  | cons x xs =>
    rw [htaken] at hsplit hlen
    exact ⟨hlen.trans hmn, hsplit.symm, ht⟩

theorem read_spec {n : ℕ} (hn : 0 < n) (s : Source α) : ReadSpec n s (s.read n) := by
  obtain ⟨rest, turns⟩ := s
  cases turns with
  | nil => exact readSpec_items hn le_rfl List.suffix_rfl
  | cons turn turns =>
    have ht : turns <:+ turn :: turns := List.suffix_cons turn turns
    cases turn with
    | upTo k => exact readSpec_items (lt_min hn (Nat.succ_pos k)) (min_le_left n (k + 1)) ht
    | interrupted => exact ⟨rfl, ht, Nat.lt_succ_self turns.length⟩
    | failed => exact ⟨List.mem_cons_self, ht⟩

/-- Read on until `n` items are there; an interrupted read is made again. -/
def fill (n : ℕ) (got : List α) (s : Source α) : Except Unfilled (List α) × Source α :=
  if n ≤ got.length then (.ok got, s)
  else
    match _ : s.read (n - got.length) with
    | (.items [], s') => (.error .ended, s')
    | (.items (x :: xs), s') => fill n (got ++ x :: xs) s'
    | (.interrupted, s') => fill n got s'
    | (.failed, s') => (.error .failed, s')
  termination_by n - got.length + s.turns.length
  decreasing_by
    all_goals
      rename_i hgot h
      have hread := read_spec (Nat.sub_pos_of_lt (Nat.lt_of_not_le hgot)) s
      rw [h] at hread
    · have hturns := hread.2.2.length_le
      rw [List.length_append, List.length_cons]
      omega
    · have hturns := hread.2.2
      omega

/-- What filling up to `n` items comes to. -/
def FillSpec (n : ℕ) (got : List α) (s : Source α) : Except Unfilled (List α) × Source α → Prop
  | (.ok xs, s') => ∃ taken, xs = got ++ taken ∧ taken.length = n - got.length ∧
      s.rest = taken ++ s'.rest ∧ s'.turns <:+ s.turns
  | (.error .ended, s') => s.rest.length < n - got.length ∧ s'.rest = [] ∧ s'.turns <:+ s.turns
  | (.error .failed, _) => .failed ∈ s.turns

/-- **What filling brings**: the next items, or it stops at the end or at a failing read. -/
theorem fill_spec (n : ℕ) (got : List α) (s : Source α) : FillSpec n got s (s.fill n got) := by
  induction got, s using fill.induct (n := n) with
  | case1 got s hgot =>
    rw [fill, if_pos hgot]
    exact ⟨[], (List.append_nil got).symm, (Nat.sub_eq_zero_of_le hgot).symm, rfl,
      List.suffix_rfl⟩
  | case2 got s hgot s' h =>
    have hread := read_spec (Nat.sub_pos_of_lt (Nat.lt_of_not_le hgot)) s
    rw [fill, if_neg hgot]
    rw [h] at hread ⊢
    obtain ⟨hrest, hend, ht⟩ := hread
    refine ⟨?_, hend, ht⟩
    rw [hrest, List.length_nil]
    omega
  | case3 got s hgot x xs s' h ih =>
    have hread := read_spec (Nat.sub_pos_of_lt (Nat.lt_of_not_le hgot)) s
    rw [fill, if_neg hgot]
    rw [h] at hread ⊢
    obtain ⟨hlen, hrest, ht⟩ := hread
    show FillSpec n got s (fill n (got ++ x :: xs) s')
    generalize fill n (got ++ x :: xs) s' = r at ih ⊢
    obtain ⟨result, s''⟩ := r
    cases result with
    | ok ys =>
      obtain ⟨taken, rfl, htaken, hrest', ht'⟩ := ih
      refine ⟨x :: xs ++ taken, by rw [List.append_assoc], ?_, ?_, ht'.trans ht⟩
      · rw [List.length_append] at htaken ⊢
        omega
      · rw [hrest, hrest', List.append_assoc]
    | error e =>
      cases e with
      | ended =>
        obtain ⟨hshort, hend, ht'⟩ := ih
        refine ⟨?_, hend, ht'.trans ht⟩
        rw [List.length_append] at hshort
        rw [hrest, List.length_append]
        omega
      | failed => exact ht.subset ih
  | case4 got s hgot s' h ih =>
    have hread := read_spec (Nat.sub_pos_of_lt (Nat.lt_of_not_le hgot)) s
    rw [fill, if_neg hgot]
    rw [h] at hread ⊢
    obtain ⟨hrest, ht, -⟩ := hread
    show FillSpec n got s (fill n got s')
    generalize fill n got s' = r at ih ⊢
    obtain ⟨result, s''⟩ := r
    cases result with
    | ok ys =>
      obtain ⟨taken, rfl, htaken, hrest', ht'⟩ := ih
      exact ⟨taken, rfl, htaken, hrest ▸ hrest', ht'.trans ht⟩
    | error e =>
      cases e with
      | ended => exact ⟨hrest ▸ ih.1, ih.2.1, ih.2.2.trans ht⟩
      | failed => exact ht.subset ih
  | case5 got s hgot s' h =>
    have hread := read_spec (Nat.sub_pos_of_lt (Nat.lt_of_not_le hgot)) s
    rw [fill, if_neg hgot]
    rw [h] at hread ⊢
    exact hread.1

/-! ### A source where no read fails -/

/-- No read fails. -/
def Calm (s : Source α) : Prop := .failed ∉ s.turns

theorem Calm.suffix {s s' : Source α} (hs : s.Calm) (h : s'.turns <:+ s.turns) : s'.Calm :=
  fun hmem => hs (h.subset hmem)

/-- **Enough is there**: filling brings the next items, whatever each read brings. -/
theorem fill_of_le {n : ℕ} {s : Source α} (hs : s.Calm) {xs ys : List α} (hxs : xs.length = n)
    (hrest : s.rest = xs ++ ys) :
    ∃ s', s.fill n [] = (.ok xs, s') ∧ s'.rest = ys ∧ s'.Calm := by
  have hfill := fill_spec n [] s
  generalize s.fill n [] = r at hfill ⊢
  obtain ⟨result, s'⟩ := r
  cases result with
  | ok zs =>
    obtain ⟨taken, rfl, htaken, hrest', ht⟩ := hfill
    rw [hrest] at hrest'
    obtain ⟨rfl, rfl⟩ := List.append_inj hrest' (hxs.trans htaken.symm)
    exact ⟨s', rfl, rfl, hs.suffix ht⟩
  | error e =>
    cases e with
    | ended =>
      have hshort := hfill.1
      rw [hrest, List.length_append, List.length_nil] at hshort
      omega
    | failed => exact absurd hfill hs

/-- Too little is there: filling finds the end. -/
theorem fill_of_lt {n : ℕ} {s : Source α} (hs : s.Calm) (hn : s.rest.length < n) :
    ∃ s', s.fill n [] = (.error .ended, s') ∧ s'.rest = [] ∧ s'.Calm := by
  have hfill := fill_spec n [] s
  generalize s.fill n [] = r at hfill ⊢
  obtain ⟨result, s'⟩ := r
  cases result with
  | ok zs =>
    obtain ⟨taken, rfl, htaken, hrest', ht⟩ := hfill
    rw [hrest', List.length_append, htaken, List.length_nil] at hn
    omega
  | error e =>
    cases e with
    | ended => exact ⟨s', rfl, hfill.2.1, hs.suffix hfill.2.2⟩
    | failed => exact absurd hfill hs

end Source

end Mimo26

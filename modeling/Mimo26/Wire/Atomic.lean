import Mimo26.Wire.SumInvariant

/-!
# Frames taken whole

`CoordinatorSum.accumulate` checks and lands the rows of a frame one after another, so a frame whose
first row is taken and a later one refused stays half landed. Its corrected retransmission then
meets its own first row.

Whether a row is taken can be read off the state before the frame: the rows of a frame have distinct
keys, and landing one moves neither the bounds nor the keys that the others are checked against.

## Main definitions

* `CoordinatorSum.Takes` — the checks of one row
* `CoordinatorSum.Atomic` — an error leaves the sum as it was
* `CoordinatorSum.FirstDecides` — a frame is taken whole or refused at its first row

## Main results

* `accumulateRows_eq_ok` — when all rows of a frame are taken
* `atomic_iff` — the frames that are accumulated atomically
* `not_atomic_overhang` — a frame that reaches past the last row of the sum
-/

namespace Mimo26

namespace Wire

open Result

variable {F : Type} [Fp32 F]

namespace CoordinatorSum

/-- The checks of row `r` of a frame. -/
structure Takes (s : CoordinatorSum F) (f : ReturnFrame) (r : ℕ) (row : ReturnRow) : Prop where
  le : f.tokenPosition.toNat + r ≤ usizeMax
  lt : f.tokenPosition.toNat + r < s.rows
  codes : row.codes.length = s.hidden
  free : f.key r ∉ s.seen ∨ s.naive.has WireNaive.dupDoubleCount = true

/-- An error of `accumulate` leaves the sum as it was, so what would have been accepted before is
accepted still. -/
structure Atomic (s : CoordinatorSum F) (f : ReturnFrame) : Prop where
  unchanged : ∀ e, (s.accumulate f).2 = .error e → (s.accumulate f).1 = s
  retransmit : ∀ e, (s.accumulate f).2 = .error e →
    ∀ g, (s.accumulate g).2 = .ok () → ((s.accumulate f).1.accumulate g).2 = .ok ()

/-- The frame reports an error, is of no rank, is refused at its first row or passes all checks. -/
def FirstDecides (s : CoordinatorSum F) (f : ReturnFrame) : Prop :=
  f.status = .ok → f.executorId.toNat < sparks →
    (∀ row, f.rows.head? = some row → s.Takes f 0 row) →
      ∀ r row, f.rows[r]? = some row → s.Takes f r row

variable {s s' : CoordinatorSum F} {f : ReturnFrame} {rank r : ℕ} {row : ReturnRow}
  {rows : List ReturnRow}

@[simp] theorem land_naive (s : CoordinatorSum F) (key : SlotKey) (rank token : ℕ) (isDup : Bool)
    (codes : List UInt16) : (s.land key rank token isDup codes).naive = s.naive := by
  unfold land
  dsimp only
  split <;> rfl

@[simp] theorem land_seen (s : CoordinatorSum F) (key : SlotKey) (rank token : ℕ) (isDup : Bool)
    (codes : List UInt16) : (s.land key rank token isDup codes).seen = s.seen ++ [key] := by
  unfold land
  dsimp only
  split <;> rfl

/-- A row that passes its checks is landed. -/
theorem accumulateRow_eq_ok_iff : s.accumulateRow f rank r row = .ok s' ↔
    s.Takes f r row ∧ s' = s.land (f.key r) rank (f.tokenPosition.toNat + r)
      (decide (f.key r ∈ s.seen)) row.codes := by
  rw [accumulateRow]
  simp only [bind_eq_ok, ensure_eq_ok, pure_eq_ok, decide_eq_true_eq, Bool.or_eq_true,
    Bool.not_eq_true', decide_eq_false_iff_not, Except.ok.injEq]
  constructor
  · rintro ⟨⟨⟩, hle, ⟨⟩, hlt, ⟨⟩, hcodes, ⟨⟩, hfree, hs⟩
    exact ⟨⟨hle, hlt, hcodes, hfree⟩, hs.symm⟩
  · rintro ⟨⟨hle, hlt, hcodes, hfree⟩, hs⟩
    exact ⟨(), hle, (), hlt, (), hcodes, (), hfree, hs.symm⟩

/-- The rows of a frame have distinct keys. -/
theorem key_ne {r r' : ℕ} (hle : f.tokenPosition.toNat + r' ≤ usizeMax) (hlt : r < r') :
    f.key r' ≠ f.key r := by
  intro heq
  have htoken := congrArg (fun k : SlotKey => k.tokenPosition.toNat) heq
  simp only [ReturnFrame.key] at htoken
  rw [toNat_ofNat_of_le hle, toNat_ofNat_of_le (by omega)] at htoken
  omega

/-- **Step.** Landing a row does not change what the checks of a later row say. -/
theorem takes_land {r r' : ℕ} {row' : ReturnRow} (hlt : r < r') (token : ℕ) (isDup : Bool)
    (codes : List UInt16) :
    (s.land (f.key r) rank token isDup codes).Takes f r' row' ↔ s.Takes f r' row' := by
  constructor
  · rintro ⟨hle, hbound, hcodes, hfree⟩
    rw [land_rows] at hbound
    rw [land_hidden] at hcodes
    rw [land_seen, land_naive, List.mem_append, List.mem_singleton] at hfree
    exact ⟨hle, hbound, hcodes, hfree.imp_left fun hnew hold => hnew (Or.inl hold)⟩
  · rintro ⟨hle, hbound, hcodes, hfree⟩
    refine ⟨hle, by rwa [land_rows], by rwa [land_hidden], ?_⟩
    rw [land_seen, land_naive, List.mem_append, List.mem_singleton]
    refine hfree.imp_left fun hnew hmem => ?_
    rcases hmem with hold | heq
    · exact hnew hold
    · exact key_ne hle hlt heq

/-- **Frame.** All rows of a frame are taken exactly when each passes its checks in the state before
the frame. -/
theorem accumulateRows_eq_ok : (accumulateRows f rank s r rows).2 = .ok () ↔
    ∀ i row, rows[i]? = some row → s.Takes f (r + i) row := by
  induction rows generalizing s r with
  | nil => simp [accumulateRows]
  | cons row rows ih =>
    have hcons : (∀ i row', (row :: rows)[i]? = some row' → s.Takes f (r + i) row') ↔
        s.Takes f r row ∧ ∀ i row', rows[i]? = some row' → s.Takes f (r + 1 + i) row' := by
      constructor
      · intro hall
        refine ⟨hall 0 row rfl, fun i row' hi => ?_⟩
        have htakes := hall (i + 1) row' hi
        rwa [← Nat.add_assoc, Nat.add_right_comm] at htakes
      · rintro ⟨hhead, htail⟩ i row' hi
        cases i with
        | zero =>
          obtain rfl := Option.some.inj hi
          exact hhead
        | succ i =>
          have htakes := htail i row' hi
          rwa [Nat.add_right_comm, Nat.add_assoc] at htakes
    rw [accumulateRows, hcons]
    cases hrow : s.accumulateRow f rank r row with
    | ok s' =>
      obtain ⟨hhead, rfl⟩ := accumulateRow_eq_ok_iff.mp hrow
      dsimp only
      rw [ih]
      constructor
      · intro hrest
        exact ⟨hhead, fun i row' hi => (takes_land (by omega) _ _ _).mp (hrest i row' hi)⟩
      · rintro ⟨-, hrest⟩ i row' hi
        exact (takes_land (by omega) _ _ _).mpr (hrest i row' hi)
    | error e =>
      dsimp only
      constructor
      · intro herr
        cases herr
      · rintro ⟨hhead, -⟩
        rw [accumulateRow_eq_ok_iff.mpr ⟨hhead, rfl⟩] at hrow
        cases hrow

/-- The keys seen are never forgotten. -/
theorem seen_accumulateRows : s.seen <+: (accumulateRows f rank s r rows).1.seen := by
  induction rows generalizing s r with
  | nil => exact List.prefix_rfl
  | cons row rows ih =>
    rw [accumulateRows]
    cases hrow : s.accumulateRow f rank r row with
    | ok s' =>
      obtain ⟨-, rfl⟩ := accumulateRow_eq_ok_iff.mp hrow
      exact (by rw [land_seen]; exact List.prefix_append _ _ : s.seen <+: _).trans ih
    | error e => exact List.prefix_rfl

/-- A frame whose first row is taken leaves its key. -/
theorem accumulateRows_ne (hhead : s.Takes f r row) :
    (accumulateRows f rank s r (row :: rows)).1 ≠ s := by
  intro heq
  rw [accumulateRows, accumulateRow_eq_ok_iff.mpr ⟨hhead, rfl⟩] at heq
  have hlen := (@seen_accumulateRows F _ (s.land (f.key r) rank (f.tokenPosition.toNat + r)
    (decide (f.key r ∈ s.seen)) row.codes) f rank (r + 1) rows).length_le
  rw [land_seen, List.length_append, List.length_singleton] at hlen
  dsimp only at heq
  rw [heq] at hlen
  omega

/-- A frame refused at its first row changes nothing. -/
theorem accumulateRows_of_not (hhead : ¬ s.Takes f r row) :
    (accumulateRows f rank s r (row :: rows)).1 = s := by
  rw [accumulateRows]
  cases hrow : s.accumulateRow f rank r row with
  | ok s' => exact absurd (accumulateRow_eq_ok_iff.mp hrow).1 hhead
  | error e => rfl

/-- **Atomic frames.** `accumulate` leaves the sum as it was whenever it fails, and so accepts what
it would have accepted, exactly for frames that are taken whole or refused at their first row. -/
theorem atomic_iff (s : CoordinatorSum F) (f : ReturnFrame) : s.Atomic f ↔ s.FirstDecides f := by
  have hatomic : s.Atomic f ↔ ∀ e, (s.accumulate f).2 = .error e → (s.accumulate f).1 = s :=
    ⟨Atomic.unchanged, fun h => ⟨h, fun e he g hg => by rwa [h e he]⟩⟩
  rw [hatomic, FirstDecides, accumulate]
  by_cases hstatus : f.status = .ok
  · rw [if_neg (by simpa using hstatus)]
    by_cases hrank : f.executorId.toNat < sparks
    · rw [if_neg (by omega)]
      have hall : (accumulateRows f f.executorId.toNat s 0 f.rows).2 = .ok () ↔
          ∀ r row, f.rows[r]? = some row → s.Takes f r row := by
        rw [accumulateRows_eq_ok]
        simp only [Nat.zero_add]
      cases hrows : f.rows with
      | nil => simp [accumulateRows]
      | cons row rows =>
        rw [hrows] at hall
        constructor
        · intro hkeep _ _ hfirst
          rw [← hall]
          cases hres : (accumulateRows f f.executorId.toNat s 0 (row :: rows)).2 with
          | ok u => rfl
          | error e => exact absurd (hkeep e hres) (accumulateRows_ne (hfirst row rfl))
        · intro hdecides e he
          by_cases hhead : s.Takes f 0 row
          · have hok := hall.mpr (hdecides hstatus hrank fun row' hrow' => by
              obtain rfl := Option.some.inj hrow'
              exact hhead)
            rw [he] at hok
            cases hok
          · exact accumulateRows_of_not hhead
    · rw [if_pos (by omega)]
      simp [hrank]
  · rw [if_pos hstatus]
    simp [hstatus]

/-- A frame of two rows for the last row of a sum. -/
def overhang : ReturnFrame where
  requestId := 1
  placementVersion := 1
  layerId := 0
  executorId := 0
  tokenPosition := 0
  status := .ok
  flags := flagReturnRequired
  routeCount := 8
  seq := 0
  rows := [⟨[0x3F80]⟩, ⟨[0x3F80]⟩]

/-- **A half-taken frame.** The second row is past the sum and the frame is refused, with its first
row landed; the frame without the second row, which the sum would have taken, is then refused
too. -/
theorem not_atomic_overhang :
    let s : CoordinatorSum FloatTerm := .new 1 1 .none
    let fixed : ReturnFrame := { overhang with rows := [⟨[0x3F80]⟩] }
    (s.accumulate overhang).2 = .error (.dimMismatch "token_position" 1 1) ∧
      (s.accumulate overhang).1 ≠ s ∧ (s.accumulate fixed).2 = .ok () ∧
      ((s.accumulate overhang).1.accumulate fixed).2 =
        .error (.slotFilled (overhang.key 0)) ∧ ¬ s.Atomic overhang := by
  intro s fixed
  have herr : (s.accumulate overhang).2 = .error (.dimMismatch "token_position" 1 1) := by decide
  have hne : (s.accumulate overhang).1 ≠ s := by
    intro heq
    exact absurd (congrArg CoordinatorSum.seen heq) (by decide)
  exact ⟨herr, hne, by decide, by decide, fun h => hne (h.unchanged _ herr)⟩

end CoordinatorSum

end Wire

end Mimo26

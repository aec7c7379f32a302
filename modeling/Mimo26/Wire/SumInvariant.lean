import Mathlib.Data.List.Perm.Basic
import Mimo26.Library.Result
import Mimo26.Wire.FrameRoundTrip
import Mimo26.Wire.L4

/-!
# What a sum has taken

`CoordinatorSum` against the log of the rows it has landed. `Holds s log` ties every part of the
state to that log: the keys seen, the count of rows, each cell of the rank buffers and, once a token
has been answered by as many rows as there are ranks, its line of the accumulator. Landing a row
appends to the log, so feeding any sequence of frames keeps `Holds` for some log.

## Main definitions

* `Partial` — one row, under the key it is taken by
* `rankSum` — the sum over the ranks, in rank order
* `CoordinatorSum.Holds` — the invariant
* `CoordinatorSum.feed` — a sequence of frames

## Main results

* `Holds.land` — the step lemma
* `Holds.accumulate`, `Holds.feed` — a frame, and a whole sequence of frames
* `Holds.result_of_perm` — when every slot has its own row, the result is the rank-ordered sum
-/

namespace Mimo26

namespace Wire

open Result

/-! ### Rows under their keys -/

/-- One row of a return frame, under the key it is taken by. -/
structure Partial where
  key : SlotKey
  codes : List UInt16
  deriving DecidableEq, Repr

/-- The rank and the token of a key. -/
def SlotKey.slot (k : SlotKey) : ℕ × ℕ := (k.executorId.toNat, k.tokenPosition.toNat)

/-- The key of row `r` of a frame. -/
def ReturnFrame.key (f : ReturnFrame) (r : ℕ) : SlotKey :=
  ⟨f.requestId, f.layerId, UInt64.ofNat (f.tokenPosition.toNat + r), f.executorId⟩

/-- The rows of a frame from index `r` on. -/
def ReturnFrame.partialsFrom (f : ReturnFrame) : ℕ → List ReturnRow → List Partial
  | _, [] => []
  | r, row :: rows => ⟨f.key r, row.codes⟩ :: f.partialsFrom (r + 1) rows

/-- The rows of a frame. -/
def ReturnFrame.partials (f : ReturnFrame) : List Partial := f.partialsFrom 0 f.rows

/-- The rows of a frame from index `r` on, each with its rank, its token and its codes. -/
def ReturnFrame.addressedFrom (f : ReturnFrame) :
    ℕ → List ReturnRow → List ((ℕ × ℕ) × List UInt16)
  | _, [] => []
  | r, row :: rows =>
    ((f.executorId.toNat, f.tokenPosition.toNat + r), row.codes) :: f.addressedFrom (r + 1) rows

/-- The rows of a frame, each with its rank, its token and its codes. -/
def ReturnFrame.addressed (f : ReturnFrame) : List ((ℕ × ℕ) × List UInt16) :=
  f.addressedFrom 0 f.rows

theorem slot_key {f : ReturnFrame} {r : ℕ} (hle : f.tokenPosition.toNat + r ≤ usizeMax) :
    (f.key r).slot = (f.executorId.toNat, f.tokenPosition.toNat + r) := by
  rw [SlotKey.slot, ReturnFrame.key, toNat_ofNat_of_le hle]

/-- The slots and codes of a log. -/
def slotCodes (log : List Partial) : List ((ℕ × ℕ) × List UInt16) :=
  log.map fun p => (p.key.slot, p.codes)

theorem slotCodes_append (log log' : List Partial) :
    slotCodes (log ++ log') = slotCodes log ++ slotCodes log' :=
  List.map_append

theorem map_fst_slotCodes (log : List Partial) :
    (slotCodes log).map Prod.fst = log.map (·.key.slot) := by
  rw [slotCodes, List.map_map]
  rfl

theorem ReturnFrame.slotCodes_partialsFrom {f : ReturnFrame} {r : ℕ} {rows : List ReturnRow}
    (hle : ∀ x ∈ f.addressedFrom r rows, x.1.2 ≤ usizeMax) :
    slotCodes (f.partialsFrom r rows) = f.addressedFrom r rows := by
  induction rows generalizing r with
  | nil => rfl
  | cons row rows ih =>
    have hhead : (f.key r).slot = (f.executorId.toNat, f.tokenPosition.toNat + r) :=
      slot_key (hle _ List.mem_cons_self)
    have htail := ih (r := r + 1) fun x hx => hle x (List.mem_cons_of_mem _ hx)
    rw [slotCodes] at htail
    rw [partialsFrom, addressedFrom, slotCodes, List.map_cons, hhead, htail]

theorem ReturnFrame.mem_partialsFrom {f : ReturnFrame} {r : ℕ} {rows : List ReturnRow}
    {p : Partial} (hp : p ∈ f.partialsFrom r rows) :
    p.key.requestId = f.requestId ∧ p.key.layerId = f.layerId ∧
      p.key.executorId = f.executorId := by
  induction rows generalizing r with
  | nil => exact absurd hp List.not_mem_nil
  | cons row rows ih =>
    rcases List.mem_cons.mp hp with rfl | hmem
    · exact ⟨rfl, rfl, rfl⟩
    · exact ih hmem

variable {F : Type} [Fp32 F]

/-- The sum of one value per rank, in rank order from zero. -/
def rankSum (x : ℕ → F) : F :=
  (List.range sparks).foldl (fun sum rank => Fp32.add sum (x rank)) Fp32.zero

/-- Cell `i` of `(rank, token)` after the rows of `log`: each of them added in the order taken. -/
def cellOf (log : List Partial) (rank token i : ℕ) : F :=
  (log.filter (·.key.slot = (rank, token))).foldl
    (fun x p => Fp32.add x (widen (p.codes.getD i 0))) Fp32.zero

/-- The rows of `log` for `token`. -/
def tokenCount (log : List Partial) (token : ℕ) : ℕ :=
  log.countP fun p => p.key.slot.2 = token

theorem cellOf_append_of_ne {log : List Partial} {p : Partial} {rank token i : ℕ}
    (hne : p.key.slot ≠ (rank, token)) :
    (cellOf (log ++ [p]) rank token i : F) = cellOf log rank token i := by
  rw [cellOf, cellOf, List.filter_append]
  simp [hne]

theorem cellOf_append_self (log : List Partial) (p : Partial) (i : ℕ) :
    (cellOf (log ++ [p]) p.key.slot.1 p.key.slot.2 i : F)
      = Fp32.add (cellOf log p.key.slot.1 p.key.slot.2 i) (widen (p.codes.getD i 0)) := by
  rw [cellOf, cellOf, List.filter_append]
  simp

theorem tokenCount_append (log : List Partial) (p : Partial) (token : ℕ) :
    tokenCount (log ++ [p]) token = tokenCount log token + if p.key.slot.2 = token then 1 else
        0 := by
  simp [tokenCount, List.countP_append, List.countP_cons]

namespace CoordinatorSum

/-! ### The invariant -/

/-- The state of a sum that has taken exactly the rows of `log`. -/
structure Holds (s : CoordinatorSum F) (log : List Partial) : Prop where
  naive : s.naive = .none
  seen : s.seen = log.map (·.key)
  nodup : (log.map (·.key)).Nodup
  distinct : s.distinct = log.length
  slot_mem : ∀ p ∈ log, p.key.slot ∈ Grid.slots sparks s.rows
  codes_len : ∀ p ∈ log, p.codes.length = s.hidden
  length_acc : s.acc.length = s.rows * s.hidden
  cell : ∀ rank < sparks, ∀ token < s.rows, ∀ i < s.hidden,
    s.rankBuf[rank * (s.rows * s.hidden) + token * s.hidden + i]? = some (cellOf log rank token i)
  count : ∀ token < s.rows,
    s.slotRankCount[token]? = some (UInt8.ofNat (tokenCount log token))
  summed : ∀ token < s.rows, tokenCount log token = sparks → ∀ i < s.hidden,
    s.acc[token * s.hidden + i]? = some (rankSum fun rank => cellOf log rank token i)

theorem holds_new (rows hidden : ℕ) : (new rows hidden .none : CoordinatorSum F).Holds [] where
  naive := rfl
  seen := rfl
  nodup := List.nodup_nil
  distinct := rfl
  slot_mem := by simp
  codes_len := by simp
  length_acc := by simp [new]
  cell := by
    intro rank hrank token htoken i hi
    have hlt : rank * (rows * hidden) + (token * hidden + i) < sparks * (rows * hidden) :=
      Grid.cell_lt hrank (Grid.cell_lt htoken hi)
    rw [new, List.getElem?_replicate, if_pos (by rwa [add_assoc])]
    rfl
  count := by
    intro token htoken
    have hlt : token < rows := htoken
    rw [new, List.getElem?_replicate, if_pos hlt]
    rfl
  summed := by
    intro token _ hcount
    simp [tokenCount, sparks] at hcount

variable {s : CoordinatorSum F} {log : List Partial}

/-- Landing a new row, with the branches of the wrong implementations gone. -/
theorem land_of_none (hn : s.naive = .none) (key : SlotKey) (rank token : ℕ)
    (codes : List UInt16) :
    s.land key rank token false codes =
      { s with
        arrivals := s.arrivals + 1
        seen := s.seen ++ [key]
        distinct := s.distinct + 1
        slotRankCount := s.slotRankCount.modify token (· + 1)
        rankBuf := Grid.addSpan Fp32.add s.rankBuf
          (rank * (s.rows * s.hidden) + token * s.hidden) (codes.map widen)
        acc := if ((s.slotRankCount.modify token (· + 1)).getD token 0).toNat = sparks then
            Grid.setSpan s.acc (token * s.hidden) s.hidden (sumRanks
              (Grid.addSpan Fp32.add s.rankBuf
                (rank * (s.rows * s.hidden) + token * s.hidden) (codes.map widen))
              (s.rows * s.hidden) (token * s.hidden))
          else s.acc } := by
  simp [land, slotRow, hn]

/-- When a row is taken. -/
theorem accumulateRow_eq_ok (hn : s.naive = .none) {f : ReturnFrame} {rank r : ℕ}
    {row : ReturnRow} {s' : CoordinatorSum F} :
    s.accumulateRow f rank r row = .ok s' ↔
      (f.tokenPosition.toNat + r ≤ usizeMax ∧ f.tokenPosition.toNat + r < s.rows ∧
        row.codes.length = s.hidden ∧ f.key r ∉ s.seen) ∧
      s' = s.land (f.key r) rank (f.tokenPosition.toNat + r) false row.codes := by
  rw [accumulateRow]
  simp only [bind_eq_ok, ensure_eq_ok, hn, WireNaive.has_none, Bool.or_false, pure_eq_ok,
    decide_eq_true_eq, Bool.not_eq_true', decide_eq_false_iff_not, Except.ok.injEq]
  constructor
  · rintro ⟨⟨⟩, hle, ⟨⟩, hlt, ⟨⟩, hcodes, ⟨⟩, hseen, rfl⟩
    exact ⟨⟨hle, hlt, hcodes, hseen⟩,
      congrArg (s.land (f.key r) rank _ · row.codes) (decide_eq_false hseen)⟩
  · rintro ⟨⟨hle, hlt, hcodes, hseen⟩, rfl⟩
    exact ⟨(), hle, (), hlt, (), hcodes, (), hseen,
      congrArg (s.land (f.key r) rank _ · row.codes) (decide_eq_false hseen)⟩

section land

variable {p : Partial} {rank token : ℕ}

/-- The rank buffers after a row. -/
theorem Holds.cell_land (h : s.Holds log) (hslot : p.key.slot = (rank, token))
    (htoken : token < s.rows) (hcodes : p.codes.length = s.hidden) :
    ∀ rank' < sparks, ∀ token' < s.rows, ∀ i < s.hidden,
      (Grid.addSpan Fp32.add s.rankBuf (rank * (s.rows * s.hidden) + token * s.hidden)
          (p.codes.map widen))[rank' * (s.rows * s.hidden) + token' * s.hidden + i]?
        = some (cellOf (log ++ [p]) rank' token' i) := by
  intro rank' hrank' token' htoken' i hi
  have hold := h.cell rank' hrank' token' htoken' i hi
  by_cases hsame : (rank', token') = (rank, token)
  · obtain ⟨rfl, rfl⟩ := Prod.mk.inj hsame
    have hcell := cellOf_append_self (F := F) log p i
    rw [hslot] at hcell
    rw [Grid.getElem?_addSpan_add (by rwa [List.length_map, hcodes]), hold, hcell,
      Option.map_some, List.getElem_map, List.getD_eq_getElem?_getD,
      List.getElem?_eq_getElem (by omega), Option.getD_some]
  · have hout := Grid.not_mem_span_plane htoken htoken' hi hsame
    rw [Grid.getElem?_addSpan_of_not (by rwa [List.length_map, hcodes]), hold,
      cellOf_append_of_ne (by rw [hslot]; exact fun heq => hsame heq.symm)]

/-- The counts after a row. -/
theorem Holds.count_land (h : s.Holds log) (hslot : p.key.slot = (rank, token)) :
    ∀ token' < s.rows, (s.slotRankCount.modify token (· + 1))[token']?
      = some (UInt8.ofNat (tokenCount (log ++ [p]) token')) := by
  intro token' htoken'
  rw [List.getElem?_modify, h.count token' htoken', tokenCount_append, hslot]
  split
  · next heq => simp [heq]
  · next hne => simp [hne]

/-- The ranks' buffered cells, summed in rank order. -/
theorem sumRanks_eq_rankSum {rankBuf : List F} {plane base i : ℕ} {x : ℕ → F}
    (hx : ∀ rank < sparks, rankBuf[rank * plane + base + i]? = some (x rank)) :
    sumRanks rankBuf plane base i = rankSum x := by
  refine List.foldl_ext _ _ _ fun sum rank hrank => ?_
  rw [List.getD_eq_getElem?_getD, hx rank (List.mem_range.mp hrank), Option.getD_some]

end land

/-- **Step.** Landing a row that passed its checks appends it to the log. -/
theorem Holds.land (h : s.Holds log) {p : Partial} {rank token : ℕ}
    (hslot : p.key.slot = (rank, token)) (hrank : rank < sparks) (htoken : token < s.rows)
    (hcodes : p.codes.length = s.hidden) (hseen : p.key ∉ s.seen) :
    (s.land p.key rank token false p.codes).Holds (log ++ [p]) := by
  rw [land_of_none h.naive]
  have hbuf := h.cell_land hslot htoken hcodes
  have hcount := h.count_land hslot
  refine
    { naive := h.naive
      seen := by simp [h.seen]
      nodup := ?_
      distinct := by simp [h.distinct]
      slot_mem := ?_
      codes_len := ?_
      length_acc := ?_
      cell := hbuf
      count := hcount
      summed := ?_ }
  · rw [List.map_append, List.nodup_append]
    refine ⟨h.nodup, List.nodup_singleton _, ?_⟩
    rintro k hk k' hk' rfl
    rw [h.seen] at hseen
    rw [List.map_singleton, List.mem_singleton] at hk'
    exact hseen (hk' ▸ hk)
  · intro q hq
    rcases List.mem_append.mp hq with hq | hq
    · exact h.slot_mem q hq
    · rw [List.mem_singleton.mp hq, hslot]
      exact Grid.mem_slots.mpr ⟨hrank, htoken⟩
  · intro q hq
    rcases List.mem_append.mp hq with hq | hq
    · exact h.codes_len q hq
    · rw [List.mem_singleton.mp hq]
      exact hcodes
  · show (if _ then _ else _ : List F).length = _
    split
    · rw [Grid.length_setSpan, h.length_acc]
    · exact h.length_acc
  · -- the token just answered is summed now if its count reached the ranks, the others as before
    intro token' htoken' hfour i hi
    have hother (hne : token' ≠ token) : s.acc[token' * s.hidden + i]?
        = some (rankSum fun rank => cellOf (log ++ [p]) rank token' i) := by
      have hne' : p.key.slot.2 ≠ token' := by rw [hslot]; exact fun heq => hne heq.symm
      rw [tokenCount_append, if_neg hne', add_zero] at hfour
      rw [h.summed token' htoken' hfour i hi]
      congr 2
      funext rank'
      refine (cellOf_append_of_ne fun heq => hne' ?_).symm
      rw [heq]
    have hcell (i : ℕ) (hi : i < s.hidden) := sumRanks_eq_rankSum (i := i)
      (x := fun rank => cellOf (log ++ [p]) rank token i)
      fun rank' hrank' => hbuf rank' hrank' token htoken i hi
    show (if _ then _ else _ : List F)[_]? = _
    split
    · rw [Grid.getElem?_setSpan]
      by_cases hsame : token' = token
      · subst hsame
        have hlt : token' * s.hidden + i < s.acc.length := by
          rw [h.length_acc]
          exact Grid.cell_lt htoken hi
        have hin : token' * s.hidden ≤ token' * s.hidden + i ∧
            token' * s.hidden + i < token' * s.hidden + s.hidden := by
          have hi' : i < s.hidden := hi
          omega
        rw [if_pos hin, List.getElem?_eq_getElem hlt, Option.map_some,
          Nat.add_sub_cancel_left, hcell i hi]
      · rw [if_neg (Grid.not_mem_span hi hsame), hother hsame]
    · next hcnt =>
      refine hother fun hsame => hcnt ?_
      subst hsame
      rw [List.getD_eq_getElem?_getD, hcount token' htoken, hfour]
      rfl

@[simp] theorem land_rows (s : CoordinatorSum F) (key : SlotKey) (rank token : ℕ) (isDup : Bool)
    (codes : List UInt16) : (s.land key rank token isDup codes).rows = s.rows := by
  unfold land
  dsimp only
  split <;> rfl

@[simp] theorem land_hidden (s : CoordinatorSum F) (key : SlotKey) (rank token : ℕ) (isDup : Bool)
    (codes : List UInt16) : (s.land key rank token isDup codes).hidden = s.hidden := by
  unfold land
  dsimp only
  split <;> rfl

/-! ### Frames and sequences of frames -/

/-- A row that is taken appends itself to the log. -/
theorem Holds.accumulateRow (h : s.Holds log) {f : ReturnFrame} {r : ℕ} {row : ReturnRow}
    {s' : CoordinatorSum F} (hrank : f.executorId.toNat < sparks)
    (hs : s.accumulateRow f f.executorId.toNat r row = .ok s') :
    s'.Holds (log ++ [⟨f.key r, row.codes⟩]) ∧ s'.rows = s.rows ∧ s'.hidden = s.hidden := by
  obtain ⟨⟨hle, hlt, hcodes, hseen⟩, rfl⟩ := (accumulateRow_eq_ok h.naive).mp hs
  exact ⟨h.land (p := ⟨f.key r, row.codes⟩) (slot_key hle) hrank hlt hcodes hseen,
    land_rows .., land_hidden ..⟩

/-- What feeding `new` more rows to `s` after `log` gives. -/
structure Extends (s s' : CoordinatorSum F) (log new : List Partial) : Prop where
  holds : s'.Holds (log ++ new)
  rows : s'.rows = s.rows
  hidden : s'.hidden = s.hidden

theorem Holds.refl (h : s.Holds log) : s.Extends s log [] :=
  ⟨by rwa [List.append_nil], rfl, rfl⟩

theorem Extends.trans {s s' s'' : CoordinatorSum F} {log a b : List Partial}
    (h : s.Extends s' log a) (h' : s'.Extends s'' (log ++ a) b) : s.Extends s'' log (a ++ b) :=
  ⟨by rw [← List.append_assoc]; exact h'.holds, h'.rows.trans h.rows, h'.hidden.trans h.hidden⟩

/-- Leading rows of a frame from index `r` on, as they are landed. -/
structure LandedFrom (f : ReturnFrame) (r : ℕ) (rows : List ReturnRow) (new : List Partial) :
    Prop where
  keys : new <+: f.partialsFrom r rows
  slots : slotCodes new <+: f.addressedFrom r rows

theorem LandedFrom.nil {f : ReturnFrame} {r : ℕ} {rows : List ReturnRow} : LandedFrom f r rows [] :=
  ⟨List.nil_prefix, List.nil_prefix⟩

theorem Holds.accumulateRows (h : s.Holds log) {f : ReturnFrame} {r : ℕ} {rows : List ReturnRow}
    (hrank : f.executorId.toNat < sparks) :
    ∃ new, LandedFrom f r rows new ∧
      s.Extends (accumulateRows f f.executorId.toNat s r rows).1 log new := by
  induction rows generalizing s log r with
  | nil => exact ⟨[], .nil, h.refl⟩
  | cons row rows ih =>
    rw [CoordinatorSum.accumulateRows]
    cases hs : s.accumulateRow f f.executorId.toNat r row with
    | error e => exact ⟨[], .nil, h.refl⟩
    | ok s' =>
      obtain ⟨hrow, hr, hh⟩ := h.accumulateRow hrank hs
      obtain ⟨⟨hle, -⟩, -⟩ := (accumulateRow_eq_ok h.naive).mp hs
      obtain ⟨new, ⟨hkeys, hslots⟩, hext⟩ := ih (r := r + 1) hrow
      refine ⟨⟨f.key r, row.codes⟩ :: new, ⟨List.cons_prefix_cons.mpr ⟨rfl, hkeys⟩, ?_⟩, ?_⟩
      · rw [slotCodes, List.map_cons, slot_key hle]
        exact List.cons_prefix_cons.mpr ⟨rfl, hslots⟩
      · exact Extends.trans (a := [⟨f.key r, row.codes⟩]) ⟨hrow, hr, hh⟩ hext

/-- **Frame.** Accumulating a frame, whatever it answers, extends the log by leading rows of it, and
by none when the frame reports an error. -/
theorem Holds.accumulate (h : s.Holds log) (f : ReturnFrame) :
    ∃ new, LandedFrom f 0 f.rows new ∧ (f.status ≠ .ok → new = []) ∧
      s.Extends (s.accumulate f).1 log new := by
  rw [CoordinatorSum.accumulate]
  split
  · exact ⟨[], .nil, fun _ => rfl, h.refl⟩
  · next hstatus =>
    split
    · exact ⟨[], .nil, fun _ => rfl, h.refl⟩
    · next hrank =>
      obtain ⟨new, hlanded, hext⟩ := @Holds.accumulateRows F _ s log h f 0 f.rows
        (Nat.not_le.mp hrank)
      exact ⟨new, hlanded, fun hne => absurd hne hstatus, hext⟩

/-- A row of `f`, as it is landed. -/
structure RowOf (f : ReturnFrame) (p : Partial) : Prop where
  status : f.status = .ok
  key : p ∈ f.partials
  slot : (p.key.slot, p.codes) ∈ f.addressed

/-- The sum after a sequence of frames, errors ignored. -/
def feed (s : CoordinatorSum F) (fs : List ReturnFrame) : CoordinatorSum F :=
  fs.foldl (fun s f => (s.accumulate f).1) s

theorem feed_append (s : CoordinatorSum F) (fs gs : List ReturnFrame) :
    s.feed (fs ++ gs) = (s.feed fs).feed gs :=
  List.foldl_append

/-- **Run.** Feeding any frames extends the log by rows of those that report no error. -/
theorem Holds.feed (h : s.Holds log) (fs : List ReturnFrame) :
    ∃ new, (∀ p ∈ new, ∃ f ∈ fs, RowOf f p) ∧ s.Extends (s.feed fs) log new := by
  induction fs generalizing s log with
  | nil => exact ⟨[], by simp, h.refl⟩
  | cons f fs ih =>
    obtain ⟨new, ⟨hkeys, hslots⟩, hstatus, hext⟩ := h.accumulate f
    obtain ⟨new', hmem, hext'⟩ := ih hext.holds
    refine ⟨new ++ new', fun p hp => ?_, hext.trans hext'⟩
    rcases List.mem_append.mp hp with hp | hp
    · refine ⟨f, List.mem_cons_self, ?_, hkeys.subset hp, hslots.subset ?_⟩
      · by_contra hne
        rw [hstatus hne] at hp
        exact List.not_mem_nil hp
      · exact List.mem_map_of_mem (f := fun p : Partial => (p.key.slot, p.codes)) hp
    · obtain ⟨g, hg, hrow⟩ := hmem p hp
      exact ⟨g, List.mem_cons_of_mem f hg, hrow⟩

/-- New rows for slots of the table are taken. -/
theorem Holds.accumulateRows_ok (h : s.Holds log) {f : ReturnFrame} {r : ℕ}
    {rows : List ReturnRow} (hrows : s.rows ≤ usizeMax)
    (hfit : ∀ x ∈ f.addressedFrom r rows, x.1 ∈ Grid.slots sparks s.rows ∧ x.2.length = s.hidden)
    (hfree : ((log ++ f.partialsFrom r rows).map (·.key)).Nodup) :
    (CoordinatorSum.accumulateRows f f.executorId.toNat s r rows).2 = .ok () ∧
      s.Extends (CoordinatorSum.accumulateRows f f.executorId.toNat s r rows).1 log
        (f.partialsFrom r rows) := by
  induction rows generalizing s log r with
  | nil => exact ⟨rfl, h.refl⟩
  | cons row rows ih =>
    obtain ⟨hslot, hcodes⟩ := hfit _ List.mem_cons_self
    obtain ⟨hrank, htoken⟩ := Grid.mem_slots.mp hslot
    have hle : f.tokenPosition.toNat + r ≤ usizeMax := le_trans htoken.le hrows
    have hnew : f.key r ∉ s.seen := by
      rw [h.seen]
      intro hmem
      rw [List.map_append, List.nodup_append] at hfree
      exact hfree.2.2 _ hmem _ List.mem_cons_self rfl
    have hok : s.accumulateRow f f.executorId.toNat r row
        = .ok (s.land (f.key r) f.executorId.toNat (f.tokenPosition.toNat + r) false row.codes) :=
      (accumulateRow_eq_ok h.naive).mpr ⟨⟨hle, htoken, hcodes, hnew⟩, rfl⟩
    obtain ⟨hrow, hr, hh⟩ := h.accumulateRow hrank hok
    obtain ⟨hrest, hext⟩ := ih (r := r + 1) hrow (by rwa [hr])
      (fun x hx => by
        rw [hr, hh]
        exact hfit x (List.mem_cons_of_mem _ hx))
      (by rwa [List.append_assoc])
    rw [CoordinatorSum.accumulateRows, hok]
    exact ⟨hrest, Extends.trans (a := [⟨f.key r, row.codes⟩]) ⟨hrow, hr, hh⟩ hext⟩

/-- New rows for slots of the table are all landed. -/
theorem Holds.accumulateRows_all (h : s.Holds log) {f : ReturnFrame} {r : ℕ}
    {rows : List ReturnRow} (hrows : s.rows ≤ usizeMax)
    (hfit : ∀ x ∈ f.addressedFrom r rows, x.1 ∈ Grid.slots sparks s.rows ∧ x.2.length = s.hidden)
    (hfree : ((log ++ f.partialsFrom r rows).map (·.key)).Nodup) :
    s.Extends (CoordinatorSum.accumulateRows f f.executorId.toNat s r rows).1 log
      (f.partialsFrom r rows) :=
  (h.accumulateRows_ok hrows hfit hfree).2

/-- **Frames with new rows land every row.** -/
theorem Holds.feed_all (h : s.Holds log) {fs : List ReturnFrame} (hrows : s.rows ≤ usizeMax)
    (hstatus : ∀ f ∈ fs, f.status = .ok)
    (hfit : ∀ f ∈ fs, ∀ x ∈ f.addressed, x.1 ∈ Grid.slots sparks s.rows ∧ x.2.length = s.hidden)
    (hfree : ((log ++ fs.flatMap ReturnFrame.partials).map (·.key)).Nodup) :
    s.Extends (s.feed fs) log (fs.flatMap ReturnFrame.partials) := by
  induction fs generalizing s log with
  | nil => exact h.refl
  | cons f fs ih =>
    have hfitf := hfit f List.mem_cons_self
    rw [List.flatMap_cons, ← List.append_assoc] at hfree
    have hframe : s.Extends (s.accumulate f).1 log f.partials := by
      rw [CoordinatorSum.accumulate, if_neg (by simpa using hstatus f List.mem_cons_self)]
      split
      · -- a frame of a foreign rank fits nowhere, so it carries no row
        next hrank =>
        cases hf : f.rows with
        | nil =>
          rw [ReturnFrame.partials, hf]
          exact h.refl
        | cons row rows =>
          have hmem : ((f.executorId.toNat, f.tokenPosition.toNat + 0), row.codes) ∈
              f.addressed := by
            rw [ReturnFrame.addressed, hf]
            exact List.mem_cons_self
          exact absurd hrank (Nat.not_le.mpr (Grid.mem_slots.mp (hfitf _ hmem).1).1)
      · refine h.accumulateRows_all hrows hfitf ?_
        rw [List.map_append] at hfree
        exact (List.nodup_append.mp hfree).1
    have hrest := ih hframe.holds (by rwa [hframe.rows])
      (fun g hg => hstatus g (List.mem_cons_of_mem f hg))
      (fun g hg => by
        rw [hframe.rows, hframe.hidden]
        exact hfit g (List.mem_cons_of_mem f hg))
      hfree
    rw [List.flatMap_cons]
    exact hframe.trans hrest

/-! ### Complete sums -/

/-- All rows of the log answer one request and layer. -/
def SameIds (log : List Partial) (requestId : UInt64) (layerId : UInt32) : Prop :=
  ∀ p ∈ log, p.key.requestId = requestId ∧ p.key.layerId = layerId

theorem SlotKey.eq_of_slot {k k' : SlotKey} (hr : k.requestId = k'.requestId)
    (hl : k.layerId = k'.layerId) (hs : k.slot = k'.slot) : k = k' := by
  obtain ⟨r, l, t, e⟩ := k
  obtain ⟨r', l', t', e'⟩ := k'
  obtain ⟨he, ht⟩ := Prod.mk.inj hs
  obtain rfl : r = r' := hr
  obtain rfl : l = l' := hl
  obtain rfl : e = e' := UInt64.toNat_inj.mp he
  obtain rfl : t = t' := UInt64.toNat_inj.mp ht
  rfl

/-- Rows of one request and layer have distinct slots. -/
theorem Holds.nodup_slots (h : s.Holds log) {requestId : UInt64} {layerId : UInt32}
    (hids : SameIds log requestId layerId) : (log.map (·.key.slot)).Nodup := by
  have hnodup := h.nodup
  rw [List.nodup_iff_pairwise_ne, List.pairwise_map] at hnodup ⊢
  refine hnodup.imp_of_mem fun {p q} hp hq hne heq => hne ?_
  exact SlotKey.eq_of_slot ((hids p hp).1.trans (hids q hq).1.symm)
    ((hids p hp).2.trans (hids q hq).2.symm) heq

/-- **Completion.** A complete sum whose rows answer one request and layer has taken every slot
once. -/
theorem Holds.perm_of_isComplete (h : s.Holds log) {requestId : UInt64} {layerId : UInt32}
    (hids : SameIds log requestId layerId) (hc : s.isComplete = true) :
    (log.map (·.key.slot)).Perm (Grid.slots sparks s.rows) := by
  refine Grid.perm_slots_of_nodup (h.nodup_slots hids) ?_ ?_
  · intro slot hslot
    obtain ⟨p, hp, rfl⟩ := List.mem_map.mp hslot
    exact h.slot_mem p hp
  · rw [List.length_map, ← h.distinct]
    exact eq_of_beq hc

/-- A partial's element as it lands in a zeroed cell. -/
def landed (codes : List UInt16) (i : ℕ) : F := Fp32.add Fp32.zero (widen (codes.getD i 0))

/-- The rank-ordered sum of the partials `partialOf rank token`. -/
def rankOrderSum (rows hidden : ℕ) (partialOf : ℕ → ℕ → List UInt16) : List F :=
  (List.range (rows * hidden)).map fun j =>
    rankSum fun rank => landed (partialOf rank (j / hidden)) (j % hidden)

theorem cellOf_of_nodup {p : Partial} (hn : (log.map (·.key.slot)).Nodup) (hp : p ∈ log) (i : ℕ) :
    (cellOf log p.key.slot.1 p.key.slot.2 i : F) = landed p.codes i := by
  have hfilter : log.filter (fun q => q.key.slot = (p.key.slot.1, p.key.slot.2)) = [p] :=
    Grid.filter_eq_singleton (f := fun q : Partial => q.key.slot) hn hp
  rw [cellOf, hfilter]
  rfl

/-- **Result.** When every slot has taken its own row once, the result is the sum of those rows in
rank order. -/
theorem Holds.result_of_perm (h : s.Holds log)
    (hperm : (log.map (·.key.slot)).Perm (Grid.slots sparks s.rows))
    (partialOf : ℕ → ℕ → List UInt16)
    (hcodes : ∀ p ∈ log, p.codes = partialOf p.key.slot.1 p.key.slot.2) :
    s.result = .ok (rankOrderSum s.rows s.hidden partialOf) := by
  have hn : (log.map (·.key.slot)).Nodup := hperm.nodup_iff.mpr (Grid.nodup_slots _ _)
  have hlen : s.distinct = s.rows * sparks := by
    have hl := hperm.length_eq
    rw [List.length_map, Grid.length_slots] at hl
    rw [h.distinct, hl, Nat.mul_comm]
  have hcell (rank : ℕ) (hrank : rank < sparks) (token : ℕ) (htoken : token < s.rows) (i : ℕ) :
      (cellOf log rank token i : F) = landed (partialOf rank token) i := by
    have hmem : (rank, token) ∈ log.map (·.key.slot) :=
      hperm.mem_iff.mpr (Grid.mem_slots.mpr ⟨hrank, htoken⟩)
    obtain ⟨p, hp, hslot⟩ := List.mem_map.mp hmem
    have hc := cellOf_of_nodup (F := F) hn hp i
    rw [hcodes p hp, hslot] at hc
    exact hc
  have hcount (token : ℕ) (htoken : token < s.rows) : tokenCount log token = sparks := by
    have hcol := hperm.countP_eq fun x => x.2 = token
    rw [List.countP_map, Grid.countP_slots htoken] at hcol
    exact hcol
  rw [result, if_neg (by rw [hlen]; exact fun hne => hne rfl)]
  refine congrArg Except.ok (List.ext_getElem? fun j => ?_)
  by_cases hj : j < s.rows * s.hidden
  · have hpos : 0 < s.hidden := Nat.pos_of_mul_pos_left (Nat.zero_lt_of_lt hj)
    have hrow : j / s.hidden < s.rows := Nat.div_lt_of_lt_mul (by rwa [Nat.mul_comm])
    have hacc := h.summed _ hrow (hcount _ hrow) (j % s.hidden) (Nat.mod_lt j hpos)
    rw [Nat.div_add_mod'] at hacc
    rw [hacc, rankOrderSum, List.getElem?_map, List.getElem?_range hj, Option.map_some]
    congr 1
    refine List.foldl_ext _ _ _ fun sum rank hrank => ?_
    exact congrArg (Fp32.add sum) (hcell rank (List.mem_range.mp hrank) _ hrow _)
  · rw [List.getElem?_eq_none (by rw [h.length_acc]; omega), rankOrderSum,
      List.getElem?_eq_none (by simpa using Nat.not_lt.mp hj)]

end CoordinatorSum

end Wire

end Mimo26

import Mathlib.Data.Finset.Card
import Mathlib.Data.List.Nodup
import Mimo26.Wire.SumInvariant

/-!
# The expert client

Submit now, collect later (`async_api.rs`). `submit` sends one request to each Spark and returns a
ticket; `collect` takes in what has arrived, each frame into the sum of the ticket it answers, and
gives the ticket's result once its sum is complete.

The transport's receive side is the queue of the frames that have arrived, of which `try_recv` takes
the first; what it answers to each `send` is an argument of `submit`.

## Main definitions

* `ExpertClient` — the client, with `submit` and `collect`
* `ExpertClient.Run` — its runs: submits, collects, and partials that arrive once each
* `partialCodes` — the row a rank sent for a token

## Main results

* `Run.inv` — what holds between the operations of a run
* `collect_run` — when `collect` gives a result, and which
-/

namespace Mimo26

namespace Wire

/-- Handle of one submitted layer. -/
structure Ticket where
  id : UInt64
  layerId : UInt32
  rows : ℕ
  sparks : ℕ
  deriving DecidableEq, Repr

structure Pending (F : Type) where
  ticket : Ticket
  requestId : UInt64
  sum : CoordinatorSum F

structure ExpertClient (F : Type) where
  /-- What has arrived and was not received yet. -/
  inbox : List ReturnFrame
  hidden : ℕ
  naive : WireNaive
  nextId : UInt64
  pending : List (Pending F)

/-- Whether the frame answers the ticket. -/
def Pending.answers {F : Type} (p : Pending F) (f : ReturnFrame) : Bool :=
  p.requestId = f.requestId ∧ p.ticket.layerId = f.layerId

namespace ExpertClient

variable {F : Type} [Fp32 F]

def new (hidden : ℕ) (naive : WireNaive) : ExpertClient F := ⟨[], hidden, naive, 1, []⟩

/-- The request of one Spark. -/
def requestFor (requestId : UInt64) (layerId : UInt32) (rows : List RowDescriptor)
    (routes : List RouteEntry)
    (hiddenRows : List HiddenRow) (executor : ℕ) : RequestFrame where
  requestId := requestId
  placementVersion := 1
  layerId := layerId
  executorId := UInt64.ofNat executor
  sourceKind := .decode
  tokenPosition := 0
  flags := 0
  seq := 0
  rows := rows
  routes := routes
  hiddenRows := hiddenRows

/-- Send one request to each Spark. The id is spent whether or not every `send` succeeds. -/
def submit (c : ExpertClient F) (send : RequestFrame → Except WireError Unit) (layerId : UInt32)
    (rows : List RowDescriptor) (routes : List RouteEntry) (hiddenRows : List HiddenRow) :
    ExpertClient F × Except WireError Ticket :=
  let requestId := c.nextId
  let c := { c with nextId := c.nextId + 1 }
  match (List.range sparks).forM fun executor =>
      send (requestFor requestId layerId rows routes hiddenRows executor) with
  | .error e => (c, .error e)
  | .ok _ =>
    let ticket : Ticket := ⟨requestId, layerId, rows.length, sparks⟩
    ({ c with pending :=
      c.pending ++ [⟨ticket, requestId, CoordinatorSum.new rows.length c.hidden c.naive⟩] },
      .ok ticket)

/-- The first pending ticket that a frame answers takes it. -/
def route (f : ReturnFrame) : List (Pending F) → Option (List (Pending F) × Except WireError Unit)
  | [] => none
  | p :: ps =>
    if p.answers f then
      some ({ p with sum := (p.sum.accumulate f).1 } :: ps, (p.sum.accumulate f).2)
    else (route f ps).map fun r => (p :: r.1, r.2)

/-- Receive until nothing is left, or a frame is refused. -/
def drain : List ReturnFrame → List (Pending F) →
    (List ReturnFrame × List (Pending F)) × Except WireError Unit
  | [], ps => (([], ps), .ok ())
  | f :: inbox, ps =>
    match route f ps with
    -- a frame for no ticket is a protocol error
    | none => ((inbox, ps), .error (.unknownRequest f.requestId))
    | some (ps, .error e) => ((inbox, ps), .error e)
    | some (ps, .ok _) => drain inbox ps

/-- Take in what has arrived; `none` until the ticket is complete. -/
def collect (c : ExpertClient F) (ticket : Ticket) :
    ExpertClient F × Except WireError (Option (List F)) :=
  match drain c.inbox c.pending with
  | ((inbox, pending), .error e) => ({ c with inbox, pending }, .error e)
  | ((inbox, pending), .ok _) =>
    ({ c with inbox, pending },
      match pending.find? (·.ticket = ticket) with
      | none => .error (.unknownRequest ticket.id)
      | some p => if p.sum.isComplete then p.sum.result.map some else .ok none)

/-- A frame arrives. -/
def arrive (c : ExpertClient F) (f : ReturnFrame) : ExpertClient F :=
    { c with inbox := c.inbox ++ [f] }

end ExpertClient

/-! ### Partials -/

/-- The frame is a rank's partial of the ticket: one row for each of its tokens. -/
structure IsPartial (hidden : ℕ) (t : Ticket) (f : ReturnFrame) : Prop where
  requestId : f.requestId = t.id
  layerId : f.layerId = t.layerId
  rank : f.executorId.toNat < sparks
  tokenPosition : f.tokenPosition = 0
  status : f.status = .ok
  rows : f.rows.length = t.rows
  codes : ∀ row ∈ f.rows, row.codes.length = hidden

/-- The partials of a ticket. -/
def own (fs : List ReturnFrame) (t : Ticket) : List ReturnFrame := fs.filter (·.requestId = t.id)

/-- All ranks have answered the ticket. -/
def AllArrived (fs : List ReturnFrame) (t : Ticket) : Prop :=
  ∀ rank < sparks, ∃ f ∈ own fs t, f.executorId.toNat = rank

/-- The row that `rank` sent for `token`. -/
def partialCodes (gs : List ReturnFrame) (rank token : ℕ) : List UInt16 :=
  ((gs.find? (·.executorId.toNat = rank)).bind (·.rows[token]?)).elim [] (·.codes)

theorem ReturnFrame.mem_addressedFrom {f : ReturnFrame} {r : ℕ} {rows : List ReturnRow}
    {x : (ℕ × ℕ) × List UInt16} : x ∈ f.addressedFrom r rows ↔ ∃ i row, rows[i]? = some row ∧
      x = ((f.executorId.toNat, f.tokenPosition.toNat + (r + i)), row.codes) := by
  induction rows generalizing r with
  | nil => simp [ReturnFrame.addressedFrom]
  | cons row rows ih =>
    rw [ReturnFrame.addressedFrom, List.mem_cons, ih]
    constructor
    · rintro (rfl | ⟨i, row', hrow, rfl⟩)
      · exact ⟨0, row, rfl, rfl⟩
      · exact ⟨i + 1, row', hrow, by rw [Nat.add_right_comm, Nat.add_assoc]⟩
    · rintro ⟨i, row', hrow, rfl⟩
      cases i with
      | zero => exact .inl (by obtain rfl := Option.some.inj hrow; rfl)
      | succ i => exact .inr ⟨i, row', hrow, by rw [Nat.add_right_comm, Nat.add_assoc]⟩

@[simp] theorem ReturnFrame.length_partialsFrom (f : ReturnFrame) (r : ℕ) (rows : List ReturnRow) :
    (f.partialsFrom r rows).length = rows.length := by
  induction rows generalizing r with
  | nil => rfl
  | cons row rows ih => rw [ReturnFrame.partialsFrom, List.length_cons, ih, List.length_cons]

namespace IsPartial

variable {hidden : ℕ} {t : Ticket} {f : ReturnFrame} (hf : IsPartial hidden t f)
include hf

/-- The slots of a partial. -/
theorem mem_addressed {x : (ℕ × ℕ) × List UInt16} (hx : x ∈ f.addressed) :
    x.1.1 = f.executorId.toNat ∧ ∃ row, f.rows[x.1.2]? = some row ∧ x.2 = row.codes := by
  obtain ⟨i, row, hrow, rfl⟩ := ReturnFrame.mem_addressedFrom.mp hx
  rw [hf.tokenPosition]
  refine ⟨rfl, row, ?_, rfl⟩
  simpa using hrow

theorem fits {x : (ℕ × ℕ) × List UInt16} (hx : x ∈ f.addressed) :
    x.1 ∈ Grid.slots sparks t.rows ∧ x.2.length = hidden := by
  obtain ⟨hrank, row, hrow, hcodes⟩ := hf.mem_addressed hx
  have htoken : x.1.2 < t.rows := by
    rw [← hf.rows]
    exact (List.getElem?_eq_some_iff.mp hrow).1
  refine ⟨Grid.mem_slots.mpr ⟨by rw [hrank]; exact hf.rank, htoken⟩, ?_⟩
  rw [hcodes]
  exact hf.codes row (List.mem_of_getElem? hrow)

theorem slotCodes_eq (hrows : t.rows ≤ usizeMax) : slotCodes f.partials = f.addressed :=
  ReturnFrame.slotCodes_partialsFrom fun _ hx =>
    le_trans (Grid.mem_slots.mp (hf.fits hx).1).2.le hrows

end IsPartial

theorem ReturnFrame.map_fst_addressedFrom (f : ReturnFrame) (r : ℕ) (rows : List ReturnRow) :
    (f.addressedFrom r rows).map Prod.fst =
      (List.range rows.length).map fun i =>
          (f.executorId.toNat, f.tokenPosition.toNat + (r + i)) := by
  induction rows generalizing r with
  | nil => rfl
  | cons row rows ih =>
    rw [ReturnFrame.addressedFrom, List.map_cons, ih, List.length_cons, List.range_succ_eq_map,
      List.map_cons,
      List.map_map]
    refine congrArg₂ List.cons rfl (List.map_congr_left fun i _ => ?_)
    rw [Function.comp_apply, Nat.succ_eq_add_one, Nat.add_assoc r 1 i, Nat.add_comm 1 i]

section ofTicket

variable {hidden : ℕ} {t : Ticket} {gs : List ReturnFrame} (hrows : t.rows ≤ usizeMax)
  (hgs : ∀ f ∈ gs, IsPartial hidden t f) (honce : (gs.map (·.executorId)).Nodup)
include hrows hgs

theorem slotCodes_partials :
    slotCodes (gs.flatMap ReturnFrame.partials) = gs.flatMap ReturnFrame.addressed := by
  rw [slotCodes, List.map_flatMap]
  exact List.flatMap_congr fun f hf => (hgs f hf).slotCodes_eq hrows

include honce

/-- The slots of partials of distinct ranks are distinct. -/
theorem nodup_slots_partials : ((gs.flatMap ReturnFrame.partials).map (·.key.slot)).Nodup := by
  rw [← map_fst_slotCodes, slotCodes_partials hrows hgs, List.map_flatMap, List.nodup_flatMap]
  constructor
  · intro f hf
    rw [ReturnFrame.addressed, ReturnFrame.map_fst_addressedFrom]
    refine List.Nodup.map (fun i j hij => ?_) List.nodup_range
    simpa using hij
  · refine (List.pairwise_map.mp honce).imp_of_mem fun {f g} hf hg hne => ?_
    rintro x hx hx'
    obtain ⟨y, hy, rfl⟩ := List.mem_map.mp hx
    obtain ⟨z, hz, hyz⟩ := List.mem_map.mp hx'
    have hrank := ((hgs f hf).mem_addressed hy).1
    rw [← hyz, ((hgs g hg).mem_addressed hz).1] at hrank
    exact hne (UInt64.toNat_inj.mp hrank.symm)

theorem nodup_keys_partials : ((gs.flatMap ReturnFrame.partials).map (·.key)).Nodup := by
  refine List.Nodup.of_map SlotKey.slot ?_
  rw [List.map_map]
  exact nodup_slots_partials hrows hgs honce

/-- Partials of distinct ranks land all their rows. -/
theorem extends_partials {F : Type} [Fp32 F] :
    (CoordinatorSum.new t.rows hidden .none : CoordinatorSum F).Extends
      ((CoordinatorSum.new t.rows hidden .none).feed gs) [] (gs.flatMap ReturnFrame.partials) :=
  (CoordinatorSum.holds_new t.rows hidden).feed_all hrows (fun f hf => (hgs f hf).status)
    (fun f hf _ hx => (hgs f hf).fits hx) (nodup_keys_partials hrows hgs honce)

end ofTicket

theorem length_partials {hidden : ℕ} {t : Ticket} {gs : List ReturnFrame}
    (hgs : ∀ f ∈ gs, IsPartial hidden t f) :
    (gs.flatMap ReturnFrame.partials).length = gs.length * t.rows := by
  induction gs with
  | nil => simp
  | cons f gs ih =>
    rw [List.flatMap_cons, List.length_append, ih fun g hg => hgs g (List.mem_cons_of_mem f hg),
      ReturnFrame.partials, ReturnFrame.length_partialsFrom, (hgs f List.mem_cons_self).rows,
        List.length_cons,
      Nat.succ_mul, Nat.add_comm]

/-- One more partial is taken without an error. -/
theorem accumulate_partial {F : Type} [Fp32 F] {hidden : ℕ} {t : Ticket} {gs : List ReturnFrame}
    {f : ReturnFrame}
    (hrows : t.rows ≤ usizeMax) (hgs : ∀ g ∈ gs ++ [f], IsPartial hidden t g)
    (honce : ((gs ++ [f]).map (·.executorId)).Nodup) :
    (((CoordinatorSum.new t.rows hidden .none : CoordinatorSum F).feed gs).accumulate f).2 =
        .ok () := by
  have hf : IsPartial hidden t f := hgs f (by simp)
  have hgs' : ∀ g ∈ gs, IsPartial hidden t g := fun g hg => hgs g (List.mem_append_left [f] hg)
  have honce' : (gs.map (·.executorId)).Nodup := by
    rw [List.map_append] at honce
    exact (List.nodup_append.mp honce).1
  have hext := extends_partials (F := F) hrows hgs' honce'
  have hfree := nodup_keys_partials hrows hgs honce
  rw [List.flatMap_append, List.flatMap_singleton] at hfree
  rw [CoordinatorSum.accumulate, if_neg (by simp [hf.status]), if_neg (Nat.not_le.mpr hf.rank)]
  refine (hext.holds.accumulateRows_ok (by rw [hext.rows]; exact hrows) (fun x hx => ?_) hfree).1
  rw [hext.rows, hext.hidden]
  exact hf.fits hx

/-! ### Complete tickets -/

section complete

variable {F : Type} [Fp32 F] {hidden : ℕ} {t : Ticket} {gs : List ReturnFrame}
  (hrows : t.rows ≤ usizeMax)
  (hgs : ∀ f ∈ gs, IsPartial hidden t f) (honce : (gs.map (·.executorId)).Nodup)
include hrows hgs honce

theorem isComplete_partials :
    ((CoordinatorSum.new t.rows hidden .none : CoordinatorSum F).feed gs).isComplete =
    decide (gs.length * t.rows = t.rows * sparks) := by
  have hext := extends_partials (F := F) hrows hgs honce
  rw [CoordinatorSum.isComplete, hext.holds.distinct, hext.rows, List.nil_append,
    length_partials hgs]
  rfl

/-- The result is the rank-ordered sum. -/
theorem result_partials (hall : gs.length = sparks) :
    ((CoordinatorSum.new t.rows hidden .none : CoordinatorSum F).feed gs).result =
      .ok (CoordinatorSum.rankOrderSum t.rows hidden (partialCodes gs)) := by
  have hext := extends_partials (F := F) hrows hgs honce
  have hperm : ((gs.flatMap ReturnFrame.partials).map (·.key.slot)).Perm
      (Grid.slots sparks t.rows) := by
    refine Grid.perm_slots_of_nodup (nodup_slots_partials hrows hgs honce) ?_ ?_
    · intro slot hslot
      obtain ⟨p, hp, rfl⟩ := List.mem_map.mp hslot
      have hmem := hext.holds.slot_mem p hp
      rwa [hext.rows] at hmem
    · rw [List.length_map, length_partials hgs, hall, Nat.mul_comm]
  have hcodes : ∀ p ∈ gs.flatMap ReturnFrame.partials, p.codes =
      partialCodes gs p.key.slot.1 p.key.slot.2 := by
    intro p hp
    have hp' := List.mem_map_of_mem (f := fun p : Partial => (p.key.slot, p.codes)) hp
    rw [← slotCodes, slotCodes_partials hrows hgs] at hp'
    obtain ⟨f, hf, hmem⟩ := List.mem_flatMap.mp hp'
    obtain ⟨hrank, row, hrow, hcodes⟩ := (hgs f hf).mem_addressed hmem
    have hfind : gs.find? (fun g => decide (g.executorId.toNat = p.key.slot.1)) = some f := by
      cases hg : gs.find? (fun g => decide (g.executorId.toNat = p.key.slot.1)) with
      | none => exact absurd (List.find?_eq_none.mp hg f hf) (by simpa using hrank.symm)
      | some g =>
        have hsame : g.executorId.toNat = p.key.slot.1 := by simpa using List.find?_some hg
        have hsame := hsame.trans hrank
        rw [List.inj_on_of_nodup_map honce (List.mem_of_find?_eq_some hg) hf
          (UInt64.toNat_inj.mp hsame)]
    rw [partialCodes, hfind, Option.bind_some, hrow]
    exact hcodes
  have hres := hext.holds.result_of_perm (by rwa [hext.rows, List.nil_append]) (partialCodes gs)
    (by rwa [List.nil_append])
  rwa [hext.rows, hext.hidden] at hres

omit hrows in
/-- All ranks have answered when there are as many partials as ranks. -/
theorem length_eq_sparks_iff : gs.length = sparks ↔ ∀ rank < sparks, ∃ f ∈ gs, f.executorId.toNat =
    rank := by
  have hnodup : (gs.map (·.executorId.toNat)).Nodup :=
    List.pairwise_map.mpr ((List.pairwise_map.mp honce).imp fun hne heq =>
      hne (UInt64.toNat_inj.mp heq))
  have hsub : gs.map (·.executorId.toNat) ⊆ List.range sparks := by
    intro rank hrank
    obtain ⟨f, hf, rfl⟩ := List.mem_map.mp hrank
    exact List.mem_range.mpr (hgs f hf).rank
  have hsubperm := hnodup.subperm hsub
  constructor
  · intro hlen rank hrank
    have hperm := hsubperm.perm_of_length_le (by simp [hlen])
    exact List.mem_map.mp (hperm.mem_iff.mpr (List.mem_range.mpr hrank))
  · intro hall
    have hback : List.range sparks ⊆ gs.map (·.executorId.toNat) := fun rank hrank =>
      List.mem_map.mpr (hall rank (List.mem_range.mp hrank))
    have hle := hsubperm.length_le
    have hge := (List.nodup_range.subperm hback).length_le
    simp only [List.length_map, List.length_range] at hle hge
    exact Nat.le_antisymm hle hge

end complete

namespace ExpertClient

variable {F : Type} [Fp32 F]

/-- The runs of a client, with the tickets issued and the frames that have arrived. -/
inductive Run (hidden : ℕ) : ExpertClient F → List Ticket → List ReturnFrame → Prop where
  | new : Run hidden (ExpertClient.new hidden .none) [] []
  /-- A slice has a `usize` length, and the ids are not used up. -/
  | submit {c c' : ExpertClient F} {ts : List Ticket} {fs : List ReturnFrame} {t : Ticket}
      {send : RequestFrame → Except WireError Unit} {layerId : UInt32} {rows : List RowDescriptor}
      {routes : List RouteEntry} {hiddenRows : List HiddenRow} (hrun : Run hidden c ts fs)
      (hlen : rows.length ≤ usizeMax) (hid : c.nextId.toNat < usizeMax)
      (hsubmit : c.submit send layerId rows routes hiddenRows = (c', .ok t)) :
        Run hidden c' (ts ++ [t]) fs
  | refused {c c' : ExpertClient F} {ts : List Ticket} {fs : List ReturnFrame} {e : WireError}
      {send : RequestFrame → Except WireError Unit} {layerId : UInt32} {rows : List RowDescriptor}
      {routes : List RouteEntry} {hiddenRows : List HiddenRow} (hrun : Run hidden c ts fs)
      (hid : c.nextId.toNat < usizeMax)
      (hsubmit : c.submit send layerId rows routes hiddenRows = (c', .error e)) :
        Run hidden c' ts fs
  /-- A partial arrives once. -/
  | arrive {c : ExpertClient F} {ts : List Ticket} {fs : List ReturnFrame} {t : Ticket}
    {f : ReturnFrame}
      (hrun : Run hidden c ts fs) (ht : t ∈ ts) (hf : IsPartial hidden t f)
      (honce : ∀ g ∈ fs, ¬(g.requestId = f.requestId ∧ g.executorId = f.executorId)) :
      Run hidden (c.arrive f) ts (fs ++ [f])
  | collect {c : ExpertClient F} {ts : List Ticket} {fs : List ReturnFrame} (t : Ticket)
      (hrun : Run hidden c ts fs) : Run hidden (c.collect t).1 ts fs

/-! ### Runs -/

/-- The pending entry of a ticket whose partials among `done` have been taken in. -/
def pendingOf (hidden : ℕ) (done : List ReturnFrame) (t : Ticket) : Pending F :=
  ⟨t, t.id, (CoordinatorSum.new t.rows hidden .none).feed (own done t)⟩

/-- Between two operations of a run: each ticket has been fed its own partials among those received.
-/
structure Inv (hidden : ℕ) (c : ExpertClient F) (ts : List Ticket) (fs : List ReturnFrame) :
    Prop where
  hidden_eq : c.hidden = hidden
  naive_eq : c.naive = .none
  received : ∃ done, fs = done ++ c.inbox ∧ c.pending = ts.map (pendingOf hidden done)
  ids : (ts.map (·.id)).Nodup
  fresh : ∀ t ∈ ts, t.id.toNat < c.nextId.toNat
  rows_le : ∀ t ∈ ts, t.rows ≤ usizeMax
  partials : ∀ f ∈ fs, ∃ t ∈ ts, IsPartial hidden t f
  once : fs.Pairwise fun f g => ¬(f.requestId = g.requestId ∧ f.executorId = g.executorId)

theorem own_append (fs gs : List ReturnFrame) (t : Ticket) :
    own (fs ++ gs) t = own fs t ++ own gs t :=
  List.filter_append ..

/-- The partials of a ticket are its own. -/
theorem isPartial_of_mem_own {hidden : ℕ} {ts : List Ticket} {fs : List ReturnFrame} {t : Ticket}
    (hids : (ts.map (·.id)).Nodup) (hpartials : ∀ f ∈ fs, ∃ t ∈ ts, IsPartial hidden t f)
    (ht : t ∈ ts) :
    ∀ f ∈ own fs t, IsPartial hidden t f := by
  intro f hf
  obtain ⟨hmem, hid⟩ := List.mem_filter.mp hf
  obtain ⟨t', ht', hf'⟩ := hpartials f hmem
  have hsame : t'.id = t.id := hf'.requestId.symm.trans (of_decide_eq_true hid)
  rwa [← List.inj_on_of_nodup_map hids ht' ht hsame]

theorem nodup_own {fs : List ReturnFrame} (t : Ticket)
    (honce : fs.Pairwise fun f g => ¬(f.requestId = g.requestId ∧ f.executorId = g.executorId)) :
    ((own fs t).map (·.executorId)).Nodup := by
  refine List.pairwise_map.mpr ((honce.filter _).imp_of_mem fun {f g} hf hg hne heq =>
    hne ⟨?_, heq⟩)
  exact (of_decide_eq_true (List.mem_filter.mp hf).2).trans
    (of_decide_eq_true (List.mem_filter.mp hg).2).symm

/-- A partial goes to its ticket and to no other. -/
theorem route_pendingOf {hidden : ℕ} {ts : List Ticket} {done : List ReturnFrame} {f : ReturnFrame}
    {t : Ticket}
    (hids : (ts.map (·.id)).Nodup) (ht : t ∈ ts) (hf : IsPartial hidden t f)
    (hok : (((CoordinatorSum.new t.rows hidden .none : CoordinatorSum F).feed
      (own done t)).accumulate f).2 =
      .ok ()) :
    route f (ts.map (pendingOf (F := F) hidden done)) =
      some (ts.map (pendingOf hidden (done ++ [f])), .ok ()) := by
  have hother {t' : Ticket} (hne : t'.id ≠ f.requestId) :
      pendingOf (F := F) hidden (done ++ [f]) t' = pendingOf hidden done t' := by
    have hown : own [f] t' = [] := by simp [own, hne.symm]
    rw [pendingOf, pendingOf, own_append, hown, List.append_nil]
  induction ts with
  | nil => exact absurd ht List.not_mem_nil
  | cons t' ts ih =>
    rw [List.map_cons, List.nodup_cons] at hids
    rw [List.map_cons, route]
    by_cases hid : t'.id = f.requestId
    · obtain rfl : t = t' := by
        rcases List.mem_cons.mp ht with rfl | hmem
        · rfl
        · exact absurd (List.mem_map.mpr ⟨t, hmem, hf.requestId.symm.trans hid.symm⟩) hids.1
      have hanswers : (pendingOf (F := F) hidden done t).answers f = true := by
        simp [Pending.answers, pendingOf, hf.requestId, hf.layerId]
      have hown : own [f] t = [f] := by simp [own, hf.requestId]
      have hrest : ts.map (pendingOf (F := F) hidden (done ++ [f])) =
          ts.map (pendingOf hidden done) := by
        refine List.map_congr_left fun t' ht' => hother fun heq => hids.1 ?_
        exact List.mem_map.mpr ⟨t', ht', heq.trans hf.requestId⟩
      rw [if_pos hanswers, List.map_cons, hrest]
      refine congrArg some (Prod.ext (congrArg (· :: _) ?_) hok)
      rw [pendingOf, pendingOf, own_append, hown, CoordinatorSum.feed_append]
      rfl
    · have hanswers : (pendingOf (F := F) hidden done t').answers f = false := by
        simp [Pending.answers, pendingOf, hid]
      have hmem : t ∈ ts := by
        rcases List.mem_cons.mp ht with rfl | hmem
        · exact absurd hf.requestId.symm hid
        · exact hmem
      rw [if_neg (by rw [hanswers]; decide), ih hids.2 hmem, List.map_cons, hother hid]
      rfl

/-- Draining a queue of partials takes each of them in. -/
theorem drain_pendingOf {hidden : ℕ} {ts : List Ticket} {done inbox : List ReturnFrame}
    (hids : (ts.map (·.id)).Nodup) (hrows : ∀ t ∈ ts, t.rows ≤ usizeMax)
    (hpartials : ∀ f ∈ done ++ inbox, ∃ t ∈ ts, IsPartial hidden t f)
    (honce : (done ++ inbox).Pairwise fun f g =>
      ¬(f.requestId = g.requestId ∧ f.executorId = g.executorId)) :
    drain inbox (ts.map (pendingOf (F := F) hidden done)) =
      (([], ts.map (pendingOf hidden (done ++ inbox))), .ok ()) := by
  induction inbox generalizing done with
  | nil => rw [List.append_nil, drain]
  | cons f inbox ih =>
    rw [List.append_cons] at hpartials honce ⊢
    obtain ⟨t, ht, hf⟩ := hpartials f (by simp)
    have hown : own (done ++ [f]) t = own done t ++ [f] := by
      rw [own_append]
      simp [own, hf.requestId]
    have hpartials' : ∀ g ∈ done ++ [f], ∃ t ∈ ts, IsPartial hidden t g :=
      fun g hg => hpartials g (List.mem_append_left inbox hg)
    have honce' := (List.pairwise_append.mp honce).1
    have hok :
        (((CoordinatorSum.new t.rows hidden .none : CoordinatorSum F).feed (own done t)).accumulate
          f).2 =
        .ok () := accumulate_partial (hrows t ht)
      (by rw [← hown]; exact isPartial_of_mem_own hids hpartials' ht)
      (by rw [← hown]; exact nodup_own t honce')
    rw [drain, route_pendingOf hids ht hf hok]
    exact ih hpartials honce

theorem submit_ok {c c' : ExpertClient F} {send : RequestFrame → Except WireError Unit}
    {layerId : UInt32}
    {rows : List RowDescriptor} {routes : List RouteEntry} {hiddenRows : List HiddenRow}
    {t : Ticket}
    (h : c.submit send layerId rows routes hiddenRows = (c', .ok t)) :
    t = ⟨c.nextId, layerId, rows.length, sparks⟩ ∧
      c' = { c with
        nextId := c.nextId + 1
        pending := c.pending ++ [⟨t, t.id, CoordinatorSum.new t.rows c.hidden c.naive⟩] } := by
  rw [submit] at h
  split at h
  · exact nomatch (Prod.mk.inj h).2
  · obtain ⟨hc, ht⟩ := Prod.mk.inj h
    obtain rfl := Except.ok.inj ht
    exact ⟨rfl, hc.symm⟩

theorem submit_error {c c' : ExpertClient F} {send : RequestFrame → Except WireError Unit}
    {layerId : UInt32}
    {rows : List RowDescriptor} {routes : List RouteEntry} {hiddenRows : List HiddenRow}
    {e : WireError}
    (h : c.submit send layerId rows routes hiddenRows = (c', .error e)) :
    c' = { c with nextId := c.nextId + 1 } := by
  rw [submit] at h
  split at h
  · exact (Prod.mk.inj h).1.symm
  · exact nomatch (Prod.mk.inj h).2

theorem toNat_nextId {id : UInt64} (hid : id.toNat < usizeMax) : (id + 1).toNat = id.toNat + 1 := by
  rw [UInt64.toNat_add]
  exact Nat.mod_eq_of_lt (by rw [usizeMax] at hid; show _ < 2 ^ 64; simp; omega)

section steps

variable {hidden : ℕ} {c : ExpertClient F} {ts : List Ticket} {fs : List ReturnFrame}
  (h : Inv hidden c ts fs)
include h

/-- A new id is larger than every ticket's. -/
theorem Inv.submit {layerId : UInt32} {n : ℕ} (hlen : n ≤ usizeMax)
    (hid : c.nextId.toNat < usizeMax) :
    let t : Ticket := ⟨c.nextId, layerId, n, sparks⟩
    Inv hidden { c with
      nextId := c.nextId + 1
      pending := c.pending ++ [⟨t, t.id, CoordinatorSum.new t.rows c.hidden c.naive⟩] }
          (ts ++ [t]) fs := by
  intro t
  have hnew : ∀ t' ∈ ts, t'.id ≠ c.nextId := fun t' ht' heq =>
    absurd (h.fresh t' ht') (by rw [heq]; exact Nat.lt_irrefl _)
  obtain ⟨done, hdone, hpending⟩ := h.received
  refine ⟨h.hidden_eq, h.naive_eq, ⟨done, hdone, ?_⟩, ?_, ?_, ?_, ?_, h.once⟩
  · have hown : own done t = [] := by
      refine List.filter_eq_nil_iff.mpr fun f hf => ?_
      obtain ⟨t', ht', hf'⟩ := h.partials f (by rw [hdone]; exact List.mem_append_left _ hf)
      simpa [hf'.requestId] using hnew t' ht'
    rw [List.map_append, hpending, List.map_singleton, pendingOf, hown, h.hidden_eq, h.naive_eq]
    rfl
  · rw [List.map_append, List.map_singleton]
    refine List.nodup_append.mpr ⟨h.ids, List.nodup_singleton _, ?_⟩
    intro id hmem id' hmem' heq
    obtain ⟨t', ht', rfl⟩ := List.mem_map.mp hmem
    rw [List.mem_singleton] at hmem'
    exact hnew t' ht' (heq.trans hmem')
  · intro t' ht'
    rw [toNat_nextId hid]
    rcases List.mem_append.mp ht' with hmem | hmem
    · exact Nat.lt_succ_of_lt (h.fresh t' hmem)
    · rw [List.mem_singleton.mp hmem]
      exact Nat.lt_succ_self _
  · intro t' ht'
    rcases List.mem_append.mp ht' with hmem | hmem
    · exact h.rows_le t' hmem
    · rw [List.mem_singleton.mp hmem]
      exact hlen
  · intro f hf
    obtain ⟨t', ht', hf'⟩ := h.partials f hf
    exact ⟨t', List.mem_append_left _ ht', hf'⟩

theorem Inv.refused (hid : c.nextId.toNat < usizeMax) :
    Inv hidden { c with nextId := c.nextId + 1 } ts fs where
  hidden_eq := h.hidden_eq
  naive_eq := h.naive_eq
  received := h.received
  ids := h.ids
  fresh := by
    intro t ht
    rw [toNat_nextId hid]
    exact Nat.lt_succ_of_lt (h.fresh t ht)
  rows_le := h.rows_le
  partials := h.partials
  once := h.once

theorem Inv.arrive {t : Ticket} {f : ReturnFrame} (ht : t ∈ ts) (hf : IsPartial hidden t f)
    (honce : ∀ g ∈ fs, ¬(g.requestId = f.requestId ∧ g.executorId = f.executorId)) :
    Inv hidden (c.arrive f) ts (fs ++ [f]) where
  hidden_eq := h.hidden_eq
  naive_eq := h.naive_eq
  received := by
    obtain ⟨done, hdone, hpending⟩ := h.received
    exact ⟨done, by rw [hdone, List.append_assoc]; rfl, hpending⟩
  ids := h.ids
  fresh := h.fresh
  rows_le := h.rows_le
  partials := by
    intro g hg
    rcases List.mem_append.mp hg with hmem | hmem
    · exact h.partials g hmem
    · rw [List.mem_singleton.mp hmem]
      exact ⟨t, ht, hf⟩
  once := by
    refine List.pairwise_append.mpr ⟨h.once, List.pairwise_singleton _ _, fun g hg f' hf' => ?_⟩
    rw [List.mem_singleton.mp hf']
    exact honce g hg

/-- What `collect` takes in, and its answer. -/
theorem Inv.collect_eq (t : Ticket) :
    c.collect t = ({ c with inbox := [], pending := ts.map (pendingOf hidden fs) },
      match (ts.map (pendingOf (F := F) hidden fs)).find? (·.ticket = t) with
      | none => .error (.unknownRequest t.id)
      | some p => if p.sum.isComplete then p.sum.result.map some else .ok none) := by
  obtain ⟨done, hdone, hpending⟩ := h.received
  have honce := h.once
  have hpartials := h.partials
  rw [hdone] at honce hpartials
  rw [ExpertClient.collect, hpending, drain_pendingOf h.ids h.rows_le hpartials honce, ← hdone]

theorem Inv.collect (t : Ticket) : Inv hidden (c.collect t).1 ts fs := by
  rw [h.collect_eq t]
  exact ⟨h.hidden_eq, h.naive_eq, ⟨fs, (List.append_nil fs).symm, rfl⟩, h.ids, h.fresh, h.rows_le,
    h.partials, h.once⟩

/-- The answer for a ticket of the run. -/
theorem Inv.collect_snd {t : Ticket} (ht : t ∈ ts) (hpos : 0 < t.rows) :
    (AllArrived fs t →
      (c.collect t).2 =
        .ok (some (CoordinatorSum.rankOrderSum t.rows hidden (partialCodes (own fs t))))) ∧
    (¬AllArrived fs t → (c.collect t).2 = .ok none) := by
  have hgs := isPartial_of_mem_own h.ids h.partials ht
  have honce := nodup_own t h.once
  have hfind : (ts.map (pendingOf (F := F) hidden fs)).find? (·.ticket = t) =
      some (pendingOf hidden fs t) := by
    rw [List.find?_map]
    have hself : ts.find? ((fun p : Pending F => decide (p.ticket = t)) ∘ pendingOf hidden fs) =
        some t := by
      cases hf : ts.find? ((fun p : Pending F => decide (p.ticket = t)) ∘ pendingOf hidden fs) with
      | none => exact absurd (List.find?_eq_none.mp hf t ht) (by simp [pendingOf])
      | some t' =>
        have hsame := List.find?_some hf
        simp only [Function.comp_apply, pendingOf] at hsame
        rw [of_decide_eq_true hsame]
    rw [hself, Option.map_some]
  have hcomplete : (pendingOf (F := F) hidden fs t).sum.isComplete =
      decide ((own fs t).length * t.rows = t.rows * sparks) :=
    isComplete_partials (h.rows_le t ht) hgs honce
  rw [h.collect_eq t, hfind]
  constructor
  · intro hall
    have hlen := (length_eq_sparks_iff hgs honce).mpr hall
    simp only [hcomplete]
    rw [if_pos (by rw [hlen]; exact decide_eq_true (Nat.mul_comm _ _)), pendingOf,
      result_partials (h.rows_le t ht) hgs honce hlen]
    rfl
  · intro hnot
    have hlen : (own fs t).length ≠ sparks :=
        fun heq => hnot ((length_eq_sparks_iff hgs honce).mp heq)
    simp only [hcomplete]
    rw [if_neg]
    rw [decide_eq_true_eq, Nat.mul_comm t.rows]
    exact fun heq => hlen (Nat.eq_of_mul_eq_mul_right hpos heq)

end steps

/-- **Run.** -/
theorem Run.inv {hidden : ℕ} {c : ExpertClient F} {ts : List Ticket} {fs : List ReturnFrame}
    (h : Run hidden c ts fs) : Inv hidden c ts fs := by
  induction h with
  | new => exact ⟨rfl, rfl, ⟨[], rfl, rfl⟩, List.nodup_nil, nofun, nofun, nofun, .nil⟩
  | submit _ hlen hid hsubmit ih =>
    obtain ⟨rfl, rfl⟩ := submit_ok hsubmit
    exact ih.submit hlen hid
  | refused _ hid hsubmit ih =>
    obtain rfl := submit_error hsubmit
    exact ih.refused hid
  | arrive _ ht hf honce ih => exact ih.arrive ht hf honce
  | collect t _ ih => exact ih.collect t

/-- **Collect.** In every run, `collect` gives a ticket of at least one row its result exactly when
all ranks have answered it, and the result is the rank-ordered sum of its own partials. -/
theorem collect_run {hidden : ℕ} {c : ExpertClient F} {ts : List Ticket} {fs : List ReturnFrame}
    (h : Run hidden c ts fs) {t : Ticket} (ht : t ∈ ts) (hpos : 0 < t.rows) :
    (AllArrived fs t →
      (c.collect t).2 =
        .ok (some (CoordinatorSum.rankOrderSum t.rows hidden (partialCodes (own fs t))))) ∧
    (¬AllArrived fs t → (c.collect t).2 = .ok none) :=
  h.inv.collect_snd ht hpos

/-- A partial of one row of one element. -/
def onePartial (id : UInt64) (layerId : UInt32) (rank : UInt64) (code : UInt16) : ReturnFrame where
  requestId := id
  placementVersion := 1
  layerId := layerId
  executorId := rank
  tokenPosition := 0
  status := .ok
  flags := flagReturnRequired
  routeCount := 8
  seq := 0
  rows := [⟨[code]⟩]

theorem isPartial_onePartial (id : UInt64) (layerId : UInt32) (rank : UInt64) (code : UInt16)
    (hrank : rank.toNat < sparks) :
      IsPartial 1 ⟨id, layerId, 1, sparks⟩ (onePartial id layerId rank code) where
  requestId := rfl
  layerId := rfl
  rank := hrank
  tokenPosition := rfl
  status := rfl
  rows := rfl
  codes := List.forall_mem_singleton.mpr rfl

/-- Two tickets of one row each, whose partials arrive out of order, the second one's not all. -/
theorem collect_run_twoTickets :
    let t : Ticket := ⟨1, 3, 1, sparks⟩
    let t' : Ticket := ⟨2, 4, 1, sparks⟩
    let fs := [onePartial 1 3 3 0x3F80, onePartial 2 4 0 0x4000, onePartial 1 3 1 0x3F80,
      onePartial 1 3 0 0x4B80, onePartial 1 3 2 0xCB80]
    ∃ c : ExpertClient FloatTerm, Run 1 c [t, t'] fs ∧
      (c.collect t).2 = .ok (some (CoordinatorSum.rankOrderSum 1 1 (partialCodes (own fs t)))) ∧
      (c.collect t').2 = .ok none := by
  intro t t' fs
  have start : Run 1 (ExpertClient.new 1 .none : ExpertClient FloatTerm) [] [] := .new
  have first :=
      @Run.submit FloatTerm _ 1 _ _ _ _ t (fun _ => .ok ()) 3 [⟨0, .decode, 1, 0, 0, 0⟩] [] [] start
    (by decide) (by decide) rfl
  have second :=
      @Run.submit FloatTerm _ 1 _ _ _ _ t' (fun _ => .ok ()) 4 [⟨0, .decode, 1, 0, 0, 0⟩] [] []
        first
    (by decide) (by decide) rfl
  have third :=
      Run.arrive (t := t) second (by simp) (isPartial_onePartial 1 3 3 0x3F80 (by decide)) nofun
  have fourth :=
      Run.arrive (t := t') third (by simp) (isPartial_onePartial 2 4 0 0x4000 (by decide))
    (by decide)
  have fifth := Run.arrive (t := t) fourth (by simp) (isPartial_onePartial 1 3 1 0x3F80 (by decide))
    (by decide)
  have sixth := Run.arrive (t := t) fifth (by simp) (isPartial_onePartial 1 3 0 0x4B80 (by decide))
    (by decide)
  have last := Run.arrive (t := t) sixth (by simp) (isPartial_onePartial 1 3 2 0xCB80 (by decide))
    (by decide)
  refine ⟨_, last, (collect_run last (by simp) Nat.one_pos).1 ?_,
    (collect_run last (by simp) Nat.one_pos).2 ?_⟩
  · unfold AllArrived
    decide
  · unfold AllArrived
    decide

/-- A ticket without rows is complete at once. -/
theorem not_collect_zeroRows : ∃ (c : ExpertClient FloatTerm) (t : Ticket), Run 4096 c [t] [] ∧
    ¬AllArrived [] t ∧ (c.collect t).2 = .ok (some []) := by
  have start : Run 4096 (ExpertClient.new 4096 .none : ExpertClient FloatTerm) [] [] := .new
  have first :=
      @Run.submit FloatTerm _ 4096 _ _ _ _ ⟨1, 3, 0, sparks⟩ (fun _ => .ok ()) 3 [] [] [] start
    (by decide) (by decide) rfl
  refine ⟨_, _, first, ?_, rfl⟩
  unfold AllArrived
  decide

end ExpertClient

end Wire

end Mimo26

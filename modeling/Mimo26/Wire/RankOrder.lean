import Mimo26.Wire.SumInvariant

/-!
# Rank order

The result of a sum does not depend on how its partials arrive. A delivery is any list of return
frames that together carry one partial for each rank and token, in any interleaving of the ranks and
cut into frames in any way. Every delivery of the same partials gives the same result: their sum
over the ranks `0, 1, 2, 3` in that order, for any addition whatever.

## Main definitions

* `Delivers` — the deliveries of a family of partials

## Main results

* `result_feed_of_delivers` — a delivery gives the rank-ordered sum
* `result_eq_of_delivers` — any two deliveries give the rank-ordered sum
-/

namespace Mimo26

namespace Wire

/-- The frames `fs` carry exactly one partial for each rank and token, `partialOf rank token`, in
any order and grouped in any way. -/
structure Delivers (rows hidden : ℕ) (partialOf : ℕ → ℕ → List UInt16) (fs : List ReturnFrame) :
    Prop where
  /-- `rows` is a `usize`. -/
  rows_le : rows ≤ usizeMax
  codes_len : ∀ rank < sparks, ∀ token < rows, (partialOf rank token).length = hidden
  status_ok : ∀ f ∈ fs, f.status = .ok
  contents : (fs.flatMap ReturnFrame.addressed).Perm
    ((Grid.slots sparks rows).map fun x => (x, partialOf x.1 x.2))

namespace CoordinatorSum

variable {F : Type} [Fp32 F]

/-- Any delivery gives the rank-ordered sum. -/
theorem result_feed_of_delivers {rows hidden : ℕ} {partialOf : ℕ → ℕ → List UInt16}
    {fs : List ReturnFrame} (hd : Delivers rows hidden partialOf fs) :
    ((new rows hidden .none : CoordinatorSum F).feed fs).result
      = .ok (rankOrderSum rows hidden partialOf) := by
  have hslots : ((fs.flatMap ReturnFrame.addressed).map Prod.fst).Perm
      (Grid.slots sparks rows) := by
    have hmap := hd.contents.map Prod.fst
    rwa [List.map_map, Function.comp_def, List.map_id'] at hmap
  have hall {x : (ℕ × ℕ) × List UInt16} (hx : x ∈ fs.flatMap ReturnFrame.addressed) :
      x.1 ∈ Grid.slots sparks rows ∧ x.2 = partialOf x.1.1 x.1.2 := by
    obtain ⟨y, hy, rfl⟩ := List.mem_map.mp (hd.contents.mem_iff.mp hx)
    exact ⟨hy, rfl⟩
  have hlog : slotCodes (fs.flatMap ReturnFrame.partials) = fs.flatMap ReturnFrame.addressed := by
    rw [slotCodes, List.map_flatMap]
    refine List.flatMap_congr fun f hf => ReturnFrame.slotCodes_partialsFrom fun x hx => ?_
    have htoken := (Grid.mem_slots.mp (hall (List.mem_flatMap.mpr ⟨f, hf, hx⟩)).1).2
    exact le_trans htoken.le hd.rows_le
  have hlogslots : ((fs.flatMap ReturnFrame.partials).map (·.key.slot)).Perm
      (Grid.slots sparks rows) := by
    rw [← map_fst_slotCodes, hlog]
    exact hslots
  have hext := @Holds.feed_all F _ _ _ (holds_new rows hidden) fs hd.rows_le hd.status_ok
    (fun f hf x hx => by
      obtain ⟨hmem, hcodes⟩ := hall (List.mem_flatMap.mpr ⟨f, hf, hx⟩)
      obtain ⟨hrank, htoken⟩ := Grid.mem_slots.mp hmem
      exact ⟨hmem, by rw [hcodes]; exact hd.codes_len _ hrank _ htoken⟩)
    (by
      refine List.Nodup.of_map SlotKey.slot ?_
      rw [List.nil_append, List.map_map]
      exact hlogslots.nodup_iff.mpr (Grid.nodup_slots _ _))
  have hres := hext.holds.result_of_perm
    (by
      rw [hext.rows]
      exact hlogslots)
    partialOf
    (fun p hp => by
      have hp' : (p.key.slot, p.codes) ∈ fs.flatMap ReturnFrame.addressed := by
        rw [← hlog]
        exact List.mem_map_of_mem (f := fun p : Partial => (p.key.slot, p.codes)) hp
      exact (hall hp').2)
  rw [hext.rows, hext.hidden] at hres
  exact hres

/-- **Rank order.** Two deliveries of the same partials, however interleaved and cut into frames,
give the same result, the sum of the partials over the ranks in order. -/
theorem result_eq_of_delivers {rows hidden : ℕ} {partialOf : ℕ → ℕ → List UInt16}
    {fs fs' : List ReturnFrame} (hd : Delivers rows hidden partialOf fs)
    (hd' : Delivers rows hidden partialOf fs') :
    ((new rows hidden .none : CoordinatorSum F).feed fs).result
        = ((new rows hidden .none : CoordinatorSum F).feed fs').result ∧
      ((new rows hidden .none : CoordinatorSum F).feed fs).result
        = .ok (rankOrderSum rows hidden partialOf) := by
  rw [result_feed_of_delivers hd, result_feed_of_delivers hd']
  exact ⟨rfl, rfl⟩

/-- One token whose partials are `2^24, 1, -2^24, 1`: the ranks arriving in order, and backwards. -/
theorem result_eq_of_delivers_reversed :
    let partialOf (rank _ : ℕ) : List UInt16 := [[0x4B80, 0x3F80, 0xCB80, 0x3F80].getD rank 0]
    let frame (rank : UInt64) (code : UInt16) : ReturnFrame :=
      { requestId := 7, placementVersion := 1, layerId := 3, executorId := rank,
        tokenPosition := 0, status := .ok, flags := flagReturnRequired, routeCount := 8, seq := 0,
        rows := [⟨[code]⟩] }
    let fs := [frame 0 0x4B80, frame 1 0x3F80, frame 2 0xCB80, frame 3 0x3F80]
    ((new 1 1 .none : CoordinatorSum FloatTerm).feed fs).result
        = ((new 1 1 .none : CoordinatorSum FloatTerm).feed fs.reverse).result ∧
      ((new 1 1 .none : CoordinatorSum FloatTerm).feed fs).result
        = .ok (rankOrderSum 1 1 partialOf) := by
  intro partialOf frame fs
  exact @result_eq_of_delivers FloatTerm _ 1 1 partialOf fs fs.reverse
    ⟨by decide, by decide, by decide, by decide⟩ ⟨by decide, by decide, by decide, by decide⟩

end CoordinatorSum

end Wire

end Mimo26

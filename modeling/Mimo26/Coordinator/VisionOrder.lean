import Mimo26.Image.Preprocess

/-!
# The orders of the vision tower

The tower takes the patches of an image row by row of merged units, or column by column
(`positions` of `vision.rs`); between the two it reorders whole units (`m26v_gather_units`). An
index is an `i32`.

## Main definitions

* `positions` — the coordinates of the patches in either order, and the units by column
* `gatherUnits` — units in the order of an index

## Main results

* `isSome_positions` — the units of a grid are indexed exactly when an `i32` counts them
* `vision_order` — both crates agree on the patch of each row, and the two orders are inverse
-/

namespace Mimo26

namespace Coordinator

open Grid Image

/-- A cast to an `i32`. -/
def i32 (n : ℤ) : ℤ := n.bmod (2 ^ 32)

/-- An `i32` as a subscript. -/
def asUsize (n : ℤ) : ℕ := (n % 2 ^ 64).toNat

/-- `buf[i] := v` for each item in turn; none is a subscript out of range. -/
def writeAll {F : Type} (items : List (ℕ × F)) (buf : List F) : Option (List F) :=
  items.foldlM (fun buf item =>
    if item.1 < buf.length then some (buf.set item.1 item.2) else none) buf

structure Positions where
  hwRow : List ℤ
  hwCol : List ℤ
  colIdx : List ℤ
  inv : List ℤ

/-- Line and column of each patch, unit by unit. -/
def hwRow (gh gw : ℕ) : List ℤ :=
  let uh := gh / 2
  let uw := gw / 2
  scatterSet 2 ((List.range (uh * uw) ×ˢ List.range 4).map fun i =>
    (i.1 * 4 + i.2, fun j =>
      i32 (if j = 0 then i.1 / uw * 2 + i.2 / 2 else i.1 % uw * 2 + i.2 % 2 : ℕ)))
    (List.replicate (2 * (gh * gw)) 0)

/-- The units, column by column. -/
def colIdx (uh uw : ℕ) : List ℤ :=
  scatterSet 1 ((slots uw uh).map fun i => (i.1 * uh + i.2, fun _ => i32 (i.2 * uw + i.1 : ℕ)))
    (List.replicate (uh * uw) 0)

/-- The writes that invert an order of units. -/
def inverseWrites (idx : List ℤ) : List (ℕ × ℤ) := idx.zipIdx.map fun e => (asUsize e.1, i32 e.2)

/-- The coordinates of whole units, in an order. -/
def hwCol (n : ℕ) (row idx : List ℤ) : List ℤ :=
  scatterSet 8 (idx.zipIdx.map fun e => (e.2, fun j => row.getD (2 * 4 * asUsize e.1 + j) 0))
    (List.replicate (2 * n) 0)

/-- Coordinates by row and by column, the units by column, and where each is in that order. None is
a panic: an array of more bytes than an allocation has, or a negative subscript. -/
def positions (gh gw : ℕ) : Option Positions :=
  if 2 ^ 63 ≤ 2 * (gh * gw) * 4 then none
  else do
    let idx := colIdx (gh / 2) (gw / 2)
    let inv ← writeAll (inverseWrites idx) (List.replicate (gh / 2 * (gw / 2)) 0)
    let row := hwRow gh gw
    return ⟨row, hwCol (gh * gw) row idx, idx, inv⟩

/-- Whole merged units, of four rows of `cols` values each, in the order of an index. -/
def gatherUnits {F : Type} (cols : ℕ) (idx : List ℤ) (x : List F) : Option (List F) :=
  let unit := 4 * cols
  (List.range (idx.length * unit)).mapM fun i => do
    let u ← idx[i / unit]?
    x[asUsize u * unit + (i - i / unit * unit)]?

/-! ### Loops -/

theorem writeAll_eq {F : Type} {items : List (ℕ × F)} {buf : List F}
    (h : ∀ item ∈ items, item.1 < buf.length) :
    writeAll items buf = some (scatterSet 1 (items.map fun item => (item.1, fun _ => item.2)) buf) := by
  induction items generalizing buf with
  | nil => rfl
  | cons item items ih =>
    obtain ⟨hitem, hitems⟩ := List.forall_mem_cons.mp h
    have hset : setSpan buf (item.1 * 1) 1 (fun _ => item.2) = buf.set item.1 item.2 := by
      rw [setSpan_succ, Nat.mul_one, Nat.add_zero]
      rfl
    rw [writeAll, List.foldlM_cons, if_pos hitem]
    change writeAll items (buf.set item.1 item.2) = _
    rw [ih (by simpa using hitems), List.map_cons, scatterSet, scatterSet, List.foldl_cons, hset]

theorem writeAll_eq_none {F : Type} {items : List (ℕ × F)} {buf : List F}
    (h : ∃ item ∈ items, ¬ item.1 < buf.length) : writeAll items buf = none := by
  induction items generalizing buf with
  | nil =>
    obtain ⟨item, hmem, -⟩ := h
    exact absurd hmem List.not_mem_nil
  | cons item items ih =>
    rw [writeAll, List.foldlM_cons]
    split
    · next hlt =>
      obtain ⟨item', hmem, hnot⟩ := h
      rcases List.mem_cons.mp hmem with rfl | hmem
      · exact absurd hlt hnot
      · exact ih ⟨item', hmem, by rwa [List.length_set]⟩
    · rfl

theorem mapM_eq_some {α β : Type} {f : α → Option β} {g : α → β} {l : List α}
    (h : ∀ a ∈ l, f a = some (g a)) : l.mapM f = some (l.map g) := by
  induction l with
  | nil => rfl
  | cons a l ih =>
    obtain ⟨ha, hl⟩ := List.forall_mem_cons.mp h
    rw [List.mapM_cons, ha, ih hl]
    rfl

/-! ### Units by column -/

/-- The unit that comes `k`th by column; with the sides exchanged, where a unit comes. -/
def colUnit (uh uw k : ℕ) : ℕ := k % uh * uw + k / uh

section units

variable {uh uw : ℕ}

theorem div_lt_of_lt_area {k : ℕ} (hk : k < uh * uw) : k / uh < uw ∧ k % uh < uh := by
  have hpos : 0 < uh := Nat.pos_of_ne_zero fun h0 => by
    rw [h0, Nat.zero_mul] at hk
    exact Nat.not_lt_zero _ hk
  exact ⟨Nat.div_lt_of_lt_mul hk, Nat.mod_lt _ hpos⟩

theorem colUnit_lt {k : ℕ} (hk : k < uh * uw) : colUnit uh uw k < uh * uw := by
  obtain ⟨hdiv, hmod⟩ := div_lt_of_lt_area hk
  exact cell_lt hmod hdiv

/-- Exchanging the sides twice gives the unit back. -/
theorem colUnit_colUnit {k : ℕ} (hk : k < uh * uw) : colUnit uw uh (colUnit uh uw k) = k := by
  obtain ⟨hdiv, -⟩ := div_lt_of_lt_area hk
  have hcol : (k % uh * uw + k / uh) % uw = k / uh := by
    rw [Nat.add_comm, Nat.add_mul_mod_self_right, Nat.mod_eq_of_lt hdiv]
  have hline : (k % uh * uw + k / uh) / uw = k % uh := by
    rw [Nat.add_comm, Nat.add_mul_div_right _ _ (by omega), Nat.div_eq_of_lt hdiv, Nat.zero_add]
  rw [colUnit, colUnit, hcol, hline, Nat.div_add_mod']

theorem length_colIdx (uh uw : ℕ) : (colIdx uh uw).length = uh * uw := by
  rw [colIdx, length_scatterSet, List.length_replicate]

theorem getElem?_colIdx {k : ℕ} (hk : k < uh * uw) :
    (colIdx uh uw)[k]? = some (i32 (colUnit uh uw k)) := by
  obtain ⟨hdiv, hmod⟩ := div_lt_of_lt_area hk
  have hnodup : (((slots uw uh).map fun i : ℕ × ℕ =>
      (i.1 * uh + i.2, fun _ : ℕ => i32 (i.2 * uw + i.1 : ℕ))).map (·.1)).Nodup := by
    rw [List.map_map]
    refine (nodup_slots _ _).map_on fun i hi j hj heq => ?_
    obtain ⟨hline, hcol⟩ := cell_inj (mem_slots.mp hi).2 (mem_slots.mp hj).2 heq
    exact Prod.ext hline hcol
  have hitem : (k / uh * uh + k % uh, fun _ : ℕ => i32 (k % uh * uw + k / uh : ℕ)) ∈
      (slots uw uh).map fun i : ℕ × ℕ =>
        (i.1 * uh + i.2, fun _ : ℕ => i32 (i.2 * uw + i.1 : ℕ)) :=
    List.mem_map.mpr ⟨(k / uh, k % uh), mem_slots.mpr ⟨hdiv, hmod⟩, rfl⟩
  have hcell := @getElem?_scatterSet _ 1 _ (List.replicate (uh * uw) 0) hnodup _ hitem 0
    Nat.zero_lt_one (by rwa [List.length_replicate, Nat.mul_one, Nat.add_zero, Nat.div_add_mod'])
  rw [Nat.mul_one, Nat.add_zero, Nat.div_add_mod'] at hcell
  rw [colIdx, hcell, colUnit]

theorem i32_eq {n : ℕ} (h : n < 2 ^ 31) : i32 n = n := Int.bmod_eq_of_le (by omega) (by omega)

theorem asUsize_natCast {n : ℕ} (h : n < 2 ^ 64) : asUsize n = n := by
  rw [asUsize]
  omega

/-- An `i32` counts them. -/
theorem colIdx_eq (h : uh * uw ≤ 2 ^ 31) :
    colIdx uh uw = (List.range (uh * uw)).map fun k => (colUnit uh uw k : ℤ) := by
  refine List.ext_getElem? fun k => ?_
  by_cases hk : k < uh * uw
  · rw [getElem?_colIdx hk, i32_eq ((colUnit_lt hk).trans_le h), List.getElem?_map,
      List.getElem?_range hk]
    rfl
  · rw [List.getElem?_eq_none (by rw [length_colIdx]; omega), List.getElem?_eq_none (by simpa using hk)]

/-- **The order by column** is an order of all units. -/
theorem colIdx_perm (h : uh * uw ≤ 2 ^ 31) :
    (colIdx uh uw).Perm ((List.range (uh * uw)).map Nat.cast) := by
  have hunits : ((List.range (uh * uw)).map (colUnit uh uw)).Perm (List.range (uh * uw)) := by
    have hnodup : ((List.range (uh * uw)).map (colUnit uh uw)).Nodup := by
      refine List.nodup_range.map_on fun k hk k' hk' heq => ?_
      rw [← colUnit_colUnit (List.mem_range.mp hk), heq, colUnit_colUnit (List.mem_range.mp hk')]
    have hsub : (List.range (uh * uw)).map (colUnit uh uw) ⊆ List.range (uh * uw) := by
      intro u hu
      obtain ⟨k, hk, rfl⟩ := List.mem_map.mp hu
      exact List.mem_range.mpr (colUnit_lt (List.mem_range.mp hk))
    exact (List.subperm_of_subset hnodup hsub).perm_of_length_le (by rw [List.length_map])
  rw [colIdx_eq h]
  have hcast := hunits.map (Nat.cast : ℕ → ℤ)
  rwa [List.map_map] at hcast

theorem inverseWrites_eq (h : uh * uw ≤ 2 ^ 31) :
    inverseWrites (colIdx uh uw) = (List.range (uh * uw)).map fun k => (colUnit uh uw k, (k : ℤ)) := by
  refine List.ext_getElem? fun k => ?_
  rw [inverseWrites, List.getElem?_map, List.getElem?_zipIdx, colIdx_eq h, List.getElem?_map,
    List.getElem?_map]
  by_cases hk : k < uh * uw
  · have hlt := (colUnit_lt hk).trans_le h
    rw [List.getElem?_range hk]
    simp only [Option.map_some, Nat.zero_add]
    rw [asUsize_natCast (by omega), i32_eq (hk.trans_le h)]
  · rw [List.getElem?_eq_none (by simpa using hk)]
    rfl

/-- Where each unit comes. -/
theorem writeAll_inverse (h : uh * uw ≤ 2 ^ 31) :
    writeAll (inverseWrites (colIdx uh uw)) (List.replicate (uh * uw) 0) =
      some ((List.range (uh * uw)).map fun u => (colUnit uw uh u : ℤ)) := by
  rw [inverseWrites_eq h, writeAll_eq, List.map_map]
  · refine congrArg some (List.ext_getElem? fun u => ?_)
    by_cases hu : u < uh * uw
    · have hk : colUnit uw uh u < uh * uw := by
        rw [Nat.mul_comm] at hu ⊢
        exact colUnit_lt hu
      have hback : colUnit uh uw (colUnit uw uh u) = u :=
        colUnit_colUnit (by rwa [Nat.mul_comm])
      have hnodup : (((List.range (uh * uw)).map ((fun item : ℕ × ℤ => (item.1, fun _ : ℕ => item.2)) ∘
          fun k => (colUnit uh uw k, (k : ℤ)))).map (·.1)).Nodup := by
        rw [List.map_map]
        refine List.nodup_range.map_on fun k hk k' hk' heq => ?_
        have heq' : colUnit uh uw k = colUnit uh uw k' := heq
        rw [← colUnit_colUnit (List.mem_range.mp hk), heq', colUnit_colUnit (List.mem_range.mp hk')]
      have hitem : (colUnit uh uw (colUnit uw uh u), fun _ : ℕ => (colUnit uw uh u : ℤ)) ∈
          (List.range (uh * uw)).map ((fun item : ℕ × ℤ => (item.1, fun _ : ℕ => item.2)) ∘
            fun k => (colUnit uh uw k, (k : ℤ))) :=
        List.mem_map.mpr ⟨colUnit uw uh u, List.mem_range.mpr hk, rfl⟩
      have hcell := @getElem?_scatterSet _ 1 _ (List.replicate (uh * uw) 0) hnodup _ hitem 0
        Nat.zero_lt_one (by rwa [List.length_replicate, hback, Nat.mul_one, Nat.add_zero])
      rw [hback, Nat.mul_one, Nat.add_zero] at hcell
      rw [hcell, List.getElem?_map, List.getElem?_range hu]
      rfl
    · rw [List.getElem?_eq_none (by simpa using hu), List.getElem?_eq_none (by simpa using hu)]
  · intro item hitem
    obtain ⟨k, hk, rfl⟩ := List.mem_map.mp hitem
    rw [List.length_replicate]
    exact colUnit_lt (List.mem_range.mp hk)

/-- More units than an `i32` counts: a negative subscript. -/
theorem writeAll_inverse_eq_none (h : 2 ^ 31 < uh * uw) (hlen : uh * uw < 2 ^ 60) :
    writeAll (inverseWrites (colIdx uh uw)) (List.replicate (uh * uw) 0) = none := by
  have hk : colUnit uw uh (2 ^ 31) < uh * uw := by
    rw [Nat.mul_comm] at h ⊢
    exact colUnit_lt h
  have hback : colUnit uh uw (colUnit uw uh (2 ^ 31)) = 2 ^ 31 :=
    colUnit_colUnit (by rwa [Nat.mul_comm])
  have hget := getElem?_colIdx hk
  rw [hback] at hget
  have hmem : (i32 (2 ^ 31 : ℕ), colUnit uw uh (2 ^ 31)) ∈ (colIdx uh uw).zipIdx :=
    List.mem_zipIdx_iff_getElem?.mpr hget
  refine writeAll_eq_none ⟨_, List.mem_map.mpr ⟨_, hmem, rfl⟩, ?_⟩
  have hindex : asUsize (i32 (2 ^ 31 : ℕ)) = 2 ^ 64 - 2 ^ 31 := by decide
  rw [List.length_replicate, hindex]
  omega

end units

/-! ### Coordinates -/

variable {gh gw : ℕ}

theorem length_hwRow (gh gw : ℕ) : (hwRow gh gw).length = 2 * (gh * gw) := by
  rw [hwRow, length_scatterSet, List.length_replicate]

/-- The coordinates of a row are those of its patch. -/
theorem getElem?_hwRow (hgh : Even gh) (hgw : Even gw) {t j : ℕ} (ht : t < gh * gw) (hj : j < 2) :
    (hwRow gh gw)[2 * t + j]? =
      some (i32 (if j = 0 then (patchOf gw t).1 else (patchOf gw t).2 : ℕ)) := by
  have harea := area_eq hgh hgw
  have hnodup : (((List.range (gh / 2 * (gw / 2)) ×ˢ List.range 4).map fun i : ℕ × ℕ =>
      (i.1 * 4 + i.2, fun j : ℕ => i32 (if j = 0 then i.1 / (gw / 2) * 2 + i.2 / 2
        else i.1 % (gw / 2) * 2 + i.2 % 2 : ℕ))).map (·.1)).Nodup := by
    rw [List.map_map]
    refine (List.nodup_range.product List.nodup_range).map_on ?_
    rintro ⟨u, r⟩ hi ⟨u', r'⟩ hi' heq
    obtain ⟨hu, hr⟩ := cell_inj (List.mem_range.mp (List.mem_product.mp hi).2)
      (List.mem_range.mp (List.mem_product.mp hi').2) heq
    exact Prod.ext hu hr
  have hitem : (t / 4 * 4 + t % 4, fun j : ℕ => i32 (if j = 0 then
      t / 4 / (gw / 2) * 2 + t % 4 / 2 else t / 4 % (gw / 2) * 2 + t % 4 % 2 : ℕ)) ∈
      (List.range (gh / 2 * (gw / 2)) ×ˢ List.range 4).map fun i : ℕ × ℕ =>
        (i.1 * 4 + i.2, fun j : ℕ => i32 (if j = 0 then i.1 / (gw / 2) * 2 + i.2 / 2
          else i.1 % (gw / 2) * 2 + i.2 % 2 : ℕ)) :=
    List.mem_map.mpr ⟨(t / 4, t % 4), List.mem_product.mpr ⟨List.mem_range.mpr (by omega),
      List.mem_range.mpr (Nat.mod_lt _ (by decide))⟩, rfl⟩
  have hcell := @getElem?_scatterSet _ 2 _ (List.replicate (2 * (gh * gw)) 0) hnodup _ hitem j hj
    (by rw [List.length_replicate]; dsimp only; omega)
  rw [Nat.div_add_mod', Nat.mul_comm t 2] at hcell
  rw [hwRow, hcell, patchOf]

/-! ### Reordered units -/

section gather

variable {F : Type} {cols units : ℕ} {f g : ℕ → ℕ} {x : List F}

/-- Units in the order of an index. -/
theorem gatherUnits_eq (hf : ∀ k < units, f k < units) (hbound : units < 2 ^ 64)
    (hx : x.length = units * (4 * cols)) (zero : F) :
    gatherUnits cols ((List.range units).map fun k => (f k : ℤ)) x =
      some ((List.range (units * (4 * cols))).map fun i =>
        x.getD (f (i / (4 * cols)) * (4 * cols) + i % (4 * cols)) zero) := by
  rw [gatherUnits, List.length_map, List.length_range]
  refine mapM_eq_some fun i hi => ?_
  have hi := List.mem_range.mp hi
  have hpos : 0 < 4 * cols := Nat.pos_of_ne_zero fun h0 => by
    rw [h0, Nat.mul_zero] at hi
    exact Nat.not_lt_zero _ hi
  have hunit : i / (4 * cols) < units := Nat.div_lt_of_lt_mul (by rwa [Nat.mul_comm])
  have hrest : i - i / (4 * cols) * (4 * cols) = i % (4 * cols) := by
    rw [Nat.mul_comm, ← Nat.mod_eq_sub_mul_div]
  have hget : ((List.range units).map fun k => (f k : ℤ))[i / (4 * cols)]? =
      some (f (i / (4 * cols)) : ℤ) := by
    rw [List.getElem?_map, List.getElem?_range hunit]
    rfl
  have hlt := hf _ hunit
  have hin : f (i / (4 * cols)) * (4 * cols) + i % (4 * cols) < x.length := by
    rw [hx]
    exact cell_lt hlt (Nat.mod_lt _ hpos)
  simp only [hget, Option.bind_eq_bind, Option.bind_some]
  rw [asUsize_natCast (hlt.trans hbound), hrest, List.getD_eq_getElem?_getD,
    List.getElem?_eq_getElem hin]
  rfl

theorem gatherUnits_of_empty {idx : List ℤ} (h : idx.length * (4 * cols) = 0) :
    gatherUnits cols idx x = some [] := by
  rw [gatherUnits, h]
  rfl

/-- **There and back** gives the rows. -/
theorem gatherUnits_gatherUnits (hf : ∀ k < units, f k < units) (hg : ∀ u < units, g u < units)
    (hfg : ∀ u < units, f (g u) = u) (hbound : units < 2 ^ 64)
    (hx : x.length = units * (4 * cols)) :
    (gatherUnits cols ((List.range units).map fun k => (f k : ℤ)) x).bind
      (gatherUnits cols ((List.range units).map fun u => (g u : ℤ))) = some x := by
  cases x with
  | nil =>
    have hnone : units * (4 * cols) = 0 := hx.symm
    rw [gatherUnits_of_empty (by simpa using hnone), Option.bind_some,
      gatherUnits_of_empty (by simpa using hnone)]
  | cons zero xs =>
    rw [gatherUnits_eq hf hbound hx zero, Option.bind_some,
      gatherUnits_eq hg hbound (by rw [List.length_map, List.length_range]) zero]
    refine congrArg some (List.ext_getElem? fun i => ?_)
    by_cases hi : i < units * (4 * cols)
    · have hpos : 0 < 4 * cols := Nat.pos_of_ne_zero fun h0 => by
        rw [h0, Nat.mul_zero] at hi
        exact Nat.not_lt_zero _ hi
      have hunit : i / (4 * cols) < units := Nat.div_lt_of_lt_mul (by rwa [Nat.mul_comm])
      have hmod := Nat.mod_lt i hpos
      have hin := cell_lt (hg _ hunit) hmod
      have hdiv : (g (i / (4 * cols)) * (4 * cols) + i % (4 * cols)) / (4 * cols) =
          g (i / (4 * cols)) := by
        rw [Nat.add_comm, Nat.add_mul_div_right _ _ hpos, Nat.div_eq_of_lt hmod, Nat.zero_add]
      have hrest : (g (i / (4 * cols)) * (4 * cols) + i % (4 * cols)) % (4 * cols) =
          i % (4 * cols) := by
        rw [Nat.add_comm, Nat.add_mul_mod_self_right, Nat.mod_eq_of_lt hmod]
      rw [List.getElem?_map, List.getElem?_range hi, Option.map_some, List.getD_eq_getElem?_getD,
        List.getElem?_map, List.getElem?_range hin, Option.map_some, Option.getD_some, hdiv, hrest,
        hfg _ hunit, Nat.div_add_mod', List.getD_eq_getElem?_getD,
        List.getElem?_eq_getElem (hx ▸ hi), Option.getD_some]
    · rw [List.getElem?_eq_none (by simpa using hi), List.getElem?_eq_none (by omega)]

end gather

/-! ### Both orders -/

theorem positions_eq (h : ¬ 2 ^ 63 ≤ 2 * (gh * gw) * 4) : positions gh gw =
    (writeAll (inverseWrites (colIdx (gh / 2) (gw / 2)))
      (List.replicate (gh / 2 * (gw / 2)) 0)).bind fun inv =>
        some ⟨hwRow gh gw, hwCol (gh * gw) (hwRow gh gw) (colIdx (gh / 2) (gw / 2)),
          colIdx (gh / 2) (gw / 2), inv⟩ :=
  if_neg h

/-- What `positions` gives, when an `i32` counts the units. -/
theorem positions_eq_some {p : Positions} (hgh : Even gh) (hgw : Even gw)
    (h : positions gh gw = some p) : gh / 2 * (gw / 2) ≤ 2 ^ 31 ∧ p.hwRow = hwRow gh gw ∧
      p.colIdx = colIdx (gh / 2) (gw / 2) ∧
      p.inv = (List.range (gh / 2 * (gw / 2))).map (fun u => (colUnit (gw / 2) (gh / 2) u : ℤ)) ∧
      p.hwCol = hwCol (gh * gw) (hwRow gh gw) (colIdx (gh / 2) (gw / 2)) := by
  have harea := area_eq hgh hgw
  by_cases hsmall : 2 ^ 63 ≤ 2 * (gh * gw) * 4
  · rw [positions, if_pos hsmall] at h
    cases h
  · rw [positions_eq hsmall] at h
    by_cases hunits : gh / 2 * (gw / 2) ≤ 2 ^ 31
    · rw [writeAll_inverse hunits] at h
      obtain rfl := Option.some.inj h
      exact ⟨hunits, rfl, rfl, rfl, rfl⟩
    · have hmany : 2 ^ 31 < gh / 2 * (gw / 2) := not_le.mp hunits
      rw [writeAll_inverse_eq_none hmany (by omega)] at h
      cases h

/-- **The units of a grid** are indexed exactly when an `i32` counts them. -/
theorem isSome_positions (hgh : Even gh) (hgw : Even gw) :
    (positions gh gw).isSome ↔ gh * gw ≤ 2 ^ 33 := by
  have harea := area_eq hgh hgw
  constructor
  · intro h
    obtain ⟨p, hp⟩ := Option.isSome_iff_exists.mp h
    have hunits := (positions_eq_some hgh hgw hp).1
    omega
  · intro h
    have hunits : gh / 2 * (gw / 2) ≤ 2 ^ 31 := by omega
    rw [positions_eq (by omega), writeAll_inverse hunits]
    rfl

/-- A unit by column has the coordinates of the unit by row. -/
theorem getElem?_hwCol {p : Positions} (hgh : Even gh) (hgw : Even gw)
    (h : positions gh gw = some p) {k j : ℕ} (hk : k < gh / 2 * (gw / 2)) (hj : j < 8) :
    p.hwCol[k * 8 + j]? = p.hwRow[colUnit (gh / 2) (gw / 2) k * 8 + j]? := by
  have harea := area_eq hgh hgw
  obtain ⟨hunits, hrow, -, -, hcol⟩ := positions_eq_some hgh hgw h
  have hlt := colUnit_lt hk
  generalize hidx : colIdx (gh / 2) (gw / 2) = idx at hcol
  have hnodup : ((idx.zipIdx.map fun e : ℤ × ℕ =>
      (e.2, fun j : ℕ => (hwRow gh gw).getD (2 * 4 * asUsize e.1 + j) 0)).map (·.1)).Nodup := by
    have hsnd : (idx.zipIdx.map fun e : ℤ × ℕ =>
        (e.2, fun j : ℕ => (hwRow gh gw).getD (2 * 4 * asUsize e.1 + j) 0)).map (·.1) =
          idx.zipIdx.map Prod.snd := List.map_map
    rw [hsnd, List.zipIdx_map_snd]
    exact List.nodup_range'
  have hget := getElem?_colIdx hk
  rw [hidx, i32_eq (hlt.trans_le hunits)] at hget
  have hmem : ((colUnit (gh / 2) (gw / 2) k : ℤ), k) ∈ idx.zipIdx :=
    List.mem_zipIdx_iff_getElem?.mpr hget
  have hcell := @getElem?_scatterSet _ 8 _ (List.replicate (2 * (gh * gw)) 0) hnodup _
    (List.mem_map_of_mem hmem) j hj (by rw [List.length_replicate]; dsimp only; omega)
  have hin : 2 * 4 * colUnit (gh / 2) (gw / 2) k + j < (hwRow gh gw).length := by
    rw [length_hwRow]
    omega
  dsimp only at hcell
  rw [asUsize_natCast (by omega), List.getD_eq_getElem?_getD, List.getElem?_eq_getElem hin,
    Option.getD_some] at hcell
  rw [hcol, hwCol, hcell, hrow, Nat.mul_comm _ 8, List.getElem?_eq_getElem hin]

/-- The patches of an image hold each of its samples, in one place. -/
structure HoldsSamples {F : Type} (normalizeValue : ℕ → UInt8 → F) (gh gw : ℕ) (src : RgbImage)
    (out : Patches F) : Prop where
  width : src.width = gw * 16
  height : src.height = gh * 16
  length : out.data.length = gh * gw * patchDim
  sample : ∀ q ∈ samples (gw * 16) (gh * 16),
    out.data[place gw q]? = some (normalizeValue q.2.1 (src.channel q.1 q.2.1))

/-- Row `t` is the patch at the coordinates of `t`. -/
def RowsAgree {F : Type} (normalizeValue : ℕ → UInt8 → F) (gh gw : ℕ) (src : RgbImage)
    (out : Patches F) (p : Positions) : Prop :=
  ∀ t < gh * gw, ∃ h w : ℕ, h < gh ∧ w < gw ∧ p.hwRow[2 * t]? = some (h : ℤ) ∧
    p.hwRow[2 * t + 1]? = some (w : ℤ) ∧ ∀ c < 3, ∀ s < temporal, ∀ py < patch, ∀ px < patch,
      out.data[t * patchDim + offset c s py px]? =
        some (normalizeValue c (src.channel (w * patch + px, h * patch + py) c))

/-- The order by column is a permutation of the units with an inverse, and the coordinates go
along. -/
structure Permutes (units : ℕ) (p : Positions) : Prop where
  perm : p.colIdx.Perm ((List.range units).map Nat.cast)
  length_inv : p.inv.length = units
  length_hwRow : p.hwRow.length = units * 8
  length_hwCol : p.hwCol.length = units * 8
  unit : ∀ k < units, ∃ u < units, p.colIdx[k]? = some (u : ℤ) ∧ p.inv[u]? = some (k : ℤ) ∧
    ∀ j < 8, p.hwCol[k * 8 + j]? = p.hwRow[u * 8 + j]?
  gather : ∀ {F : Type} (cols : ℕ) (x : List F), x.length = units * (4 * cols) →
    (gatherUnits cols p.colIdx x).bind (gatherUnits cols p.inv) = some x

theorem permutes {p : Positions} (hgh : Even gh) (hgw : Even gw) (h : positions gh gw = some p) :
    Permutes (gh / 2 * (gw / 2)) p := by
  have harea := area_eq hgh hgw
  obtain ⟨hunits, hrow, hidx, hinv, hcol⟩ := positions_eq_some hgh hgw h
  have hback : ∀ u < gh / 2 * (gw / 2), colUnit (gw / 2) (gh / 2) u < gh / 2 * (gw / 2) ∧
      colUnit (gh / 2) (gw / 2) (colUnit (gw / 2) (gh / 2) u) = u := by
    intro u hu
    rw [Nat.mul_comm] at hu ⊢
    exact ⟨colUnit_lt hu, colUnit_colUnit hu⟩
  refine ⟨?_, ?_, ?_, ?_, fun k hk => ?_, fun cols x hx => ?_⟩
  · rw [hidx]
    exact colIdx_perm hunits
  · rw [hinv, List.length_map, List.length_range]
  · rw [hrow, length_hwRow]
    omega
  · rw [hcol, hwCol, length_scatterSet, List.length_replicate]
    omega
  · refine ⟨colUnit (gh / 2) (gw / 2) k, colUnit_lt hk, ?_, ?_,
      fun j hj => getElem?_hwCol hgh hgw h hk hj⟩
    · rw [hidx, colIdx_eq hunits, List.getElem?_map, List.getElem?_range hk]
      rfl
    · rw [hinv, List.getElem?_map, List.getElem?_range (colUnit_lt hk), Option.map_some,
        colUnit_colUnit hk]
  · rw [hidx, colIdx_eq hunits, hinv]
    exact gatherUnits_gatherUnits (fun k hk => colUnit_lt hk) (fun u hu => (hback u hu).1)
      (fun u hu => (hback u hu).2) (hunits.trans_lt (by decide)) hx

/-- **The orders agree.** On a grid of even sides the samples of an image go to the values of its
patches one to one, whatever they hold; a row holds the patch at its coordinates; and the order by
column is a permutation of the merged units. -/
theorem vision_order (hgh : Even gh) (hgw : Even gw) :
    Set.BijOn (place gw) (samples (gw * 16) (gh * 16)) (Set.Iio (gh * gw * patchDim)) ∧
    (∀ q ∈ samples (gw * 16) (gh * 16), slotOf (place gw q) = q.2.2) ∧
    (∀ {F : Type} (normalizeValue : ℕ → UInt8 → F) (zero : F) (f : FloatSteps)
      (resizeBicubic : RgbImage → (w h : ℕ) → {out : RgbImage // out.width = w ∧ out.height = h})
      (width height : ℕ) (data : List UInt8) (out : Patches F),
      preprocess normalizeValue zero f resizeBicubic width height data = .ok out →
      out.gridH = gh → out.gridW = gw →
      ∃ hlen, HoldsSamples normalizeValue gh gw
          (resized resizeBicubic ⟨width, height, data, hlen⟩ (gh * 16) (gw * 16)) out ∧
        ∀ p, positions gh gw = some p → RowsAgree normalizeValue gh gw
          (resized resizeBicubic ⟨width, height, data, hlen⟩ (gh * 16) (gw * 16)) out p) ∧
    ((positions gh gw).isSome ↔ gh * gw ≤ 2 ^ 33) ∧
    ∀ p, positions gh gw = some p → Permutes (gh / 2 * (gw / 2)) p := by
  refine ⟨place_bijOn hgh hgw, fun q hq => slotOf_place hq, ?_, isSome_positions hgh hgw,
    fun p hp => permutes hgh hgw hp⟩
  rintro F normalizeValue zero f resizeBicubic width height data out hout rfl rfl
  obtain ⟨hlen, gh, gw, -, -, hlt, hlt', -, rfl⟩ := preprocess_eq_ok normalizeValue zero f
    resizeBicubic hout
  have hside (n : ℕ) : n * 16 / patch = n := Nat.mul_div_cancel n (by decide)
  dsimp only [patchify] at hgh hgw ⊢
  rw [hside] at hgh hgw
  simp only [hside]
  obtain ⟨hwidth, hheight⟩ := resized_sides resizeBicubic ⟨width, height, data, hlen⟩ (gh * 16)
    (gw * 16)
  have hcell := @getElem?_patchify gh gw F normalizeValue zero _ hgh hgw hwidth
  simp only [patchify, hside] at hcell
  refine ⟨hlen, ⟨hwidth, hheight, ?_, ?_⟩, fun p hp t ht => ?_⟩
  · dsimp only
    rw [length_scatterSet, List.length_replicate]
  · rintro ⟨⟨x, y⟩, c, s⟩ ⟨hx, hy, hc, hs⟩
    change x < gw * 16 at hx
    change y < gh * 16 at hy
    have hline : y / 16 < gh := by omega
    have hcol : x / 16 < gw := by omega
    have hmod (n : ℕ) : n % 16 < 16 := Nat.mod_lt _ (by decide)
    have hvalue := hcell (@rowOf_lt gh gw hgh hgw (y / 16, x / 16) hline hcol) hc hs (hmod y)
      (hmod x)
    rw [@patchOf_rowOf gw hgw (y / 16, x / 16) hcol, Nat.div_add_mod', Nat.div_add_mod'] at hvalue
    exact hvalue
  · obtain ⟨-, hrow, -⟩ := positions_eq_some hgh hgw hp
    obtain ⟨hline, hcol⟩ := patchOf_lt hgh hgw ht
    have hh := getElem?_hwRow hgh hgw ht Nat.zero_lt_two
    have hw := getElem?_hwRow hgh hgw ht Nat.one_lt_two
    rw [if_pos rfl, i32_eq (by omega)] at hh
    rw [if_neg Nat.one_ne_zero, i32_eq (by omega)] at hw
    rw [← hrow] at hh hw
    exact ⟨_, _, hline, hcol, hh, hw, fun c hc s hs py hpy px hpx => hcell ht hc hs hpy hpx⟩

/-- On four lines of six patches the units by column are 0, 3, 1, 4, 2 and 5. -/
theorem vision_order_four_six :
    ∃ p, positions 4 6 = some p ∧ p.colIdx = [0, 3, 1, 4, 2, 5] ∧ Permutes 6 p := by
  obtain ⟨-, -, -, hsome, hall⟩ := @vision_order 4 6 ⟨2, rfl⟩ ⟨3, rfl⟩
  obtain ⟨p, hp⟩ := Option.isSome_iff_exists.mp (hsome.mpr (by decide))
  obtain ⟨-, -, hidx, -⟩ := positions_eq_some ⟨2, rfl⟩ ⟨3, rfl⟩ hp
  exact ⟨p, hp, hidx.trans (by decide), hall p hp⟩

end Coordinator

end Mimo26

import Mimo26.Attn.PagedKv
import Mimo26.Attn.Rows

/-!
# Paged keys and values are the flat ones

Codes and scales are those of each row alone, so that a store of some rows is determined by them
however they were appended. Pages are then stores of the pages of the rows.

## Main definitions

* `KvRow` — a row
* `rowCodes`, `rowScales`, `rowValues` — what is kept of a row, and what is read of it
* `RowStore.ofRows`, `GaPaged.ofRows` — the stores of some rows

## Main results

* `RowStore.append_ofRows`, `RowStore.rowsRange_ofRows` — one store
* `GaPaged.append_ofRows`, `GaPaged.rowsRange_ofRows` — pages
* `GaPaged.returns_view` — what attention assumes of them
* `paged_eq_flat` — what is read is the same
-/

namespace Mimo26

namespace Attn

namespace Cache

open Result Pages Grid

variable {V : Type}

theorem orPanic_eq_ok {α : Type} {x : Option α} {a : α} (h : x = some a) :
    orPanic x = .ok a := by
  rw [h]
  rfl

/-! ### The codes of a row -/

section row

variable (o : Fp8Ops V)

/-- The scale of a head of a row. -/
def headScale (layout : Layout) (d : ℕ) (x : List V) (h : ℕ) : V :=
  match layout with
  | .unit => o.one
  | .perTokenHead => o.planeScale ((x.drop (h * d)).take d)

def rowQuotients (layout : Layout) (nKv d : ℕ) (x : List V) : List V :=
  (cells nKv d).map fun i => o.div (x.getD (i.1 * d + i.2) o.one) (headScale o layout d x i.1)

def rowCodes (layout : Layout) (nKv d : ℕ) (x : List V) : List UInt8 :=
  (rowQuotients o layout nKv d x).map o.encode

def rowClips (layout : Layout) (nKv d : ℕ) (x : List V) : ℕ :=
  (rowQuotients o layout nKv d x).countP o.exceeds

/-- The scales that are kept. -/
def rowScales (layout : Layout) (nKv d : ℕ) (x : List V) : List V :=
  match layout with
  | .unit => []
  | .perTokenHead => (List.range nKv).map (headScale o layout d x)

/-- What is read of a row. -/
def rowValues (layout : Layout) (nKv d : ℕ) (x : List V) : List V :=
  (cells nKv d).map fun i =>
    o.mul (o.decode ((rowCodes o layout nKv d x).getD (i.1 * d + i.2) 0)) (headScale o layout d x i.1)

variable {layout : Layout} {nKv d : ℕ} {x : List V}

theorem length_cells (nKv d : ℕ) : (cells nKv d).length = nKv * d := by
  rw [cells, List.length_product, List.length_range, List.length_range]

theorem mem_cells {i : ℕ × ℕ} : i ∈ cells nKv d ↔ i.1 < nKv ∧ i.2 < d := by
  rw [cells, List.mem_product, List.mem_range, List.mem_range]

theorem length_rowCodes (x : List V) : (rowCodes o layout nKv d x).length = nKv * d := by
  rw [rowCodes, List.length_map, rowQuotients, List.length_map, length_cells]

theorem length_rowValues (x : List V) : (rowValues o layout nKv d x).length = nKv * d := by
  rw [rowValues, List.length_map, length_cells]

theorem length_rowScales (x : List V) :
    (rowScales o .perTokenHead nKv d x).length = nKv := by
  rw [rowScales, List.length_map, List.length_range]

end row

/-! ### Rows one after the other -/

section plane

variable (o : Fp8Ops V) {R : Type} {f : R → List V} {nKv d : ℕ} {rows : List R}

theorem address_eq (t h i nKv d : ℕ) : (t * nKv + h) * d + i = t * (nKv * d) + (h * d + i) := by
  ring

/-- A row's value among all. -/
theorem getElem?_value (hf : ∀ r, (f r).length = nKv * d) {t : ℕ} {r : R} (hr : rows[t]? = some r)
    {i : ℕ × ℕ} (hi : i ∈ cells nKv d) (zero : V) :
    (rows.flatMap f)[(t * nKv + i.1) * d + i.2]? = some ((f r).getD (i.1 * d + i.2) zero) := by
  have hlt := cell_lt (mem_cells.mp hi).1 (mem_cells.mp hi).2
  rw [address_eq, getElem?_flatMap_rows hf hr hlt, List.getD_eq_getElem?_getD,
    List.getElem?_eq_getElem (by rwa [hf])]
  rfl

/-- A loop over the cells of each row that does not fail. -/
theorem mapM_product_rows {ι β : Type} {l : List ι} {g : ℕ × ι → Except Stop β} {G : R → ι → β}
    (h : ∀ t r, rows[t]? = some r → ∀ i ∈ l, g (t, i) = .ok (G r i)) :
    (List.range rows.length ×ˢ l).mapM g = .ok (rows.flatMap fun r => l.map (G r)) := by
  induction rows generalizing g with
  | nil => rfl
  | cons r rows ih =>
    have hhead : (l.map (Prod.mk 0)).mapM g = .ok (l.map (G r)) := by
      rw [List.mapM_map]
      exact mapM_eq_ok fun i hi => h 0 r rfl i hi
    have htail := @ih (fun p => g (p.1 + 1, p.2)) fun t r' hr' i hi => h (t + 1) r' hr' i hi
    have hshift : ((List.range rows.length).map Nat.succ ×ˢ l : List (ℕ × ι)) =
        (List.range rows.length ×ˢ l).map fun p => (p.1 + 1, p.2) := by
      change ((List.range rows.length).map Nat.succ).flatMap (fun t => l.map (Prod.mk t)) =
        ((List.range rows.length).flatMap fun t => l.map (Prod.mk t)).map _
      rw [List.flatMap_map, List.map_flatMap]
      refine List.flatMap_congr fun t _ => ?_
      rw [List.map_map]
      rfl
    have hsplit : (List.range (r :: rows).length ×ˢ l : List (ℕ × ι)) =
        l.map (Prod.mk 0) ++ (List.range rows.length).map Nat.succ ×ˢ l := by
      rw [List.length_cons, List.range_succ_eq_map]
      rfl
    rw [hsplit, hshift, List.mapM_append, hhead, List.mapM_map]
    change Except.bind ((List.range rows.length ×ˢ l).mapM fun p => g (p.1 + 1, p.2)) _ = _
    rw [htail, List.flatMap_cons]
    rfl

/-- **Codes are those of each row.** -/
theorem encodeRows_rows (hf : ∀ r, (f r).length = nKv * d) {layout : Layout} {scaleOf : ℕ → ℕ → V}
    (hscale : ∀ t r, rows[t]? = some r → ∀ h < nKv, scaleOf t h = headScale o layout d (f r) h) :
    encodeRows o (rows.flatMap f) rows.length nKv d scaleOf =
      .ok (rows.flatMap fun r => rowCodes o layout nKv d (f r),
        (rows.map fun r => rowClips o layout nKv d (f r)).sum) := by
  have hlen : (rows.flatMap f).length = rows.length * nKv * d := by
    rw [length_flatMap_rows hf, Nat.mul_assoc]
  have hloop : (List.range rows.length ×ˢ cells nKv d).mapM (fun i => do
      let x ← orPanic (rows.flatMap f)[(i.1 * nKv + i.2.1) * d + i.2.2]?
      return o.div x (scaleOf i.1 i.2.1)) =
      .ok (rows.flatMap fun r => rowQuotients o layout nKv d (f r)) := by
    refine mapM_product_rows fun t r hr i hi => ?_
    dsimp only
    rw [orPanic_eq_ok (getElem?_value hf hr hi o.one), hscale t r hr i.1 (mem_cells.mp hi).1]
    rfl
  rw [encodeRows, demand_eq_ok.mpr hlen, ok_bind, hloop, ok_bind, pure_eq_ok, List.map_flatMap,
    List.countP_flatMap]
  rfl

/-- **Scales are those of each row.** -/
theorem planeScales_rows (hf : ∀ r, (f r).length = nKv * d) :
    planeScales o (rows.flatMap f) rows.length nKv d =
      .ok (rows.flatMap fun r => rowScales o .perTokenHead nKv d (f r)) := by
  refine mapM_product_rows fun t r hr h hh => ?_
  have hh := List.mem_range.mp hh
  obtain ⟨ht, hget⟩ := List.getElem?_eq_some_iff.mp hr
  have hhead : h * d + d ≤ nKv * d := by
    rw [← Nat.succ_mul]
    exact Nat.mul_le_mul_right d hh
  have hrow : (t + 1) * (nKv * d) ≤ rows.length * (nKv * d) := Nat.mul_le_mul_right _ ht
  have haddr : (t * nKv + h) * d = t * (nKv * d) + h * d := by ring
  rw [Nat.succ_mul] at hrow
  have hslice : slice (rows.flatMap f) ((t * nKv + h) * d) ((t * nKv + h) * d + d) =
      some (((f r).drop (h * d)).take d) := by
    rw [slice, if_pos ⟨Nat.le_add_right _ _, by rw [length_flatMap_rows hf]; omega⟩,
      Nat.add_sub_cancel_left, haddr, ← List.drop_drop, drop_flatMap_rows hf]
    rw [List.drop_eq_getElem_cons ht, hget, List.flatMap_cons,
      List.drop_append_of_le_length (by rw [hf]; omega),
      List.take_append_of_le_length (by rw [List.length_drop, hf]; omega)]
  dsimp only
  rw [orPanic_eq_ok hslice]
  rfl

/-- **What is read** is what is read of each row. -/
theorem decodeRows_rows (layout : Layout) (f : R → List V) :
    decodeRows o layout (rows.flatMap fun r => rowCodes o layout nKv d (f r))
        (rows.flatMap fun r => rowScales o layout nKv d (f r)) rows.length nKv d =
      .ok (rows.flatMap fun r => rowValues o layout nKv d (f r)) := by
  refine mapM_product_rows fun t r hr i hi => ?_
  have hlt := cell_lt (mem_cells.mp hi).1 (mem_cells.mp hi).2
  have hcode : (rows.flatMap fun r => rowCodes o layout nKv d (f r))[(t * nKv + i.1) * d + i.2]? =
      some ((rowCodes o layout nKv d (f r)).getD (i.1 * d + i.2) 0) := by
    rw [address_eq, getElem?_flatMap_rows (fun r => length_rowCodes o (f r)) hr hlt,
      List.getD_eq_getElem?_getD, List.getElem?_eq_getElem (by rwa [length_rowCodes])]
    rfl
  dsimp only
  cases layout with
  | unit =>
    rw [orPanic_eq_ok hcode]
    rfl
  | perTokenHead =>
    have hscale : (rows.flatMap fun r => rowScales o .perTokenHead nKv d (f r))[t * nKv + i.1]? =
        some (headScale o .perTokenHead d (f r) i.1) := by
      rw [getElem?_flatMap_rows (fun r => length_rowScales o (f r)) hr (mem_cells.mp hi).1,
        rowScales, List.getElem?_map, List.getElem?_range (mem_cells.mp hi).1]
      rfl
    dsimp only
    rw [orPanic_eq_ok hscale, orPanic_eq_ok hcode]
    rfl

end plane

/-! ### Stores of rows -/

/-- A row: keys and values as they are given. -/
structure KvRow (V : Type) (nKv dQk dV : ℕ) where
  k : List V
  v : List V
  length_k : k.length = nKv * dQk
  length_v : v.length = nKv * dV

section store

variable (o : Fp8Ops V) {nKv dQk dV : ℕ} (valueScale : V)

/-- The values as they are stored. -/
def KvRow.scaled (r : KvRow V nKv dQk dV) : List V := r.v.map fun x => o.mul x valueScale

theorem KvRow.length_scaled (r : KvRow V nKv dQk dV) :
    (r.scaled o valueScale).length = nKv * dV := by
  rw [scaled, List.length_map, r.length_v]

/-- The codes of some rows. -/
def encOf (layout : Layout) (rows : List (KvRow V nKv dQk dV)) : EncodedKv V :=
  { layout := layout
    nTok := rows.length
    nKv := nKv
    dQk := dQk
    dV := dV
    kCodes := rows.flatMap fun r => rowCodes o layout nKv dQk r.k
    vCodes := rows.flatMap fun r => rowCodes o layout nKv dV (r.scaled o valueScale)
    kScales := rows.flatMap fun r => rowScales o layout nKv dQk r.k
    vScales := rows.flatMap fun r => rowScales o layout nKv dV (r.scaled o valueScale)
    clipCount := (rows.map fun r => rowClips o layout nKv dQk r.k).sum +
      (rows.map fun r => rowClips o layout nKv dV (r.scaled o valueScale)).sum }

variable {rows batch : List (KvRow V nKv dQk dV)}

theorem flatMap_scaled (rows : List (KvRow V nKv dQk dV)) :
    (rows.flatMap KvRow.v).map (fun x => o.mul x valueScale) =
      rows.flatMap fun r => r.scaled o valueScale := by
  rw [List.map_flatMap]
  rfl

theorem flatMap_nil_rows {β γ : Type} (l : List β) : (l.flatMap fun _ => ([] : List γ)) = [] :=
  List.flatMap_eq_nil_iff.mpr fun _ _ => rfl

/-- **The codec takes rows one by one.** -/
theorem encodeKv_rows (mode : ScaleMode) (hne : rows ≠ []) :
    encodeKv o (rows.flatMap KvRow.k) ((rows.flatMap KvRow.v).map fun x => o.mul x valueScale)
        rows.length nKv dQk dV mode = .ok (encOf o valueScale (.of mode) rows) := by
  have hlen : rows.length ≠ 0 := fun h => hne (List.eq_nil_of_length_eq_zero h)
  have hk : ∀ r : KvRow V nKv dQk dV, r.k.length = nKv * dQk := KvRow.length_k
  have hv : ∀ r : KvRow V nKv dQk dV, (r.scaled o valueScale).length = nKv * dV :=
    fun r => r.length_scaled o valueScale
  rw [encodeKv, if_neg hlen, flatMap_scaled]
  cases mode with
  | unit =>
    have hkRows := @encodeRows_rows V o _ _ nKv dQk rows hk .unit (fun _ _ => o.one)
      fun _ _ _ _ _ => rfl
    have hvRows := @encodeRows_rows V o _ _ nKv dV rows hv .unit (fun _ _ => o.one)
      fun _ _ _ _ _ => rfl
    dsimp only [Layout.of]
    rw [hkRows, ok_bind, hvRows, ok_bind, encOf]
    dsimp only [rowScales]
    rw [flatMap_nil_rows]
    rfl
  | perTokenHead =>
    have hscales (d : ℕ) (f : KvRow V nKv dQk dV → List V) :
        ∀ t r, rows[t]? = some r → ∀ h < nKv,
          (rows.flatMap fun r => rowScales o .perTokenHead nKv d (f r)).getD (t * nKv + h) o.one =
            headScale o .perTokenHead d (f r) h := by
      intro t r hr h hh
      rw [List.getD_eq_getElem?_getD,
        getElem?_flatMap_rows (fun r => length_rowScales o (f r)) hr hh, rowScales,
        List.getElem?_map, List.getElem?_range hh]
      rfl
    dsimp only [Layout.of]
    rw [planeScales_rows o hk, ok_bind, planeScales_rows o hv, ok_bind,
      encodeRows_rows o hk (hscales dQk _), ok_bind, encodeRows_rows o hv (hscales dV _), ok_bind]
    rfl

/-- **Merging** keeps codes and scales together. -/
theorem mergeEncoded_encOf (layout : Layout) :
    mergeEncoded (encOf o valueScale layout rows) (encOf o valueScale layout batch) =
      .ok (encOf o valueScale layout (rows ++ batch)) := by
  have hlayout : (encOf o valueScale layout rows).layout =
      (encOf o valueScale layout batch).layout := rfl
  have hheads : (encOf o valueScale layout rows).nKv = (encOf o valueScale layout batch).nKv := rfl
  rw [mergeEncoded, demand_eq_ok.mpr hlayout, ok_bind, demand_eq_ok.mpr hheads, ok_bind, pure_eq_ok]
  simp only [encOf, List.flatMap_append, List.length_append, List.map_append, List.sum_append]
  congr 2
  omega

theorem decodeKv_encOf (layout : Layout) (readScale : V) :
    decodeKv o (encOf o valueScale layout rows) readScale =
      .ok (rows.flatMap fun r => rowValues o layout nKv dQk r.k,
        (rows.flatMap fun r => (rowValues o layout nKv dV (r.scaled o valueScale)).map
          fun x => o.mul x readScale)) := by
  have hk := @decodeRows_rows V o _ nKv dQk rows layout KvRow.k
  have hv := @decodeRows_rows V o _ nKv dV rows layout fun r => r.scaled o valueScale
  rw [decodeKv, encOf]
  dsimp only
  rw [hk, ok_bind, hv, ok_bind, List.map_flatMap]
  rfl

/-- What is read of the keys of a row. -/
def readK (mode : StoreMode) (r : KvRow V nKv dQk dV) : List V :=
  match mode.scaleMode with
  | none => r.k
  | some scale => rowValues o (.of scale) nKv dQk r.k

/-- What is read of the values of a row. -/
def readV (mode : StoreMode) (r : KvRow V nKv dQk dV) : List V :=
  match mode.scaleMode with
  | none => r.scaled o valueScale
  | some scale =>
    (rowValues o (.of scale) nKv dV (r.scaled o valueScale)).map fun x => o.mul x o.one

theorem length_readK (mode : StoreMode) (r : KvRow V nKv dQk dV) :
    (readK o mode r).length = nKv * dQk := by
  rw [readK]
  split
  · exact r.length_k
  · exact length_rowValues o _

theorem length_readV (mode : StoreMode) (r : KvRow V nKv dQk dV) :
    (readV o valueScale mode r).length = nKv * dV := by
  rw [readV]
  split
  · exact r.length_scaled o valueScale
  · rw [List.length_map, length_rowValues]

end store

/-- A range of rows. -/
theorem slice_flatMap_rows {R : Type} {f : R → List V} {m : ℕ} (hf : ∀ r, (f r).length = m)
    {rows : List R} {lo hi : ℕ} (hlo : lo ≤ hi) (hhi : hi ≤ rows.length) :
    slice (rows.flatMap f) (lo * m) (hi * m) = some (((rows.drop lo).take (hi - lo)).flatMap f) := by
  have hle : lo * m ≤ hi * m := Nat.mul_le_mul_right m hlo
  have hend : hi * m ≤ rows.length * m := Nat.mul_le_mul_right m hhi
  rw [slice, if_pos ⟨hle, by rwa [length_flatMap_rows hf]⟩, ← Nat.sub_mul, drop_flatMap_rows hf,
    take_flatMap_rows hf]

namespace RowStore

variable (o : Fp8Ops V) {nKv dQk dV : ℕ} (valueScale : V) (mode : StoreMode)

/-- An empty store. -/
def new (nKv dQk dV : ℕ) : RowStore V := ⟨mode, nKv, dQk, dV, valueScale, [], [], none, 0⟩

/-- The store of some rows. -/
def ofRows (rows : List (KvRow V nKv dQk dV)) : RowStore V :=
  match mode.scaleMode with
  | none =>
    ⟨mode, nKv, dQk, dV, valueScale, rows.flatMap KvRow.k,
      rows.flatMap fun r => r.scaled o valueScale, none, rows.length⟩
  | some scale =>
    ⟨mode, nKv, dQk, dV, valueScale, [], [],
      if rows.isEmpty then none else some (encOf o valueScale (.of scale) rows), rows.length⟩

variable {rows batch : List (KvRow V nKv dQk dV)}

theorem ofRows_nil : ofRows o valueScale mode ([] : List (KvRow V nKv dQk dV)) =
    new valueScale mode nKv dQk dV := by
  cases mode <;> rfl

theorem ofRows_fields (rows : List (KvRow V nKv dQk dV)) :
    (ofRows o valueScale mode rows).mode = mode ∧ (ofRows o valueScale mode rows).nKv = nKv ∧
      (ofRows o valueScale mode rows).dQk = dQk ∧ (ofRows o valueScale mode rows).dV = dV ∧
      (ofRows o valueScale mode rows).valueScale = valueScale ∧
      (ofRows o valueScale mode rows).nRows = rows.length := by
  cases mode <;> exact ⟨rfl, rfl, rfl, rfl, rfl, rfl⟩

/-- **Appending rows** to a store of rows. -/
theorem append_ofRows :
    (ofRows o valueScale mode rows).append o (batch.flatMap KvRow.k) (batch.flatMap KvRow.v)
      batch.length = .ok (ofRows o valueScale mode (rows ++ batch)) := by
  obtain ⟨hmode, hheads, hqk, hv, hscale, hn⟩ := ofRows_fields o valueScale mode rows
  have hkLen : (batch.flatMap KvRow.k).length = batch.length * nKv * dQk := by
    rw [length_flatMap_rows KvRow.length_k, Nat.mul_assoc]
  have hvLen : (batch.flatMap KvRow.v).length = batch.length * nKv * dV := by
    rw [length_flatMap_rows KvRow.length_v, Nat.mul_assoc]
  rw [append, hheads, hqk, hv, if_neg (not_or.mpr ⟨not_not.mpr hkLen, not_not.mpr hvLen⟩)]
  cases batch with
  | nil =>
    rw [if_pos List.length_nil, List.append_nil]
  | cons b bs =>
    rw [if_neg (by rw [List.length_cons]; omega), hmode, hscale, hn]
    dsimp only
    cases hscaleMode : mode.scaleMode with
    | none =>
      rw [ofRows, ofRows, hscaleMode, pure_eq_ok, flatMap_scaled, List.flatMap_append,
        List.flatMap_append, List.length_append]
    | some scale =>
      have hencode := @encodeKv_rows V o nKv dQk dV valueScale (b :: bs) scale (List.cons_ne_nil b bs)
      dsimp only
      rw [hencode, ok_bind]
      cases rows with
      | nil =>
        rw [ofRows, ofRows, hscaleMode, List.length_nil, Nat.zero_add, List.nil_append]
        rfl
      | cons r rs =>
        have hmerge := @mergeEncoded_encOf V o nKv dQk dV valueScale (r :: rs) (b :: bs) (.of scale)
        rw [ofRows, ofRows, hscaleMode]
        dsimp only [List.isEmpty_cons, List.cons_append]
        rw [if_neg Bool.false_ne_true, if_neg Bool.false_ne_true]
        dsimp only
        rw [hmerge, ok_bind, pure_eq_ok, ← List.cons_append, List.length_append]

/-- **Reading** a store of rows, which panics on codes that are not there. -/
theorem rows_ofRows (hne : rows ≠ []) : (ofRows o valueScale mode rows).rows o =
    .ok (rows.flatMap (readK o mode), rows.flatMap (readV o valueScale mode)) := by
  have hempty : ¬ rows.isEmpty = true := fun h => hne (List.isEmpty_iff.mp h)
  cases mode with
  | f32 => rfl
  | fp8Unit =>
    rw [RowStore.rows, ofRows]
    dsimp only [StoreMode.scaleMode]
    rw [if_neg hempty]
    exact decodeKv_encOf o valueScale (.of .unit) o.one
  | fp8PerTokenHead =>
    rw [RowStore.rows, ofRows]
    dsimp only [StoreMode.scaleMode]
    rw [if_neg hempty]
    exact decodeKv_encOf o valueScale (.of .perTokenHead) o.one

/-- A range of rows as it is read. -/
def readRange (rows : List (KvRow V nKv dQk dV)) (lo hi : ℕ) : List V × List V :=
  (((rows.drop lo).take (hi - lo)).flatMap (readK o mode),
    ((rows.drop lo).take (hi - lo)).flatMap (readV o valueScale mode))

theorem rowsRange_ofRows (hne : rows ≠ []) {lo hi : ℕ} (hlo : lo ≤ hi) (hhi : hi ≤ rows.length) :
    (ofRows o valueScale mode rows).rowsRange o lo hi =
      .ok (readRange o valueScale mode rows lo hi) := by
  obtain ⟨-, hheads, hqk, hv, -, hn⟩ := ofRows_fields o valueScale mode rows
  have hk := slice_flatMap_rows (length_readK o mode) hlo hhi
  have hv' := slice_flatMap_rows (length_readV o valueScale mode) hlo hhi
  rw [rowsRange, hn, demand_eq_ok.mpr ⟨hhi, hlo⟩, ok_bind, rows_ofRows o valueScale mode hne, ok_bind,
    hheads, hqk, hv]
  dsimp only
  rw [orPanic_eq_ok hk, ok_bind, orPanic_eq_ok hv', ok_bind]
  rfl

end RowStore

namespace GaPaged

variable (o : Fp8Ops V) {nKv dQk dV : ℕ} (valueScale : V) (mode : StoreMode) {size : ℕ}
  (hsize : 0 < size)

/-- No rows, in pages of `size`. -/
def new (nKv dQk dV : ℕ) : GaPaged V :=
  { storeTemplate := .new valueScale mode nKv dQk dV, pageTokens := size, pageTokens_pos := hsize }

/-- A store for each of the first `n` pages. -/
def slotsOf (size : ℕ) (rows : List (KvRow V nKv dQk dV)) (n : ℕ) : List (RowStore V) :=
  (List.range n).map fun p => .ofRows o valueScale mode (page size rows p)

/-- The pages of some rows. -/
def ofRows (rows : List (KvRow V nKv dQk dV)) : GaPaged V :=
  { storeTemplate := .new valueScale mode nKv dQk dV
    pageTokens := size
    pageTokens_pos := hsize
    pageTable := List.range (pageCount size rows.length)
    slots := slotsOf o valueScale mode size rows (pageCount size rows.length)
    nRows := rows.length }

variable {rows batch : List (KvRow V nKv dQk dV)}

theorem ofRows_nil : ofRows o valueScale mode hsize ([] : List (KvRow V nKv dQk dV)) =
    new valueScale mode hsize nKv dQk dV := by
  have hcount : pageCount size 0 = 0 :=
    (pageCount_of_mod_eq_zero hsize (Nat.zero_mod size)).trans (Nat.zero_div size)
  rw [ofRows, List.length_nil, hcount]
  rfl

theorem getElem?_slotsOf {n p : ℕ} (hp : p < n) : (slotsOf o valueScale mode size rows n)[p]? =
    some (.ofRows o valueScale mode (page size rows p)) := by
  rw [slotsOf, List.getElem?_map, List.getElem?_range hp]
  rfl

/-- **Reserving** the page in hand: it is there, if only empty. -/
theorem reserve_ofRows (rows : List (KvRow V nKv dQk dV)) :
    (ofRows o valueScale mode hsize rows).reserve =
      { ofRows o valueScale mode hsize rows with
        pageTable := List.range (rows.length / size + 1)
        slots := slotsOf o valueScale mode size rows (rows.length / size + 1) } := by
  rw [reserve]
  rcases Nat.eq_zero_or_pos (rows.length % size) with hmod | hmod
  · have hcount := pageCount_of_mod_eq_zero hsize hmod
    have hnew : (ofRows o valueScale mode hsize rows).nRows /
        (ofRows o valueScale mode hsize rows).pageTokens =
          (ofRows o valueScale mode hsize rows).pageTable.length := by
      rw [ofRows, List.length_range, hcount]
    have hlast : (⟨mode, nKv, dQk, dV, valueScale, [], [], none, 0⟩ : RowStore V) =
        .ofRows o valueScale mode (page size rows (rows.length / size)) := by
      rw [page_eq_nil hmod, RowStore.ofRows_nil]
      rfl
    rw [if_pos hnew, ofRows, hcount]
    dsimp only [RowStore.new]
    rw [hlast, slotsOf, slotsOf, List.length_map, List.length_range, List.range_succ, List.map_append,
      List.map_singleton]
  · have hcount := pageCount_of_mod_pos hsize hmod
    have hold : ¬ (ofRows o valueScale mode hsize rows).nRows /
        (ofRows o valueScale mode hsize rows).pageTokens =
          (ofRows o valueScale mode hsize rows).pageTable.length := by
      rw [ofRows, List.length_range, hcount]
      exact (Nat.lt_succ_self _).ne
    rw [if_neg hold, ofRows, hcount]

/-- The other pages stay. -/
theorem set_slotsOf {part : List (KvRow V nKv dQk dV)}
    (hpart : part.length ≤ size - rows.length % size) :
    (slotsOf o valueScale mode size rows (rows.length / size + 1)).set (rows.length / size)
        (.ofRows o valueScale mode (page size rows (rows.length / size) ++ part)) =
      slotsOf o valueScale mode size (rows ++ part) (rows.length / size + 1) := by
  have hfull : (List.range (rows.length / size)).map
      (fun p => RowStore.ofRows o valueScale mode (page size rows p)) =
      (List.range (rows.length / size)).map
        fun p => RowStore.ofRows o valueScale mode (page size (rows ++ part) p) :=
    List.map_congr_left fun p hp => by rw [page_append_of_lt (List.mem_range.mp hp)]
  rw [slotsOf, slotsOf, List.range_succ, List.map_append, List.map_append, List.map_singleton,
    List.map_singleton, List.set_append_right _ _ (by rw [List.length_map, List.length_range]),
    List.length_map, List.length_range, Nat.sub_self, List.set_cons_zero, hfull,
    page_append_last hpart]

/-- **One part**, which the page in hand takes. -/
theorem appendPart_ofRows {done take : ℕ} (hpos : 0 < take)
    (htake : take ≤ size - rows.length % size) (hdone : done + take ≤ batch.length) :
    (ofRows o valueScale mode hsize rows).appendPart o (batch.flatMap KvRow.k)
        (batch.flatMap KvRow.v) done take =
      .ok (ofRows o valueScale mode hsize (rows ++ (batch.drop done).take take)) := by
  have hk := @slice_flatMap_rows V _ KvRow.k (nKv * dQk) KvRow.length_k batch done (done + take)
    (Nat.le_add_right _ _) hdone
  have hv := @slice_flatMap_rows V _ KvRow.v (nKv * dV) KvRow.length_v batch done (done + take)
    (Nat.le_add_right _ _) hdone
  rw [Nat.add_sub_cancel_left] at hk hv
  have hlen : ((batch.drop done).take take).length = take := by
    rw [List.length_take, List.length_drop]
    omega
  generalize hpart : (batch.drop done).take take = part at hk hv hlen ⊢
  have hslot : (List.range (rows.length / size + 1))[rows.length / size]? =
      some (rows.length / size) := List.getElem?_range (Nat.lt_succ_self _)
  have hstore := @getElem?_slotsOf V o nKv dQk dV valueScale mode size rows
    (rows.length / size + 1) (rows.length / size) (Nat.lt_succ_self _)
  have happend := @RowStore.append_ofRows V o nKv dQk dV valueScale mode
    (page size rows (rows.length / size)) part
  rw [hlen] at happend
  rw [appendPart, reserve_ofRows]
  dsimp only [ofRows, RowStore.new]
  rw [orPanic_eq_ok hslot, ok_bind, orPanic_eq_ok hk, ok_bind, orPanic_eq_ok hv, ok_bind,
    orPanic_eq_ok hstore, ok_bind, happend, ok_bind, set_slotsOf o valueScale mode (hlen ▸ htake),
    List.length_append, hlen, pageCount_add hsize hpos htake]
  rfl

/-- **The parts of an append.** -/
theorem appendFrom_ofRows (batch : List (KvRow V nKv dQk dV)) (n : ℕ) :
    ∀ (rows : List (KvRow V nKv dQk dV)) (done : ℕ), done ≤ batch.length →
      batch.length - done = n →
      (ofRows o valueScale mode hsize rows).appendFrom o (batch.flatMap KvRow.k)
          (batch.flatMap KvRow.v) batch.length done =
        .ok (ofRows o valueScale mode hsize (rows ++ batch.drop done)) := by
  induction n using Nat.strong_induction_on with
  | _ n ih =>
    intro rows done hdone hn
    rw [appendFrom]
    split
    · next hlt =>
      have hpos := takeOf_pos (ofRows o valueScale mode hsize rows) hlt
      have htake : (ofRows o valueScale mode hsize rows).takeOf batch.length done ≤
          size - rows.length % size := Nat.min_le_left _ _
      have hrest : (ofRows o valueScale mode hsize rows).takeOf batch.length done ≤
          batch.length - done := Nat.min_le_right _ _
      generalize (ofRows o valueScale mode hsize rows).takeOf batch.length done = take at *
      rw [appendPart_ofRows o valueScale mode hsize hpos htake (by omega), ok_bind,
        ih (batch.length - (done + take)) (by omega) _ _ (by omega) rfl, List.append_assoc,
        ← List.drop_drop, List.take_append_drop]
    · next hge =>
      rw [List.drop_eq_nil_of_le (by omega), List.append_nil]

/-- **Appending rows** to the pages of rows. -/
theorem append_ofRows : (ofRows o valueScale mode hsize rows).append o (batch.flatMap KvRow.k)
    (batch.flatMap KvRow.v) batch.length = .ok (ofRows o valueScale mode hsize (rows ++ batch)) := by
  rw [append, appendFrom_ofRows o valueScale mode hsize batch batch.length rows 0 (Nat.zero_le _) rfl,
    List.drop_zero]

theorem readRange_self (rows : List (KvRow V nKv dQk dV)) (t : ℕ) :
    RowStore.readRange o valueScale mode rows t t = ([], []) := by
  rw [RowStore.readRange, Nat.sub_self, List.take_zero]
  rfl

/-- A range in two parts. -/
theorem readRange_split (rows : List (KvRow V nKv dQk dV)) {t m hi : ℕ} (h : t + m ≤ hi) :
    RowStore.readRange o valueScale mode rows t hi =
      ((RowStore.readRange o valueScale mode rows t (t + m)).1 ++
          (RowStore.readRange o valueScale mode rows (t + m) hi).1,
        (RowStore.readRange o valueScale mode rows t (t + m)).2 ++
          (RowStore.readRange o valueScale mode rows (t + m) hi).2) := by
  have hlen : hi - t = m + (hi - (t + m)) := by omega
  have hsplit : (rows.drop t).take (hi - t) =
      (rows.drop t).take m ++ (rows.drop (t + m)).take (hi - (t + m)) := by
    rw [hlen, List.take_add, List.drop_drop]
  simp only [RowStore.readRange, hsplit, List.flatMap_append, Nat.add_sub_cancel_left]

/-- **One part**, which a page has. -/
theorem rowsRange_page {t m : ℕ} (hpos : 0 < m) (hm : m ≤ size - t % size)
    (ht : t + m ≤ rows.length) :
    (RowStore.ofRows o valueScale mode (page size rows (t / size))).rowsRange o (t % size)
        (t % size + m) = .ok (RowStore.readRange o valueScale mode rows t (t + m)) := by
  have hdiv := Nat.div_add_mod' t size
  have hlen := @length_page _ size rows (t / size)
  have hin : t % size + m ≤ (page size rows (t / size)).length := by
    rw [hlen]
    omega
  have hne : page size rows (t / size) ≠ [] := by
    intro hnil
    rw [hnil, List.length_nil] at hin
    omega
  rw [RowStore.rowsRange_ofRows o valueScale mode hne (Nat.le_add_right _ _) hin,
    RowStore.readRange, RowStore.readRange, Nat.add_sub_cancel_left, Nat.add_sub_cancel_left,
    drop_take_page rows (show t % size + m ≤ size by omega), hdiv]

/-- **The parts of a range.** -/
theorem readFrom_ofRows (rows : List (KvRow V nKv dQk dV)) {hi : ℕ} (hhi : hi ≤ rows.length)
    (n : ℕ) : ∀ t, t ≤ hi → hi - t = n →
      (ofRows o valueScale mode hsize rows).readFrom o hi t =
        .ok (RowStore.readRange o valueScale mode rows t hi) := by
  induction n using Nat.strong_induction_on with
  | _ n ih =>
    intro t ht hn
    rw [readFrom]
    split
    · next hlt =>
      have hpos := readOf_pos (ofRows o valueScale mode hsize rows) hlt
      have htake : (ofRows o valueScale mode hsize rows).readOf hi t ≤ size - t % size :=
        Nat.min_le_left _ _
      have hrest : (ofRows o valueScale mode hsize rows).readOf hi t ≤ hi - t := Nat.min_le_right _ _
      have hcount := div_lt_pageCount hsize (hlt.trans_le hhi)
      have hslot : (List.range (pageCount size rows.length))[t / size]? = some (t / size) :=
        List.getElem?_range hcount
      have hstore := @getElem?_slotsOf V o nKv dQk dV valueScale mode size rows _ _ hcount
      have hread := @rowsRange_page V o nKv dQk dV valueScale mode size rows t
      generalize (ofRows o valueScale mode hsize rows).readOf hi t = m at *
      dsimp only [ofRows]
      rw [orPanic_eq_ok hslot, ok_bind, orPanic_eq_ok hstore, ok_bind, hread hpos htake (by omega),
        ok_bind]
      have hnext := ih (hi - (t + m)) (by omega) (t + m) (by omega) rfl
      rw [ofRows] at hnext
      rw [hnext, ok_bind, pure_eq_ok, ← readRange_split o valueScale mode rows (by omega)]
    · next hge =>
      obtain rfl : t = hi := by omega
      rw [readRange_self]

/-- **Reading the pages** is reading the rows. -/
theorem rowsRange_ofRows {lo hi : ℕ} (hlo : lo ≤ hi) (hhi : hi ≤ rows.length) :
    (ofRows o valueScale mode hsize rows).rowsRange o lo hi =
      .ok (RowStore.readRange o valueScale mode rows lo hi) := by
  have hin : hi ≤ (ofRows o valueScale mode hsize rows).nRows ∧ lo ≤ hi := ⟨hhi, hlo⟩
  rw [rowsRange, demand_eq_ok.mpr hin, ok_bind]
  exact readFrom_ofRows o valueScale mode hsize rows hhi (hi - lo) lo hlo rfl

/-- A page. -/
theorem pageRows_ofRows {p : ℕ} (hp : p < pageCount size rows.length) :
    (ofRows o valueScale mode hsize rows).pageRows o p =
      .ok ((page size rows p).flatMap (readK o mode),
        (page size rows p).flatMap (readV o valueScale mode)) := by
  have hstart : p * size < rows.length := by
    by_contra hge
    have hcount : pageCount size rows.length ≤ p := by
      rw [pageCount]
      refine Nat.le_of_lt_succ (Nat.div_lt_of_lt_mul ?_)
      rw [Nat.mul_comm, Nat.succ_mul]
      omega
    omega
  have hlen := @length_page _ size rows p
  have hslot : (List.range (pageCount size rows.length))[p]? = some p := List.getElem?_range hp
  have hstore := @getElem?_slotsOf V o nKv dQk dV valueScale mode size rows _ _ hp
  have hlt : p * size < min (p * size + size) rows.length := by omega
  have hend : min (p * size + size) rows.length - p * size = (page size rows p).length := by
    rw [hlen]
    omega
  have hne : page size rows p ≠ [] := by
    intro hnil
    rw [hnil, List.length_nil] at hlen
    omega
  rw [pageRows]
  dsimp only [ofRows]
  rw [orPanic_eq_ok hslot, ok_bind, demand_eq_ok.mpr hlt, ok_bind, orPanic_eq_ok hstore, ok_bind, hend,
    RowStore.rowsRange_ofRows o valueScale mode hne (Nat.zero_le _) le_rfl, RowStore.readRange,
    List.drop_zero, Nat.sub_zero, List.take_length]

/-- The pages as attention reads them. -/
def view (g : GaPaged V) : Attn.GaPaged V where
  nTokens := g.nRows
  pageTokens := g.pageTokens
  pageTokens_pos := g.pageTokens_pos
  rowsRange lo hi := (g.rowsRange o lo hi).toOption

/-- **What attention assumes** of a paged store holds of the pages of any rows. -/
theorem returns_view {spec : AttnSpec} (rows : List (KvRow V spec.nKv spec.dQk spec.dV)) :
    ((ofRows o valueScale mode hsize rows).view o).Returns spec (rows.flatMap (readK o mode))
      (rows.flatMap (readV o valueScale mode)) := by
  intro lo hi hlo hhi
  have hread := rowsRange_ofRows o valueScale mode hsize hlo hhi
  rw [view]
  dsimp only
  rw [hread, RowStore.readRange, drop_flatMap_rows (length_readK o mode),
    take_flatMap_rows (length_readK o mode), drop_flatMap_rows (length_readV o valueScale mode),
    take_flatMap_rows (length_readV o valueScale mode)]
  rfl

end GaPaged

/-! ### Appends -/

/-- The keys and the values of an append, and how many rows they are. -/
structure Batch (V : Type) where
  k : List V
  v : List V
  n : ℕ

/-- Keys and values of whole rows. -/
structure Batch.WellShaped (nKv dQk dV : ℕ) (b : Batch V) : Prop where
  k : b.k.length = b.n * (nKv * dQk)
  v : b.v.length = b.n * (nKv * dV)

section runs

variable (o : Fp8Ops V) {nKv dQk dV : ℕ} (valueScale : V) (mode : StoreMode) {size : ℕ}
  (hsize : 0 < size)

def RowStore.appendAll (s : RowStore V) (batches : List (Batch V)) : Except Stop (RowStore V) :=
  batches.foldlM (fun s b => s.append o b.k b.v b.n) s

def GaPaged.appendAll (g : GaPaged V) (batches : List (Batch V)) : Except Stop (GaPaged V) :=
  batches.foldlM (fun g b => g.append o b.k b.v b.n) g

/-- Whole rows are the rows that they are. -/
theorem Batch.WellShaped.exists_rows {b : Batch V} (h : b.WellShaped nKv dQk dV) :
    ∃ rows : List (KvRow V nKv dQk dV), rows.length = b.n ∧ rows.flatMap KvRow.k = b.k ∧
      rows.flatMap KvRow.v = b.v := by
  obtain ⟨k, v, n⟩ := b
  obtain ⟨hk, hv⟩ := h
  dsimp only at hk hv ⊢
  induction n generalizing k v with
  | zero =>
    rw [Nat.zero_mul] at hk hv
    rw [List.eq_nil_of_length_eq_zero hk, List.eq_nil_of_length_eq_zero hv]
    exact ⟨[], rfl, rfl, rfl⟩
  | succ n ih =>
    rw [Nat.succ_mul] at hk hv
    obtain ⟨rows, hlen, hkRows, hvRows⟩ := ih (k.drop (nKv * dQk)) (v.drop (nKv * dV))
      (by rw [List.length_drop]; omega) (by rw [List.length_drop]; omega)
    refine ⟨⟨k.take (nKv * dQk), v.take (nKv * dV), by rw [List.length_take]; omega,
      by rw [List.length_take]; omega⟩ :: rows, ?_, ?_, ?_⟩
    · rw [List.length_cons, hlen]
    · rw [List.flatMap_cons, hkRows, List.take_append_drop]
    · rw [List.flatMap_cons, hvRows, List.take_append_drop]

/-- **Both stores** hold the rows of the appends. -/
theorem appendAll_ofRows (batches : List (Batch V)) (h : ∀ b ∈ batches, b.WellShaped nKv dQk dV)
    (rows : List (KvRow V nKv dQk dV)) :
    ∃ rows' : List (KvRow V nKv dQk dV), rows'.length = rows.length + (batches.map Batch.n).sum ∧
      (RowStore.ofRows o valueScale mode rows).appendAll o batches =
        .ok (.ofRows o valueScale mode rows') ∧
      (GaPaged.ofRows o valueScale mode hsize rows).appendAll o batches =
        .ok (.ofRows o valueScale mode hsize rows') := by
  induction batches generalizing rows with
  | nil => exact ⟨rows, rfl, rfl, rfl⟩
  | cons b batches ih =>
    obtain ⟨hb, hbatches⟩ := List.forall_mem_cons.mp h
    obtain ⟨batch, hn, hk, hv⟩ := hb.exists_rows
    obtain ⟨rows', hlen, hflat, hpaged⟩ := ih hbatches (rows ++ batch)
    have hone := @RowStore.append_ofRows V o nKv dQk dV valueScale mode rows batch
    have hpage := @GaPaged.append_ofRows V o nKv dQk dV valueScale mode size hsize rows batch
    rw [hk, hv, hn] at hone hpage
    refine ⟨rows', ?_, ?_, ?_⟩
    · rw [hlen, List.length_append, hn, List.map_cons, List.sum_cons, Nat.add_assoc]
    · rw [RowStore.appendAll, List.foldlM_cons, hone, ok_bind]
      exact hflat
    · rw [GaPaged.appendAll, List.foldlM_cons, hpage, ok_bind]
      exact hpaged

/-- **Pages are the flat store.** Whatever whole rows are appended, in pages of any size, what is
read of any range is what one store of the same appends gives, and the pages in order are all of
it. -/
theorem paged_eq_flat (batches : List (Batch V)) (h : ∀ b ∈ batches, b.WellShaped nKv dQk dV)
    (hrows : 0 < (batches.map Batch.n).sum) :
    ∃ flat paged, (RowStore.new valueScale mode nKv dQk dV).appendAll o batches = .ok flat ∧
      (GaPaged.new valueScale mode hsize nKv dQk dV).appendAll o batches = .ok paged ∧
      flat.nRows = (batches.map Batch.n).sum ∧ paged.nRows = flat.nRows ∧
      (∀ lo hi, lo ≤ hi → hi ≤ flat.nRows → ∃ kv, flat.rowsRange o lo hi = .ok kv ∧
        paged.rowsRange o lo hi = .ok kv) ∧
      ∃ parts, (List.range paged.pageTable.length).mapM (paged.pageRows o) = .ok parts ∧
        flat.rowsRange o 0 flat.nRows = .ok (parts.flatMap (·.1), parts.flatMap (·.2)) := by
  obtain ⟨rows, hlen, hflat, hpaged⟩ := appendAll_ofRows o valueScale mode hsize batches h []
  rw [RowStore.ofRows_nil] at hflat
  rw [GaPaged.ofRows_nil] at hpaged
  rw [List.length_nil, Nat.zero_add] at hlen
  obtain ⟨-, -, -, -, -, hn⟩ := RowStore.ofRows_fields o valueScale mode rows
  have hne : rows ≠ [] := fun hnil => by
    rw [hnil, List.length_nil] at hlen
    omega
  refine ⟨_, _, hflat, hpaged, hn.trans hlen, hn.symm, fun lo hi hlo hhi => ?_, ?_⟩
  · rw [hn] at hhi
    exact ⟨_, RowStore.rowsRange_ofRows o valueScale mode hne hlo hhi,
      GaPaged.rowsRange_ofRows o valueScale mode hsize hlo hhi⟩
  · have hcount : (GaPaged.ofRows o valueScale mode hsize rows).pageTable.length =
        pageCount size rows.length := List.length_range
    refine ⟨(List.range (pageCount size rows.length)).map fun p =>
      ((page size rows p).flatMap (readK o mode),
        (page size rows p).flatMap (readV o valueScale mode)), ?_, ?_⟩
    · rw [hcount]
      exact mapM_eq_ok fun p hp => GaPaged.pageRows_ofRows o valueScale mode hsize
        (List.mem_range.mp hp)
    · rw [hn, RowStore.rowsRange_ofRows o valueScale mode hne (Nat.zero_le _) le_rfl,
        RowStore.readRange, List.drop_zero, Nat.sub_zero, List.take_length, List.flatMap_map,
        List.flatMap_map, flatMap_pages hsize, flatMap_pages hsize]

end runs

/-- Small whole numbers and their codes. -/
def smallOps : Fp8Ops ℤ where
  one := 1
  mul := (· * ·)
  div := (· / ·)
  exceeds x := 448 < |x|
  encode x := if x = 1 then 0x38 else if x = 2 then 0x40 else if x = 3 then 0x44 else 0x48
  decode c := if c = 0x38 then 1 else if c = 0x40 then 2 else if c = 0x44 then 3 else 4
  planeScale _ := 1

/-- Three rows and two more, in pages of two. -/
theorem paged_eq_flat_five : ∃ flat paged,
    (RowStore.new 1 .fp8Unit 1 1 1).appendAll smallOps [⟨[1, 2, 3], [1, 1, 2], 3⟩, ⟨[4, 2], [2, 3], 2⟩]
      = .ok flat ∧
    (GaPaged.new 1 .fp8Unit (show 0 < 2 by decide) 1 1 1).appendAll smallOps
      [⟨[1, 2, 3], [1, 1, 2], 3⟩, ⟨[4, 2], [2, 3], 2⟩] = .ok paged ∧
    paged.rowsRange smallOps 1 4 = flat.rowsRange smallOps 1 4 := by
  obtain ⟨flat, paged, hflat, hpaged, hn, -, hread, -⟩ := @paged_eq_flat ℤ smallOps 1 1 1 1 .fp8Unit 2
    (by decide) [⟨[1, 2, 3], [1, 1, 2], 3⟩, ⟨[4, 2], [2, 3], 2⟩]
    (List.forall_mem_cons.mpr ⟨⟨rfl, rfl⟩, List.forall_mem_cons.mpr ⟨⟨rfl, rfl⟩,
      List.forall_mem_nil _⟩⟩) (by decide)
  obtain ⟨kv, hone, hpages⟩ := hread 1 4 (by decide) (by rw [hn]; decide)
  exact ⟨flat, paged, hflat, hpaged, hpages.trans hone.symm⟩

end Cache

end Attn

end Mimo26

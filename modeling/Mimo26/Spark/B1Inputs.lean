import Mimo26.Wire.View

/-!
# What the B1 kernels are given

The serve loop (`serve.rs`) gathers the batch of a request twice over: from the decoded frame, and
from the frame where it lies. The kernels (`b1.rs`) read rows at a pitch.

## Main definitions

* `b1Inputs`, `serveB1View` — the batch of a decoded frame, and of a view

## Main results

* `b1_agrees` — both gather the same batch, or both refuse
-/

namespace Mimo26

namespace Spark

open Wire Result

/-- Why a request is not served: a wire error, or its shape. -/
inductive ServeError where
  | wire (e : WireError)
  | shape (text : String)
  deriving DecidableEq, Repr

/-- The bytes of the scales of a row. -/
def scaleLen : ℕ := hiddenDim / 32

/-- Payload, scales, expert ids and weights. -/
abbrev B1Inputs := List UInt8 × List UInt8 × List Int32 × List UInt32

/-- The routes of row `i`. -/
def rowRoutes (routes : List RouteEntry) (i : ℕ) (row : RowDescriptor) :
    Except ServeError (List RouteEntry) := do
  let n := row.routeCount.toNat
  demand (row.routeCount = 8) (.shape s!"serve b1: row {i} has {n} routes, want 8")
  let off := row.routeOffset.toNat
  demand (off + 8 ≤ routes.length) (.shape "serve b1: route range out of bounds")
  ((routes.drop off).take 8).mapM fun r => do
    let k := r.rowIndex.toNat
    demand (k = i) (.shape s!"serve b1: route row {k} under row {i}")
    return r

/-- The ids and weights of routes. -/
def idsWeights (picked : List RouteEntry) : List Int32 × List UInt32 :=
  (picked.map (·.expertId.toInt32), picked.map RouteEntry.gateWeight)

def b1Inputs (request : RequestFrame) : Except ServeError B1Inputs := do
  let tokens := request.rows.length
  let n := request.hiddenRows.length
  demand (n = tokens) (.shape s!"serve b1: {n} hidden rows for {tokens} rows")
  request.hiddenRows.forM fun h =>
    demand (h.payload.length = hiddenDim ∧ h.scales.length = scaleLen)
      (.shape "serve b1: hidden row is not 4,096 E4M3 + 128 scales")
  let picked ← request.rows.zipIdx.mapM fun (row, i) => rowRoutes request.routes i row
  let (ids, weights) := idsWeights picked.flatten
  return (request.hiddenRows.flatMap HiddenRow.payload, request.hiddenRows.flatMap HiddenRow.scales,
    ids,
    weights)

/-- An error of the view. -/
def liftWire {α : Type} (x : Except WireError α) : Except ServeError α := x.mapError .wire

/-- The routes of row `i` of a view. -/
def viewRoutes (view : RequestView) (i : ℕ) : Except ServeError (List RouteEntry) := do
  let row ← liftWire (view.row i)
  let n := row.routeCount.toNat
  demand (row.routeCount = 8) (.shape s!"serve b1: row {i} has {n} routes, want 8")
  let off := row.routeOffset.toNat
  (List.range 8).mapM fun j => do
    let r ← liftWire (view.route (off + j))
    let k := r.rowIndex.toNat
    demand (k = i) (.shape s!"serve b1: route row {k} under row {i}")
    return r

/-- The hidden rows where they lie, their stride, and the ids and weights. -/
def serveB1View (view : RequestView) :
    Except ServeError (List UInt8 × ℕ × List Int32 × List UInt32) := do
  let stride := view.rowStride
  demand (stride = hiddenDim + scaleLen)
    (.shape s!"serve b1: hidden row stride {stride} is not 4,096 E4M3 + 128 scales")
  let picked ← (List.range view.rows).mapM (viewRoutes view)
  let (ids, weights) := idsWeights picked.flatten
  return (view.hidden, stride, ids, weights)

/-- What `ffn_raw` reads of a buffer: rows of one width at a pitch. -/
def pitched (buf : List UInt8) (pitch width rows : ℕ) : List (List UInt8) :=
  (List.range rows).map fun i => Bytes.slice buf (i * pitch) width

/-- What the kernels compute on. -/
structure B1Batch where
  payload : List (List UInt8)
  scales : List (List UInt8)
  ids : List Int32
  weights : List UInt32
  deriving DecidableEq

/-- The batch of `ffn`. -/
def ffnBatch (rows : ℕ) : B1Inputs → B1Batch
  | (payload, scales, ids, weights) =>
    ⟨pitched payload hiddenDim hiddenDim rows, pitched scales scaleLen scaleLen rows, ids, weights⟩

/-- The batch of `ffn_strided`. -/
def ffnStridedBatch (rows : ℕ) : List UInt8 × ℕ × List Int32 × List UInt32 → B1Batch
  | (hidden, stride, ids, weights) =>
    ⟨pitched hidden stride hiddenDim rows, pitched (hidden.drop hiddenDim) stride scaleLen rows,
      ids, weights⟩

/-! ### The two batches -/

theorem pitched_eq {buf : List UInt8} {pitch width : ℕ} {α : Type} {l : List α} {g : α → List UInt8}
    (h : ∀ (i : ℕ) (hi : i < l.length), Bytes.slice buf (i * pitch) width = g l[i]) :
    pitched buf pitch width l.length = l.map g := by
  refine List.ext_getElem (by simp [pitched]) fun i hi hi' => ?_
  rw [List.length_map] at hi'
  simp only [pitched, List.getElem_map, List.getElem_range]
  exact h i hi'

section Agree

variable {view : RequestView} {f : RequestFrame} (h : view.Exposes f)

include h

/-- A row's routes read from a view. -/
theorem viewRoutes_eq {i : ℕ} (hi : i < f.rows.length) :
    viewRoutes view i = rowRoutes f.routes i f.rows[i] := by
  rw [viewRoutes, rowRoutes, h.row i hi]
  change demand _ _ >>= _ = _
  by_cases hcount : f.rows[i].routeCount = 8
  · have hin := h.inRange f.rows[i] (List.getElem_mem hi)
    rw [hcount] at hin
    have hoff : f.rows[i].routeOffset.toNat + 8 ≤ f.routes.length := hin
    rw [demand_eq_ok.mpr hcount, ok_bind, ok_bind]
    dsimp only
    rw [demand_eq_ok.mpr hoff, ok_bind]
    have hlen : ((f.routes.drop f.rows[i].routeOffset.toNat).take 8).length = 8 := by
      rw [List.length_take, List.length_drop]
      omega
    have hrange : List.range 8 =
        List.range ((f.routes.drop f.rows[i].routeOffset.toNat).take 8).length := by rw [hlen]
    rw [hrange]
    refine mapM_range_congr fun j hj => ?_
    have hj' : f.rows[i].routeOffset.toNat + j < f.routes.length := by omega
    rw [h.route _ hj', List.getElem_take, List.getElem_drop]
    rfl
  · have hrefused (e : ServeError) : demand (f.rows[i].routeCount = 8) e = .error e := if_neg hcount
    rw [hrefused]
    rfl

theorem picked_eq : (List.range view.rows).mapM (viewRoutes view) =
    f.rows.zipIdx.mapM fun (row, i) => rowRoutes f.routes i row := by
  rw [h.rows, ← List.length_zipIdx]
  refine mapM_range_congr fun i hi => ?_
  rw [List.getElem_zipIdx, Nat.zero_add]
  exact viewRoutes_eq h (by rwa [List.length_zipIdx] at hi)

/-- The rows at their pitch are the frame's. -/
theorem pitched_hidden (hstride : view.rowStride = hiddenDim + scaleLen) :
    pitched view.hidden view.rowStride hiddenDim view.rows = f.hiddenRows.map HiddenRow.payload ∧
      pitched (view.hidden.drop hiddenDim) view.rowStride scaleLen view.rows =
        f.hiddenRows.map HiddenRow.scales := by
  have hlen : ∀ r ∈ f.hiddenRows, (r.payload ++ r.scales).length = view.rowStride := by
    intro r hr
    rw [List.length_append]
    exact (h.stride r hr).2
  have hcount : view.rows = f.hiddenRows.length := h.rows.trans h.hiddenRows.symm
  have hrow (i : ℕ) (hi : i < f.hiddenRows.length) : Bytes.slice view.hidden (i * view.rowStride)
      view.rowStride = f.hiddenRows[i].payload ++ f.hiddenRows[i].scales := by
    rw [h.hidden]
    exact Bytes.slice_flatMap hlen hi
  have hslice (i o n : ℕ) (hi : i < f.hiddenRows.length) (hon : o + n ≤ view.rowStride) :
      Bytes.slice view.hidden (i * view.rowStride + o) n =
        Bytes.slice (f.hiddenRows[i].payload ++ f.hiddenRows[i].scales) o n := by
    rw [← hrow i hi, Bytes.slice_slice hon]
  rw [hcount]
  constructor
  · refine pitched_eq fun i hi => ?_
    have hpayload := (h.stride _ (List.getElem_mem hi)).1
    have hfirst := hslice i 0 hiddenDim hi (by omega)
    rw [Nat.add_zero, Bytes.slice_append_left (by omega)] at hfirst
    rw [hfirst, ← hpayload, Bytes.slice_zero_length]
  · refine pitched_eq fun i hi => ?_
    obtain ⟨hpayload, hsum⟩ := h.stride _ (List.getElem_mem hi)
    have hscales : f.hiddenRows[i].scales.length = scaleLen := by omega
    have hsecond := hslice i hiddenDim scaleLen hi (by omega)
    rw [Bytes.slice_append_right (by omega), hpayload, Nat.sub_self, ← hscales,
      Bytes.slice_zero_length] at hsecond
    rw [← hsecond, Bytes.slice, Bytes.slice, List.drop_drop, Nat.add_comm hiddenDim, hscales]

/-- **Both readers give the kernels one batch**, or both refuse. -/
theorem b1_agrees : (∃ e e', b1Inputs f = .error e ∧ serveB1View view = .error e') ∨
    ∃ x y, b1Inputs f = .ok x ∧ serveB1View view = .ok y ∧
      ffnBatch f.rows.length x = ffnStridedBatch view.rows y := by
  have hchecked : (f.hiddenRows.forM fun r =>
      demand (r.payload.length = hiddenDim ∧ r.scales.length = scaleLen)
        (ServeError.shape "serve b1: hidden row is not 4,096 E4M3 + 128 scales")) = .ok () ↔
      view.rowStride = hiddenDim + scaleLen := by
    rw [forM_eq_ok]
    constructor
    · intro hall
      obtain ⟨r, hr⟩ := List.exists_mem_of_ne_nil f.hiddenRows fun hnil =>
        h.rows_ne (List.length_eq_zero_iff.mp (by rw [← h.hiddenRows, hnil]; rfl))
      obtain ⟨hpayload, hscales⟩ := demand_eq_ok.mp (hall r hr)
      rw [← (h.stride r hr).2, hpayload, hscales]
    · intro hstride r hr
      obtain ⟨hpayload, hsum⟩ := h.stride r hr
      exact demand_eq_ok.mpr ⟨hpayload, by omega⟩
  rw [b1Inputs, serveB1View]
  dsimp only
  rw [demand_eq_ok.mpr h.hiddenRows, ok_bind]
  by_cases hstride : view.rowStride = hiddenDim + scaleLen
  · rw [hchecked.mpr hstride, ok_bind, demand_eq_ok.mpr hstride, ok_bind, picked_eq h]
    cases hpicked : f.rows.zipIdx.mapM fun x => rowRoutes f.routes x.2 x.1 with
    | error e => exact .inl ⟨e, e, rfl, rfl⟩
    | ok picked =>
      refine .inr ⟨_, _, rfl, rfl, ?_⟩
      obtain ⟨hpayload, hscales⟩ := pitched_hidden h hstride
      have hfirst : ∀ r ∈ f.hiddenRows, r.payload.length = hiddenDim := fun r hr =>
          (h.stride r hr).1
      have hsecond : ∀ r ∈ f.hiddenRows, r.scales.length = scaleLen := by
        intro r hr
        obtain ⟨hpayload, hsum⟩ := h.stride r hr
        omega
      have hcopied := pitched_eq (g := HiddenRow.payload) fun i hi => Bytes.slice_flatMap hfirst hi
      have hcopied' := pitched_eq (g := HiddenRow.scales) fun i hi => Bytes.slice_flatMap hsecond hi
      rw [ffnBatch, ffnStridedBatch, hpayload, hscales, ← h.hiddenRows, hcopied, hcopied']
  · cases hrows : f.hiddenRows.forM fun r =>
      demand (r.payload.length = hiddenDim ∧ r.scales.length = scaleLen)
        (ServeError.shape "serve b1: hidden row is not 4,096 E4M3 + 128 scales") with
    | ok u => exact absurd (hchecked.mp hrows) hstride
    | error e =>
      rw [demand, if_neg hstride]
      exact .inl ⟨e, _, rfl, rfl⟩

end Agree

/-- **One meaning of a request's bytes**: the view is parsed where the frame is decoded, reads as
it, is refused with its disposition, and gives the kernels its batch. -/
theorem view_refines_frame (bytes : List UInt8) (naive : WireNaive) (nocrc : Bool) :
    ReadAlike (∀ h, parseHeader bytes naive = .ok h → h.kind = kindRequest)
      (RequestView.parse bytes naive nocrc) (decodeFrame bytes naive nocrc) ∧
    ∀ view f, RequestView.parse bytes naive nocrc = .ok view →
      decodeFrame bytes naive nocrc = .ok (.request f) →
      (∃ e e', b1Inputs f = .error e ∧ serveB1View view = .error e') ∨
      ∃ x y, b1Inputs f = .ok x ∧ serveB1View view = .ok y ∧
        ffnBatch f.rows.length x = ffnStridedBatch view.rows y := by
  have hread := readAlike_parse bytes naive nocrc
  refine ⟨hread, fun view f hview hf => ?_⟩
  obtain ⟨view', hview', hexposes⟩ := hread.exposes f hf
  obtain rfl := Except.ok.inj (hview.symm.trans hview')
  exact b1_agrees hexposes

theorem view_refines_frame_oneRow : ∃ bytes view,
    RequestView.parse bytes .none false = .ok view ∧ view.Exposes { oneRow with seq := 5 } ∧
      ((∃ e e', b1Inputs { oneRow with seq := 5 } = .error e ∧ serveB1View view = .error e') ∨
      ∃ x y, b1Inputs { oneRow with seq := 5 } = .ok x ∧ serveB1View view = .ok y ∧
        ffnBatch 1 x = ffnStridedBatch view.rows y) := by
  obtain ⟨bytes, henc⟩ : ∃ bytes, encodeRequestSeq oneRow 5 .none false = .ok bytes :=
    ⟨_, encodeRequestSeq_eq_ok.mpr ⟨encodable_oneRow, rfl⟩⟩
  have hf := decodeFrame_encodeRequestSeq henc
  obtain ⟨hread, hbatch⟩ := view_refines_frame bytes .none false
  obtain ⟨view, hview, hexposes⟩ := hread.exposes _ hf
  exact ⟨bytes, view, hview, hexposes, hbatch view _ hview hf⟩

end Spark

end Mimo26

import Mimo26.Wire.FrameRoundTrip

/-!
# Requests validated in place

`RequestView` (`frame.rs`) checks a request where it lies and reads its entries on demand;
`decode_frame` copies them out. The two run their checks in different orders, so one text can be
refused for two reasons, but never with two dispositions.

## Main definitions

* `RequestView`, `RequestView.parse` — the view, and its checks
* `RequestView.Exposes` — a view that reads as a frame

## Main results

* `readAlike_parse` — a view is parsed exactly where a request is decoded, and reads as it
-/

namespace Mimo26

namespace Wire

open Result

structure RequestView where
  requestId : UInt64
  placementVersion : UInt64
  layerId : UInt32
  executorId : UInt64
  sourceKind : SourceKind
  tokenPosition : UInt64
  flags : UInt32
  seq : UInt64
  rows : ℕ
  routes : ℕ
  rowStride : ℕ
  naive : WireNaive
  body : List UInt8
  routeBase : ℕ
  hiddenBase : ℕ

namespace RequestView

def row (view : RequestView) (i : ℕ) : Except WireError RowDescriptor :=
  rowDescriptorFromWire view.body (i * rowDescriptorLen) view.naive

def route (view : RequestView) (j : ℕ) : Except WireError RouteEntry :=
  routeEntryFromWire view.body (view.routeBase + j * routeEntryLen) view.naive

/-- The hidden rows: for each the payload, then its scales. -/
def hidden (view : RequestView) : List UInt8 := view.body.drop view.hiddenBase

def checkRow (view : RequestView) (i : ℕ) : Except WireError Unit := do
  let row ← view.row i
  ensure (row.routeOffset.toNat + row.routeCount.toNat ≤ view.routes) (.routeRangeBad i)

def checkRoute (view : RequestView) (j : ℕ) : Except WireError Unit := do
  let r ← view.route j
  ensure (r.rowIndex.toNat < view.rows) (.routeRowMismatch j r.rowIndex (UInt32.ofNat view.rows))

/-- Validates `bytes` as one request frame. -/
def parse (bytes : List UInt8) (naive : WireNaive) (nocrc : Bool) :
    Except WireError RequestView := do
  let h ← parseHeader bytes naive
  verifyCrc bytes naive nocrc h.seq
  ensure (h.kind = kindRequest) (.badKind h.kind)
  ensure (h.rowCount ≠ 0) (.dimMismatch "row_count" 1 0)
  let rows := h.rowCount.toNat
  let routes := h.routeCount.toNat
  let rowDescriptorBytes ← checkedMul rows rowDescriptorLen "row_descriptor_bytes"
  let routeBytes ← checkedMul routes routeEntryLen "route_bytes"
  ensure (h.rowDescriptorBytes.toNat = rowDescriptorBytes)
    (.dimMismatch "row_descriptor_bytes" rowDescriptorBytes h.rowDescriptorBytes.toNat)
  ensure (h.routeBytes.toNat = routeBytes)
    (.dimMismatch "route_bytes" routeBytes h.routeBytes.toNat)
  ensure (h.dim.toNat = hiddenDim) (.dimMismatch "hidden_dim" hiddenDim h.dim.toNat)
  ensure (h.dtype = .fp8E4m3Ue8m0K32 ∨ h.dtype = .fp8E4m3RowScaled)
    (.dimMismatch "request_payload_dtype" Dtype.fp8E4m3Ue8m0K32.raw.toNat
      (h.dtype.code naive).toNat)
  let stride := h.rowStrideBytes.toNat
  ensure (hiddenDim ≤ stride) (.dimMismatch "row_stride_bytes" hiddenDim stride)
  let payloadBytes ← checkedMul rows stride "payload_bytes"
  ensure (h.payloadBytes.toNat = payloadBytes)
    (.dimMismatch "payload_bytes" payloadBytes h.payloadBytes.toNat)
  let body := bytes.drop headerLen
  ensure (body.length = rowDescriptorBytes + routeBytes + payloadBytes)
    (.dimMismatch "body_len" (rowDescriptorBytes + routeBytes + payloadBytes) body.length)
  let view : RequestView :=
    { requestId := h.requestId
      placementVersion := h.placementVersion
      layerId := h.layerId
      executorId := h.executorId
      sourceKind := h.sourceKind
      tokenPosition := h.tokenPosition
      flags := h.flags
      seq := h.seq
      rows := rows
      routes := routes
      rowStride := stride
      naive := naive
      body := body
      routeBase := rowDescriptorBytes
      hiddenBase := rowDescriptorBytes + routeBytes }
  (List.range rows).forM view.checkRow
  (List.range routes).forM view.checkRoute
  return view

/-- The view reads as the frame, entry by entry. -/
structure Exposes (view : RequestView) (f : RequestFrame) : Prop where
  requestId : view.requestId = f.requestId
  placementVersion : view.placementVersion = f.placementVersion
  layerId : view.layerId = f.layerId
  executorId : view.executorId = f.executorId
  sourceKind : view.sourceKind = f.sourceKind
  tokenPosition : view.tokenPosition = f.tokenPosition
  flags : view.flags = f.flags
  seq : view.seq = f.seq
  rows : view.rows = f.rows.length
  routes : view.routes = f.routes.length
  row : ∀ i (hi : i < f.rows.length), view.row i = .ok f.rows[i]
  route : ∀ j (hj : j < f.routes.length), view.route j = .ok f.routes[j]
  hidden : view.hidden = f.hiddenRows.flatMap fun r => r.payload ++ r.scales
  hiddenRows : f.hiddenRows.length = f.rows.length
  stride : ∀ r ∈ f.hiddenRows, r.payload.length = hiddenDim ∧
    r.payload.length + r.scales.length = view.rowStride
  rows_ne : f.rows ≠ []
  inRange : ∀ r ∈ f.rows, r.routeOffset.toNat + r.routeCount.toNat ≤ f.routes.length

end RequestView

/-! ### The checks of both readers -/

/-- The checks made before an entry is read: the bytes of the descriptors and of the routes. -/
def requestGeometry (h : HeaderFields) (bytes : List UInt8) (naive : WireNaive) :
    Except WireError (ℕ × ℕ) := do
  ensure (h.rowCount ≠ 0) (.dimMismatch "row_count" 1 0)
  let rowDescriptorBytes ← checkedMul h.rowCount.toNat rowDescriptorLen "row_descriptor_bytes"
  let routeBytes ← checkedMul h.routeCount.toNat routeEntryLen "route_bytes"
  ensure (h.rowDescriptorBytes.toNat = rowDescriptorBytes)
    (.dimMismatch "row_descriptor_bytes" rowDescriptorBytes h.rowDescriptorBytes.toNat)
  ensure (h.routeBytes.toNat = routeBytes)
    (.dimMismatch "route_bytes" routeBytes h.routeBytes.toNat)
  ensure (h.dim.toNat = hiddenDim) (.dimMismatch "hidden_dim" hiddenDim h.dim.toNat)
  ensure (h.dtype = .fp8E4m3Ue8m0K32 ∨ h.dtype = .fp8E4m3RowScaled)
    (.dimMismatch "request_payload_dtype" Dtype.fp8E4m3Ue8m0K32.raw.toNat
      (h.dtype.code naive).toNat)
  ensure (hiddenDim ≤ h.rowStrideBytes.toNat)
    (.dimMismatch "row_stride_bytes" hiddenDim h.rowStrideBytes.toNat)
  let payloadBytes ← checkedMul h.rowCount.toNat h.rowStrideBytes.toNat "payload_bytes"
  ensure (h.payloadBytes.toNat = payloadBytes)
    (.dimMismatch "payload_bytes" payloadBytes h.payloadBytes.toNat)
  ensure ((bytes.drop headerLen).length = rowDescriptorBytes + routeBytes + payloadBytes)
    (.dimMismatch "body_len" (rowDescriptorBytes + routeBytes + payloadBytes)
      (bytes.drop headerLen).length)
  return (rowDescriptorBytes, routeBytes)

/-- What `decodeRequest` does after them. -/
def decodeEntries (h : HeaderFields) (body : List UInt8) (naive : WireNaive) (a b : ℕ) :
    Except WireError RequestFrame := do
  let rowsVec ← (List.range h.rowCount.toNat).mapM fun i =>
    rowDescriptorFromWire body (i * rowDescriptorLen) naive
  let routesVec ← (List.range h.routeCount.toNat).mapM fun j =>
    routeEntryFromWire body (a + j * routeEntryLen) naive
  validateRowsRoutes rowsVec routesVec
  return { requestId := h.requestId
           placementVersion := h.placementVersion
           layerId := h.layerId
           executorId := h.executorId
           sourceKind := h.sourceKind
           tokenPosition := h.tokenPosition
           flags := h.flags
           seq := h.seq
           rows := rowsVec
           routes := routesVec
           hiddenRows := (List.range h.rowCount.toNat).map fun i =>
            HiddenRow.mk (Bytes.slice body (a + b + i * h.rowStrideBytes.toNat) hiddenDim)
              (Bytes.slice body (a + b + i * h.rowStrideBytes.toNat + hiddenDim)
                (h.rowStrideBytes.toNat - hiddenDim)) }

/-- The view of a request. -/
def viewOf (h : HeaderFields) (body : List UInt8) (naive : WireNaive) (a b : ℕ) : RequestView where
  requestId := h.requestId
  placementVersion := h.placementVersion
  layerId := h.layerId
  executorId := h.executorId
  sourceKind := h.sourceKind
  tokenPosition := h.tokenPosition
  flags := h.flags
  seq := h.seq
  rows := h.rowCount.toNat
  routes := h.routeCount.toNat
  rowStride := h.rowStrideBytes.toNat
  naive := naive
  body := body
  routeBase := a
  hiddenBase := a + b

/-- What `RequestView.parse` does after them. -/
def checkEntries (view : RequestView) : Except WireError RequestView := do
  (List.range view.rows).forM view.checkRow
  (List.range view.routes).forM view.checkRoute
  return view

theorem decodeRequest_eq (h : HeaderFields) (bytes : List UInt8) (naive : WireNaive) :
    decodeRequest h bytes naive = requestGeometry h bytes naive >>= fun (a, b) =>
      decodeEntries h (bytes.drop headerLen) naive a b := by
  simp only [decodeRequest, requestGeometry, decodeEntries, bind_assoc, pure_bind]

theorem parse_eq (bytes : List UInt8) (naive : WireNaive) (nocrc : Bool) :
    RequestView.parse bytes naive nocrc = (do
      let h ← parseHeader bytes naive
      verifyCrc bytes naive nocrc h.seq
      ensure (h.kind = kindRequest) (.badKind h.kind)
      let (a, b) ← requestGeometry h bytes naive
      checkEntries (viewOf h (bytes.drop headerLen) naive a b)) := by
  simp only [RequestView.parse, requestGeometry, checkEntries, viewOf, bind_assoc, pure_bind]

theorem requestGeometry_eq_ok {h : HeaderFields} {bytes : List UInt8} {naive : WireNaive} {a b : ℕ}
    (hok : requestGeometry h bytes naive = .ok (a, b)) :
    h.rowCount ≠ 0 ∧ a = h.rowCount.toNat * rowDescriptorLen ∧
      b = h.routeCount.toNat * routeEntryLen ∧
      hiddenDim ≤ h.rowStrideBytes.toNat ∧
      (bytes.drop headerLen).length = a + b + h.rowCount.toNat * h.rowStrideBytes.toNat := by
  simp only [requestGeometry, bind_eq_ok, ensure_eq_ok, checkedMul_eq_ok, pure_eq_ok,
    decide_eq_true_eq, Except.ok.injEq, Prod.mk.injEq] at hok
  obtain ⟨_, hrows, _, ⟨-, rfl⟩, _, ⟨-, rfl⟩, _, -, _, -, _, -, _, -, _, hstride, _, ⟨-, rfl⟩, _, -,
    _, hbody,
    rfl, rfl⟩ := hok
  exact ⟨hrows, rfl, rfl, hstride, hbody⟩

/-! ### Failing loud -/

/-- Every error means to stop. -/
def FailsLoud {α : Type} (x : Except WireError α) : Prop :=
  ∀ e, x = .error e → e.disposition = .failLoud

section Loud

variable {α β : Type}

theorem failsLoud_ok (a : α) : FailsLoud (.ok a : Except WireError α) := fun _ h => nomatch h

theorem failsLoud_of_ok {x : Except WireError α} {a : α} (h : x = .ok a) : FailsLoud x := by
  rw [h]
  exact failsLoud_ok a

theorem FailsLoud.bind {x : Except WireError α} {f : α → Except WireError β} (hx : FailsLoud x)
    (hf : ∀ a, x = .ok a → FailsLoud (f a)) : FailsLoud (x >>= f) := by
  intro e he
  rcases bind_eq_error.mp he with h | ⟨a, ha, h⟩
  · exact hx e h
  · exact hf a ha e h

theorem failsLoud_ensure {c : Bool} {e : WireError} (h : e.disposition = .failLoud) :
    FailsLoud (ensure c e) := by
  intro e' he
  cases c with
  | true => exact nomatch he
  | false =>
    obtain rfl := Except.error.inj he
    exact h

theorem failsLoud_mapM {f : α → Except WireError β} {l : List α} (h : ∀ a ∈ l, FailsLoud (f a)) :
    FailsLoud (l.mapM f) := by
  induction l with
  | nil => exact failsLoud_ok []
  | cons a l ih =>
    obtain ⟨ha, hl⟩ := List.forall_mem_cons.mp h
    rw [List.mapM_cons]
    exact ha.bind fun b _ => (ih hl).bind fun bs _ => failsLoud_ok _

theorem failsLoud_forM {f : α → Except WireError PUnit} {l : List α}
    (h : ∀ a ∈ l, FailsLoud (f a)) :
    FailsLoud (l.forM f) := by
  induction l with
  | nil => exact failsLoud_ok PUnit.unit
  | cons a l ih =>
    obtain ⟨ha, hl⟩ := List.forall_mem_cons.mp h
    rw [List.forM_eq_forM, List.forM_cons]
    exact ha.bind fun _ _ => ih hl

end Loud

section Entries

variable {bytes : List UInt8} {off : ℕ}

/-- A number inside its bytes is read. -/
theorem exists_getLe {w : ℕ} (h : off + w ≤ bytes.length) : ∃ x, getLe w bytes off = .ok x := by
  rw [getLe, if_pos h]
  exact ⟨_, rfl⟩

theorem failsLoud_getU16 (h : off + 2 ≤ bytes.length) : FailsLoud (getU16 bytes off) := by
  obtain ⟨x, hx⟩ := exists_getLe h
  rw [getU16, hx]
  exact failsLoud_ok _

theorem failsLoud_getU32 (h : off + 4 ≤ bytes.length) : FailsLoud (getU32 bytes off) := by
  obtain ⟨x, hx⟩ := exists_getLe h
  rw [getU32, hx]
  exact failsLoud_ok _

theorem failsLoud_getU64 (h : off + 8 ≤ bytes.length) : FailsLoud (getU64 bytes off) := by
  obtain ⟨x, hx⟩ := exists_getLe h
  rw [getU64, hx]
  exact failsLoud_ok _

theorem failsLoud_sourceKind (code : UInt16) : FailsLoud (SourceKind.fromCode code) := by
  intro e he
  rw [SourceKind.fromCode] at he
  split_ifs at he
  obtain rfl := Except.error.inj he
  rfl

variable {naive : WireNaive}

theorem descIdOffsets_le (naive : WireNaive) :
    (descIdOffsets naive).1 + 8 ≤ rowDescriptorLen ∧
        (descIdOffsets naive).2 + 8 ≤ rowDescriptorLen := by
  rw [descIdOffsets]
  split <;> decide

theorem routeOffsets_le (naive : WireNaive) :
    (routeOffsets naive).1 + 4 ≤ routeEntryLen ∧ (routeOffsets naive).2 + 4 ≤ routeEntryLen := by
  rw [routeOffsets]
  split <;> decide

/-- A descriptor inside its bytes is read, or its code is bad. -/
theorem failsLoud_rowDescriptor (h : off + rowDescriptorLen ≤ bytes.length) :
    FailsLoud (rowDescriptorFromWire bytes off naive) := by
  have hlen := Bytes.length_slice h
  have hle {o w : ℕ} (ho : o + w ≤ rowDescriptorLen) :
      o + w ≤ (Bytes.slice bytes off rowDescriptorLen).length := by rwa [hlen]
  obtain ⟨hfirst, hsecond⟩ := descIdOffsets_le naive
  rw [rowDescriptorFromWire, ensure_pos h, ok_bind]
  refine (failsLoud_getU64 (hle (by decide))).bind fun _ _ => ?_
  refine (failsLoud_getU16 (hle (by decide))).bind fun _ _ => ?_
  refine (failsLoud_sourceKind _).bind fun _ _ => ?_
  refine (failsLoud_getU64 (hle hfirst)).bind fun _ _ => ?_
  refine (failsLoud_getU64 (hle hsecond)).bind fun _ _ => ?_
  refine (failsLoud_getU32 (hle (by decide))).bind fun _ _ => ?_
  exact (failsLoud_getU32 (hle (by decide))).bind fun _ _ => failsLoud_ok _

theorem failsLoud_routeEntry (h : off + routeEntryLen ≤ bytes.length) :
    FailsLoud (routeEntryFromWire bytes off naive) := by
  have hlen := Bytes.length_slice h
  have hle {o w : ℕ} (ho : o + w ≤ routeEntryLen) :
      o + w ≤ (Bytes.slice bytes off routeEntryLen).length := by rwa [hlen]
  obtain ⟨hfirst, hsecond⟩ := routeOffsets_le naive
  rw [routeEntryFromWire, ensure_pos h, ok_bind]
  refine (failsLoud_getU32 (hle (by decide))).bind fun _ _ => ?_
  refine (failsLoud_getU32 (hle hfirst)).bind fun _ _ => ?_
  exact (failsLoud_getU32 (hle hsecond)).bind fun _ _ => failsLoud_ok _

end Entries

/-- What `validateRowsRoutes` checks. -/
theorem validateRowsRoutes_eq_ok {rows : List RowDescriptor} {routes : List RouteEntry} :
    validateRowsRoutes rows routes = .ok () ↔
      (∀ row ∈ rows, row.routeOffset.toNat + row.routeCount.toNat ≤ routes.length) ∧
        ∀ r ∈ routes, r.rowIndex.toNat < rows.length := by
  rw [validateRowsRoutes]
  cases hrow : rows.findIdx? fun row => routes.length < row.routeOffset.toNat +
    row.routeCount.toNat with
  | some i =>
    refine iff_of_false (fun h => nomatch h) fun h => ?_
    obtain ⟨hi, hlt, -⟩ := List.findIdx?_eq_some_iff_getElem.mp hrow
    have hle := h.1 rows[i] (List.getElem_mem hi)
    simp only [decide_eq_true_eq] at hlt
    exact absurd hle (Nat.not_le.mpr hlt)
  | none =>
    have hrows := List.findIdx?_eq_none_iff.mp hrow
    simp only [decide_eq_false_iff_not, Nat.not_lt] at hrows
    cases hroute : routes.zipIdx.find? fun rj => decide (rows.length ≤ rj.1.rowIndex.toNat) with
    | some rj =>
      refine iff_of_false (fun h => nomatch h) fun h => ?_
      have hle := List.find?_some hroute
      have hlt := h.2 rj.1 (List.fst_mem_of_mem_zipIdx (List.mem_of_find?_eq_some hroute))
      simp only [decide_eq_true_eq] at hle
      exact absurd hlt (Nat.not_lt.mpr hle)
    | none =>
      have hroutes := List.find?_eq_none.mp hroute
      refine iff_of_true rfl ⟨hrows, fun r hr => ?_⟩
      obtain ⟨j, hj⟩ := List.mem_iff_getElem?.mp hr
      have hlt := hroutes (r, j) (List.mk_mem_zipIdx_iff_getElem?.mpr hj)
      simpa using hlt

theorem failsLoud_validateRowsRoutes (rows : List RowDescriptor) (routes : List RouteEntry) :
    FailsLoud (validateRowsRoutes rows routes) := by
  intro e he
  rw [validateRowsRoutes] at he
  split at he
  · obtain rfl := Except.error.inj he
    rfl
  · split at he
    · obtain rfl := Except.error.inj he
      rfl
    · cases he

/-! ### Two readers of one request -/

theorem checkRow_eq_ok {view : RequestView} {i : ℕ} : view.checkRow i = .ok () ↔
    ∃ row, view.row i = .ok row ∧ row.routeOffset.toNat + row.routeCount.toNat ≤ view.routes := by
  rw [RequestView.checkRow, bind_eq_ok]
  exact exists_congr fun row => and_congr_right fun _ => ensure_eq_ok.trans decide_eq_true_iff

theorem checkRoute_eq_ok {view : RequestView} {j : ℕ} : view.checkRoute j = .ok () ↔
    ∃ r, view.route j = .ok r ∧ r.rowIndex.toNat < view.rows := by
  rw [RequestView.checkRoute, bind_eq_ok]
  exact exists_congr fun r => and_congr_right fun _ => ensure_eq_ok.trans decide_eq_true_iff

theorem checkEntries_eq_ok {view v : RequestView} : checkEntries view = .ok v ↔
    v = view ∧ (∀ i < view.rows, view.checkRow i = .ok ()) ∧
      ∀ j < view.routes, view.checkRoute j = .ok () := by
  rw [checkEntries]
  constructor
  · intro h
    obtain ⟨⟨⟩, hrows, h⟩ := bind_eq_ok.mp h
    obtain ⟨⟨⟩, hroutes, h⟩ := bind_eq_ok.mp h
    refine ⟨(Except.ok.inj h).symm, fun i hi => ?_, fun j hj => ?_⟩
    · exact forM_eq_ok.mp hrows i (List.mem_range.mpr hi)
    · exact forM_eq_ok.mp hroutes j (List.mem_range.mpr hj)
  · rintro ⟨rfl, hrows, hroutes⟩
    rw [forM_eq_ok.mpr fun i hi => hrows i (List.mem_range.mp hi), ok_bind,
      forM_eq_ok.mpr fun j hj => hroutes j (List.mem_range.mp hj)]
    rfl

section Agree

variable {h : HeaderFields} {body : List UInt8} {naive : WireNaive} {a b : ℕ}

/-- A request decoded is one the view accepts and reads. -/
theorem exposes_viewOf (hcount : h.rowCount ≠ 0) (ha : a = h.rowCount.toNat * rowDescriptorLen)
    (hstride : hiddenDim ≤ h.rowStrideBytes.toNat)
    (hbody : body.length = a + b + h.rowCount.toNat * h.rowStrideBytes.toNat) {f : RequestFrame}
    (hf : decodeEntries h body naive a b = .ok f) :
    checkEntries (viewOf h body naive a b) = .ok (viewOf h body naive a b) ∧
      (viewOf h body naive a b).Exposes f := by
  obtain ⟨rows, hrows, hf⟩ := bind_eq_ok.mp hf
  obtain ⟨routes, hroutes, hf⟩ := bind_eq_ok.mp hf
  obtain ⟨⟨⟩, hvalid, hf⟩ := bind_eq_ok.mp hf
  obtain rfl := Except.ok.inj hf
  obtain ⟨hrowsLen, hrow⟩ := mapM_range_eq_ok_iff.mp hrows
  obtain ⟨hroutesLen, hroute⟩ := mapM_range_eq_ok_iff.mp hroutes
  obtain ⟨hrange, hindex⟩ := validateRowsRoutes_eq_ok.mp hvalid
  constructor
  · refine checkEntries_eq_ok.mpr ⟨rfl, fun i hi => ?_, fun j hj => ?_⟩
    · have hi' : i < rows.length := hrowsLen ▸ hi
      refine checkRow_eq_ok.mpr ⟨rows[i], hrow i hi', ?_⟩
      exact (hrange _ (List.getElem_mem hi')).trans_eq hroutesLen
    · have hj' : j < routes.length := hroutesLen ▸ hj
      refine checkRoute_eq_ok.mpr ⟨routes[j], hroute j hj', ?_⟩
      exact (hindex _ (List.getElem_mem hj')).trans_eq hrowsLen
  · have hlen (i : ℕ) (hi : i < h.rowCount.toNat) :
        a + b + i * h.rowStrideBytes.toNat + h.rowStrideBytes.toNat ≤ body.length := by
      have hmul := Nat.mul_le_mul_right h.rowStrideBytes.toNat hi
      rw [Nat.succ_mul] at hmul
      omega
    refine ⟨rfl, rfl, rfl, rfl, rfl, rfl, rfl, rfl, hrowsLen.symm, hroutesLen.symm, hrow, hroute,
      ?_, ?_,
      ?_, ?_, hrange⟩
    · have hdrop : (body.drop (a + b)).length = h.rowCount.toNat * h.rowStrideBytes.toNat := by
        rw [List.length_drop, hbody, Nat.add_sub_cancel_left]
      rw [List.flatMap_map, RequestView.hidden, viewOf, ← Bytes.flatMap_slice hdrop]
      refine List.flatMap_congr fun i _ => ?_
      rw [← Bytes.slice_add, Nat.add_sub_cancel' hstride, Bytes.slice, Bytes.slice, List.drop_drop]
    · simp [hrowsLen]
    · intro r hr
      obtain ⟨i, hi, rfl⟩ := List.mem_map.mp hr
      have hin := hlen i (List.mem_range.mp hi)
      have hpayload : (Bytes.slice body (a + b + i * h.rowStrideBytes.toNat) hiddenDim).length =
          hiddenDim := Bytes.length_slice (by omega)
      have hscales : (Bytes.slice body (a + b + i * h.rowStrideBytes.toNat + hiddenDim)
          (h.rowStrideBytes.toNat - hiddenDim)).length = h.rowStrideBytes.toNat - hiddenDim :=
        Bytes.length_slice (by omega)
      refine ⟨hpayload, ?_⟩
      rw [hpayload, hscales]
      exact Nat.add_sub_cancel' hstride
    · rintro rfl
      exact hcount (UInt32.toNat_inj.mp hrowsLen.symm)

/-- A request the view accepts decodes. -/
theorem exists_decodeEntries {v : RequestView} (hv : checkEntries (viewOf h body naive a b) =
    .ok v) :
    ∃ f, decodeEntries h body naive a b = .ok f := by
  obtain ⟨-, hrows, hroutes⟩ := checkEntries_eq_ok.mp hv
  obtain ⟨rows, hmapRows⟩ := exists_mapM_eq_ok (l := List.range h.rowCount.toNat)
    (f := fun i => rowDescriptorFromWire body (i * rowDescriptorLen) naive) fun i hi => by
      obtain ⟨row, hrow, -⟩ := checkRow_eq_ok.mp (hrows i (List.mem_range.mp hi))
      exact ⟨row, hrow⟩
  obtain ⟨routes, hmapRoutes⟩ := exists_mapM_eq_ok (l := List.range h.routeCount.toNat)
    (f := fun j => routeEntryFromWire body (a + j * routeEntryLen) naive) fun j hj => by
      obtain ⟨r, hr, -⟩ := checkRoute_eq_ok.mp (hroutes j (List.mem_range.mp hj))
      exact ⟨r, hr⟩
  obtain ⟨hrowsLen, hrow⟩ := mapM_range_eq_ok_iff.mp hmapRows
  obtain ⟨hroutesLen, hroute⟩ := mapM_range_eq_ok_iff.mp hmapRoutes
  have hvalid : validateRowsRoutes rows routes = .ok () := by
    refine validateRowsRoutes_eq_ok.mpr ⟨fun row hmem => ?_, fun r hmem => ?_⟩
    · obtain ⟨i, hi, rfl⟩ := List.getElem_of_mem hmem
      obtain ⟨row, hread, hle⟩ := checkRow_eq_ok.mp (hrows i (hi.trans_eq hrowsLen))
      obtain rfl := Except.ok.inj (hread.symm.trans (hrow i hi))
      exact hle.trans_eq hroutesLen.symm
    · obtain ⟨j, hj, rfl⟩ := List.getElem_of_mem hmem
      obtain ⟨r, hread, hlt⟩ := checkRoute_eq_ok.mp (hroutes j (hj.trans_eq hroutesLen))
      obtain rfl := Except.ok.inj (hread.symm.trans (hroute j hj))
      exact hlt.trans_eq hrowsLen.symm
  rw [decodeEntries, hmapRows, ok_bind, hmapRoutes, ok_bind, hvalid]
  exact ⟨_, rfl⟩

/-- Neither reader asks for an entry again. -/
theorem failsLoud_entries (ha : a = h.rowCount.toNat * rowDescriptorLen)
    (hb : b = h.routeCount.toNat * routeEntryLen) (hbody : a + b ≤ body.length) :
    FailsLoud (decodeEntries h body naive a b) ∧
        FailsLoud (checkEntries (viewOf h body naive a b)) := by
  have hrow (i : ℕ) (hi : i ∈ List.range h.rowCount.toNat) :
      FailsLoud (rowDescriptorFromWire body (i * rowDescriptorLen) naive) := by
    have hmul := Nat.mul_le_mul_right rowDescriptorLen (List.mem_range.mp hi)
    rw [Nat.succ_mul] at hmul
    exact failsLoud_rowDescriptor (by omega)
  have hroute (j : ℕ) (hj : j ∈ List.range h.routeCount.toNat) :
      FailsLoud (routeEntryFromWire body (a + j * routeEntryLen) naive) := by
    have hmul := Nat.mul_le_mul_right routeEntryLen (List.mem_range.mp hj)
    rw [Nat.succ_mul] at hmul
    exact failsLoud_routeEntry (by omega)
  constructor
  · refine (failsLoud_mapM hrow).bind fun rows _ => (failsLoud_mapM hroute).bind fun routes _ => ?_
    exact (failsLoud_validateRowsRoutes rows routes).bind fun _ _ => failsLoud_ok _
  · refine (failsLoud_forM fun i hi => (hrow i hi).bind fun row _ => failsLoud_ensure rfl).bind
      fun _ _ => ?_
    exact (failsLoud_forM fun j hj => (hroute j hj).bind fun r _ => failsLoud_ensure rfl).bind
      fun _ _ => failsLoud_ok _

end Agree

/-- What the two readers make of the same bytes; `request` says that these are of the request kind.
-/
structure ReadAlike (request : Prop) (viewed : Except WireError RequestView)
    (decoded : Except WireError Frame) : Prop where
  decodes : ∀ view, viewed = .ok view → ∃ f, decoded = .ok (.request f)
  exposes : ∀ f, decoded = .ok (.request f) → ∃ view, viewed = .ok view ∧ view.Exposes f
  refused : request → ∀ e, decoded = .error e →
    ∃ e', viewed = .error e' ∧ e'.disposition = e.disposition

theorem readAlike_error (request : Prop) (e : WireError) :
    ReadAlike request (.error e) (.error e) where
  decodes := nofun
  exposes := nofun
  refused _ e' he := ⟨e', congrArg Except.error (Except.error.inj he), rfl⟩

/-- The entries of a request. -/
theorem readAlike_entries {h : HeaderFields} {bytes : List UInt8} {naive : WireNaive} {a b : ℕ}
    (hgeometry : requestGeometry h bytes naive = .ok (a, b)) (request : Prop) :
    ReadAlike request (checkEntries (viewOf h (bytes.drop headerLen) naive a b))
      ((decodeEntries h (bytes.drop headerLen) naive a b).map .request) := by
  obtain ⟨hcount, ha, hb, hstride, hbody⟩ := requestGeometry_eq_ok hgeometry
  have hloud : FailsLoud (decodeEntries h (bytes.drop headerLen) naive a b) ∧
      FailsLoud (checkEntries (viewOf h (bytes.drop headerLen) naive a b)) :=
    failsLoud_entries ha hb (hbody ▸ Nat.le_add_right (a + b) _)
  obtain ⟨hdecode, hcheck⟩ := hloud
  cases hf : decodeEntries h (bytes.drop headerLen) naive a b with
  | ok f =>
    obtain ⟨hv, hexposes⟩ := exposes_viewOf hcount ha hstride hbody hf
    refine ⟨fun _ _ => ⟨f, rfl⟩, fun f' hf' => ⟨_, hv, ?_⟩, fun _ _ he => nomatch he⟩
    obtain rfl := Frame.request.inj (Except.ok.inj hf')
    exact hexposes
  | error e =>
    cases hv : checkEntries (viewOf h (bytes.drop headerLen) naive a b) with
    | ok view =>
      obtain ⟨f, hf'⟩ := exists_decodeEntries hv
      exact nomatch hf.symm.trans hf'
    | error e' =>
      refine ⟨nofun, nofun, fun _ e'' he => ⟨e', rfl, ?_⟩⟩
      obtain rfl := Except.error.inj he
      rw [hdecode e hf, hcheck e' hv]

/-- **A view is parsed exactly where a request is decoded**, and reads as it; what is refused as a
request is refused with one disposition. -/
theorem readAlike_parse (bytes : List UInt8) (naive : WireNaive) (nocrc : Bool) :
    ReadAlike (∀ h, parseHeader bytes naive = .ok h → h.kind = kindRequest)
      (RequestView.parse bytes naive nocrc) (decodeFrame bytes naive nocrc) := by
  rw [parse_eq, decodeFrame]
  cases hheader : parseHeader bytes naive with
  | error e => exact readAlike_error _ e
  | ok h =>
    rw [ok_bind, ok_bind]
    cases hcrc : verifyCrc bytes naive nocrc h.seq with
    | error e => exact readAlike_error _ e
    | ok u =>
      rw [ok_bind, ok_bind]
      by_cases hkind : h.kind = kindRequest
      · rw [ensure_pos hkind, ok_bind, if_pos hkind, decodeRequest_eq]
        cases hgeometry : requestGeometry h bytes naive with
        | error e => exact readAlike_error _ e
        | ok ab => exact readAlike_entries hgeometry _
      · rw [ensure, if_neg (by simpa using hkind), if_neg hkind]
        refine ⟨fun _ h => (by cases h), fun f hf => ?_, fun hrequest => absurd (hrequest h rfl) hkind⟩
        split at hf
        · obtain ⟨r, -, hr⟩ := bind_eq_ok.mp hf
          cases Except.ok.inj hr
        · cases hf

end Wire

end Mimo26

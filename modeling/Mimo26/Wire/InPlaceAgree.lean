import Mimo26.Wire.InPlace
import Mimo26.Wire.View

/-!
# In-place frames are frames

A frame assembled from what an in-place encoder wrote and what the caller fills in, sealed, is byte
for byte the frame that the owning encoder makes, with or without the wrong implementations. The
buffer may hold anything before.

## Main definitions

* `InPlace.frame` — the frame a caller sends
* `decodeRequestFrame` — the request that an in-place encoder lays out

## Main results

* `encodeRequestSeq_of_inPlace` — the two agree on the header
* `inPlace_agree` — the three in-place encoders against the owning ones
-/

namespace Mimo26

namespace Wire

open Result

/-- The frame a caller sends: the header, and the body with the fills written into the buffer. -/
def InPlace.frame (r : InPlace) (body : List UInt8) (fills : List (ℕ × List UInt8)) : List UInt8 :=
  r.header ++ (Bytes.putAll (Bytes.put body 0 r.written) fills).take r.bodyLen

/-- The bytes of hidden rows: the payload of each, then its scales. -/
def hiddenBytes (hiddenRows : List HiddenRow) : List UInt8 :=
  hiddenRows.flatMap fun h => h.payload ++ h.scales

/-- The request that an in-place encoder lays out. -/
def decodeRequestFrame (requestId : UInt64) (layerId : UInt32) (executorId : UInt64)
    (rows : List RowDescriptor) (routes : List RouteEntry) (hiddenRows : List HiddenRow) :
    RequestFrame where
  requestId := requestId
  placementVersion := 1
  layerId := layerId
  executorId := executorId
  sourceKind := .decode
  tokenPosition := 0
  flags := 0
  seq := 0
  rows := rows
  routes := routes
  hiddenRows := hiddenRows

variable {naive : WireNaive} {nocrc : Bool} {requestId executorId seq : UInt64} {layerId : UInt32}

theorem bodyLayout_eq_ok {rows routes capacity : ℕ} {l : BodyLayout} :
    bodyLayout rows routes capacity naive = .ok l ↔
      (rows * rowDescriptorLen ≤ usizeMax ∧ routes * routeEntryLen ≤ usizeMax ∧
        rows * hiddenRowBytes naive ≤ usizeMax ∧ rows * requestRowBytes naive ≤ usizeMax) ∧
      l = ⟨rows * rowDescriptorLen, routes * routeEntryLen, rows * hiddenRowBytes naive,
        rows * requestRowBytes naive⟩ ∧ l.bodyLen ≤ capacity := by
  rw [bodyLayout]
  simp only [bind_eq_ok, checkedMul_eq_ok, ensure_eq_ok, pure_eq_ok, decide_eq_true_eq,
    Except.ok.injEq]
  constructor
  · rintro ⟨_, ⟨hd, rfl⟩, _, ⟨hr, rfl⟩, _, ⟨hp, rfl⟩, _, ⟨hlog, rfl⟩, -, hfits, rfl⟩
    exact ⟨⟨hd, hr, hp, hlog⟩, rfl, hfits⟩
  · rintro ⟨⟨hd, hr, hp, hlog⟩, rfl, hfits⟩
    exact ⟨_, ⟨hd, rfl⟩, _, ⟨hr, rfl⟩, _, ⟨hp, rfl⟩, _, ⟨hlog, rfl⟩, (), hfits, rfl⟩

/-- **The headers agree**, so the owning encoder makes the same frame of the same body. -/
theorem encodeRequestSeq_of_inPlace {rows : List RowDescriptor} {routes : List RouteEntry}
    {hiddenRows : List HiddenRow} {capacity : ℕ} {l : BodyLayout} {header : List UInt8}
    (hrows : rows ≠ []) (hlen : hiddenRows.length = rows.length)
    (hhidden : ∀ h ∈ hiddenRows,
      h.payload.length = hiddenDim ∧ h.scales.length = hiddenRowBytes naive - hiddenDim)
    (hvalid : validateRowsRoutes rows routes = .ok ())
    (hl : bodyLayout rows.length routes.length capacity naive = .ok l)
    (hheader : inPlaceHeader l requestId layerId executorId seq rows.length routes.length naive =
      .ok header) :
    encodeRequestSeq (decodeRequestFrame requestId layerId executorId rows routes hiddenRows) seq
        naive nocrc =
      .ok (sealFrame (header ++ requestBody
        (decodeRequestFrame requestId layerId executorId rows routes hiddenRows) naive)
          naive nocrc) := by
  obtain ⟨⟨hd, hr, hp, hlog⟩, rfl, -⟩ := bodyLayout_eq_ok.mp hl
  rw [inPlaceHeader] at hheader
  simp only [bind_eq_ok, asU32_eq_ok, pure_eq_ok, Except.ok.injEq] at hheader
  obtain ⟨_, ⟨hrowCount, rfl⟩, _, ⟨hrouteCount, rfl⟩, _, ⟨hdesc, rfl⟩, _, ⟨hroute, rfl⟩, _,
    ⟨hstride, rfl⟩, rfl⟩ := hheader
  have hwire : headerLen + (rows.length * rowDescriptorLen + routes.length * routeEntryLen +
      rows.length * hiddenRowBytes naive) ≤ usizeMax := by
    have hpayload : rows.length * hiddenRowBytes naive ≤ 2 ^ 27 * 2 ^ 32 := by
      rw [rowDescriptorLen] at hdesc
      exact Nat.mul_le_mul (by omega) hstride.le
    rw [headerLen, usizeMax]
    omega
  rw [encodeRequestSeq]
  simp only [bind_eq_ok, ensure_eq_ok, checkedMul_eq_ok, asU32_eq_ok, pure_eq_ok,
    decide_eq_true_eq]
  exact ⟨(), hrows, (), hlen, (), hvalid, (), checkHiddenRows_eq_ok.mpr hhidden, _, ⟨hd, rfl⟩,
    _, ⟨hr, rfl⟩, _, ⟨hp, rfl⟩, _, ⟨hlog, rfl⟩, (), hwire, _, ⟨hrowCount, rfl⟩,
    _, ⟨hrouteCount, rfl⟩, _, ⟨hdesc, rfl⟩, _, ⟨hroute, rfl⟩, _, ⟨hstride, rfl⟩, rfl⟩

theorem length_hiddenBytes {hiddenRows : List HiddenRow}
    (hhidden : ∀ h ∈ hiddenRows,
      h.payload.length = hiddenDim ∧ h.scales.length = hiddenRowBytes naive - hiddenDim) :
    (hiddenBytes hiddenRows).length = hiddenRows.length * hiddenRowBytes naive := by
  have hle : hiddenDim ≤ hiddenRowBytes naive := by
    rw [hiddenRowBytes]
    split <;> exact Nat.le_add_right _ _
  refine Bytes.length_flatMap_of_forall fun h hh => ?_
  rw [List.length_append, (hhidden h hh).1, (hhidden h hh).2, Nat.add_sub_cancel' hle]

@[simp] theorem length_decodeRows (requestId : UInt64) (rows topk : ℕ) :
    (decodeRows requestId rows topk).length = rows := by
  rw [decodeRows, List.length_map, List.length_range]

theorem length_decodeRoutes (routes : List (UInt32 × UInt32)) (rows topk : ℕ) :
    (decodeRoutes routes rows topk).length = rows * topk := by
  simp [decodeRoutes, List.length_flatMap]

/-- The frame that is sent has what the encoder and the caller wrote, and nothing else of the
buffer. -/
theorem InPlace.frame_eq {r : InPlace} {body : List UInt8} {fills : List (ℕ × List UInt8)}
    (hside : Bytes.Adjacent r.written.length fills)
    (hlen : r.bodyLen = r.written.length + (fills.flatMap (·.2)).length)
    (hfit : r.bodyLen ≤ body.length) :
    r.frame body fills = r.header ++ (r.written ++ fills.flatMap (·.2)) := by
  have hparts : Bytes.putAll (Bytes.put body 0 r.written) fills =
      Bytes.putAll body ((0, r.written) :: fills) := rfl
  have hadjacent : Bytes.Adjacent 0 ((0, r.written) :: fills) :=
    ⟨rfl, by rwa [Nat.zero_add]⟩
  have hall : (((0, r.written) :: fills).flatMap (·.2)).length = r.bodyLen := by
    rw [List.flatMap_cons, List.length_append, hlen]
  rw [frame, hparts, Bytes.putAll_adjacent hadjacent (by rw [hall, Nat.zero_add]; exact hfit),
    List.take_zero, List.nil_append, ← hall, List.take_left, List.flatMap_cons]

theorem requestBody_eq {rows : List RowDescriptor} {routes : List RouteEntry}
    {hiddenRows : List HiddenRow} :
    requestBody (decodeRequestFrame requestId layerId executorId rows routes hiddenRows) naive =
      rows.flatMap (rowDescriptorWire · naive) ++
        (routes.flatMap (routeEntryWire · naive) ++ hiddenBytes hiddenRows) := rfl

theorem length_rowDescriptors (rows : List RowDescriptor) :
    (rows.flatMap (rowDescriptorWire · naive)).length = rows.length * rowDescriptorLen :=
  Bytes.length_flatMap_of_forall fun row _ => length_rowDescriptorWire row naive

theorem length_routeEntries (routes : List RouteEntry) :
    (routes.flatMap (routeEntryWire · naive)).length = routes.length * routeEntryLen :=
  Bytes.length_flatMap_of_forall fun r _ => length_routeEntryWire r naive

/-- **In-place requests with routes.** -/
theorem encodeRequestMetaInto_agrees {body : List UInt8} {routes : List (UInt32 × UInt32)}
    {topk : ℕ} {hiddenRows : List HiddenRow} {r : InPlace}
    (hr : encodeRequestMetaInto body.length requestId layerId executorId seq routes topk naive =
      .ok r)
    (hlen : hiddenRows.length = routes.length / topk)
    (hhidden : ∀ h ∈ hiddenRows,
      h.payload.length = hiddenDim ∧ h.scales.length = hiddenRowBytes naive - hiddenDim) :
    encodeRequestSeq (decodeRequestFrame requestId layerId executorId
        (decodeRows requestId (routes.length / topk) topk)
        (decodeRoutes routes (routes.length / topk) topk) hiddenRows) seq naive nocrc =
      .ok (sealFrame (r.frame body [(r.hiddenOffset, hiddenBytes hiddenRows)]) naive nocrc) := by
  rw [encodeRequestMetaInto] at hr
  simp only [bind_eq_ok, ensure_eq_ok, pure_eq_ok, decide_eq_true_eq, Except.ok.injEq] at hr
  obtain ⟨⟨⟩, ⟨htopk, hroutes, hmod⟩, l, hl, ⟨⟩, hvalid, header, hheader, rfl⟩ := hr
  have hcount : (decodeRoutes routes (routes.length / topk) topk).length = routes.length := by
    rw [length_decodeRoutes, Nat.div_mul_cancel (Nat.dvd_of_mod_eq_zero hmod)]
  have hpos : 0 < routes.length / topk := by
    refine Nat.div_pos (Nat.le_of_dvd ?_ (Nat.dvd_of_mod_eq_zero hmod)) (Nat.pos_of_ne_zero htopk)
    exact List.length_pos_of_ne_nil hroutes
  obtain ⟨-, rfl, hfit⟩ := bodyLayout_eq_ok.mp hl
  rw [encodeRequestSeq_of_inPlace
    (List.ne_nil_of_length_pos (by rwa [length_decodeRows])) (by rw [hlen, length_decodeRows])
    hhidden hvalid
    (show bodyLayout _ _ body.length naive = _ by rw [length_decodeRows, hcount]; exact hl)
    (by rw [length_decodeRows, hcount]; exact hheader)]
  refine congrArg (fun frame => Except.ok (sealFrame frame naive nocrc)) ?_
  rw [requestBody_eq, InPlace.frame_eq]
  · rw [List.flatMap_singleton, List.append_assoc]
  · refine ⟨?_, trivial⟩
    rw [List.length_append, length_rowDescriptors, length_routeEntries, length_decodeRows, hcount]
  · rw [List.flatMap_singleton, length_hiddenBytes hhidden, List.length_append,
      length_rowDescriptors, length_routeEntries, length_decodeRows, hcount, hlen]
    rfl
  · exact hfit

/-- The rows of an in-place request name routes of its table, so the routes decide whether it is a
request. -/
theorem validateRowsRoutes_decodeRows {rows topk : ℕ} {routes : List RouteEntry}
    (hlt : rows * topk < 2 ^ 32) (hlen : routes.length = rows * topk) :
    validateRowsRoutes (decodeRows requestId rows topk) routes = .ok () ↔
      ∀ e ∈ routes, e.rowIndex.toNat < rows := by
  rw [validateRowsRoutes_eq_ok, length_decodeRows]
  refine and_iff_right fun row hrow => ?_
  obtain ⟨t, ht, rfl⟩ := List.mem_map.mp hrow
  have hrange : t * topk + topk ≤ rows * topk := by
    rw [← Nat.succ_mul]
    exact Nat.mul_le_mul_right topk (List.mem_range.mp ht)
  have hoffset : (UInt32.ofNat (t * topk)).toNat = t * topk :=
    UInt32.toNat_ofNat_of_lt' (show t * topk < 2 ^ 32 by omega)
  have hcount : (UInt32.ofNat topk).toNat = topk :=
    UInt32.toNat_ofNat_of_lt' (show topk < 2 ^ 32 by omega)
  show (UInt32.ofNat (t * topk)).toNat + (UInt32.ofNat topk).toNat ≤ _
  rw [hoffset, hcount, hlen]
  exact hrange

theorem validateRowsRoutes_of_encodeRequestSeq {f : RequestFrame} {bytes : List UInt8}
    (henc : encodeRequestSeq f seq naive nocrc = .ok bytes) :
    validateRowsRoutes f.rows f.routes = .ok () := by
  rw [encodeRequestSeq] at henc
  simp only [bind_eq_ok] at henc
  obtain ⟨⟨⟩, -, ⟨⟩, -, ⟨⟩, hvalid, -⟩ := henc
  exact hvalid

theorem routes_lt_of_descInto {capacity rows topkOf : ℕ} {r : InPlace}
    (hr : encodeRequestDescInto capacity requestId layerId executorId seq rows topkOf naive =
      .ok r) : rows * topkOf < 2 ^ 32 := by
  rw [encodeRequestDescInto] at hr
  simp only [bind_eq_ok, checkedMul_eq_ok] at hr
  obtain ⟨⟨⟩, -, _, ⟨-, rfl⟩, l, -, header, hheader, -⟩ := hr
  rw [inPlaceHeader] at hheader
  simp only [bind_eq_ok, asU32_eq_ok] at hheader
  obtain ⟨_, -, _, ⟨hlt, -⟩, -⟩ := hheader
  exact hlt

/-- **In-place requests without routes.** -/
theorem encodeRequestDescInto_agrees {body : List UInt8} {rows topkOf : ℕ}
    {routes : List RouteEntry} {hiddenRows : List HiddenRow} {r : InPlace}
    (hr : encodeRequestDescInto body.length requestId layerId executorId seq rows topkOf naive =
      .ok r)
    (hroutes : routes.length = rows * topkOf) (hlen : hiddenRows.length = rows)
    (hhidden : ∀ h ∈ hiddenRows,
      h.payload.length = hiddenDim ∧ h.scales.length = hiddenRowBytes naive - hiddenDim)
    (hindex : ∀ e ∈ routes, e.rowIndex.toNat < rows) :
    encodeRequestSeq (decodeRequestFrame requestId layerId executorId
        (decodeRows requestId rows topkOf) routes hiddenRows) seq naive nocrc =
      .ok (sealFrame (r.frame body [(r.routesOffset, routes.flatMap (routeEntryWire · naive)),
        (r.hiddenOffset, hiddenBytes hiddenRows)]) naive nocrc) := by
  have hlt := routes_lt_of_descInto hr
  rw [encodeRequestDescInto] at hr
  simp only [bind_eq_ok, ensure_eq_ok, pure_eq_ok, decide_eq_true_eq, checkedMul_eq_ok,
    Except.ok.injEq] at hr
  obtain ⟨-, ⟨hrows, htopk, -⟩, _, ⟨-, rfl⟩, l, hl, header, hheader, rfl⟩ := hr
  obtain ⟨-, rfl, hfit⟩ := bodyLayout_eq_ok.mp hl
  rw [encodeRequestSeq_of_inPlace
    (List.ne_nil_of_length_pos (by rw [length_decodeRows]; exact Nat.pos_of_ne_zero hrows))
    (by rw [hlen, length_decodeRows]) hhidden
    ((validateRowsRoutes_decodeRows hlt hroutes).mpr hindex)
    (show bodyLayout _ _ body.length naive = _ by rw [length_decodeRows, hroutes]; exact hl)
    (by rw [length_decodeRows, hroutes]; exact hheader)]
  refine congrArg (fun frame => Except.ok (sealFrame frame naive nocrc)) ?_
  have hfills : [(rows * rowDescriptorLen, routes.flatMap (routeEntryWire · naive)),
      (rows * rowDescriptorLen + rows * topkOf * routeEntryLen, hiddenBytes hiddenRows)].flatMap
        (·.2) = routes.flatMap (routeEntryWire · naive) ++ hiddenBytes hiddenRows := by
    rw [List.flatMap_cons, List.flatMap_singleton]
  rw [requestBody_eq, InPlace.frame_eq]
  · exact congrArg (fun tail => header ++ (_ ++ tail)) hfills.symm
  · refine ⟨?_, ?_, trivial⟩
    · rw [length_rowDescriptors, length_decodeRows]
    · rw [length_rowDescriptors, length_decodeRows, length_routeEntries, hroutes]
  · rw [hfills, List.length_append, length_hiddenBytes hhidden, length_rowDescriptors,
      length_routeEntries, length_decodeRows, hroutes, hlen, ← Nat.add_assoc]
    rfl
  · exact hfit

/-- **In-place returns.** -/
theorem returnHeaderSeq_agrees {f : ReturnFrame} {rows : List ReturnRow} {header : List UInt8}
    (hheader : returnHeaderSeq f rows.length seq naive = .ok header)
    (hcodes : ∀ row ∈ rows, row.codes.length = hiddenDim) :
    encodeReturnSeq { f with rows := rows } seq naive nocrc =
      .ok (sealInPlace (header ++ rows.flatMap fun row => row.codes.flatMap le16) naive nocrc) := by
  rw [returnHeaderSeq] at hheader
  simp only [bind_eq_ok, ensure_eq_ok, pure_eq_ok, decide_eq_true_eq, checkedMul_eq_ok,
    asU32_eq_ok, Bool.not_eq_true', Bool.or_eq_false_iff, Except.ok.injEq] at hheader
  obtain ⟨⟨⟩, hrows, ⟨⟩, hroutes, ⟨⟩, ⟨hperRoute, hfp32⟩, _, ⟨hmul, rfl⟩, ⟨⟩, hwire, _, ⟨hrowCount, rfl⟩,
    _, ⟨hrouteCount, rfl⟩, _, ⟨hblock, rfl⟩, rfl⟩ := hheader
  have hbody : (rows.flatMap fun row => returnRowWire row f.routeCount naive) =
      rows.flatMap fun row => row.codes.flatMap le16 := by
    simp [returnRowWire, returnFp32, hperRoute, hfp32]
  have hdtype : returnFp32 naive = false := by
    rw [returnFp32, hfp32, Bool.and_false]
  rw [encodeReturnSeq]
  simp only [bind_eq_ok, ensure_eq_ok, checkedMul_eq_ok, asU32_eq_ok, pure_eq_ok,
    decide_eq_true_eq, hbody, hdtype]
  exact ⟨(), List.ne_nil_of_length_pos (Nat.pos_of_ne_zero hrows), (), hroutes, (),
    checkReturnRows_eq_ok.mpr hcodes, _, ⟨hmul, rfl⟩, (), hwire, _, ⟨hrowCount, rfl⟩,
    _, ⟨hrouteCount, rfl⟩, _, ⟨hblock, rfl⟩, rfl⟩

/-- Hidden rows as a caller fills them in, one for each row. -/
structure FillsRows (naive : WireNaive) (rows : ℕ) (hiddenRows : List HiddenRow) : Prop where
  length : hiddenRows.length = rows
  sizes : ∀ h ∈ hiddenRows,
    h.payload.length = hiddenDim ∧ h.scales.length = hiddenRowBytes naive - hiddenDim

/-- **In-place frames are frames.** Whatever an in-place encoder accepts, the owning encoder makes
the same frame, up to the checksum that the caller seals it with. The routes of a request without
routes are the caller's; the owning encoder makes a frame exactly if they name rows of it. -/
theorem inPlace_agree (naive : WireNaive) (nocrc : Bool) (requestId : UInt64) (layerId : UInt32)
    (executorId seq : UInt64) (body : List UInt8) :
    (∀ routes topk hiddenRows r,
      encodeRequestMetaInto body.length requestId layerId executorId seq routes topk naive = .ok r →
      FillsRows naive (routes.length / topk) hiddenRows →
      encodeRequestSeq (decodeRequestFrame requestId layerId executorId
          (decodeRows requestId (routes.length / topk) topk)
          (decodeRoutes routes (routes.length / topk) topk) hiddenRows) seq naive nocrc =
        .ok (sealInPlace (r.frame body [(r.hiddenOffset, hiddenBytes hiddenRows)]) naive nocrc)) ∧
    (∀ rows topkOf routes hiddenRows r,
      encodeRequestDescInto body.length requestId layerId executorId seq rows topkOf naive = .ok r →
      routes.length = rows * topkOf → FillsRows naive rows hiddenRows →
      let owned := encodeRequestSeq (decodeRequestFrame requestId layerId executorId
        (decodeRows requestId rows topkOf) routes hiddenRows) seq naive nocrc
      ((∃ bytes, owned = .ok bytes) ↔ ∀ e ∈ routes, e.rowIndex.toNat < rows) ∧
        ∀ bytes, owned = .ok bytes →
          bytes = sealInPlace (r.frame body [(r.routesOffset, routes.flatMap (routeEntryWire · naive)),
            (r.hiddenOffset, hiddenBytes hiddenRows)]) naive nocrc) ∧
    ∀ (f : ReturnFrame) rows header, returnHeaderSeq f rows.length seq naive = .ok header →
      (∀ row ∈ rows, row.codes.length = hiddenDim) →
      encodeReturnSeq { f with rows := rows } seq naive nocrc =
        .ok (sealInPlace (header ++ rows.flatMap fun row => row.codes.flatMap le16) naive nocrc) := by
  refine ⟨?_, ?_, ?_⟩
  · intro routes topk hiddenRows r hr hfills
    exact encodeRequestMetaInto_agrees hr hfills.length hfills.sizes
  · intro rows topkOf routes hiddenRows r hr hroutes hfills owned
    have hagrees (hindex : ∀ e ∈ routes, e.rowIndex.toNat < rows) :=
      @encodeRequestDescInto_agrees naive nocrc _ _ _ _ _ _ _ _ _ _ hr hroutes hfills.length hfills.sizes hindex
    have hlt : rows * topkOf < 2 ^ 32 := routes_lt_of_descInto hr
    have hindex (bytes : List UInt8) (howned : owned = .ok bytes) :
        ∀ e ∈ routes, e.rowIndex.toNat < rows :=
      (validateRowsRoutes_decodeRows hlt hroutes).mp (validateRowsRoutes_of_encodeRequestSeq howned)
    refine ⟨⟨fun ⟨bytes, howned⟩ => hindex bytes howned, fun h => ⟨_, hagrees h⟩⟩, ?_⟩
    intro bytes howned
    exact Except.ok.inj (howned.symm.trans (hagrees (hindex bytes howned)))
  · intro f rows header hheader hcodes
    exact returnHeaderSeq_agrees hheader hcodes

theorem inPlace_agree_oneRow :
    let body : List UInt8 := List.replicate 4276 0xAA
    let routes : List (UInt32 × UInt32) := [(7, 0x3E000000)]
    ∃ r, encodeRequestMetaInto body.length 1 3 2 5 routes 1 .none = .ok r ∧
      encodeRequestSeq (decodeRequestFrame 1 3 2 (decodeRows 1 (routes.length / 1) 1)
          (decodeRoutes routes (routes.length / 1) 1) oneRow.hiddenRows) 5 .none false =
        .ok (sealInPlace (r.frame body [(r.hiddenOffset, hiddenBytes oneRow.hiddenRows)])
          .none false) := by
  intro body routes
  obtain ⟨r, hr⟩ : ∃ r, encodeRequestMetaInto body.length 1 3 2 5 routes 1 .none = .ok r := by
    have hok : (encodeRequestMetaInto 4276 1 3 2 5 routes 1 .none).toOption.isSome = true := by
      decide
    rw [List.length_replicate]
    cases henc : encodeRequestMetaInto 4276 1 3 2 5 routes 1 .none with
    | ok r => exact ⟨r, rfl⟩
    | error e =>
      rw [henc] at hok
      exact nomatch hok
  have hfills : FillsRows .none (routes.length / 1) oneRow.hiddenRows := by
    refine ⟨by decide, fun h hh => ⟨encodable_oneRow.payload_len h hh, ?_⟩⟩
    rw [hiddenRowBytes_none]
    exact encodable_oneRow.scales_len h hh
  exact ⟨r, hr, (inPlace_agree .none false 1 3 2 5 body).1 routes 1 _ r hr hfills⟩

end Wire

end Mimo26

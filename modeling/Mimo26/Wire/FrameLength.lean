import Mathlib.Order.Bounds.Basic
import Mimo26.Wire.FrameRoundTrip

/-!
# The lengths of encoded frames

A frame says how long it is in its own header, and no frame of an encoder is longer than its 32-bit
counts and strides allow. Both hold under every trap.

## Main definitions

* `Produced` — the frames the encoders produce
* `declaredLen` — the length a header declares
* `largestFrame` — the length of the longest frame

## Main results

* `Produced.declaredLen_eq` — a frame declares its own length
* `isGreatest_largestFrame` — no frame is longer than `largestFrame`, and one is as long
-/

namespace Mimo26

namespace Wire

open Result

/-- `isize::MAX`, which no `Vec<u8>` is longer than. -/
def isizeMax : ℕ := 2 ^ 63 - 1

/-- The frames the encoders produce, each a `Vec<u8>`. -/
def Produced (naive : WireNaive) (bytes : List UInt8) : Prop :=
  bytes.length ≤ isizeMax ∧ ∃ seq nocrc,
    (∃ f, encodeRequestSeq f seq naive nocrc = .ok bytes) ∨
      ∃ f, encodeReturnSeq f seq naive nocrc = .ok bytes

/-- The total wire length a header carries at byte 76. -/
def declaredLen (header : List UInt8) : ℕ := Bytes.ofLe (Bytes.slice header 76 8)

/-- The longest frame: a return of as many rows, of as long a stride, as its header can say. A
return of one row copy per route is stopped by the longest `Vec` first. -/
def largestFrame (naive : WireNaive) : ℕ :=
  if naive.has WireNaive.perRouteReturn then headerLen + (2 ^ 50 - 1) * returnRowBytesCanonical
  else headerLen + (2 ^ 32 - 1) * returnRowBytes 1 naive

variable {naive : WireNaive} {nocrc : Bool} {seq : UInt64} {bytes : List UInt8}

/-! ### Sealed frames -/

theorem declaredLen_sealed {h : HeaderFields} {body : List UInt8} :
    declaredLen (sealFrame (writeHeader h naive ++ body) naive nocrc) = h.wireBytes.toNat := by
  have hslice : Bytes.slice (sealFrame (writeHeader h naive ++ body) naive nocrc) 76 8 =
      le64 h.wireBytes :=
    slice_sealed (show (Hdr.wireBytes.off, le64 h.wireBytes) ∈ headerLayout h naive by
      simp [headerLayout]) (by rw [length_le64]; decide)
  rw [declaredLen, hslice, le64, Bytes.ofLe_toLe_of_lt h.wireBytes.toNat_lt]

theorem declaredLen_writeHeader (h : HeaderFields) :
    declaredLen (writeHeader h naive) = h.wireBytes.toNat := by
  have hseal : sealFrame (writeHeader h naive ++ []) naive true = writeHeader h naive := by
    rw [List.append_nil, sealFrame, if_pos rfl]
  rw [← hseal, declaredLen_sealed]

/-- The header alone declares what the frame does. -/
theorem declaredLen_take (hlen : headerLen ≤ bytes.length) :
    declaredLen (bytes.take headerLen) = declaredLen bytes := by
  have hslice := @Bytes.slice_append_left (bytes.take headerLen) (bytes.drop headerLen) 76 8
    (by rw [List.length_take_of_le hlen]; decide)
  rw [List.take_append_drop] at hslice
  rw [declaredLen, declaredLen, hslice]

/-- A sealed frame of a header that says how long the frame is. -/
structure Framed (naive : WireNaive) (n : ℕ) (bytes : List UInt8) : Prop where
  length : bytes.length = headerLen + n
  declared : declaredLen bytes = headerLen + n

theorem framed_sealed {h : HeaderFields} {body : List UInt8} {n : ℕ} (hbody : body.length = n)
    (hn : headerLen + n ≤ usizeMax) (hwire : h.wireBytes = UInt64.ofNat (headerLen + n)) :
    Framed naive n (sealFrame (writeHeader h naive ++ body) naive nocrc) where
  length := by rw [length_sealFrame, List.length_append, length_writeHeader, hbody]
  declared := by rw [declaredLen_sealed, hwire, toNat_ofNat_of_le hn]

/-! ### Requests -/

theorem hiddenRowBytes_bounds (naive : WireNaive) :
    hiddenDim ≤ hiddenRowBytes naive ∧ hiddenRowBytes naive ≤ 4352 := by
  rw [hiddenRowBytes, scaleK]
  split
  · decide
  · split <;> decide

/-- The body of a request whose hidden rows are as long as they must be. -/
theorem length_requestBody {f : RequestFrame} (hrows : f.hiddenRows.length = f.rows.length)
    (hcheck : checkHiddenRows f.hiddenRows (hiddenRowBytes naive - hiddenDim) = .ok ()) :
    (requestBody f naive).length = f.rows.length * rowDescriptorLen +
      f.routes.length * routeEntryLen + f.rows.length * hiddenRowBytes naive := by
  have hhidden : ∀ r ∈ f.hiddenRows, (r.payload ++ r.scales).length = hiddenRowBytes naive := by
    intro r hr
    obtain ⟨hpayload, hscales⟩ := checkHiddenRows_eq_ok.mp hcheck r hr
    have hle := (hiddenRowBytes_bounds naive).1
    rw [List.length_append, hpayload, hscales]
    omega
  rw [requestBody, List.length_append, List.length_append,
    Bytes.length_flatMap_of_forall fun r _ => length_rowDescriptorWire r naive,
    Bytes.length_flatMap_of_forall fun r _ => length_routeEntryWire r naive,
    Bytes.length_flatMap_of_forall hhidden, hrows, add_assoc]

/-- What a request's bytes hold; the tables fit 32 bits. -/
theorem framed_of_encodeRequestSeq {f : RequestFrame}
    (h : encodeRequestSeq f seq naive nocrc = .ok bytes) :
    ∃ n, Framed naive n bytes ∧ n ≤ 2 ^ 39 := by
  rw [encodeRequestSeq] at h
  simp only [bind_eq_ok, ensure_eq_ok, checkedMul_eq_ok, asU32_eq_ok, pure_eq_ok,
    decide_eq_true_eq, Except.ok.injEq] at h
  obtain ⟨⟨⟩, -, ⟨⟩, hhidden, ⟨⟩, -, ⟨⟩, hcheck, _, ⟨-, rfl⟩, _, ⟨-, rfl⟩, _, ⟨-, rfl⟩, _, -, ⟨⟩,
    hwire, _, -, _, -, _, ⟨hrow, rfl⟩, _, ⟨hroute, rfl⟩, _, -, rfl⟩ := h
  have hbody := length_requestBody hhidden hcheck
  refine ⟨_, framed_sealed hbody hwire rfl, ?_⟩
  have hmul := Nat.mul_le_mul_left f.rows.length (hiddenRowBytes_bounds naive).2
  rw [rowDescriptorLen] at hrow ⊢
  omega

/-! ### Returns -/

/-- A row's wire bytes fill its block. -/
theorem length_returnRowWire {row : ReturnRow} (hcodes : row.codes.length = hiddenDim)
    (routeCount : ℕ) :
    (returnRowWire row routeCount naive).length = returnRowBytes routeCount naive := by
  have h16 : (row.codes.flatMap le16).length = hiddenDim * 2 := by
    rw [length_le16_flatMap, hcodes]
  have h32 : (row.codes.flatMap fun code => le32 (bf16ToF32 code)).length = hiddenDim * 4 := by
    rw [Bytes.length_flatMap_of_forall fun v _ => length_le32 (bf16ToF32 v), hcodes]
  have hcopies : ((List.range routeCount).flatMap fun _ => row.codes.flatMap le16).length =
      routeCount * hiddenDim * 2 := by
    rw [Bytes.length_flatMap_of_forall fun _ _ => h16, List.length_range, mul_assoc]
  rw [returnRowWire, returnRowBytes, returnFp32]
  cases naive.has WireNaive.perRouteReturn with
  | true => exact hcopies
  | false =>
    cases naive.has WireNaive.fp32Return with
    | true => exact h32
    | false => exact h16

/-- The returns `encodeReturnSeq` accepts under the traps. -/
structure ReturnFrame.Sends (naive : WireNaive) (f : ReturnFrame) : Prop where
  rows_ne : f.rows ≠ []
  routeCount_ne : f.routeCount ≠ 0
  codes : ∀ row ∈ f.rows, row.codes.length = hiddenDim
  wire_le : headerLen + f.rows.length * returnRowBytes f.routeCount naive ≤ usizeMax
  rows_lt : f.rows.length < 2 ^ 32
  routeCount_lt : f.routeCount < 2 ^ 32
  block_lt : returnRowBytes f.routeCount naive < 2 ^ 32

theorem framed_of_encodeReturnSeq {f : ReturnFrame}
    (h : encodeReturnSeq f seq naive nocrc = .ok bytes) :
    f.Sends naive ∧ Framed naive (f.rows.length * returnRowBytes f.routeCount naive) bytes := by
  rw [encodeReturnSeq] at h
  simp only [bind_eq_ok, ensure_eq_ok, checkedMul_eq_ok, asU32_eq_ok, pure_eq_ok,
    decide_eq_true_eq, Except.ok.injEq] at h
  obtain ⟨⟨⟩, hrows, ⟨⟩, hroutes, ⟨⟩, hcheck, _, ⟨-, rfl⟩, ⟨⟩, hwire, _, ⟨hlt, -⟩, _, ⟨hrlt, -⟩, _,
    ⟨hblock, -⟩, rfl⟩ := h
  have hcodes := checkReturnRows_eq_ok.mp hcheck
  have hbody := Bytes.length_flatMap_of_forall fun row hrow =>
    @length_returnRowWire naive row (hcodes row hrow) f.routeCount
  exact ⟨⟨hrows, hroutes, hcodes, hwire, hlt, hrlt, hblock⟩, framed_sealed hbody hwire rfl⟩

theorem ReturnFrame.Sends.encode {f : ReturnFrame} (hf : f.Sends naive) (seq : UInt64)
    (nocrc : Bool) : ∃ bytes, encodeReturnSeq f seq naive nocrc = .ok bytes := by
  have hwire := hf.wire_le
  have hmul : f.rows.length * returnRowBytes f.routeCount naive ≤ usizeMax := by omega
  simp only [encodeReturnSeq, bind_eq_ok, ensure_eq_ok, checkedMul_eq_ok, asU32_eq_ok,
    decide_eq_true_eq]
  exact ⟨_, (), hf.rows_ne, (), hf.routeCount_ne, (), checkReturnRows_eq_ok.mpr hf.codes,
    _, ⟨hmul, rfl⟩, (), hwire, _, ⟨hf.rows_lt, rfl⟩, _, ⟨hf.routeCount_lt, rfl⟩,
    _, ⟨hf.block_lt, rfl⟩, rfl⟩

/-! ### The longest frame -/

theorem Produced.framed (h : Produced naive bytes) : ∃ n, Framed naive n bytes := by
  obtain ⟨-, seq, nocrc, ⟨f, hf⟩ | ⟨f, hf⟩⟩ := h
  · obtain ⟨n, hn, -⟩ := framed_of_encodeRequestSeq hf
    exact ⟨n, hn⟩
  · exact ⟨_, (framed_of_encodeReturnSeq hf).2⟩

/-- **A frame declares its own length.** -/
theorem Produced.declaredLen_eq (h : Produced naive bytes) : declaredLen bytes = bytes.length := by
  obtain ⟨n, hn⟩ := h.framed
  rw [hn.declared, hn.length]

theorem Produced.headerLen_le (h : Produced naive bytes) : headerLen ≤ bytes.length := by
  obtain ⟨n, hn⟩ := h.framed
  rw [hn.length]
  exact Nat.le_add_right headerLen n

theorem returnRowBytes_perRoute (h : naive.has WireNaive.perRouteReturn = true) (routeCount : ℕ) :
    returnRowBytes routeCount naive = routeCount * returnRowBytesCanonical := by
  rw [returnRowBytes, if_pos h, mul_assoc]
  rfl

/-- Without a copy per route the block does not depend on the routes. -/
theorem returnRowBytes_eq_one (h : ¬ naive.has WireNaive.perRouteReturn = true) (routeCount : ℕ) :
    returnRowBytes routeCount naive = returnRowBytes 1 naive := by
  rw [returnRowBytes, returnRowBytes, if_neg h, if_neg h]

/-- Requests are far from the longest frame. -/
theorem request_le_largestFrame (naive : WireNaive) : headerLen + 2 ^ 39 ≤ largestFrame naive := by
  have hblock : returnRowBytesCanonical ≤ returnRowBytes 1 naive := by
    rw [returnRowBytes]
    split
    · decide
    · split <;> decide
  rw [show returnRowBytesCanonical = 8192 from rfl] at hblock
  rw [largestFrame, show returnRowBytesCanonical = 8192 from rfl]
  split
  · exact Nat.add_le_add_left (by decide) headerLen
  · refine Nat.add_le_add_left ?_ headerLen
    omega

theorem Produced.length_le (h : Produced naive bytes) : bytes.length ≤ largestFrame naive := by
  obtain ⟨hvec, seq, nocrc, ⟨f, hf⟩ | ⟨f, hf⟩⟩ := h
  · obtain ⟨n, hn, hle⟩ := framed_of_encodeRequestSeq hf
    rw [hn.length]
    exact (Nat.add_le_add_left hle headerLen).trans (request_le_largestFrame naive)
  · obtain ⟨hsends, hframed⟩ := framed_of_encodeReturnSeq hf
    rw [hframed.length] at hvec ⊢
    rw [largestFrame]
    split
    · rename_i hroute
      rw [returnRowBytes_perRoute hroute, ← mul_assoc] at hvec ⊢
      have hcopies : f.rows.length * f.routeCount ≤ 2 ^ 50 - 1 := by
        rw [headerLen, isizeMax, show returnRowBytesCanonical = 8192 from rfl] at hvec
        omega
      exact Nat.add_le_add_left (Nat.mul_le_mul_right _ hcopies) headerLen
    · rename_i hroute
      rw [returnRowBytes_eq_one hroute]
      have hrows : f.rows.length ≤ 2 ^ 32 - 1 := Nat.le_sub_one_of_lt hsends.rows_lt
      exact Nat.add_le_add_left (Nat.mul_le_mul_right _ hrows) headerLen

/-- A return of `n` equal rows. -/
def blankReturn (n routeCount : ℕ) : ReturnFrame where
  requestId := 0
  placementVersion := 0
  layerId := 0
  executorId := 0
  tokenPosition := 0
  status := .ok
  flags := 0
  routeCount := routeCount
  seq := 0
  rows := List.replicate n ⟨List.replicate hiddenDim 0⟩

theorem produced_blankReturn {n routeCount : ℕ} (hn : n ≠ 0) (hroute : routeCount ≠ 0)
    (hvec : headerLen + n * returnRowBytes routeCount naive ≤ isizeMax) (hn32 : n < 2 ^ 32)
    (hroute32 : routeCount < 2 ^ 32) (hblock : returnRowBytes routeCount naive < 2 ^ 32) :
    ∃ bytes, Produced naive bytes ∧
      bytes.length = headerLen + n * returnRowBytes routeCount naive := by
  have hlen : (blankReturn n routeCount).rows.length = n := List.length_replicate
  have hsends : (blankReturn n routeCount).Sends naive :=
    { rows_ne := by
        intro hnil
        rw [hnil] at hlen
        exact hn hlen.symm
      routeCount_ne := hroute
      codes := by
        intro row hrow
        rw [List.eq_of_mem_replicate hrow]
        exact List.length_replicate
      wire_le := by
        rw [hlen]
        exact hvec.trans (by decide)
      rows_lt := by rwa [hlen]
      routeCount_lt := hroute32
      block_lt := hblock }
  obtain ⟨bytes, hbytes⟩ := hsends.encode 0 true
  have hframed := (framed_of_encodeReturnSeq hbytes).2.length
  rw [hlen] at hframed
  exact ⟨bytes, ⟨hframed ▸ hvec, 0, true, .inr ⟨_, hbytes⟩⟩, hframed⟩

theorem exists_produced_largestFrame (naive : WireNaive) :
    ∃ bytes, Produced naive bytes ∧ bytes.length = largestFrame naive := by
  rw [largestFrame]
  split
  · rename_i hroute
    -- `2 ^ 50 - 1` row copies are `2490647973` rows of `452051` copies
    have hblock := returnRowBytes_perRoute hroute 452051
    have hsize : headerLen + 2490647973 * returnRowBytes 452051 naive =
        headerLen + (2 ^ 50 - 1) * returnRowBytesCanonical := by
      rw [hblock, ← mul_assoc, show (2490647973 * 452051 : ℕ) = 2 ^ 50 - 1 from by decide]
    obtain ⟨bytes, hbytes, hlen⟩ := @produced_blankReturn naive 2490647973 452051 (by decide)
      (by decide) (by rw [hsize]; decide) (by decide) (by decide) (by rw [hblock]; decide)
    exact ⟨bytes, hbytes, hlen.trans hsize⟩
  · rename_i hroute
    have hblock : returnRowBytes 1 naive ≤ 16384 := by
      rw [returnRowBytes]
      split
      · decide
      · split <;> decide
    refine produced_blankReturn (by decide) one_ne_zero ?_ (by decide) (by decide) (by omega)
    rw [headerLen, isizeMax]
    omega

/-- **The longest frame**: no encoder goes past it, and one reaches it. -/
theorem isGreatest_largestFrame (naive : WireNaive) :
    IsGreatest {n | ∃ bytes, Produced naive bytes ∧ bytes.length = n} (largestFrame naive) := by
  refine ⟨exists_produced_largestFrame naive, ?_⟩
  rintro n ⟨bytes, hbytes, rfl⟩
  exact hbytes.length_le

end Wire

end Mimo26

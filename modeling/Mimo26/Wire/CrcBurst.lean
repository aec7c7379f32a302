import Mimo26.Library.ShiftRegister
import Mimo26.Wire.FrameRoundTrip

/-!
# Errors the checksum sees

The table walk of the checksum is a shift register over the bits of the frame, the least significant
bit of each byte first. A burst of at most 32 bits beside the checksum field changes the checksum,
and one inside it changes the field alone.

## Main definitions

* `bits` — the bits of a byte string, in the order they are sent
* `Burst` — two byte strings that differ within a window of bits
* `Encoded` — the bytes of a frame

## Main results

* `updateTable_toBitVec` — the table walk feeds the bits
* `decodeFrame_burst` — a frame hit by a short burst is refused
-/

namespace Mimo26

namespace Wire

open ShiftRegister Result

/-! ### Bits of a byte string -/

def byteBits (b : UInt8) : List Bool := (List.range 8).map b.toBitVec.getLsbD

/-- The bits of a byte string, least significant first. -/
def bits (bytes : List UInt8) : List Bool := bytes.flatMap byteBits

@[simp] theorem length_byteBits (b : UInt8) : (byteBits b).length = 8 := by simp [byteBits]

@[simp] theorem length_bits (bytes : List UInt8) : (bits bytes).length = 8 * bytes.length := by
  induction bytes with
  | nil => rfl
  | cons b bytes ih =>
    rw [bits, List.flatMap_cons, List.length_append, length_byteBits, ← bits, ih, List.length_cons]
    omega

theorem bits_append (a b : List UInt8) : bits (a ++ b) = bits a ++ bits b := List.flatMap_append

theorem byteBits_injective : Function.Injective byteBits := by
  intro a b h
  refine UInt8.toBitVec_inj.mp (BitVec.eq_of_getLsbD_eq fun i hi => ?_)
  exact List.map_inj_left.mp h i (List.mem_range.mpr hi)

theorem bits_injective : Function.Injective bits := by
  intro a
  induction a with
  | nil =>
    intro b h
    have hlen := congrArg List.length h
    rw [length_bits, length_bits] at hlen
    exact (List.length_eq_zero_iff.mp (by simpa using hlen.symm)).symm
  | cons x a ih =>
    intro b h
    cases b with
    | nil =>
      have hlen := congrArg List.length h
      rw [length_bits, length_bits] at hlen
      simp at hlen
    | cons y b =>
      obtain ⟨hhead, htail⟩ := List.append_inj h (by simp)
      rw [byteBits_injective hhead, ih htail]

theorem bits_take (bytes : List UInt8) (n : ℕ) :
    bits (bytes.take n) = (bits bytes).take (8 * n) := by
  by_cases hn : n ≤ bytes.length
  · have hlen : (bits (bytes.take n)).length = 8 * n := by
      rw [length_bits, List.length_take, min_eq_left hn]
    conv_rhs => rw [← List.take_append_drop n bytes, bits_append]
    rw [← hlen, List.take_left]
  · rw [List.take_of_length_le (by omega), List.take_of_length_le (by rw [length_bits]; omega)]

theorem bits_drop (bytes : List UInt8) (n : ℕ) :
    bits (bytes.drop n) = (bits bytes).drop (8 * n) := by
  by_cases hn : n ≤ bytes.length
  · have hlen : (bits (bytes.take n)).length = 8 * n := by
      rw [length_bits, List.length_take, min_eq_left hn]
    conv_rhs => rw [← List.take_append_drop n bytes, bits_append]
    rw [← hlen, List.drop_left]
  · rw [List.drop_of_length_le (by omega), List.drop_of_length_le (by rw [length_bits]; omega)]
    rfl

/-! ### The table walk -/

theorem crcShift_toBitVec (poly c : UInt32) :
    (crcShift poly c).toBitVec = shift poly.toBitVec c.toBitVec := by
  have hlow : (c &&& 1 != 0) = c.toBitVec.getLsbD 0 := by
    have hbit : (c &&& 1).toBitVec = BitVec.setWidth 32 (BitVec.ofBool (c.toBitVec.getLsbD 0)) := by
      rw [UInt32.toBitVec_and]
      exact BitVec.and_one_eq_setWidth_ofBool_getLsbD
    cases h : c.toBitVec.getLsbD 0 with
    | false =>
      rw [h] at hbit
      have hzero : c &&& 1 = 0 := UInt32.toBitVec_inj.mp (by rw [hbit]; decide)
      simp [hzero]
    | true =>
      rw [h] at hbit
      have hone : c &&& 1 = 1 := UInt32.toBitVec_inj.mp (by rw [hbit]; decide)
      simp [hone]
  rw [crcShift, shift, hlow]
  cases c.toBitVec.getLsbD 0 <;> simp

theorem tableEntry_toBitVec (poly i : UInt32) :
    (tableEntry poly i).toBitVec = (shift poly.toBitVec)^[8] i.toBitVec := by
  have hiterate (n : ℕ) (c : UInt32) :
      ((crcShift poly)^[n] c).toBitVec = (shift poly.toBitVec)^[n] c.toBitVec := by
    induction n generalizing c with
    | zero => rfl
    | succ n ih =>
      rw [Function.iterate_succ_apply, Function.iterate_succ_apply, ih, crcShift_toBitVec]
  exact hiterate 8 i

theorem ofBits_byteBits (b : UInt8) : (ofBits (byteBits b) : BitVec 32) = b.toUInt32.toBitVec := by
  refine BitVec.eq_of_getLsbD_eq fun i hi => ?_
  rw [getLsbD_ofBits, UInt8.toBitVec_toUInt32, BitVec.getLsbD_setWidth, byteBits]
  by_cases h8 : i < 8
  · simp [hi, h8]
  · have hge : b.toBitVec.getLsbD i = false := BitVec.getLsbD_of_ge _ i (Nat.not_lt.mp h8)
    simp [h8, hge]

theorem getLsbD_255 (i : ℕ) : (255#32).getLsbD i = decide (i < 8) := by
  by_cases hi : i < 32
  · revert i
    decide
  · rw [BitVec.getLsbD_of_ge _ i (Nat.not_lt.mp hi)]
    exact (decide_eq_false (by omega)).symm

/-- A byte of the table walk is its eight bits. -/
theorem tableStep_toBitVec (poly crc : UInt32) (b : UInt8) :
    (tableEntry poly ((crc ^^^ b.toUInt32) &&& 0xFF) ^^^ (crc >>> 8)).toBitVec =
      feed poly.toBitVec crc.toBitVec (byteBits b) := by
  have hlen : (byteBits b).length ≤ 32 := by
    rw [length_byteBits]
    decide
  rw [feed_ofBits crc.toBitVec hlen, length_byteBits, ofBits_byteBits, UInt32.toBitVec_xor,
    tableEntry_toBitVec, UInt32.toBitVec_and, UInt32.toBitVec_xor]
  generalize hx : crc.toBitVec ^^^ b.toUInt32.toBitVec = x
  have hsplit : x = (x &&& 255#32) ^^^ (x &&& ~~~255#32) := by
    refine BitVec.eq_of_getLsbD_eq fun i hi => ?_
    simp only [BitVec.getLsbD_xor, BitVec.getLsbD_and, BitVec.getLsbD_not, getLsbD_255]
    by_cases h8 : i < 8 <;> simp [h8, hi]
  have hclear : ∀ i < 8, (x &&& ~~~255#32).getLsbD i = false := by
    intro i hi
    rw [BitVec.getLsbD_and, BitVec.getLsbD_not, getLsbD_255]
    simp [hi]
  have hhigh : (x &&& ~~~255#32) >>> 8 = (crc >>> 8).toBitVec := by
    refine BitVec.eq_of_getLsbD_eq fun i hi => ?_
    have hbyte : b.toUInt32.toBitVec.getLsbD (8 + i) = false := by
      rw [UInt8.toBitVec_toUInt32, BitVec.getLsbD_setWidth,
        BitVec.getLsbD_of_ge _ _ (Nat.le_add_right 8 i),
        Bool.and_false]
    have hx' : x.getLsbD (8 + i) = crc.toBitVec.getLsbD (8 + i) := by
      rw [← hx, BitVec.getLsbD_xor, hbyte, Bool.xor_false]
    have hshift : (crc >>> 8).toBitVec.getLsbD i = crc.toBitVec.getLsbD (8 + i) := by
      simp
    rw [BitVec.getLsbD_ushiftRight, BitVec.getLsbD_and, BitVec.getLsbD_not, getLsbD_255, hx',
      hshift]
    by_cases hin : 8 + i < 32
    · simp [hin]
    · simp [BitVec.getLsbD_of_ge crc.toBitVec (8 + i) (Nat.not_lt.mp hin)]
  conv_rhs => rw [hsplit, iterate_shift_xor, iterate_shift_of_clear hclear, hhigh]
  rfl

/-- **The table walk feeds the bits.** -/
theorem updateTable_toBitVec (poly crc : UInt32) (bytes : List UInt8) :
    (updateTable poly crc bytes).toBitVec = feed poly.toBitVec crc.toBitVec (bits bytes) := by
  induction bytes generalizing crc with
  | nil => rfl
  | cons b bytes ih =>
    rw [bits, List.flatMap_cons, feed_append, ← bits, ← tableStep_toBitVec, ← ih]
    rfl

/-! ### Bursts -/

/-- `bad` differs from `good`, and only in `width` bits from `first` on. -/
structure Burst (good bad : List UInt8) (first width : ℕ) : Prop where
  length : bad.length = good.length
  differs : bad ≠ good
  outside : ∀ i, i < first ∨ first + width ≤ i → (bits bad)[i]? = (bits good)[i]?

/-- The bytes with those of the field read as zero. -/
def zeroed (bytes : List UInt8) (off : ℕ) : List UInt8 :=
  bytes.take off ++ ([0, 0, 0, 0] ++ bytes.drop (off + 4))

theorem crc32cZeroed_toBitVec (family : CrcFamily) (bytes : List UInt8) (off : ℕ) :
    (crc32cZeroed family bytes off).toBitVec =
      ~~~ feed family.poly.toBitVec (~~~ (0 : UInt32)).toBitVec (bits (zeroed bytes off)) := by
  rw [crc32cZeroed]
  simp only [updateFamily, UInt32.toBitVec_not, updateTable_toBitVec]
  rw [zeroed, bits_append, bits_append, feed_append, feed_append]

section Differ

/-- Two messages of one length that differ do so in some bit. -/
theorem true_mem_of_ne {a b : List Bool} (hlen : a.length = b.length) (hne : a ≠ b) :
    true ∈ List.zipWith (· != ·) a b := by
  induction a generalizing b with
  | nil => exact absurd (List.length_eq_zero_iff.mp hlen.symm).symm hne
  | cons x a ih =>
    cases b with
    | nil => exact nomatch hlen
    | cons y b =>
      rw [List.zipWith_cons_cons, List.mem_cons]
      by_cases hxy : x = y
      · exact .inr (ih (Nat.succ.inj hlen) fun hab => hne (by rw [hxy, hab]))
      · exact .inl (by simp [hxy])

variable {good bad : List UInt8} {off first width : ℕ}

theorem getElem?_bits_zeroed (bytes : List UInt8) (hoff : off + 4 ≤ bytes.length) (i : ℕ) :
    (bits (zeroed bytes off))[i]? =
      if i < 8 * off then (bits bytes)[i]?
      else if i < 8 * off + 32 then some false else (bits bytes)[i]? := by
  have htake : (bits (bytes.take off)).length = 8 * off := by
    rw [length_bits, List.length_take, min_eq_left (by omega)]
  have hzero : bits [0, 0, 0, 0] = List.replicate 32 false := by decide
  rw [zeroed, bits_append, bits_append, hzero]
  split
  · next hi => rw [List.getElem?_append_left (by omega), bits_take, List.getElem?_take, if_pos hi]
  · next hi =>
    rw [List.getElem?_append_right (by omega), htake]
    split
    · next hi' =>
      rw [List.getElem?_append_left (by simp; omega), List.getElem?_replicate, if_pos (by omega)]
    · next hi' =>
      rw [List.getElem?_append_right (by simp; omega), bits_drop, List.getElem?_drop,
        List.length_replicate]
      congr 1
      omega

/-- **A burst beside the field changes the checksum.** -/
theorem Burst.crc_ne (h : Burst good bad first width) (hwidth : width ≤ 32)
    (hoff : off + 4 ≤ good.length) (hbeside : first + width ≤ 8 * off ∨ 8 * (off + 4) ≤ first) :
    crc32cZeroed .castagnoli bad off ≠ crc32cZeroed .castagnoli good off := by
  intro hcrc
  have hoff' : off + 4 ≤ bad.length := by rwa [h.length]
  have hbits := congrArg (fun c : UInt32 => ~~~ c.toBitVec) hcrc
  simp only [crc32cZeroed_toBitVec, BitVec.not_not] at hbits
  have hlen : (bits (zeroed bad off)).length = (bits (zeroed good off)).length := by
    simp [zeroed, h.length]
  have hdiff := feed_xor CrcFamily.castagnoli.poly.toBitVec (~~~ (0 : UInt32)).toBitVec
    (~~~ (0 : UInt32)).toBitVec hlen
  rw [hbits, BitVec.xor_self, BitVec.xor_self] at hdiff
  have hout : ∀ i : ℕ, i < first ∨ first + width ≤ i →
      (List.zipWith (· != ·) (bits (zeroed bad off))
      (bits (zeroed good off)))[i]? ≠ some true := by
    intro i hi
    have hsame : (bits (zeroed bad off))[i]? = (bits (zeroed good off))[i]? := by
      rw [getElem?_bits_zeroed bad hoff', getElem?_bits_zeroed good hoff, h.outside i hi]
    rw [List.getElem?_zipWith, hsame]
    cases (bits (zeroed good off))[i]? <;> simp
  have hne : bits (zeroed bad off) ≠ bits (zeroed good off) := by
    intro heq
    refine h.differs (bits_injective (List.ext_getElem? fun i => ?_))
    have hget := congrArg (·[i]?) heq
    simp only [getElem?_bits_zeroed bad hoff', getElem?_bits_zeroed good hoff] at hget
    by_cases hbefore : i < 8 * off
    · rwa [if_pos hbefore, if_pos hbefore] at hget
    · by_cases hfield : i < 8 * off + 32
      · exact h.outside i (by omega)
      · rwa [if_neg hbefore, if_neg hbefore, if_neg hfield, if_neg hfield] at hget
  exact feed_window (by decide) hwidth hout (true_mem_of_ne hlen hne) hdiff

/-- Bytes that a burst does not reach. -/
theorem Burst.slice_eq (h : Burst good bad first width) {n : ℕ}
    (hout : first + width ≤ 8 * off ∨ 8 * (off + n) ≤ first) :
    Bytes.slice bad off n = Bytes.slice good off n := by
  refine bits_injective (List.ext_getElem? fun i => ?_)
  rw [Bytes.slice, Bytes.slice, bits_take, bits_take, bits_drop, bits_drop, List.getElem?_take,
    List.getElem?_take]
  split
  · rw [List.getElem?_drop, List.getElem?_drop]
    exact h.outside _ (by omega)
  · rfl

/-- A burst inside the field leaves the bytes before and after it. -/
theorem Burst.beside_eq (h : Burst good bad first width)
    (hinside : 8 * off ≤ first ∧ first + width ≤ 8 * (off + 4)) :
    bad.take off = good.take off ∧ bad.drop (off + 4) = good.drop (off + 4) := by
  have hbefore : Bytes.slice bad 0 off = Bytes.slice good 0 off := h.slice_eq (by omega)
  have hafter : Bytes.slice bad (off + 4) good.length = Bytes.slice good (off + 4) good.length :=
    h.slice_eq (by omega)
  rw [Bytes.slice, Bytes.slice, List.take_of_length_le (by simp [h.length]),
    List.take_of_length_le (by simp)] at hafter
  exact ⟨hbefore, hafter⟩

/-- A burst in a part of a message is one in the message. -/
theorem Burst.append (h : Burst good bad first width) (rest : List UInt8) :
    Burst (good ++ rest) (bad ++ rest) first width where
  length := by rw [List.length_append, List.length_append, h.length]
  differs := fun heq => h.differs (List.append_cancel_right heq)
  outside := by
    intro i hi
    have hlen : (bits bad).length = (bits good).length := by rw [length_bits, length_bits, h.length]
    rw [bits_append, bits_append, List.getElem?_append, List.getElem?_append, hlen, h.outside i hi]

/-- A wrong byte is a burst. -/
theorem burst_of_byte {n : ℕ} (hlen : bad.length = good.length) (hne : bad ≠ good)
    (htake : bad.take n = good.take n) (hdrop : bad.drop (n + 1) = good.drop (n + 1)) :
    Burst good bad (8 * n) 8 where
  length := hlen
  differs := hne
  outside := by
    rintro i (hbefore | hafter)
    · have hbits := congrArg (fun bytes => (bits bytes)[i]?) htake
      simpa [bits_take, List.getElem?_take, hbefore] using hbits
    · obtain ⟨j, rfl⟩ := Nat.exists_eq_add_of_le hafter
      have hbits := congrArg (fun bytes => (bits bytes)[j]?) hdrop
      simpa [bits_drop, Nat.mul_succ] using hbits

end Differ

/-! ### Frames -/

/-- **The checksum sees a short burst**, wherever it does not straddle the field's end. -/
theorem Burst.verifyCrc_ne {good bad : List UInt8} {first width : ℕ}
    (h : Burst good bad first width)
    (hwidth : width ≤ 32) (hlen : headerLen ≤ good.length)
    (hregion : first + width ≤ 8 * Hdr.crc32c.off ∨
      8 * Hdr.crc32c.off ≤ first ∧ first + width ≤ 8 * (Hdr.crc32c.off + 4) ∨
      8 * (Hdr.crc32c.off + 4) ≤ first) {seq seq' : UInt64}
    (hgood : verifyCrc good .none false seq = .ok ()) :
        verifyCrc bad .none false seq' ≠ .ok () := by
  have hoff : Hdr.crc32c.off + 4 ≤ good.length := Nat.le_trans (by decide) hlen
  intro hbad
  have hread := slice_of_getU32 (verifyCrc_eq_ok.mp hgood)
  have hread' := slice_of_getU32 (verifyCrc_eq_ok.mp hbad)
  by_cases hinside : 8 * Hdr.crc32c.off ≤ first ∧ first + width ≤ 8 * (Hdr.crc32c.off + 4)
  · obtain ⟨htake, hdrop⟩ := h.beside_eq hinside
    have hcrc : crc32cZeroed .castagnoli bad Hdr.crc32c.off =
        crc32cZeroed .castagnoli good Hdr.crc32c.off := by
      rw [crc32cZeroed, crc32cZeroed, htake, hdrop]
    exact h.differs (Bytes.eq_of_take_slice_drop htake (by rw [hread, hread', hcrc]) hdrop)
  · have hbeside : first + width ≤ 8 * Hdr.crc32c.off ∨ 8 * (Hdr.crc32c.off + 4) ≤ first := by omega
    have hfield : Bytes.slice bad Hdr.crc32c.off 4 = Bytes.slice good Hdr.crc32c.off 4 :=
      h.slice_eq hbeside
    rw [hfield, hread] at hread'
    exact h.crc_ne hwidth hoff hbeside (le32_injective hread').symm

theorem decodeFrame_of_verifyCrc {bytes : List UInt8}
    (h : ∀ seq, verifyCrc bytes .none false seq ≠ .ok ()) :
        ∃ e, decodeFrame bytes .none false = .error e := by
  cases hdecode : decodeFrame bytes .none false with
  | error e => exact ⟨e, rfl⟩
  | ok f =>
    obtain ⟨header, -, hrest⟩ := bind_eq_ok.mp hdecode
    obtain ⟨⟨⟩, hcrc, -⟩ := bind_eq_ok.mp hrest
    exact absurd hcrc (h header.seq)

/-- The bytes an encoder makes of a frame. -/
def Encoded (nocrc : Bool) (bytes : List UInt8) : Prop :=
  (∃ f seq, encodeRequestSeq f seq .none nocrc = .ok bytes) ∨
    ∃ f seq, encodeReturnSeq f seq .none nocrc = .ok bytes

/-- **A frame hit by a short burst is refused**, where checksums are on. -/
theorem decodeFrame_burst {good bad : List UInt8} {first width : ℕ} (hgood : Encoded false good)
    (h : Burst good bad first width) (hwidth : width ≤ 32)
    (hregion : first + width ≤ 8 * Hdr.crc32c.off ∨
      8 * Hdr.crc32c.off ≤ first ∧ first + width ≤ 8 * (Hdr.crc32c.off + 4) ∨
      8 * (Hdr.crc32c.off + 4) ≤ first) : ∃ e, decodeFrame bad .none false = .error e := by
  obtain ⟨header, body, hsealed⟩ :
      ∃ header body, good = sealFrame (writeHeader header .none ++ body) .none false := by
    rcases hgood with ⟨f, seq, henc⟩ | ⟨f, seq, henc⟩
    · exact ⟨_, _, (encodeRequestSeq_eq_ok.mp henc).2⟩
    · exact ⟨_, _, (encodeReturnSeq_eq_ok.mp henc).2⟩
  have hlen : headerLen ≤ (writeHeader header .none ++ body).length := by
    rw [List.length_append, length_writeHeader]
    exact Nat.le_add_right headerLen body.length
  have hlen' : headerLen ≤ good.length := by rwa [hsealed, length_sealFrame]
  have hverify (seq : UInt64) : verifyCrc good .none false seq = .ok () := by
    rw [hsealed]
    exact verifyCrc_sealed hlen seq
  exact decodeFrame_of_verifyCrc fun seq => h.verifyCrc_ne hwidth hlen' hregion (hverify seq)

/-- The request of one row with its first byte sent wrong. -/
theorem decodeFrame_burst_oneRow : ∃ good, encodeRequestSeq oneRow 5 .none false = .ok good ∧
    ∃ e, decodeFrame (Bytes.put good 0 [0x45]) .none false = .error e := by
  obtain ⟨good, hgood⟩ : ∃ good, encodeRequestSeq oneRow 5 .none false = .ok good :=
    ⟨_, encodeRequestSeq_eq_ok.mpr ⟨encodable_oneRow, rfl⟩⟩
  have hmagic : Bytes.slice good 0 8 = magic := by
    rw [(encodeRequestSeq_eq_ok.mp hgood).2]
    exact slice_sealed (v := magic) (by simp [headerLayout, Hdr.off]) (by decide)
  have hne : Bytes.put good 0 [0x45] ≠ good := by
    intro heq
    have hlen : 8 ≤ good.length := by
      have hslice := congrArg List.length hmagic
      simp [Bytes.slice, magic] at hslice
      omega
    have hput : Bytes.slice (Bytes.put good 0 [0x45]) 0 1 = [0x45] :=
      Bytes.slice_put_self rfl (Nat.le_trans (by decide) hlen)
    have hfirst : Bytes.slice (Bytes.slice good 0 8) 0 1 = [0x45] := by
      rw [Bytes.slice_slice (by decide), ← hput, heq]
    rw [hmagic] at hfirst
    exact absurd hfirst (by decide)
  have hburst : Burst good (Bytes.put good 0 [0x45]) (8 * 0) 8 :=
    burst_of_byte (Bytes.length_put ..) hne (Bytes.take_put ..) (Bytes.drop_put _ _ (by decide))
  exact ⟨good, hgood, decodeFrame_burst (.inl ⟨oneRow, 5, hgood⟩) hburst (by decide)
    (.inl (by decide))⟩

/-- Where checksums are off, a frame stamped 5 may arrive stamped 4. -/
theorem not_decodeFrame_burst_nocrc : ∃ good bad, encodeRequestSeq oneRow 5 .none true = .ok good ∧
    Burst good bad (8 * Hdr.seq.off) 8 ∧
    decodeFrame bad .none true = .ok (.request { oneRow with seq := 4 }) := by
  have henc (seq : UInt64) : encodeRequestSeq oneRow seq .none true =
      .ok (writeHeader (requestHeader oneRow seq) .none ++ requestBody oneRow .none) :=
    encodeRequestSeq_eq_ok.mpr ⟨encodable_oneRow, rfl⟩
  have hheader : Burst (writeHeader (requestHeader oneRow 5) .none)
      (writeHeader (requestHeader oneRow 4) .none) (8 * Hdr.seq.off) 8 :=
    burst_of_byte (by simp) (by rw [writeHeader_eq, writeHeader_eq]; decide)
      (by rw [writeHeader_eq, writeHeader_eq]; decide)
      (by rw [writeHeader_eq, writeHeader_eq]; decide)
  exact ⟨_, _, henc 5, hheader.append _,
    (decodeFrame_encodeSeq 4 true _).1 oneRow (henc 4)⟩

end Wire

end Mimo26

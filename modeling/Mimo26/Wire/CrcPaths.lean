import Mimo26.Wire.CrcBurst

/-!
# One checksum, four walks

The paths of the checksum (`crc32c.rs`): the bit-by-bit definition, the walk of the 256-entry table,
the processor's instructions over words of eight bytes with a tail, and the walk in three segments
that reads the four bytes of the checksum field as zero. All of them feed the bits of the message
into one register.

An instruction of the processor is known by its documentation only: it feeds the bits of its operand,
least significant first. A slice out of range ends the program, here with `none`.

## Main definitions

* `crc32cBitwise` — the definition of the checksum
* `buildTable`, `crc32cTable` — the table and its walk
* `CrcUnit`, `updateWords` — the processor's instructions
* `crc32cZeroedOn` — the checksum with its own field read as zero, on any processor

## Main results

* `updateTable_eq_bitwise`, `updateWords_toBitVec` — the walks agree
* `crc_paths_agree` — all paths give the checksum of the definition
* `crc32cZeroedOn_outside` — a field that is not there
-/

namespace Mimo26

namespace Wire

open ShiftRegister

/-! ### The definition and the table -/

/-- Bit by bit. -/
def crc32cBitwise (bytes : List UInt8) : UInt32 :=
  ~~~ bytes.foldl (fun crc b => (crcShift 0x82F63B78)^[8] (crc ^^^ b.toUInt32)) 0xFFFFFFFF

def buildTable (poly : UInt32) : List UInt32 :=
  (List.range 256).map fun i => tableEntry poly (UInt32.ofNat i)

/-- The walk of a table, byte at a time. -/
def walkTable (table : List UInt32) (crc : UInt32) (bytes : List UInt8) : UInt32 :=
  bytes.foldl (fun crc b => table.getD ((crc ^^^ b.toUInt32) &&& 0xFF).toNat 0 ^^^ (crc >>> 8)) crc

/-- The table path alone. -/
def crc32cTable (bytes : List UInt8) : UInt32 :=
  ~~~ walkTable (buildTable 0x82F63B78) (~~~ 0) bytes

theorem getD_buildTable (poly x : UInt32) :
    (buildTable poly).getD (x &&& 0xFF).toNat 0 = tableEntry poly (x &&& 0xFF) := by
  have hlt : (x &&& 0xFF).toNat < 256 := by
    rw [UInt32.toNat_and]
    exact Nat.lt_succ_of_le Nat.and_le_right
  rw [buildTable, List.getD_eq_getElem?_getD, List.getElem?_map, List.getElem?_range hlt,
    Option.map_some, Option.getD_some, UInt32.ofNat_toNat]

theorem walkTable_buildTable (poly crc : UInt32) (bytes : List UInt8) :
    walkTable (buildTable poly) crc bytes = updateTable poly crc bytes := by
  simp only [walkTable, updateTable, getD_buildTable]

/-- A byte of the definition is its eight bits. -/
theorem bitwiseStep_toBitVec (poly crc : UInt32) (b : UInt8) :
    ((crcShift poly)^[8] (crc ^^^ b.toUInt32)).toBitVec =
      feed poly.toBitVec crc.toBitVec (byteBits b) := by
  have hlen : (byteBits b).length ≤ 32 := by
    rw [length_byteBits]
    decide
  rw [feed_ofBits crc.toBitVec hlen, length_byteBits, ofBits_byteBits, ← UInt32.toBitVec_xor]
  exact tableEntry_toBitVec poly _

/-- **The table walk is the definition.** -/
theorem updateTable_eq_bitwise (poly crc : UInt32) (bytes : List UInt8) :
    updateTable poly crc bytes =
      bytes.foldl (fun crc b => (crcShift poly)^[8] (crc ^^^ b.toUInt32)) crc := by
  refine List.foldl_ext _ _ crc fun crc b _ => ?_
  rw [← UInt32.toBitVec_inj, tableStep_toBitVec, bitwiseStep_toBitVec]

/-! ### Words at a time -/

/-- The CRC32C instructions of a processor. -/
structure CrcUnit where
  word : UInt32 → UInt64 → UInt32
  byte : UInt32 → UInt8 → UInt32
  word_eq : ∀ crc w, (word crc w).toBitVec =
    feed CrcFamily.castagnoli.poly.toBitVec crc.toBitVec
      ((List.range 64).map w.toBitVec.getLsbD)
  byte_eq : ∀ crc b, (byte crc b).toBitVec =
    feed CrcFamily.castagnoli.poly.toBitVec crc.toBitVec (byteBits b)

/-- Words of eight bytes, then the tail byte by byte. -/
def updateWords (u : CrcUnit) (crc : UInt32) (bytes : List UInt8) : UInt32 :=
  let crc := (Bytes.chunksExact 8 bytes).foldl
    (fun crc c => u.word crc (UInt64.ofNat (Bytes.ofLe c))) crc
  (bytes.drop (bytes.length / 8 * 8)).foldl u.byte crc

/-- The bits of a byte string are those of its number. -/
theorem bits_eq_testBit (bytes : List UInt8) :
    bits bytes = (List.range (8 * bytes.length)).map (Bytes.ofLe bytes).testBit := by
  induction bytes with
  | nil => rfl
  | cons b bytes ih =>
    have hword : Bytes.ofLe (b :: bytes) = 2 ^ 8 * Bytes.ofLe bytes + b.toNat := by
      rw [Bytes.ofLe, Nat.add_comm]
      rfl
    rw [bits, List.flatMap_cons, ← bits, ih, List.length_cons, Nat.mul_succ, Nat.add_comm,
      List.range_add, List.map_append, List.map_map, hword]
    congr 1
    · refine List.map_congr_left fun i hi => ?_
      rw [Nat.testBit_two_pow_mul_add _ b.toNat_lt, if_pos (List.mem_range.mp hi)]
      rfl
    · refine List.map_congr_left fun i _ => ?_
      rw [Function.comp_apply, Nat.testBit_two_pow_mul_add _ b.toNat_lt,
        if_neg (Nat.not_lt.mpr (Nat.le_add_right 8 i)), Nat.add_sub_cancel_left]

/-- A word of the processor is its eight bytes. -/
theorem bits_word {c : List UInt8} (hc : c.length = 8) :
    (List.range 64).map (UInt64.ofNat (Bytes.ofLe c)).toBitVec.getLsbD = bits c := by
  have hlt : Bytes.ofLe c < 2 ^ 64 := by
    have hofLe := Bytes.ofLe_lt c
    rw [hc] at hofLe
    exact lt_of_lt_of_eq hofLe (by norm_num)
  rw [bits_eq_testBit, hc]
  refine List.map_congr_left fun i _ => ?_
  show (UInt64.ofNat (Bytes.ofLe c)).toBitVec.toNat.testBit i = _
  rw [UInt64.toNat_toBitVec, UInt64.toNat_ofNat_of_lt' hlt]

/-- **The processor's walk feeds the bits.** -/
theorem updateWords_toBitVec (u : CrcUnit) (crc : UInt32) (bytes : List UInt8) :
    (updateWords u crc bytes).toBitVec =
      feed CrcFamily.castagnoli.poly.toBitVec crc.toBitVec (bits bytes) := by
  have htail (crc : UInt32) (bytes : List UInt8) : (bytes.foldl u.byte crc).toBitVec =
      feed CrcFamily.castagnoli.poly.toBitVec crc.toBitVec (bits bytes) := by
    induction bytes generalizing crc with
    | nil => rfl
    | cons b bytes ih =>
      rw [List.foldl_cons, ih, u.byte_eq, ← feed_append]
      rfl
  have hwords (crc : UInt32) (chunks : List (List UInt8)) (hlen : ∀ c ∈ chunks, c.length = 8) :
      (chunks.foldl (fun crc c => u.word crc (UInt64.ofNat (Bytes.ofLe c))) crc).toBitVec =
        feed CrcFamily.castagnoli.poly.toBitVec crc.toBitVec (bits chunks.flatten) := by
    induction chunks generalizing crc with
    | nil => rfl
    | cons c chunks ih =>
      rw [List.foldl_cons, ih _ fun d hd => hlen d (List.mem_cons_of_mem c hd), u.word_eq,
        bits_word (hlen c List.mem_cons_self), List.flatten_cons, bits_append, feed_append]
  rw [updateWords, htail, hwords _ _ fun c hc => Bytes.length_of_mem_chunksExact hc,
    Bytes.flatten_chunksExact, ← feed_append, ← bits_append, List.take_append_drop]

/-- The instructions, by the table. -/
def tableUnit : CrcUnit where
  word crc w := updateFamily .castagnoli crc (le64 w)
  byte crc b := updateFamily .castagnoli crc [b]
  word_eq crc w := by
    have hw : UInt64.ofNat (Bytes.ofLe (le64 w)) = w := by
      rw [le64, Bytes.ofLe_toLe_of_lt (lt_of_lt_of_eq w.toNat_lt (by norm_num)), UInt64.ofNat_toNat]
    have hbits := bits_word (length_le64 w)
    rw [hw] at hbits
    rw [hbits]
    exact updateTable_toBitVec _ _ _
  byte_eq crc b := by
    rw [updateFamily, updateTable_toBitVec]
    simp [bits]

/-! ### The paths of the program -/

/-- The update of a processor: its instructions where it has them, else the table. -/
def updateCastagnoli (cpu : Option CrcUnit) (crc : UInt32) (bytes : List UInt8) : UInt32 :=
  match cpu with
  | some u => updateWords u crc bytes
  | none => walkTable (buildTable 0x82F63B78) crc bytes

/-- The instructions are of the Castagnoli polynomial only. -/
def updateFamilyOn (cpu : Option CrcUnit) (family : CrcFamily) (crc : UInt32)
    (bytes : List UInt8) : UInt32 :=
  match family with
  | .castagnoli => updateCastagnoli cpu crc bytes
  | .ieee => walkTable (buildTable 0xEDB88320) crc bytes

def crc32cWithOn (cpu : Option CrcUnit) (family : CrcFamily) (bytes : List UInt8) : UInt32 :=
  ~~~ updateFamilyOn cpu family (~~~ 0) bytes

/-- The checksum with the four bytes at `crcOff` read as zero; none where a segment is out of
range. -/
def crc32cZeroedOn (cpu : Option CrcUnit) (family : CrcFamily) (bytes : List UInt8)
    (crcOff : ℕ) : Option UInt32 :=
  if crcOff ≤ bytes.length ∧ crcOff + 4 ≤ bytes.length then
    let crc := updateFamilyOn cpu family (~~~ 0) (bytes.take crcOff)
    let crc := updateFamilyOn cpu family crc [0, 0, 0, 0]
    let crc := updateFamilyOn cpu family crc (bytes.drop (crcOff + 4))
    some (~~~ crc)
  else none

/-- The digits one to nine: a word and a tail of one byte. -/
example : crc32cWithOn (some tableUnit) .castagnoli
    [0x31, 0x32, 0x33, 0x34, 0x35, 0x36, 0x37, 0x38, 0x39] = 0xE3069283 := by decide +kernel

/-- Every path of a processor is the table walk. -/
theorem updateFamilyOn_eq (cpu : Option CrcUnit) (family : CrcFamily) (crc : UInt32)
    (bytes : List UInt8) : updateFamilyOn cpu family crc bytes = updateFamily family crc bytes := by
  cases family with
  | ieee => exact walkTable_buildTable _ _ _
  | castagnoli =>
    cases cpu with
    | none => exact walkTable_buildTable _ _ _
    | some u =>
      rw [updateFamilyOn, updateCastagnoli, updateFamily, ← UInt32.toBitVec_inj,
        updateWords_toBitVec, updateTable_toBitVec]

theorem updateFamily_append (family : CrcFamily) (crc : UInt32) (a b : List UInt8) :
    updateFamily family crc (a ++ b) = updateFamily family (updateFamily family crc a) b :=
  List.foldl_append

/-- The three segments are the bytes with the field set to zero. -/
theorem crc32cZeroedOn_eq (cpu : Option CrcUnit) (family : CrcFamily) {bytes : List UInt8}
    {off : ℕ} (hoff : off + 4 ≤ bytes.length) :
    crc32cZeroedOn cpu family bytes off =
      some (crc32cWithOn cpu family (Bytes.put bytes off [0, 0, 0, 0])) := by
  rw [crc32cZeroedOn, if_pos ⟨by omega, hoff⟩, crc32cWithOn, Bytes.put_eq_append hoff]
  simp only [updateFamilyOn_eq, updateFamily_append, List.length_cons, List.length_nil]

theorem crc32cWithOn_castagnoli (cpu : Option CrcUnit) (bytes : List UInt8) :
    crc32cWithOn cpu .castagnoli bytes = crc32cBitwise bytes := by
  rw [crc32cWithOn, updateFamilyOn_eq, updateFamily, updateTable_eq_bitwise]
  rfl

theorem crc32cTable_eq (bytes : List UInt8) : crc32cTable bytes = crc32cBitwise bytes :=
  crc32cWithOn_castagnoli none bytes

/-- **All paths agree.** For every byte string the table walk gives the checksum of the definition,
and on every processor, at every offset, the walk in three segments gives the checksum of the bytes
with the four at the offset set to zero, where there are four. -/
theorem crc_paths_agree (bytes : List UInt8) :
    crc32cTable bytes = crc32cBitwise bytes ∧
    ∀ (cpu : Option CrcUnit) (off : ℕ),
      (∀ family, crc32cZeroedOn cpu family bytes off =
        if off + 4 ≤ bytes.length then
          some (crc32cWithOn cpu family (Bytes.put bytes off [0, 0, 0, 0])) else none) ∧
      crc32cZeroedOn cpu .castagnoli bytes off =
        if off + 4 ≤ bytes.length then some (crc32cBitwise (Bytes.put bytes off [0, 0, 0, 0]))
        else none := by
  have hzeroed (cpu : Option CrcUnit) (off : ℕ) (family : CrcFamily) :
      crc32cZeroedOn cpu family bytes off =
        if off + 4 ≤ bytes.length then
          some (crc32cWithOn cpu family (Bytes.put bytes off [0, 0, 0, 0])) else none := by
    split
    · next hoff => exact crc32cZeroedOn_eq cpu family hoff
    · next hoff => exact if_neg fun h => hoff h.2
  refine ⟨crc32cTable_eq bytes, fun cpu off => ⟨hzeroed cpu off, ?_⟩⟩
  rw [hzeroed, crc32cWithOn_castagnoli]

/-- **A field that is not there** ends the program: no byte string holds four bytes at its end. -/
theorem crc32cZeroedOn_outside :
    crc32cZeroedOn none .castagnoli [1, 2, 3, 4] 1 = none ∧
      ¬ ∀ (bytes : List UInt8) (off : ℕ), crc32cZeroedOn none .castagnoli bytes off =
        some (crc32cBitwise (Bytes.put bytes off [0, 0, 0, 0])) := by
  have hnone : crc32cZeroedOn none .castagnoli [1, 2, 3, 4] 1 = none := if_neg (by decide)
  refine ⟨hnone, fun hall => ?_⟩
  have hsome := hall [1, 2, 3, 4] 1
  rw [hnone] at hsome
  exact nomatch hsome

end Wire

end Mimo26

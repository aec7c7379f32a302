import Mimo26.Library.Bytes
import Mimo26.Wire.Layout

/-!
# CRC32C

The per-frame checksum (`crc32c.rs`): reflected Castagnoli, initial value and final complement all
ones, byte at a time through a 256-entry table. The hardware paths of the source compute the same
value and are not modelled apart; a table entry is computed where it is looked up.

## Main definitions

* `updateTable` — the running checksum over a byte string
* `crc32cWith`, `crc32cZeroed` — the checksum, and with the four bytes of its own field read as zero
-/

namespace Mimo26

namespace Wire

/-- Checksum families the ladder distinguishes. -/
inductive CrcFamily where
  | castagnoli | ieee
  deriving DecidableEq, Repr

def CrcFamily.poly : CrcFamily → UInt32
  | .castagnoli => 0x82F63B78
  | .ieee => 0xEDB88320

/-- One bit of a table entry's computation. -/
def crcShift (poly c : UInt32) : UInt32 :=
  if c &&& 1 != 0 then poly ^^^ (c >>> 1) else c >>> 1

/-- Entry `i` of the table of `poly`: eight shifts of `i`. -/
def tableEntry (poly i : UInt32) : UInt32 := (crcShift poly)^[8] i

def updateTable (poly crc : UInt32) (bytes : List UInt8) : UInt32 :=
  bytes.foldl (fun crc b => tableEntry poly ((crc ^^^ b.toUInt32) &&& 0xFF) ^^^ (crc >>> 8)) crc

def updateFamily (family : CrcFamily) (crc : UInt32) (bytes : List UInt8) : UInt32 :=
  updateTable family.poly crc bytes

def familyFor (naive : WireNaive) : CrcFamily :=
  if naive.has WireNaive.crc32Ieee then .ieee else .castagnoli

def crc32cWith (family : CrcFamily) (bytes : List UInt8) : UInt32 :=
  ~~~ updateFamily family (~~~ 0) bytes

/-- The checksum of `bytes` with the four bytes at `crcOff` read as zero, streamed in three
segments. -/
def crc32cZeroed (family : CrcFamily) (bytes : List UInt8) (crcOff : ℕ) : UInt32 :=
  let crc := updateFamily family (~~~ 0) (bytes.take crcOff)
  let crc := updateFamily family crc [0, 0, 0, 0]
  let crc := updateFamily family crc (bytes.drop (crcOff + 4))
  ~~~ crc

/-- The RFC 3720 test vector: the ASCII digits one to nine. -/
example : crc32cWith .castagnoli [0x31, 0x32, 0x33, 0x34, 0x35, 0x36, 0x37, 0x38, 0x39]
    = 0xE3069283 := by decide +kernel

/-- Writing the checksum field does not change the checksum. -/
theorem crc32cZeroed_put (family : CrcFamily) (bytes v : List UInt8) (off : ℕ)
    (hv : v.length = 4) :
    crc32cZeroed family (Bytes.put bytes off v) off = crc32cZeroed family bytes off := by
  rw [crc32cZeroed, crc32cZeroed, Bytes.take_put, Bytes.drop_put _ _ hv.le]

end Wire

end Mimo26

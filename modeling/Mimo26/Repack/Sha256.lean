import Mathlib.Data.List.Basic

/-!
# SHA-256

The streaming hasher of `sha256.rs`: a chaining state, the bytes of the block being filled, and the
number of bytes absorbed.

## Main definitions

* `Sha256`, `update`, `finalize` — the hasher
* `compress` — the compression function
* `sha256`, `hex` — the digest of a byte string, and its manifest form
-/

namespace Mimo26

namespace Repack

/-- The round constants. -/
def shaK : List UInt32 := [
  0x428a2f98, 0x71374491, 0xb5c0fbcf, 0xe9b5dba5, 0x3956c25b, 0x59f111f1, 0x923f82a4, 0xab1c5ed5,
  0xd807aa98, 0x12835b01, 0x243185be, 0x550c7dc3, 0x72be5d74, 0x80deb1fe, 0x9bdc06a7, 0xc19bf174,
  0xe49b69c1, 0xefbe4786, 0x0fc19dc6, 0x240ca1cc, 0x2de92c6f, 0x4a7484aa, 0x5cb0a9dc, 0x76f988da,
  0x983e5152, 0xa831c66d, 0xb00327c8, 0xbf597fc7, 0xc6e00bf3, 0xd5a79147, 0x06ca6351, 0x14292967,
  0x27b70a85, 0x2e1b2138, 0x4d2c6dfc, 0x53380d13, 0x650a7354, 0x766a0abb, 0x81c2c92e, 0x92722c85,
  0xa2bfe8a1, 0xa81a664b, 0xc24b8b70, 0xc76c51a3, 0xd192e819, 0xd6990624, 0xf40e3585, 0x106aa070,
  0x19a4c116, 0x1e376c08, 0x2748774c, 0x34b0bcb5, 0x391c0cb3, 0x4ed8aa4a, 0x5b9cca4f, 0x682e6ff3,
  0x748f82ee, 0x78a5636f, 0x84c87814, 0x8cc70208, 0x90befffa, 0xa4506ceb, 0xbef9a3f7, 0xc67178f2]

/-- The eight words of the chaining state, which are also the working variables of a round. -/
structure ShaWords where
  a : UInt32
  b : UInt32
  c : UInt32
  d : UInt32
  e : UInt32
  f : UInt32
  g : UInt32
  h : UInt32
  deriving DecidableEq, Repr

/-- The initial chaining state. -/
def shaH0 : ShaWords :=
  ⟨0x6a09e667, 0xbb67ae85, 0x3c6ef372, 0xa54ff53a, 0x510e527f, 0x9b05688c, 0x1f83d9ab, 0x5be0cd19⟩

/-- The hasher. The first `buf_len` bytes of the source's buffer are `buf`. -/
structure Sha256 where
  h : ShaWords
  buf : List UInt8
  totalLen : UInt64
  deriving DecidableEq, Repr

def rotateRight (x n : UInt32) : UInt32 := (x >>> n) ||| (x <<< (32 - n))

/-- A word from four big-endian bytes. -/
def fromBeBytes (b0 b1 b2 b3 : UInt8) : UInt32 :=
  (b0.toUInt32 <<< 24) ||| (b1.toUInt32 <<< 16) ||| (b2.toUInt32 <<< 8) ||| b3.toUInt32

/-- The four big-endian bytes of a word. -/
def toBeBytes (x : UInt32) : List UInt8 :=
  [(x >>> 24).toUInt8, (x >>> 16).toUInt8, (x >>> 8).toUInt8, x.toUInt8]

/-- The eight big-endian bytes of a length. -/
def lenBytes (x : UInt64) : List UInt8 := toBeBytes (x >>> 32).toUInt32 ++ toBeBytes x.toUInt32

/-- The first sixteen words of the message schedule. -/
def blockWords : List UInt8 → List UInt32
  | b0 :: b1 :: b2 :: b3 :: bs => fromBeBytes b0 b1 b2 b3 :: blockWords bs
  | _ => []

/-- The next word of the schedule, after at least sixteen. -/
def nextWord (w : List UInt32) : UInt32 :=
  let i := w.length
  let w15 := w.getD (i - 15) 0
  let w2 := w.getD (i - 2) 0
  let s0 := rotateRight w15 7 ^^^ rotateRight w15 18 ^^^ (w15 >>> 3)
  let s1 := rotateRight w2 17 ^^^ rotateRight w2 19 ^^^ (w2 >>> 10)
  w.getD (i - 16) 0 + s0 + w.getD (i - 7) 0 + s1

/-- The message schedule of a block. -/
def schedule (block : List UInt8) : List UInt32 :=
  (List.range 48).foldl (fun w _ => w ++ [nextWord w]) (blockWords block)

/-- One round. -/
def shaRound (s : ShaWords) (kw : UInt32 × UInt32) : ShaWords :=
  let s1 := rotateRight s.e 6 ^^^ rotateRight s.e 11 ^^^ rotateRight s.e 25
  let ch := (s.e &&& s.f) ^^^ (~~~ s.e &&& s.g)
  let t1 := s.h + s1 + ch + kw.1 + kw.2
  let s0 := rotateRight s.a 2 ^^^ rotateRight s.a 13 ^^^ rotateRight s.a 22
  let maj := (s.a &&& s.b) ^^^ (s.a &&& s.c) ^^^ (s.b &&& s.c)
  let t2 := s0 + maj
  ⟨t1 + t2, s.a, s.b, s.c, s.d + t1, s.e, s.f, s.g⟩

/-- The compression function. -/
def compress (h : ShaWords) (block : List UInt8) : ShaWords :=
  let s := (shaK.zip (schedule block)).foldl shaRound h
  ⟨h.a + s.a, h.b + s.b, h.c + s.c, h.d + s.d, h.e + s.e, h.f + s.f, h.g + s.g, h.h + s.h⟩

namespace Sha256

def new : Sha256 := ⟨shaH0, [], 0⟩

/-- Compress the buffer when it holds a block. -/
def flush (s : Sha256) : Sha256 :=
  if s.buf.length = 64 then { s with h := compress s.h s.buf, buf := [] } else s

/-- Compress whole blocks of the input, and keep what is left of it. -/
def absorb (s : Sha256) (data : List UInt8) : Sha256 :=
  if 64 ≤ data.length then absorb { s with h := compress s.h (data.take 64) } (data.drop 64)
  else if data.isEmpty then s
  else { s with buf := data }
termination_by data.length
decreasing_by
  rw [List.length_drop]
  omega

def update (s : Sha256) (data : List UInt8) : Sha256 :=
  let s := { s with totalLen := s.totalLen + UInt64.ofNat data.length }
  if 0 < s.buf.length then
    let take := min (64 - s.buf.length) data.length
    absorb (flush { s with buf := s.buf ++ data.take take }) (data.drop take)
  else absorb s data

/-- Absorb a padding byte, which does not count toward the length. -/
def updateRaw (s : Sha256) (b : UInt8) : Sha256 := flush { s with buf := s.buf ++ [b] }

/-- Zeros up to byte 56 of a block, at most 63 of them. -/
def padZeros (s : Sha256) : Sha256 :=
  (List.range 63).foldl (fun s _ => if s.buf.length ≠ 56 then s.updateRaw 0 else s) s

def finalize (s : Sha256) : List UInt8 :=
  let bitLen := s.totalLen * 8
  let s := (lenBytes bitLen).foldl updateRaw (s.updateRaw 0x80).padZeros
  [s.h.a, s.h.b, s.h.c, s.h.d, s.h.e, s.h.f, s.h.g, s.h.h].flatMap toBeBytes

end Sha256

/-- The digest of a byte string. -/
def sha256 (data : List UInt8) : List UInt8 := (Sha256.new.update data).finalize

/-- Lowercase hexadecimal, two digits a byte. -/
def hex (digest : List UInt8) : String :=
  String.ofList (digest.flatMap fun b =>
    [Nat.digitChar (b.toNat / 16), Nat.digitChar (b.toNat % 16)])

end Repack

end Mimo26

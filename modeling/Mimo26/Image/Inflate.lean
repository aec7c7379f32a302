import Mathlib.Algebra.Ring.Nat
import Mathlib.Data.Int.Notation
import Mathlib.Data.List.Basic
import Mimo26.Image.Error

/-!
# Inflate

The DEFLATE decoder for PNG image data (`inflate.rs`): a 64-bit buffer refilled eight bytes at a
time, whose bits from `bitcnt` on are what the last word left there; zero bytes past the end of the
input; Huffman codes by a table of ten bits, and bit by bit where that has no entry.

## Main definitions

* `Inflater`, `refill`, `bits` — the decoder's state and its bits
* `Huffman`, `Huffman.new`, `Huffman.decode` — the codes
* `copyMatch`, `stored`, `codes`, `dynamicTables`, `run`, `inflate` — the decoder
-/

namespace Mimo26

namespace Image

/-- The decoder, and what it has put out. -/
structure Inflater where
  pos : ℕ := 0
  /-- A `u64`. -/
  bitbuf : ℕ := 0
  bitcnt : ℕ := 0
  /-- Zero bytes loaded past the end. -/
  virt : ℕ := 0
  out : List UInt8 := []
  deriving DecidableEq, Repr

abbrev Inflate := EStateM Stop Inflater

def truncated : String := "truncated PNG image data (deflate stream ends early)"

/-! ### Bits -/

/-- `u64::from_le_bytes` -/
def leWord : List UInt8 → ℕ
  | [] => 0
  | b :: bytes => b.toNat + 2 ^ 8 * leWord bytes

/-- `data.get(pos..pos + n)` -/
def chunk? (data : List UInt8) (pos n : ℕ) : Option (List UInt8) :=
  if pos + n ≤ data.length then some ((data.drop pos).take n) else none

/-- `while self.bitcnt <= 56` -/
def refillBytes (data : List UInt8) (s : Inflater) : EStateM.Result Stop Inflater Unit :=
  if s.bitcnt ≤ 56 then
    match data[s.pos]? with
    | some b => refillBytes data { s with
        pos := s.pos + 1
        bitbuf := s.bitbuf ||| b.toNat <<< s.bitcnt
        bitcnt := s.bitcnt + 8 }
    | none =>
      if 8 < s.virt + 1 then .error (.error ⟨truncated⟩) { s with virt := s.virt + 1 }
      else refillBytes data { s with virt := s.virt + 1, bitcnt := s.bitcnt + 8 }
  else .ok () s
termination_by 57 - s.bitcnt

/-- At least 56 bits in the buffer. -/
def refill (data : List UInt8) : Inflate Unit := fun s =>
  if 56 < s.bitcnt then .ok () s
  else match chunk? data s.pos 8 with
    | some chunk =>
      let nbytes := (63 - s.bitcnt) >>> 3
      .ok () { s with
        bitbuf := s.bitbuf ||| leWord chunk <<< s.bitcnt % 2 ^ 64
        pos := s.pos + nbytes
        bitcnt := s.bitcnt + nbytes * 8 }
    | none => refillBytes data s

def consume (n : ℕ) : Inflate Unit := fun s =>
  if s.bitcnt < n then .error .panic s
  else .ok () { s with bitbuf := s.bitbuf >>> n, bitcnt := s.bitcnt - n }

def bits (n : ℕ) : Inflate ℕ := do
  let s ← get
  let v := s.bitbuf &&& (2 ^ n - 1)
  consume n
  pure v

/-! ### Huffman codes -/

inductive Kind where
  | codeLengths
  | lens
  | dists
  deriving DecidableEq, Repr

def fastBits : ℕ := 10

structure Huffman where
  /-- The symbol and the length of a code of up to `fastBits` bits, else zero. -/
  fast : List ℕ
  count : List ℕ
  symbols : List ℕ
  deriving DecidableEq, Repr

/-- The `n` low bits of a number, in reverse. -/
def reverseBits : ℕ → ℕ → ℕ
  | 0, _ => 0
  | n + 1, code => code % 2 * 2 ^ n + reverseBits n (code / 2)

/-- `while i < h.fast.len()`, in steps of `1 << len`. -/
def fillFast (fast : List ℕ) (entry len i : ℕ) : List ℕ :=
  if i < fast.length then fillFast (fast.set i entry) entry len (i + 2 ^ len) else fast
termination_by fast.length - i
decreasing_by
  have hpos := Nat.two_pow_pos len
  simp only [List.length_set]
  omega

namespace Huffman

/-- An entry that a loop writes or reads, or a panic. -/
def cell? (xs : List ℕ) (i : ℕ) : Except Stop ℕ :=
  match xs[i]? with
  | some x => .ok x
  | none => .error .panic

def countLengths (lengths : List ℕ) : Except Stop (List ℕ) := do
  let count ← lengths.foldlM (fun count l => do
    let c ← cell? count l
    pure (count.set l (c + 1))) (List.replicate 16 0)
  pure (count.set 0 0)

/-- The codes left over, unless there are too many. -/
def leftOver (count : List ℕ) : Except Stop ℤ :=
  (count.drop 1).foldlM (fun (left : ℤ) (c : ℕ) =>
    let left := 2 * left - c
    if left < 0 then .error (.error ⟨"PNG image data: over-subscribed Huffman code"⟩)
    else .ok left) 1

/-- Where the symbols of each length begin. -/
def offsets (count : List ℕ) : Except Stop (List ℕ) :=
  (List.range' 1 14).foldlM (fun offs len => do
    let o ← cell? offs len
    let c ← cell? count len
    pure (offs.set (len + 1) (o + c))) (List.replicate 16 0)

/-- The symbols in the order of their codes. -/
def sortSymbols (lengths offs : List ℕ) : Except Stop (List ℕ) := do
  let sorted ← lengths.zipIdx.foldlM (fun (sorted : List ℕ × List ℕ) sym =>
    if sym.1 ≠ 0 then do
      let o ← cell? sorted.2 sym.1
      if o < sorted.1.length then
        pure (sorted.1.set o (sym.2 % 2 ^ 16), sorted.2.set sym.1 (o + 1))
      else .error .panic
    else pure sorted) (List.replicate lengths.length 0, offs)
  pure sorted.1

/-- The table, the next code and its place. -/
structure Fill where
  fast : List ℕ
  code : ℕ
  k : ℕ

/-- A code of a length. -/
def fillCode (symbols : List ℕ) (len : ℕ) (s : Fill) : Except Stop Fill := do
  let fast ← if len ≤ fastBits then do
      let rev := reverseBits 32 s.code >>> (32 - len)
      let sym ← cell? symbols s.k
      pure (fillFast s.fast (sym <<< 4 % 2 ^ 16 ||| len) len rev)
    else pure s.fast
  pure ⟨fast, s.code + 1, s.k + 1⟩

/-- The codes of a length. -/
def fillLength (count symbols : List ℕ) (s : Fill) (len : ℕ) : Except Stop Fill := do
  let c ← cell? count len
  let s ← (List.range c).foldlM (fun s _ => fillCode symbols len s) s
  pure { s with code := s.code <<< 1 }

def new (lengths : List ℕ) (kind : Kind) : Except Stop Huffman := do
  let count ← countLengths lengths
  let max := ((List.range' 1 15).reverse.find? fun l => count[l]? ≠ some 0).getD 0
  if max = 0 then
    -- no symbols: only a decode fails
    pure ⟨List.replicate (2 ^ fastBits) 0, count, []⟩
  else
    let left ← leftOver count
    if 0 < left ∧ (kind = .codeLengths ∨ max ≠ 1) then
      .error (.error ⟨"PNG image data: incomplete Huffman code"⟩)
    else
      let offs ← offsets count
      let symbols ← sortSymbols lengths offs
      let s ← (List.range' 1 15).foldlM (fillLength count symbols)
        ⟨List.replicate (2 ^ fastBits) 0, 0, 0⟩
      pure ⟨s.fast, count, symbols⟩

/-- Bit by bit, from length `len` on, with `n` lengths to go. -/
def decodeFrom (h : Huffman) : ℕ → ℕ → ℕ → ℕ → ℕ → Inflate ℕ
  | 0, _, _, _, _ => bail "PNG image data: invalid Huffman code"
  | n + 1, len, code, first, idx => do
    let b ← bits 1
    let code := code ||| b
    let count ← index h.count len
    if (code : ℤ) - count < first then
      let at' : ℤ := idx + code - first
      match if 0 ≤ at' then h.symbols[at'.toNat]? else none with
      | some s => pure s
      | none => bail "PNG image data: invalid Huffman code"
    else decodeFrom h n (len + 1) (code <<< 1) ((first + count) <<< 1) (idx + count)

def decodeSlow (h : Huffman) : Inflate ℕ := decodeFrom h 15 1 0 0 0

def decode (h : Huffman) : Inflate ℕ := do
  let s ← get
  let e ← index h.fast (s.bitbuf &&& (2 ^ fastBits - 1))
  if e ≠ 0 then
    consume (e &&& 15)
    pure (e >>> 4)
  else h.decodeSlow

end Huffman

/-! ### Blocks -/

def lenBase : List ℕ :=
  [3, 4, 5, 6, 7, 8, 9, 10, 11, 13, 15, 17, 19, 23, 27, 31, 35, 43, 51, 59, 67, 83, 99, 115, 131,
    163, 195, 227, 258]

def lenExtra : List ℕ :=
  [0, 0, 0, 0, 0, 0, 0, 0, 1, 1, 1, 1, 2, 2, 2, 2, 3, 3, 3, 3, 4, 4, 4, 4, 5, 5, 5, 5, 0]

def distBase : List ℕ :=
  [1, 2, 3, 4, 5, 7, 9, 13, 17, 25, 33, 49, 65, 97, 129, 193, 257, 385, 513, 769, 1025, 1537,
    2049, 3073, 4097, 6145, 8193, 12289, 16385, 24577]

def distExtra : List ℕ :=
  [0, 0, 0, 0, 1, 1, 2, 2, 3, 3, 4, 4, 5, 5, 6, 6, 7, 7, 8, 8, 9, 9, 10, 10, 11, 11, 12, 12, 13,
    13]

/-- `while remaining > 0`; none when a pass copies nothing. -/
def copyLoop (out : List UInt8) (src remaining : ℕ) : Option (List UInt8) :=
  if remaining = 0 then some out
  else
    let k := min remaining (out.length - src)
    if k = 0 then none
    else copyLoop (out ++ (out.drop src).take k) src (remaining - k)
termination_by remaining

/-- `len` bytes from `dist` back, which may overlap; none is a panic. -/
def copyMatch (out : List UInt8) (dist len : ℕ) : Option (List UInt8) :=
  if out.length < dist then none
  else
    let src := out.length - dist
    if dist = 1 then out[src]?.map fun b => out ++ List.replicate len b
    else copyLoop out src len

/-- To a byte boundary, with the whole bytes in the buffer handed back. -/
def handBack : Inflate Unit := do
  let s ← get
  consume (s.bitcnt &&& 7)
  let s ← get
  let back := s.bitcnt / 8
  let v := min back s.virt
  if s.pos < back - v then throw .panic
  set { s with virt := s.virt - v, pos := s.pos - (back - v), bitbuf := 0, bitcnt := 0 }

/-- The `len` bytes of a stored block from `pos` on. -/
def storedBytes (data : List UInt8) (outLen pos len : ℕ) : Inflate Unit := do
  let s ← get
  if outLen < s.out.length then throw .panic
  let want := min len (outLen - s.out.length)
  let avail := data.length - pos
  let take := min want avail
  let out := s.out ++ (data.drop pos).take take
  set { s with pos := pos, out := out }
  if outLen ≤ out.length then set { s with pos := pos + take, out := out }
  else if avail < len then bail truncated
  else set { s with pos := pos + len, out := out }

def stored (data : List UInt8) (outLen : ℕ) : Inflate Unit := do
  handBack
  let s ← get
  if 0 < s.virt then bail truncated
  match chunk? data s.pos 4 with
  | none => bail truncated
  | some hdr =>
    let len := leWord (hdr.take 2)
    let nlen := leWord (hdr.drop 2)
    if len ≠ 2 ^ 16 - 1 - nlen then bail "PNG image data: invalid stored block lengths"
    storedBytes data outLen (s.pos + 4) len

/-- A length and distance pair, after its length symbol. -/
def codesMatch (outLen : ℕ) (dist : Huffman) (sym : ℕ) : Inflate Unit := do
  let li := sym - 257
  if 29 ≤ li then bail "PNG image data: invalid literal/length code"
  let base ← index lenBase li
  let extra ← index lenExtra li
  let v ← bits extra
  let len := base + v
  let dsym ← dist.decode
  if 30 ≤ dsym then bail "PNG image data: invalid distance code"
  let base ← index distBase dsym
  let extra ← index distExtra dsym
  let v ← bits extra
  let d := base + v
  let s ← get
  if s.out.length < d then bail "PNG image data: invalid distance too far back"
  if outLen < s.out.length then throw .panic
  match copyMatch s.out d (min len (outLen - s.out.length)) with
  | none => throw .panic
  | some out => set { s with out := out }

/-- A symbol, and whether it is the last one of the block or of the output. -/
def codesStep (data : List UInt8) (outLen : ℕ) (lit dist : Huffman) : Inflate Bool := do
  refill data
  let sym ← lit.decode
  if sym < 256 then
    modify fun s => { s with out := s.out ++ [UInt8.ofNat sym] }
    let s ← get
    pure (outLen ≤ s.out.length)
  else if sym = 256 then pure true
  else
    codesMatch outLen dist sym
    let s ← get
    pure (outLen ≤ s.out.length)

/-- `loop`, for at most `fuel` symbols. -/
def codes (data : List UInt8) (outLen : ℕ) (lit dist : Huffman) : ℕ → Inflate Unit
  | 0 => throw .fuel
  | fuel + 1 => do
    if ← codesStep data outLen lit dist then pure ()
    else codes data outLen lit dist fuel

/-- The code length code's lengths in the order they come. -/
def order : List ℕ := [16, 17, 18, 0, 8, 7, 9, 6, 10, 5, 11, 4, 12, 3, 13, 2, 14, 1, 15]

/-- A code length symbol: what it says of the `i`-th length on, and how many it is about. -/
def lengthSymbol (cl : Huffman) (lens : List ℕ) (i : ℕ) : Inflate (ℕ × ℕ) := do
  let sym ← cl.decode
  if sym ≤ 15 then pure (sym, 1)
  else if sym = 16 then
    if i = 0 then bail "PNG image data: invalid bit length repeat"
    let value ← index lens (i - 1)
    let v ← bits 2
    pure (value, 3 + v)
  else if sym = 17 then
    let v ← bits 3
    pure (0, 3 + v)
  else
    let v ← bits 7
    pure (0, 11 + v)

/-- `while i < total`, with `lens` the lengths so far. -/
def lengthLoop (data : List UInt8) (cl : Huffman) (total : ℕ) : ℕ → List ℕ → Inflate (List ℕ)
  | 0, lens => if lens.length < total then throw .fuel else pure lens
  | fuel + 1, lens =>
    if lens.length < total then do
      refill data
      let (value, count) ← lengthSymbol cl lens lens.length
      if total < lens.length + count then bail "PNG image data: invalid bit length repeat"
      lengthLoop data cl total fuel (lens ++ List.replicate count value)
    else pure lens

def dynamicTables (data : List UInt8) : Inflate (Huffman × Huffman) := do
  refill data
  let nlen := (← bits 5) + 257
  let ndist := (← bits 5) + 1
  let ncode := (← bits 4) + 4
  if 286 < nlen ∨ 30 < ndist then bail "PNG image data: too many length or distance symbols"
  let clLens ← (order.take ncode).foldlM (fun (clLens : List ℕ) slot => do
    refill data
    let v ← bits 3
    pure (clLens.set slot v)) (List.replicate 19 0)
  let cl ← lift (Huffman.new clLens .codeLengths)
  let total := nlen + ndist
  let lens ← lengthLoop data cl total total []
  let eob ← index lens 256
  if eob = 0 then bail "PNG image data: invalid code -- missing end-of-block"
  let lit ← lift (Huffman.new (lens.take nlen) .lens)
  let dist ← lift (Huffman.new (lens.drop nlen) .dists)
  pure (lit, dist)

/-- The lengths of the fixed codes. -/
def fixedLit : List ℕ :=
  List.replicate 144 8 ++ List.replicate 112 9 ++ List.replicate 24 7 ++ List.replicate 8 8

def fixedDist : List ℕ := List.replicate 32 5

/-- The two tables, unless the construction of one fails. -/
def Huffman.expect : Except Stop Huffman → Except Stop Huffman → Except Stop (Huffman × Huffman)
  | .ok lit, .ok dist => .ok (lit, dist)
  | _, _ => .error .panic

/-- The fixed codes, whose construction does not fail. -/
def fixedTables : Except Stop (Huffman × Huffman) :=
  Huffman.expect (Huffman.new fixedLit .lens) (Huffman.new fixedDist .dists)

/-- A block, and whether it is the last. -/
def block (data : List UInt8) (outLen : ℕ) : Inflate Bool := do
  refill data
  let last ← bits 1
  let kind ← bits 2
  if kind = 0 then stored data outLen
  else if kind = 1 then
    let (lit, dist) ← lift fixedTables
    codes data outLen lit dist (outLen + 1)
  else if kind = 2 then
    let (lit, dist) ← dynamicTables data
    codes data outLen lit dist (outLen + 1)
  else bail "PNG image data: invalid deflate block type"
  pure (last = 1)

/-- `loop`, for at most `fuel` blocks. -/
def run (data : List UInt8) (outLen : ℕ) : ℕ → Inflate Unit
  | 0 => throw .fuel
  | fuel + 1 => do
    let last ← block data outLen
    let s ← get
    if outLen ≤ s.out.length then pure ()
    else if last then
      bail s!"truncated PNG image data (deflate stream holds {s.out.length} of {outLen} bytes)"
    else run data outLen fuel

/-- A raw DEFLATE stream into `outLen` bytes. -/
def inflate (data : List UInt8) (outLen : ℕ) : Inflate (List UInt8) := do
  if 0 < outLen then run data outLen (8 * (data.length + 8) + 1)
  let s ← get
  -- every bit used is of the input
  let loaded := (s.pos + s.virt) * 8
  if loaded < s.bitcnt then throw .panic
  if data.length * 8 < loaded - s.bitcnt then bail truncated
  pure s.out

end Image

end Mimo26

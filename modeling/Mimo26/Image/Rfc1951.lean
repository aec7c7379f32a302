import Mimo26.Library.PrefixCode

/-!
# DEFLATE, bit by bit

What a DEFLATE stream stands for, by the text of RFC 1951: a decoder that reads one bit after
another and puts out one byte after another, and stops once `outLen` bytes exist. Which sets of code
lengths stand for codes is zlib's rule. This is the definition that the decoder of the repository is
compared with, and not taken from it.

## Main definitions

* `State`, `Decoder`, `bit` — a decoder's state, and a bit of the input
* `symbol`, `Accepted` — a symbol of a Huffman code, and the code sets there are
* `stored`, `codes`, `dynamicTables`, `block` — a block
* `Inflates` — the blocks up to the end of the output
-/

namespace Mimo26

namespace Image

namespace Rfc1951

/-- The next bit of the input, and the output so far. -/
structure State where
  p : ℕ := 0
  out : List UInt8 := []
  deriving DecidableEq, Repr

abbrev Decoder := StateT State Option

variable (src : ℕ → Option Bool) (outLen : ℕ)

def bit : Decoder Bool := do
  let s ← get
  match src s.p with
  | some b =>
    set { s with p := s.p + 1 }
    pure b
  | none => failure

/-- A number, least significant bit first. -/
def bits : ℕ → Decoder ℕ
  | 0 => pure 0
  | n + 1 => do
    let b ← bit src
    let v ← bits n
    pure (b.toNat + 2 * v)

/-- A byte of the output, unless there are enough. -/
def emit (b : UInt8) : Decoder Unit := do
  let s ← get
  if s.out.length < outLen then set { s with out := s.out ++ [b] }

/-! ### Codes -/

/-- A code, most significant bit first, from length `l` on, for `n` lengths. -/
def symbolFrom (lengths : List ℕ) : ℕ → ℕ → ℕ → Decoder ℕ
  | 0, _, _ => failure
  | n + 1, l, code => do
    let b ← bit src
    let code := 2 * code + b.toNat
    match (List.range lengths.length).find? fun s =>
        lengths[s]? = some l ∧ PrefixCode.code lengths l s = code with
    | some s => pure s
    | none => symbolFrom lengths n (l + 1) code

/-- A symbol of the canonical code with these lengths, of up to 15 bits. -/
def symbol (lengths : List ℕ) : Decoder ℕ := symbolFrom src lengths 15 1 0

/-- The share of the codes of 15 bits that the codes begin. -/
def kraft (lengths : List ℕ) : ℕ :=
  ((lengths.filter (· ≠ 0)).map fun l => 2 ^ (15 - l)).sum

/-- The sets of lengths that zlib takes: no symbol at all, a complete set, or, other than for the
code length code, one code of one bit. -/
def Accepted (codeLengths : Bool) (lengths : List ℕ) : Prop :=
  (∀ l ∈ lengths, l = 0) ∨ kraft lengths = 2 ^ 15 ∨
    kraft lengths < 2 ^ 15 ∧ codeLengths = false ∧ ∀ l ∈ lengths, l ≤ 1

instance (codeLengths : Bool) (lengths : List ℕ) : Decidable (Accepted codeLengths lengths) :=
  inferInstanceAs (Decidable (_ ∨ _ ∨ _))

/-! ### Blocks -/

def storedBytes : ℕ → Decoder Unit
  | 0 => pure ()
  | n + 1 => do
    let s ← get
    if outLen ≤ s.out.length then pure ()
    else
      let b ← bits src 8
      emit outLen (UInt8.ofNat b)
      storedBytes n

/-- From the next byte on, a length, its complement, and so many bytes. -/
def stored : Decoder Unit := do
  modify fun s => { s with p := (s.p + 7) / 8 * 8 }
  let len ← bits src 16
  let nlen ← bits src 16
  if len + nlen = 2 ^ 16 - 1 then storedBytes src outLen len else failure

/-- `n` bytes from `d` back, one after the other. -/
def copy (d : ℕ) : ℕ → Decoder Unit
  | 0 => pure ()
  | n + 1 => do
    let s ← get
    match s.out[s.out.length - d]? with
    | some b =>
      emit outLen b
      copy d n
    | none => failure

/-- The first length of each length symbol from 257 on, and how many bits say how many more. -/
def lengthTable : List (ℕ × ℕ) :=
  [(3, 0), (4, 0), (5, 0), (6, 0), (7, 0), (8, 0), (9, 0), (10, 0), (11, 1), (13, 1), (15, 1),
    (17, 1), (19, 2), (23, 2), (27, 2), (31, 2), (35, 3), (43, 3), (51, 3), (59, 3), (67, 4),
    (83, 4), (99, 4), (115, 4), (131, 5), (163, 5), (195, 5), (227, 5), (258, 0)]

/-- The same of the distance symbols. -/
def distanceTable : List (ℕ × ℕ) :=
  [(1, 0), (2, 0), (3, 0), (4, 0), (5, 1), (7, 1), (9, 2), (13, 2), (17, 3), (25, 3), (33, 4),
    (49, 4), (65, 5), (97, 5), (129, 6), (193, 6), (257, 7), (385, 7), (513, 8), (769, 8),
    (1025, 9), (1537, 9), (2049, 10), (3073, 10), (4097, 11), (6145, 11), (8193, 12), (12289, 12),
    (16385, 13), (24577, 13)]

/-- A number of a table: its first value and what the extra bits add. -/
def tableNumber (table : List (ℕ × ℕ)) (i : ℕ) : Decoder ℕ :=
  match table[i]? with
  | some (base, extra) => do
    let v ← bits src extra
    pure (base + v)
  | none => failure

/-- A length and a distance, after the length symbol. -/
def codesMatch (dist : List ℕ) (sym : ℕ) : Decoder Unit := do
  let len ← tableNumber src lengthTable (sym - 257)
  let dsym ← symbol src dist
  let d ← tableNumber src distanceTable dsym
  let s ← get
  if d ≤ s.out.length then copy outLen d len else failure

/-- What a literal or length symbol puts out. -/
def output (dist : List ℕ) (sym : ℕ) : Decoder Unit :=
  if sym < 256 then emit outLen (UInt8.ofNat sym) else codesMatch src outLen dist sym

/-- Symbols up to the end of the block, or of the output, which at most `n` bytes are missing of. -/
def codes (lit dist : List ℕ) : ℕ → Decoder Unit
  | 0 => pure ()
  | n + 1 => do
    let sym ← symbol src lit
    if sym = 256 then pure ()
    else
      output src outLen dist sym
      let s ← get
      if outLen ≤ s.out.length then pure () else codes lit dist n

/-- Where the lengths of the code length code go. -/
def order : List ℕ := [16, 17, 18, 0, 8, 7, 9, 6, 10, 5, 11, 4, 12, 3, 13, 2, 14, 1, 15]

/-- The lengths of the code length code, where they go. -/
def codeLengthLengths : List ℕ → List ℕ → Decoder (List ℕ)
  | [], lens => pure lens
  | slot :: slots, lens => do
    let v ← bits src 3
    codeLengthLengths slots (lens.set slot v)

/-- What a code length symbol says of the lengths after `lens`. -/
def lengthSymbol (cl lens : List ℕ) : Decoder (ℕ × ℕ) := do
  let sym ← symbol src cl
  if sym ≤ 15 then pure (sym, 1)
  else if sym = 16 then
    match lens.getLast? with
    | some value => do
      let v ← bits src 2
      pure (value, 3 + v)
    | none => failure
  else if sym = 17 then do
    let v ← bits src 3
    pure (0, 3 + v)
  else do
    let v ← bits src 7
    pure (0, 11 + v)

/-- The code lengths after `lens`, up to `total` of them. -/
def codeLengths (cl : List ℕ) (total : ℕ) : ℕ → List ℕ → Decoder (List ℕ)
  | 0, lens => pure lens
  | n + 1, lens =>
    if lens.length < total then do
      let (value, count) ← lengthSymbol src cl lens
      if lens.length + count ≤ total then
        codeLengths cl total n (lens ++ List.replicate count value)
      else failure
    else pure lens

/-- The code lengths of a dynamic block. -/
def dynamicTables : Decoder (List ℕ × List ℕ) := do
  let hlit ← bits src 5
  let hdist ← bits src 5
  let hclen ← bits src 4
  if hlit + 257 ≤ 286 ∧ hdist + 1 ≤ 30 then
    let cl ← codeLengthLengths src (order.take (hclen + 4)) (List.replicate 19 0)
    if Accepted true cl then
      let total := hlit + 257 + (hdist + 1)
      let lens ← codeLengths src cl total total []
      let lit := lens.take (hlit + 257)
      let dist := lens.drop (hlit + 257)
      if lens[256]? ≠ some 0 ∧ Accepted false lit ∧ Accepted false dist then pure (lit, dist)
      else failure
    else failure
  else failure

/-- The code lengths of a fixed block. -/
def fixedLit : List ℕ :=
  List.replicate 144 8 ++ List.replicate 112 9 ++ List.replicate 24 7 ++ List.replicate 8 8

def fixedDist : List ℕ := List.replicate 32 5

/-- A block, and whether it is the last. -/
def block : Decoder Bool := do
  let last ← bits src 1
  let kind ← bits src 2
  if kind = 0 then stored src outLen
  else if kind = 1 then
    let s ← get
    codes src outLen fixedLit fixedDist (outLen - s.out.length)
  else if kind = 2 then
    let (lit, dist) ← dynamicTables src
    let s ← get
    codes src outLen lit dist (outLen - s.out.length)
  else failure
  pure (last = 1)

/-- The blocks from a state on put out `outLen` bytes. -/
inductive Blocks : State → State → Prop
  | done {s s' : State} {last : Bool} (hblock : block src outLen s = some (last, s'))
    (hout : outLen ≤ s'.out.length) : Blocks s s'
  | next {s s' s'' : State} (hblock : block src outLen s = some (false, s'))
    (hout : s'.out.length < outLen) (hrest : Blocks s' s'') : Blocks s s''

/-- A bit of the input, which has no bits past its end. -/
def sourceBit (data : List UInt8) (p : ℕ) : Option Bool :=
  data[p / 8]?.map fun b => b.toNat.testBit (p % 8)

/-- The first `outLen` bytes that a stream stands for. -/
def Inflates (data : List UInt8) (outLen : ℕ) (out : List UInt8) : Prop :=
  outLen = 0 ∧ out = [] ∨
    0 < outLen ∧ ∃ p, Blocks (sourceBit data) outLen { } { p := p, out := out }

end Rfc1951

end Image

end Mimo26

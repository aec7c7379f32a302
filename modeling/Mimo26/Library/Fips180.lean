import Mimo26.Library.BitString

/-!
# The SHA-256 of FIPS 180-4

The standard's own definition, on bit strings: the padding of section 5.1.1, the functions of 4.1.2,
the message schedule and the computation of 6.2, with the constants of 4.2.2 and 5.3.3 computed
from the primes they come from.

## Main definitions

* `pad` — the padded message
* `K`, `H0` — the round constants and the initial hash value
* `W`, `step`, `compress` — the message schedule, one round and one block
* `sha256` — the digest

## Main results

* `length_pad` — the padded message is whole blocks
-/

namespace Mimo26

namespace Fips180

open BitString

/-! ### Functions (4.1.2) -/

def rotr (n x : UInt32) : UInt32 := (x >>> n) ||| (x <<< (32 - n))

def ch (x y z : UInt32) : UInt32 := (x &&& y) ^^^ (~~~ x &&& z)

def maj (x y z : UInt32) : UInt32 := (x &&& y) ^^^ (x &&& z) ^^^ (y &&& z)

def bigSigma0 (x : UInt32) : UInt32 := rotr 2 x ^^^ rotr 13 x ^^^ rotr 22 x

def bigSigma1 (x : UInt32) : UInt32 := rotr 6 x ^^^ rotr 11 x ^^^ rotr 25 x

def smallSigma0 (x : UInt32) : UInt32 := rotr 7 x ^^^ rotr 18 x ^^^ (x >>> 3)

def smallSigma1 (x : UInt32) : UInt32 := rotr 17 x ^^^ rotr 19 x ^^^ (x >>> 10)

/-! ### Constants (4.2.2, 5.3.3) -/

/-- The first sixty-four primes. -/
def primes : List ℕ := [
  2, 3, 5, 7, 11, 13, 17, 19, 23, 29, 31, 37, 41, 43, 47, 53, 59, 61, 67, 71, 73, 79, 83, 89, 97,
  101, 103, 107, 109, 113, 127, 131, 137, 139, 149, 151, 157, 163, 167, 173, 179, 181, 191, 193,
  197, 199, 211, 223, 227, 229, 233, 239, 241, 251, 257, 263, 269, 271, 277, 281, 283, 293, 307, 311]

/-- The integer `e`-th root of `x`, when it has at most `bits` bits. -/
def root (e x : ℕ) : ℕ → ℕ
  | 0 => 0
  | bits + 1 =>
    let high := root e (x / 2 ^ e) bits
    if (2 * high + 1) ^ e ≤ x then 2 * high + 1 else 2 * high

/-- The first thirty-two bits of the fractional part of the `e`-th root of `p`. -/
def fraction (e p : ℕ) : UInt32 := UInt32.ofNat (root e (p * 2 ^ (32 * e)) 40)

/-- The round constants come from cube roots. -/
def K (t : ℕ) : UInt32 := fraction 3 (primes.getD t 0)

/-- The eight words of a hash value, and the working variables. -/
structure Words where
  a : UInt32
  b : UInt32
  c : UInt32
  d : UInt32
  e : UInt32
  f : UInt32
  g : UInt32
  h : UInt32
  deriving DecidableEq, Repr

/-- The initial hash value comes from the square roots of the first eight primes. -/
def H0 : Words :=
  ⟨fraction 2 2, fraction 2 3, fraction 2 5, fraction 2 7, fraction 2 11, fraction 2 13,
    fraction 2 17, fraction 2 19⟩

/-! ### Padding (5.1.1) -/

/-- The number of zeros: the least one that leaves 64 bits of a block. -/
def zeros (l : ℕ) : ℕ := (447 + 512 - l % 512) % 512

/-- A one, the zeros and the length. -/
def pad (message : List Bool) : List Bool :=
  message ++ [true] ++ List.replicate (zeros message.length) false ++ toBits 64 message.length

theorem zeros_spec (l : ℕ) :
    (l + 1 + zeros l) % 512 = 448 ∧ ∀ k, (l + 1 + k) % 512 = 448 → zeros l ≤ k := by
  rw [zeros]
  exact ⟨by omega, fun k hk => by omega⟩

/-- The padded message is whole blocks. -/
theorem length_pad (message : List Bool) : 512 ∣ (pad message).length := by
  have hzeros := (zeros_spec message.length).1
  rw [pad, List.length_append, List.length_append, List.length_append, List.length_replicate,
    length_toBits, List.length_singleton]
  omega

/-! ### Computation (6.2) -/

/-- The message schedule of a block with words `M`. -/
def W (M : ℕ → UInt32) (t : ℕ) : UInt32 :=
  if t < 16 then M t
  else smallSigma1 (W M (t - 2)) + W M (t - 7) + smallSigma0 (W M (t - 15)) + W M (t - 16)
termination_by t

/-- Round `t`. -/
def step (M : ℕ → UInt32) (v : Words) (t : ℕ) : Words :=
  let T₁ := v.h + bigSigma1 v.e + ch v.e v.f v.g + K t + W M t
  let T₂ := bigSigma0 v.a + maj v.a v.b v.c
  { h := v.g, g := v.f, f := v.e, e := v.d + T₁, d := v.c, c := v.b, b := v.a, a := T₁ + T₂ }

/-- Word `t` of a block. -/
def word (block : List Bool) (t : ℕ) : UInt32 :=
  UInt32.ofNat (ofBits ((block.drop (32 * t)).take 32))

/-- The intermediate hash value after a block. -/
def compress (H : Words) (block : List Bool) : Words :=
  let v := (List.range 64).foldl (step (word block)) H
  { a := v.a + H.a, b := v.b + H.b, c := v.c + H.c, d := v.d + H.d
    e := v.e + H.e, f := v.f + H.f, g := v.g + H.g, h := v.h + H.h }

/-- The words of a hash value, as bits. -/
def Words.toBits (H : Words) : List Bool :=
  [H.a, H.b, H.c, H.d, H.e, H.f, H.g, H.h].flatMap fun w => BitString.toBits 32 w.toNat

/-- The digest of a message. -/
def sha256 (message : List Bool) : List Bool :=
  ((pieces 512 (pad message)).foldl compress H0).toBits

end Fips180

end Mimo26

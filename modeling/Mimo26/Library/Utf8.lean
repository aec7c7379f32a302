import Mathlib.Data.List.Basic

/-!
# UTF-8

The bytes of a text, and the text of bytes with the errors a decoder tells apart: bytes that begin
no character, and a character cut off by the end.

## Main definitions

* `encode` — the bytes of a text
* `errorLen` — how many bytes at the front are wrong
* `fromUtf8`, `fromUtf8Lossy` — the text of bytes, with an error or a replacement character

## Main results

* `fromUtf8_encode`, `fromUtf8Lossy_encode` — both read a text back
-/

namespace Mimo26

namespace Utf8

/-- What holds of every character of a text is decided character by character, not over the type. -/
instance (priority := 1100) decidableForallMem (p : Char → Prop) [DecidablePred p] (cs : List Char) :
    Decidable (∀ c ∈ cs, p c) := List.decidableBAll p cs

/-- The bytes of a text. -/
def encode (cs : List Char) : List UInt8 := cs.flatMap String.utf8EncodeChar

/-- How many bytes a character that begins with `b` has; none does from `0` on. -/
def width (b : UInt8) : ℕ :=
  if b < 0x80 then 1 else if b < 0xC2 then 0 else if b < 0xE0 then 2 else if b < 0xF0 then 3
  else if b < 0xF5 then 4 else 0

def isCont (b : UInt8) : Bool := decide (0x80 ≤ b ∧ b ≤ 0xBF)

/-- Whether `x` may follow the first byte `b`: neither overlong nor a surrogate nor past the last
code point. -/
def mayFollow (b x : UInt8) : Bool :=
  if b = 0xE0 then decide (0xA0 ≤ x ∧ x ≤ 0xBF)
  else if b = 0xED then decide (0x80 ≤ x ∧ x ≤ 0x9F)
  else if b = 0xF0 then decide (0x90 ≤ x ∧ x ≤ 0xBF)
  else if b = 0xF4 then decide (0x80 ≤ x ∧ x ≤ 0x8F)
  else isCont x

/-- Of bytes that begin with no character, how many are wrong; none if the end cuts a character off.
-/
def errorLen : List UInt8 → Option ℕ
  | [] => none
  | b :: rest =>
    if width b < 2 then some 1
    else match rest with
      | [] => none
      | x :: rest =>
        if !mayFollow b x then some 1
        else match rest with
          | [] => none
          | y :: rest =>
            if !isCont y then some 2
            else match rest with
              | [] => none
              | _ :: _ => some 3

/-- The character the bytes begin with. -/
def head (bs : List UInt8) : Option Char := bs.toByteArray.utf8DecodeChar? 0

/-- The text of bytes, or the error: `none` where the end cuts a character off. -/
def fromUtf8 (bs : List UInt8) : Except (Option ℕ) (List Char) :=
  if bs = [] then .ok []
  else match head bs with
    | some c => (fromUtf8 (bs.drop c.utf8Size)).map (c :: ·)
    | none => .error (errorLen bs)
termination_by bs.length
decreasing_by
  have hpos := List.length_pos_of_ne_nil ‹bs ≠ []›
  have hsize := c.utf8Size_pos
  rw [List.length_drop]
  omega

/-- How many bytes at the front are the bytes of a text. -/
def validUpTo (bs : List UInt8) : ℕ :=
  if bs = [] then 0
  else match head bs with
    | some c => c.utf8Size + validUpTo (bs.drop c.utf8Size)
    | none => 0
termination_by bs.length
decreasing_by
  have hpos := List.length_pos_of_ne_nil ‹bs ≠ []›
  have hsize := c.utf8Size_pos
  rw [List.length_drop]
  omega

/-- The text of bytes, with a replacement character for what is wrong. -/
def fromUtf8Lossy (bs : List UInt8) : List Char :=
  if bs = [] then []
  else match head bs with
    | some c => c :: fromUtf8Lossy (bs.drop c.utf8Size)
    | none =>
      match errorLen bs with
      | some n => '\uFFFD' :: fromUtf8Lossy (bs.drop (max 1 n))
      | none => ['\uFFFD']
termination_by bs.length
decreasing_by
  · have hpos := List.length_pos_of_ne_nil ‹bs ≠ []›
    have hsize := c.utf8Size_pos
    rw [List.length_drop]
    omega
  · have hpos := List.length_pos_of_ne_nil ‹bs ≠ []›
    rw [List.length_drop]
    omega

@[simp] theorem encode_nil : encode [] = [] := rfl

theorem encode_cons (c : Char) (cs : List Char) :
    encode (c :: cs) = String.utf8EncodeChar c ++ encode cs :=
  List.flatMap_cons

theorem encode_append (cs ds : List Char) : encode (cs ++ ds) = encode cs ++ encode ds :=
  List.flatMap_append

theorem encode_flatten (pieces : List (List Char)) :
    encode pieces.flatten = pieces.flatMap encode := by
  induction pieces with
  | nil => rfl
  | cons piece pieces ih => rw [List.flatten_cons, List.flatMap_cons, encode_append, ih]

theorem encode_ne_nil (c : Char) (cs : List Char) : encode (c :: cs) ≠ [] := by
  have hsize := c.utf8Size_pos
  intro h
  have hlen := congrArg List.length h
  rw [encode_cons, List.length_append, String.length_utf8EncodeChar, List.length_nil] at hlen
  omega

theorem head_encode_cons (c : Char) (cs : List Char) : head (encode (c :: cs)) = some c := by
  rw [head, encode_cons, List.toByteArray_append]
  exact ByteArray.utf8DecodeChar?_utf8EncodeChar_append

theorem drop_encode_cons (c : Char) (cs : List Char) :
    (encode (c :: cs)).drop c.utf8Size = encode cs := by
  rw [encode_cons, ← String.length_utf8EncodeChar]
  exact List.drop_left

theorem fromUtf8_encode (cs : List Char) : fromUtf8 (encode cs) = .ok cs := by
  induction cs with
  | nil => rw [fromUtf8, if_pos encode_nil]
  | cons c cs ih =>
    rw [fromUtf8, if_neg (encode_ne_nil c cs), head_encode_cons]
    dsimp only
    rw [drop_encode_cons, ih]
    rfl

theorem fromUtf8Lossy_encode (cs : List Char) : fromUtf8Lossy (encode cs) = cs := by
  induction cs with
  | nil => rw [fromUtf8Lossy, if_pos encode_nil]
  | cons c cs ih =>
    rw [fromUtf8Lossy, if_neg (encode_ne_nil c cs), head_encode_cons]
    dsimp only
    rw [drop_encode_cons, ih]

end Utf8

end Mimo26

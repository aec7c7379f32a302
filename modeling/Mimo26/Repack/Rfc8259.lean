import Mimo26.Repack.Spelling

/-!
# The grammar of JSON texts

RFC 8259, for values that the parser has: its numbers are integers, and the names of an object
differ. A production relates the text before it to the text after it.

A number and what follows a backslash are given by a lexis, since it is in these that the parser
takes more than the RFC does.

## Main definitions

* `Lexis` — numbers and escapes
* `Spells`, `IsText` — the productions of values, and of whole texts
* `rfc` — the numbers and escapes of the RFC
-/

namespace Mimo26

namespace Repack

namespace Rfc8259

open JsonText

/-- Numbers, and what follows a backslash in a string. -/
structure Lexis where
  number : List Char → ℕ → List Char → Prop
  escape : List Char → Char → List Char → Prop

/-- White space. -/
inductive Ws : List Char → List Char → Prop
  | nil {t : List Char} : Ws t t
  | cons {c : Char} {t r : List Char} (hc : IsBlank c) (h : Ws t r) : Ws (c :: t) r

variable (L : Lexis)

/-- The characters of a string, up to its closing quote. -/
inductive Chars : List Char → List Char → List Char → Prop
  | done {r : List Char} : Chars ('"' :: r) [] r
  | plain {c : Char} {t s r : List Char} (hquote : c ≠ '"') (hslash : c ≠ '\\')
      (hcontrol : 0x20 ≤ c.toNat) (h : Chars t s r) : Chars (c :: t) (c :: s) r
  | escape {c : Char} {t t' s r : List Char} (he : L.escape t c t') (h : Chars t' s r) :
      Chars ('\\' :: t) (c :: s) r

/-- A value, the items of an array or the members of an object, at least one. -/
inductive Node where
  | value (v : Json)
  | items (vs : List Json)
  | members (fs : List (String × Json))

inductive Spells : List Char → Node → List Char → Prop
  | null {r : List Char} : Spells ('n' :: 'u' :: 'l' :: 'l' :: r) (.value .null) r
  | true {r : List Char} : Spells ('t' :: 'r' :: 'u' :: 'e' :: r) (.value (.bool true)) r
  | false {r : List Char} : Spells ('f' :: 'a' :: 'l' :: 's' :: 'e' :: r) (.value (.bool false)) r
  | number {t r : List Char} {n : ℕ} (h : L.number t n r) : Spells t (.value (.u64 n)) r
  | string {t s r : List Char} (h : Chars L t s r) :
      Spells ('"' :: t) (.value (.str (String.ofList s))) r
  | emptyArray {t r : List Char} (h : Ws t (']' :: r)) : Spells ('[' :: t) (.value (.array [])) r
  | array {t r : List Char} {vs : List Json} (h : Spells t (.items vs) (']' :: r)) :
      Spells ('[' :: t) (.value (.array vs)) r
  | emptyObject {t r : List Char} (h : Ws t ('\x7d' :: r)) :
      Spells ('\x7b' :: t) (.value (.object [])) r
  | object {t r : List Char} {fs : List (String × Json)} (h : Spells t (.members fs) ('\x7d' :: r))
      (hkeys : (fs.map Prod.fst).Nodup) :
      Spells ('\x7b' :: t) (.value (.object (fs.foldl insertField []))) r
  | item {t t₁ t₂ r : List Char} {v : Json} (h₁ : Ws t t₁) (hv : Spells t₁ (.value v) t₂)
      (h₂ : Ws t₂ r) : Spells t (.items [v]) r
  | items {t t₁ t₂ t₃ r : List Char} {v : Json} {vs : List Json} (h₁ : Ws t t₁)
      (hv : Spells t₁ (.value v) t₂) (h₂ : Ws t₂ (',' :: t₃)) (h : Spells t₃ (.items vs) r) :
      Spells t (.items (v :: vs)) r
  | member {t t₁ t₂ t₃ t₄ t₅ r k : List Char} {v : Json} (h₁ : Ws t ('"' :: t₁))
      (hk : Chars L t₁ k t₂) (h₂ : Ws t₂ (':' :: t₃)) (h₃ : Ws t₃ t₄)
      (hv : Spells t₄ (.value v) t₅) (h₄ : Ws t₅ r) :
      Spells t (.members [(String.ofList k, v)]) r
  | members {t t₁ t₂ t₃ t₄ t₅ t₆ r k : List Char} {v : Json} {fs : List (String × Json)}
      (h₁ : Ws t ('"' :: t₁)) (hk : Chars L t₁ k t₂) (h₂ : Ws t₂ (':' :: t₃)) (h₃ : Ws t₃ t₄)
      (hv : Spells t₄ (.value v) t₅) (h₄ : Ws t₅ (',' :: t₆)) (h : Spells t₆ (.members fs) r) :
      Spells t (.members ((String.ofList k, v) :: fs)) r

/-- A whole text. -/
def IsText (t : List Char) (v : Json) : Prop :=
  ∃ t₁ t₂, Ws t t₁ ∧ Spells L t₁ (.value v) t₂ ∧ Ws t₂ []

/-! ### The numbers and escapes of the RFC -/

/-- `zero / ( digit1-9 *DIGIT )`. -/
def IsInt (digits : List Char) : Prop :=
  digits = ['0'] ∨ (∀ c ∈ digits, c.isDigit = true) ∧ digits ≠ [] ∧ digits.head? ≠ some '0'

/-- `[ minus ] int`, with a value that is not negative. -/
def number (t : List Char) (n : ℕ) (r : List Char) : Prop :=
  ∃ (sign digits : List Char) (m : ℕ), t = sign ++ (digits ++ r) ∧ IsInt digits ∧
    Numerals.numeral 10 0 digits = some m ∧ (sign = [] ∧ n = m ∨ sign = ['-'] ∧ (n : ℤ) = -m)

/-- The characters with an escape of one letter. -/
def letters : List (Char × Char) :=
  [('"', '"'), ('\\', '\\'), ('/', '/'), ('b', '\x08'), ('f', '\x0c'), ('n', '\n'), ('r', '\r'),
    ('t', '\t')]

/-- Four hexadecimal digits. -/
def IsHex (hex : List Char) (n : ℕ) : Prop :=
  hex.length = 4 ∧ Numerals.numeral 16 0 hex = some n

/-- What follows a backslash: a letter, a character's number, or a surrogate pair. -/
inductive Escape : List Char → Char → List Char → Prop
  | letter {e c : Char} {r : List Char} (h : (e, c) ∈ letters) : Escape (e :: r) c r
  | unicode {hex r : List Char} {n : ℕ} {c : Char} (hhex : IsHex hex n) (hc : fromU32 n = some c) :
      Escape ('u' :: (hex ++ r)) c r
  | pair {hex hex' r : List Char} {hi lo : ℕ} {c : Char} (hhi : IsHex hex hi) (hlo : IsHex hex' lo)
      (hhigh : 0xd800 ≤ hi ∧ hi < 0xdc00) (hlow : 0xdc00 ≤ lo ∧ lo < 0xe000)
      (hc : fromU32 (0x10000 + (hi - 0xd800) * 0x400 + (lo - 0xdc00)) = some c) :
      Escape ('u' :: (hex ++ '\\' :: 'u' :: (hex' ++ r))) c r

/-- The RFC. -/
def rfc : Lexis := ⟨number, Escape⟩

end Rfc8259

end Repack

end Mimo26

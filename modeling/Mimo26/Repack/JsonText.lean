import Mathlib.Algebra.Ring.Nat
import Mimo26.Library.Numerals
import Mimo26.Library.Reader
import Mimo26.Library.Utf8

/-!
# Reading JSON texts byte by byte

What the two JSON readers of `mimo26-repack` (`json.rs`, and the one in `safetensors.rs`) have in
common: white space, expected bytes and strings. Both take a byte for the character of the same
number, so a text is a list of such characters here. They differ in the control bytes of a string,
which only `json.rs` refuses.

## Main definitions

* `latin1` — bytes as the readers see them
* `ws`, `expect`, `string` — the common readers
* `Shorter` — a reader that takes at least so many bytes

## Main results

* `reads_string` — a string takes at least its first quote, and the fuel of its loop lasts
-/

namespace Mimo26

namespace Repack

open Reader

/-- `b as char` of each byte. -/
def latin1 (bytes : List UInt8) : List Char := bytes.map fun b => Char.ofNat b.toNat

/-- `{:#x}`, to at least `width` digits. -/
def hexText (width n : ℕ) : String :=
  "0x" ++ String.ofList ((Nat.toDigits 16 n).leftpad width '0')

/-- `{:?}` of a character inside quotes. -/
def debugPart (quote c : Char) : String :=
  if c = '\x00' then "\\0"
  else if c = '\t' then "\\t"
  else if c = '\n' then "\\n"
  else if c = '\r' then "\\r"
  else if c = quote ∨ c = '\\' then "\\" ++ c.toString
  else if c.toNat < 0x20 ∨ (0x7f ≤ c.toNat ∧ c.toNat ≤ 0xa0) ∨ c.toNat = 0xad then
    "\\u\x7b" ++ String.ofList (Nat.toDigits 16 c.toNat) ++ "\x7d"
  else c.toString

/-- `{:?}` of a character. -/
def debug (c : Char) : String := "'" ++ debugPart '\'' c ++ "'"

/-- `{:?}` of a text. -/
def debugText (text : List Char) : String :=
  "\"" ++ String.join (text.map (debugPart '"')) ++ "\""

/-- `{:?}` of what `peek` gives. -/
def debugPeek : Option Char → String
  | none => "None"
  | some c => "Some(" ++ debug c ++ ")"

/-- The text of a refusal; the fuel of the readers lasts. -/
def refusalText : Refusal → String
  | .refused text => text
  | .exhausted => ""

namespace JsonText

def ws : Reader Char Unit := do
  let _ ← takeWhile fun c => c = ' ' ∨ c = '\t' ∨ c = '\n' ∨ c = '\r'

def expect (c : Char) : Reader Char Unit := do
  let got ← peek
  demand (got = some c) fun pos =>
    "expected " ++ debug c ++ " at byte " ++ toString pos ++ ", got " ++ debugPeek got
  bump

/-- `char::from_u32`. -/
def fromU32 (cp : ℕ) : Option Char :=
  if h : cp.isValidChar then some (Char.ofNatAux cp h) else none

/-- The four hex digits of a `\u` escape; `from_str_radix` takes a plus sign for the first. -/
def unicodeEscape : Reader Char Char := do
  match ← next 4 with
  | none => refuse fun _ => "short \\u escape"
  | some hex =>
    match Utf8.fromUtf8 (hex.map fun c => c.toNat.toUInt8) with
    | .error _ => refuse fun _ => "bad \\u escape"
    | .ok hex =>
      match Numerals.readUnsigned 16 (2 ^ 32) hex with
      | none => refuse fun _ => "bad \\u escape " ++ debugText hex
      | some cp =>
        advance 4
        match fromU32 cp with
        | none => refuse fun _ => "bad code point " ++ hexText 1 cp
        | some c => return c

/-- What follows a backslash. -/
def escape : Reader Char Char := do
  match ← peek with
  | none => refuse fun _ => "unterminated escape"
  | some e =>
    bump
    match e with
    | '"' => return '"'
    | '\\' => return '\\'
    | '/' => return '/'
    | 'n' => return '\n'
    | 't' => return '\t'
    | 'r' => return '\r'
    | 'b' => return '\x08'
    | 'f' => return '\x0c'
    | 'u' => unicodeEscape
    | other => refuse fun _ => "bad escape \\" ++ other.toString

/-- The rest of a string; `control` tells the bytes that may not stand in it. -/
def stringLoop (control : Char → Bool) : ℕ → List Char → Reader Char (List Char)
  | 0, _ => throw .exhausted
  | fuel + 1, out => do
    match ← peek with
    | none => refuse fun _ => "unterminated string"
    | some c =>
      bump
      if c = '"' then
        return out
      else if c = '\\' then
        stringLoop control fuel (out ++ [← escape])
      else
        demand (control c = false) fun _ =>
          "unescaped control byte " ++ hexText 2 c.toNat ++ " in string"
        stringLoop control fuel (out ++ [c])

def string (control : Char → Bool) : Reader Char String := do
  expect '"'
  return String.ofList (← stringLoop control ((← remaining) + 1) [])

/-- The comma before a next item, or the end of the list of items: whether there is a next one. -/
def more (close : Char) (text : Option Char → ℕ → String) : Reader Char Bool := do
  match ← peek with
  | some c =>
    demand (c = ',' ∨ c = close) (text (some c))
    bump
    return c = ','
  | none => refuse (text none)

/-! ### Fuel -/

/-- At least `k` bytes of `s` were taken. -/
def Shorter {α : Type} (k : ℕ) (s : Cursor Char) (_ : α) (s' : Cursor Char) : Prop :=
  s'.rest.length + k ≤ s.rest.length

variable {s : Cursor Char} {α β : Type} {j k : ℕ}

theorem Shorter.weaken {s' : Cursor Char} {a : α} {b : β} (h : Shorter k s a s') (hk : j ≤ k) :
    Shorter j s b s' := Nat.le_trans (Nat.add_le_add_left hk _) h

theorem Shorter.trans {s' s'' : Cursor Char} {a : α} {b : β} (h : Shorter k s a s')
    (h' : Shorter j s' b s'') : Shorter (k + j) s b s'' := by
  unfold Shorter at h h' ⊢
  omega

/-- A part that takes `k` bytes, and one that takes `j`. -/
theorem reads_bind {m : Reader Char α} {f : α → Reader Char β} (hm : Reads s m (Shorter k s))
    (hf : ∀ a s', Shorter k s a s' → Reads s' (f a) (Shorter j s')) :
    Reads s (m >>= f) (Shorter (k + j) s) :=
  hm.bind fun a s' h => (hf a s' h).mono fun _ _ h' => h.trans h'

theorem reads_done (a : α) : Reads s (pure a : Reader Char α) (Shorter 0 s) :=
  Reader.reads_pure (Nat.le_refl _)

theorem reads_ws : Reads s ws (Shorter 0 s) := by
  refine (reads_takeWhile _).bind fun taken s' h => Reader.reads_pure ?_
  show s'.rest.length ≤ s.rest.length
  rw [h.2]
  exact (List.dropWhile_sublist _).length_le

/-- The byte that was peeked at is taken. -/
theorem reads_bump_of_head {c : Char} (h : s.rest.head? = some c) :
    Reads s bump (Shorter 1 s) := by
  refine reads_bump.mono fun _ s' hs' => ?_
  obtain ⟨rest, hrest⟩ := List.head?_eq_some_iff.mp h
  show s'.rest.length + 1 ≤ s.rest.length
  rw [hs', hrest]
  exact Nat.le_refl _

theorem reads_expect (c : Char) : Reads s (expect c) (Shorter 1 s) := by
  refine reads_peek.bind ?_
  rintro got s' ⟨rfl, rfl⟩
  refine reads_demand.bind ?_
  rintro _ s'' ⟨hc, rfl⟩
  exact reads_bump_of_head hc

theorem reads_unicodeEscape : Reads s unicodeEscape (Shorter 0 s) := by
  refine (reads_next 4).bind ?_
  rintro taken s' ⟨-, rfl⟩
  cases taken with
  | none => exact reads_refuse _
  | some hex =>
    dsimp only
    cases Utf8.fromUtf8 (hex.map fun c => c.toNat.toUInt8) with
    | error e => exact reads_refuse _
    | ok hex =>
      dsimp only
      cases Numerals.readUnsigned 16 (2 ^ 32) hex with
      | none => exact reads_refuse _
      | some cp =>
        refine (reads_advance 4).bind fun _ s'' hs'' => ?_
        cases fromU32 cp with
        | none => exact reads_refuse _
        | some c =>
          refine Reader.reads_pure ?_
          show s''.rest.length ≤ s'.rest.length
          rw [hs'']
          exact (List.drop_sublist 4 _).length_le

theorem reads_escape : Reads s escape (Shorter 1 s) := by
  refine reads_peek.bind ?_
  rintro got s' ⟨hgot, rfl⟩
  cases got with
  | none => exact reads_refuse _
  | some e =>
    refine reads_bind (j := 0) (reads_bump_of_head hgot.symm) fun _ s'' _ => ?_
    split
    case h_9 => exact reads_unicodeEscape
    case h_10 => exact reads_refuse _
    all_goals exact reads_done _

theorem reads_stringLoop (control : Char → Bool) (fuel : ℕ) (out : List Char)
    (hfuel : s.rest.length < fuel) : Reads s (stringLoop control fuel out) (Shorter 1 s) := by
  induction fuel generalizing s out with
  | zero => exact absurd hfuel (Nat.not_lt_zero _)
  | succ fuel ih =>
    refine reads_peek.bind ?_
    rintro got s' ⟨hgot, rfl⟩
    cases got with
    | none => exact reads_refuse _
    | some c =>
      refine reads_bind (j := 0) (reads_bump_of_head hgot.symm) fun _ s'' hs'' => ?_
      have hshort : s''.rest.length < fuel := by
        unfold Shorter at hs''
        omega
      refine .ite (fun _ => reads_done out) fun _ => .ite (fun _ => ?_) fun _ => ?_
      · refine reads_escape.bind fun e s₃ hs₃ => ?_
        have hloop := ih (out ++ [e]) (Nat.lt_of_le_of_lt (hs₃.weaken (b := e) (Nat.zero_le 1)) hshort)
        exact hloop.mono fun _ _ h => (hs₃.trans h).weaken (Nat.zero_le _)
      · refine reads_demand.bind ?_
        rintro _ s₃ ⟨-, rfl⟩
        exact (ih (out ++ [c]) hshort).mono fun _ _ h => h.weaken (Nat.zero_le 1)

/-- **The fuel of a string lasts**, and the string takes at least a byte. -/
theorem reads_string (control : Char → Bool) : Reads s (string control) (Shorter 1 s) := by
  refine reads_bind (k := 1) (j := 0) (reads_expect '"') fun _ s' _ => ?_
  refine reads_remaining.bind ?_
  rintro _ s₁ ⟨rfl, rfl⟩
  have hloop := reads_stringLoop control (s₁.rest.length + 1) [] (Nat.lt_succ_self _)
  exact hloop.bind fun out s'' h => Reader.reads_pure (h.weaken (Nat.zero_le 1))

theorem reads_more (close : Char) (text : Option Char → ℕ → String) :
    Reads s (more close text) (Shorter 1 s) := by
  refine reads_peek.bind ?_
  rintro got s' ⟨hgot, rfl⟩
  cases got with
  | none => exact reads_refuse _
  | some c =>
    refine reads_demand.bind ?_
    rintro _ s'' ⟨-, rfl⟩
    exact reads_bind (k := 1) (j := 0) (reads_bump_of_head hgot.symm) fun _ _ _ => reads_done _

end JsonText

end Repack

end Mimo26

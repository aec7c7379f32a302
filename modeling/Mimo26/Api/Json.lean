import Mathlib.Data.Int.Notation
import Mathlib.Data.List.Basic

/-!
# The API's JSON codec

The parser reads a text from left to right and keeps the number of bytes read for its error texts.
`f64` is a parameter: what the codec asks of it is its `FromStr`, its `Display` and whether it is a
small whole number. The recursion of the parser runs on fuel that `parse` takes from the text;
`reads_value` says that it never runs out.

## Main definitions

* `Json`, `Fp64` — values, and the operations on `f64`
* `parse`, `serialize` — the codec

## Main results

* `parse_ne_outOfFuel` — the fuel of `parse` is enough for every text
-/

namespace Mimo26

namespace Api

abbrev Text := List Char

/-- `f64`, as far as the codec uses it. -/
class Fp64 (F : Type) where
  /-- `text.parse::<f64>()`. -/
  parse : Text → Option F
  /-- The number as `i64`, when its fraction is zero and it is below `9.0e15` in size. -/
  whole : F → Option ℤ
  /-- `format!("{n}")`. -/
  display : F → Text

/-- Whole numbers, as one model of the operations. -/
instance : Fp64 ℤ where
  parse text := (String.ofList text).toInt?
  whole n := some n
  display n := (toString n).toList

/-- A JSON value; an object keeps its pairs in insertion order. -/
inductive Json (F : Type) where
  | null
  | bool (b : Bool)
  | num (n : F)
  | str (s : Text)
  | array (items : List (Json F))
  | object (pairs : List (Text × Json F))

namespace Json

variable {F : Type}

def asObject : Json F → Option (List (Text × Json F))
  | object pairs => some pairs
  | _ => none

def get (v : Json F) (key : String) : Option (Json F) :=
  v.asObject.bind fun pairs => (pairs.find? fun p => p.1 = key.toList).map Prod.snd

def asArray : Json F → Option (List (Json F))
  | array items => some items
  | _ => none

def asStr : Json F → Option Text
  | str s => some s
  | _ => none

def asF64 : Json F → Option F
  | num n => some n
  | _ => none

def asBool : Json F → Option Bool
  | bool b => some b
  | _ => none

end Json

/-! ### The parser -/

/-- Why a text is refused. -/
inductive JsonError where
  | err (text : String)
  /-- The model's recursion ran out of fuel. -/
  | outOfFuel
  deriving DecidableEq, Repr

/-- What is left to read, and the bytes before it. -/
structure P where
  i : ℕ
  rest : Text

abbrev Parser := EStateM JsonError P

namespace P

variable {F : Type}

def fail {α : Type} (text : ℕ → String) : Parser α := fun s => .error (.err (text s.i)) s

/-- Fails unless `ok`; the text may name the position. -/
def demand (ok : Prop) [Decidable ok] (text : ℕ → String) : Parser Unit :=
  if ok then pure () else fail text

def peek : Parser (Option Char) := do
  return (← get).rest.head?

/-- Takes a character and counts the first byte of it. -/
def bump : Parser (Option Char) := fun s =>
  match s.rest with
  | [] => .ok none s
  | c :: rest => .ok (some c) ⟨s.i + 1, rest⟩

def isWs (c : Char) : Bool := c = ' ' ∨ c = '\t' ∨ c = '\n' ∨ c = '\r'

/-- Takes the characters that `p` holds of; they are ASCII. -/
def takeAll (p : Char → Bool) : Parser Text := fun s =>
  let taken := s.rest.takeWhile p
  .ok taken ⟨s.i + taken.length, s.rest.dropWhile p⟩

def ws : Parser Unit := do
  let _ ← takeAll isWs

/-- The first byte of a character, as a character. -/
def leadByte (c : Char) : Char :=
  let n := c.toNat
  if n < 128 then c
  else if n < 2048 then Char.ofNat (192 + n / 64)
  else if n < 65536 then Char.ofNat (224 + n / 4096)
  else Char.ofNat (240 + n / 262144)

/-- `{:?}` of a character below 256. -/
def debug (c : Char) : String :=
  if c = '\x00' then "'\\0'"
  else if c = '\t' then "'\\t'"
  else if c = '\n' then "'\\n'"
  else if c = '\r' then "'\\r'"
  else if c = '\'' then "'\\''"
  else if c = '\\' then "'\\\\'"
  else if c.toNat < 32 ∨ c.toNat = 127 then
    "'\\u\x7b" ++ String.ofList (Nat.toDigits 16 c.toNat) ++ "\x7d'"
  else "'" ++ c.toString ++ "'"

def lit (word : String) (v : Json F) : Parser (Json F) := do
  let s ← get
  if word.toList <+: s.rest then
    set (⟨s.i + word.length, s.rest.drop word.length⟩ : P)
    return v
  else fail fun i => s!"json: bad literal at {i}"

def digit? (c : Char) : Option ℕ :=
  if c.isDigit then some (c.toNat - 48)
  else if 97 ≤ c.toNat ∧ c.toNat ≤ 102 then some (c.toNat - 87)
  else if 65 ≤ c.toNat ∧ c.toNat ≤ 70 then some (c.toNat - 55)
  else none

/-- A hex digit after those of `hex`; `error` is what the caller makes of a failure. -/
def hexDigit (error : String) (hex : ℕ) : Parser ℕ := do
  match ← bump with
  | none => fail fun _ => error
  | some h =>
    match digit? h with
    | none => fail fun _ => error
    | some d => return hex * 16 + d

/-- Four hex digits. -/
def hex4 (error : String) : Parser ℕ := do
  hexDigit error (← hexDigit error (← hexDigit error (← hexDigit error 0)))

/-- `char::from_u32`. -/
def charOf (cp : ℕ) : Option Char :=
  if h : cp.isValidChar then some (Char.ofNatAux cp h) else none

/-- The code point of a high surrogate and the low one that must follow. -/
def surrogatePair (unit : ℕ) : Parser ℕ := do
  let backslash ← bump
  demand (backslash = some '\\') fun _ => "json: lone high surrogate"
  let u ← bump
  demand (u = some 'u') fun _ => "json: lone high surrogate"
  let low ← hex4 "json: lone high surrogate"
  demand (0xDC00 ≤ low ∧ low ≤ 0xDFFF) fun _ => "json: lone high surrogate"
  return 0x10000 + (unit - 0xD800) * 1024 + (low - 0xDC00)

def codePoint (unit : ℕ) : Parser ℕ :=
  if 0xD800 ≤ unit ∧ unit ≤ 0xDBFF then surrogatePair unit
  else if 0xDC00 ≤ unit ∧ unit ≤ 0xDFFF then fail fun _ => "json: lone low surrogate"
  else pure unit

def unicodeEscape : Parser Char := do
  let unit ← hex4 "json: bad \\u codepoint"
  let cp ← codePoint unit
  match charOf cp with
  | none => fail fun _ => "json: bad \\u codepoint"
  | some c => return c

def escape : Parser Char := do
  match ← bump with
  | none => fail fun _ => "json: bad escape"
  | some '"' => return '"'
  | some '\\' => return '\\'
  | some '/' => return '/'
  | some 'b' => return '\x08'
  | some 'f' => return '\x0c'
  | some 'n' => return '\n'
  | some 'r' => return '\r'
  | some 't' => return '\t'
  | some 'u' => unicodeEscape
  | some other => fail fun _ => s!"json: bad escape \\{leadByte other}"

def stringLoop : ℕ → Text → Parser Text
  | 0, _ => throw .outOfFuel
  | fuel + 1, out => do
    match ← bump with
    | none => fail fun _ => "json: unterminated string"
    | some '"' => return out
    | some '\\' =>
      let c ← escape
      stringLoop fuel (out ++ [c])
    | some c =>
      modify fun s => { s with i := s.i + (c.utf8Size - 1) }
      stringLoop fuel (out ++ [c])

def string : Parser Text := do
  let _ ← bump
  stringLoop ((← get).rest.length + 1) []

/-- A character of `cs`, if it comes next. -/
def optional (cs : Text) : Parser Text := fun s =>
  match s.rest with
  | [] => .ok [] s
  | c :: rest => if c ∈ cs then .ok [c] ⟨s.i + 1, rest⟩ else .ok [] s

def fraction : Parser Text := do
  let point ← optional ['.']
  if point = [] then return []
  return point ++ (← takeAll Char.isDigit)

def exponent : Parser Text := do
  let e ← optional ['e', 'E']
  if e = [] then return []
  let sign ← optional ['+', '-']
  return e ++ sign ++ (← takeAll Char.isDigit)

def number [Fp64 F] : Parser (Json F) := do
  let sign ← optional ['-']
  let int ← takeAll Char.isDigit
  let frac ← fraction
  let exp ← exponent
  let text := sign ++ int ++ frac ++ exp
  match (Fp64.parse text : Option F) with
  | none => fail fun _ => s!"json: bad number {String.ofList text}"
  | some n => return .num n

/-- An object or an array: its opening character, then `close` at once or its contents. -/
def opened (close : Char) (empty : Json F) (contents : Parser (Json F)) : Parser (Json F) := do
  let _ ← bump
  ws
  if (← peek) = some close then
    let _ ← bump
    return empty
  else contents

mutual

def value [Fp64 F] : ℕ → Parser (Json F)
  | 0 => throw .outOfFuel
  | fuel + 1 => do
    match ← peek with
    | some '\x7b' => opened '\x7d' (.object []) (members fuel [])
    | some '[' => opened ']' (.array []) (elements fuel [])
    | some '"' => return .str (← string)
    | some 't' => lit "true" (.bool true)
    | some 'f' => lit "false" (.bool false)
    | some 'n' => lit "null" .null
    | some c =>
      if c = '-' ∨ c.isDigit then number
      else fail fun i => s!"json: unexpected byte {debug (leadByte c)} at {i}"
    | none => fail fun _ => "json: unexpected end"

/-- The pairs of an object, up to its brace. -/
def members [Fp64 F] : ℕ → List (Text × Json F) → Parser (Json F)
  | 0, _ => throw .outOfFuel
  | fuel + 1, out => do
    ws
    let quote ← peek
    demand (quote = some '"') fun i => s!"json: expected string key at {i}"
    let key ← string
    ws
    let colon ← bump
    demand (colon = some ':') fun i => s!"json: expected ':' at {i}"
    ws
    let v ← value fuel
    let out := out ++ [(key, v)]
    ws
    match ← bump with
    | some ',' => members fuel out
    | some '\x7d' => return .object out
    | _ => fail fun i => s!"json: expected ',' or '\x7d' at {i}"

/-- The items of an array, up to its bracket. -/
def elements [Fp64 F] : ℕ → List (Json F) → Parser (Json F)
  | 0, _ => throw .outOfFuel
  | fuel + 1, out => do
    ws
    let v ← value fuel
    let out := out ++ [v]
    ws
    match ← bump with
    | some ',' => elements fuel out
    | some ']' => return .array out
    | _ => fail fun i => s!"json: expected ',' or ']' at {i}"

end

/-! ### Fuel -/

/-- From `s` the parser takes at least `k` characters, and does not run out of fuel. -/
def ReadsAt {α : Type} (s : P) (k : ℕ) (m : Parser α) : Prop :=
  match m s with
  | .ok _ s' => s'.rest.length + k ≤ s.rest.length
  | .error e _ => e ≠ .outOfFuel

/-- The same from every text of at most `n` characters. -/
def Reads {α : Type} (n k : ℕ) (m : Parser α) : Prop := ∀ s : P, s.rest.length ≤ n → ReadsAt s k m

variable {α β : Type} {n k j : ℕ} {s : P} {c : Char} {rest : Text}

theorem ReadsAt.bind {m : Parser α} {f : α → Parser β} (hm : ReadsAt s k m)
    (hf : ∀ a s', m s = .ok a s' → s'.rest.length + k ≤ s.rest.length → ReadsAt s' j (f a)) :
    ReadsAt s (k + j) (m >>= f) := by
  show match EStateM.bind m f s with
    | .ok _ s' => s'.rest.length + (k + j) ≤ s.rest.length
    | .error e _ => e ≠ .outOfFuel
  rw [EStateM.bind]
  unfold ReadsAt at hm hf
  cases hres : m s with
  | ok a s' =>
    rw [hres] at hm
    have hend := hf a s' hres hm
    dsimp only at hm ⊢
    cases hres' : f a s' with
    | ok b s'' =>
      rw [hres'] at hend
      dsimp only at hend ⊢
      omega
    | error e s'' =>
      rw [hres'] at hend
      exact hend
  | error e s' =>
    rw [hres] at hm
    exact hm

theorem Reads.bind {m : Parser α} {f : α → Parser β} (hm : Reads n k m)
    (hf : k ≤ n → ∀ a, Reads (n - k) j (f a)) : Reads n (k + j) (m >>= f) :=
  fun s hs => (hm s hs).bind fun a s' _ hs' => hf (by omega) a s' (by omega)

/-- A part that need take nothing. -/
theorem Reads.skip {m : Parser α} {f : α → Parser β} (hm : Reads n 0 m)
    (hf : ∀ a, Reads n k (f a)) : Reads n k (m >>= f) := by
  have h := hm.bind fun _ => hf
  rwa [Nat.zero_add] at h

theorem ReadsAt.weaken {m : Parser α} (h : ReadsAt s k m) {k' : ℕ} (hk : k' ≤ k) :
    ReadsAt s k' m := by
  unfold ReadsAt at h ⊢
  cases hres : m s with
  | ok a s' =>
    rw [hres] at h
    exact Nat.le_trans (Nat.add_le_add_left hk _) h
  | error e s' =>
    rw [hres] at h
    exact h

theorem Reads.weaken {m : Parser α} (h : Reads n k m) {n' k' : ℕ} (hn : n' ≤ n) (hk : k' ≤ k) :
    Reads n' k' m := fun s hs => (h s (Nat.le_trans hs hn)).weaken hk

theorem reads_pure (a : α) : Reads n 0 (pure a : Parser α) := fun s _ => Nat.le_refl s.rest.length

theorem reads_fail (text : ℕ → String) : Reads n k (fail text : Parser α) :=
  fun _ _ h => JsonError.noConfusion h

theorem Reads.ite {c : Prop} [Decidable c] {m₁ m₂ : Parser α} (h₁ : Reads n k m₁)
    (h₂ : Reads n k m₂) : Reads n k (if c then m₁ else m₂) := by
  split
  · exact h₁
  · exact h₂

theorem reads_demand (ok : Prop) [Decidable ok] (text : ℕ → String) : Reads n 0 (demand ok text) :=
  .ite (reads_pure ()) (reads_fail text)

theorem reads_peek : Reads n 0 peek := fun s _ => Nat.le_refl s.rest.length

/-- A first part whose run is known. -/
theorem ReadsAt.run_bind {m : Parser α} {f : α → Parser β} {a : α} {s' : P} (hm : m s = .ok a s')
    (hs : s'.rest.length + k ≤ s.rest.length) (hf : ReadsAt s' j (f a)) :
    ReadsAt s (k + j) (m >>= f) := by
  refine ReadsAt.bind (by rw [ReadsAt, hm]; exact hs) fun b s'' hres _ => ?_
  rw [hm] at hres
  cases hres
  exact hf

theorem ReadsAt.bump_bind {f : Option Char → Parser α} (hs : s.rest = c :: rest)
    (h : ReadsAt ⟨s.i + 1, rest⟩ k (f (some c))) : ReadsAt s (1 + k) (bump >>= f) := by
  have hbump : P.bump s = .ok (some c) ⟨s.i + 1, rest⟩ := by rw [P.bump, hs]
  exact .run_bind hbump (Nat.le_of_eq (by rw [hs, List.length_cons])) h

theorem reads_bump : Reads n 0 bump := by
  intro s hs
  rw [ReadsAt, P.bump]
  cases hrest : s.rest with
  | nil => simp [hrest]
  | cons c rest => simp

theorem reads_count (f : P → ℕ) : Reads n 0 (modify fun s => { s with i := f s }) :=
  fun s _ => Nat.le_refl s.rest.length

theorem reads_takeAll (p : Char → Bool) : Reads n 0 (takeAll p) :=
  fun s _ => (List.dropWhile_sublist (l := s.rest) p).length_le

theorem reads_ws : Reads n 0 ws := (reads_takeAll isWs).skip fun _ => reads_pure ()

theorem reads_hexDigit (error : String) (hex : ℕ) : Reads n 0 (hexDigit error hex) := by
  refine reads_bump.skip fun h => ?_
  cases h with
  | none => exact reads_fail _
  | some h =>
    dsimp only
    cases digit? h with
    | none => exact reads_fail _
    | some d => exact reads_pure _

theorem reads_hex4 (error : String) : Reads n 0 (hex4 error) :=
  (reads_hexDigit error 0).skip fun _ => (reads_hexDigit error _).skip fun _ =>
    (reads_hexDigit error _).skip fun _ => reads_hexDigit error _

theorem reads_surrogatePair (unit : ℕ) : Reads n 0 (surrogatePair unit) :=
  reads_bump.skip fun _ => (reads_demand _ _).skip fun _ => reads_bump.skip fun _ =>
    (reads_demand _ _).skip fun _ => (reads_hex4 _).skip fun _ => (reads_demand _ _).skip fun _ =>
      reads_pure _

theorem reads_unicodeEscape : Reads n 0 unicodeEscape := by
  refine (reads_hex4 _).skip fun unit => Reads.skip ?_ fun cp => ?_
  · exact .ite (reads_surrogatePair unit) (.ite (reads_fail _) (reads_pure unit))
  · cases charOf cp with
    | none => exact reads_fail _
    | some c => exact reads_pure c

theorem reads_escape : Reads n 0 escape := by
  refine reads_bump.skip fun e => ?_
  split
  all_goals first | exact reads_pure _ | exact reads_fail _ | exact reads_unicodeEscape

theorem reads_stringLoop {fuel : ℕ} (hfuel : n < fuel) (out : Text) :
    Reads n 0 (stringLoop fuel out) := by
  induction fuel generalizing n out with
  | zero => exact absurd hfuel (Nat.not_lt_zero n)
  | succ fuel ih =>
    intro s hs
    rw [stringLoop]
    cases hrest : s.rest with
    | nil =>
      have hbump : bump s = .ok none s := by rw [bump, hrest]
      refine ReadsAt.run_bind (k := 0) (j := 0) hbump (Nat.le_refl _) ?_
      exact reads_fail _ s hs
    | cons c rest =>
      rw [hrest, List.length_cons] at hs
      -- The rest of the string is shorter by the character taken.
      have hmore (out : Text) : Reads rest.length 0 (stringLoop fuel out) := ih (by omega) out
      refine ReadsAt.weaken (ReadsAt.bump_bind hrest (k := 0) ?_) (Nat.zero_le _)
      split
      · exact reads_fail _ _ (Nat.le_refl _)
      · exact reads_pure _ _ (Nat.le_refl _)
      · exact (reads_escape.skip fun c => hmore _) _ (Nat.le_refl _)
      · exact (reads_count _).skip (fun _ => hmore _) _ (Nat.le_refl _)

theorem reads_string : Reads n 0 string := by
  refine reads_bump.skip fun _ s hs => ?_
  exact ReadsAt.run_bind (k := 0) rfl (Nat.le_refl _)
    (reads_stringLoop (Nat.lt_succ_self _) [] s (Nat.le_refl _))

theorem readsAt_string (hs : s.rest = c :: rest) : ReadsAt s 1 string :=
  .bump_bind hs (k := 0) (reads_stringLoop (Nat.lt_succ_self _) [] _ (Nat.le_refl _))

theorem reads_optional (cs : Text) : Reads n 0 (optional cs) := by
  intro s hs
  rw [ReadsAt, optional]
  cases hrest : s.rest with
  | nil => simp [hrest]
  | cons c rest =>
    by_cases hc : c ∈ cs
    · simp [hc]
    · simp [hc, hrest]

theorem reads_fraction : Reads n 0 fraction :=
  (reads_optional _).skip fun _ =>
    .ite (reads_pure _) ((reads_takeAll _).skip fun _ => reads_pure _)

theorem reads_exponent : Reads n 0 exponent :=
  (reads_optional _).skip fun _ => .ite (reads_pure _) <|
    (reads_optional _).skip fun _ => (reads_takeAll _).skip fun _ => reads_pure _

theorem reads_afterInt [Fp64 F] (sign int : Text) :
    Reads n 0 (do
      let frac ← fraction
      let exp ← exponent
      let text := sign ++ int ++ frac ++ exp
      match (Fp64.parse text : Option F) with
      | none => fail fun _ => s!"json: bad number {String.ofList text}"
      | some n => return .num n : Parser (Json F)) := by
  refine reads_fraction.skip fun frac => reads_exponent.skip fun exp => ?_
  dsimp only
  split
  · exact reads_fail _
  · exact reads_pure _

/-- A number takes its sign or its first digit. -/
theorem readsAt_number [Fp64 F] (hs : s.rest = c :: rest) (hc : c = '-' ∨ c.isDigit) :
    ReadsAt s 1 (number : Parser (Json F)) := by
  by_cases hsign : c = '-'
  · have hopt : optional ['-'] s = .ok [c] ⟨s.i + 1, rest⟩ := by
      rw [optional, hs]
      exact if_pos (List.mem_singleton.mpr hsign)
    refine .run_bind (k := 1) (j := 0) hopt (Nat.le_of_eq (by rw [hs, List.length_cons])) ?_
    exact (reads_takeAll _).skip (fun _ => reads_afterInt _ _) _ (Nat.le_refl _)
  · have hdigit : c.isDigit = true := hc.resolve_left hsign
    have hopt : optional ['-'] s = .ok [] s := by
      rw [optional, hs]
      exact if_neg fun hmem => hsign (List.mem_singleton.mp hmem)
    refine .run_bind (k := 0) (j := 1) hopt (Nat.le_refl _) ?_
    refine .run_bind (k := 1) (j := 0) rfl ?_ (reads_afterInt _ _ _ (Nat.le_refl _))
    rw [hs, List.dropWhile_cons_of_pos hdigit, List.length_cons]
    exact Nat.succ_le_succ (List.dropWhile_sublist _).length_le

theorem reads_lit {word : String} (hword : 0 < word.length) (v : Json F) :
    Reads n 1 (lit word v) := by
  intro s hs
  refine .run_bind (k := 0) (j := 1) rfl (Nat.le_refl _) ?_
  by_cases hpre : word.toList <+: s.rest
  · rw [if_pos hpre]
    have hlen := hpre.length_le
    rw [String.length_toList] at hlen
    refine .run_bind (k := 1) (j := 0) rfl ?_ (reads_pure v _ (Nat.le_refl _))
    rw [List.length_drop]
    omega
  · rw [if_neg hpre]
    exact reads_fail _ s (Nat.le_refl _)

theorem readsAt_opened (hs : s.rest = c :: rest) {close : Char} {empty : Json F}
    {contents : Parser (Json F)} (hcontents : Reads rest.length 0 contents) :
    ReadsAt s 1 (opened close empty contents) :=
  .bump_bind hs (k := 0) <| (reads_ws.skip fun _ => reads_peek.skip fun _ =>
    .ite (reads_bump.skip fun _ => reads_pure _) hcontents) _ (Nat.le_refl _)

/-- **Fuel for a value**, and for the contents of an object or an array: each turn of the recursion
either takes a character or goes from the contents to a value. -/
theorem reads_value [Fp64 F] (fuel : ℕ) :
    (∀ n, 2 * n + 1 ≤ fuel → Reads n 1 (value fuel : Parser (Json F))) ∧
    (∀ n out, 2 * n + 2 ≤ fuel → Reads n 0 (members fuel out : Parser (Json F))) ∧
    ∀ n out, 2 * n + 2 ≤ fuel → Reads n 0 (elements fuel out : Parser (Json F)) := by
  induction fuel with
  | zero =>
    refine ⟨fun n h => ?_, fun n out h => ?_, fun n out h => ?_⟩
    all_goals omega
  | succ fuel ih =>
    obtain ⟨hvalue, hmembers, helements⟩ := ih
    refine ⟨fun n hn => ?_, fun n out hn => ?_, fun n out hn => ?_⟩
    · intro s hs
      rw [value]
      refine .run_bind (k := 0) (j := 1) rfl (Nat.le_refl _) ?_
      cases hrest : s.rest with
      | nil => exact reads_fail _ s (Nat.le_refl _)
      | cons c rest =>
        have hlen : rest.length + 1 ≤ n := by rwa [hrest, List.length_cons] at hs
        dsimp only [List.head?_cons]
        split
        · exact readsAt_opened hrest (hmembers _ _ (by omega))
        · exact readsAt_opened hrest (helements _ _ (by omega))
        · exact (readsAt_string hrest).bind (j := 0) fun text s' _ _ =>
            reads_pure _ s' (Nat.le_refl _)
        · exact reads_lit (by decide) _ s hs
        · exact reads_lit (by decide) _ s hs
        · exact reads_lit (by decide) _ s hs
        · rename_i hc
          obtain rfl := Option.some.inj hc
          split
          · next hnum => exact readsAt_number hrest hnum
          · exact reads_fail _ s hs
        · exact reads_fail _ s hs
    · rw [members]
      refine reads_ws.skip fun _ => reads_peek.skip fun _ => (reads_demand _ _).skip fun _ => ?_
      refine reads_string.skip fun key => reads_ws.skip fun _ => reads_bump.skip fun _ => ?_
      refine (reads_demand _ _).skip fun _ => reads_ws.skip fun _ => ?_
      have hv := hvalue n (by omega)
      refine (hv.bind (j := 0) fun hpos v => ?_).weaken (Nat.le_refl n) (Nat.zero_le 1)
      refine reads_ws.skip fun _ => reads_bump.skip fun next => ?_
      split
      · exact hmembers _ _ (by omega)
      · exact reads_pure _
      · exact reads_fail _
    · rw [elements]
      refine reads_ws.skip fun _ => ?_
      have hv := hvalue n (by omega)
      refine (hv.bind (j := 0) fun hpos v => ?_).weaken (Nat.le_refl n) (Nat.zero_le 1)
      refine reads_ws.skip fun _ => reads_bump.skip fun next => ?_
      split
      · exact helements _ _ (by omega)
      · exact reads_pure _
      · exact reads_fail _

/-- A value and nothing after it. -/
def document [Fp64 F] (fuel : ℕ) : Parser (Json F) := do
  ws
  let v ← value fuel
  ws
  let s ← get
  demand (s.rest = []) fun i => s!"json: trailing bytes at {i}"
  return v

theorem reads_document [Fp64 F] : Reads n 1 (document (2 * n + 1) : Parser (Json F)) := by
  refine reads_ws.skip fun _ => ?_
  have hv := (reads_value (F := F) (2 * n + 1)).1 n (Nat.le_refl _)
  refine hv.bind (j := 0) fun _ v => reads_ws.skip fun _ => ?_
  exact fun s hs => .run_bind (k := 0) (j := 0) rfl (Nat.le_refl _)
    ((reads_demand _ _).skip (fun _ => reads_pure v) s hs)

end P

/-- `json::parse`. -/
def Json.parse {F : Type} [Fp64 F] (text : Text) : Except JsonError (Json F) :=
  match P.document (2 * text.length + 1) ⟨0, text⟩ with
  | .ok v _ => .ok v
  | .error e _ => .error e

/-- **The recursion never runs out of fuel**: a text is parsed or refused. -/
theorem Json.parse_ne_outOfFuel {F : Type} [Fp64 F] (text : Text) :
    (Json.parse text : Except JsonError (Json F)) ≠ .error .outOfFuel := by
  have hread := P.reads_document (F := F) (n := text.length) ⟨0, text⟩ (Nat.le_refl _)
  rw [P.ReadsAt] at hread
  rw [Json.parse]
  cases hres : (P.document (2 * text.length + 1) : Parser (Json F)) ⟨0, text⟩ with
  | ok v s => exact fun h => nomatch h
  | error e s =>
    rw [hres] at hread
    exact fun h => hread (Except.error.inj h)

/-! ### The serializer -/

/-- `{:04x}`. -/
def hex04 (n : ℕ) : Text :=
  let digits := Nat.toDigits 16 n
  List.replicate (4 - digits.length) '0' ++ digits

def escapeChar (c : Char) : Text :=
  if c = '"' then ['\\', '"']
  else if c = '\\' then ['\\', '\\']
  else if c = '\n' then ['\\', 'n']
  else if c = '\r' then ['\\', 'r']
  else if c = '\t' then ['\\', 't']
  else if c.toNat < 32 then ['\\', 'u'] ++ hex04 c.toNat
  else [c]

def writeString (s : Text) : Text := '"' :: s.flatMap escapeChar ++ ['"']

mutual

def Json.serialize {F : Type} [Fp64 F] : Json F → Text
  | .null => "null".toList
  | .bool b => (if b then "true" else "false").toList
  | .num n =>
    match Fp64.whole n with
    | some k => (toString k).toList
    | none => Fp64.display n
  | .str s => writeString s
  | .array items => '[' :: serializeItems true items ++ [']']
  | .object pairs => '\x7b' :: serializePairs true pairs ++ ['\x7d']

/-- The items, with a comma before each but the first. -/
def serializeItems {F : Type} [Fp64 F] : Bool → List (Json F) → Text
  | _, [] => []
  | first, v :: items =>
    (if first then [] else [',']) ++ v.serialize ++ serializeItems false items

def serializePairs {F : Type} [Fp64 F] : Bool → List (Text × Json F) → Text
  | _, [] => []
  | first, p :: pairs =>
    (if first then [] else [',']) ++ writeString p.1 ++ ':' :: p.2.serialize ++
      serializePairs false pairs

end

end Api

end Mimo26

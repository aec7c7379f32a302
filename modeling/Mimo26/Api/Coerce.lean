import Mimo26.Api.Parser
import Mimo26.Library.Fallible

/-!
# What an argument is coerced to

`coerce` parses an argument as JSON before it looks at the declared type, and of what was parsed it
turns only a number of a declared string, and a string of a declared integer, into the declared
type. So an argument is of its declared type, and that of a declared string is its text, only
where the text is none of JSON or happens to fit.

## Main definitions

* `JsonType`, `OfType` — the types a schema may declare, and their values
* `Typed` — an argument is of its declared type or its text, and that of a declared string its text
* `Fits` — what a text must be for that

## Main results

* `length_of_parse_str` — a JSON string is shorter than its text
* `typed_iff` — `Typed` holds exactly where the text fits
-/

namespace Mimo26

namespace Api

open Fallible

variable {F : Type} [Fp64 F]

/-! ### Strings are shorter than their texts -/

namespace P

variable {α : Type} {n k : ℕ} {m : Parser α}

/-- A result has `q`, if there is one. -/
abbrev Ends (p : P → Prop) (m : Parser α) (q : α → P → Prop) : Prop := Triple p m q fun _ => True

theorem ends_fail {p : P → Prop} {q : α → P → Prop} (text : ℕ → String) :
    Ends p (fail text) q := fun _ _ => trivial

theorem Reads.ends (h : Reads n k m) :
    Ends (fun s => s.rest.length ≤ n) m fun _ s' => s'.rest.length + k ≤ n := by
  intro s hs
  have hread := h s hs
  rw [ReadsAt] at hread
  cases hres : m s with
  | ok a s' =>
    rw [hres] at hread
    exact Nat.le_trans hread hs
  | error e s' => trivial

theorem ends_bump : Ends (fun s => s.rest.length ≤ n) bump
    fun c s' => s'.rest.length + c.toList.length ≤ n := by
  rintro ⟨i, rest⟩ hs
  cases rest with
  | nil => exact hs
  | cons c rest => exact hs

theorem ends_stringLoop (fuel : ℕ) (out : Text) :
    Ends (fun s => s.rest.length ≤ n) (stringLoop fuel out)
      fun text s' => s'.rest.length + text.length ≤ n + out.length := by
  induction fuel generalizing n out with
  | zero => exact Triple.throw fun _ _ => trivial
  | succ fuel ih =>
    -- A character is taken for each one that the string grows by.
    have hmore (c : Char) : Ends (fun s => s.rest.length + 1 ≤ n) (stringLoop fuel (out ++ [c]))
        fun text s' => s'.rest.length + text.length ≤ n + out.length := by
      intro s hs
      refine (ih (n := n - 1) (out ++ [c])).post (fun text s' h => ?_) s (Nat.le_sub_one_of_lt hs)
      rw [List.length_append, List.length_singleton] at h
      omega
    have hescape : Ends (fun s => s.rest.length + 1 ≤ n) escape
        fun _ s' => s'.rest.length + 1 ≤ n := by
      intro s hs
      refine (reads_escape (n := n - 1)).ends.post (fun _ s' h => ?_) s (Nat.le_sub_one_of_lt hs)
      omega
    refine Triple.bind ends_bump fun c => ?_
    split
    · exact ends_fail _
    · exact Triple.pure fun s hs => Nat.add_le_add_right (Nat.le_of_succ_le hs) _
    · exact hescape.bind hmore
    · exact Triple.bind (Triple.modify fun s hs => hs) fun _ => hmore _

/-- A string takes its first quote, and a character for each one of its own. -/
theorem ends_string : Ends (fun s => s.rest ≠ [] ∧ s.rest.length ≤ n) string
    fun text _ => text.length < n := by
  have hbump : Ends (fun s => s.rest ≠ [] ∧ s.rest.length ≤ n) bump
      fun _ s' => s'.rest.length + 1 ≤ n := by
    rintro ⟨i, rest⟩ ⟨hne, hs⟩
    cases rest with
    | nil => exact absurd rfl hne
    | cons c rest => exact hs
  refine hbump.bind fun _ => Triple.get_bind fun s hs => ?_
  refine (ends_stringLoop (n := n - 1) _ []).weaken ?_ (fun text s' h => ?_) fun _ h => h
  · rintro _ rfl
    exact Nat.le_sub_one_of_lt hs
  · rw [List.length_nil] at h
    omega

section

variable {F : Type} {m m' : Parser (Json F)}

/-- No result is a string. -/
def NotStr (m : Parser (Json F)) : Prop := Ends (fun _ => True) m fun v _ => isStr v = false

theorem NotStr.bind {m : Parser α} {f : α → Parser (Json F)} (h : ∀ a, NotStr (f a)) :
    NotStr (m >>= f) := by
  intro s _
  refine Triple.bind (P := fun _ => True) (Q := fun _ _ => True) (fun s _ => ?_) h s trivial
  cases m s with
  | ok a s' => trivial
  | error e s' => trivial

theorem notStr_pure {v : Json F} (h : isStr v = false) : NotStr (pure v) :=
  Triple.pure fun _ _ => h

theorem notStr_fail (text : ℕ → String) : NotStr (fail text : Parser (Json F)) := ends_fail text

theorem NotStr.ite {c : Prop} [Decidable c] (h : NotStr m) (h' : NotStr m') :
    NotStr (if c then m else m') := Triple.ite (fun _ => h) fun _ => h'

theorem notStr_lit {word : String} {v : Json F} (h : isStr v = false) : NotStr (lit word v) :=
  .bind fun _ => .ite (.bind fun _ => notStr_pure h) (notStr_fail _)

theorem notStr_opened {close : Char} {empty : Json F} (h : isStr empty = false) (hm : NotStr m) :
    NotStr (opened close empty m) :=
  .bind fun _ => .bind fun _ => .bind fun _ => .ite (.bind fun _ => notStr_pure h) hm

end

theorem notStr_number : NotStr (number : Parser (Json F)) := by
  refine .bind fun sign => .bind fun int => .bind fun frac => .bind fun exp => ?_
  dsimp only
  split
  · exact notStr_fail _
  · exact notStr_pure rfl

theorem notStr_members (fuel : ℕ) (out : List (Text × Json F)) :
    NotStr (members fuel out : Parser (Json F)) := by
  induction fuel generalizing out with
  | zero => exact Triple.throw fun _ _ => trivial
  | succ fuel ih =>
    rw [members]
    refine .bind fun _ => .bind fun _ => .bind fun _ => .bind fun key => .bind fun _ => ?_
    refine .bind fun _ => .bind fun _ => .bind fun _ => .bind fun v => .bind fun _ => ?_
    refine .bind fun next => ?_
    split
    · exact ih _
    · exact notStr_pure rfl
    · exact notStr_fail _

theorem notStr_elements (fuel : ℕ) (out : List (Json F)) :
    NotStr (elements fuel out : Parser (Json F)) := by
  induction fuel generalizing out with
  | zero => exact Triple.throw fun _ _ => trivial
  | succ fuel ih =>
    rw [elements]
    refine .bind fun _ => .bind fun v => .bind fun _ => .bind fun next => ?_
    split
    · exact ih _
    · exact notStr_pure rfl
    · exact notStr_fail _

/-- A value that is a string is shorter than what was taken for it. -/
theorem ends_value (fuel : ℕ) : Ends (fun s => s.rest.length ≤ n) (value fuel : Parser (Json F))
    fun v _ => ∀ text, v = .str text → text.length < n := by
  -- What is no string says nothing.
  have hnot {p : P → Prop} {m : Parser (Json F)} (h : NotStr m) : Ends p m
      fun v _ => ∀ text, v = .str text → text.length < n := by
    refine h.weaken (fun _ _ => trivial) (fun v s' hv text htext => ?_) fun _ h => h
    rw [htext] at hv
    cases hv
  cases fuel with
  | zero => exact Triple.throw fun _ _ => trivial
  | succ fuel =>
    have hpeek : Ends (fun s => s.rest.length ≤ n) peek
        fun c s => s.rest.head? = c ∧ s.rest.length ≤ n := fun s hs => ⟨rfl, hs⟩
    rw [value]
    refine hpeek.bind fun c => ?_
    split
    · exact hnot (notStr_opened rfl (notStr_members _ _))
    · exact hnot (notStr_opened rfl (notStr_elements _ _))
    · refine Triple.bind (ends_string.pre fun s hs => ⟨?_, hs.2⟩) fun text => Triple.pure ?_
      · intro hnil
        rw [hnil] at hs
        cases hs.1
      · rintro s hs _ heq
        cases heq
        exact hs
    · exact hnot (notStr_lit rfl)
    · exact hnot (notStr_lit rfl)
    · exact hnot (notStr_lit rfl)
    · exact hnot (.ite notStr_number (notStr_fail _))
    · exact hnot (notStr_fail _)

theorem ends_document (fuel : ℕ) :
    Ends (fun s => s.rest.length ≤ n) (document fuel : Parser (Json F))
      fun v _ => ∀ text, v = .str text → text.length < n := by
  refine Triple.bind reads_ws.ends fun _ => (ends_value fuel).bind fun v => ?_
  -- The rest of the document says nothing about the value.
  intro s hv
  refine Triple.bind (P := fun _ => True) (Q := fun _ _ => True) (fun s _ => ?_)
    (fun _ => Triple.get_bind fun s _ => Triple.bind (Q := fun _ _ => True) (fun s _ => ?_)
      fun _ => Triple.pure fun _ _ => hv) s trivial
  · cases ws s with
    | ok a s' => trivial
    | error e s' => trivial
  · rw [demand]
    split <;> trivial

end P

/-- **A JSON string is shorter than its text**, so it is not its text. -/
theorem length_of_parse_str {s text : Text}
    (h : (Json.parse s : Except JsonError (Json F)) = .ok (.str text)) :
        text.length < s.length := by
  have hend := P.ends_document (F := F) (n := s.length) (2 * s.length + 1) ⟨0, s⟩ (Nat.le_refl _)
  rw [Json.parse] at h
  cases hres : (P.document (2 * s.length + 1) : Parser (Json F)) ⟨0, s⟩ with
  | ok v s' =>
    rw [hres] at hend h
    exact hend text (Except.ok.inj h)
  | error e s' =>
    rw [hres] at h
    cases h

/-! ### Declared types -/

/-- The types of JSON schema. -/
inductive JsonType where
  | string
  | integer
  | number
  | boolean
  | array
  | object
  | null
  deriving DecidableEq

def JsonType.name : JsonType → Text
  | .string => "string".toList
  | .integer => "integer".toList
  | .number => "number".toList
  | .boolean => "boolean".toList
  | .array => "array".toList
  | .object => "object".toList
  | .null => "null".toList

/-- The type that a schema names. -/
def jsonType? (name : Text) : Option JsonType :=
  [.string, .integer, .number, .boolean, .array, .object, .null].find? fun ty : JsonType =>
    ty.name = name

/-- The values of a type; `isInteger` tells which numbers are integers. -/
def OfType (isInteger : F → Prop) : JsonType → Json F → Prop
  | .string, .str _ => True
  | .integer, .num n => isInteger n
  | .number, .num _ => True
  | .boolean, .bool _ => True
  | .array, .array _ => True
  | .object, .object _ => True
  | .null, .null => True
  | _, _ => False

/-- The JSON type declared for a parameter. -/
def declared (tool : Option (Tool F)) (key : Text) : Option JsonType :=
  (tool.bind fun t => t.propertySchema key).bind jsonType?

/-- An argument is of its declared type or its text, and that of a declared string is its text. -/
def Typed (isInteger : F → Prop) (raw : Text) (tool : Option (Tool F)) (key : Text) : Prop :=
  ∀ ty, declared tool key = some ty →
    (OfType isInteger ty (coerce raw tool key) ∨ coerce raw tool key = .str (stripNewlines raw)) ∧
    (ty = .string → coerce raw tool key = .str (stripNewlines raw))

/-- A text is none of JSON, or it is that of a value of the type. For a string it is that of a
number in the very form that the codec writes; for an integer, that of a string may do that is also
read as a number, and what is no JSON may not be read as a number that is no integer. -/
def Fits (isInteger : F → Prop) (ty : JsonType) (text : Text) : Prop :=
  match (Json.parse text : Except JsonError (Json F)) with
  | .error _ => ty = .integer → ∀ n : F, Fp64.parse text = some n → isInteger n
  | .ok v =>
    match ty with
    | .string => isNum v ∧ v.serialize = text
    | .integer =>
      OfType isInteger .integer v ∨ isStr v ∧ ∃ n : F, Fp64.parse text = some n ∧ isInteger n
    | ty => OfType isInteger ty v

theorem jsonType?_eq_some {name : Text} {ty : JsonType} :
    jsonType? name = some ty ↔ name = ty.name := by
  constructor
  · intro h
    have hfind := List.find?_some (p := fun ty : JsonType => ty.name = name) h
    exact (of_decide_eq_true hfind).symm
  · rintro rfl
    cases ty <;> rfl

theorem name_injective {ty ty' : JsonType} (h : ty.name = ty'.name) : ty = ty' :=
  Option.some.inj ((jsonType?_eq_some.mpr rfl).symm.trans (jsonType?_eq_some.mpr h))

variable {isInteger : F → Prop} {raw key : Text} {tool : Option (Tool F)} {ty : JsonType}

/-- What `coerce` does for a declared type. -/
theorem coerce_declared (h : declared tool key = some ty) :
    coerce raw tool key =
      match (Json.parse (stripNewlines raw) : Except JsonError (Json F)) with
      | .ok v =>
        if ty = .integer ∧ isStr v then
          match (Fp64.parse (stripNewlines raw) : Option F) with
          | some n => .num n
          | none => v
        else if ty = .string ∧ isNum v then .str v.serialize
        else v
      | .error _ =>
        if ty = .integer ∨ ty = .number then
          match (Fp64.parse (stripNewlines raw) : Option F) with
          | some n => .num n
          | none => .str (stripNewlines raw)
        else .str (stripNewlines raw) := by
  obtain ⟨name, hname, hty⟩ := Option.bind_eq_some_iff.mp h
  obtain rfl := jsonType?_eq_some.mp hty
  have hiff (ty' : JsonType) : some ty.name = some ty'.name ↔ ty = ty' :=
    ⟨fun h => name_injective (Option.some.inj h), fun h => by rw [h]⟩
  have hinteger : some ty.name = some "integer".toList ↔ ty = .integer := hiff .integer
  have hnumber : some ty.name = some "number".toList ↔ ty = .number := hiff .number
  have hstring : some ty.name = some "string".toList ↔ ty = .string := hiff .string
  cases hfp : (Fp64.parse (stripNewlines raw) : Option F) with
  | none =>
    cases hparse : (Json.parse (stripNewlines raw) : Except JsonError (Json F)) with
    | ok v => simp only [coerce, hname, hinteger, hstring, hparse, hfp]
    | error e => simp only [coerce, hname, hinteger, hnumber, hparse, hfp]
  | some n =>
    cases hparse : (Json.parse (stripNewlines raw) : Except JsonError (Json F)) with
    | ok v => simp only [coerce, hname, hinteger, hstring, hparse, hfp]
    | error e => simp only [coerce, hname, hinteger, hnumber, hparse, hfp]

/-- A text of JSON is coerced to its value, to a number or to a number's text. -/
theorem typed_ok_iff {v : Json F} (h : declared tool key = some ty)
    (hparse : (Json.parse (stripNewlines raw) : Except JsonError (Json F)) = .ok v) :
    ((OfType isInteger ty (coerce raw tool key) ∨ coerce raw tool key = .str (stripNewlines raw)) ∧
      (ty = .string → coerce raw tool key = .str (stripNewlines raw))) ↔
    Fits isInteger ty (stripNewlines raw) := by
  rw [coerce_declared h, Fits, hparse]
  dsimp only
  cases v with
  | str text =>
    -- A JSON string is not its own text.
    have hne : text ≠ stripNewlines raw := by
      rintro rfl
      exact Nat.lt_irrefl _ (length_of_parse_str hparse)
    cases ty with
    | integer =>
      cases (Fp64.parse (stripNewlines raw) : Option F) with
      | none => simp [OfType, isStr, hne]
      | some n => simp [OfType, isStr]
    | _ => simp [OfType, isStr, isNum, hne]
  | num n => cases ty <;> simp [OfType, isStr, isNum]
  | _ => cases ty <;> simp [OfType, isStr, isNum]

/-- A text that is none of JSON stays, unless it is read as a number. -/
theorem typed_error_iff {e : JsonError} (h : declared tool key = some ty)
    (hparse : (Json.parse (stripNewlines raw) : Except JsonError (Json F)) = .error e) :
    ((OfType isInteger ty (coerce raw tool key) ∨ coerce raw tool key = .str (stripNewlines raw)) ∧
      (ty = .string → coerce raw tool key = .str (stripNewlines raw))) ↔
    Fits isInteger ty (stripNewlines raw) := by
  rw [coerce_declared h, Fits, hparse]
  dsimp only
  cases (Fp64.parse (stripNewlines raw) : Option F) <;> cases ty <;> simp [OfType]

/-- **An argument is of its declared type or its text**, and that of a declared string is its text,
exactly where the text fits the type: JSON of another type stays of its own type. -/
theorem typed_iff (isInteger : F → Prop) (raw : Text) (tool : Option (Tool F)) (key : Text) :
    Typed isInteger raw tool key ↔
      ∀ ty, declared tool key = some ty → Fits isInteger ty (stripNewlines raw) := by
  refine forall₂_congr fun ty h => ?_
  cases hparse : (Json.parse (stripNewlines raw) : Except JsonError (Json F)) with
  | ok v => exact typed_ok_iff h hparse
  | error e => exact typed_error_iff h hparse

/-- A tool whose parameter `k` is declared a string. -/
def stringTool : Tool ℤ where
  type := []
  function :=
    { name := []
      description := none
      parameters := some (.object [("properties".toList,
        .object [("k".toList, .object [("type".toList, .str "string".toList)])])]) }
  raw := .null

/-- `true` is coerced to a truth value, though a string is declared. -/
example : coerce "true".toList (some stringTool) "k".toList = .bool true := rfl

end Api

end Mimo26

import Mimo26.Api.Types
import Mimo26.Library.Loop
import Mimo26.Library.Search

/-!
# The tool-call markup parser

`parse` splits a completion into content, reasoning and calls. A text is its characters; the cursors
are the source's, counted in characters. Both loops run on fuel, as whether they end is a question:
`Parses` is the result of a parse that returns.

## Main definitions

* `coerce` — an argument's value from its raw text
* `bodyStep`, `parseCall` — the parameters of a call; a tool-call block
* `parseStep`, `parse`, `Parses` — the scan of the text
-/

namespace Mimo26

namespace Api

open Search Loop

variable {F : Type} [Fp64 F]

/-! ### Tags -/

def gt : Text := ">".toList
def tc : Text := "<tool_call>".toList
def tcEnd : Text := "</tool_call>".toList
def fn : Text := "<function=".toList
def fnEnd : Text := "</function>".toList
def pa : Text := "<parameter=".toList
def paEnd : Text := "</parameter>".toList
def th : Text := "<think>".toList
def thEnd : Text := "</think>".toList

structure ParsedCall (F : Type) where
  name : Text
  arguments : Json F

structure ParseResult (F : Type) where
  /-- Text outside think and tool-call blocks. -/
  content : Text
  reasoning : List Text
  calls : List (ParsedCall F)
  /-- Losses that must be surfaced. -/
  reports : List String
  error : Option String
  capped : Bool

/-! ### A tool-call block -/

/-- A raw value without one newline at each end. -/
def stripNewlines (raw : Text) : Text :=
  let raw := if raw.head? = some '\n' then raw.tail else raw
  if raw.getLast? = some '\n' then raw.dropLast else raw

def isStr : Json F → Bool
  | .str _ => true
  | _ => false

def isNum : Json F → Bool
  | .num _ => true
  | _ => false

/-- A raw argument as a value of its schema type. -/
def coerce (raw : Text) (tool : Option (Tool F)) (key : Text) : Json F :=
  let raw := stripNewlines raw
  let schema := tool.bind fun t => t.propertySchema key
  match (Json.parse raw : Except JsonError (Json F)) with
  | .ok v =>
    if schema = some "integer".toList ∧ isStr v then
      match (Fp64.parse raw : Option F) with
      | some n => .num n
      | none => v
    else if schema = some "string".toList ∧ isNum v then .str v.serialize
    else v
  | .error _ =>
    if schema = some "integer".toList ∨ schema = some "number".toList then
      match (Fp64.parse raw : Option F) with
      | some n => .num n
      | none => .str raw
    else .str raw

/-- The locals of the loop over a call's parameters. -/
structure Body (F : Type) where
  cursor : ℕ
  args : List (Text × Json F)
  reports : List String

/-- How the loop is left: by a `break`, or by a `return` with the reports made. -/
inductive BodyEnd (F : Type) where
  | break (b : Body F)
  | lost (reports : List String)

def unparsedTail : String := "unparsed tail after the embedded closing tag"

def lostCall : String := "lost call (closing tag missing)"

def namelessCall : String := "nameless tool call"

/-- A turn of the loop over the parameters of the call in `s`. -/
def bodyStep (s : Text) (tool : Option (Tool F)) (b : Body F) : Body F ⊕ BodyEnd F :=
  let rest := s.drop b.cursor
  if fnEnd <+: rest then .inr (.break { b with cursor := b.cursor + fnEnd.length })
  else if tcEnd <+: rest ∨ rest = [] then .inr (.break b)
  else if pa <+: rest then
    match find gt (rest.drop pa.length) with
    | none =>
      .inr (.break { b with
        cursor := b.cursor + rest.length
        reports := b.reports ++ [unparsedTail] })
    | some q =>
      let keyEnd := pa.length + q
      let key := (rest.take keyEnd).drop pa.length
      let valStart := keyEnd + gt.length
      let tail := rest.drop valStart
      match find paEnd tail with
      | some q =>
        .inl { b with
          cursor := b.cursor + (valStart + q + paEnd.length)
          args := b.args ++ [(key, coerce (tail.take q) tool key)] }
      | none => .inr (.lost (b.reports ++ [lostCall]))
  else if paEnd <+: rest then .inl { b with cursor := b.cursor + paEnd.length }
  else
    .inl { b with
      cursor := b.cursor + (find ['<'] rest).getD rest.length
      reports := b.reports ++ [unparsedTail] }

/-- What a tool-call block gives: the call, the characters consumed, the reports and the error. -/
structure CallOutcome (F : Type) where
  call : Option (ParsedCall F)
  consumed : ℕ
  reports : List String
  error : Option String

/-- After the loop: the call, if its closing tag follows. -/
def closeCall (s name : Text) : BodyEnd F → CallOutcome F
  | .lost reports => ⟨none, s.length, reports, none⟩
  | .break b =>
    if tcEnd <+: s.drop b.cursor then
      ⟨some ⟨name, .object b.args⟩, b.cursor + tcEnd.length, b.reports, none⟩
    else ⟨none, s.length, b.reports ++ [lostCall], none⟩

/-- A tool-call block, from the text after its opening tag. -/
def parseCall (fuel : ℕ) (s : Text) (tools : List (Tool F)) : Option (CallOutcome F) :=
  match find fn s with
  | none =>
    if pa <:+: s then some ⟨none, s.length, [], some namelessCall⟩
    else some ⟨none, s.length, [], none⟩
  | some p =>
    let nameStart := p + fn.length
    match find gt (s.drop nameStart) with
    | none => some ⟨none, s.length, [lostCall], none⟩
    | some q =>
      let nameEnd := nameStart + q
      let name := (s.take nameEnd).drop nameStart
      if name = [] then some ⟨none, s.length, [], some namelessCall⟩
      else
        let tool := tools.find? fun t => t.function.name = name
        (loop (fun _ b => some (bodyStep s tool b)) fuel ⟨nameEnd + gt.length, [], []⟩).map
          (closeCall s name)

/-! ### The text -/

/-- The locals of the scan. -/
structure Scan (F : Type) where
  i : ℕ
  content : Text
  r : ParseResult F

/-- A turn of the scan; the loop of a tool-call block takes its fuel from it. -/
def parseStep (text : Text) (tools : List (Tool F)) (cap fuel : ℕ) (sc : Scan F) :
    Option (Scan F ⊕ ParseResult F) :=
  let rest := text.drop sc.i
  if rest = [] then some (.inr { sc.r with content := sc.content })
  else if th <+: rest then
    match find thEnd rest with
    | some j =>
      some (.inl { sc with
        i := sc.i + (j + thEnd.length)
        r := { sc.r with reasoning := sc.r.reasoning ++ [(rest.take j).drop th.length] } })
    | none =>
      some (.inl { sc with
        i := text.length
        r := { sc.r with reasoning := sc.r.reasoning ++ [rest.drop th.length] } })
  else if tc <+: rest then
    if cap ≠ 0 ∧ cap ≤ sc.r.calls.length then
      some (.inr { sc.r with content := sc.content, capped := true })
    else
      (parseCall fuel (rest.drop tc.length) tools).map fun o =>
        let reports := sc.r.reports ++ o.reports
        match o.error with
        | some e => .inr { sc.r with reports := reports, error := some e, calls := [] }
        | none =>
          .inl { sc with
            i := sc.i + (tc.length + o.consumed)
            r := { sc.r with reports := reports, calls := sc.r.calls ++ o.call.toList } }
  else some (.inl { sc with i := sc.i + 1, content := sc.content ++ rest.take 1 })

def parse (fuel : ℕ) (text : Text) (tools : List (Tool F)) (cap : ℕ) : Option (ParseResult F) :=
  loop (parseStep text tools cap) fuel ⟨0, [], ⟨[], [], [], [], none, false⟩⟩

/-- `parse` returns `r`. -/
def Parses (text : Text) (tools : List (Tool F)) (cap : ℕ) (r : ParseResult F) : Prop :=
  ∃ fuel, parse fuel text tools cap = some r

end Api

end Mimo26

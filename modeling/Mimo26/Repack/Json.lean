import Mathlib.Algebra.Ring.Int.Defs
import Mathlib.Data.List.Sort
import Mathlib.Data.String.Basic
import Mimo26.Repack.Geom
import Mimo26.Repack.JsonText

/-!
# The strict JSON parser of the manifest reader

`json.rs` of `mimo26-repack`: integers below `2 ^ 63`, strings without control bytes, and objects
without a repeated key. An object is its fields by key, as a `BTreeMap` gives them.

## Main definitions

* `Json` — values, with `Json.get` and the conversions
* `jsonParse` — the parser
* `Json.Strict` — the values it can give

## Main results

* `strict_of_jsonParse` — what is parsed is strict
* `document_ne_exhausted` — the fuel of the parser is enough for every text
-/

namespace Mimo26

namespace Repack

open Reader JsonText

/-- A value; the fields of an object are in the order of their keys. -/
inductive Json where
  | null
  | bool (b : Bool)
  | u64 (n : ℕ)
  | str (s : String)
  | array (items : List Json)
  | object (fields : List (String × Json))

namespace Json

def asObject : Json → Option (List (String × Json))
  | object fields => some fields
  | _ => none

def asArray : Json → Option (List Json)
  | array items => some items
  | _ => none

def asStr : Json → Option String
  | str s => some s
  | _ => none

def asU64 : Json → Option ℕ
  | u64 n => some n
  | _ => none

end Json

/-- The value of a key of a map. -/
def getField (fields : List (String × Json)) (key : String) : Option Json :=
  (fields.find? fun x => x.1 = key).map Prod.snd

/-- `map.insert` of a new key. -/
def insertField (fields : List (String × Json)) (x : String × Json) : List (String × Json) :=
  fields.orderedInsert (fun x y => x.1 ≤ y.1) x

namespace JsonReader

def string : Reader Char String := JsonText.string fun c => c.toNat < 0x20

def lit (word : String) (v : Json) : Reader Char Json := do
  let taken ← next word.length
  demand (taken = some word.toList) fun pos =>
    "expected " ++ debugText word.toList ++ " at byte " ++ toString pos
  advance word.length
  return v

/-- `text.parse::<i64>()` of an optional minus sign and digits. -/
def parseI64 (negative : Bool) (digits : List Char) : Except String ℤ :=
  match Numerals.numeral 10 0 digits with
  | none => .error "invalid digit found in string"
  | some n =>
    if digits = [] then .error "invalid digit found in string"
    else if negative then
      if n ≤ 2 ^ 63 then .ok (-n) else .error "number too small to fit in target type"
    else if n < 2 ^ 63 then .ok n else .error "number too large to fit in target type"

/-- The minus sign that a number may begin with. -/
def sign : Reader Char Bool := do
  if (← peek) = some '-' then
    bump
    return true
  else return false

def number : Reader Char Json := do
  let negative ← sign
  let digits ← takeWhile Char.isDigit
  let after ← peek
  let taken := (if negative then 1 else 0) + digits.length
  demand (after ≠ some '.' ∧ after ≠ some 'e' ∧ after ≠ some 'E') fun pos =>
    "non-integer number at byte " ++ toString (pos - taken) ++ " (the manifest has no floats)"
  match parseI64 negative digits with
  | .error e =>
    let text := if negative then '-' :: digits else digits
    refuse fun _ => "bad number " ++ debugText text ++ ": " ++ e
  | .ok n =>
    demand (0 ≤ n) fun pos =>
      "negative number " ++ toString n ++ " at byte " ++ toString (pos - taken)
    return .u64 n.toNat

def moreText (close : Char) (got : Option Char) (pos : ℕ) : String :=
  "expected ',' or '" ++ close.toString ++ "' at byte " ++ toString pos ++ ", got " ++ debugPeek got

/-- An object or an array: its opening bracket, and `empty` at the closing one or else `items`. -/
def opened (opening close : Char) (empty : Json) (items : Reader Char Json) : Reader Char Json := do
  expect opening
  ws
  if (← peek) = some close then
    bump
    return empty
  else items

mutual

def value : ℕ → Reader Char Json
  | 0 => throw .exhausted
  | fuel + 1 => do
    match ← peek with
    | some c =>
      if c = '\x7b' then opened '\x7b' '\x7d' (.object []) (members fuel [])
      else if c = '[' then opened '[' ']' (.array []) (elements fuel [])
      else if c = '"' then
        return .str (← string)
      else if c = 't' then lit "true" (.bool true)
      else if c = 'f' then lit "false" (.bool false)
      else if c = 'n' then lit "null" .null
      else if c.isDigit ∨ c = '-' then number
      else refuse fun pos => "unexpected " ++ debugPeek (some c) ++ " at byte " ++ toString pos
    | none => refuse fun pos => "unexpected None at byte " ++ toString pos

/-- The fields of an object, up to its brace. -/
def members : ℕ → List (String × Json) → Reader Char Json
  | 0, _ => throw .exhausted
  | fuel + 1, map => do
    ws
    let k ← string
    ws
    expect ':'
    ws
    let v ← value fuel
    demand (k ∉ map.map Prod.fst) fun _ => "duplicate key " ++ debugText k.toList
    let map := insertField map (k, v)
    ws
    if ← more '\x7d' (moreText '\x7d') then members fuel map else return .object map

/-- The items of an array, up to its bracket. -/
def elements : ℕ → List Json → Reader Char Json
  | 0, _ => throw .exhausted
  | fuel + 1, out => do
    ws
    let v ← value fuel
    ws
    if ← more ']' (moreText ']') then elements fuel (out ++ [v]) else return .array (out ++ [v])

end

def document : Reader Char Json := do
  ws
  let v ← value (2 * (← remaining) + 1)
  ws
  demand ((← remaining) = 0) fun pos => "trailing bytes at " ++ toString pos
  return v

end JsonReader

/-- Parses a complete document. -/
def jsonParse (text : String) : Except RepackError Json :=
  match JsonReader.document ⟨0, latin1 (Utf8.encode text.toList)⟩ with
  | .ok v _ => .ok v
  | .error e _ => .error (.badManifest (refusalText e))

/-! ### What is parsed -/

/-- The values the parser can give. -/
inductive Json.Strict : Json → Prop
  | null : Strict .null
  | bool (b : Bool) : Strict (.bool b)
  | u64 {n : ℕ} (h : n < 2 ^ 63) : Strict (.u64 n)
  | str (s : String) : Strict (.str s)
  | array {items : List Json} (h : ∀ v ∈ items, Strict v) : Strict (.array items)
  | object {fields : List (String × Json)} (sorted : (fields.map Prod.fst).Pairwise (· < ·))
      (h : ∀ x ∈ fields, Strict x.2) : Strict (.object fields)

theorem mem_insertField {fields : List (String × Json)} {x y : String × Json} :
    y ∈ insertField fields x ↔ y = x ∨ y ∈ fields := by
  rw [insertField, List.mem_orderedInsert]

theorem map_insertField (fields : List (String × Json)) (x : String × Json) :
    (insertField fields x).map Prod.fst = (fields.map Prod.fst).orderedInsert (· ≤ ·) x.1 := by
  induction fields with
  | nil => rfl
  | cons y fields ih =>
    rw [insertField, List.orderedInsert, List.map_cons, List.orderedInsert]
    split
    · rfl
    · rw [List.map_cons]
      exact congrArg _ ih

/-- A new key keeps the order of the keys. -/
theorem sorted_insertField {fields : List (String × Json)} {x : String × Json}
    (hsorted : (fields.map Prod.fst).Pairwise (· < ·)) (hnew : x.1 ∉ fields.map Prod.fst) :
    ((insertField fields x).map Prod.fst).Pairwise (· < ·) := by
  rw [map_insertField]
  have hle : ((fields.map Prod.fst).orderedInsert (· ≤ ·) x.1).Pairwise (· ≤ ·) :=
    List.Pairwise.orderedInsert _ _ (hsorted.imp le_of_lt)
  have hne : ((fields.map Prod.fst).orderedInsert (· ≤ ·) x.1).Nodup := by
    rw [(List.perm_orderedInsert (· ≤ ·) x.1 _).nodup_iff, List.nodup_cons]
    exact ⟨hnew, hsorted.imp ne_of_lt⟩
  exact (hle.and hne).imp fun h => lt_of_le_of_ne h.1 h.2

theorem perm_insertField (fields : List (String × Json)) (x : String × Json) (keys : List String) :
    (fields.map Prod.fst ++ x.1 :: keys).Perm ((insertField fields x).map Prod.fst ++ keys) := by
  rw [map_insertField]
  refine List.perm_middle.trans ?_
  exact (List.perm_orderedInsert (· ≤ ·) x.1 _).symm.append_right _

/-- Keys that differ still do when one of them is put into the map. -/
theorem nodup_insertField {fields : List (String × Json)} {x : String × Json} {keys : List String}
    (h : (fields.map Prod.fst ++ x.1 :: keys).Nodup) :
    ((insertField fields x).map Prod.fst ++ keys).Nodup :=
  (perm_insertField fields x keys).nodup_iff.mp h

theorem notMem_of_nodup {fields : List (String × Json)} {k : String} {keys : List String}
    (h : (fields.map Prod.fst ++ k :: keys).Nodup) : k ∉ fields.map Prod.fst :=
  fun hmem => (List.nodup_append.mp h).2.2 _ hmem _ List.mem_cons_self rfl

namespace JsonReader

variable {s : Cursor Char}

/-- At least `k` bytes of `s` were taken, and the value is strict. -/
def Sound (k : ℕ) (s : Cursor Char) (v : Json) (s' : Cursor Char) : Prop :=
  Shorter k s v s' ∧ v.Strict

theorem reads_lit (word : String) {v : Json} (hv : v.Strict) :
    Reads s (lit word v) (Sound 0 s) := by
  refine (reads_next _).bind ?_
  rintro taken s' ⟨-, rfl⟩
  refine reads_demand.bind ?_
  rintro _ s'' ⟨-, rfl⟩
  refine (reads_advance _).bind fun _ s₃ hs₃ => Reader.reads_pure ⟨?_, hv⟩
  show s₃.rest.length ≤ s''.rest.length
  rw [hs₃]
  exact (List.drop_sublist _ _).length_le

theorem lt_of_parseI64 {negative : Bool} {digits : List Char} {n : ℤ}
    (h : parseI64 negative digits = .ok n) : n < 2 ^ 63 := by
  rw [parseI64] at h
  split at h
  · cases h
  · next m _ =>
    split_ifs at h with hnil hneg hle hlt
    · obtain rfl := Except.ok.inj h
      omega
    · obtain rfl := Except.ok.inj h
      omega

theorem reads_sign : Reads s sign (Shorter 0 s) := by
  refine reads_peek.bind ?_
  rintro got s' ⟨rfl, rfl⟩
  refine .ite (fun h => ?_) fun _ => reads_done _
  exact reads_bind (k := 0) (j := 0)
    ((reads_bump_of_head h).mono fun _ _ h' => h'.weaken (Nat.zero_le 1)) fun _ _ _ => reads_done _

theorem reads_number : Reads s number (Sound 0 s) := by
  refine reads_sign.bind fun negative s₁ h₁ => ?_
  refine (reads_takeWhile _).bind fun digits s₂ h₂ => ?_
  refine reads_peek.bind ?_
  rintro after s₃ ⟨-, rfl⟩
  refine reads_demand.bind ?_
  rintro _ s₄ ⟨-, rfl⟩
  cases hparse : parseI64 negative digits with
  | error e => exact reads_refuse _
  | ok n =>
    refine reads_demand.bind ?_
    rintro _ s₅ ⟨hn, rfl⟩
    have hlt := lt_of_parseI64 hparse
    refine Reader.reads_pure ⟨?_, .u64 (by omega)⟩
    show s₅.rest.length ≤ s.rest.length
    rw [h₂.2]
    exact Nat.le_trans (List.dropWhile_sublist _).length_le h₁

theorem reads_opened {opening close : Char} {empty : Json} {items : Reader Char Json}
    (hempty : empty.Strict) (hitems : ∀ s', Shorter 1 s () s' → Reads s' items (Sound 0 s')) :
    Reads s (opened opening close empty items) (Sound 0 s) := by
  refine (reads_expect opening).bind fun _ s₁ h₁ => ?_
  refine reads_ws.bind fun _ s₂ h₂ => ?_
  have h : Shorter 1 s () s₂ := (h₁.trans h₂).weaken (Nat.le_refl 1)
  refine reads_peek.bind ?_
  rintro got s₃ ⟨rfl, rfl⟩
  refine .ite (fun hclose => ?_) fun _ => ?_
  · refine (reads_bump_of_head hclose).bind fun _ s₄ h₄ => Reader.reads_pure ⟨?_, hempty⟩
    exact (h.trans h₄).weaken (Nat.zero_le _)
  · exact (hitems s₃ h).mono fun v s₄ h₄ => ⟨(h.trans h₄.1).weaken (Nat.zero_le _), h₄.2⟩

/-- The value, the fields and the items of fuel `fuel`; items begin with no byte of their own, so a
value costs twice its bytes. -/
theorem reads_all (fuel : ℕ) (s : Cursor Char) :
    (2 * s.rest.length + 1 ≤ fuel → Reads s (value fuel) (Sound 0 s)) ∧
      (2 * s.rest.length + 1 ≤ fuel → ∀ map, Json.Strict (.object map) →
        Reads s (members fuel map) (Sound 0 s)) ∧
      (2 * s.rest.length + 2 ≤ fuel → ∀ out, Json.Strict (.array out) →
        Reads s (elements fuel out) (Sound 0 s)) := by
  induction fuel generalizing s with
  | zero => exact ⟨fun h => absurd h (by omega), fun h => absurd h (by omega),
      fun h => absurd h (by omega)⟩
  | succ fuel ih =>
    refine ⟨fun hfuel => ?_, fun hfuel map hmap => ?_, fun hfuel out hout => ?_⟩
    · refine reads_peek.bind ?_
      rintro got s₁ ⟨hgot, rfl⟩
      cases got with
      | none => exact reads_refuse _
      | some c =>
        refine .ite (fun _ => ?_) fun _ => .ite (fun _ => ?_) fun _ => .ite (fun _ => ?_) fun _ =>
          .ite (fun _ => reads_lit _ (.bool _)) fun _ => .ite (fun _ => reads_lit _ (.bool _)) fun _ =>
          .ite (fun _ => reads_lit _ .null) fun _ => .ite (fun _ => reads_number) fun _ =>
          reads_refuse _
        · have hempty : Json.Strict (.object []) := .object List.Pairwise.nil nofun
          refine reads_opened hempty fun s₂ h₂ => (ih s₂).2.1 ?_ [] hempty
          unfold Shorter at h₂
          omega
        · have hempty : Json.Strict (.array []) := .array nofun
          refine reads_opened hempty fun s₂ h₂ => (ih s₂).2.2 ?_ [] hempty
          unfold Shorter at h₂
          omega
        · exact (reads_string _).bind fun text s₂ h₂ =>
            Reader.reads_pure ⟨h₂.weaken (Nat.zero_le 1), .str text⟩
    · refine reads_ws.bind fun _ s₁ h₁ => ?_
      refine (reads_string _).bind fun k s₂ h₂ => ?_
      refine reads_ws.bind fun _ s₃ h₃ => ?_
      refine (reads_expect ':').bind fun _ s₄ h₄ => ?_
      refine reads_ws.bind fun _ s₅ h₅ => ?_
      have hlen₅ : s₅.rest.length + 2 ≤ s.rest.length := (((h₁.trans h₂).trans h₃).trans h₄).trans h₅
      refine ((ih s₅).1 (by omega)).bind fun v s₆ h₆ => ?_
      refine reads_demand.bind ?_
      rintro _ s₇ ⟨hnew, rfl⟩
      have hmap' : Json.Strict (.object (insertField map (k, v))) := by
        cases hmap with
        | object sorted hall =>
          refine .object (sorted_insertField sorted hnew) fun x hx => ?_
          rcases mem_insertField.mp hx with rfl | hx
          · exact h₆.2
          · exact hall x hx
      refine reads_ws.bind fun _ s₈ h₈ => ?_
      refine (reads_more _ _).bind fun _ s₉ h₉ => ?_
      have hlen₉ : s₉.rest.length + 1 ≤ s₅.rest.length := (h₆.1.trans h₈).trans h₉
      have hle : Shorter 0 s () s₉ := show s₉.rest.length ≤ s.rest.length by omega
      refine .ite (fun _ => ?_) fun _ => Reader.reads_pure ⟨hle, hmap'⟩
      refine ((ih s₉).2.1 (by omega) _ hmap').mono fun u s₀ h₀ => ?_
      exact ⟨(hle.trans h₀.1).weaken (Nat.le_refl 0), h₀.2⟩
    · refine reads_ws.bind fun _ s₁ h₁ => ?_
      have hlen₁ : s₁.rest.length ≤ s.rest.length := h₁
      refine ((ih s₁).1 (by omega)).bind fun v s₂ h₂ => ?_
      have hout' : Json.Strict (.array (out ++ [v])) := by
        cases hout with
        | array hall =>
          refine .array fun u hu => ?_
          rcases List.mem_append.mp hu with hu | hu
          · exact hall u hu
          · exact List.mem_singleton.mp hu ▸ h₂.2
      refine reads_ws.bind fun _ s₃ h₃ => ?_
      refine (reads_more _ _).bind fun _ s₄ h₄ => ?_
      have hlen₄ : s₄.rest.length + 1 ≤ s₁.rest.length := (h₂.1.trans h₃).trans h₄
      have hle : Shorter 0 s () s₄ := show s₄.rest.length ≤ s.rest.length by omega
      refine .ite (fun _ => ?_) fun _ => Reader.reads_pure ⟨hle, hout'⟩
      refine ((ih s₄).2.2 (by omega) _ hout').mono fun u s₅ h₅ => ?_
      exact ⟨(hle.trans h₅.1).weaken (Nat.le_refl 0), h₅.2⟩

theorem reads_document : Reads s document fun v _ => v.Strict := by
  refine reads_ws.bind fun _ s₁ _ => ?_
  refine reads_remaining.bind ?_
  rintro _ s₂ ⟨rfl, rfl⟩
  refine ((reads_all _ s₂).1 (Nat.le_refl _)).bind fun v s₃ h₃ => ?_
  refine reads_ws.bind fun _ s₄ _ => ?_
  refine reads_remaining.bind ?_
  rintro _ s₅ ⟨rfl, rfl⟩
  refine reads_demand.bind ?_
  rintro _ s₆ ⟨-, rfl⟩
  exact Reader.reads_pure h₃.2

/-- **The fuel of the parser is enough** for every text. -/
theorem document_ne_exhausted (s' : Cursor Char) : document s ≠ .error .exhausted s' :=
  reads_document.fuel s'

end JsonReader

/-- **What is parsed is strict**: numbers fit in an `i64`, and the keys of an object increase. -/
theorem strict_of_jsonParse {text : String} {v : Json} (h : jsonParse text = .ok v) : v.Strict := by
  rw [jsonParse] at h
  split at h
  · next v' s' hres =>
    obtain rfl := Except.ok.inj h
    exact JsonReader.reads_document.ok v' s' hres
  · exact absurd h nofun

end Repack

end Mimo26

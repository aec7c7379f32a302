import Mimo26.Library.OrderedMap
import Mimo26.Repack.Json
import Mimo26.Repack.Manifest

/-!
# The manifest and its text

Writing a manifest and reading it back (`to_json`, `parse` and `parse_slice_entry` of `manifest.rs`,
`unhex` of `sha256.rs`).

## Main definitions

* `jsonStr`, `Manifest.toJson` — the text of a manifest
* `Manifest.ofJson`, `Manifest.parse` — the manifest of a JSON value and of a text
* `unhex` — the digest of its hexadecimal digits
-/

namespace Mimo26

namespace Repack

open Result

/-! ### Writing -/

/-- A character of a string, escaped where it must be. -/
def escapeChar (c : Char) : String :=
  if c = '"' then "\\\""
  else if c = '\\' then "\\\\"
  else if c = '\n' then "\\n"
  else if c = '\r' then "\\r"
  else if c = '\t' then "\\t"
  else if c.toNat < 0x20 then "\\u" ++ String.ofList ((Nat.toDigits 16 c.toNat).leftpad 4 '0')
  else c.toString

def jsonStr (s : String) : String := "\"" ++ String.join (s.toList.map escapeChar) ++ "\""

/-- Lines, of which each but the last ends in a comma. -/
def commaLines : List String → String
  | [] => ""
  | [line] => line ++ "\n"
  | line :: lines => line ++ ",\n" ++ commaLines lines

def LayoutEntry.toJson (r : LayoutEntry) : String :=
  "    \x7b\"proj\": " ++ jsonStr r.proj ++ ", \"region\": " ++ jsonStr r.region ++ ", \"off\": " ++
    toString r.off ++ ", \"len\": " ++ toString r.len ++ "\x7d"

def SourceTensor.toJson (t : SourceTensor) : String :=
  "          \x7b\"name\": " ++ jsonStr t.name ++ ", \"shape\": [" ++
    ", ".intercalate (t.shape.map toString) ++ "], \"dtype\": " ++ jsonStr t.dtype ++ "\x7d"

def SliceEntry.toJson (e : SliceEntry) : String :=
  "    \x7b\n" ++
    "      \"file\": " ++ jsonStr e.file ++ ",\n" ++
    "      \"sha256\": " ++ jsonStr e.sha256 ++ ",\n" ++
    "      \"bytes\": " ++ toString e.bytes ++ ",\n" ++
    "      \"layer\": " ++ toString e.layer ++ ",\n" ++
    "      \"expert\": " ++ toString e.expert ++ ",\n" ++
    "      \"rank\": " ++ toString e.rank ++ ",\n" ++
    "      \"source\": \x7b\n" ++
    "        \"shard\": " ++ jsonStr e.shard ++ ",\n" ++
    "        \"tensors\": [\n" ++
    commaLines (e.tensors.map SourceTensor.toJson) ++
    "        ]\n" ++
    "      \x7d\n" ++
    "    \x7d"

/-- The text of a manifest: two spaces of indentation, one field a line. -/
def Manifest.toJson (m : Manifest) : String :=
  "\x7b\n" ++
    "  \"format\": " ++ jsonStr m.format ++ ",\n" ++
    "  \"version\": " ++ toString m.version ++ ",\n" ++
    "  \"generated_by\": " ++ jsonStr m.generatedBy ++ ",\n" ++
    "  \"geometry\": \x7b\n" ++
    commaLines ((OrderedMap.inOrder m.geometry).map fun x =>
      "    " ++ jsonStr x.1 ++ ": " ++ toString x.2) ++
    "  \x7d,\n" ++
    "  \"layout\": [\n" ++
    commaLines (m.layout.map LayoutEntry.toJson) ++
    "  ],\n" ++
    "  \"slices\": [\n" ++
    commaLines (m.slices.map SliceEntry.toJson) ++
    "  ]\n" ++
    "\x7d\n"

/-! ### Reading -/

def hexVal (c : Char) : Except String ℕ :=
  if '0' ≤ c ∧ c ≤ '9' then .ok (c.toNat - '0'.toNat)
  else if 'a' ≤ c ∧ c ≤ 'f' then .ok (c.toNat - 'a'.toNat + 10)
  else if 'A' ≤ c ∧ c ≤ 'F' then .ok (c.toNat - 'A'.toNat + 10)
  else .error ("not a hex digit: " ++ debug c)

/-- The digest of 64 hexadecimal digits, in lower or upper case. -/
def unhex (s : String) : Except String (List UInt8) :=
  let bytes := latin1 (Utf8.encode s.toList)
  if bytes.length ≠ 64 then .error ("sha256 hex must be 64 chars, got " ++ toString bytes.length)
  else (List.range 32).mapM fun i => do
    let hi ← hexVal (bytes.getD (i * 2) '0')
    let lo ← hexVal (bytes.getD (i * 2 + 1) '0')
    return UInt8.ofNat (hi * 16 + lo)

/-- What must be there, or the manifest is malformed. -/
def need {α : Type} (x : Option α) (text : String) : Except RepackError α :=
  match x with
  | some a => .ok a
  | none => .error (.badManifest text)

def getStr (fields : List (String × Json)) (key : String) : Option String :=
  (getField fields key).bind Json.asStr

def getU64 (fields : List (String × Json)) (key : String) : Option ℕ :=
  (getField fields key).bind Json.asU64

def getArray (fields : List (String × Json)) (key : String) : Option (List Json) :=
  (getField fields key).bind Json.asArray

def getObject (fields : List (String × Json)) (key : String) : Option (List (String × Json)) :=
  (getField fields key).bind Json.asObject

def LayoutEntry.ofJson (v : Json) : Except RepackError LayoutEntry := do
  let o ← need v.asObject "layout row is not an object"
  let proj ← need (getStr o "proj") "layout row missing proj"
  let region ← need (getStr o "region") "layout row missing region"
  let off ← need (getU64 o "off") "layout row missing off"
  let len ← need (getU64 o "len") "layout row missing len"
  return ⟨proj, region, off, len⟩

/-- A tensor of the slice `file`; what is not a number in its shape is read as the last `u64`. -/
def SourceTensor.ofJson (file : String) (v : Json) : Except RepackError SourceTensor := do
  let o ← need v.asObject (file ++ ": tensor entry is not an object")
  let name ← need (getStr o "name") (file ++ ": tensor missing name")
  let shape ← need (getArray o "shape") (file ++ ": tensor missing shape")
  let dtype ← need (getStr o "dtype") (file ++ ": tensor missing dtype")
  return ⟨name, shape.map fun d => d.asU64.getD (2 ^ 64 - 1), dtype⟩

def SliceEntry.ofJson (v : Json) : Except RepackError SliceEntry := do
  let o ← need v.asObject "slice entry is not an object"
  let file ← need (getStr o "file") "slice entry missing file"
  let sha ← need (getStr o "sha256") "slice entry missing sha256"
  let _ ← (unhex sha).mapError fun e => .badManifest (file ++ ": bad sha256: " ++ e)
  let bytes ← need (getU64 o "bytes") "slice entry missing bytes"
  let layer ← need (getU64 o "layer") "slice entry missing layer"
  let expert ← need (getU64 o "expert") "slice entry missing expert"
  let rank ← need (getU64 o "rank") "slice entry missing rank"
  let source ← need (getObject o "source") (file ++ ": missing source")
  let shard ← need (getStr source "shard") (file ++ ": source missing shard")
  let tensors ← need (getArray source "tensors") (file ++ ": source missing tensors")
  let tensors ← tensors.mapM (SourceTensor.ofJson file)
  return ⟨file, sha, bytes, layer, expert, rank, shard, tensors⟩

/-- A field of the geometry. -/
def geometryField (x : String × Json) : Except RepackError (String × ℕ) := do
  let n ← need x.2.asU64 ("geometry." ++ x.1 ++ " is not a number")
  return (x.1, n)

/-- The manifest of a JSON value; fields it does not ask for are ignored, and a producer that is
missing or no string is empty. -/
def Manifest.ofJson (v : Json) : Except RepackError Manifest := do
  let obj ← need v.asObject "top level is not an object"
  let format ← need (getStr obj "format") "missing \"format\""
  demand (format = manifestFormat) (.badManifest ("format " ++ debugText format.toList ++ " != " ++
    debugText manifestFormat.toList))
  let version ← need (getU64 obj "version") "missing \"version\""
  demand (version = manifestVersion) (.badManifest ("version " ++ toString version ++ " != " ++
    toString manifestVersion))
  let generatedBy := (getStr obj "generated_by").getD ""
  let geometry ← need (getObject obj "geometry") "missing \"geometry\""
  let geometry ← geometry.mapM geometryField
  let layout ← need (getArray obj "layout") "missing \"layout\""
  let layout ← layout.mapM LayoutEntry.ofJson
  let slices ← need (getArray obj "slices") "missing \"slices\""
  let slices ← slices.mapM SliceEntry.ofJson
  let m : Manifest := ⟨format, version, generatedBy, OrderedMap.ofList geometry, layout, slices⟩
  m.validateGeometry
  return m

/-- Reads and validates a manifest. -/
def Manifest.parse (text : String) : Except RepackError Manifest := do
  Manifest.ofJson (← jsonParse text)

end Repack

end Mimo26

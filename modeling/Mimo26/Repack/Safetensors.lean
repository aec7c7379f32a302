import Mimo26.Library.Bytes
import Mimo26.Library.OrderedMap
import Mimo26.Repack.Geom
import Mimo26.Repack.JsonText
import Mathlib.Data.String.Basic

/-!
# The safetensors reader

The header of a safetensors file and the ranges of its tensors (`safetensors.rs`). A file is its
bytes; the sums of `u64` wrap as in a release build. The loops of the parser run on fuel that they
take from the text.

## Main definitions

* `TensorEntry`, `SafetensorsHeader` — what is read of a header
* `headerEntries`, `parseHeaderJson` — the entries of a header as they are read, and their map
* `SafetensorsHeader.read`, `SafetensorsHeader.readTensor` — reading a header, and a tensor

## Main results

* `headerEntries_ne_exhausted` — the fuel of the parser is enough for every text
-/

namespace Mimo26

namespace Repack

open Reader Result

/-- One tensor's entry, with `[start, end)` relative to the data region. -/
structure TensorEntry where
  dtype : String
  shape : List ℕ
  dataOffsets : UInt64 × UInt64
  ordered : dataOffsets.1 ≤ dataOffsets.2
  deriving DecidableEq

def TensorEntry.byteLen (t : TensorEntry) : UInt64 := t.dataOffsets.2 - t.dataOffsets.1

structure SafetensorsHeader where
  tensors : Finmap fun _ : String => TensorEntry
  /-- Where the data region starts in the file. -/
  dataStart : UInt64
  fileLen : UInt64

/-- The bytes of a file; its length is an `off_t`. -/
structure File where
  bytes : List UInt8
  fits : bytes.length < 2 ^ 63

def File.len (f : File) : UInt64 := UInt64.ofNat f.bytes.length

/-! ### The parser -/

namespace Safetensors

open JsonText

def string : Reader Char String := JsonText.string fun _ => false

def number : Reader Char ℕ := do
  let digits ← takeWhile Char.isDigit
  demand (digits ≠ []) fun pos => "expected a number at byte " ++ toString pos
  match Numerals.readUnsigned 10 (2 ^ 64) digits with
  | none => refuse fun _ => "bad number: number too large to fit in target type"
  | some n => return n

def moreItems : Reader Char Bool :=
  more ']' fun got _ => "expected ',' or ']', got " ++ debugPeek got

def moreFields : Reader Char Bool :=
  more '\x7d' fun got _ => "expected ',' or '\x7d', got " ++ debugPeek got

/-- What follows an opening bracket: `empty` at the closing one, or else `items`. -/
def unlessClosed {α : Type} (close : Char) (empty items : Reader Char α) : Reader Char α := do
  ws
  if (← peek) = some close then
    bump
    empty
  else items

def usizeLoop : ℕ → List ℕ → Reader Char (List ℕ)
  | 0, _ => throw .exhausted
  | fuel + 1, out => do
    ws
    let n ← number
    ws
    if ← moreItems then usizeLoop fuel (out ++ [n]) else return out ++ [n]

def usizeArray : Reader Char (List ℕ) := do
  expect '['
  unlessClosed ']' (pure []) do usizeLoop ((← remaining) + 1) []

def skipSign (c : Char) : Reader Char Unit := if c = '-' then bump else pure ()

/-- The number that `c` begins, with an optional fraction; an exponent is not taken. -/
def skipNumber (c : Char) : Reader Char Unit := do
  skipSign c
  let _ ← number
  if (← peek) = some '.' then
    bump
    let _ ← number

mutual

/-- Reads a value and drops it. -/
def skipValue : ℕ → Reader Char Unit
  | 0 => throw .exhausted
  | fuel + 1 => do
    ws
    match ← peek with
    | some c =>
      if c = '"' then
        let _ ← string
      else if c = '\x7b' then
        bump
        unlessClosed '\x7d' (pure ()) (skipMembers fuel)
      else if c = '[' then
        bump
        unlessClosed ']' (pure ()) (skipElements fuel)
      else if c = 't' ∨ c = 'f' ∨ c = 'n' then
        let _ ← takeWhile Char.isAlpha
      else if c.isDigit ∨ c = '-' then
        skipNumber c
      else refuse fun _ => "unexpected " ++ debugPeek (some c) ++ " in JSON value"
    | none => refuse fun _ => "unexpected None in JSON value"

def skipMembers : ℕ → Reader Char Unit
  | 0 => throw .exhausted
  | fuel + 1 => do
    ws
    let _ ← string
    ws
    expect ':'
    skipValue fuel
    ws
    if ← moreFields then skipMembers fuel

def skipElements : ℕ → Reader Char Unit
  | 0 => throw .exhausted
  | fuel + 1 => do
    skipValue fuel
    ws
    if ← moreItems then skipElements fuel

end

def skip : Reader Char Unit := do skipValue (2 * (← remaining) + 1)

/-- The fields of an entry read so far; a later one replaces an earlier. -/
structure Fields where
  dtype : Option String := none
  shape : Option (List ℕ) := none
  offsets : Option (UInt64 × UInt64) := none

/-- A key and its value, of an entry. -/
def field (fields : Fields) : Reader Char Fields := do
  ws
  let key ← string
  ws
  expect ':'
  ws
  if key = "dtype" then
    return { fields with dtype := some (← string) }
  else if key = "shape" then
    return { fields with shape := some (← usizeArray) }
  else if key = "data_offsets" then
    let v ← usizeArray
    match v with
    | [a, b] => return { fields with offsets := some (UInt64.ofNat a, UInt64.ofNat b) }
    | _ => refuse fun _ => "data_offsets must have 2 entries, got " ++ toString v.length
  else
    skip
    return fields

def fieldsLoop : ℕ → Fields → Reader Char Fields
  | 0, _ => throw .exhausted
  | fuel + 1, fields => do
    let fields ← field fields
    ws
    if ← moreFields then fieldsLoop fuel fields else return fields

/-- A field that must have been given. -/
def required {α : Type} (x : Option α) (name : String) : Reader Char α :=
  match x with
  | none => refuse fun _ => "tensor entry missing " ++ name
  | some a => pure a

def tensorEntry : Reader Char TensorEntry := do
  expect '\x7b'
  let fields ← unlessClosed '\x7d' (refuse fun _ => "tensor entry has no fields") do
    fieldsLoop ((← remaining) + 1) {}
  let dtype ← required fields.dtype "dtype"
  let shape ← required fields.shape "shape"
  let offsets ← required fields.offsets "data_offsets"
  if h : offsets.1 ≤ offsets.2 then return ⟨dtype, shape, offsets, h⟩
  else refuse fun _ => "data_offsets (" ++ toString offsets.1 ++ ", " ++ toString offsets.2 ++
    ") are reversed"

/-- The entry of a key, after those before it; the metadata is none. -/
def entry (key : String) (out : List (String × TensorEntry)) :
    Reader Char (List (String × TensorEntry)) :=
  if key = "__metadata__" then do
    skip
    return out
  else do
    let entry ← tensorEntry
    return out ++ [(key, entry)]

/-- The entries of a header in the order in which they are put into the map. -/
def entriesLoop : ℕ → List (String × TensorEntry) → Reader Char (List (String × TensorEntry))
  | 0, _ => throw .exhausted
  | fuel + 1, out => do
    ws
    let key ← string
    ws
    expect ':'
    ws
    let out ← entry key out
    ws
    if ← more '\x7d' fun got _ => "expected ',' or '\x7d' after header entry, got " ++ debugPeek got
    then entriesLoop fuel out else return out

def document : Reader Char (List (String × TensorEntry)) := do
  ws
  expect '\x7b'
  let out ← unlessClosed '\x7d' (pure []) do entriesLoop ((← remaining) + 1) []
  ws
  demand ((← remaining) = 0) fun pos => "trailing bytes after header JSON at " ++ toString pos
  return out

end Safetensors

/-- The tensors a header names, in its order. -/
def headerEntries (text : List UInt8) : Except Refusal (List (String × TensorEntry)) :=
  match Safetensors.document ⟨0, latin1 text⟩ with
  | .ok out _ => .ok out
  | .error e _ => .error e

/-- The header's map: `insert` keeps the last entry of a name. -/
def parseHeaderJson (text : List UInt8) :
    Except Refusal (Finmap fun _ : String => TensorEntry) :=
  (headerEntries text).map OrderedMap.ofList

/-! ### Files -/

/-- `Display` of an `Utf8Error`. -/
def utf8ErrorText (bytes : List UInt8) : Option ℕ → String
  | some len => "invalid utf-8 sequence of " ++ toString len ++ " bytes from index " ++
      toString (Utf8.validUpTo bytes)
  | none => "incomplete utf-8 byte sequence from index " ++ toString (Utf8.validUpTo bytes)

/-- The length of the header, before it. -/
def File.headerLen (f : File) : UInt64 := UInt64.ofNat (Bytes.ofLe (f.bytes.take 8))

def File.header (f : File) : List UInt8 := Bytes.slice f.bytes 8 f.headerLen.toNat

/-- Where a tensor's range ends in the file. -/
def endIn (dataStart : UInt64) (t : TensorEntry) : UInt64 := dataStart + t.dataOffsets.2

/-- Reads the header of the file `f` of the path `p`, and checks that every range fits. -/
def SafetensorsHeader.read (p : String) (f : File) : Except RepackError SafetensorsHeader := do
  demand (8 ≤ f.len) (.badSafetensors (p ++ ": file is " ++ toString f.len ++
    " B, shorter than the 8-byte header length"))
  demand (f.headerLen ≠ 0 ∧ f.headerLen ≤ f.len - 8) (.badSafetensors (p ++ ": header length " ++
    toString f.headerLen ++ " does not fit in " ++ toString f.len ++ " B"))
  match Utf8.fromUtf8 f.header with
  | .error e => .error (.badSafetensors (p ++ ": header is not UTF-8: " ++
      utf8ErrorText f.header e))
  | .ok _ =>
    match parseHeaderJson f.header with
    | .error e => .error (.badSafetensors (p ++ ": " ++ refusalText e))
    | .ok tensors =>
      let dataStart := 8 + f.headerLen
      (OrderedMap.inOrder tensors).forM fun x =>
        demand (endIn dataStart x.2 ≤ f.len)
          (.truncated (p ++ ":" ++ x.1) (endIn dataStart x.2).toNat f.len.toNat)
      return ⟨tensors, dataStart, f.len⟩

/-- Where `readTensor` seeks to. -/
def SafetensorsHeader.seekTo (h : SafetensorsHeader) (t : TensorEntry) : UInt64 :=
  h.dataStart + t.dataOffsets.1

/-- The bytes of a tensor; `none` where no buffer of their length can be asked for. A seek takes its
offset for an `off_t`, and a read into an empty buffer reads nothing. -/
def SafetensorsHeader.readTensor (h : SafetensorsHeader) (p : String) (f : File) (name : String) :
    Option (Except RepackError (List UInt8)) :=
  match h.tensors.lookup name with
  | none => some (.error (.missingTensor name))
  | some t =>
    if 2 ^ 63 ≤ (h.seekTo t).toNat then some (.error (.io p "Invalid argument (os error 22)"))
    else if 2 ^ 63 ≤ t.byteLen.toNat then none
    else if t.byteLen = 0 ∨ (h.seekTo t).toNat + t.byteLen.toNat ≤ f.bytes.length then
      some (.ok (Bytes.slice f.bytes (h.seekTo t).toNat t.byteLen.toNat))
    else some (.error (.io p "failed to fill whole buffer"))

/-! ### Fuel -/

namespace Safetensors

open JsonText

variable {s : Cursor Char} {α : Type}

theorem reads_number : Reads s number (Shorter 1 s) := by
  refine (reads_takeWhile _).bind fun digits s' h => ?_
  refine reads_demand.bind ?_
  rintro _ s'' ⟨hne, rfl⟩
  have hlen : s''.rest.length + 1 ≤ s.rest.length := by
    have hsplit := congrArg List.length (List.takeWhile_append_dropWhile (p := Char.isDigit)
      (l := s.rest))
    have hpos := List.length_pos_of_ne_nil hne
    rw [List.length_append, ← h.1, ← h.2] at hsplit
    omega
  cases Numerals.readUnsigned 10 (2 ^ 64) digits with
  | none => exact reads_refuse _
  | some n => exact Reader.reads_pure hlen

theorem reads_unlessClosed (close : Char) {empty items : Reader Char α} {k : ℕ}
    (hempty : ∀ s', Shorter 1 s () s' → Reads s' empty (Shorter k s'))
    (hitems : ∀ s', Shorter 0 s () s' → Reads s' items (Shorter k s')) :
    Reads s (unlessClosed close empty items) (Shorter k s) := by
  rw [← Nat.zero_add k]
  refine reads_bind reads_ws fun _ s' hs' => ?_
  refine reads_peek.bind ?_
  rintro got s'' ⟨rfl, rfl⟩
  refine .ite (fun hclose => ?_) fun _ => hitems s'' hs'
  refine (reads_bump_of_head hclose).bind fun _ s₃ hs₃ => ?_
  refine (hempty s₃ ((hs'.trans hs₃).weaken (Nat.le_refl 1))).mono fun _ _ h => ?_
  exact (hs₃.trans h).weaken (Nat.le_add_left k 1)

theorem reads_usizeLoop (fuel : ℕ) (out : List ℕ) (hfuel : s.rest.length < fuel) :
    Reads s (usizeLoop fuel out) (Shorter 0 s) := by
  induction fuel generalizing s out with
  | zero => exact absurd hfuel (Nat.not_lt_zero _)
  | succ fuel ih =>
    refine reads_bind (k := 0) (j := 0) reads_ws fun _ s₁ h₁ => ?_
    refine reads_number.bind fun n s₂ h₂ => ?_
    refine reads_ws.bind fun _ s₃ h₃ => ?_
    refine (reads_more ']' _).bind fun more s₄ h₄ => ?_
    have hshort : Shorter 2 s₁ () s₄ := ((h₂.trans h₃).trans h₄).weaken (Nat.le_refl 2)
    refine .ite (fun _ => ?_) fun _ => Reader.reads_pure (hshort.weaken (Nat.zero_le 2))
    have hlt : s₄.rest.length < fuel := by
      unfold Shorter at h₁ hshort
      omega
    exact (ih (out ++ [n]) hlt).mono fun _ _ h => (hshort.trans h).weaken (Nat.zero_le _)

theorem reads_usizeArray : Reads s usizeArray (Shorter 1 s) := by
  refine reads_bind (k := 1) (j := 0) (reads_expect '[') fun _ s' _ => ?_
  refine reads_unlessClosed ']' (fun _ _ => reads_done _) fun s'' _ => ?_
  refine reads_remaining.bind ?_
  rintro _ s₁ ⟨rfl, rfl⟩
  exact reads_usizeLoop _ [] (Nat.lt_succ_self _)

/-- A step of a loop over the bytes before `s'`, that the rest of the loop follows. -/
theorem reads_again {more : Bool} {m : Reader Char Unit} {s' : Cursor Char} {k : ℕ}
    (h : Shorter k s () s') (hm : Reads s' m (Shorter 0 s')) :
    Reads s' (if more then m else pure ()) (Shorter k s) := by
  refine .ite (fun _ => hm.mono fun _ _ h' => (h.trans h').weaken (Nat.le_refl k)) fun _ => ?_
  exact Reader.reads_pure h

theorem reads_bump : Reads s bump (Shorter 0 s) := by
  refine Reader.reads_bump.mono fun _ s' hs' => ?_
  show s'.rest.length ≤ s.rest.length
  rw [hs']
  exact (List.tail_sublist s.rest).length_le

theorem reads_skipNumber (c : Char) : Reads s (skipNumber c) (Shorter 0 s) := by
  have hsign : Reads s (skipSign c) (Shorter 0 s) :=
    .ite (fun _ => reads_bump) fun _ => reads_done ()
  refine reads_bind (k := 0) (j := 0) hsign fun _ s₁ _ => ?_
  refine reads_bind (k := 0) (j := 0) (reads_number.mono fun _ _ h => h.weaken (Nat.zero_le 1)) ?_
  intro _ s₂ _
  refine reads_peek.bind ?_
  rintro got s₃ ⟨-, rfl⟩
  refine .ite (fun _ => ?_) fun _ => reads_done _
  refine reads_bind (k := 0) (j := 0) reads_bump fun _ s₄ _ => ?_
  refine reads_bind (k := 0) (j := 0) (reads_number.mono fun _ _ h => h.weaken (Nat.zero_le 1)) ?_
  exact fun _ _ _ => reads_done _

/-- The value, the members and the elements of fuel `fuel`; elements begin with no byte of their
own, so a value costs twice its bytes. -/
theorem reads_skip_all (fuel : ℕ) (s : Cursor Char) :
    (2 * s.rest.length + 1 ≤ fuel → Reads s (skipValue fuel) (Shorter 0 s)) ∧
      (2 * s.rest.length + 1 ≤ fuel → Reads s (skipMembers fuel) (Shorter 0 s)) ∧
      (2 * s.rest.length + 2 ≤ fuel → Reads s (skipElements fuel) (Shorter 0 s)) := by
  induction fuel generalizing s with
  | zero => exact ⟨fun h => absurd h (by omega), fun h => absurd h (by omega),
      fun h => absurd h (by omega)⟩
  | succ fuel ih =>
    refine ⟨fun hfuel => ?_, fun hfuel => ?_, fun hfuel => ?_⟩
    · refine reads_bind (k := 0) (j := 0) reads_ws fun _ s₁ h₁ => ?_
      refine reads_peek.bind ?_
      rintro got s₂ ⟨hgot, rfl⟩
      cases got with
      | none => exact reads_refuse _
      | some c =>
        have hbump := reads_bump_of_head hgot.symm
        refine .ite (fun _ => ?_) fun _ => .ite (fun _ => ?_) fun _ => .ite (fun _ => ?_) fun _ =>
          .ite (fun _ => ?_) fun _ => .ite (fun _ => reads_skipNumber c) fun _ => reads_refuse _
        · exact (reads_string _).bind fun _ s₃ h₃ => Reader.reads_pure (h₃.weaken (Nat.zero_le 1))
        · refine hbump.bind fun _ s₃ h₃ => ?_
          refine (reads_unlessClosed _ (fun _ _ => reads_done _) fun s₄ h₄ => (ih s₄).2.1 ?_).mono
            fun _ _ h => (h₃.trans h).weaken (Nat.zero_le _)
          unfold Shorter at h₁ h₃ h₄
          omega
        · refine hbump.bind fun _ s₃ h₃ => ?_
          refine (reads_unlessClosed _ (fun _ _ => reads_done _) fun s₄ h₄ => (ih s₄).2.2 ?_).mono
            fun _ _ h => (h₃.trans h).weaken (Nat.zero_le _)
          unfold Shorter at h₁ h₃ h₄
          omega
        · refine (reads_takeWhile _).bind fun _ s₃ h₃ => Reader.reads_pure ?_
          show s₃.rest.length ≤ s₂.rest.length
          rw [h₃.2]
          exact (List.dropWhile_sublist _).length_le
    · refine reads_ws.bind fun _ s₁ h₁ => ?_
      refine (reads_string _).bind fun _ s₂ h₂ => ?_
      refine reads_ws.bind fun _ s₃ h₃ => ?_
      refine (reads_expect ':').bind fun _ s₄ h₄ => ?_
      have h₄' : Shorter 2 s () s₄ := (((h₁.trans h₂).trans h₃).trans h₄).weaken (Nat.le_refl 2)
      have hlen₄ : s₄.rest.length + 2 ≤ s.rest.length := h₄'
      refine ((ih s₄).1 (by omega)).bind fun _ s₅ h₅ => ?_
      refine reads_ws.bind fun _ s₆ h₆ => ?_
      refine (reads_more _ _).bind fun _ s₇ h₇ => ?_
      have hlen₇ : s₇.rest.length + 1 ≤ s₄.rest.length := (h₅.trans h₆).trans h₇
      refine reads_again (k := 0) (Nat.le_trans (Nat.le_add_right _ 1) ?_) ((ih s₇).2.1 ?_)
      · omega
      · omega
    · refine ((ih s).1 (by omega)).bind fun _ s₁ h₁ => ?_
      refine reads_ws.bind fun _ s₂ h₂ => ?_
      refine (reads_more _ _).bind fun _ s₃ h₃ => ?_
      have hlen : s₃.rest.length + 1 ≤ s.rest.length := (h₁.trans h₂).trans h₃
      refine reads_again (k := 0) ?_ ((ih s₃).2.2 ?_)
      · exact Nat.le_trans (Nat.le_add_right _ 1) hlen
      · omega

theorem reads_skip : Reads s skip (Shorter 0 s) := by
  refine reads_remaining.bind ?_
  rintro _ s₁ ⟨rfl, rfl⟩
  exact (reads_skip_all _ s₁).1 (Nat.le_refl _)

theorem reads_field (fields : Fields) : Reads s (field fields) (Shorter 1 s) := by
  refine reads_bind (k := 0) (j := 1) reads_ws fun _ s₁ _ => ?_
  refine reads_bind (k := 1) (j := 0) (reads_string _) fun key s₂ _ => ?_
  refine reads_bind (k := 0) (j := 0) reads_ws fun _ s₃ _ => ?_
  refine (reads_expect ':').bind fun _ s₄ h₄ => ?_
  refine reads_ws.bind fun _ s₅ h₅ => ?_
  have h : Shorter 0 s₃ () s₅ := (h₄.trans h₅).weaken (Nat.zero_le _)
  refine .ite (fun _ => ?_) fun _ => .ite (fun _ => ?_) fun _ => .ite (fun _ => ?_) fun _ => ?_
  · exact (reads_string _).bind fun _ s₆ h₆ =>
      Reader.reads_pure ((h.trans h₆).weaken (Nat.zero_le _))
  · exact reads_usizeArray.bind fun _ s₆ h₆ =>
      Reader.reads_pure ((h.trans h₆).weaken (Nat.zero_le _))
  · refine reads_usizeArray.bind fun v s₆ h₆ => ?_
    split
    · exact Reader.reads_pure ((h.trans h₆).weaken (Nat.zero_le _))
    · exact reads_refuse _
  · exact reads_skip.bind fun _ s₆ h₆ => Reader.reads_pure ((h.trans h₆).weaken (Nat.zero_le _))

theorem reads_fieldsLoop (fuel : ℕ) (fields : Fields) (hfuel : s.rest.length < fuel) :
    Reads s (fieldsLoop fuel fields) (Shorter 0 s) := by
  induction fuel generalizing s fields with
  | zero => exact absurd hfuel (Nat.not_lt_zero _)
  | succ fuel ih =>
    refine (reads_field fields).bind fun fields s₁ h₁ => ?_
    refine reads_ws.bind fun _ s₂ h₂ => ?_
    refine (reads_more _ _).bind fun _ s₃ h₃ => ?_
    have hlen : s₃.rest.length + 2 ≤ s.rest.length := (h₁.trans h₂).trans h₃
    refine .ite (fun _ => ?_) fun _ => Reader.reads_pure (Nat.le_trans (Nat.le_add_right _ 2) hlen)
    refine (ih fields (by omega)).mono fun _ s₄ h₄ => ?_
    exact Nat.le_trans h₄ (Nat.le_trans (Nat.le_add_right _ 2) hlen)

theorem reads_required (x : Option α) (name : String) :
    Reads s (required x name) (Shorter 0 s) := by
  cases x with
  | none =>
    show Reads s (refuse fun _ => "tensor entry missing " ++ name) (Shorter 0 s)
    exact reads_refuse _
  | some a => exact reads_done a

theorem reads_tensorEntry : Reads s tensorEntry (Shorter 1 s) := by
  refine reads_bind (k := 1) (j := 0) (reads_expect _) fun _ s₁ _ => ?_
  refine reads_bind (k := 0) (j := 0) ?_ fun fields s₂ _ => ?_
  · refine reads_unlessClosed _ (fun _ _ => reads_refuse _) fun s₂ _ => ?_
    refine reads_remaining.bind ?_
    rintro _ s₃ ⟨rfl, rfl⟩
    exact reads_fieldsLoop _ {} (Nat.lt_succ_self _)
  refine reads_bind (k := 0) (j := 0) (reads_required _ _) fun dtype s₃ _ => ?_
  refine reads_bind (k := 0) (j := 0) (reads_required _ _) fun shape s₄ _ => ?_
  refine reads_bind (k := 0) (j := 0) (reads_required _ _) fun offsets s₅ _ => ?_
  split
  · exact reads_done _
  · exact reads_refuse _

theorem reads_entry (key : String) (out : List (String × TensorEntry)) :
    Reads s (entry key out) (Shorter 0 s) := by
  refine .ite (fun _ => reads_bind reads_skip fun _ _ _ => reads_done out) fun _ => ?_
  exact reads_tensorEntry.bind fun entry s₆ h₆ => Reader.reads_pure (h₆.weaken (Nat.zero_le 1))

theorem reads_entriesLoop (fuel : ℕ) (out : List (String × TensorEntry))
    (hfuel : s.rest.length < fuel) : Reads s (entriesLoop fuel out) (Shorter 0 s) := by
  induction fuel generalizing s out with
  | zero => exact absurd hfuel (Nat.not_lt_zero _)
  | succ fuel ih =>
    refine reads_ws.bind fun _ s₁ h₁ => ?_
    refine (reads_string _).bind fun key s₂ h₂ => ?_
    refine reads_ws.bind fun _ s₃ h₃ => ?_
    refine (reads_expect ':').bind fun _ s₄ h₄ => ?_
    refine reads_ws.bind fun _ s₅ h₅ => ?_
    refine (reads_entry key out).bind fun out s₆ h₆ => ?_
    refine reads_ws.bind fun _ s₇ h₇ => ?_
    refine (reads_more _ _).bind fun _ s₈ h₈ => ?_
    have hlen : s₈.rest.length + 3 ≤ s.rest.length :=
      ((((((h₁.trans h₂).trans h₃).trans h₄).trans h₅).trans h₆).trans h₇).trans h₈
    refine .ite (fun _ => ?_) fun _ => Reader.reads_pure (Nat.le_trans (Nat.le_add_right _ 3) hlen)
    refine (ih out (by omega)).mono fun _ s₉ h₉ => ?_
    exact Nat.le_trans h₉ (Nat.le_trans (Nat.le_add_right _ 3) hlen)

theorem reads_document : Reads s document (Shorter 0 s) := by
  refine reads_bind (k := 0) (j := 0) reads_ws fun _ s₁ _ => ?_
  refine reads_bind (k := 0) (j := 0)
    ((reads_expect _).mono fun _ _ h => h.weaken (Nat.zero_le 1)) fun _ s₂ _ => ?_
  refine reads_bind (k := 0) (j := 0) ?_ fun out s₃ _ => ?_
  · refine reads_unlessClosed _ (fun _ _ => reads_done _) fun s₃ _ => ?_
    refine reads_remaining.bind ?_
    rintro _ s₄ ⟨rfl, rfl⟩
    exact reads_entriesLoop _ [] (Nat.lt_succ_self _)
  refine reads_bind (k := 0) (j := 0) reads_ws fun _ s₄ _ => ?_
  refine reads_remaining.bind ?_
  rintro _ s₅ ⟨rfl, rfl⟩
  refine reads_demand.bind ?_
  rintro _ s₆ ⟨-, rfl⟩
  exact reads_done out

end Safetensors

/-- **The fuel of the parser is enough** for every text. -/
theorem headerEntries_ne_exhausted (text : List UInt8) :
    headerEntries text ≠ .error .exhausted := by
  intro h
  rw [headerEntries] at h
  split at h
  · exact absurd h nofun
  · next e s' hres =>
    obtain rfl := Except.error.inj h
    exact Safetensors.reads_document.fuel s' hres

end Repack

end Mimo26

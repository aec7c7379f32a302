import Mimo26.Repack.ManifestJson
import Mathlib.Data.List.TakeWhile

/-!
# What the parser reads of a written text

Each piece of a written text is read back to something known: a string to its UTF-8 bytes, taken one
by one for characters, a number to itself if it is below `2 ^ 63`, and lists and fields to what
their parts are read to.

## Main definitions

* `reread` — what a written string is read back as
* `Spells` — a text is read as a value, or refused
* `Separated` — parts between commas and white space

## Main results

* `runs_string` — a written string is read back as its bytes
* `spells_array`, `spells_object` — lists and fields, part by part
-/

namespace Mimo26

namespace Repack

open Reader JsonText

/-! ### Bytes as characters -/

/-- A text as the parser sees it. -/
def seen (text : List Char) : List Char := latin1 (Utf8.encode text)

/-- What a written string is read back as. -/
def reread (s : String) : String := String.ofList (seen s.toList)

@[simp] theorem seen_nil : seen [] = [] := rfl

theorem seen_append (a b : List Char) : seen (a ++ b) = seen a ++ seen b := by
  rw [seen, Utf8.encode_append, latin1, List.map_append]
  rfl

theorem seen_cons (c : Char) (text : List Char) : seen (c :: text) = seen [c] ++ seen text :=
  seen_append [c] text

theorem encode_ascii {text : List Char} (h : ∀ c ∈ text, c.toNat < 128) :
    Utf8.encode text = text.map fun c => c.toNat.toUInt8 := by
  induction text with
  | nil => rfl
  | cons c text ih =>
    have hle : c.val.toNat ≤ 127 := Nat.le_of_lt_succ (h c List.mem_cons_self)
    rw [Utf8.encode_cons, String.utf8EncodeChar, if_pos hle, List.map_cons,
      ih fun d hd => h d (List.mem_cons_of_mem c hd)]
    rfl

/-- ASCII is seen as it is. -/
theorem seen_of_ascii {text : List Char} (h : ∀ c ∈ text, c.toNat < 128) : seen text = text := by
  rw [seen, encode_ascii h, latin1, List.map_map]
  conv_rhs => rw [← List.map_id text]
  refine List.map_congr_left fun c hc => ?_
  show Char.ofNat (UInt8.ofNat c.toNat).toNat = c
  have hlt := h c hc
  rw [UInt8.toNat_ofNat_of_lt' (by simp only [UInt8.size]; omega), Char.ofNat_toNat]

theorem toNat_ofNat_byte (b : UInt8) : (Char.ofNat b.toNat).toNat = b.toNat := by
  have hvalid : b.toNat.isValidChar := .inl (Nat.lt_trans b.toNat_lt (by decide))
  rw [Char.ofNat, dif_pos hvalid]
  rfl

/-- The bytes of another character are no ASCII. -/
theorem le_of_mem_seen {c d : Char} (h : 128 ≤ c.toNat) (hd : d ∈ seen [c]) : 128 ≤ d.toNat := by
  have hgt : ¬c.val.toNat ≤ 127 := Nat.not_le.mpr h
  rw [seen, Utf8.encode_cons, Utf8.encode_nil, List.append_nil, latin1, List.mem_map] at hd
  obtain ⟨b, hb, rfl⟩ := hd
  have hbyte : 128 ≤ b.toNat := by
    rw [String.utf8EncodeChar, if_neg hgt] at hb
    split_ifs at hb <;>
    · simp only [List.mem_cons, List.not_mem_nil, or_false] at hb
      rcases hb with rfl | rfl | rfl | rfl <;> simp <;> omega
  rwa [toNat_ofNat_byte]

/-- The parser tells any two texts apart. -/
theorem seen_injective : Function.Injective seen := by
  intro a b h
  have hbytes : Utf8.encode a = Utf8.encode b := by
    refine List.map_injective_iff.mpr (fun x y hxy => ?_) h
    have hnat := congrArg Char.toNat hxy
    rw [toNat_ofNat_byte, toNat_ofNat_byte] at hnat
    exact UInt8.toNat_inj.mp hnat
  have htext := congrArg Utf8.fromUtf8 hbytes
  rw [Utf8.fromUtf8_encode, Utf8.fromUtf8_encode] at htext
  exact Except.ok.inj htext

theorem reread_injective : Function.Injective reread := by
  intro s t h
  have hseen : seen s.toList = seen t.toList := by
    simpa only [reread, String.toList_ofList] using congrArg String.toList h
  exact String.toList_injective (seen_injective hseen)

theorem length_seen_char (c : Char) : (seen [c]).length = c.utf8Size := by
  rw [seen, latin1, List.length_map, Utf8.encode_cons, Utf8.encode_nil, List.append_nil,
    String.length_utf8EncodeChar]

theorem length_seen (text : List Char) : text.length ≤ (seen text).length := by
  induction text with
  | nil => exact Nat.le_refl _
  | cons c text ih =>
    have hpos := c.utf8Size_pos
    rw [seen_cons, List.length_append, List.length_cons, length_seen_char]
    omega

/-- Only of ASCII are there as many bytes as characters. -/
theorem ascii_of_length {text : List Char} (h : (seen text).length = text.length) :
    ∀ c ∈ text, c.toNat < 128 := by
  induction text with
  | nil => exact nofun
  | cons c text ih =>
    have hrest := length_seen text
    have hpos := c.utf8Size_pos
    rw [seen_cons, List.length_append, List.length_cons, length_seen_char] at h
    have hsize : c.utf8Size = 1 := by omega
    have hc : c.toNat < 128 := Nat.lt_succ_of_le (Char.utf8Size_eq_one_iff.mp hsize)
    exact List.forall_mem_cons.mpr ⟨hc, ih (by omega)⟩

/-- What is seen as ASCII is ASCII. -/
theorem ascii_of_seen {text : List Char} (h : ∀ d ∈ seen text, d.toNat < 128) :
    ∀ c ∈ text, c.toNat < 128 := by
  induction text with
  | nil => exact nofun
  | cons c text ih =>
    rw [seen_cons, List.forall_mem_append] at h
    refine List.forall_mem_cons.mpr ⟨?_, ih h.2⟩
    by_contra hc
    have hne : seen [c] ≠ [] := by
      intro hnil
      have hpos := c.utf8Size_pos
      rw [← length_seen_char, hnil, List.length_nil] at hpos
      exact absurd hpos (Nat.lt_irrefl 0)
    obtain ⟨d, hd⟩ := List.exists_mem_of_ne_nil _ hne
    exact absurd (h.1 d hd) (Nat.not_lt.mpr (le_of_mem_seen (Nat.not_lt.mp hc) hd))

/-- **Only ASCII is read back as it was**: another character becomes several. -/
theorem reread_eq_self {s : String} : reread s = s ↔ ∀ c ∈ s.toList, c.toNat < 128 := by
  constructor
  · intro h
    have hseen : seen s.toList = s.toList := by
      simpa only [reread, String.toList_ofList] using congrArg String.toList h
    exact ascii_of_length (congrArg List.length hseen)
  · intro h
    rw [reread, seen_of_ascii h, String.ofList_toList]

/-! ### Strings -/

section

variable {i rest out : List Char} {x : List Char} {fuel : ℕ}

/-- The control bytes that a string of the manifest may not have. -/
abbrev control (c : Char) : Bool := c.toNat < 0x20

/-- Bytes that stand for themselves are taken one by one. -/
theorem runs_plain {ds : List Char} (hds : ∀ d ∈ ds, d ≠ '"' ∧ d ≠ '\\' ∧ 0x20 ≤ d.toNat)
    (h : Runs (stringLoop control fuel (out ++ ds)) i x rest) :
    Runs (stringLoop control (fuel + ds.length) out) (ds ++ i) x rest := by
  induction ds generalizing out with
  | nil => simpa using h
  | cons d ds ih =>
    obtain ⟨hquote, hslash, hge⟩ := hds d List.mem_cons_self
    have hcontrol : control d = false := by simpa [control] using hge
    refine (runs_peek _).bind ?_
    refine (runs_bump d (ds ++ i)).bind ?_
    rw [if_neg hquote, if_neg hslash]
    refine (runs_demand hcontrol _).bind ?_
    refine ih (fun e he => hds e (List.mem_cons_of_mem d he)) ?_
    rwa [List.append_assoc, List.singleton_append]

/-- An escape is taken for its character. -/
theorem runs_escaped {e : List Char} {c : Char} (he : Runs escape (e ++ i) c i)
    (h : Runs (stringLoop control fuel (out ++ [c])) i x rest) :
    Runs (stringLoop control (fuel + 1) out) ('\\' :: (e ++ i)) x rest := by
  refine (runs_peek _).bind ?_
  refine (runs_bump '\\' (e ++ i)).bind ?_
  rw [if_neg (by decide), if_pos rfl]
  exact he.bind h

/-- An escape of one letter. -/
theorem runs_escape_letter {e c : Char} (h : (e, c) ∈
    [('"', '"'), ('\\', '\\'), ('n', '\n'), ('r', '\r'), ('t', '\t')]) (i : List Char) :
    Runs escape ([e] ++ i) c i := by
  simp only [List.mem_cons, Prod.mk.injEq, List.not_mem_nil, or_false] at h
  rcases h with ⟨rfl, rfl⟩ | ⟨rfl, rfl⟩ | ⟨rfl, rfl⟩ | ⟨rfl, rfl⟩ | ⟨rfl, rfl⟩ <;>
    exact (runs_peek _).bind ((runs_bump _ i).bind (runs_pure _ i))

/-- The four digits of a control character. -/
def controlDigits (c : Char) : List Char := (Nat.toDigits 16 c.toNat).leftpad 4 '0'

theorem controlDigits_eq (c : Char) : controlDigits c =
    List.replicate (4 - (Nat.toDigits 16 c.toNat).length) '0' ++ Nat.toDigits 16 c.toNat := rfl

theorem length_controlDigits {c : Char} (hc : c.toNat < 0x20) : (controlDigits c).length = 4 := by
  have hlen : ∀ n < 0x20, ((Nat.toDigits 16 n).leftpad 4 '0').length = 4 := by decide
  exact hlen _ hc

theorem ascii_controlDigits {c : Char} (hc : c.toNat < 0x20) :
    ∀ d ∈ controlDigits c, d.toNat < 128 := by
  have hall : ∀ n < 0x20, ∀ d ∈ (Nat.toDigits 16 n).leftpad 4 '0', d.toNat < 128 := by decide
  exact hall _ hc

theorem fromU32_toNat (c : Char) : fromU32 c.toNat = some c := by
  rw [fromU32, dif_pos (show c.toNat.isValidChar from c.valid)]
  exact congrArg some (Char.ext rfl)

theorem runs_unicodeEscape {c : Char} (hc : c.toNat < 0x20) (i : List Char) :
    Runs unicodeEscape (controlDigits c ++ i) c i := by
  have hlen := length_controlDigits hc
  have hutf8 : Utf8.fromUtf8 ((controlDigits c).map fun d => d.toNat.toUInt8) =
      .ok (controlDigits c) := by
    rw [← encode_ascii (ascii_controlDigits hc), Utf8.fromUtf8_encode]
  have hread : Numerals.readUnsigned 16 (2 ^ 32) (controlDigits c) = some c.toNat := by
    rw [controlDigits_eq]
    exact Numerals.readUnsigned_toDigits (by decide) (by decide) (by omega) _
  refine (runs_next (n := 4) (by rw [List.length_append]; omega)).bind ?_
  rw [List.take_left' hlen]
  dsimp only
  rw [hutf8]
  dsimp only
  rw [hread]
  refine (runs_advance 4 _).bind ?_
  rw [List.drop_left' hlen, fromU32_toNat]
  exact runs_pure c i

/-- A `\u` escape. -/
theorem runs_escape_unicode {c : Char} (hc : c.toNat < 0x20) (i : List Char) :
    Runs escape (('u' :: controlDigits c) ++ i) c i :=
  (runs_peek _).bind ((runs_bump 'u' _).bind (runs_unicodeEscape hc i))

/-- How a character is written. -/
theorem escapeChar_cases (c : Char) :
    (∃ e, (e, c) ∈ [('"', '"'), ('\\', '\\'), ('n', '\n'), ('r', '\r'), ('t', '\t')] ∧
      (escapeChar c).toList = ['\\', e]) ∨
    (c.toNat < 0x20 ∧ (escapeChar c).toList = '\\' :: 'u' :: controlDigits c) ∨
    ((c ≠ '"' ∧ c ≠ '\\' ∧ 0x20 ≤ c.toNat) ∧ (escapeChar c).toList = [c]) := by
  rw [escapeChar]
  split_ifs with hquote hslash hn hr ht hlt
  · exact .inl ⟨'"', by simp [hquote], rfl⟩
  · exact .inl ⟨'\\', by simp [hslash], rfl⟩
  · exact .inl ⟨'n', by simp [hn], rfl⟩
  · exact .inl ⟨'r', by simp [hr], rfl⟩
  · exact .inl ⟨'t', by simp [ht], rfl⟩
  · refine .inr (.inl ⟨hlt, ?_⟩)
    rw [String.toList_append]
    exact congrArg (['\\', 'u'] ++ ·) String.toList_ofList
  · exact .inr (.inr ⟨⟨hquote, hslash, Nat.not_lt.mp hlt⟩, String.toList_singleton c⟩)

/-- What stands between the quotes of a written string. -/
def body (text : List Char) : List Char := text.flatMap fun c => (escapeChar c).toList

theorem runs_stringLoop (text : List Char) (hfuel : (seen (body text)).length < fuel) :
    Runs (stringLoop control fuel out) (seen (body text) ++ '"' :: rest) (out ++ seen text)
      rest := by
  induction text generalizing out fuel with
  | nil =>
    obtain ⟨f, rfl⟩ := Nat.exists_eq_add_of_lt hfuel
    refine (runs_peek _).bind ((runs_bump '"' rest).bind ?_)
    rw [if_pos rfl]
    simpa using runs_pure out rest
  | cons c text ih =>
    have hbody : seen (body (c :: text)) = seen (escapeChar c).toList ++ seen (body text) := by
      rw [body, List.flatMap_cons, seen_append]
      rfl
    rw [hbody, List.length_append] at hfuel
    rw [hbody, List.append_assoc, seen_cons, ← List.append_assoc out]
    rcases escapeChar_cases c with ⟨e, he, hesc⟩ | ⟨hc, hesc⟩ | ⟨hplain, hesc⟩
    · have hascii : c.toNat < 128 ∧ e.toNat < 128 := by
        simp only [List.mem_cons, Prod.mk.injEq, List.not_mem_nil, or_false] at he
        rcases he with ⟨rfl, rfl⟩ | ⟨rfl, rfl⟩ | ⟨rfl, rfl⟩ | ⟨rfl, rfl⟩ | ⟨rfl, rfl⟩ <;> decide
      have hseen : seen ['\\', e] = ['\\', e] :=
        seen_of_ascii (by simpa using hascii.2)
      rw [hesc, hseen] at hfuel ⊢
      rw [@seen_of_ascii [c] (by simpa using hascii.1)]
      obtain ⟨f, rfl⟩ := Nat.exists_eq_add_of_lt hfuel
      refine runs_escaped (e := [e]) (runs_escape_letter he _) (ih ?_)
      simp only [List.length_cons]
      omega
    · have hseen : seen ('\\' :: 'u' :: controlDigits c) = '\\' :: 'u' :: controlDigits c := by
        have hdigits := ascii_controlDigits hc
        refine seen_of_ascii fun d hd => ?_
        simp only [List.mem_cons] at hd
        rcases hd with rfl | rfl | hd
        · decide
        · decide
        · exact hdigits d hd
      rw [hesc, hseen] at hfuel ⊢
      rw [@seen_of_ascii [c] (by simp; omega)]
      obtain ⟨f, rfl⟩ := Nat.exists_eq_add_of_lt hfuel
      refine runs_escaped (e := 'u' :: controlDigits c) (runs_escape_unicode hc _) (ih ?_)
      simp only [List.length_cons]
      omega
    · rw [hesc] at hfuel ⊢
      obtain ⟨f, rfl⟩ := Nat.exists_eq_add_of_lt hfuel
      have hsplit : (seen [c]).length + (seen (body text)).length + f + 1 =
          ((seen (body text)).length + f + 1) + (seen [c]).length := by omega
      rw [hsplit]
      refine runs_plain (fun d hd => ?_) (ih (by omega))
      by_cases hc : c.toNat < 128
      · rw [@seen_of_ascii [c] (by simpa using hc)] at hd
        exact List.mem_singleton.mp hd ▸ hplain
      · have hle := le_of_mem_seen (Nat.not_lt.mp hc) hd
        refine ⟨?_, ?_, Nat.le_trans (by decide) hle⟩
        · rintro rfl
          exact absurd hle (by decide)
        · rintro rfl
          exact absurd hle (by decide)

/-- A string as it is written. -/
def quoted (s : String) : List Char := '"' :: (seen (body s.toList) ++ ['"'])

theorem seen_jsonStr (s : String) : seen (jsonStr s).toList = quoted s := by
  have hquote : seen ['"'] = ['"'] := seen_of_ascii (by decide)
  have hjoin : (jsonStr s).toList = ['"'] ++ body s.toList ++ ['"'] := by
    rw [jsonStr, String.toList_append, String.toList_append, String.toList_join, List.flatMap_map]
    rfl
  rw [hjoin, seen_append, seen_append, hquote]
  rfl

/-- **A written string is read back as its bytes.** -/
theorem runs_string (s : String) (rest : List Char) :
    Runs JsonReader.string (quoted s ++ rest) (reread s) rest := by
  have hquoted : quoted s ++ rest = '"' :: (seen (body s.toList) ++ '"' :: rest) := by
    rw [quoted, List.cons_append, List.append_assoc, List.singleton_append]
  rw [hquoted]
  refine ((runs_peek _).bind ((runs_demand rfl _).bind (runs_bump '"' _))).bind ?_
  refine (runs_remaining _).bind ?_
  refine (@runs_stringLoop rest [] _ s.toList ?_).bind (runs_pure _ rest)
  rw [List.length_append]
  omega

end

/-! ### Values -/

def IsBlank (c : Char) : Prop := c = ' ' ∨ c = '\t' ∨ c = '\n' ∨ c = '\r'

instance (c : Char) : Decidable (IsBlank c) := inferInstanceAs (Decidable (_ ∨ _))

/-- White space. -/
def Blank (w : List Char) : Prop := ∀ c ∈ w, IsBlank c

instance (w : List Char) : Decidable (Blank w) := inferInstanceAs (Decidable (∀ c ∈ w, _))

/-- What may follow a number. -/
def Stops (rest : List Char) : Prop :=
  ∀ c, rest.head? = some c → c.isDigit = false ∧ c ≠ '.' ∧ c ≠ 'e' ∧ c ≠ 'E'

/-- Neither white space nor the end of a list begins the text. -/
structure Starts (c : Char) : Prop where
  notBlank : ¬IsBlank c
  notBracket : c ≠ ']'
  notBrace : c ≠ '\x7d'

/-- The text is read as the value, or refused if there is none. -/
structure Spells (t : List Char) (x : Option Json) : Prop where
  starts : ∃ c cs, t = c :: cs ∧ Starts c
  gives : ∀ fuel rest, 2 * t.length ≤ fuel → Stops rest →
    Gives (JsonReader.value fuel) (t ++ rest) x rest

section

variable {w w' t inner rest : List Char} {c : Char} {fuel : ℕ} {x : Option Json}

theorem runs_ws (hw : Blank w) (hc : ¬IsBlank c) : Runs ws (w ++ c :: rest) () (c :: rest) := by
  have hdrop : (w ++ c :: rest).dropWhile
      (fun c => decide (c = ' ' ∨ c = '\t' ∨ c = '\n' ∨ c = '\r')) = c :: rest := by
    rw [List.dropWhile_append_of_pos fun d hd => by simpa [IsBlank] using hw d hd,
      List.dropWhile_cons_of_neg (by simpa [IsBlank] using hc)]
  refine (runs_takeWhile _ _).bind ?_
  rw [hdrop]
  exact runs_pure () _

theorem runs_more (close : Char) {text : Option Char → ℕ → String} (hc : c = ',' ∨ c = close) :
    Runs (more close text) (c :: rest) (c = ',') rest :=
  (runs_peek _).bind ((runs_demand hc _).bind ((runs_bump c rest).bind (runs_pure _ rest)))

theorem runs_expect (c : Char) (rest : List Char) : Runs (expect c) (c :: rest) () rest :=
  (runs_peek _).bind ((runs_demand rfl _).bind (runs_bump c rest))

/-- White space and a separator may follow a number. -/
theorem stops_of_blank (hw : Blank w) (hc : c = ',' ∨ c = ']' ∨ c = '\x7d') :
    Stops (w ++ c :: rest) := by
  have hblank : ∀ d, IsBlank d ∨ d = ',' ∨ d = ']' ∨ d = '\x7d' →
      d.isDigit = false ∧ d ≠ '.' ∧ d ≠ 'e' ∧ d ≠ 'E' := by
    rintro d ((rfl | rfl | rfl | rfl) | rfl | rfl | rfl) <;> decide
  intro d hd
  cases w with
  | nil =>
    obtain rfl := Option.some.inj hd
    exact hblank c (.inr hc)
  | cons b w =>
    obtain rfl := Option.some.inj hd
    exact hblank b (.inl (hw b List.mem_cons_self))

theorem fuel_pos (ht : t = c :: w) (hfuel : 2 * t.length ≤ fuel) : ∃ f, fuel = f + 1 := by
  refine Nat.exists_eq_succ_of_ne_zero fun hzero => ?_
  rw [ht, hzero, List.length_cons] at hfuel
  omega

theorem spells_str (s : String) : Spells (quoted s) (some (.str (reread s))) := by
  refine ⟨⟨'"', _, rfl, by decide, by decide, by decide⟩, fun fuel rest hfuel _ => Runs.gives ?_⟩
  obtain ⟨f, rfl⟩ := fuel_pos rfl hfuel
  refine (runs_peek _).bind ?_
  exact (runs_string s rest).bind (runs_pure _ rest)

/-- What a number is read back as. -/
def rereadNat (n : ℕ) : Option Json := if n < 2 ^ 63 then some (.u64 n) else none

theorem digit_of_mem {n : ℕ} (hc : c ∈ Nat.toDigits 10 n) : c.isDigit = true :=
  Nat.isDigit_of_mem_toDigits (by decide) (by decide) hc

theorem takeWhile_digits (n : ℕ) (hrest : Stops rest) :
    (Nat.toDigits 10 n ++ rest).takeWhile Char.isDigit = Nat.toDigits 10 n ∧
      (Nat.toDigits 10 n ++ rest).dropWhile Char.isDigit = rest := by
  rw [List.takeWhile_append_of_pos fun c hc => digit_of_mem hc,
    List.dropWhile_append_of_pos fun c hc => digit_of_mem hc]
  cases rest with
  | nil => exact ⟨List.append_nil _, rfl⟩
  | cons c rest =>
    have hstop : ¬c.isDigit = true := by simp [(hrest c rfl).1]
    rw [List.takeWhile_cons_of_neg hstop, List.dropWhile_cons_of_neg hstop, List.append_nil]
    exact ⟨rfl, rfl⟩

theorem runs_sign (n : ℕ) (rest : List Char) : Runs JsonReader.sign (Nat.toDigits 10 n ++ rest)
    false (Nat.toDigits 10 n ++ rest) := by
  obtain ⟨c, cs, hcs⟩ := List.exists_cons_of_ne_nil (Nat.toDigits_ne_nil (n := n) (b := 10))
  have hdigit : c.isDigit = true := digit_of_mem (n := n) (by rw [hcs]; exact List.mem_cons_self)
  refine (runs_peek _).bind ?_
  rw [if_neg]
  · exact runs_pure _ _
  · rw [hcs]
    intro h
    obtain rfl := Option.some.inj h
    exact absurd hdigit (by decide)

theorem gives_number (n : ℕ) (hrest : Stops rest) :
    Gives JsonReader.number (Nat.toDigits 10 n ++ rest) (rereadNat n) rest := by
  obtain ⟨htake, hdrop⟩ := takeWhile_digits n hrest
  refine (runs_sign n rest).next ((runs_takeWhile _ _).next ?_)
  rw [htake, hdrop]
  refine (runs_peek _).next ((runs_demand ?_ _).next ?_)
  · refine ⟨fun h => (hrest _ h).2.1 rfl, fun h => (hrest _ h).2.2.1 rfl, fun h => ?_⟩
    exact (hrest _ h).2.2.2 rfl
  rw [rereadNat, JsonReader.parseI64, Numerals.numeral_toDigits (by decide) (by decide)]
  dsimp only
  rw [if_neg Nat.toDigits_ne_nil, if_neg (by decide)]
  by_cases hn : n < 2 ^ 63
  · rw [if_pos hn, if_pos hn]
    dsimp only
    exact ((runs_demand (Int.natCast_nonneg n) _).bind (runs_pure (Json.u64 n) rest)).gives
  · rw [if_neg hn, if_neg hn]
    exact ⟨fun _ h => (by cases h), fun _ => fails_refuse _ rest⟩

theorem spells_nat (n : ℕ) : Spells (Nat.toDigits 10 n) (rereadNat n) := by
  obtain ⟨c, cs, hcs⟩ := List.exists_cons_of_ne_nil (Nat.toDigits_ne_nil (n := n) (b := 10))
  have hdigit : c.isDigit = true := digit_of_mem (n := n) (by rw [hcs]; exact List.mem_cons_self)
  have hne : ∀ d : Char, d.isDigit = false → c ≠ d := by
    rintro d hd rfl
    rw [hd] at hdigit
    exact absurd hdigit Bool.false_ne_true
  constructor
  · refine ⟨c, cs, hcs, ⟨?_, hne _ (by decide), hne _ (by decide)⟩⟩
    rintro (h | h | h | h) <;> exact hne _ (by decide) h
  · intro fuel rest hfuel hrest
    obtain ⟨f, rfl⟩ := fuel_pos hcs hfuel
    have hnumber := gives_number n hrest
    rw [hcs] at hnumber ⊢
    refine (runs_peek _).next ?_
    show Gives (if c = '\x7b' then _ else _) _ _ _
    rw [if_neg (hne _ (by decide)), if_neg (hne _ (by decide)), if_neg (hne _ (by decide)),
      if_neg (hne _ (by decide)), if_neg (hne _ (by decide)), if_neg (hne _ (by decide)),
      if_pos (.inl hdigit)]
    exact hnumber

/-! ### Lists and fields -/

/-- Parts between commas, with white space around each. -/
inductive Separated : List (List Char) → List Char → Prop
  | last {w t w' : List Char} (hw : Blank w) (hw' : Blank w') : Separated [t] (w ++ (t ++ w'))
  | cons {w t w' : List Char} {ts : List (List Char)} {r : List Char} (hw : Blank w)
      (hw' : Blank w') (h : Separated ts r) : Separated (t :: ts) (w ++ (t ++ (w' ++ ',' :: r)))

variable {ι : Type} {items : List ι} {text : ι → List Char} {value : ι → Option Json}

theorem Spells.runs_ws (h : Spells t x) (hw : Blank w) : Runs ws (w ++ (t ++ rest)) () (t ++ rest) := by
  obtain ⟨c, cs, rfl, hstart⟩ := h.starts
  exact Repack.runs_ws hw hstart.notBlank

/-- The end of a list, or a comma, is no white space. -/
theorem not_isBlank (hc : c = ',' ∨ c = ']' ∨ c = '\x7d') : ¬IsBlank c := by
  rcases hc with rfl | rfl | rfl <;> decide

/-- What follows an item: another, or the end of the list. -/
theorem gives_more {α : Type} {close : Char} {msg : Option Char → ℕ → String} {again : Reader Char α}
    {a : α} {y : Option α} (hw : Blank w) (hc : c = ',' ∨ c = ']' ∨ c = '\x7d')
    (hclose : c = ',' ∨ c = close) (hnext : c = ',' → Gives again inner y rest)
    (hlast : c ≠ ',' → y = some a ∧ inner = rest) :
    Gives (ws >>= fun _ => more close msg >>= fun b => if b then again else pure a)
      (w ++ c :: inner) y rest := by
  refine (Repack.runs_ws hw (not_isBlank hc)).next ((runs_more close hclose).next ?_)
  by_cases hcomma : c = ','
  · rw [if_pos (decide_eq_true hcomma)]
    exact hnext hcomma
  · obtain ⟨rfl, rfl⟩ := hlast hcomma
    rw [if_neg (by simpa using hcomma)]
    exact (runs_pure a inner).gives

/-- The items of an array are read one by one. -/
theorem gives_elements {out : List Json} (hsep : Separated (items.map text) inner)
    (hspells : ∀ a ∈ items, Spells (text a) (value a)) (hfuel : 2 * inner.length + 1 ≤ fuel) :
    Gives (JsonReader.elements fuel out) (inner ++ ']' :: rest)
      ((items.mapM value).map fun vs => .array (out ++ vs)) rest := by
  induction items generalizing inner fuel out with
  | nil => exact absurd hsep nofun
  | cons a items ih =>
    obtain ⟨f, rfl⟩ : ∃ f, fuel = f + 1 := Nat.exists_eq_succ_of_ne_zero (by omega)
    have hhead := hspells a List.mem_cons_self
    have hresult : ((a :: items).mapM value).map (fun vs => Json.array (out ++ vs)) =
        (value a).bind fun v => (items.mapM value).map fun vs => .array ((out ++ [v]) ++ vs) := by
      rw [List.mapM_cons]
      cases value a with
      | none => rfl
      | some v => cases items.mapM value <;> simp
    rw [hresult]
    generalize htexts : (a :: items).map text = ts at hsep
    cases hsep with
    | @last w t w' hw hw' =>
      obtain ⟨rfl, hnil⟩ := List.cons.inj htexts
      obtain rfl := List.map_eq_nil_iff.mp hnil
      simp only [List.append_assoc] at *
      simp only [List.length_append] at hfuel
      refine (hhead.runs_ws hw).next ((hhead.gives f _ (by omega)
        (stops_of_blank hw' (.inr (.inl rfl)))).bind fun v _ => ?_)
      refine gives_more hw' (.inr (.inl rfl)) (.inr rfl) (fun h => absurd h (by decide)) fun _ => ?_
      exact ⟨by simp, rfl⟩
    | @cons w t w' ts r hw hw' hrest =>
      obtain ⟨rfl, rfl⟩ := List.cons.inj htexts
      simp only [List.append_assoc, List.cons_append] at *
      simp only [List.length_append, List.length_cons] at hfuel
      refine (hhead.runs_ws hw).next ((hhead.gives f _ (by omega)
        (stops_of_blank hw' (.inl rfl))).bind fun v _ => ?_)
      refine gives_more hw' (.inl rfl) (.inl rfl) (fun _ => ?_) fun h => absurd rfl h
      have hlen : 2 * r.length + 1 ≤ f := by omega
      have hnext := @ih _ _ (out ++ [v]) hrest
        (fun b hb => hspells b (List.mem_cons_of_mem a hb)) hlen
      simpa only [List.append_assoc, List.cons_append, List.nil_append] using hnext

/-- A field as it is written. -/
def pair (key : String) (t : List Char) : List Char := quoted key ++ (':' :: ' ' :: t)

/-- A field, and what follows it. -/
theorem gives_member {k : String} {map : List (String × Json)} {y : Json → Option Json}
    (hx : Spells t x) (hw : Blank w) (hw' : Blank w') (hfuel : 2 * t.length ≤ fuel)
    (hnew : reread k ∉ map.map Prod.fst) (hc : c = ',' ∨ c = '\x7d')
    (hnext : ∀ v, c = ',' →
      Gives (JsonReader.members fuel (insertField map (reread k, v))) inner (y v) rest)
    (hlast : ∀ v, c ≠ ',' → y v = some (.object (insertField map (reread k, v))) ∧ inner = rest) :
    Gives (JsonReader.members (fuel + 1) map) (w ++ (pair k t ++ (w' ++ c :: inner))) (x.bind y)
      rest := by
  have hsep : c = ',' ∨ c = ']' ∨ c = '\x7d' := hc.imp_right .inr
  rw [pair, List.append_assoc]
  refine (Repack.runs_ws hw (c := '"') (by decide)).next ?_
  refine (runs_string k _).next ?_
  refine (Repack.runs_ws (w := []) (c := ':') nofun (by decide)).next ?_
  refine (runs_expect ':' _).next ?_
  refine (hx.runs_ws (w := [' ']) (by decide)).next ?_
  refine (hx.gives fuel _ hfuel (stops_of_blank hw' hsep)).bind fun v _ => ?_
  refine (runs_demand hnew _).next ?_
  exact gives_more hw' hsep hc (hnext v) (hlast v)

variable {key : ι → String}

/-- The fields of an object are read one by one, if no key is repeated. -/
theorem gives_members {map : List (String × Json)}
    (hsep : Separated (items.map fun a => pair (key a) (text a)) inner)
    (hspells : ∀ a ∈ items, Spells (text a) (value a))
    (hkeys : (map.map Prod.fst ++ items.map fun a => reread (key a)).Nodup)
    (hfuel : 2 * inner.length + 1 ≤ fuel) :
    Gives (JsonReader.members fuel map) (inner ++ '\x7d' :: rest)
      ((items.mapM fun a => (value a).map fun v => (reread (key a), v)).map fun fs =>
        .object (fs.foldl insertField map)) rest := by
  induction items generalizing inner fuel map with
  | nil => exact absurd hsep nofun
  | cons a items ih =>
    obtain ⟨f, rfl⟩ : ∃ f, fuel = f + 1 := Nat.exists_eq_succ_of_ne_zero (by omega)
    have hhead := hspells a List.mem_cons_self
    have hresult : ((a :: items).mapM fun a => (value a).map fun v => (reread (key a), v)).map
        (fun fs => Json.object (fs.foldl insertField map)) =
        (value a).bind fun v => (items.mapM fun a => (value a).map fun v => (reread (key a), v)).map
          fun fs => .object (fs.foldl insertField (insertField map (reread (key a), v))) := by
      rw [List.mapM_cons]
      cases value a with
      | none => rfl
      | some v => cases items.mapM fun a => (value a).map fun v => (reread (key a), v) <;> rfl
    have hnew : reread (key a) ∉ map.map Prod.fst := notMem_of_nodup hkeys
    have hkeys' (v : Json) := nodup_insertField (x := (reread (key a), v)) hkeys
    rw [hresult]
    generalize htexts : (a :: items).map (fun a => pair (key a) (text a)) = ts at hsep
    cases hsep with
    | @last w t w' hw hw' =>
      obtain ⟨rfl, hnil⟩ := List.cons.inj htexts
      obtain rfl := List.map_eq_nil_iff.mp hnil
      simp only [List.append_assoc]
      simp only [pair, List.length_append, List.length_cons] at hfuel
      exact gives_member hhead hw hw' (by omega) hnew (.inr rfl) (fun v h => absurd h (by decide))
        fun v _ => ⟨rfl, rfl⟩
    | @cons w t w' ts r hw hw' hrest =>
      obtain ⟨rfl, rfl⟩ := List.cons.inj htexts
      simp only [List.append_assoc, List.cons_append]
      simp only [pair, List.length_append, List.length_cons] at hfuel
      have hlen : 2 * r.length + 1 ≤ f := by omega
      refine gives_member hhead hw hw' (by omega) hnew (.inl rfl) (fun v _ => ?_)
        fun v h => absurd rfl h
      exact ih hrest (fun b hb => hspells b (List.mem_cons_of_mem a hb)) (hkeys' v) hlen

/-- The white space before the first part is its own. -/
theorem Separated.strip {ts : List (List Char)} (h : Separated ts inner) :
    ∃ w t ts' r, ts = t :: ts' ∧ inner = w ++ (t ++ r) ∧ Blank w ∧ Separated ts (t ++ r) := by
  cases h with
  | @last w t w' hw hw' => exact ⟨w, t, [], w', rfl, rfl, hw, .last (w := []) nofun hw'⟩
  | @cons w t w' ts r hw hw' h =>
    exact ⟨w, t, ts, w' ++ ',' :: r, rfl, rfl, hw, .cons (w := []) nofun hw' h⟩

/-- A bracket, and at least one part after it. -/
theorem gives_opened {opening close : Char} {empty : Json} {parts : Reader Char Json}
    (hw : Blank w) (hstart : Starts c) (hclose : close = ']' ∨ close = '\x7d')
    (hparts : Gives parts (c :: inner) x rest) :
    Gives (JsonReader.opened opening close empty parts) (opening :: (w ++ c :: inner)) x rest := by
  have hne : (c :: inner).head? ≠ some close := by
    intro h
    obtain rfl := Option.some.inj h
    exact hclose.elim hstart.notBracket hstart.notBrace
  refine (runs_expect opening _).next ((Repack.runs_ws hw hstart.notBlank).next ?_)
  refine (runs_peek _).next ?_
  rwa [if_neg hne]

theorem spells_array (hsep : Separated (items.map text) inner)
    (hspells : ∀ a ∈ items, Spells (text a) (value a)) :
    Spells ('[' :: (inner ++ [']'])) ((items.mapM value).map .array) := by
  obtain ⟨w, t, ts, r, hts, rfl, hw, hsep⟩ := hsep.strip
  obtain ⟨a, ha, rfl⟩ := List.mem_map.mp (hts ▸ List.mem_cons_self : t ∈ items.map text)
  obtain ⟨c, cs, htext, hstart⟩ := (hspells a ha).starts
  refine ⟨⟨'[', _, rfl, by decide, by decide, by decide⟩, fun fuel rest hfuel _ => ?_⟩
  obtain ⟨f, rfl⟩ := fuel_pos rfl hfuel
  simp only [List.length_cons, List.length_append] at hfuel
  have hlen : 2 * (text a ++ r).length + 1 ≤ f := by
    rw [List.length_append]
    omega
  have hgives := @gives_elements _ rest _ _ _ _ _ [] hsep hspells hlen
  rw [htext] at hgives ⊢
  simp only [List.cons_append, List.append_assoc, List.nil_append] at hgives ⊢
  refine (runs_peek _).next ?_
  exact gives_opened hw hstart (.inl rfl) hgives

theorem spells_emptyArray (hw : Blank w) : Spells ('[' :: (w ++ [']'])) (some (.array [])) := by
  refine ⟨⟨'[', _, rfl, by decide, by decide, by decide⟩, fun fuel rest hfuel _ => Runs.gives ?_⟩
  obtain ⟨f, rfl⟩ := fuel_pos rfl hfuel
  rw [List.cons_append, List.append_assoc]
  refine (runs_peek _).bind ((runs_expect '[' _).bind ?_)
  refine (Repack.runs_ws hw (by decide)).bind ((runs_peek _).bind ?_)
  exact (runs_bump ']' rest).bind (runs_pure _ rest)

theorem spells_object (hsep : Separated (items.map fun a => pair (key a) (text a)) inner)
    (hspells : ∀ a ∈ items, Spells (text a) (value a))
    (hkeys : (items.map fun a => reread (key a)).Nodup) :
    Spells ('\x7b' :: (inner ++ ['\x7d']))
      ((items.mapM fun a => (value a).map fun v => (reread (key a), v)).map fun fs =>
        .object (fs.foldl insertField [])) := by
  obtain ⟨w, t, ts, r, hts, rfl, hw, hsep⟩ := hsep.strip
  obtain ⟨a, -, rfl⟩ := List.mem_map.mp
    (hts ▸ List.mem_cons_self : t ∈ items.map fun a => pair (key a) (text a))
  refine ⟨⟨'\x7b', _, rfl, by decide, by decide, by decide⟩, fun fuel rest hfuel _ => ?_⟩
  obtain ⟨f, rfl⟩ := fuel_pos rfl hfuel
  simp only [List.length_cons, List.length_append] at hfuel
  have hlen : 2 * (pair (key a) (text a) ++ r).length + 1 ≤ f := by
    rw [List.length_append]
    omega
  have hgives := @gives_members _ rest _ _ _ _ _ _ [] hsep hspells hkeys hlen
  simp only [List.cons_append, List.append_assoc, List.nil_append] at hgives ⊢
  refine (runs_peek _).next ?_
  exact gives_opened (c := '"') hw ⟨by decide, by decide, by decide⟩ (.inr rfl) hgives

theorem stops_blank (hw : Blank w) : Stops w := by
  intro c hc
  obtain ⟨cs, rfl⟩ := List.head?_eq_some_iff.mp hc
  have hblank := hw c List.mem_cons_self
  rcases hblank with rfl | rfl | rfl | rfl <;> decide

/-- White space up to the end. -/
theorem runs_ws_end (hw : Blank w) : Runs ws w () [] := by
  have hdrop : w.dropWhile (fun c => decide (c = ' ' ∨ c = '\t' ∨ c = '\n' ∨ c = '\r')) = [] :=
    List.dropWhile_eq_nil_iff.mpr fun c hc => by simpa [IsBlank] using hw c hc
  refine (runs_takeWhile _ _).bind ?_
  rw [hdrop]
  exact runs_pure () []

theorem gives_document (h : Spells t x) (hw : Blank w) :
    Gives JsonReader.document (t ++ w) x [] := by
  have hlen : 2 * t.length ≤ 2 * (t ++ w).length + 1 := by
    rw [List.length_append]
    omega
  have hvalue := (h.gives _ w hlen (stops_blank hw)).bind (f := fun v => do
    ws
    demand ((← remaining) = 0) fun pos => "trailing bytes at " ++ toString pos
    return v) (g := some) fun v _ =>
      ((runs_ws_end hw).bind ((runs_remaining []).bind ((runs_demand rfl []).bind
        (runs_pure v [])))).gives
  rw [Option.bind_fun_some] at hvalue
  exact (h.runs_ws (w := []) nofun).next ((runs_remaining _).next hvalue)

/-- **A spelled text is parsed** to its value, or refused. -/
theorem jsonParse_of_spells {s : String} (h : Spells t x) (hw : Blank w)
    (hs : seen s.toList = t ++ w) (v : Json) : jsonParse s = .ok v ↔ x = some v := by
  have hgives := gives_document h hw
  rw [← hs] at hgives
  rw [jsonParse]
  cases x with
  | none =>
    obtain ⟨e, s', hfail⟩ := hgives.fails rfl 0
    rw [seen] at hfail
    rw [hfail]
    exact iff_of_false (fun h => by cases h) fun h => by cases h
  | some u =>
    obtain ⟨pos, hrun⟩ := hgives.runs u rfl 0
    rw [seen] at hrun
    rw [hrun]
    exact ⟨fun h => congrArg some (Except.ok.inj h), fun h => congrArg Except.ok (Option.some.inj h)⟩

end

end Repack

end Mimo26

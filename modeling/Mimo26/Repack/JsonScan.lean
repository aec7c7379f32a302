import Mimo26.Library.Runs
import Mimo26.Repack.Rfc8259

/-!
# Scanning JSON texts

What a text must not have for the parser to read it as RFC 8259 does can be told without parsing it,
from whether a character stands in a string, behind a backslash, among the digits of an escape, or
behind the zero that begins a number. The scan also counts the characters of all strings.

## Main definitions

* `Place`, `Place.next` — where a character stands
* `Lexical`, `Clean` — what a text must not have
* `count` — the characters of the strings of a text, and `Json.chars` of a value

## Main results

* `count_spells` — a text has the characters of its value
* `along_lexical` — a text of the RFC is lexical
* `spells_of_clean` — a clean text of a laxer grammar is one of the RFC
-/

namespace Mimo26

namespace Repack

namespace Rfc8259

open Runs JsonText

/-- Where a character stands. -/
inductive Place where
  | start
  /-- Behind the zero that begins a number. -/
  | zero
  /-- Behind another digit of a number. -/
  | digits
  | inside
  | slash
  /-- Among the digits of an escape; so many follow. -/
  | hex (left : ℕ)
  deriving DecidableEq, Repr

def Place.outer (p : Place) (c : Char) : Place :=
  if c = '"' then .inside
  else if c.isDigit then if p = .start ∧ c = '0' then .zero else .digits
  else .start

def Place.next : Place → Char → Place
  | .inside, c => if c = '"' then .start else if c = '\\' then .slash else .inside
  | .slash, c => if c = 'u' then .hex 3 else .inside
  | .hex 0, _ => .inside
  | .hex (n + 1), _ => .hex n
  | .start, c => Place.outer .start c
  | .zero, c => Place.outer .zero c
  | .digits, c => Place.outer .digits c

/-- No digit behind a leading zero, no plus sign in an escape, and ASCII outside of strings. -/
def Lexical (p : Place) (c : Char) : Prop :=
  ¬ (p = .zero ∧ c.isDigit = true) ∧ ¬ (p = .hex 3 ∧ c = '+') ∧ (c.toNat < 128 ∨ p = .inside)

instance (p : Place) (c : Char) : Decidable (Lexical p c) := inferInstanceAs (Decidable (_ ∧ _))

/-- A text in ASCII, without a leading zero before other digits and without a plus sign for the
first digit of an escape. -/
structure Clean (t : List Char) : Prop where
  ascii : ∀ c ∈ t, c.toNat < 128
  lexical : Along Place.next Lexical .start t

/-- The characters of strings begun by a character. -/
def begun : Place → Char → ℕ
  | .inside, c => if c = '"' then 0 else 1
  | _, _ => 0

def count : Place → List Char → ℕ
  | _, [] => 0
  | p, c :: t => begun p c + count (p.next c) t

mutual

/-- The characters of the strings of a value. -/
def chars : Json → ℕ
  | .str s => s.length
  | .array vs => charsItems vs
  | .object fs => charsFields fs
  | _ => 0

def charsItems : List Json → ℕ
  | [] => 0
  | v :: vs => chars v + charsItems vs

def charsFields : List (String × Json) → ℕ
  | [] => 0
  | x :: fs => x.1.length + chars x.2 + charsFields fs

end

def Node.chars : Node → ℕ
  | .value v => Rfc8259.chars v
  | .items vs => charsItems vs
  | .members fs => charsFields fs

/-! ### What a production passes -/

/-- Outside of strings. -/
def Outside (p : Place) : Prop := p = .start ∨ p = .zero ∨ p = .digits

theorem Outside.next {p : Place} (h : Outside p) (c : Char) : p.next c = p.outer c := by
  rcases h with rfl | rfl | rfl <;> rfl

theorem Outside.begun {p : Place} (h : Outside p) (c : Char) : begun p c = 0 := by
  rcases h with rfl | rfl | rfl <;> rfl

theorem charsFields_cons (key : List Char) (v : Json) (fs : List (String × Json)) :
    charsFields ((String.ofList key, v) :: fs) = key.length + chars v + charsFields fs := by
  rw [charsFields, String.length_ofList]

theorem charsFields_insertField (fs : List (String × Json)) (x : String × Json) :
    charsFields (insertField fs x) = x.1.length + chars x.2 + charsFields fs := by
  induction fs with
  | nil => exact charsFields.eq_2 x []
  | cons y fs ih =>
    rw [insertField, List.orderedInsert]
    split
    · rw [charsFields]
    · have ih' : charsFields (fs.orderedInsert (fun x y => x.1 ≤ y.1) x) =
          x.1.length + chars x.2 + charsFields fs := ih
      rw [charsFields, ih', charsFields]
      omega

theorem charsFields_foldl (fs map : List (String × Json)) :
    charsFields (fs.foldl insertField map) = charsFields fs + charsFields map := by
  induction fs generalizing map with
  | nil => rw [List.foldl_nil, charsFields, Nat.zero_add]
  | cons x fs ih =>
    rw [List.foldl_cons, ih, charsFields_insertField, charsFields]
    omega

/-- From `t` to `r`, which stands at `q`: the scan meets `n` characters of strings. -/
structure Passes (p : Place) (t : List Char) (n : ℕ) (q : Place) (r : List Char) : Prop where
  count : count p t = n + Rfc8259.count q r
  along : Along Place.next Lexical p t → Along Place.next Lexical q r

variable {p q o : Place} {t r u : List Char} {m n : ℕ} {c : Char}

theorem Passes.refl : Passes p t 0 p t := ⟨(Nat.zero_add _).symm, id⟩

theorem Passes.trans (h : Passes p t m q r) (h' : Passes q r n o u) : Passes p t (m + n) o u :=
  ⟨by rw [h.count, h'.count, Nat.add_assoc], fun hp => h'.along (h.along hp)⟩

theorem Passes.of_eq (h : Passes p t m q r) (hmn : m = n) : Passes p t n q r := hmn ▸ h

theorem Passes.cons (p : Place) (c : Char) (t : List Char) :
    Passes p (c :: t) (begun p c) (p.next c) t := ⟨rfl, And.right⟩

/-- A character outside of strings that is no digit and no quote. -/
theorem Passes.outer (hp : Outside p) (hquote : c ≠ '"') (hdigit : c.isDigit = false) :
    Passes p (c :: t) 0 .start t := by
  have hnext : p.next c = .start := by
    rw [hp.next, Place.outer, if_neg hquote, if_neg (by rw [hdigit]; decide)]
  have h := Passes.cons p c t
  rwa [hp.begun, hnext] at h

/-- The quote that opens a string. -/
theorem Passes.quote (hp : Outside p) : Passes p ('"' :: t) 0 .inside t := by
  have hnext : p.next '"' = .inside := by rw [hp.next, Place.outer, if_pos rfl]
  have h := Passes.cons p '"' t
  rwa [hp.begun, hnext] at h

theorem isBlank_outer (h : IsBlank c) : c ≠ '"' ∧ c.isDigit = false := by
  rcases h with rfl | rfl | rfl | rfl <;> decide

/-- White space is outside of strings, and is followed by the place of a value's start or by the
place before it. -/
theorem passes_ws (h : Ws t r) (hp : Outside p) :
    ∃ q, Outside q ∧ (p = .start → q = .start) ∧ Passes p t 0 q r := by
  induction h generalizing p with
  | nil => exact ⟨p, hp, id, .refl⟩
  | cons hc _ ih =>
    obtain ⟨q, hq, hstart, hpass⟩ := ih (.inl rfl)
    exact ⟨q, hq, fun _ => hstart rfl,
      (Passes.outer hp (isBlank_outer hc).1 (isBlank_outer hc).2).trans hpass⟩

theorem passes_ws_start (h : Ws t r) : Passes .start t 0 .start r := by
  obtain ⟨q, -, hstart, hpass⟩ := passes_ws h (.inl rfl)
  exact hstart rfl ▸ hpass

/-- White space, and a character behind it. -/
theorem passes_mark (hp : Outside p) (h : Ws t (c :: r)) (hc : c ≠ '"' ∧ c.isDigit = false) :
    Passes p t 0 .start r := by
  obtain ⟨q, hq, -, hpass⟩ := passes_ws h hp
  exact hpass.trans (Passes.outer hq hc.1 hc.2)

/-- Numbers end outside of strings, and an escape may have characters more than it stands for, if
`L` is not exact. -/
structure Scans (L : Lexis) (exact : Prop) : Prop where
  number : ∀ {t n r}, L.number t n r → ∃ o, Outside o ∧ Passes .start t 0 o r
  escape : ∀ {t c r}, L.escape t c r → ∃ k, (exact → k = 0) ∧ Passes .slash t k .inside r

variable {L : Lexis} {exact : Prop}

theorem passes_chars (hL : Scans L exact) {s : List Char} (h : Chars L t s r) :
    ∃ k, (exact → k = 0) ∧ Passes .inside t (s.length + k) .start r := by
  induction h with
  | done => exact ⟨0, fun _ => rfl, Passes.cons .inside '"' _⟩
  | @plain c t s r hquote hslash hcontrol _ ih =>
    obtain ⟨k, hk, hpass⟩ := ih
    have hfirst := Passes.cons .inside c t
    rw [begun, if_neg hquote, Place.next, if_neg hquote, if_neg hslash] at hfirst
    have h := hfirst.trans hpass
    rw [← Nat.add_assoc, Nat.add_comm 1] at h
    exact ⟨k, hk, h⟩
  | @escape c t t' s r he _ ih =>
    obtain ⟨j, hj, hesc⟩ := hL.escape he
    obtain ⟨k, hk, hpass⟩ := ih
    have hfirst : Passes .inside ('\\' :: t) 1 .slash t := Passes.cons .inside '\\' t
    have h := (hfirst.trans hesc).trans hpass
    refine ⟨j + k, fun hexact => by rw [hj hexact, hk hexact], ?_⟩
    rwa [show 1 + j + (s.length + k) = (c :: s).length + (j + k) by rw [List.length_cons]; omega] at h

/-- The name of a member, and the white space around the colon. -/
theorem passes_name (hL : Scans L exact) {t₁ t₂ t₃ key : List Char} (h₁ : Ws t ('"' :: t₁))
    (hkey : Chars L t₁ key t₂) (h₂ : Ws t₂ (':' :: t₃)) (h₃ : Ws t₃ r) :
    ∃ k, (exact → k = 0) ∧ Passes .start t (key.length + k) .start r := by
  obtain ⟨k, hk, hchars⟩ := passes_chars hL hkey
  have hopen := (passes_ws_start h₁).trans (Passes.quote (.inl rfl))
  have hclose := (passes_mark (.inl rfl) h₂ (by decide)).trans (passes_ws_start h₃)
  refine ⟨k, hk, ((hopen.trans hchars).trans hclose).of_eq ?_⟩
  omega

/-- **A value is passed with the characters of its strings**, or more if `L` is not exact. -/
theorem passes_spells (hL : Scans L exact) {node : Node} (h : Spells L t node r) :
    ∃ o k, Outside o ∧ (exact → k = 0) ∧ Passes .start t (node.chars + k) o r := by
  have hout : Outside .start := .inl rfl
  have hletter {c : Char} (hc : c ≠ '"' ∧ c.isDigit = false) (t : List Char) :
      Passes .start (c :: t) 0 .start t := Passes.outer hout hc.1 hc.2
  induction h with
  | null =>
    exact ⟨.start, 0, hout, fun _ => rfl, (hletter (by decide) _).trans ((hletter (by decide) _).trans
      ((hletter (by decide) _).trans (hletter (by decide) _)))⟩
  | true =>
    exact ⟨.start, 0, hout, fun _ => rfl, (hletter (by decide) _).trans ((hletter (by decide) _).trans
      ((hletter (by decide) _).trans (hletter (by decide) _)))⟩
  | false =>
    exact ⟨.start, 0, hout, fun _ => rfl, (hletter (by decide) _).trans ((hletter (by decide) _).trans
      ((hletter (by decide) _).trans ((hletter (by decide) _).trans (hletter (by decide) _))))⟩
  | number h =>
    obtain ⟨o, ho, hpass⟩ := hL.number h
    exact ⟨o, 0, ho, fun _ => rfl, hpass⟩
  | @string t s r h =>
    obtain ⟨k, hk, hpass⟩ := passes_chars hL h
    refine ⟨.start, k, hout, hk, ((Passes.quote hout).trans hpass).of_eq ?_⟩
    rw [Node.chars, chars, String.length_ofList, Nat.zero_add]
  | emptyArray h =>
    exact ⟨.start, 0, hout, fun _ => rfl,
      (hletter (by decide) _).trans (passes_mark hout h (by decide))⟩
  | array _ ih =>
    obtain ⟨o, k, ho, hk, hpass⟩ := ih
    refine ⟨.start, k, hout, hk,
      (((hletter (by decide) _).trans hpass).trans (passes_mark ho .nil (by decide))).of_eq ?_⟩
    rw [Node.chars, Node.chars, chars, Nat.zero_add, Nat.add_zero]
  | emptyObject h =>
    exact ⟨.start, 0, hout, fun _ => rfl,
      (hletter (by decide) _).trans (passes_mark hout h (by decide))⟩
  | @object t r fs _ hkeys ih =>
    obtain ⟨o, k, ho, hk, hpass⟩ := ih
    refine ⟨.start, k, hout, hk,
      (((hletter (by decide) _).trans hpass).trans (passes_mark ho .nil (by decide))).of_eq ?_⟩
    rw [Node.chars, Node.chars, chars, charsFields_foldl, charsFields, Nat.zero_add, Nat.add_zero,
      Nat.add_zero]
  | item h₁ _ h₂ ih =>
    obtain ⟨o, k, ho, hk, hpass⟩ := ih
    obtain ⟨q, hq, -, hend⟩ := passes_ws h₂ ho
    refine ⟨q, k, hq, hk, (((passes_ws_start h₁).trans hpass).trans hend).of_eq ?_⟩
    rw [Node.chars, Node.chars, charsItems, charsItems, Nat.zero_add, Nat.add_zero, Nat.add_zero]
  | items h₁ _ h₂ _ ihv ih =>
    obtain ⟨o, k, ho, hk, hpass⟩ := ihv
    obtain ⟨q, j, hq, hj, hrest⟩ := ih
    refine ⟨q, k + j, hq, fun hexact => by rw [hk hexact, hj hexact],
      ((((passes_ws_start h₁).trans hpass).trans (passes_mark ho h₂ (by decide))).trans
        hrest).of_eq ?_⟩
    rw [Node.chars, Node.chars, Node.chars, charsItems]
    omega
  | member h₁ hkey h₂ h₃ _ h₄ ih =>
    obtain ⟨i, hi, hname⟩ := passes_name hL h₁ hkey h₂ h₃
    obtain ⟨o, k, ho, hk, hpass⟩ := ih
    obtain ⟨q, hq, -, hend⟩ := passes_ws h₄ ho
    refine ⟨q, i + k, hq, fun hexact => by rw [hi hexact, hk hexact],
      ((hname.trans hpass).trans hend).of_eq ?_⟩
    rw [Node.chars, Node.chars, charsFields_cons, charsFields]
    omega
  | members h₁ hkey h₂ h₃ _ h₄ _ ihv ih =>
    obtain ⟨i, hi, hname⟩ := passes_name hL h₁ hkey h₂ h₃
    obtain ⟨o, k, ho, hk, hpass⟩ := ihv
    obtain ⟨q, j, hq, hj, hrest⟩ := ih
    refine ⟨q, i + k + j, hq, fun hexact => by rw [hi hexact, hk hexact, hj hexact],
      (((hname.trans hpass).trans (passes_mark ho h₄ (by decide))).trans hrest).of_eq ?_⟩
    rw [Node.chars, Node.chars, Node.chars, charsFields_cons]
    omega

/-- What the RFC has no number or escape for is not lexical. -/
structure Converts (L : Lexis) : Prop where
  number : ∀ {t n r}, L.number t n r → Along Place.next Lexical .start t → Rfc8259.number t n r
  escape : ∀ {t c r}, L.escape t c r → Along Place.next Lexical .slash t → Escape t c r

theorem chars_of_along (hL : Scans L exact) (hconv : Converts L) {s : List Char} (h : Chars L t s r)
    (halong : Along Place.next Lexical .inside t) : Chars rfc t s r := by
  induction h with
  | done => exact .done
  | @plain c t s r hquote hslash hcontrol _ ih =>
    have hnext := halong.2
    rw [Place.next, if_neg hquote, if_neg hslash] at hnext
    exact .plain hquote hslash hcontrol (ih hnext)
  | escape he _ ih =>
    obtain ⟨k, -, hesc⟩ := hL.escape he
    exact .escape (hconv.escape he halong.2) (ih (hesc.along halong.2))

/-- **A lexical text of a laxer grammar is one of the RFC.** -/
theorem spells_of_along (hL : Scans L exact) (hconv : Converts L) {node : Node}
    (h : Spells L t node r) (halong : Along Place.next Lexical .start t) : Spells rfc t node r := by
  have hout : Outside .start := .inl rfl
  induction h with
  | null => exact .null
  | true => exact .true
  | false => exact .false
  | number h => exact .number (hconv.number h halong)
  | string h => exact .string (chars_of_along hL hconv h ((Passes.quote hout).along halong))
  | emptyArray h => exact .emptyArray h
  | array _ ih => exact .array (ih halong.2)
  | emptyObject h => exact .emptyObject h
  | object _ hkeys ih => exact .object (ih halong.2) hkeys
  | item h₁ _ h₂ ih => exact .item h₁ (ih ((passes_ws_start h₁).along halong)) h₂
  | items h₁ hv h₂ _ ihv ih =>
    have hstart := (passes_ws_start h₁).along halong
    obtain ⟨o, k, ho, -, hpass⟩ := passes_spells hL hv
    have hnext := (passes_mark ho h₂ (by decide)).along (hpass.along hstart)
    exact .items h₁ (ihv hstart) h₂ (ih hnext)
  | member h₁ hkey h₂ h₃ _ h₄ ih =>
    have hquote := (Passes.quote hout).along ((passes_ws_start h₁).along halong)
    obtain ⟨k, -, hname⟩ := passes_name hL h₁ hkey h₂ h₃
    exact .member h₁ (chars_of_along hL hconv hkey hquote) h₂ h₃ (ih (hname.along halong)) h₄
  | members h₁ hkey h₂ h₃ hv h₄ _ ihv ih =>
    have hquote := (Passes.quote hout).along ((passes_ws_start h₁).along halong)
    obtain ⟨k, -, hname⟩ := passes_name hL h₁ hkey h₂ h₃
    obtain ⟨o, j, ho, -, hpass⟩ := passes_spells hL hv
    have hnext := (passes_mark ho h₄ (by decide)).along (hpass.along (hname.along halong))
    exact .members h₁ (chars_of_along hL hconv hkey hquote) h₂ h₃ (ihv (hname.along halong)) h₄
      (ih hnext)

/-! ### Numbers and escapes -/

theorem passes_digits {ds : List Char} (hds : ∀ d ∈ ds, d.isDigit = true) (hp : Outside p) :
    ∃ o, Outside o ∧ Passes p (ds ++ r) 0 o r := by
  induction ds generalizing p with
  | nil => exact ⟨p, hp, .refl⟩
  | cons d ds ih =>
    obtain ⟨hd, hds⟩ := List.forall_mem_cons.mp hds
    have hquote : d ≠ '"' := by
      rintro rfl
      exact absurd hd (by decide)
    have hnext : Outside (p.next d) := by
      rw [hp.next, Place.outer, if_neg hquote, if_pos hd]
      split
      · exact .inr (.inl rfl)
      · exact .inr (.inr rfl)
    have hfirst := Passes.cons p d (ds ++ r)
    rw [hp.begun] at hfirst
    obtain ⟨o, ho, hpass⟩ := ih hds hnext
    exact ⟨o, ho, hfirst.trans hpass⟩

/-- An optional minus sign, and digits. -/
theorem passes_signed {sign ds : List Char} (hsign : sign = [] ∨ sign = ['-'])
    (hds : ∀ d ∈ ds, d.isDigit = true) :
    ∃ o, Outside o ∧ Passes .start (sign ++ (ds ++ r)) 0 o r := by
  obtain ⟨o, ho, hpass⟩ := @passes_digits .start r ds hds (.inl rfl)
  rcases hsign with rfl | rfl
  · exact ⟨o, ho, hpass⟩
  · exact ⟨o, ho, (Passes.outer (.inl rfl) (by decide) (by decide)).trans hpass⟩

theorem passes_letter (he : c ≠ 'u') : Passes .slash (c :: r) 0 .inside r := by
  have h := Passes.cons .slash c r
  rwa [Place.next, if_neg he] at h

theorem passes_hexes {ds : List Char} (hds : ds.length = n + 1) :
    Passes (.hex n) (ds ++ r) 0 .inside r := by
  induction n generalizing ds with
  | zero =>
    obtain ⟨d, rfl⟩ := List.length_eq_one_iff.mp hds
    exact Passes.cons (.hex 0) d r
  | succ n ih =>
    obtain ⟨d, ds, rfl⟩ := List.exists_cons_of_length_eq_add_one hds
    exact (Passes.cons (.hex (n + 1)) d (ds ++ r)).trans (ih (Nat.succ.inj hds))

theorem passes_hex {hex : List Char} (hhex : hex.length = 4) :
    Passes .slash ('u' :: (hex ++ r)) 0 .inside r :=
  (Passes.cons .slash 'u' (hex ++ r)).trans (passes_hexes hhex)

theorem ne_u_of_mem_letters {e : Char} (h : (e, c) ∈ letters) : e ≠ 'u' := by
  rintro rfl
  simp [letters] at h

theorem scans_rfc : Scans rfc False := by
  constructor
  · rintro t n r ⟨sign, digits, m, rfl, hint, -, hvalue⟩
    refine passes_signed (hvalue.imp And.left And.left) ?_
    rcases hint with rfl | ⟨hdigits, -, -⟩
    · decide
    · exact hdigits
  · intro t c r h
    cases h with
    | letter h => exact ⟨0, False.elim, passes_letter (ne_u_of_mem_letters h)⟩
    | unicode hhex _ => exact ⟨0, False.elim, passes_hex hhex.1⟩
    | pair hhi hlo _ _ _ =>
      have hmiddle := (Passes.cons .inside '\\' _).trans (passes_hex (r := r) hlo.1)
      exact ⟨1, False.elim, ((passes_hex hhi.1).trans hmiddle).of_eq (Nat.zero_add 1)⟩

/-! ### Texts of the RFC are lexical -/

theorem lexical_outer (hp : p ≠ .zero ∨ c.isDigit = false) (hhex : ∀ k, p ≠ .hex k)
    (hc : c.toNat < 128) : Lexical p c := by
  refine ⟨fun h => ?_, fun h => hhex 3 h.1, .inl hc⟩
  rcases hp with hp | hp
  · exact hp h.1
  · exact absurd h.2 (by rw [hp]; decide)

theorem Outside.not_hex (h : Outside p) (k : ℕ) : p ≠ .hex k := by
  rcases h with rfl | rfl | rfl <;> simp

/-- A character outside of strings that is no digit and no quote. -/
theorem along_mark (hp : Outside p) (hc : c ≠ '"' ∧ c.isDigit = false) (hascii : c.toNat < 128)
    (h : Along Place.next Lexical .start t) : Along Place.next Lexical p (c :: t) := by
  refine ⟨lexical_outer (.inr hc.2) hp.not_hex hascii, ?_⟩
  rwa [hp.next, Place.outer, if_neg hc.1, if_neg (by rw [hc.2]; decide)]

theorem along_quote (hp : Outside p) (h : Along Place.next Lexical .inside t) :
    Along Place.next Lexical p ('"' :: t) := by
  refine ⟨lexical_outer (.inr (by decide)) hp.not_hex (by decide), ?_⟩
  rwa [hp.next, Place.outer, if_pos rfl]

/-- What is lexical behind any value. -/
def Follows (r : List Char) : Prop := ∀ q, Outside q → Along Place.next Lexical q r

theorem follows_mark (hc : c ≠ '"' ∧ c.isDigit = false) (hascii : c.toNat < 128)
    (h : Along Place.next Lexical .start t) : Follows (c :: t) :=
  fun _ hq => along_mark hq hc hascii h

theorem ascii_of_isBlank (h : IsBlank c) : c.toNat < 128 := by
  rcases h with rfl | rfl | rfl | rfl <;> decide

theorem along_ws_start (h : Ws t r) (hr : Along Place.next Lexical .start r) :
    Along Place.next Lexical .start t := by
  induction h with
  | nil => exact hr
  | cons hc _ ih => exact along_mark (.inl rfl) (isBlank_outer hc) (ascii_of_isBlank hc) (ih hr)

theorem follows_ws (h : Ws t r) (hr : Follows r) : Follows t := by
  cases h with
  | nil => exact hr
  | cons hc h =>
    exact follows_mark (isBlank_outer hc) (ascii_of_isBlank hc)
      (along_ws_start h (hr .start (.inl rfl)))

theorem along_plain (hquote : c ≠ '"') (hslash : c ≠ '\\')
    (h : Along Place.next Lexical .inside t) : Along Place.next Lexical .inside (c :: t) := by
  refine ⟨⟨fun h => absurd h.1 (by decide), fun h => absurd h.1 (by decide), .inr rfl⟩, ?_⟩
  rwa [Place.next, if_neg hquote, if_neg hslash]

theorem isDigit_ascii (h : c.isDigit = true) : c.toNat < 128 := by
  simp only [Char.isDigit, Bool.and_eq_true, decide_eq_true_eq] at h
  have h9 : c.val.toNat ≤ 57 := h.2
  exact Nat.lt_of_le_of_lt h9 (by decide)

theorem along_digits {ds : List Char} (hds : ∀ d ∈ ds, d.isDigit = true)
    (hr : Follows r) :
    Along Place.next Lexical .digits (ds ++ r) := by
  induction ds with
  | nil => exact hr .digits (.inr (.inr rfl))
  | cons d ds ih =>
    obtain ⟨hd, hds⟩ := List.forall_mem_cons.mp hds
    have hquote : d ≠ '"' := by
      rintro rfl
      exact absurd hd (by decide)
    refine ⟨lexical_outer (.inl (by simp)) (by simp) (isDigit_ascii hd), ?_⟩
    rw [Place.next, Place.outer, if_neg hquote, if_pos hd, if_neg (by simp)]
    exact ih hds

theorem along_int {ds : List Char} (h : IsInt ds)
    (hr : Follows r) :
    Along Place.next Lexical .start (ds ++ r) := by
  rcases h with rfl | ⟨hds, hne, hhead⟩
  · exact ⟨by decide, hr .zero (.inr (.inl rfl))⟩
  · obtain ⟨d, ds, rfl⟩ := List.exists_cons_of_ne_nil hne
    obtain ⟨hd, hds⟩ := List.forall_mem_cons.mp hds
    have hquote : d ≠ '"' := by
      rintro rfl
      exact absurd hd (by decide)
    have hzero : d ≠ '0' := fun h => hhead (congrArg some h)
    refine ⟨lexical_outer (.inl (by simp)) (by simp) (isDigit_ascii hd), ?_⟩
    rw [Place.next, Place.outer, if_neg hquote, if_pos hd, if_neg (fun h => hzero h.2)]
    exact along_digits hds hr

theorem ascii_of_hexDigit {d : Char} (h : (Numerals.digit 16 d).isSome) :
    d ≠ '+' ∧ d.toNat < 128 := by
  have hle {e : Char} (hd : d ≤ e) (he : e.toNat < 128) : d.toNat < 128 :=
    Nat.lt_of_le_of_lt (show d.val.toNat ≤ e.val.toNat from hd) he
  refine ⟨?_, ?_⟩
  · rintro rfl
    exact absurd h (by decide)
  · rw [Numerals.digit] at h
    by_cases hdec : '0' ≤ d ∧ d ≤ '9'
    · exact hle hdec.2 (by decide)
    by_cases hlower : 'a' ≤ d ∧ d ≤ 'z'
    · exact hle hlower.2 (by decide)
    by_cases hupper : 'A' ≤ d ∧ d ≤ 'Z'
    · exact hle hupper.2 (by decide)
    simp [hdec, hlower, hupper] at h

theorem along_hexes {ds : List Char} (hlen : ds.length = m + 1)
    (hds : ∀ d ∈ ds, d ≠ '+' ∧ d.toNat < 128) (hr : Along Place.next Lexical .inside r) :
    Along Place.next Lexical (.hex m) (ds ++ r) := by
  have hlexical {d : Char} (hd : d ≠ '+' ∧ d.toNat < 128) (k : ℕ) : Lexical (.hex k) d :=
    ⟨fun h => absurd h.1 (by simp), fun h => hd.1 h.2, .inl hd.2⟩
  induction m generalizing ds with
  | zero =>
    obtain ⟨d, rfl⟩ := List.length_eq_one_iff.mp hlen
    exact ⟨hlexical (hds d List.mem_cons_self) 0, hr⟩
  | succ m ih =>
    obtain ⟨d, ds, rfl⟩ := List.exists_cons_of_length_eq_add_one hlen
    obtain ⟨hd, hds⟩ := List.forall_mem_cons.mp hds
    exact ⟨hlexical hd (m + 1), ih (Nat.succ.inj hlen) hds⟩

theorem lexical_slash (hc : c.toNat < 128) : Lexical .slash c :=
  lexical_outer (.inl (by simp)) (by simp) hc

theorem along_hex {hex : List Char} (hhex : IsHex hex n)
    (hr : Along Place.next Lexical .inside r) :
    Along Place.next Lexical .slash ('u' :: (hex ++ r)) := by
  refine ⟨lexical_slash (by decide), along_hexes hhex.1 (fun d hd => ?_) hr⟩
  exact ascii_of_hexDigit (Numerals.mem_of_numeral hhex.2 d hd)

/-- What may follow a backslash is lexical up to its end. -/
theorem along_escape (h : Escape t c r) (hr : Along Place.next Lexical .inside r) :
    Along Place.next Lexical .slash t := by
  cases h with
  | @letter e c r h =>
    have hascii : e.toNat < 128 := by
      simp only [letters, List.mem_cons, Prod.mk.injEq, List.not_mem_nil, or_false] at h
      rcases h with h | h | h | h | h | h | h | h <;> exact h.1 ▸ (by decide)
    refine ⟨lexical_slash hascii, ?_⟩
    rwa [Place.next, if_neg (ne_u_of_mem_letters h)]
  | unicode hhex _ => exact along_hex hhex hr
  | pair hhi hlo _ _ _ => exact along_hex hhi ⟨by decide, along_hex hlo hr⟩

theorem along_chars {s : List Char} (h : Chars rfc t s r)
    (hr : Along Place.next Lexical .start r) : Along Place.next Lexical .inside t := by
  induction h with
  | done => exact ⟨by decide, hr⟩
  | plain hquote hslash _ _ ih => exact along_plain hquote hslash (ih hr)
  | escape he _ ih => exact ⟨by decide, along_escape he (ih hr)⟩

theorem along_number (h : number t n r) (hr : Follows r) : Along Place.next Lexical .start t := by
  obtain ⟨sign, digits, m, rfl, hint, -, hvalue⟩ := h
  have hdigits := along_int hint hr
  rcases hvalue with ⟨rfl, -⟩ | ⟨rfl, -⟩
  · exact hdigits
  · exact along_mark (.inl rfl) (by decide) (by decide) hdigits

/-- The name of a member, and the white space around the colon. -/
theorem along_name {t₁ t₂ t₃ key : List Char} (h₁ : Ws t ('"' :: t₁)) (hkey : Chars rfc t₁ key t₂)
    (h₂ : Ws t₂ (':' :: t₃)) (h₃ : Ws t₃ r) (hr : Along Place.next Lexical .start r) :
    Along Place.next Lexical .start t := by
  have hcolon := along_mark (c := ':') (.inl rfl) (by decide) (by decide) (along_ws_start h₃ hr)
  exact along_ws_start h₁ (along_quote (.inl rfl) (along_chars hkey (along_ws_start h₂ hcolon)))

/-- **A text of the RFC is lexical.** -/
theorem lexical_spells {node : Node} (h : Spells rfc t node r) (hr : Follows r) :
    Along Place.next Lexical .start t := by
  have hout : Outside .start := .inl rfl
  have hmark {c : Char} {t : List Char} (hc : (c ≠ '"' ∧ c.isDigit = false) ∧ c.toNat < 128)
      (h : Along Place.next Lexical .start t) : Along Place.next Lexical .start (c :: t) :=
    along_mark hout hc.1 hc.2 h
  induction h with
  | null =>
    exact hmark (by decide) (hmark (by decide) (hmark (by decide) (hmark (by decide) (hr _ hout))))
  | true =>
    exact hmark (by decide) (hmark (by decide) (hmark (by decide) (hmark (by decide) (hr _ hout))))
  | false =>
    exact hmark (by decide) (hmark (by decide) (hmark (by decide) (hmark (by decide)
      (hmark (by decide) (hr _ hout)))))
  | number h => exact along_number h hr
  | string h => exact along_quote hout (along_chars h (hr _ hout))
  | emptyArray h => exact hmark (by decide) (along_ws_start h (hmark (by decide) (hr _ hout)))
  | array _ ih => exact hmark (by decide) (ih (follows_mark (by decide) (by decide) (hr _ hout)))
  | emptyObject h => exact hmark (by decide) (along_ws_start h (hmark (by decide) (hr _ hout)))
  | object _ _ ih => exact hmark (by decide) (ih (follows_mark (by decide) (by decide) (hr _ hout)))
  | item h₁ _ h₂ ih => exact along_ws_start h₁ (ih (follows_ws h₂ hr))
  | items h₁ _ h₂ _ ihv ih =>
    exact along_ws_start h₁ (ihv (follows_ws h₂ (follows_mark (by decide) (by decide) (ih hr))))
  | member h₁ hkey h₂ h₃ _ h₄ ih => exact along_name h₁ hkey h₂ h₃ (ih (follows_ws h₄ hr))
  | members h₁ hkey h₂ h₃ _ h₄ _ ihv ih =>
    exact along_name h₁ hkey h₂ h₃
      (ihv (follows_ws h₄ (follows_mark (by decide) (by decide) (ih hr))))

/-! ### Whole texts -/

variable {v : Json}

/-- **A text has the characters of its value**, or more if `L` is not exact. -/
theorem count_isText (hL : Scans L exact) (h : IsText L t v) :
    ∃ k, (exact → k = 0) ∧ count .start t = chars v + k := by
  obtain ⟨t₁, t₂, h₁, hv, h₂⟩ := h
  obtain ⟨o, k, ho, hk, hpass⟩ := passes_spells hL hv
  obtain ⟨q, -, -, hend⟩ := passes_ws h₂ ho
  refine ⟨k, hk, ?_⟩
  rw [(((passes_ws_start h₁).trans hpass).trans hend).count, count, Node.chars]
  omega

theorem lexical_isText (h : IsText rfc t v) : Along Place.next Lexical .start t := by
  obtain ⟨t₁, t₂, h₁, hv, h₂⟩ := h
  exact along_ws_start h₁ (lexical_spells hv (follows_ws h₂ fun _ _ => trivial))

theorem isText_of_along (hL : Scans L exact) (hconv : Converts L) (h : IsText L t v)
    (halong : Along Place.next Lexical .start t) : IsText rfc t v := by
  obtain ⟨t₁, t₂, h₁, hv, h₂⟩ := h
  exact ⟨t₁, t₂, h₁, spells_of_along hL hconv hv ((passes_ws_start h₁).along halong), h₂⟩

/-! ### Bytes for characters -/

/-- What is no ASCII stands for itself in a string. -/
theorem inside_of_high (hc : 128 ≤ c.toNat) :
    begun .inside c = 1 ∧ Place.next .inside c = .inside := by
  have hquote : c ≠ '"' := by
    rintro rfl
    exact absurd hc (by decide)
  have hslash : c ≠ '\\' := by
    rintro rfl
    exact absurd hc (by decide)
  rw [begun, if_neg hquote, Place.next, if_neg hquote, if_neg hslash]
  exact ⟨rfl, rfl⟩

theorem count_inside {w : List Char} (hw : ∀ d ∈ w, 128 ≤ d.toNat) :
    count .inside (w ++ t) = w.length + count .inside t := by
  induction w with
  | nil => rw [List.nil_append, List.length_nil, Nat.zero_add]
  | cons d w ih =>
    obtain ⟨hd, hw⟩ := List.forall_mem_cons.mp hw
    obtain ⟨hbegun, hnext⟩ := inside_of_high hd
    rw [List.cons_append, count, hbegun, hnext, ih hw, List.length_cons]
    omega

/-- **Bytes are no fewer than characters**, and are as many only of ASCII. -/
theorem count_seen (h : Along Place.next Lexical p t) : count p t ≤ count p (seen t) ∧
    (count p (seen t) ≤ count p t → ∀ c ∈ t, c.toNat < 128) := by
  induction t generalizing p with
  | nil => exact ⟨Nat.le_refl _, fun _ => List.forall_mem_nil _⟩
  | cons c t ih =>
    obtain ⟨hle, hascii⟩ := ih h.2
    rw [seen_cons]
    by_cases hc : c.toNat < 128
    · have hone : seen [c] = [c] := seen_of_ascii (List.forall_mem_singleton.mpr hc)
      rw [hone, List.singleton_append, count, count]
      exact ⟨Nat.add_le_add_left hle _, fun hge => List.forall_mem_cons.mpr
        ⟨hc, hascii (Nat.le_of_add_le_add_left hge)⟩⟩
    · obtain rfl : p = .inside := h.1.2.2.resolve_left hc
      obtain ⟨hbegun, hnext⟩ := inside_of_high (Nat.not_lt.mp hc)
      have hbytes : ∀ d ∈ seen [c], 128 ≤ d.toNat := fun d => le_of_mem_seen (Nat.not_lt.mp hc)
      have hsize : 2 ≤ (seen [c]).length := by
        rw [length_seen_char]
        have hpos := c.utf8Size_pos
        have hne : c.utf8Size ≠ 1 :=
          fun h => hc (Nat.lt_succ_of_le (Char.utf8Size_eq_one_iff.mp h))
        omega
      rw [hnext] at hle
      rw [count_inside hbytes, count, hbegun, hnext]
      exact ⟨by omega, fun hge => absurd hge (by omega)⟩

end Rfc8259

end Repack

end Mimo26

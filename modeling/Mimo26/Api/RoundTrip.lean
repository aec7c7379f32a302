import Mathlib.Algebra.Ring.Nat
import Mathlib.Data.List.TakeWhile
import Mimo26.Api.Json
import Mimo26.Library.Numerals

/-!
# The codec reads back what it writes

`serialize` writes no white space, and every token it writes ends where the next one or the end of
the text begins, so the parser takes exactly the tokens of a value and leaves what follows. Of `f64`
this needs that a finite number is written as a decimal numeral that is read as an equal number.

## Main definitions

* `Takes` — what a parser takes from a text that begins with it
* `Decimal`, `Fp64Exact` — decimal numerals; what is assumed of `f64`
* `Json.Finite`, `Json.Same` — values of finite numbers; equality of values

## Main results

* `takes_string`, `takes_number` — the tokens
* `parse_serialize` — a value of finite numbers is read back as an equal one
-/

namespace Mimo26

namespace Api

variable {F : Type}

/-! ### What a parser takes -/

namespace P

variable {α β : Type}

/-- From `i` the parser reads `a` and leaves `o`, at any position. -/
def Takes (m : Parser α) (i : Text) (a : α) (o : Text) : Prop :=
  ∀ pos, ∃ pos', m ⟨pos, i⟩ = .ok a ⟨pos', o⟩

variable {m : Parser α} {f : α → Parser β} {i o o' : Text} {a : α} {b : β} {c : Char}

theorem Takes.bind (hm : Takes m i a o) (hf : Takes (f a) o b o') : Takes (m >>= f) i b o' := by
  intro pos
  obtain ⟨pos', hrun⟩ := hm pos
  obtain ⟨pos'', hrun'⟩ := hf pos'
  refine ⟨pos'', ?_⟩
  show EStateM.bind m f ⟨pos, i⟩ = .ok b ⟨pos'', o'⟩
  rw [EStateM.bind, hrun]
  exact hrun'

theorem takes_pure (a : α) (i : Text) : Takes (pure a) i a i := fun pos => ⟨pos, rfl⟩

theorem takes_peek (i : Text) : Takes peek i i.head? i := fun pos => ⟨pos, rfl⟩

theorem takes_bump (c : Char) (i : Text) : Takes bump (c :: i) (some c) i :=
  fun pos => ⟨pos + 1, rfl⟩

theorem takes_demand {ok : Prop} [Decidable ok] {text : ℕ → String} (h : ok) (i : Text) :
    Takes (demand ok text) i () i := by
  intro pos
  rw [demand, if_pos h]
  exact ⟨pos, rfl⟩

theorem takes_count (g : P → ℕ) (i : Text) :
    Takes (modify fun s => { s with i := g s }) i ⟨⟩ i := fun pos => ⟨g ⟨pos, i⟩, rfl⟩

/-- The characters that `p` holds of, where the next one is none of them. -/
theorem takes_takeAll {p : Char → Bool} {w : Text} (hw : ∀ c ∈ w, p c = true)
    (ho : ∀ c ∈ o.head?, p c = false) : Takes (takeAll p) (w ++ o) w o := by
  have hend : o.takeWhile p = [] ∧ o.dropWhile p = o := by
    cases o with
    | nil => exact ⟨rfl, rfl⟩
    | cons c o => simp [ho c rfl]
  have htake : (w ++ o).takeWhile p = w := by
    rw [List.takeWhile_append_of_pos hw, hend.1, List.append_nil]
  have hdrop : (w ++ o).dropWhile p = o := by
    rw [List.dropWhile_append_of_pos hw, hend.2]
  intro pos
  refine ⟨pos + w.length, ?_⟩
  rw [takeAll, htake, hdrop]

/-- No white space comes next. -/
def Tight (i : Text) : Prop := ∀ c ∈ i.head?, isWs c = false

theorem tight_cons (h : isWs c = false) (i : Text) : Tight (c :: i) := by
  intro d hd
  rwa [← Option.some.inj hd]

theorem takes_ws (h : Tight i) : Takes ws i () i :=
  (takes_takeAll (w := []) (List.forall_mem_nil _) h).bind (takes_pure () i)

theorem takes_lit (word : String) (v : Json F) (o : Text) :
    Takes (lit word v) (word.toList ++ o) v o := by
  intro pos
  have hdrop : (word.toList ++ o).drop word.length = o := by
    rw [← String.length_toList, List.drop_left]
  have hrun : lit word v ⟨pos, word.toList ++ o⟩ =
      (if word.toList <+: word.toList ++ o then do
        set (⟨pos + word.length, (word.toList ++ o).drop word.length⟩ : P)
        return v
      else fail fun i => s!"json: bad literal at {i}" : Parser (Json F)) ⟨pos, word.toList ++ o⟩ :=
        rfl
  rw [hrun, if_pos (List.prefix_append _ _), hdrop]
  exact ⟨pos + word.length, rfl⟩

theorem takes_optional {cs : Text} (h : c ∈ cs) (o : Text) :
    Takes (optional cs) (c :: o) [c] o := by
  intro pos
  refine ⟨pos + 1, ?_⟩
  exact if_pos h

theorem takes_optional_none {cs : Text} (h : ∀ c ∈ o.head?, c ∉ cs) :
    Takes (optional cs) o [] o := by
  intro pos
  rw [optional]
  cases o with
  | nil => exact ⟨pos, rfl⟩
  | cons c o =>
    refine ⟨pos, ?_⟩
    exact if_neg (h c rfl)

/-! ### Strings -/

theorem takes_hexDigit (error : String) (hex : ℕ) {d : ℕ} (h : digit? c = some d) (o : Text) :
    Takes (hexDigit error hex) (c :: o) (hex * 16 + d) o := by
  refine (takes_bump c o).bind ?_
  dsimp only
  rw [h]
  exact takes_pure _ o

/-- `{:04x}` of a control character. -/
theorem hex04_control : ∀ n < 32,
    hex04 n = ['0', '0', Nat.digitChar (n / 16), Nat.digitChar (n % 16)] := by
  decide

theorem digit?_digitChar : ∀ d < 16, digit? (Nat.digitChar d) = some d := by decide

theorem takes_hex4 {error : String} {n : ℕ} (h : n < 32) (o : Text) :
    Takes (hex4 error) (hex04 n ++ o) n o := by
  rw [hex04_control n h]
  have hzero : digit? '0' = some 0 := by decide
  have hhigh := digit?_digitChar (n / 16) (by omega)
  have hlow := digit?_digitChar (n % 16) (by omega)
  have hlast := takes_hexDigit error ((0 * 16 + 0) * 16 + 0 + n / 16) hlow o
  have hn : ((0 * 16 + 0) * 16 + 0 + n / 16) * 16 + n % 16 = n := by omega
  rw [hn] at hlast
  exact (takes_hexDigit error 0 hzero _).bind <| (takes_hexDigit error _ hzero _).bind <|
    (takes_hexDigit error _ hhigh _).bind hlast

theorem takes_unicodeEscape (h : c.toNat < 32) (o : Text) :
    Takes unicodeEscape (hex04 c.toNat ++ o) c o := by
  have hunit : Takes (codePoint c.toNat) o c.toNat o := by
    rw [codePoint, if_neg (by omega), if_neg (by omega)]
    exact takes_pure _ o
  have hchar : charOf c.toNat = some c := by
    rw [charOf, dif_pos (show c.toNat.isValidChar from c.valid)]
    exact congrArg some (Char.ext rfl)
  refine (takes_hex4 h o).bind (hunit.bind ?_)
  rw [hchar]
  exact takes_pure c o

/-- A letter after a backslash. -/
theorem takes_stringLoop_letter {e : Char} {out t : Text} {fuel : ℕ}
    (he : Takes escape (e :: i) c i) (h : Takes (stringLoop fuel (out ++ [c])) i t o) :
    Takes (stringLoop (fuel + 1) out) ('\\' :: e :: i) t o :=
  (takes_bump '\\' _).bind (he.bind h)

theorem takes_stringLoop_plain {out t : Text} {fuel : ℕ} (hquote : c ≠ '"') (hslash : c ≠ '\\')
    (h : Takes (stringLoop fuel (out ++ [c])) i t o) :
    Takes (stringLoop (fuel + 1) out) (c :: i) t o := by
  refine (takes_bump c i).bind ?_
  split
  · next hc => cases hc
  · next hc => exact absurd (Option.some.inj hc) hquote
  · next hc => exact absurd (Option.some.inj hc) hslash
  · next hc =>
    obtain rfl := Option.some.inj hc
    exact (takes_count _ i).bind h

/-- What the writer puts for a character is read as the character. -/
theorem takes_stringLoop_char {out t : Text} {fuel : ℕ}
    (h : Takes (stringLoop fuel (out ++ [c])) i t o) :
    Takes (stringLoop (fuel + 1) out) (escapeChar c ++ i) t o := by
  have hletter (e : Char) (he : Takes escape (e :: i) c i) := takes_stringLoop_letter he h
  rw [escapeChar]
  split_ifs with h₁ h₂ h₃ h₄ h₅ h₆
  iterate 5
    · subst c
      exact hletter _ ((takes_bump _ i).bind (takes_pure _ i))
  · exact (takes_bump '\\' _).bind (((takes_bump 'u' _).bind (takes_unicodeEscape h₆ i)).bind h)
  · exact takes_stringLoop_plain h₁ h₂ h

theorem takes_stringLoop (s out : Text) (fuel : ℕ) (h : s.length < fuel) (o : Text) :
    Takes (stringLoop fuel out) (s.flatMap escapeChar ++ '"' :: o) (out ++ s) o := by
  induction s generalizing out fuel with
  | nil =>
    obtain ⟨fuel, rfl⟩ := Nat.exists_eq_add_of_lt h
    rw [List.append_nil]
    exact (takes_bump '"' o).bind (takes_pure out o)
  | cons c s ih =>
    obtain ⟨fuel, rfl⟩ := Nat.exists_eq_add_of_lt (Nat.zero_lt_of_lt h)
    rw [Nat.zero_add] at h ⊢
    rw [List.flatMap_cons, List.append_assoc, List.append_cons out c s]
    exact takes_stringLoop_char (ih (out ++ [c]) fuel (Nat.lt_of_succ_lt_succ h))

theorem length_le_flatMap_escapeChar (s : Text) : s.length ≤ (s.flatMap escapeChar).length := by
  induction s with
  | nil => exact Nat.le_refl _
  | cons c s ih =>
    have hpos : 0 < (escapeChar c).length := by
      rw [escapeChar]
      split_ifs <;> simp
    rw [List.flatMap_cons, List.length_append, List.length_cons]
    omega

/-- **A string is read back** from what the writer puts for it. -/
theorem takes_string (s o : Text) : Takes string (writeString s ++ o) s o := by
  intro pos
  have hlen : s.length < (s.flatMap escapeChar ++ '"' :: o).length + 1 := by
    have hle := length_le_flatMap_escapeChar s
    rw [List.length_append]
    omega
  obtain ⟨pos', hrun⟩ := takes_stringLoop s [] _ hlen o (pos + 1)
  refine ⟨pos', ?_⟩
  rw [writeString, List.append_assoc, List.singleton_append]
  exact hrun

/-! ### Numbers -/

/-- A decimal numeral: an optional minus sign, digits, and digits after a point if there is one. -/
def Decimal (text : Text) : Prop :=
  ∃ sign int frac, text = sign ++ int ++ frac ∧ (sign = [] ∨ sign = ['-']) ∧
    int ≠ [] ∧ (∀ c ∈ int, c.isDigit = true) ∧
    (frac = [] ∨ ∃ ds, frac = '.' :: ds ∧ ∀ c ∈ ds, c.isDigit = true)

/-- No number goes on here. -/
def Ended (o : Text) : Prop := ∀ c ∈ o.head?, c.isDigit = false ∧ c ∉ ['.', 'e', 'E']

/-- **A numeral is read back**, where no number goes on behind it. -/
theorem takes_number [Fp64 F] {text o : Text} {n : F} (h : Decimal text) (ho : Ended o)
    (hparse : Fp64.parse text = some n) :
        Takes (number : Parser (Json F)) (text ++ o) (.num n) o := by
  obtain ⟨sign, int, frac, rfl, hsign, hne, hint, hfrac⟩ := h
  -- The sign is taken, or the first digit is none.
  have htakeSign : Takes (optional ['-']) (sign ++ (int ++ (frac ++ o))) sign
      (int ++ (frac ++ o)) := by
    rcases hsign with rfl | rfl
    · refine takes_optional_none fun c hc => ?_
      obtain ⟨d, ds, rfl⟩ := List.exists_cons_of_ne_nil hne
      obtain rfl := Option.some.inj hc
      intro hmem
      obtain rfl := List.mem_singleton.mp hmem
      exact absurd (hint '-' List.mem_cons_self) (by decide)
    · exact takes_optional (List.mem_singleton_self _) _
  have hexp : Takes exponent o [] o := by
    refine (takes_optional_none fun c hc hmem => ?_).bind (takes_pure _ o)
    exact (ho c hc).2 (List.mem_cons_of_mem _ hmem)
  have htakeFrac : Takes fraction (frac ++ o) frac o := by
    rcases hfrac with rfl | ⟨ds, rfl, hds⟩
    · refine (takes_optional_none fun c hc hmem => ?_).bind (takes_pure _ o)
      exact (ho c hc).2 (List.mem_singleton.mp hmem ▸ List.mem_cons_self)
    · refine (takes_optional (List.mem_singleton_self _) _).bind ?_
      exact (takes_takeAll hds fun c hc => (ho c hc).1).bind (takes_pure _ o)
  have hstop : ∀ c ∈ (frac ++ o).head?, c.isDigit = false := by
    rcases hfrac with rfl | ⟨ds, rfl, -⟩
    · exact fun c hc => (ho c hc).1
    · intro c hc
      rw [← Option.some.inj hc]
      decide
  rw [List.append_assoc, List.append_assoc]
  refine htakeSign.bind ((takes_takeAll hint hstop).bind (htakeFrac.bind (hexp.bind ?_)))
  rw [List.append_nil]
  dsimp only
  rw [hparse]
  exact takes_pure _ o

end P

/-! ### Values -/

/-- What the codec needs of `f64`: the integer of a finite whole number, and the numeral that a
finite number is displayed as, are read as an equal number. -/
structure Fp64Exact (F : Type) [Fp64 F] (eq : F → F → Prop) (finite : F → Prop) : Prop where
  whole : ∀ n k, finite n → Fp64.whole n = some k →
    ∃ m : F, Fp64.parse (toString k).toList = some m ∧ eq m n
  decimal : ∀ n, finite n → P.Decimal (Fp64.display n)
  display : ∀ n, finite n → ∃ m : F, Fp64.parse (Fp64.display n) = some m ∧ eq m n

mutual

/-- Every number of the value is finite. -/
def Json.Finite (finite : F → Prop) : Json F → Prop
  | .num n => finite n
  | .array items => FiniteItems finite items
  | .object pairs => FinitePairs finite pairs
  | .null | .bool _ | .str _ => True

def FiniteItems (finite : F → Prop) : List (Json F) → Prop
  | [] => True
  | v :: items => v.Finite finite ∧ FiniteItems finite items

def FinitePairs (finite : F → Prop) : List (Text × Json F) → Prop
  | [] => True
  | p :: pairs => p.2.Finite finite ∧ FinitePairs finite pairs

end

mutual

/-- `==` of values, by that of numbers. -/
def Json.Same (eq : F → F → Prop) : Json F → Json F → Prop
  | .null, .null => True
  | .bool b, .bool b' => b = b'
  | .num n, .num n' => eq n n'
  | .str s, .str s' => s = s'
  | .array items, .array items' => SameItems eq items items'
  | .object pairs, .object pairs' => SamePairs eq pairs pairs'
  | _, _ => False

def SameItems (eq : F → F → Prop) : List (Json F) → List (Json F) → Prop
  | [], [] => True
  | v :: items, v' :: items' => v.Same eq v' ∧ SameItems eq items items'
  | _, _ => False

def SamePairs (eq : F → F → Prop) : List (Text × Json F) → List (Text × Json F) → Prop
  | [], [] => True
  | p :: pairs, p' :: pairs' => p.1 = p'.1 ∧ p.2.Same eq p'.2 ∧ SamePairs eq pairs pairs'
  | _, _ => False

end

theorem decimal_toString (k : ℤ) : P.Decimal (toString k).toList := by
  have hdigits (n : ℕ) : Nat.toDigits 10 n ≠ [] ∧ ∀ c ∈ Nat.toDigits 10 n, c.isDigit = true :=
    ⟨Nat.toDigits_ne_nil, fun c hc => Nat.isDigit_of_mem_toDigits (by decide) (by decide) hc⟩
  cases k with
  | ofNat n =>
    obtain ⟨hne, hall⟩ := hdigits n
    exact ⟨[], Nat.toDigits 10 n, [], by simp [toString, Int.repr, Nat.repr], .inl rfl, hne, hall,
      .inl rfl⟩
  | negSucc n =>
    obtain ⟨hne, hall⟩ := hdigits (n + 1)
    exact ⟨['-'], Nat.toDigits 10 (n + 1),
      [], by simp [toString, Int.repr, Nat.repr], .inr rfl, hne,
      hall, .inl rfl⟩

variable [Fp64 F] {eq : F → F → Prop} {finite : F → Prop}

/-- A finite number is written as a numeral that is read as an equal number. -/
theorem decimal_serialize (h : Fp64Exact F eq finite) {n : F} (hn : finite n) :
    ∃ m : F, P.Decimal (Json.num n).serialize ∧ Fp64.parse (Json.num n).serialize = some m ∧
        eq m n := by
  rw [Json.serialize]
  cases hwhole : Fp64.whole n with
  | some k =>
    obtain ⟨m, hm, heq⟩ := h.whole n k hn hwhole
    exact ⟨m, decimal_toString k, hm, heq⟩
  | none =>
    obtain ⟨m, hm, heq⟩ := h.display n hn
    exact ⟨m, h.decimal n hn, hm, heq⟩

/-- The first character of a numeral. -/
theorem P.Decimal.head {text : Text} (h : P.Decimal text) :
    ∃ c w, text = c :: w ∧ (c = '-' ∨ c.isDigit = true) := by
  obtain ⟨sign, int, frac, rfl, hsign, hne, hint, -⟩ := h
  rcases hsign with rfl | rfl
  · obtain ⟨d, ds, rfl⟩ := List.exists_cons_of_ne_nil hne
    exact ⟨d, ds ++ frac, rfl, .inr (hint d List.mem_cons_self)⟩
  · exact ⟨'-', int ++ frac, rfl, .inl rfl⟩

/-- A value is written without white space before it, and does not begin as a list ends. -/
theorem exists_head (h : Fp64Exact F eq finite) {v : Json F} (hv : v.Finite finite) :
    ∃ c t, v.serialize = c :: t ∧ P.isWs c = false ∧ c ≠ ']' := by
  cases v with
  | num n =>
    rw [Json.Finite] at hv
    obtain ⟨m, hdecimal, -⟩ := decimal_serialize h hv
    obtain ⟨c, w, heq, hc⟩ := hdecimal.head
    have hnot (d : Char) (hd : d ≠ '-' ∧ d.isDigit = false) : c ≠ d := by
      rintro rfl
      exact hc.elim hd.1 fun hdigit => Bool.false_ne_true (hd.2.symm.trans hdigit)
    have hws : P.isWs c = false := by
      simp [P.isWs, hnot ' ' (by decide), hnot '\t' (by decide), hnot '\n' (by decide),
        hnot '\r' (by decide)]
    exact ⟨c, w, heq, hws, hnot ']' (by decide)⟩
  | null => exact ⟨'n', _, by rw [Json.serialize]; rfl, by decide⟩
  | bool b =>
    cases b with
    | true => exact ⟨'t', _, by rw [Json.serialize]; rfl, by decide⟩
    | false => exact ⟨'f', _, by rw [Json.serialize]; rfl, by decide⟩
  | str s => exact ⟨'"', _, by rw [Json.serialize, writeString]; rfl, by decide⟩
  | array items => exact ⟨'[', _, by rw [Json.serialize]; rfl, by decide⟩
  | object pairs => exact ⟨'\x7b', _, by rw [Json.serialize]; rfl, by decide⟩

/-- What is written for the value is read as an equal value. -/
def ReadsBack (eq : F → F → Prop) (finite : F → Prop) (v : Json F) : Prop :=
  v.Finite finite → ∀ fuel o, 2 * v.serialize.length + 1 ≤ fuel → P.Ended o →
    ∃ w, w.Same eq v ∧ P.Takes (P.value fuel) (v.serialize ++ o) w o

namespace P

/-- A token that begins neither with white space nor with a bracket, and what stands behind it. -/
theorem tight_serialize (h : Fp64Exact F eq finite) {v : Json F} (hv : v.Finite finite) (o : Text) :
    Tight (v.serialize ++ o) := by
  obtain ⟨c, t, heq, hws, -⟩ := exists_head h hv
  rw [heq]
  exact tight_cons hws _

theorem ended_cons {c : Char} (h : c.isDigit = false ∧ c ∉ ['.', 'e', 'E']) (o : Text) :
    Ended (c :: o) := by
  intro d hd
  rwa [← Option.some.inj hd]

/-- The items of an array, from the first one to the bracket. -/
theorem takes_elements (h : Fp64Exact F eq finite) {items : List (Json F)} {v : Json F}
    (hback : ∀ x ∈ v :: items, ReadsBack eq finite x) (hfinite : FiniteItems finite (v :: items))
    (fuel : ℕ) (out : List (Json F))
    (hfuel : 2 * (v.serialize ++ serializeItems false items).length + 2 ≤ fuel) (o : Text) :
    ∃ ws, SameItems eq ws (v :: items) ∧
      Takes (elements fuel out) (v.serialize ++ (serializeItems false items ++ ']' :: o))
        (.array (out ++ ws)) o := by
  induction items generalizing v fuel out with
  | nil =>
    obtain ⟨fuel, rfl⟩ : ∃ n, fuel = n + 1 := ⟨fuel - 1, by omega⟩
    have hends : Ended (']' :: o) := ended_cons (by decide) o
    rw [serializeItems, List.append_nil] at hfuel
    obtain ⟨w, hsame, hw⟩ := hback v List.mem_cons_self hfinite.1 fuel (']' :: o) (by omega) hends
    refine ⟨[w], ⟨hsame, trivial⟩, ?_⟩
    rw [elements, serializeItems, List.nil_append]
    refine (takes_ws (tight_serialize h hfinite.1 _)).bind (hw.bind ?_)
    refine (takes_ws (tight_cons (by decide) o)).bind ((takes_bump ']' o).bind ?_)
    exact takes_pure _ o
  | cons v' items ih =>
    obtain ⟨fuel, rfl⟩ : ∃ n, fuel = n + 1 := ⟨fuel - 1, by omega⟩
    obtain ⟨hv, hfinite⟩ := hfinite
    have hback' := (List.forall_mem_cons.mp hback).2
    rw [serializeItems, if_neg Bool.false_ne_true] at hfuel
    simp only [List.length_append, List.length_singleton] at hfuel
    have htail : Ended (',' :: (v'.serialize ++ (serializeItems false items ++ ']' :: o))) :=
      ended_cons (by decide) _
    obtain ⟨w, hsame, hw⟩ := hback v List.mem_cons_self hv fuel _ (by omega) htail
    obtain ⟨ws, hsames, hws⟩ := ih hback' hfinite fuel (out ++ [w])
      (by rw [List.length_append]; omega)
    refine ⟨w :: ws, ⟨hsame, hsames⟩, ?_⟩
    rw [elements, serializeItems, if_neg Bool.false_ne_true, List.append_assoc, List.append_assoc,
      List.singleton_append]
    refine (takes_ws (tight_serialize h hv _)).bind (hw.bind ?_)
    refine (takes_ws (tight_cons (by decide) _)).bind ((takes_bump ',' _).bind ?_)
    rw [List.append_assoc] at hws
    exact hws

omit [Fp64 F] in
/-- The key of a pair, through its colon. -/
theorem takes_key (key t : Text) {f : Text → Parser (Json F)} {v : Json F} {text text' : ℕ → String}
    (hf : Takes (f key) t v o) :
    Takes (do
      ws
      let quote ← peek
      demand (quote = some '"') text
      let key ← string
      ws
      let colon ← bump
      demand (colon = some ':') text'
      f key) (writeString key ++ ':' :: t) v o := by
  have hquote : Tight (writeString key ++ ':' :: t) := tight_cons (by decide) _
  refine (takes_ws hquote).bind ((takes_peek _).bind ((takes_demand rfl _).bind ?_))
  refine (takes_string key _).bind ((takes_ws (tight_cons (by decide) t)).bind ?_)
  exact (takes_bump ':' t).bind ((takes_demand rfl t).bind hf)

theorem serializePairs_first (p : Text × Json F) (pairs : List (Text × Json F)) (t : Text) :
    serializePairs true (p :: pairs) ++ t =
      writeString p.1 ++ ':' :: (p.2.serialize ++ (serializePairs false pairs ++ t)) := by
  simp [serializePairs]

theorem serializePairs_next (p : Text × Json F) (pairs : List (Text × Json F)) :
    serializePairs false (p :: pairs) = ',' :: serializePairs true (p :: pairs) := by
  simp [serializePairs]

/-- The pairs of an object, from the first key to the brace. -/
theorem takes_members (h : Fp64Exact F eq finite) {pairs : List (Text × Json F)} {p : Text × Json F}
    (hback : ∀ x ∈ p :: pairs, ReadsBack eq finite x.2) (hfinite : FinitePairs finite (p :: pairs))
    (fuel : ℕ) (out : List (Text × Json F))
    (hfuel : 2 * (serializePairs true (p :: pairs)).length + 2 ≤ fuel) (o : Text) :
    ∃ ws, SamePairs eq ws (p :: pairs) ∧
      Takes (members fuel out) (serializePairs true (p :: pairs) ++ '\x7d' :: o)
        (.object (out ++ ws)) o := by
  induction pairs generalizing p fuel out with
  | nil =>
    obtain ⟨fuel, rfl⟩ : ∃ n, fuel = n + 1 := ⟨fuel - 1, by omega⟩
    have hlen := congrArg List.length (serializePairs_first p [] [])
    simp only [List.append_nil, List.length_append, List.length_cons] at hlen
    have hends : Ended ('\x7d' :: o) := ended_cons (by decide) o
    obtain ⟨w, hsame, hw⟩ := hback p List.mem_cons_self hfinite.1 fuel _ (by omega) hends
    refine ⟨[(p.1, w)], ⟨rfl, hsame, trivial⟩, ?_⟩
    rw [members, serializePairs_first, serializePairs, List.nil_append]
    refine takes_key p.1 _ ((takes_ws (tight_serialize h hfinite.1 _)).bind (hw.bind ?_))
    refine (takes_ws (tight_cons (by decide) o)).bind ((takes_bump '\x7d' o).bind ?_)
    exact takes_pure _ o
  | cons p' pairs ih =>
    obtain ⟨fuel, rfl⟩ : ∃ n, fuel = n + 1 := ⟨fuel - 1, by omega⟩
    have hlen := congrArg List.length (serializePairs_first p (p' :: pairs) [])
    rw [serializePairs_next] at hlen
    simp only [List.append_nil, List.length_append, List.length_cons] at hlen
    obtain ⟨hv, hfinite⟩ := hfinite
    have hback' := (List.forall_mem_cons.mp hback).2
    have htail : Ended (',' :: (serializePairs true (p' :: pairs) ++ '\x7d' :: o)) :=
      ended_cons (by decide) _
    obtain ⟨w, hsame, hw⟩ := hback p List.mem_cons_self hv fuel _ (by omega) htail
    obtain ⟨ws, hsames, hws⟩ := ih hback' hfinite fuel (out ++ [(p.1, w)]) (by omega)
    refine ⟨(p.1, w) :: ws, ⟨rfl, hsame, hsames⟩, ?_⟩
    rw [members, serializePairs_first, serializePairs_next]
    refine takes_key p.1 _ ((takes_ws (tight_serialize h hv _)).bind (hw.bind ?_))
    refine (takes_ws (tight_cons (by decide) _)).bind ((takes_bump ',' _).bind ?_)
    rw [List.append_assoc] at hws
    exact hws

omit [Fp64 F] in
/-- A list that closes at once. -/
theorem takes_opened_empty {first close : Char} (hclose : isWs close = false) {empty : Json F}
    {contents : Parser (Json F)} (o : Text) :
    Takes (opened close empty contents) (first :: close :: o) empty o := by
  refine (takes_bump first _).bind ((takes_ws (tight_cons hclose o)).bind ((takes_peek _).bind ?_))
  rw [if_pos (by rfl)]
  exact (takes_bump close o).bind (takes_pure empty o)

omit [Fp64 F] in
/-- A list that does not. -/
theorem takes_opened {first close : Char} {empty v : Json F} {contents : Parser (Json F)} {t : Text}
    (hws : Tight t) (hne : t.head? ≠ some close) (h : Takes contents t v o) :
    Takes (opened close empty contents) (first :: t) v o := by
  refine (takes_bump first t).bind ((takes_ws hws).bind ((takes_peek t).bind ?_))
  rw [if_neg hne]
  exact h

theorem takes_value_number {text : Text} {n : F} {fuel : ℕ} (h : Decimal text) (ho : Ended o)
    (hparse : Fp64.parse text = some n) :
    Takes (value (fuel + 1) : Parser (Json F)) (text ++ o) (.num n) o := by
  have htake := takes_number h ho hparse
  obtain ⟨c, w, rfl, hc⟩ := h.head
  have hnot (d : Char) (hd : d ≠ '-' ∧ d.isDigit = false) : c ≠ d := by
    rintro rfl
    exact hc.elim hd.1 fun hdigit => Bool.false_ne_true (hd.2.symm.trans hdigit)
  rw [value]
  refine (takes_peek _).bind ?_
  rw [List.cons_append, List.head?_cons]
  split
  iterate 6
    · next hd => exact absurd (Option.some.inj hd) (hnot _ (by decide))
  · next hd =>
    obtain rfl := Option.some.inj hd
    rw [if_pos hc]
    exact htake
  · next hd => cases hd

end P

/-! ### Whole values -/

theorem readsBack_array (h : Fp64Exact F eq finite) {items : List (Json F)}
    (hback : ∀ x ∈ items, ReadsBack eq finite x) : ReadsBack eq finite (.array items) := by
  intro hfinite fuel o hfuel _
  obtain ⟨fuel, rfl⟩ : ∃ n, fuel = n + 1 := ⟨fuel - 1, by omega⟩
  rw [Json.Finite] at hfinite
  rw [Json.serialize] at hfuel ⊢
  cases items with
  | nil =>
    rw [P.value, serializeItems]
    exact ⟨.array [], trivial, (P.takes_peek _).bind (P.takes_opened_empty (by decide) o)⟩
  | cons v items =>
    have hfirst : serializeItems true (v :: items) = v.serialize ++ serializeItems false items := by
      simp [serializeItems]
    rw [hfirst] at hfuel ⊢
    simp only [List.length_cons, List.length_append, List.length_nil] at hfuel
    obtain ⟨ws, hsame, hws⟩ := P.takes_elements h hback hfinite fuel []
      (by rw [List.length_append]; omega) o
    refine ⟨.array ws, hsame, ?_⟩
    obtain ⟨c, t, hhead, hspace, hclose⟩ := exists_head h hfinite.1
    have htext : '[' :: (v.serialize ++ serializeItems false items) ++ [']'] ++ o =
        '[' :: (v.serialize ++ (serializeItems false items ++ ']' :: o)) := by simp
    rw [P.value, htext]
    refine (P.takes_peek _).bind (P.takes_opened (P.tight_serialize h hfinite.1 _) ?_ hws)
    rw [hhead]
    exact fun hc => hclose (Option.some.inj hc)

theorem readsBack_object (h : Fp64Exact F eq finite) {pairs : List (Text × Json F)}
    (hback : ∀ x ∈ pairs, ReadsBack eq finite x.2) : ReadsBack eq finite (.object pairs) := by
  intro hfinite fuel o hfuel _
  obtain ⟨fuel, rfl⟩ : ∃ n, fuel = n + 1 := ⟨fuel - 1, by omega⟩
  rw [Json.Finite] at hfinite
  rw [Json.serialize] at hfuel ⊢
  cases pairs with
  | nil =>
    rw [P.value, serializePairs]
    exact ⟨.object [], trivial, (P.takes_peek _).bind (P.takes_opened_empty (by decide) o)⟩
  | cons p pairs =>
    simp only [List.length_cons, List.length_append, List.length_nil] at hfuel
    obtain ⟨ws, hsame, hws⟩ := P.takes_members h hback hfinite fuel [] (by omega) o
    refine ⟨.object ws, hsame, ?_⟩
    have htext : '\x7b' :: serializePairs true (p :: pairs) ++ ['\x7d'] ++ o =
        '\x7b' :: (serializePairs true (p :: pairs) ++ '\x7d' :: o) := by simp
    rw [P.value, htext]
    refine (P.takes_peek _).bind (P.takes_opened ?_ ?_ hws)
    · rw [P.serializePairs_first, writeString]
      exact P.tight_cons (by decide) _
    · rw [P.serializePairs_first, writeString]
      exact fun hc => absurd (Option.some.inj hc) (by decide)

mutual

/-- **Every value of finite numbers is read back**, whatever follows it. -/
theorem readsBack (h : Fp64Exact F eq finite) : (v : Json F) → ReadsBack eq finite v
  | .null => by
    intro _ fuel o hfuel _
    obtain ⟨fuel, rfl⟩ : ∃ n, fuel = n + 1 := ⟨fuel - 1, by omega⟩
    refine ⟨.null, trivial, ?_⟩
    rw [P.value, Json.serialize]
    exact (P.takes_peek _).bind (P.takes_lit "null" .null o)
  | .bool b => by
    intro _ fuel o hfuel _
    obtain ⟨fuel, rfl⟩ : ∃ n, fuel = n + 1 := ⟨fuel - 1, by omega⟩
    refine ⟨.bool b, rfl, ?_⟩
    rw [P.value, Json.serialize]
    cases b with
    | true => exact (P.takes_peek _).bind (P.takes_lit "true" (.bool true) o)
    | false => exact (P.takes_peek _).bind (P.takes_lit "false" (.bool false) o)
  | .num n => by
    intro hn fuel o hfuel ho
    obtain ⟨fuel, rfl⟩ : ∃ n, fuel = n + 1 := ⟨fuel - 1, by omega⟩
    obtain ⟨m, hdecimal, hparse, heq⟩ := decimal_serialize h hn
    exact ⟨.num m, heq, P.takes_value_number hdecimal ho hparse⟩
  | .str s => by
    intro _ fuel o hfuel _
    obtain ⟨fuel, rfl⟩ : ∃ n, fuel = n + 1 := ⟨fuel - 1, by omega⟩
    refine ⟨.str s, rfl, ?_⟩
    rw [P.value, Json.serialize]
    exact (P.takes_peek _).bind ((P.takes_string s o).bind (P.takes_pure _ o))
  | .array items => readsBack_array h (readsBack_items h items)
  | .object pairs => readsBack_object h (readsBack_pairs h pairs)

theorem readsBack_items (h : Fp64Exact F eq finite) :
    (items : List (Json F)) → ∀ x ∈ items, ReadsBack eq finite x
  | [] => List.forall_mem_nil _
  | v :: items => List.forall_mem_cons.mpr ⟨readsBack h v, readsBack_items h items⟩

theorem readsBack_pairs (h : Fp64Exact F eq finite) :
    (pairs : List (Text × Json F)) → ∀ x ∈ pairs, ReadsBack eq finite x.2
  | [] => List.forall_mem_nil _
  | p :: pairs => List.forall_mem_cons.mpr ⟨readsBack h p.2, readsBack_pairs h pairs⟩

end

/-- **The codec reads back what it writes**: a value of finite numbers, up to `==` of numbers. -/
theorem parse_serialize (h : Fp64Exact F eq finite) {v : Json F} (hv : v.Finite finite) :
    ∃ w : Json F, Json.parse v.serialize = .ok w ∧ w.Same eq v := by
  obtain ⟨w, hsame, hw⟩ := readsBack h v hv (2 * v.serialize.length + 1) [] (Nat.le_refl _)
    fun c hc => by cases hc
  rw [List.append_nil] at hw
  have hdocument : P.Takes (P.document (2 * v.serialize.length + 1)) v.serialize w [] := by
    have htight := P.tight_serialize h hv []
    rw [List.append_nil] at htight
    refine (P.takes_ws htight).bind (hw.bind ((P.takes_ws fun c hc => by cases hc).bind ?_))
    exact fun pos => ⟨pos, rfl⟩
  obtain ⟨pos, hrun⟩ := hdocument 0
  exact ⟨w, by rw [Json.parse, hrun], hsame⟩

/-- Whole numbers that `f64` represents exactly, as a model of its operations. -/
instance : Fp64 ℕ where
  parse text := Numerals.readUnsigned 10 (2 ^ 53) text
  whole n := some n
  display n := Nat.toDigits 10 n

theorem fp64Exact_nat : Fp64Exact ℕ (· = ·) (· < 2 ^ 53) := by
  have hread (n : ℕ) (hn : n < 2 ^ 53) : Numerals.readUnsigned 10 (2 ^ 53) (Nat.toDigits 10 n) =
      some n :=
    @Numerals.readUnsigned_toDigits 10 (by decide) (by decide) (2 ^ 53) n hn 0
  have htext (n : ℕ) : (toString (n : ℤ)).toList = Nat.toDigits 10 n := by
    simp [toString, Int.repr, Nat.repr]
  refine ⟨?_, ?_, ?_⟩
  · intro n k hn hk
    obtain rfl := Option.some.inj hk
    exact ⟨n, by rw [htext]; exact hread n hn, rfl⟩
  · intro n _
    have hdecimal := decimal_toString n
    rwa [htext] at hdecimal
  · intro n hn
    exact ⟨n, hread n hn, rfl⟩

theorem parse_serialize_seven : ∃ w : Json ℕ,
    Json.parse (Json.object [("k\n".toList, Json.array [.num (7 : ℕ), .bool true])]).serialize =
      .ok w ∧
      w.Same (· = ·) (.object [("k\n".toList, .array [.num 7, .bool true])]) := by
  have hfinite : (7 : ℕ) < 2 ^ 53 := by decide
  exact parse_serialize fp64Exact_nat ⟨⟨hfinite, trivial, trivial⟩, trivial⟩

end Api

end Mimo26

import Mimo26.Repack.JsonScan

/-!
# When the strict parser reads a text as the RFC does

The parser takes what the grammar of RFC 8259 has, over numbers and escapes of its own: digits after
a leading zero, a plus sign for the first digit of an escape, and bytes for the characters of a
string. An accepted text is one of the RFC, with the value the RFC gives it, exactly when it has
none of these.

## Main definitions

* `taken` — the numbers and escapes of the parser

## Main results

* `isText_seen` — what is accepted is a text of the parser's grammar
* `isText_iff_clean` — when it is one of the RFC
-/

namespace Mimo26

namespace Repack

namespace Rfc8259

open Reader Runs JsonText

/-! ### The grammar of the parser -/

/-- Digits, behind an optional minus sign. -/
def TakenNumber (t : List Char) (n : ℕ) (r : List Char) : Prop :=
  ∃ (sign digits : List Char) (m : ℕ), t = sign ++ (digits ++ r) ∧
    (∀ d ∈ digits, d.isDigit = true) ∧ digits ≠ [] ∧ Numerals.numeral 10 0 digits = some m ∧
    (sign = [] ∧ n = m ∨ sign = ['-'] ∧ (n : ℤ) = -m)

/-- A letter, or a number as `from_str_radix` reads four bytes. -/
inductive TakenEscape : List Char → Char → List Char → Prop
  | letter {e c : Char} {r : List Char} (h : (e, c) ∈ letters) : TakenEscape (e :: r) c r
  | unicode {hex r hex' : List Char} {n : ℕ} {c : Char} (hlen : hex.length = 4)
      (hutf8 : Utf8.fromUtf8 (hex.map fun d => d.toNat.toUInt8) = .ok hex')
      (hread : Numerals.readUnsigned 16 (2 ^ 32) hex' = some n) (hc : fromU32 n = some c) :
      TakenEscape ('u' :: (hex ++ r)) c r

def taken : Lexis := ⟨TakenNumber, TakenEscape⟩

variable {t r : List Char} {n : ℕ} {c : Char}

theorem scans_taken : Scans taken True := by
  constructor
  · rintro t n r ⟨sign, digits, m, rfl, hdigits, -, -, hvalue⟩
    exact passes_signed (hvalue.imp And.left And.left) hdigits
  · intro t c r h
    cases h with
    | letter h => exact ⟨0, fun _ => rfl, passes_letter (ne_u_of_mem_letters h)⟩
    | unicode hlen _ _ _ => exact ⟨0, fun _ => rfl, passes_hex hlen⟩

/-- Lexical digits have no leading zero. -/
theorem isInt_of_along {digits : List Char} (hdigits : ∀ d ∈ digits, d.isDigit = true)
    (hne : digits ≠ []) (halong : Along Place.next Lexical .start (digits ++ r)) :
    IsInt digits := by
  obtain ⟨d, ds, rfl⟩ := List.exists_cons_of_ne_nil hne
  by_cases hzero : d = '0'
  · subst hzero
    cases ds with
    | nil => exact .inl rfl
    | cons e ds =>
      have he : e.isDigit = true := hdigits e (by simp)
      exact absurd ⟨rfl, he⟩ halong.2.1.1
  · exact .inr ⟨hdigits, hne, fun h => hzero (Option.some.inj h)⟩

theorem number_of_taken (h : TakenNumber t n r) (halong : Along Place.next Lexical .start t) :
    number t n r := by
  obtain ⟨sign, digits, m, rfl, hdigits, hne, hm, hvalue⟩ := h
  have hstart : Along Place.next Lexical .start (digits ++ r) := by
    rcases hvalue with ⟨rfl, -⟩ | ⟨rfl, -⟩
    · exact halong
    · exact halong.2
  exact ⟨sign, digits, m, rfl, isInt_of_along hdigits hne hstart, hm, hvalue⟩

theorem ascii_of_along_hexes {ds : List Char} {m : ℕ} (hlen : ds.length = m + 1)
    (halong : Along Place.next Lexical (.hex m) (ds ++ r)) : ∀ d ∈ ds, d.toNat < 128 := by
  have hlexical {d : Char} {k : ℕ} (h : Lexical (.hex k) d) : d.toNat < 128 :=
    h.2.2.resolve_right (by simp)
  induction m generalizing ds with
  | zero =>
    obtain ⟨d, rfl⟩ := List.length_eq_one_iff.mp hlen
    exact List.forall_mem_singleton.mpr (hlexical halong.1)
  | succ m ih =>
    obtain ⟨d, ds, rfl⟩ := List.exists_cons_of_length_eq_add_one hlen
    exact List.forall_mem_cons.mpr ⟨hlexical halong.1, ih (Nat.succ.inj hlen) halong.2⟩

theorem numeral_of_readUnsigned {radix bound : ℕ} {s : List Char}
    (h : Numerals.readUnsigned radix bound s = some n) (hplus : s.head? ≠ some '+') :
    Numerals.numeral radix 0 s = some n := by
  rw [Numerals.readUnsigned, if_neg hplus] at h
  split at h
  · cases h
  · exact (Option.filter_eq_some_iff.mp h).1

theorem escape_of_taken (h : TakenEscape t c r) (halong : Along Place.next Lexical .slash t) :
    Escape t c r := by
  cases h with
  | letter h => exact .letter h
  | @unicode hex r hex' n c hlen hutf8 hread hc =>
    have hascii := ascii_of_along_hexes hlen halong.2
    rw [← encode_ascii hascii, Utf8.fromUtf8_encode] at hutf8
    obtain rfl := Except.ok.inj hutf8
    have hplus : hex.head? ≠ some '+' := by
      intro h
      obtain ⟨ds, rfl⟩ := List.head?_eq_some_iff.mp h
      exact halong.2.1.2.1 ⟨rfl, rfl⟩
    exact .unicode ⟨hlen, numeral_of_readUnsigned hread hplus⟩ hc

theorem converts_taken : Converts taken := ⟨number_of_taken, escape_of_taken⟩

/-! ### What the parser takes -/

variable {s : Cursor Char}

theorem ws_dropWhile (t : List Char) :
    Ws t (t.dropWhile fun c => decide (c = ' ' ∨ c = '\t' ∨ c = '\n' ∨ c = '\r')) := by
  induction t with
  | nil => exact .nil
  | cons c t ih =>
    rw [List.dropWhile_cons]
    split
    · next hc => exact .cons (of_decide_eq_true hc) ih
    · exact .nil

theorem ends_ws : Ends s ws fun _ s' => Ws s.rest s'.rest := by
  refine (reads_takeWhile _).ends.bind fun taken s' h => ends_pure ?_
  rw [h.2]
  exact ws_dropWhile s.rest

theorem ends_peek : Ends s peek fun got s' => s.rest.head? = got ∧ s' = s :=
  reads_peek.ends.mono fun _ _ h => ⟨h.1.symm, h.2⟩

/-- The byte that was peeked at is taken. -/
theorem ends_bump (h : s.rest.head? = some c) : Ends s bump fun _ s' => s.rest = c :: s'.rest := by
  obtain ⟨r, hr⟩ := List.head?_eq_some_iff.mp h
  refine reads_bump.ends.mono fun _ s' hs' => ?_
  rw [hs', hr]
  rfl

theorem ends_expect (c : Char) : Ends s (expect c) fun _ s' => s.rest = c :: s'.rest := by
  refine ends_peek.bind ?_
  rintro got s₁ ⟨hgot, rfl⟩
  refine reads_demand.ends.bind ?_
  rintro _ s₂ ⟨rfl, rfl⟩
  exact ends_bump hgot

theorem ends_more (close : Char) (text : Option Char → ℕ → String) :
    Ends s (more close text) fun again s' =>
      (again = true ∧ s.rest = ',' :: s'.rest) ∨ (again = false ∧ s.rest = close :: s'.rest) := by
  refine ends_peek.bind ?_
  rintro got s₁ ⟨hgot, rfl⟩
  cases got with
  | none => exact ends_refuse _
  | some c =>
    refine reads_demand.ends.bind ?_
    rintro _ s₂ ⟨hc, rfl⟩
    refine (ends_bump hgot).bind fun _ s₃ h₃ => ends_pure ?_
    by_cases hcomma : c = ','
    · exact .inl ⟨decide_eq_true hcomma, hcomma ▸ h₃⟩
    · exact .inr ⟨decide_eq_false hcomma, hc.resolve_left hcomma ▸ h₃⟩

theorem ends_unicodeEscape : Ends s unicodeEscape fun c s' =>
    TakenEscape ('u' :: s.rest) c s'.rest := by
  refine (reads_next 4).ends.bind ?_
  rintro got s₁ ⟨rfl, rfl⟩
  by_cases hlen : 4 ≤ s₁.rest.length
  · rw [if_pos hlen]
    dsimp only
    cases hutf8 : Utf8.fromUtf8 ((s₁.rest.take 4).map fun c => c.toNat.toUInt8) with
    | error e => exact ends_refuse _
    | ok hex =>
      dsimp only
      cases hread : Numerals.readUnsigned 16 (2 ^ 32) hex with
      | none => exact ends_refuse _
      | some cp =>
        refine (reads_advance 4).ends.bind fun _ s₂ h₂ => ?_
        cases hc : fromU32 cp with
        | none => exact ends_refuse _
        | some c =>
          refine ends_pure ?_
          have hescape := TakenEscape.unicode (r := s₂.rest) (List.length_take_of_le hlen) hutf8
            hread hc
          rwa [h₂, List.take_append_drop, ← h₂] at hescape
  · rw [if_neg hlen]
    exact ends_refuse _

theorem ends_escape : Ends s escape fun c s' => TakenEscape s.rest c s'.rest := by
  refine ends_peek.bind ?_
  rintro got s₁ ⟨hgot, rfl⟩
  cases got with
  | none => exact ends_refuse _
  | some e =>
    refine (ends_bump hgot).bind fun _ s₂ h₂ => ?_
    rw [h₂]
    split
    case h_9 => exact ends_unicodeEscape
    case h_10 => exact ends_refuse _
    all_goals exact ends_pure (.letter (by decide))

theorem ends_stringLoop (fuel : ℕ) (out : List Char) :
    Ends s (stringLoop control fuel out) fun text s' =>
      ∃ cs, text = out ++ cs ∧ Chars taken s.rest cs s'.rest := by
  induction fuel generalizing s out with
  | zero => exact fun _ _ h => by cases h
  | succ fuel ih =>
    refine ends_peek.bind ?_
    rintro got s₁ ⟨hgot, rfl⟩
    cases got with
    | none => exact ends_refuse _
    | some c =>
      refine (ends_bump hgot).bind fun _ s₂ h₂ => ?_
      rw [h₂]
      refine .ite (fun hquote => ?_) fun hquote => .ite (fun hslash => ?_) fun hslash => ?_
      · exact ends_pure ⟨[], (List.append_nil out).symm, hquote ▸ .done⟩
      · refine ends_escape.bind fun e s₃ h₃ => (ih (out ++ [e])).mono ?_
        rintro text s₄ ⟨cs, rfl, hcs⟩
        exact ⟨e :: cs, List.append_assoc out [e] cs, hslash ▸ .escape h₃ hcs⟩
      · refine reads_demand.ends.bind ?_
        rintro _ s₃ ⟨hcontrol, rfl⟩
        refine (ih (out ++ [c])).mono ?_
        rintro text s₄ ⟨cs, rfl, hcs⟩
        have hge : 0x20 ≤ c.toNat := Nat.not_lt.mp (of_decide_eq_false hcontrol)
        exact ⟨c :: cs, List.append_assoc out [c] cs, .plain hquote hslash hge hcs⟩

theorem ends_string : Ends s JsonReader.string fun text s' =>
    ∃ t cs, s.rest = '"' :: t ∧ text = String.ofList cs ∧ Chars taken t cs s'.rest := by
  refine (ends_expect '"').bind fun _ s₁ h₁ => ?_
  refine reads_remaining.ends.bind ?_
  rintro _ s₂ ⟨rfl, rfl⟩
  refine (ends_stringLoop _ []).bind ?_
  rintro text s₃ ⟨cs, rfl, hcs⟩
  exact ends_pure ⟨s₂.rest, text, h₁, rfl, hcs⟩

theorem ends_lit (word : String) (v : Json) : Ends s (JsonReader.lit word v) fun u s' =>
    u = v ∧ s.rest = word.toList ++ s'.rest := by
  refine (reads_next _).ends.bind ?_
  rintro got s₁ ⟨rfl, rfl⟩
  refine reads_demand.ends.bind ?_
  rintro _ s₂ ⟨hword, rfl⟩
  refine (reads_advance _).ends.bind fun _ s₃ h₃ => ends_pure ⟨rfl, ?_⟩
  split at hword
  · rw [h₃, ← Option.some.inj hword, List.take_append_drop]
  · cases hword

theorem parseI64_eq_ok {negative : Bool} {digits : List Char} {n : ℤ}
    (h : JsonReader.parseI64 negative digits = .ok n) :
    ∃ m : ℕ, Numerals.numeral 10 0 digits = some m ∧ digits ≠ [] ∧
      n = if negative then -(m : ℤ) else m := by
  rw [JsonReader.parseI64] at h
  split at h
  · cases h
  · next m hm =>
    split_ifs at h with hnil hneg _ _
    · exact ⟨m, hm, hnil, by rw [if_pos hneg]; exact (Except.ok.inj h).symm⟩
    · exact ⟨m, hm, hnil, by rw [if_neg hneg]; exact (Except.ok.inj h).symm⟩

theorem ends_sign : Ends s JsonReader.sign fun negative s' =>
    s.rest = (if negative then ['-'] else []) ++ s'.rest := by
  refine ends_peek.bind ?_
  rintro got s₁ ⟨rfl, rfl⟩
  refine .ite (fun h => ?_) fun _ => ends_pure rfl
  exact (ends_bump h).bind fun _ s₂ h₂ => ends_pure h₂

theorem ends_number : Ends s JsonReader.number fun v s' =>
    ∃ n, v = .u64 n ∧ TakenNumber s.rest n s'.rest := by
  refine ends_sign.bind fun negative s₁ h₁ => ?_
  refine (reads_takeWhile _).ends.bind ?_
  rintro digits s₂ ⟨hdigits, hrest⟩
  refine ends_peek.bind ?_
  rintro after s₃ ⟨-, rfl⟩
  refine reads_demand.ends.bind ?_
  rintro _ s₄ ⟨-, rfl⟩
  cases hparse : JsonReader.parseI64 negative digits with
  | error e => exact ends_refuse _
  | ok n =>
    refine reads_demand.ends.bind ?_
    rintro _ s₅ ⟨hn, rfl⟩
    obtain ⟨m, hm, hne, hvalue⟩ := parseI64_eq_ok hparse
    have hsplit : s₁.rest = digits ++ s₅.rest := by
      rw [hdigits, hrest, List.takeWhile_append_dropWhile]
    refine ends_pure ⟨n.toNat, rfl, _, digits, m, hsplit ▸ h₁, ?_, hne, hm, ?_⟩
    · intro d hd
      exact List.mem_takeWhile_imp (hdigits ▸ hd)
    · cases negative with
      | true => exact .inr ⟨rfl, by rw [Int.toNat_of_nonneg hn]; exact hvalue⟩
      | false => exact .inl ⟨rfl, by rw [show n = (m : ℤ) from hvalue, Int.toNat_natCast]⟩

theorem Ws.trans {u : List Char} (h : Ws t r) (h' : Ws r u) : Ws t u := by
  induction h with
  | nil => exact h'
  | cons hc _ ih => exact .cons hc (ih h')

/-- White space before the items or the members is that of the first one. -/
theorem spells_ws {L : Lexis} {u : List Char} {node : Node} (hnode : ∀ v, node ≠ .value v)
    (h : Ws t u) (hu : Spells L u node r) : Spells L t node r := by
  cases hu with
  | item h₁ hv h₂ => exact .item (h.trans h₁) hv h₂
  | items h₁ hv h₂ hrest => exact .items (h.trans h₁) hv h₂ hrest
  | member h₁ hk h₂ h₃ hv h₄ => exact .member (h.trans h₁) hk h₂ h₃ hv h₄
  | members h₁ hk h₂ h₃ hv h₄ hrest => exact .members (h.trans h₁) hk h₂ h₃ hv h₄ hrest
  | _ => exact absurd rfl (hnode _)

/-- A bracket and its closing one, or the items between them. -/
theorem ends_opened {opening close : Char} {empty : Json} {items : Reader Char Json}
    {q : Json → Cursor Char → Prop}
    (hempty : ∀ s', (∃ u, s.rest = opening :: u ∧ Ws u (close :: s'.rest)) → q empty s')
    (hitems : ∀ s₁, (∃ u, s.rest = opening :: u ∧ Ws u s₁.rest) → Ends s₁ items q) :
    Ends s (JsonReader.opened opening close empty items) q := by
  refine (ends_expect opening).bind fun _ s₁ h₁ => ?_
  refine ends_ws.bind fun _ s₂ h₂ => ?_
  refine ends_peek.bind ?_
  rintro got s₃ ⟨rfl, rfl⟩
  refine .ite (fun hclose => ?_) fun _ => hitems _ ⟨_, h₁, h₂⟩
  exact (ends_bump hclose).bind fun _ s₄ h₄ => ends_pure (hempty s₄ ⟨_, h₁, h₄ ▸ h₂⟩)

/-- A value is read from a text of the grammar. -/
def TakesValue (fuel : ℕ) : Prop := ∀ s : Cursor Char,
  Ends s (JsonReader.value fuel) fun v s' => Spells taken s.rest (.value v) s'.rest

/-- So are members, up to their brace, whose keys are new. -/
def TakesMembers (fuel : ℕ) : Prop := ∀ (s : Cursor Char) (map : List (String × Json)),
  (map.map Prod.fst).Nodup → Ends s (JsonReader.members fuel map) fun v s' =>
    ∃ fs, v = .object (fs.foldl insertField map) ∧ (map.map Prod.fst ++ fs.map Prod.fst).Nodup ∧
      Spells taken s.rest (.members fs) ('\x7d' :: s'.rest)

/-- So are items, up to their bracket. -/
def TakesItems (fuel : ℕ) : Prop := ∀ (s : Cursor Char) (out : List Json),
  Ends s (JsonReader.elements fuel out) fun v s' =>
    ∃ vs, v = .array (out ++ vs) ∧ Spells taken s.rest (.items vs) (']' :: s'.rest)

variable {fuel : ℕ}

theorem takesValue_succ (hmembers : TakesMembers fuel) (hitems : TakesItems fuel) :
    TakesValue (fuel + 1) := by
  intro s
  refine ends_peek.bind ?_
  rintro got s₁ ⟨hgot, rfl⟩
  cases got with
  | none => exact ends_refuse _
  | some c =>
    refine .ite (fun _ => ?_) fun _ => .ite (fun _ => ?_) fun _ => .ite (fun _ => ?_) fun _ =>
      .ite (fun _ => ?_) fun _ => .ite (fun _ => ?_) fun _ => .ite (fun _ => ?_) fun _ =>
      .ite (fun _ => ?_) fun _ => ends_refuse _
    · refine ends_opened ?_ ?_
      · rintro s₂ ⟨u, hu, hws⟩
        exact hu ▸ .emptyObject hws
      · rintro s₂ ⟨u, hu, hws⟩
        refine (hmembers s₂ [] List.nodup_nil).mono ?_
        rintro v s₃ ⟨fs, rfl, hkeys, hfs⟩
        exact hu ▸ .object (spells_ws (by simp) hws hfs) hkeys
    · refine ends_opened ?_ ?_
      · rintro s₂ ⟨u, hu, hws⟩
        exact hu ▸ .emptyArray hws
      · rintro s₂ ⟨u, hu, hws⟩
        refine (hitems s₂ []).mono ?_
        rintro v s₃ ⟨vs, rfl, hvs⟩
        exact hu ▸ .array (spells_ws (by simp) hws hvs)
    · refine ends_string.bind ?_
      rintro text s₂ ⟨t, cs, ht, rfl, hcs⟩
      exact ends_pure (ht ▸ .string hcs)
    · refine (ends_lit _ _).mono ?_
      rintro v s₂ ⟨rfl, hrest⟩
      exact hrest ▸ .true
    · refine (ends_lit _ _).mono ?_
      rintro v s₂ ⟨rfl, hrest⟩
      exact hrest ▸ .false
    · refine (ends_lit _ _).mono ?_
      rintro v s₂ ⟨rfl, hrest⟩
      exact hrest ▸ .null
    · refine ends_number.mono ?_
      rintro v s₂ ⟨n, rfl, hn⟩
      exact .number hn

theorem takesMembers_succ (hvalue : TakesValue fuel) (hmembers : TakesMembers fuel) :
    TakesMembers (fuel + 1) := by
  intro s map hmap
  refine ends_ws.bind fun _ s₁ h₁ => ?_
  refine ends_string.bind ?_
  rintro k s₂ ⟨t, key, ht, rfl, hkey⟩
  refine ends_ws.bind fun _ s₃ h₃ => ?_
  refine (ends_expect ':').bind fun _ s₄ h₄ => ?_
  refine ends_ws.bind fun _ s₅ h₅ => ?_
  refine (hvalue s₅).bind fun v s₆ h₆ => ?_
  refine reads_demand.ends.bind ?_
  rintro _ s₇ ⟨hnew, rfl⟩
  refine ends_ws.bind fun _ s₈ h₈ => ?_
  refine (ends_more _ _).bind ?_
  rw [ht] at h₁
  rw [h₄] at h₃
  have hkeys : (map.map Prod.fst ++ [String.ofList key]).Nodup :=
    (List.perm_append_singleton _ _).nodup_iff.mpr (List.nodup_cons.mpr ⟨hnew, hmap⟩)
  rintro again s₉ (⟨rfl, hcomma⟩ | ⟨rfl, hclose⟩)
  · have hmap' := nodup_insertField (x := (String.ofList key, v)) hkeys
    rw [List.append_nil] at hmap'
    refine (hmembers s₉ _ hmap').mono ?_
    rintro u s₀ ⟨fs, rfl, hfs, hspells⟩
    refine ⟨(String.ofList key, v) :: fs, rfl, ?_, .members h₁ hkey h₃ h₅ h₆ (hcomma ▸ h₈) hspells⟩
    exact (perm_insertField map (String.ofList key, v) _).nodup_iff.mpr hfs
  · exact ends_pure ⟨[(String.ofList key, v)], rfl, hkeys,
      .member h₁ hkey h₃ h₅ h₆ (hclose ▸ h₈)⟩

theorem takesItems_succ (hvalue : TakesValue fuel) (hitems : TakesItems fuel) :
    TakesItems (fuel + 1) := by
  intro s out
  refine ends_ws.bind fun _ s₁ h₁ => ?_
  refine (hvalue s₁).bind fun v s₂ h₂ => ?_
  refine ends_ws.bind fun _ s₃ h₃ => ?_
  refine (ends_more _ _).bind ?_
  rintro again s₄ (⟨rfl, hcomma⟩ | ⟨rfl, hclose⟩)
  · refine (hitems s₄ (out ++ [v])).mono ?_
    rintro u s₅ ⟨vs, rfl, hspells⟩
    refine ⟨v :: vs, ?_, .items h₁ h₂ (hcomma ▸ h₃) hspells⟩
    rw [List.append_assoc, List.singleton_append]
  · exact ends_pure ⟨[v], rfl, .item h₁ h₂ (hclose ▸ h₃)⟩

theorem takes_all (fuel : ℕ) : TakesValue fuel ∧ TakesMembers fuel ∧ TakesItems fuel := by
  induction fuel with
  | zero =>
    refine ⟨fun s v s' h => ?_, fun s map _ v s' h => ?_, fun s out v s' h => ?_⟩ <;> cases h
  | succ fuel ih =>
    obtain ⟨hvalue, hmembers, hitems⟩ := ih
    exact ⟨takesValue_succ hmembers hitems, takesMembers_succ hvalue hmembers,
      takesItems_succ hvalue hitems⟩

theorem ends_document : Ends s JsonReader.document fun v _ => IsText taken s.rest v := by
  refine ends_ws.bind fun _ s₁ h₁ => ?_
  refine reads_remaining.ends.bind ?_
  rintro _ s₂ ⟨rfl, rfl⟩
  refine ((takes_all _).1 s₂).bind fun v s₃ h₃ => ?_
  refine ends_ws.bind fun _ s₄ h₄ => ?_
  refine reads_remaining.ends.bind ?_
  rintro _ s₅ ⟨rfl, rfl⟩
  refine reads_demand.ends.bind ?_
  rintro _ s₆ ⟨hnil, rfl⟩
  rw [List.length_eq_zero_iff.mp hnil] at h₄
  exact ends_pure ⟨_, _, h₁, h₃, h₄⟩

/-- **What is accepted is a text of the parser's grammar**, as the parser sees it. -/
theorem isText_seen {text : String} {v : Json} (h : jsonParse text = .ok v) :
    IsText taken (seen text.toList) v := by
  rw [jsonParse] at h
  split at h
  · next u s' hres =>
    obtain rfl := Except.ok.inj h
    exact ends_document u s' hres
  · cases h

/-- The value of a text of the RFC has no more characters than the parser counts. -/
theorem ascii_of_isText {text : String} {v : Json} (h : jsonParse text = .ok v)
    (hrfc : IsText rfc text.toList v) : ∀ c ∈ text.toList, c.toNat < 128 := by
  obtain ⟨k, hk, hseen⟩ := count_isText scans_taken (isText_seen h)
  obtain ⟨j, -, htext⟩ := count_isText scans_rfc hrfc
  obtain ⟨-, hascii⟩ := count_seen (lexical_isText hrfc)
  have hzero := hk trivial
  exact hascii (by omega)

/-- **An accepted text is one of the RFC, with the value it gives**, if and only if it is ASCII, has
no digit behind a leading zero and no plus sign in an escape. -/
theorem isText_iff_clean {text : String} {v : Json} (h : jsonParse text = .ok v) :
    IsText rfc text.toList v ↔ Clean text.toList := by
  constructor
  · intro hrfc
    exact ⟨ascii_of_isText h hrfc, lexical_isText hrfc⟩
  · intro hclean
    have hseen := isText_seen h
    rw [seen_of_ascii hclean.ascii] at hseen
    exact isText_of_along scans_taken converts_taken hseen hclean.lexical

theorem isText_seven : IsText rfc "[7]".toList (.array [.u64 7]) :=
  (isText_iff_clean (by rfl)).mpr
    ⟨by decide, by decide, by decide, by decide, trivial⟩

/-- The bytes of an accented letter are taken for two characters, and digits after a leading zero
and a plus sign in an escape are accepted. -/
theorem not_isText_accepted :
    (jsonParse "\"é\"" = .ok (.str "Ã©") ∧ ¬ IsText rfc "\"é\"".toList (.str "Ã©")) ∧
      (jsonParse "007" = .ok (.u64 7) ∧ ∀ v, ¬ IsText rfc "007".toList v) ∧
      (jsonParse "\"\\u+041\"" = .ok (.str "A") ∧ ∀ v, ¬ IsText rfc "\"\\u+041\"".toList v) := by
  refine ⟨⟨by rfl, fun h => ?_⟩, ⟨by rfl, fun v h => ?_⟩, by with_unfolding_all rfl, fun v h => ?_⟩
  · obtain ⟨k, -, hcount⟩ := count_isText scans_rfc h
    have htwo : chars (.str "Ã©") = 2 := by rfl
    have hone : count .start "\"é\"".toList = 1 := by decide
    omega
  · exact (lexical_isText h).2.1.1 ⟨rfl, rfl⟩
  · exact (lexical_isText h).2.2.2.1.2.1 ⟨rfl, rfl⟩

end Rfc8259

end Repack

end Mimo26

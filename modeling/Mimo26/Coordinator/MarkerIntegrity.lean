import Mimo26.Coordinator.Chat
import Mimo26.Coordinator.Marked

/-!
# The image markers of a prompt are the request's own

Contents are stripped of the reserved characters; tools, and the names and arguments of tool calls,
are written as the client sent them. A client's opening character in one of these keeps the markers
after it from being expanded, or is expanded itself.

## Main definitions

* `Carries` — a text written around client strings that were not stripped
* `Intact` — no such string of a request holds an opening character where it matters
* `MarkersIntact` — the markers expanded are those the contents hold, at their places

## Main results

* `markersIntact_iff` — the markers of a prompt are the request's own exactly when it is intact
-/

namespace Mimo26

namespace Coordinator

open Api Search Numerals Result

/-! ### Client strings in a text -/

/-- A character that stands in no marker. -/
def Stops (c : Char) : Prop :=
  c ≠ imageOpen ∧ c ≠ imageClose ∧ c ≠ ':' ∧ c ≠ '+' ∧ digit 16 c = none

instance (c : Char) : Decidable (Stops c) := inferInstanceAs (Decidable (_ ∧ _))

/-- A text without opening characters of its own, in which client strings stand in order, as they
are or escaped, each before a character that stands in no marker. -/
inductive Carries : Text → List Text → Prop
  | nil : Carries [] []
  | char {c : Char} {t : Text} {fs : List Text} : c ≠ imageOpen → Carries t fs → Carries (c :: t) fs
  | field (s : Text) {c : Char} {t : Text} {fs : List Text} : Stops c → Carries t fs →
    Carries (s ++ c :: t) (s :: fs)
  | escaped (s : Text) {c : Char} {t : Text} {fs : List Text} : Stops c → Carries t fs →
    Carries (s.flatMap escapeChar ++ c :: t) (s :: fs)

theorem Carries.append {t t' : Text} {fs fs' : List Text} (h : Carries t fs) (h' : Carries t' fs') :
    Carries (t ++ t') (fs ++ fs') := by
  induction h with
  | nil => exact h'
  | char hc _ ih => exact .char hc ih
  | field s hc _ ih =>
    rw [List.append_assoc]
    exact .field s hc ih
  | escaped s hc _ ih =>
    rw [List.append_assoc]
    exact .escaped s hc ih

/-- Text of the template. -/
theorem Carries.glue {g : Text} (h : imageOpen ∉ g) : Carries g [] := by
  induction g with
  | nil => exact .nil
  | cons c g ih =>
    obtain ⟨hc, hg⟩ := not_or.mp (mt List.mem_cons.mpr h)
    exact .char (Ne.symm hc) (ih hg)

theorem Carries.after {g t : Text} {fs : List Text} (hg : imageOpen ∉ g) (h : Carries t fs) :
    Carries (g ++ t) fs := (Carries.glue hg).append h

theorem Carries.before {g t : Text} {fs : List Text} (h : Carries t fs) (hg : imageOpen ∉ g) :
    Carries (t ++ g) fs := by
  have happend := h.append (.glue hg)
  rwa [List.append_nil] at happend

/-! ### Escapes -/

theorem imageOpen_notIn_numeral (radix : ℕ) (hpos : 1 < radix) (hradix : radix ≤ 16) (n : ℕ) :
    imageOpen ∉ Nat.toDigits radix n := by
  intro hmem
  have hdigit := mem_of_numeral (numeral_toDigits hpos hradix n) imageOpen hmem
  exact absurd (digit_mono hradix hdigit) (by decide)

/-- A character is escaped by a backslash, or not at all. -/
theorem escapeChar_cases (c : Char) : escapeChar c = [c] ∨
    ∃ t, escapeChar c = '\\' :: t ∧ imageOpen ∉ t ∧ Stops c := by
  have hcontrol : ∀ n < 32, Stops (Char.ofNat n) := by decide
  rw [escapeChar]
  split_ifs with h1 h2 h3 h4 h5 h6
  · exact .inr ⟨_, rfl, by decide, h1 ▸ by decide⟩
  · exact .inr ⟨_, rfl, by decide, h2 ▸ by decide⟩
  · exact .inr ⟨_, rfl, by decide, h3 ▸ by decide⟩
  · exact .inr ⟨_, rfl, by decide, h4 ▸ by decide⟩
  · exact .inr ⟨_, rfl, by decide, h5 ▸ by decide⟩
  · refine .inr ⟨'u' :: hex04 c.toNat, rfl, ?_, ?_⟩
    · rw [hex04, List.mem_cons, List.mem_append, not_or, not_or]
      refine ⟨by decide, fun hmem => ?_, imageOpen_notIn_numeral 16 (by decide) (by decide) _⟩
      exact absurd (List.eq_of_mem_replicate hmem) (by decide)
    · have hstops := hcontrol c.toNat h6
      rwa [Char.ofNat_toNat] at hstops
  · exact .inl rfl

/-- The opening character is not escaped, and no escape holds it. -/
theorem imageOpen_mem_escape {s : Text} : imageOpen ∈ s.flatMap escapeChar ↔ imageOpen ∈ s := by
  rw [List.mem_flatMap]
  constructor
  · rintro ⟨c, hc, hmem⟩
    rcases escapeChar_cases c with h | ⟨t, h, ht, -⟩
    · rw [h, List.mem_singleton] at hmem
      rwa [hmem]
    · rw [h, List.mem_cons] at hmem
      exact absurd hmem (not_or.mpr ⟨by decide, ht⟩)
  · exact fun hmem => ⟨imageOpen, hmem, by decide⟩

/-- What can stand in a marker is not escaped. -/
theorem escape_of_not_stops {w : Text} (h : ∀ c ∈ w, ¬ Stops c) : w.flatMap escapeChar = w := by
  induction w with
  | nil => rfl
  | cons c w ih =>
    obtain ⟨hc, hw⟩ := List.forall_mem_cons.mp h
    rcases escapeChar_cases c with hesc | ⟨t, -, -, hstops⟩
    · rw [List.flatMap_cons, hesc, ih hw]
      rfl
    · exact absurd hstops hc

/-- What can stand in a marker and begins an escaped text begins the text. -/
theorem exists_of_escape {w b r : Text} (hw : ∀ c ∈ w, ¬ Stops c)
    (h : b.flatMap escapeChar = w ++ r) :
    ∃ b', b = w ++ b' := by
  induction w generalizing b with
  | nil => exact ⟨b, rfl⟩
  | cons c w ih =>
    obtain ⟨hc, hrest'⟩ := List.forall_mem_cons.mp hw
    cases b with
    | nil => exact nomatch h
    | cons d b =>
      rw [List.flatMap_cons] at h
      rcases escapeChar_cases d with hesc | ⟨t, hesc, -, -⟩
      · rw [hesc] at h
        obtain ⟨rfl, hrest⟩ := List.cons.inj h
        obtain ⟨b', rfl⟩ := ih hrest' hrest
        exact ⟨b', rfl⟩
      · rw [hesc] at h
        exact absurd (by decide : Stops '\\') ((List.cons.inj h).1 ▸ hc)

/-- A text holds an opening character exactly when a client string does. -/
theorem Carries.mem_iff {t : Text} {fs : List Text} (h : Carries t fs) :
    imageOpen ∈ t ↔ ∃ s ∈ fs, imageOpen ∈ s := by
  induction h with
  | nil => simp
  | char hc _ ih => simp [Ne.symm hc, ih]
  | field s hc _ ih => simp [Ne.symm hc.1, ih]
  | escaped s hc _ ih =>
    rw [List.mem_append, imageOpen_mem_escape, List.mem_cons, ih]
    simp [Ne.symm hc.1]

/-! ### Markers in a text -/

theorem not_stops_of_readBody {body : Text} {hash : UInt64} {n : ℕ}
    (h : readBody body = some (hash, n)) : ∀ c ∈ body ++ [imageClose], ¬ Stops c := by
  intro c hc hstops
  rcases List.mem_append.mp hc with hbody | hclose
  · rcases mem_of_readBody h c hbody with rfl | rfl | hdigit
    · exact hstops.2.2.1 rfl
    · exact hstops.2.2.2.1 rfl
    · rw [hstops.2.2.2.2] at hdigit
      exact nomatch hdigit
  · exact hstops.2.1 (List.mem_singleton.mp hclose)

/-- The opening character, and a marker that begins there. -/
def Begins (b : Text) : Prop :=
  ∃ body rest hash n, b = body ++ imageClose :: rest ∧ imageClose ∉ body ∧
    readBody body = some (hash, n)

/-- A marker is looked for at the first opening character only. -/
theorem nextMarker_ne_none_iff {a b : Text} (ha : imageOpen ∉ a) :
    nextMarker (a ++ imageOpen :: b) ≠ none ↔ Begins b := by
  rw [Option.ne_none_iff_exists']
  constructor
  · rintro ⟨⟨before, hash, n, rest⟩, h⟩
    obtain ⟨body, heq, hbefore, hbody, hread⟩ := nextMarker_eq_some_iff.mp h
    obtain ⟨-, hb⟩ := append_inj_char ha hbefore heq
    exact ⟨body, rest, hash, n, hb, hbody, hread⟩
  · rintro ⟨body, rest, hash, n, rfl, hbody, hread⟩
    exact ⟨_, nextMarker_eq_some_iff.mpr ⟨body, rfl, ha, hbody, hread⟩⟩

theorem nextMarker_glue {g : Text} (hg : imageOpen ∉ g) (t : Text) :
    nextMarker (g ++ t) = none ↔ nextMarker t = none := by
  by_cases ht : imageOpen ∈ t
  · obtain ⟨a, b, rfl, ha⟩ := List.eq_append_cons_of_mem ht
    have hga : imageOpen ∉ g ++ a := by simp [hg, ha]
    rw [← List.append_assoc]
    exact not_iff_not.mp ((nextMarker_ne_none_iff hga).trans (nextMarker_ne_none_iff ha).symm)
  · have hgt : imageOpen ∉ g ++ t := by simp [hg, ht]
    rw [nextMarker_of_notIn ht, nextMarker_of_notIn hgt]

/-- What can stand in no marker cuts it off. -/
theorem begins_append {c : Char} (hc : Stops c) (b t : Text) : Begins (b ++ c :: t) ↔ Begins b := by
  constructor
  · rintro ⟨body, rest, hash, n, heq, hbody, hread⟩
    have hmem : c ∉ body ++ [imageClose] := fun hmem => not_stops_of_readBody hread c hmem hc
    have hpre : body ++ [imageClose] <+: b ++ c :: t := by
      rw [heq]
      exact ⟨rest, by simp⟩
    obtain ⟨rest', rfl⟩ := prefix_append_cons hmem hpre
    exact ⟨body, rest', hash, n, by simp, hbody, hread⟩
  · rintro ⟨body, rest, hash, n, rfl, hbody, hread⟩
    exact ⟨body, rest ++ c :: t, hash, n, by simp, hbody, hread⟩

theorem begins_escape (b : Text) : Begins (b.flatMap escapeChar) ↔ Begins b := by
  constructor
  · rintro ⟨body, rest, hash, n, heq, hbody, hread⟩
    have heq' : b.flatMap escapeChar = (body ++ [imageClose]) ++ rest := by
      rw [heq]
      simp
    obtain ⟨b', rfl⟩ := exists_of_escape (not_stops_of_readBody hread) heq'
    exact ⟨body, b', hash, n, by simp, hbody, hread⟩
  · rintro ⟨body, rest, hash, n, rfl, hbody, hread⟩
    refine ⟨body, rest.flatMap escapeChar, hash, n, ?_, hbody, hread⟩
    have hesc := escape_of_not_stops (not_stops_of_readBody hread)
    have hsplit : body ++ imageClose :: rest = (body ++ [imageClose]) ++ rest := by simp
    rw [hsplit, List.flatMap_append, hesc]
    simp

theorem nextMarker_field {s : Text} (hs : imageOpen ∈ s) {c : Char} (hc : Stops c) (t : Text) :
    nextMarker (s ++ c :: t) = none ↔ nextMarker s = none := by
  obtain ⟨a, b, rfl, ha⟩ := List.eq_append_cons_of_mem hs
  have hsplit : a ++ imageOpen :: b ++ c :: t = a ++ imageOpen :: (b ++ c :: t) := by simp
  rw [hsplit]
  refine not_iff_not.mp ((nextMarker_ne_none_iff ha).trans ?_)
  exact (begins_append hc b t).trans (nextMarker_ne_none_iff ha).symm

theorem nextMarker_escape {s : Text} (hs : imageOpen ∈ s) :
    nextMarker (s.flatMap escapeChar) = none ↔ nextMarker s = none := by
  obtain ⟨a, b, rfl, ha⟩ := List.eq_append_cons_of_mem hs
  have hsplit : (a ++ imageOpen :: b).flatMap escapeChar =
      a.flatMap escapeChar ++ imageOpen :: b.flatMap escapeChar := by
    rw [List.flatMap_append, List.flatMap_cons]
    rfl
  have ha' : imageOpen ∉ a.flatMap escapeChar := mt imageOpen_mem_escape.mp ha
  rw [hsplit]
  refine not_iff_not.mp ((nextMarker_ne_none_iff ha').trans ?_)
  exact (begins_escape b).trans (nextMarker_ne_none_iff ha).symm

/-- The first of the strings with an opening character begins a marker there. -/
def Forges : List Text → Prop
  | [] => False
  | s :: fs => if imageOpen ∈ s then nextMarker s ≠ none else Forges fs

/-- **Whether a marker is found in a text** is a matter of the client strings it carries. -/
theorem Carries.nextMarker_iff {t : Text} {fs : List Text} (h : Carries t fs) :
    nextMarker t = none ↔ ¬ Forges fs := by
  induction h with
  | nil => exact iff_of_true (nextMarker_of_notIn List.not_mem_nil) id
  | @char c t fs hc _ ih =>
    have hglue : imageOpen ∉ [c] := mt List.mem_singleton.mp (Ne.symm hc)
    exact (nextMarker_glue hglue t).trans ih
  | @field s c t fs hc _ ih =>
    rw [Forges]
    by_cases hs : imageOpen ∈ s
    · rw [if_pos hs, not_not]
      exact nextMarker_field hs hc t
    · rw [if_neg hs, ← ih]
      have hglue : imageOpen ∉ s ++ [c] := by simp [hs, Ne.symm hc.1]
      have happend := nextMarker_glue hglue t
      rwa [List.append_assoc, List.singleton_append] at happend
  | @escaped s c t fs hc _ ih =>
    rw [Forges]
    by_cases hs : imageOpen ∈ s
    · rw [if_pos hs, not_not]
      exact (nextMarker_field (imageOpen_mem_escape.mpr hs) hc t).trans (nextMarker_escape hs)
    · rw [if_neg hs, ← ih]
      have hglue : imageOpen ∉ s.flatMap escapeChar ++ [c] := by
        rw [List.mem_append, imageOpen_mem_escape]
        simp [hs, Ne.symm hc.1]
      have happend := nextMarker_glue hglue t
      rwa [List.append_assoc, List.singleton_append] at happend

/-! ### Client strings of a prompt -/

variable {F : Type}

mutual

/-- The keys and strings of a value, in the order they are written. -/
def strings : Json F → List Text
  | .str s => [s]
  | .array items => stringsItems items
  | .object pairs => stringsPairs pairs
  | .null | .bool _ | .num _ => []

def stringsItems : List (Json F) → List Text
  | [] => []
  | v :: items => strings v ++ stringsItems items

def stringsPairs : List (Text × Json F) → List Text
  | [] => []
  | p :: pairs => p.1 :: strings p.2 ++ stringsPairs pairs

end

/-- A string of JSON ends at a quote. -/
theorem carries_writeString (s : Text) : Carries (writeTojsonString s) [s] := by
  have hquote : Stops '"' := by decide
  exact .char hquote.1 (.escaped s hquote .nil)

theorem imageOpen_notIn_toString (k : ℤ) : imageOpen ∉ (toString k).toList := by
  have hnumeral := imageOpen_notIn_numeral 10 (by decide) (by decide)
  cases k with
  | ofNat n => simpa [toString, Int.repr, Nat.repr] using hnumeral n
  | negSucc n =>
    have hminus : imageOpen ≠ '-' := by decide
    simpa [toString, Int.repr, Nat.repr, hminus] using hnumeral (n + 1)

section Rendering

variable [Fp64 F]

mutual

theorem carries_tojson (hdisplay : ∀ n : F, imageOpen ∉ Fp64.display n) :
    (v : Json F) → Carries (tojson v) (strings v)
  | .null => by
    rw [tojson, strings]
    exact .glue (by decide)
  | .bool b => by
    rw [tojson, strings]
    exact .glue (by cases b <;> decide)
  | .num n => by
    rw [tojson, strings]
    split
    · exact .glue (imageOpen_notIn_toString _)
    · exact .glue (hdisplay n)
  | .str s => by
    rw [tojson, strings]
    exact carries_writeString s
  | .array items => by
    rw [tojson, strings]
    have hclose : imageOpen ∉ [']'] := by decide
    exact .char (by decide) ((carries_tojsonItems hdisplay true items).before hclose)
  | .object pairs => by
    rw [tojson, strings]
    have hclose : imageOpen ∉ ['\x7d'] := by decide
    exact .char (by decide) ((carries_tojsonPairs hdisplay true pairs).before hclose)

theorem carries_tojsonItems (hdisplay : ∀ n : F, imageOpen ∉ Fp64.display n) (first : Bool) :
    (items : List (Json F)) →
    Carries (tojsonItems first items) (stringsItems items)
  | [] => by
    rw [tojsonItems, stringsItems]
    exact .nil
  | v :: items => by
    rw [tojsonItems, stringsItems]
    have hcomma : imageOpen ∉ (if first then [] else [',', ' ']) := by cases first <;> decide
    exact (Carries.after hcomma (carries_tojson hdisplay v)).append
      (carries_tojsonItems hdisplay false items)

theorem carries_tojsonPairs (hdisplay : ∀ n : F, imageOpen ∉ Fp64.display n) (first : Bool) :
    (pairs : List (Text × Json F)) →
    Carries (tojsonPairs first pairs) (stringsPairs pairs)
  | [] => by
    rw [tojsonPairs, stringsPairs]
    exact .nil
  | p :: pairs => by
    rw [tojsonPairs, stringsPairs]
    have hcomma : imageOpen ∉ (if first then [] else [',', ' ']) := by cases first <;> decide
    have hcolon : imageOpen ∉ [':', ' '] := by decide
    have hkey := Carries.after hcomma (carries_writeString p.1)
    have hvalue := Carries.after hcolon (carries_tojson hdisplay p.2)
    exact (hkey.append hvalue).append (carries_tojsonPairs hdisplay false pairs)

end

variable (hdisplay : ∀ n : F, imageOpen ∉ Fp64.display n)

include hdisplay

theorem carries_renderValue (v : Json F) {t : Text} {fs : List Text} {c : Char} (hc : Stops c)
    (h : Carries t fs) : Carries (renderValue v ++ c :: t) (strings v ++ fs) := by
  have hother : Carries (tojson v ++ c :: t) (strings v ++ fs) :=
    (carries_tojson hdisplay v).append (.char hc.1 h)
  cases v with
  | str s =>
    rw [strings]
    exact .field s hc h
  | null => exact hother
  | bool b => exact hother
  | num n => exact hother
  | array items => exact hother
  | object pairs => exact hother

/-- The client strings of a tool call. -/
def callFields (call : ChatToolCall F) : List Text := call.name :: stringsPairs call.arguments

omit hdisplay [Fp64 F] in
/-- A name or key in its tag. -/
theorem carries_tag {g : Text} (hg : imageOpen ∉ g) (s : Text) {t : Text} {fs : List Text}
    (h : Carries t fs) : Carries (g ++ s ++ ['>'] ++ t) (s :: fs) := by
  have htag := Carries.after hg (.field s (by decide : Stops '>') h)
  simpa only [List.append_assoc, List.cons_append, List.nil_append] using htag

theorem carries_renderParameter (p : Text × Json F) :
    Carries (renderParameter p) (p.1 :: strings p.2) := by
  obtain ⟨t, hclose, ht⟩ : ∃ t, parameterClose = '<' :: t ∧ imageOpen ∉ t :=
    ⟨"/parameter>".toList, by decide, by decide⟩
  have hopen : imageOpen ∉ "<parameter=".toList := by decide
  have hvalue := carries_renderValue hdisplay p.2 (by decide : Stops '<') (.glue ht)
  have hparameter := carries_tag hopen p.1 hvalue
  rw [renderParameter, hclose]
  rwa [List.append_nil, ← List.append_assoc] at hparameter

theorem carries_renderParameters (arguments : List (Text × Json F)) :
    Carries (arguments.flatMap renderParameter) (stringsPairs arguments) := by
  induction arguments with
  | nil =>
    rw [stringsPairs]
    exact .nil
  | cons p arguments ih =>
    rw [stringsPairs, List.flatMap_cons]
    exact (carries_renderParameter hdisplay p).append ih

theorem carries_renderToolCalls (calls : List (ChatToolCall F)) :
    Carries (renderToolCalls calls) (calls.flatMap callFields) := by
  induction calls with
  | nil => exact .nil
  | cons call calls ih =>
    have hopen : imageOpen ∉ "<function=".toList := by decide
    have hclose : imageOpen ∉ functionClose ++ toolCallClose := by decide
    have hbody := (carries_renderParameters hdisplay call.arguments).before hclose
    have hcall := Carries.after (by decide : imageOpen ∉ toolCallOpen)
      (carries_tag hopen call.name hbody)
    rw [renderToolCalls, List.flatMap_cons, List.flatMap_cons]
    refine Carries.append ?_ ih
    rw [List.append_assoc, List.append_assoc, List.append_assoc]
    exact hcall

/-- The tools' turn. -/
def toolsTurn (tools : List (Json F)) : Text :=
  if tools.isEmpty then [] else imStart ++ "system\n".toList ++ renderTools tools ++ imEnd

theorem carries_toolsTurn (tools : List (Json F)) :
    Carries (toolsTurn tools) (stringsItems tools) := by
  have hitems : Carries (tools.flatMap fun t => '\n' :: tojson t) (stringsItems tools) := by
    induction tools with
    | nil =>
      rw [stringsItems]
      exact .nil
    | cons v tools ih =>
      rw [stringsItems, List.flatMap_cons]
      exact (Carries.char (by decide) (carries_tojson hdisplay v)).append ih
  rw [toolsTurn]
  split
  · next hnil =>
    obtain rfl := List.isEmpty_iff.mp hnil
    rw [stringsItems]
    exact .nil
  · have hopen : imageOpen ∉ imStart ++ "system\n".toList := by decide
    have htext : imageOpen ∉ "You are provided with the following tools:\n\n".toList := by decide
    have htools : imageOpen ∉ toolsOpen := by decide
    have hclose : imageOpen ∉ '\n' :: toolsClose := by decide
    have hbody := Carries.after htext (.after htools (hitems.before hclose))
    have hturn := Carries.after hopen (hbody.before (by decide : imageOpen ∉ imEnd))
    unfold renderTools
    simpa only [List.append_assoc] using hturn

end Rendering

/-! ### Turns -/

section Turns

variable [Fp64 F]

/-- What stands before the content of a turn. -/
def turnHead : Role → Text
  | .assistant => imStart ++ "assistant\n".toList ++ think ++ thinkClose
  | other => imStart ++ roleStr other ++ ['\n']

/-- What stands after it. -/
def turnTail (m : ChatMessage F) : Text :=
  match m.role with
  | .assistant => renderToolCalls (m.toolCalls.getD []) ++ imEnd
  | _ => imEnd

def turnFields (m : ChatMessage F) : List Text :=
  match m.role with
  | .assistant => (m.toolCalls.getD []).flatMap callFields
  | _ => []

theorem renderMessage_eq {m : ChatMessage F} (h : m.reasoning = none) :
    renderMessage m = turnHead m.role ++ m.content ++ turnTail m := by
  unfold renderMessage turnHead turnTail
  rw [h]
  cases m.role <;> simp only [Option.getD_none, List.append_nil, List.append_assoc,
    List.cons_append,
    List.nil_append]

theorem imageOpen_notIn_turnHead (role : Role) : imageOpen ∉ turnHead role := by
  cases role <;> decide

theorem carries_turnTail (hdisplay : ∀ n : F, imageOpen ∉ Fp64.display n) (m : ChatMessage F) :
    Carries (turnTail m) (turnFields m) := by
  have hend : imageOpen ∉ imEnd := by decide
  unfold turnTail turnFields
  cases m.role with
  | assistant => exact (carries_renderToolCalls hdisplay _).before hend
  | user => exact .glue hend
  | system => exact .glue hend
  | tool => exact .glue hend

/-- The markers of the contents of messages, after a text without any. -/
def placedMarks (post : Text) : Text → List (ChatMessage F) → List Mark × Text
  | gap, [] => ([], gap ++ post)
  | gap, m :: ms =>
    match marks m.content with
    | ([], _) => placedMarks post (gap ++ renderMessage m) ms
    | (mark :: more, last) =>
      let rest := placedMarks post (last ++ turnTail m) ms
      (⟨gap ++ turnHead m.role ++ mark.before, mark.hash, mark.tokens⟩ :: (more ++ rest.1), rest.2)

/-- No client string between two images holds an opening character, and none after the last image
begins a marker; `fields` are the client strings since the last image. -/
def Intact : List Text → List (ChatMessage F) → Prop
  | fields, [] => ¬ Forges fields
  | fields, m :: ms =>
    if imageOpen ∈ m.content then (∀ s ∈ fields, imageOpen ∉ s) ∧ Intact (turnFields m) ms
    else Intact (fields ++ turnFields m) ms

/-- A content, taken apart at its markers. -/
theorem exists_of_marked {text : Text} {imgs : List ImageInput} (h : Marked text imgs) :
    ∃ ms last, text = assemble ms last ∧ ms.map Prod.snd = imgs ∧ (∀ m ∈ ms, imageOpen ∉ m.1) ∧
      imageOpen ∉ last := by
  induction h with
  | @text t ht => exact ⟨[], t, rfl, rfl, fun _ hm => absurd hm List.not_mem_nil, ht⟩
  | @image t rest imgs img ht _ ih =>
    obtain ⟨ms, last, rfl, rfl, hms, hlast⟩ := ih
    refine ⟨(t, img) :: ms, last, ?_, rfl, List.forall_mem_cons.mpr ⟨ht, hms⟩, hlast⟩
    simp [assemble]

/-- What the prompt is put together from, when a text with client strings comes before the turns. -/
theorem exists_placed (hdisplay : ∀ n : F, imageOpen ∉ Fp64.display n) {post : Text}
    (hpost : imageOpen ∉ post) {ms : List (ChatMessage F)} {imgs : List (List ImageInput)}
    (hholds : List.Forall₂ (fun m is => Marked m.content is) ms imgs)
    (hreasoning : ∀ m ∈ ms, m.reasoning = none) {gap : Text} {fields : List Text}
    (hgap : Carries gap fields) :
    ∃ own rest, gap ++ ms.flatMap renderMessage ++ post = assemble own rest ∧
      placedMarks post gap ms = (own.map markOf, rest) ∧ own.map Prod.snd = imgs.flatten ∧
      ((∀ m ∈ own, imageOpen ∉ m.1) ∧ nextMarker rest = none ↔ Intact fields ms) := by
  induction hholds generalizing gap fields with
  | nil =>
    refine ⟨[], gap ++ post, by simp [assemble], rfl, rfl, ?_⟩
    rw [(hgap.before hpost).nextMarker_iff, Intact]
    exact and_iff_right fun _ hm => absurd hm List.not_mem_nil
  | @cons m is ms imgs hmarked _ ih =>
    obtain ⟨hm, hms⟩ := List.forall_mem_cons.mp hreasoning
    obtain ⟨inner, last, hcontent, hinner, hbefore, hlast⟩ := exists_of_marked hmarked
    have htail := carries_turnTail hdisplay m
    have hmarks : marks m.content = (inner.map markOf, last) := by
      rw [hcontent]
      exact marks_eq_iff.mpr ⟨hbefore, nextMarker_of_notIn hlast⟩
    cases inner with
    | nil =>
      have hnone : imageOpen ∉ m.content := by rwa [hcontent]
      have hturn : Carries (gap ++ renderMessage m) (fields ++ turnFields m) := by
        rw [renderMessage_eq hm]
        have hglue : imageOpen ∉ turnHead m.role ++ m.content := by
          rw [List.mem_append, not_or]
          exact ⟨imageOpen_notIn_turnHead m.role, hnone⟩
        exact hgap.append (.after hglue htail)
      obtain ⟨own, rest, htext, hplaced, himgs, hiff⟩ := ih hms hturn
      refine ⟨own, rest, ?_, ?_, ?_, ?_⟩
      · rw [← htext, List.flatMap_cons]
        simp only [List.append_assoc]
      · rw [placedMarks, hmarks]
        exact hplaced
      · rw [himgs, ← hinner]
        rfl
      · rw [hiff, Intact, if_neg hnone]
    | cons first more =>
      have hsome : imageOpen ∈ m.content := by
        rw [hcontent]
        simp [assemble, imageMarker]
      obtain ⟨hfirst, hmore⟩ := List.forall_mem_cons.mp hbefore
      obtain ⟨own, rest, htext, hplaced, himgs, hiff⟩ := ih hms (.after hlast htail)
      refine ⟨(gap ++ turnHead m.role ++ first.1, first.2) :: (more ++ own), rest, ?_, ?_, ?_, ?_⟩
      · rw [List.flatMap_cons, renderMessage_eq hm, hcontent]
        simp only [assemble, List.flatMap_cons, List.flatMap_append, List.append_assoc] at htext ⊢
        rw [htext]
      · rw [placedMarks, hmarks]
        simp [hplaced, markOf]
      · rw [List.map_cons, List.map_append, himgs, ← hinner]
        rfl
      · have hopen : imageOpen ∉ gap ++ turnHead m.role ++ first.1 ↔
            ∀ s ∈ fields, imageOpen ∉ s := by
          simp [hgap.mem_iff, imageOpen_notIn_turnHead, hfirst]
        rw [Intact, if_pos hsome, ← hiff, List.forall_mem_cons, List.forall_mem_append, hopen,
          and_iff_right hmore, and_assoc]

end Turns

/-! ### The prompt of a request -/

variable [Fp64Value F]

/-- What the engine is given of a request. -/
def prompt (req : ChatRequest F) :
    Text := engineRenderChat req.messages req.tools req.enableThinking

/-- The turn that is left to generate. -/
def generationTurn (thinking : Bool) : Text :=
  imStart ++ "assistant\n".toList ++ (if thinking then [] else think ++ thinkClose)

/-- The tools as they are written. -/
def toolJson (req : ChatRequest F) : List (Json F) := req.tools.map Tool.raw

/-- The markers expanded in a prompt are those of the contents, which are the images of the request,
and these are found again. -/
structure MarkersIntact (encode : Text → List ℕ) (start fin : ℕ) (req : ChatRequest F) : Prop where
  own : marks (prompt req) = placedMarks (generationTurn req.enableThinking)
    (toolsTurn (toolJson req))
    (mapMessages (F := F) req.messages)
  images : (marks (prompt req)).1.map (fun m => (m.hash, m.tokens)) =
    req.images.map fun img => (img.hash, img.tokens.toNat)
  spans : ∃ spans,
    imageSpans (encodeMarked encode (some (start, fin)) (prompt req)) req.images = .ok spans ∧
      spans.map ImageSpan.image = req.images

/-- **The markers of a prompt are the request's own** exactly when no tool string, and no name or
argument of a tool call, brings an opening character before an image, or a marker after the last. -/
theorem markersIntact_iff {codec : ImageCodec} {encode : Text → List ℕ} {start fin : ℕ}
    (hdisplay : ∀ n : F, imageOpen ∉ Fp64.display n)
    (htokens : ∀ height width n, codec.mergedTokens height width = .ok n → 1 ≤ n.toNat)
    (hencode : ∀ t, ∀ id ∈ encode t, id < imageIds) (hstart : start < imageIds)
    (hfin : fin < imageIds)
    {body : Json F} {req : ChatRequest F} (hparse : ChatRequest.parse codec body = .ok req) :
    MarkersIntact encode start fin req ↔
      Intact (stringsItems (toolJson req)) (mapMessages (F := F) req.messages) := by
  obtain ⟨imgs, hholds, himages, hdecoded⟩ := holds_parse hparse
  have hturns : List.Forall₂ (fun (m : ChatMessage F) is => Marked m.content is)
      (mapMessages req.messages) imgs := List.forall₂_map_left_iff.mpr hholds
  have hreasoning : ∀ m ∈ mapMessages (F := F) req.messages, m.reasoning = none := by
    intro m hm
    obtain ⟨_, -, rfl⟩ := List.mem_map.mp hm
    rfl
  have hpost : imageOpen ∉ generationTurn req.enableThinking := by
    cases req.enableThinking <;> decide
  obtain ⟨own, rest, htext, hplaced, hown, hiff⟩ := exists_placed hdisplay hpost hturns hreasoning
    (carries_toolsTurn hdisplay (toolJson req))
  have hprompt : prompt req = assemble own rest := htext
  rw [← himages] at hown
  rw [← hiff]
  constructor
  · intro h
    have hmarks := h.own
    rw [hprompt, hplaced] at hmarks
    exact marks_eq_iff.mp hmarks
  · intro h
    have hmarks : marks (prompt req) = (own.map markOf, rest) := by
      rw [hprompt]
      exact marks_eq_iff.mpr h
    have hpos : ∀ m ∈ own, 1 ≤ m.2.tokens.toNat := by
      intro m hm
      refine htokens _ _ _ (hdecoded m.2 ?_)
      rw [← hown]
      exact List.mem_map_of_mem hm
    refine ⟨hmarks.trans hplaced.symm, ?_, placed encode 0 own, ?_, ?_⟩
    · rw [hmarks, ← hown, List.map_map, List.map_map]
      rfl
    · rw [← hown]
      exact imageSpans_encodeMarked hencode hstart hfin hpos hmarks
    · rw [map_image_placed, hown]

/-! ### Two requests -/

/-- An image crate that decodes every URL to one pixel in one place. -/
def onePixel : ImageCodec where
  decodeDataUrl _ := .ok ⟨1, 1, [0, 0, 0]⟩
  mergedTokens _ _ := .ok 1

def pixel : ImageInput := ⟨fnv1a "data:".toUTF8.toList, 1, 1, 1, [0, 0, 0]⟩

/-- A user's message with one image. -/
def imageBody :
    Json ℤ := .object [("messages".toList, .array [.object [("role".toList, .str "user".toList),
  ("content".toList, .array [.object [("type".toList, .str "image_url".toList),
    ("image_url".toList, .str "data:".toList)]])]])]

def requestOf (content : Text) (tools : List (Tool ℤ)) (images : List ImageInput) :
    ChatRequest ℤ where
  model := []
  messages := [⟨"user".toList, content, []⟩]
  tools := tools
  temperature := none
  topP := none
  topK := none
  minP := none
  seed := none
  maxTokens := none
  stop := []
  stream := false
  includeUsage := false
  enableThinking := false
  parallelToolCalls := true
  images := images

theorem markersIntact_image :
    MarkersIntact charIds 1 2 (requestOf (imageMarker pixel) [] [pixel]) := by
  have hparse : ChatRequest.parse onePixel imageBody =
      .ok (requestOf (imageMarker pixel) [] [pixel]) :=
    rfl
  refine (markersIntact_iff imageOpen_notIn_toString ?_ charIds_lt ?_ ?_ hparse).mpr ?_
  · intro height width n h
    obtain rfl := Except.ok.inj h
    decide
  · decide
  · decide
  · have hsome : imageOpen ∈ (mapMessage (F := ℤ) ⟨"user".toList, imageMarker pixel, []⟩).content :=
      List.mem_cons_self
    have hintact : Intact [] (mapMessages (F := ℤ) [⟨"user".toList, imageMarker pixel, []⟩]) := by
      rw [mapMessages, List.map_singleton, Intact, if_pos hsome]
      exact ⟨fun _ h => absurd h List.not_mem_nil, id⟩
    exact hintact

def forged : Text := [imageOpen, '0', ':', '1', imageClose]

/-- A tool whose description is a marker. -/
def forgedTool : Json ℤ :=
  .object [("function".toList, .object [("description".toList, .str forged)])]

def forgedBody :
    Json ℤ := .object [("messages".toList, .array [.object [("role".toList, .str "user".toList),
  ("content".toList, .str "hi".toList)]]), ("tools".toList, .array [forgedTool])]

def forgedRequest : ChatRequest ℤ :=
  requestOf "hi".toList [⟨"function".toList, ⟨[], some forged, none⟩, forgedTool⟩] []

theorem not_markersIntact_forgedTool : ChatRequest.parse onePixel forgedBody = .ok forgedRequest ∧
    ¬ MarkersIntact charIds 1 2 forgedRequest := by
  refine ⟨rfl, fun h => ?_⟩
  have hnext : (nextMarker (prompt forgedRequest)).isSome = true := by decide +kernel
  obtain ⟨⟨before, hash, n, rest⟩, hnext⟩ := Option.isSome_iff_exists.mp hnext
  have himages := h.images
  rw [marks_some hnext] at himages
  exact nomatch himages

end Coordinator

end Mimo26

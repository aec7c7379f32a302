import Mimo26.Repack.Spelling

/-!
# What the parser reads of a written manifest

A written manifest, piece by piece: each piece is a text and what it is read back as.

## Main definitions

* `Part` — a text and its value; strings, numbers, lists and objects
* `Manifest.part` — a manifest as it is written

## Main results

* `spells_part` — a written manifest is read back part by part
* `jsonParse_toJson` — what the parser makes of the text of a manifest
-/

namespace Mimo26

namespace Repack

/-! ### Parts -/

/-- A text, and what it is read back as if anything. -/
structure Part where
  text : List Char
  value : Option Json

namespace Part

def str (s : String) : Part := ⟨quoted s, some (.str (reread s))⟩

def nat (n : ℕ) : Part := ⟨Nat.toDigits 10 n, rereadNat n⟩

/-- Texts with a comma and `sep` between any two. -/
def join (sep : List Char) : List (List Char) → List Char
  | [] => []
  | [t] => t
  | t :: ts => t ++ ',' :: (sep ++ join sep ts)

/-- A list, with white space after the opening bracket, the commas and the last item. -/
def list (lead sep close : List Char) (parts : List Part) : Part where
  text := '[' :: ((if parts = [] then [] else lead ++ join sep (parts.map text)) ++
    (close ++ [']']))
  value := (parts.mapM value).map .array

/-- An object, with white space in the same places. -/
def object (lead sep close : List Char) (fields : List (String × Part)) : Part where
  text := '\x7b' :: (lead ++ (join sep (fields.map fun a => pair a.1 a.2.text) ++
    (close ++ ['\x7d'])))
  value := (fields.mapM fun (a : String × Part) => a.2.value.map fun v => (reread a.1, v)).map fun fs =>
    .object (fs.foldl insertField [])

end Part

variable {lead sep close w inner : List Char}

theorem Separated.blank_append {ts : List (List Char)} (hw : Blank w) (h : Separated ts inner) :
    Separated ts (w ++ inner) := by
  cases h with
  | @last v t v' hv hv' =>
    rw [← List.append_assoc]
    exact .last (fun c hc => (List.mem_append.mp hc).elim (hw c) (hv c)) hv'
  | @cons v t v' ts r hv hv' h =>
    rw [← List.append_assoc]
    exact .cons (fun c hc => (List.mem_append.mp hc).elim (hw c) (hv c)) hv' h

theorem Separated.append_blank {ts : List (List Char)} (hw : Blank w) (h : Separated ts inner) :
    Separated ts (inner ++ w) := by
  induction h with
  | @last v t v' hv hv' =>
    rw [List.append_assoc, List.append_assoc]
    exact .last hv fun c hc => (List.mem_append.mp hc).elim (hv' c) (hw c)
  | @cons v t v' ts r hv hv' h ih =>
    rw [List.append_assoc, List.append_assoc, List.append_assoc, List.cons_append]
    exact .cons hv hv' ih

theorem separated_join (hsep : Blank sep) {ts : List (List Char)} (hts : ts ≠ []) :
    Separated ts (Part.join sep ts) := by
  induction ts with
  | nil => exact absurd rfl hts
  | cons t ts ih =>
    cases ts with
    | nil =>
      have hlast := @Separated.last [] t [] nofun nofun
      rwa [List.nil_append, List.append_nil] at hlast
    | cons u ts =>
      exact @Separated.cons [] _ [] _ _ nofun nofun
        ((ih (List.cons_ne_nil u ts)).blank_append hsep)

/-- A part is read back as its value. -/
abbrev Part.Spelled (p : Part) : Prop := Spells p.text p.value

theorem spelled_str (s : String) : (Part.str s).Spelled := spells_str s

theorem spelled_nat (n : ℕ) : (Part.nat n).Spelled := spells_nat n

theorem spelled_list (hlead : Blank lead) (hsep : Blank sep) (hclose : Blank close)
    {parts : List Part} (h : ∀ p ∈ parts, p.Spelled) : (Part.list lead sep close parts).Spelled := by
  by_cases hnil : parts = []
  · subst hnil
    exact spells_emptyArray hclose
  · have hjoin := @separated_join _ hsep (parts.map Part.text) (by simpa using hnil)
    have hspells := spells_array ((hjoin.blank_append hlead).append_blank hclose) h
    rw [List.append_assoc] at hspells
    unfold Part.Spelled Part.list
    rwa [if_neg hnil]

theorem spelled_object (hlead : Blank lead) (hsep : Blank sep) (hclose : Blank close)
    {fields : List (String × Part)} (hne : fields ≠ []) (h : ∀ a ∈ fields, a.2.Spelled)
    (hkeys : (fields.map Prod.fst).Nodup) : (Part.object lead sep close fields).Spelled := by
  have hjoin := @separated_join _ hsep (fields.map fun a => pair a.1 a.2.text)
    (by simpa using hne)
  have hnodup : (fields.map fun a => reread a.1).Nodup := by
    rw [← Function.comp_def, ← List.map_map]
    exact hkeys.map reread_injective
  have hspells := spells_object ((hjoin.blank_append hlead).append_blank hclose) h hnodup
  rwa [List.append_assoc, List.append_assoc] at hspells

/-! ### The parts of a manifest -/

/-- Two spaces of indentation a level, on a new line. -/
def indent (level : ℕ) : List Char := '\n' :: List.replicate (2 * level) ' '

def LayoutEntry.part (r : LayoutEntry) : Part :=
  .object [] [' '] [] [("proj", .str r.proj), ("region", .str r.region), ("off", .nat r.off),
    ("len", .nat r.len)]

def SourceTensor.part (t : SourceTensor) : Part :=
  .object [] [' '] [] [("name", .str t.name), ("shape", .list [] [' '] [] (t.shape.map .nat)),
    ("dtype", .str t.dtype)]

/-- The source of a slice. -/
def SliceEntry.source (e : SliceEntry) : Part :=
  .object (indent 4) (indent 4) (indent 3) [("shard", .str e.shard),
    ("tensors", .list (indent 5) (indent 5) (indent 4) (e.tensors.map SourceTensor.part))]

def SliceEntry.part (e : SliceEntry) : Part :=
  .object (indent 3) (indent 3) (indent 2) [("file", .str e.file), ("sha256", .str e.sha256),
    ("bytes", .nat e.bytes), ("layer", .nat e.layer), ("expert", .nat e.expert),
    ("rank", .nat e.rank), ("source", e.source)]

def Manifest.geometryPart (m : Manifest) : Part :=
  .object (indent 2) (indent 2) (indent 1) ((OrderedMap.inOrder m.geometry).map fun x =>
    (x.1, .nat x.2))

def Manifest.part (m : Manifest) : Part :=
  .object (indent 1) (indent 1) (indent 0) [("format", .str m.format),
    ("version", .nat m.version), ("generated_by", .str m.generatedBy),
    ("geometry", m.geometryPart),
    ("layout", .list (indent 2) (indent 2) (indent 1) (m.layout.map LayoutEntry.part)),
    ("slices", .list (indent 2) (indent 2) (indent 1) (m.slices.map SliceEntry.part))]

theorem blank_indent (level : ℕ) : Blank (indent level) := by
  intro c hc
  rcases List.mem_cons.mp hc with rfl | hc
  · exact .inr (.inr (.inl rfl))
  · exact .inl (List.eq_of_mem_replicate hc)

theorem LayoutEntry.spelled (r : LayoutEntry) : r.part.Spelled := by
  refine spelled_object (by decide) (by decide) (by decide) (List.cons_ne_nil _ _) ?_ (by simp)
  simp only [List.forall_mem_cons, List.not_mem_nil, false_imp_iff, implies_true, and_true]
  exact ⟨spelled_str _, spelled_str _, spelled_nat _, spelled_nat _⟩

theorem SourceTensor.spelled (t : SourceTensor) : t.part.Spelled := by
  refine spelled_object (by decide) (by decide) (by decide) (List.cons_ne_nil _ _) ?_ (by simp)
  simp only [List.forall_mem_cons, List.not_mem_nil, false_imp_iff, implies_true, and_true]
  refine ⟨spelled_str _, spelled_list (by decide) (by decide) (by decide) fun p hp => ?_,
    spelled_str _⟩
  obtain ⟨n, -, rfl⟩ := List.mem_map.mp hp
  exact spelled_nat n

theorem SliceEntry.spelled_source (e : SliceEntry) : e.source.Spelled := by
  refine spelled_object (blank_indent 4) (blank_indent 4) (blank_indent 3) (List.cons_ne_nil _ _) ?_
    (by simp)
  simp only [List.forall_mem_cons, List.not_mem_nil, false_imp_iff, implies_true, and_true]
  refine ⟨spelled_str _, spelled_list (blank_indent 5) (blank_indent 5) (blank_indent 4) ?_⟩
  intro p hp
  obtain ⟨t, -, rfl⟩ := List.mem_map.mp hp
  exact t.spelled

theorem SliceEntry.spelled (e : SliceEntry) : e.part.Spelled := by
  refine spelled_object (blank_indent 3) (blank_indent 3) (blank_indent 2) (List.cons_ne_nil _ _) ?_
    (by simp)
  simp only [List.forall_mem_cons, List.not_mem_nil, false_imp_iff, implies_true, and_true]
  exact ⟨spelled_str _, spelled_str _, spelled_nat _, spelled_nat _, spelled_nat _, spelled_nat _,
    e.spelled_source⟩

theorem Manifest.spelled_geometry {m : Manifest} (hm : m.geometry ≠ ∅) :
    m.geometryPart.Spelled := by
  refine spelled_object (blank_indent 2) (blank_indent 2) (blank_indent 1) ?_ ?_ ?_
  · intro hnil
    rw [List.map_eq_nil_iff] at hnil
    exact hm (by rw [← OrderedMap.ofList_inOrder m.geometry, hnil]; rfl)
  · intro a ha
    obtain ⟨x, -, rfl⟩ := List.mem_map.mp ha
    exact spelled_nat x.2
  · rw [List.map_map]
    exact OrderedMap.nodup_inOrder m.geometry

/-- **A written manifest is read back part by part**; its geometry is not empty. -/
theorem Manifest.spelled {m : Manifest} (hm : m.geometry ≠ ∅) : m.part.Spelled := by
  refine spelled_object (blank_indent 1) (blank_indent 1) (blank_indent 0) (List.cons_ne_nil _ _) ?_
    (by simp)
  simp only [List.forall_mem_cons, List.not_mem_nil, false_imp_iff, implies_true, and_true]
  refine ⟨spelled_str _, spelled_nat _, spelled_str _, m.spelled_geometry hm, ?_, ?_⟩
  · refine spelled_list (blank_indent 2) (blank_indent 2) (blank_indent 1) fun p hp => ?_
    obtain ⟨r, -, rfl⟩ := List.mem_map.mp hp
    exact r.spelled
  · refine spelled_list (blank_indent 2) (blank_indent 2) (blank_indent 1) fun p hp => ?_
    obtain ⟨e, -, rfl⟩ := List.mem_map.mp hp
    exact e.spelled

/-! ### The text of a manifest -/

theorem seen_lit {s : String} (h : ∀ c ∈ s.toList, c.toNat < 128) : seen s.toList = s.toList :=
  seen_of_ascii h

theorem seen_nat (n : ℕ) : seen (toString n).toList = Nat.toDigits 10 n := by
  have htext : (toString n).toList = Nat.toDigits 10 n := by
    show (Nat.repr n).toList = _
    rw [Nat.repr, String.toList_ofList]
  rw [htext]
  refine seen_of_ascii fun c hc => ?_
  have hdigit := digit_of_mem hc
  simp only [Char.isDigit, Bool.and_eq_true, decide_eq_true_eq] at hdigit
  exact Nat.lt_of_le_of_lt hdigit.2 (by decide)

/-- ASCII that is written as it is. -/
def Plain (s : String) : Prop := ∀ c ∈ s.toList, c.toNat < 128 ∧ (escapeChar c).toList = [c]

instance (s : String) : Decidable (Plain s) := inferInstanceAs (Decidable (∀ c ∈ s.toList, _))

theorem quoted_plain {s : String} (h : Plain s) : quoted s = '"' :: (s.toList ++ ['"']) := by
  have hbody : body s.toList = s.toList := by
    rw [body, List.flatMap_congr fun c hc => (h c hc).2]
    exact List.flatMap_singleton' _
  rw [quoted, hbody, seen_lit fun c hc => (h c hc).1]

theorem LayoutEntry.seen_toJson (r : LayoutEntry) :
    seen r.toJson.toList = List.replicate 4 ' ' ++ r.part.text := by
  unfold LayoutEntry.toJson LayoutEntry.part Part.object Part.str Part.nat
  simp only [String.toList_append, seen_append, seen_jsonStr, seen_nat, List.append_assoc, pair,
    List.map_cons, List.map_nil, Part.join]
  simp (disch := decide) only [seen_lit, quoted_plain]
  simp only [List.append_assoc, List.cons_append, List.nil_append]
  rfl

/-- Numbers between commas. -/
theorem seen_intercalate (shape : List ℕ) : seen (", ".intercalate (shape.map toString)).toList =
    Part.join [' '] (shape.map fun n => (Part.nat n).text) := by
  have hcomma : seen ", ".toList = [',', ' '] := seen_lit (by decide)
  rw [String.toList_intercalate, List.map_map]
  induction shape with
  | nil => rfl
  | cons n shape ih =>
    cases shape with
    | nil =>
      rw [List.map_cons, List.map_nil, List.intercalate_singleton]
      exact seen_nat n
    | cons k shape =>
      rw [List.map_cons, List.map_cons, List.intercalate_cons_cons, seen_append, seen_append,
        hcomma]
      rw [List.map_cons] at ih
      have hn : seen ((String.toList ∘ toString) n) = (Part.nat n).text := seen_nat n
      rw [ih, hn, List.append_assoc]
      rfl

theorem SourceTensor.seen_toJson (t : SourceTensor) :
    seen t.toJson.toList = List.replicate 10 ' ' ++ t.part.text := by
  have hlist : (Part.list [] [' '] [] (t.shape.map .nat)).text =
      '[' :: (seen (", ".intercalate (t.shape.map toString)).toList ++ [']']) := by
    rw [seen_intercalate]
    unfold Part.list
    by_cases hnil : t.shape = []
    · rw [hnil]
      rfl
    · rw [if_neg (by simpa using hnil), List.map_map]
      rfl
  unfold SourceTensor.toJson SourceTensor.part Part.object
  simp only [String.toList_append, seen_append, seen_jsonStr, List.append_assoc, pair,
    List.map_cons, List.map_nil, Part.join, hlist]
  unfold Part.str
  simp (disch := decide) only [seen_lit, quoted_plain]
  simp only [List.append_assoc, List.cons_append, List.nil_append]
  rfl

/-- Lines, after the end of the line before. -/
theorem seen_commaLines {ι : Type} {items : List ι} {line : ι → String} {text : ι → List Char}
    {level : ℕ}
    (hline : ∀ a ∈ items, seen (line a).toList = List.replicate (2 * level) ' ' ++ text a) :
    '\n' :: seen (commaLines (items.map line)).toList =
      (if items = [] then [] else indent level ++ Part.join (indent level) (items.map text)) ++
        ['\n'] := by
  have hcomma : seen ",\n".toList = [',', '\n'] := seen_lit (by decide)
  have hnewline : seen "\n".toList = ['\n'] := seen_lit (by decide)
  induction items with
  | nil => rfl
  | cons a items ih =>
    have hrest := ih fun b hb => hline b (List.mem_cons_of_mem a hb)
    rw [if_neg (List.cons_ne_nil a items)]
    cases items with
    | nil =>
      rw [List.map_cons, List.map_nil, commaLines, String.toList_append, seen_append,
        hline a List.mem_cons_self, hnewline]
      rfl
    | cons b items =>
      rw [if_neg (List.cons_ne_nil b items)] at hrest
      have hstep : commaLines ((a :: b :: items).map line) =
          line a ++ ",\n" ++ commaLines ((b :: items).map line) := rfl
      rw [hstep, String.toList_append, String.toList_append, seen_append, seen_append,
        hline a List.mem_cons_self, hcomma, List.append_assoc]
      show '\n' :: (List.replicate (2 * level) ' ' ++ text a ++ (',' :: ('\n' ::
        seen (commaLines ((b :: items).map line)).toList))) = _
      rw [hrest]
      simp only [List.map_cons, Part.join, indent, List.cons_append, List.append_assoc]

/-- A list whose items are lines. -/
theorem text_list {ι : Type} {items : List ι} {line : ι → String} {part : ι → Part} {level k : ℕ}
    (hline : ∀ a ∈ items,
      seen (line a).toList = List.replicate (2 * level) ' ' ++ (part a).text) :
    (Part.list (indent level) (indent level) (indent k) (items.map part)).text =
      '[' :: '\n' :: (seen (commaLines (items.map line)).toList ++
        (List.replicate (2 * k) ' ' ++ [']'])) := by
  have hlines := seen_commaLines hline
  have hright : '[' :: '\n' :: (seen (commaLines (items.map line)).toList ++
      (List.replicate (2 * k) ' ' ++ [']'])) =
      '[' :: (('\n' :: seen (commaLines (items.map line)).toList) ++
        (List.replicate (2 * k) ' ' ++ [']'])) := rfl
  rw [hright, hlines, List.append_assoc]
  by_cases hnil : items = []
  · rw [hnil]
    rfl
  · unfold Part.list
    rw [if_neg hnil, if_neg (by simpa using hnil), List.map_map]
    rfl

set_option maxRecDepth 4000 in
theorem SliceEntry.seen_toJson (e : SliceEntry) :
    seen e.toJson.toList = List.replicate 4 ' ' ++ e.part.text := by
  have hlist := @text_list _ e.tensors SourceTensor.toJson SourceTensor.part 5 4
    fun t (_ : t ∈ e.tensors) => t.seen_toJson
  unfold SliceEntry.toJson SliceEntry.part SliceEntry.source Part.object
  simp only [String.toList_append, seen_append, seen_jsonStr, seen_nat, List.append_assoc, pair,
    List.map_cons, List.map_nil, Part.join, hlist]
  unfold Part.str Part.nat
  simp (disch := decide) only [seen_lit, quoted_plain]
  simp only [List.append_assoc, List.cons_append, List.nil_append]
  rfl

/-- The fields of the geometry are lines. -/
theorem Manifest.text_geometry {m : Manifest} (hm : m.geometry ≠ ∅) : m.geometryPart.text =
    '\x7b' :: '\n' :: (seen (commaLines ((OrderedMap.inOrder m.geometry).map fun x =>
      "    " ++ jsonStr x.1 ++ ": " ++ toString x.2)).toList ++
        (List.replicate 2 ' ' ++ ['\x7d'])) := by
  have hne : OrderedMap.inOrder m.geometry ≠ [] := by
    intro hnil
    exact hm (by rw [← OrderedMap.ofList_inOrder m.geometry, hnil]; rfl)
  have hline : ∀ x ∈ OrderedMap.inOrder m.geometry,
      seen ("    " ++ jsonStr x.1 ++ ": " ++ toString x.2).toList =
        List.replicate (2 * 2) ' ' ++ pair x.1 (Part.nat x.2).text := by
    intro x _
    simp only [String.toList_append, seen_append, seen_jsonStr, seen_nat, List.append_assoc]
    rw [seen_lit (by decide), seen_lit (by decide)]
    rfl
  have hlines := seen_commaLines hline
  have hright (t : List Char) : '\x7b' :: '\n' :: (t ++ (List.replicate 2 ' ' ++ ['\x7d'])) =
      '\x7b' :: (('\n' :: t) ++ (List.replicate 2 ' ' ++ ['\x7d'])) := rfl
  rw [hright, hlines, if_neg hne]
  unfold Manifest.geometryPart Part.object
  rw [List.map_map, List.append_assoc, List.append_assoc]
  rfl

set_option maxRecDepth 4000 in
theorem Manifest.seen_toJson {m : Manifest} (hm : m.geometry ≠ ∅) :
    seen m.toJson.toList = m.part.text ++ ['\n'] := by
  have hlayout := @text_list _ m.layout LayoutEntry.toJson LayoutEntry.part 2 1
    fun r (_ : r ∈ m.layout) => r.seen_toJson
  have hslices := @text_list _ m.slices SliceEntry.toJson SliceEntry.part 2 1
    fun e (_ : e ∈ m.slices) => e.seen_toJson
  unfold Manifest.toJson Manifest.part Part.object
  simp only [String.toList_append, seen_append, seen_jsonStr, seen_nat, List.append_assoc, pair,
    List.map_cons, List.map_nil, Part.join, hlayout, hslices, m.text_geometry hm]
  unfold Part.str Part.nat
  simp (disch := decide) only [seen_lit, quoted_plain]
  simp only [List.append_assoc, List.cons_append, List.nil_append]
  rfl

/-- **What the parser makes of the text of a manifest.** -/
theorem jsonParse_toJson {m : Manifest} (hm : m.geometry ≠ ∅) (v : Json) :
    jsonParse m.toJson = .ok v ↔ m.part.value = some v :=
  jsonParse_of_spells (m.spelled hm) (by decide) (m.seen_toJson hm) v

end Repack

end Mimo26

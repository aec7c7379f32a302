import Mimo26.Api.Request
import Mimo26.Library.Numerals

/-!
# Image markers in a prompt

`encode_marked` turns each image marker of a rendered prompt into the places of its image, and stops
at the first opening character that begins none; `image_spans` finds the places again (`api.rs` of
the coordinator). The tokenizer is a parameter.

## Main definitions

* `nextMarker`, `encodeMarked`, `imageSpans` — the next marker, the ids of a prompt, the images in
  them
* `marks` — the markers that are expanded, each with the text before it, and the text after the last

## Main results

* `marks_eq_iff` — which markers are expanded, and where
* `imageSpans_encodeMarked` — the images of the markers expanded are found again, in order
-/

namespace Mimo26

namespace Coordinator

open Api Search Numerals Result

/-- The id that stands for row `i` of an image: past every vocabulary, and a function of the image.
-/
def imageTokenId (hash : UInt64) (i : ℕ) : ℕ :=
  let x := hash ^^^ (UInt64.ofNat i * 0x9E3779B97F4A7C15)
  let x := x ^^^ (x >>> 33)
  let x := x * 0xff51afd7ed558ccd
  let x := x ^^^ (x >>> 33)
  let x := x * 0xc4ceb9fe1a85ec53
  let x := x ^^^ (x >>> 33)
  ((0x80000000 : UInt32) ||| (x.toUInt32 &&& 0x7fffffff)).toNat

/-- The first id past every vocabulary. -/
def imageIds : ℕ := 0x80000000

theorem le_imageTokenId (hash : UInt64) (i : ℕ) : imageIds ≤ imageTokenId hash i := by
  rw [imageTokenId, UInt32.toNat_or]
  exact Nat.left_le_or

/-- Hash and number of places between the reserved characters. -/
def readBody (body : Text) : Option (UInt64 × ℕ) :=
  match find [':'] body with
  | none => none
  | some k => do
    let hash ← readUnsigned 16 (2 ^ 64) (body.take k)
    let n ← readUnsigned 10 (2 ^ 64) (body.drop (k + 1))
    return (UInt64.ofNat hash, n)

/-- The first marker: the text before it, its hash and number of places, and the text after it. None
where the first opening character begins no marker. -/
def nextMarker (rest : Text) : Option (Text × UInt64 × ℕ × Text) :=
  match find [imageOpen] rest with
  | none => none
  | some i =>
    let after := rest.drop (i + 1)
    match find [imageClose] after with
    | none => none
    | some j => (readBody (after.take j)).map fun (hash, n) =>
      (rest.take i, hash, n, after.drop (j + 1))

theorem nextMarker_of_notIn {t : Text} (h : imageOpen ∉ t) : nextMarker t = none := by
  rw [nextMarker, find_char_none h]

/-- What a marker is. -/
theorem nextMarker_eq_some_iff {rest before rest' : Text} {hash : UInt64} {n : ℕ} :
    nextMarker rest = some (before, hash, n, rest') ↔
      ∃ body, rest = before ++ imageOpen :: (body ++ imageClose :: rest') ∧ imageOpen ∉ before ∧
        imageClose ∉ body ∧ readBody body = some (hash, n) := by
  constructor
  · intro h
    rw [nextMarker] at h
    split at h
    · exact absurd h nofun
    · next i hi =>
      dsimp only at h
      obtain ⟨head, t, rfl, rfl, hhead⟩ := exists_of_find_char hi
      have hafter : (head ++ imageOpen :: t).drop (head.length + 1) = t := by simp
      rw [hafter] at h
      split at h
      · exact absurd h nofun
      · next j hj =>
        obtain ⟨body, t', rfl, rfl, hbody⟩ := exists_of_find_char hj
        obtain ⟨⟨hash', n'⟩, hread, hx⟩ := Option.map_eq_some_iff.mp h
        simp only [List.take_left, Prod.mk.injEq, List.drop_length_add_append, List.drop_succ_cons,
          List.drop_zero] at hx hread
        obtain ⟨rfl, rfl, rfl, rfl⟩ := hx
        exact ⟨body, rfl, hhead, hbody, hread⟩
  · rintro ⟨body, rfl, hbefore, hbody, hread⟩
    have hafter : (before ++ imageOpen :: (body ++ imageClose :: rest')).drop (before.length + 1) =
        body ++ imageClose :: rest' := by simp
    rw [nextMarker, find_char hbefore]
    dsimp only
    rw [hafter, find_char hbody]
    dsimp only
    rw [List.take_left, List.take_left, hread]
    simp

theorem nextMarker_lt {rest before rest' : Text} {hash : UInt64} {n : ℕ}
    (h : nextMarker rest = some (before, hash, n, rest')) : rest'.length < rest.length := by
  obtain ⟨body, rfl, -⟩ := nextMarker_eq_some_iff.mp h
  simp only [List.length_append, List.length_cons]
  omega

variable (encode : Text → List ℕ) (start fin : ℕ)

/-- Text encodes to nothing where there is none. -/
def encodeText (text : Text) : List ℕ := if text = [] then [] else encode text

/-- The loop of `encodeMarked`. -/
def encodeRest (rest : Text) : List ℕ :=
  match _h : nextMarker rest with
  | none => encodeText encode rest
  | some (before, hash, n, rest') =>
    encodeText encode before ++ start :: (List.range n).map (imageTokenId hash) ++ [fin] ++
      encodeRest rest'
termination_by rest.length
decreasing_by exact nextMarker_lt _h

/-- The ids of a rendered prompt. Without an image encoder there are no markers. -/
def encodeMarked (vision : Option (ℕ × ℕ)) (text : Text) : List ℕ :=
  match vision with
  | none => encode text
  | some (start, fin) => if imageOpen ∈ text then encodeRest encode start fin text else encode text

/-- An image in a prompt. -/
structure ImageSpan where
  start : ℕ
  image : ImageInput
  deriving DecidableEq

/-- The loop of `imageSpans`, from id `i` on. -/
def spansFrom (images : List ImageInput) (i : ℕ) (spans : List ImageSpan) (ids : List ℕ) :
    Except String (List ImageSpan) :=
  match ids with
  | [] => .ok spans
  | id :: ids =>
    if id < imageIds then spansFrom images (i + 1) spans ids
    else
      let run := 1 + (ids.takeWhile (imageIds ≤ ·)).length
      match images[spans.length]? with
      | none => .error "the prompt has more images than the request"
      | some img =>
        if run ≠ img.tokens.toNat ∨ id ≠ imageTokenId img.hash 0 then
          let k := spans.length
          .error s!"image {k} does not match its place in the prompt"
        else spansFrom images (i + run) (spans ++ [⟨i, img⟩]) (ids.dropWhile (imageIds ≤ ·))
termination_by ids.length
decreasing_by
  · exact Nat.lt_succ_self _
  · exact Nat.lt_succ_of_le (List.dropWhile_suffix _).length_le

/-- Where each image of a request sits in its prompt. -/
def imageSpans (ids : List ℕ) (images : List ImageInput) : Except String (List ImageSpan) := do
  let spans ← spansFrom images 0 [] ids
  let asked := images.length
  let found := spans.length
  demand (spans.length = images.length) s!"{asked} images in the request, {found} in the prompt"
  return spans

/-! ### Markers -/

/-- A marker that is expanded, with the text between it and the one before. -/
structure Mark where
  before : Text
  hash : UInt64
  tokens : ℕ
  deriving DecidableEq

/-- The markers that are expanded, and the text after the last. -/
def marks (text : Text) : List Mark × Text :=
  match _h : nextMarker text with
  | none => ([], text)
  | some (before, hash, n, rest) => (⟨before, hash, n⟩ :: (marks rest).1, (marks rest).2)
termination_by text.length
decreasing_by all_goals exact nextMarker_lt _h

theorem marks_none {text : Text} (h : nextMarker text = none) : marks text = ([], text) := by
  rw [marks]
  split
  · rfl
  · next h' => exact nomatch h.symm.trans h'

theorem marks_some {text before rest : Text} {hash : UInt64} {n : ℕ}
    (h : nextMarker text = some (before, hash, n, rest)) :
    marks text = (⟨before, hash, n⟩ :: (marks rest).1, (marks rest).2) := by
  conv_lhs => rw [marks]
  split
  · next h' => exact nomatch h.symm.trans h'
  · next h' =>
    have heq := Option.some.inj (h.symm.trans h')
    simp only [Prod.mk.injEq] at heq
    obtain ⟨rfl, rfl, rfl, rfl⟩ := heq
    rfl

/-- Neither reserved character stands in a numeral or a colon. -/
theorem mem_of_readBody {body : Text} {hash : UInt64} {n : ℕ} (h : readBody body = some (hash, n)) :
    ∀ c ∈ body, c = ':' ∨ c = '+' ∨ (digit 16 c).isSome := by
  rw [readBody] at h
  split at h
  · exact absurd h nofun
  · next k hk =>
    obtain ⟨head, t, rfl, rfl, -⟩ := exists_of_find_char hk
    have hdrop : (head ++ ':' :: t).drop (head.length + 1) = t := by simp
    rw [List.take_left, hdrop] at h
    obtain ⟨x, hx, h⟩ := Option.bind_eq_some_iff.mp h
    obtain ⟨m, hm, -⟩ := Option.bind_eq_some_iff.mp h
    intro c hc
    rcases List.mem_append.mp hc with hhead | htail
    · exact .inr (mem_of_readUnsigned hx c hhead)
    · rcases List.mem_cons.mp htail with rfl | htail
      · exact .inl rfl
      · exact .inr ((mem_of_readUnsigned hm c htail).imp_right (digit_mono (by decide)))

theorem readBody_markerBody (img : ImageInput) :
    readBody (markerBody img) = some (img.hash, img.tokens.toNat) := by
  have hhash : readUnsigned 16 (2 ^ 64) (hex016 img.hash.toNat) = some img.hash.toNat :=
    readUnsigned_toDigits (by decide) (by decide) img.hash.toNat_lt _
  have htokens : readUnsigned 10 (2 ^ 64) (Nat.toDigits 10 img.tokens.toNat) =
      some img.tokens.toNat :=
    readUnsigned_toDigits (by decide) (by decide) img.tokens.toNat_lt 0
  have hcolon : ':' ∉ hex016 img.hash.toNat := by
    intro hmem
    rcases mem_of_readUnsigned hhash ':' hmem with h | h
    · exact absurd h (by decide)
    · exact absurd h (by decide)
  have hdrop : (markerBody img).drop ((hex016 img.hash.toNat).length + 1) =
      Nat.toDigits 10 img.tokens.toNat := by simp [markerBody]
  have hfind : find [':'] (markerBody img) = some (hex016 img.hash.toNat).length :=
    find_char hcolon _
  rw [readBody, hfind]
  dsimp only
  rw [hdrop, markerBody, List.take_left, hhash, htokens]
  simp

/-- The marker of an image reads back. -/
theorem nextMarker_imageMarker {before : Text} (hbefore : imageOpen ∉ before) (img : ImageInput)
    (rest : Text) : nextMarker (before ++ imageMarker img ++ rest) =
      some (before, img.hash, img.tokens.toNat, rest) := by
  have hbody := readBody_markerBody img
  refine nextMarker_eq_some_iff.mpr ⟨markerBody img, by simp [imageMarker], hbefore, ?_, hbody⟩
  intro hclose
  rcases mem_of_readBody hbody imageClose hclose with h | h | h
  · exact absurd h (by decide)
  · exact absurd h (by decide)
  · exact absurd h (by decide)

/-! ### Which markers are expanded -/

/-- A text put together from markers. -/
def assemble (ms : List (Text × ImageInput)) (rest : Text) : Text :=
  ms.flatMap (fun m => m.1 ++ imageMarker m.2) ++ rest

/-- The markers of an image, with the text before it. -/
def markOf (m : Text × ImageInput) : Mark := ⟨m.1, m.2.hash, m.2.tokens.toNat⟩

theorem nextMarker_snd (text : Text) : nextMarker (marks text).2 = none := by
  induction hlen : text.length using Nat.strong_induction_on generalizing text with
  | _ len ih =>
    subst hlen
    cases h : nextMarker text with
    | none => rwa [marks_none h]
    | some x =>
      obtain ⟨before, hash, n, rest⟩ := x
      rw [marks_some h]
      exact ih _ (nextMarker_lt h) rest rfl

theorem imageOpen_notIn_before (text : Text) : ∀ m ∈ (marks text).1, imageOpen ∉ m.before := by
  induction hlen : text.length using Nat.strong_induction_on generalizing text with
  | _ len ih =>
    subst hlen
    cases h : nextMarker text with
    | none =>
      rw [marks_none h]
      exact fun m hm => absurd hm List.not_mem_nil
    | some x =>
      obtain ⟨before, hash, n, rest⟩ := x
      obtain ⟨body, -, hbefore, -⟩ := nextMarker_eq_some_iff.mp h
      rw [marks_some h]
      exact List.forall_mem_cons.mpr ⟨hbefore, ih _ (nextMarker_lt h) rest rfl⟩

/-- **The markers placed are the ones expanded**, and where they were placed, exactly when no
opening character stands between them and none after them begins a marker. -/
theorem marks_eq_iff {ms : List (Text × ImageInput)} {rest : Text} :
    marks (assemble ms rest) = (ms.map markOf, rest) ↔
      (∀ m ∈ ms, imageOpen ∉ m.1) ∧ nextMarker rest = none := by
  constructor
  · intro h
    refine ⟨fun m hm => ?_, ?_⟩
    · have hbefore := imageOpen_notIn_before (assemble ms rest) (markOf m)
      rw [h] at hbefore
      exact hbefore (List.mem_map_of_mem hm)
    · have hrest := nextMarker_snd (assemble ms rest)
      rwa [h] at hrest
  · rintro ⟨hms, hrest⟩
    induction ms with
    | nil => exact marks_none hrest
    | cons m ms ih =>
      obtain ⟨hm, hms⟩ := List.forall_mem_cons.mp hms
      have hnext : nextMarker (assemble (m :: ms) rest) =
          some (m.1, m.2.hash, m.2.tokens.toNat, assemble ms rest) := by
        rw [← nextMarker_imageMarker hm m.2 (assemble ms rest)]
        simp [assemble]
      rw [marks_some hnext, ih hms]
      rfl

/-! ### The images found again -/

/-- The ids of a marker: the text before it, and the places of its image between two others. -/
def markIds (m : Mark) : List ℕ :=
  encodeText encode m.before ++ start :: (List.range m.tokens).map (imageTokenId m.hash) ++ [fin]

theorem encodeRest_eq (text : Text) : encodeRest encode start fin text =
    (marks text).1.flatMap (markIds encode start fin) ++ encodeText encode (marks text).2 := by
  induction hlen : text.length using Nat.strong_induction_on generalizing text with
  | _ len ih =>
    subst hlen
    rw [encodeRest]
    split
    · next h => rw [marks_none h]; rfl
    · next before hash n rest h =>
      rw [marks_some h, ih _ (nextMarker_lt h) rest rfl, List.flatMap_cons, ← List.append_assoc]
      rfl

/-- Where the images are whose markers are expanded, from id `i` on. -/
def placed (i : ℕ) : List (Text × ImageInput) → List ImageSpan
  | [] => []
  | m :: ms =>
    let first := i + (encodeText encode m.1).length + 1
    ⟨first, m.2⟩ :: placed (first + m.2.tokens.toNat + 1) ms

theorem map_image_placed (i : ℕ) (ms : List (Text × ImageInput)) :
    (placed encode i ms).map ImageSpan.image = ms.map Prod.snd := by
  induction ms generalizing i with
  | nil => rfl
  | cons m ms ih => exact congrArg (m.2 :: ·) (ih _)

variable {encode start fin}

theorem flatMap_markIds_cons (m : Text × ImageInput) (ms : List (Text × ImageInput))
    (tail : List ℕ) :
    ((m :: ms).map markOf).flatMap (markIds encode start fin) ++ tail =
      encodeText encode m.1 ++ ([start] ++
        ((List.range m.2.tokens.toNat).map (imageTokenId m.2.hash) ++ fin ::
          ((ms.map markOf).flatMap (markIds encode start fin) ++ tail))) := by
  simp [markIds, markOf]

theorem spansFrom_small (images : List ImageInput) {small : List ℕ}
    (h : ∀ id ∈ small, id < imageIds)
    (i : ℕ) (spans : List ImageSpan) (ids : List ℕ) :
    spansFrom images i spans (small ++ ids) = spansFrom images (i + small.length) spans ids := by
  induction small generalizing i with
  | nil => rfl
  | cons id small ih =>
    obtain ⟨hid, hrest⟩ := List.forall_mem_cons.mp h
    rw [List.cons_append, spansFrom, if_pos hid, ih hrest, List.length_cons, Nat.add_assoc,
      Nat.add_comm 1]

/-- The places of an image are one run, which is compared with the next image of the request. -/
theorem spansFrom_run (images : List ImageInput) (spans : List ImageSpan) {img : ImageInput}
    (hpos : 1 ≤ img.tokens.toNat) (hfin : fin < imageIds) (i : ℕ) (ids : List ℕ) :
    spansFrom images i spans
        ((List.range img.tokens.toNat).map (imageTokenId img.hash) ++ fin :: ids) =
      match images[spans.length]? with
      | none => .error "the prompt has more images than the request"
      | some img' =>
        if img.tokens.toNat ≠ img'.tokens.toNat ∨
          imageTokenId img.hash 0 ≠ imageTokenId img'.hash 0 then
          let k := spans.length
          .error s!"image {k} does not match its place in the prompt"
        else spansFrom images (i + img.tokens.toNat) (spans ++ [⟨i, img'⟩]) (fin :: ids) := by
  obtain ⟨n, hn⟩ := Nat.exists_eq_add_of_le' hpos
  have hlarge : ∀ id ∈ (List.range n).map fun k => imageTokenId img.hash (k + 1),
      decide (imageIds ≤ id) = true := by
    intro id hid
    obtain ⟨k, -, rfl⟩ := List.mem_map.mp hid
    exact decide_eq_true (le_imageTokenId _ _)
  have hstop : decide (imageIds ≤ fin) = false := decide_eq_false (Nat.not_le.mpr hfin)
  have hrun : (List.range img.tokens.toNat).map (imageTokenId img.hash) =
      imageTokenId img.hash 0 :: (List.range n).map fun k => imageTokenId img.hash (k + 1) := by
    rw [hn, List.range_succ_eq_map, List.map_cons, List.map_map]
    rfl
  rw [hrun, List.cons_append, spansFrom, if_neg (Nat.not_lt.mpr (le_imageTokenId _ _))]
  dsimp only
  rw [List.takeWhile_append_of_pos hlarge, List.dropWhile_append_of_pos hlarge,
    List.takeWhile_cons_of_neg (by simp [hstop]), List.dropWhile_cons_of_neg (by simp [hstop]),
    List.append_nil, List.length_map, List.length_range, Nat.add_comm 1, ← hn]

/-- The places of an image are one span. -/
theorem spansFrom_image {images : List ImageInput} {spans : List ImageSpan} {img : ImageInput}
    (himg : images[spans.length]? = some img) (hpos : 1 ≤ img.tokens.toNat) (hfin : fin < imageIds)
    (i : ℕ) (ids : List ℕ) :
    spansFrom images i spans
        ((List.range img.tokens.toNat).map (imageTokenId img.hash) ++ fin :: ids) =
      spansFrom images (i + img.tokens.toNat) (spans ++ [⟨i, img⟩]) (fin :: ids) := by
  rw [spansFrom_run images spans hpos hfin, himg]
  exact if_neg (by simp)

theorem lt_of_mem_encodeText (hencode : ∀ t, ∀ id ∈ encode t, id < imageIds) (t : Text) :
    ∀ id ∈ encodeText encode t, id < imageIds := by
  intro id hid
  rw [encodeText] at hid
  split at hid
  · exact absurd hid List.not_mem_nil
  · exact hencode t id hid

/-- The ids of a prompt: those of its markers, and of the text after the last. -/
theorem exists_ids (hencode : ∀ t, ∀ id ∈ encode t, id < imageIds) {ms : List Mark}
    {text rest : Text}
    (hmarks : marks text = (ms, rest)) :
    ∃ tail, (∀ id ∈ tail, id < imageIds) ∧
      encodeMarked encode (some (start, fin)) text = ms.flatMap (markIds encode start fin) ++
          tail := by
  rw [encodeMarked]
  split
  · refine ⟨encodeText encode rest, lt_of_mem_encodeText hencode rest, ?_⟩
    rw [encodeRest_eq, hmarks]
  · next hopen =>
    rw [marks_none (nextMarker_of_notIn hopen)] at hmarks
    obtain ⟨rfl, rfl⟩ := Prod.mk.inj hmarks
    exact ⟨encode text, hencode text, rfl⟩

/-- **The images of the markers expanded are found again**, each where it was placed, in order. -/
theorem spansFrom_marks (hencode : ∀ t, ∀ id ∈ encode t, id < imageIds) (hstart : start < imageIds)
    (hfin : fin < imageIds) {images : List ImageInput} {ms : List (Text × ImageInput)}
    {spans : List ImageSpan}
    (himages : images.drop spans.length = ms.map Prod.snd) (hpos : ∀ m ∈ ms, 1 ≤ m.2.tokens.toNat)
    (i : ℕ) {tail : List ℕ} (htail : ∀ id ∈ tail, id < imageIds) :
    spansFrom images i spans ((ms.map markOf).flatMap (markIds encode start fin) ++ tail) =
      .ok (spans ++ placed encode i ms) := by
  induction ms generalizing i spans with
  | nil =>
    have hsmall := spansFrom_small images htail i spans []
    rw [List.append_nil] at hsmall
    rw [List.map_nil, List.flatMap_nil, List.nil_append, hsmall, spansFrom, placed, List.append_nil]
  | cons m ms ih =>
    obtain ⟨hm, hms⟩ := List.forall_mem_cons.mp hpos
    have himg : images[spans.length]? = some m.2 := by
      rw [← List.head?_drop, himages]
      rfl
    have hdrop (first : ℕ) :
        images.drop (spans ++ [(⟨first, m.2⟩ : ImageSpan)]).length = ms.map Prod.snd := by
      rw [List.length_append, List.length_singleton, ← List.drop_drop, himages]
      rfl
    have hone {id : ℕ} (hid : id < imageIds) : ∀ id' ∈ [id], id' < imageIds := by simpa using hid
    rw [flatMap_markIds_cons, spansFrom_small _ (lt_of_mem_encodeText hencode m.1),
      spansFrom_small _ (hone hstart), List.length_singleton, spansFrom_image himg hm hfin]
    refine (spansFrom_small _ (hone hfin) _ _ _).trans ((ih (hdrop _) hms _).trans ?_)
    rw [List.append_assoc]
    rfl

theorem imageSpans_eq_ok {ids : List ℕ} {images : List ImageInput} {spans : List ImageSpan} :
    imageSpans ids images = .ok spans ↔
      spansFrom images 0 [] ids = .ok spans ∧ spans.length = images.length := by
  rw [imageSpans]
  constructor
  · intro h
    obtain ⟨out, hout, h⟩ := bind_eq_ok.mp h
    obtain ⟨u, hlen, h⟩ := bind_eq_ok.mp h
    obtain rfl := Except.ok.inj h
    exact ⟨hout, demand_eq_ok.mp hlen⟩
  · rintro ⟨hout, hlen⟩
    rw [hout, ok_bind]
    dsimp only
    rw [demand_eq_ok.mpr hlen]
    rfl

theorem imageSpans_encodeMarked (hencode : ∀ t, ∀ id ∈ encode t, id < imageIds)
    (hstart : start < imageIds) (hfin : fin < imageIds) {ms : List (Text × ImageInput)}
    (hpos : ∀ m ∈ ms, 1 ≤ m.2.tokens.toNat) {text rest : Text}
    (hmarks : marks text = (ms.map markOf, rest)) :
    imageSpans (encodeMarked encode (some (start, fin)) text) (ms.map Prod.snd) =
      .ok (placed encode 0 ms) := by
  obtain ⟨tail, htail, hids⟩ := exists_ids hencode hmarks
  rw [imageSpans_eq_ok, hids]
  constructor
  · exact spansFrom_marks hencode hstart hfin rfl hpos 0 htail
  · rw [← map_image_placed encode 0 ms, List.length_map]

/-! ### A tokenizer -/

/-- Every character is an id of its own. -/
def charIds (text : Text) : List ℕ := text.map Char.toNat

theorem charIds_lt (text : Text) : ∀ id ∈ charIds text, id < imageIds := by
  intro id hid
  obtain ⟨c, -, rfl⟩ := List.mem_map.mp hid
  rcases c.valid with h | ⟨-, h⟩
  · exact Nat.lt_trans h (by decide)
  · exact Nat.lt_trans h (by decide)

end Coordinator

end Mimo26

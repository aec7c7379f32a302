import Mimo26.Coordinator.Marked

/-!
# Where the images of a prompt are found

A text put together from plain text and image markers is encoded with a run of ids for each image.
The scan compares a run with the next image of the request by its length and its first id, which is
31 bits of the image's hash.

## Main definitions

* `SpansOf` — spans that cover the images' ids and nothing else
* `Agrees` — two images that the scan cannot tell apart

## Main results

* `imageSpans_assemble` — the images are found where they are, and only lists that agree with them
  are accepted -/

namespace Mimo26

namespace Coordinator

open Api Result

/-- The ids of an image. -/
def imageRun (img : ImageInput) : List ℕ :=
  (List.range img.tokens.toNat).map (imageTokenId img.hash)

/-- From id `i` on, spans that cover the ids of the images, one image after another, and no other id
past the vocabulary. -/
structure SpansOf (ids : List ℕ) (i : ℕ) (images : List ImageInput) (spans : List ImageSpan) :
    Prop where
  images : spans.map ImageSpan.image = images
  bound : ∀ s ∈ spans, i ≤ s.start
  runs : ∀ s ∈ spans, (ids.drop s.start).take s.image.tokens.toNat = imageRun s.image
  apart : spans.Pairwise fun s s' => s.start + s.image.tokens.toNat ≤ s'.start
  only : ∀ p id, i ≤ p → ids[p]? = some id → imageIds ≤ id →
    ∃ s ∈ spans, s.start ≤ p ∧ p < s.start + s.image.tokens.toNat

/-- The same length and the same first id. -/
def Agrees (img img' : ImageInput) : Prop :=
  img.tokens = img'.tokens ∧ imageTokenId img.hash 0 = imageTokenId img'.hash 0

instance (img img' : ImageInput) : Decidable (Agrees img img') :=
    inferInstanceAs (Decidable (_ ∧ _))

/-! ### The images found -/

section Found

variable {ids : List ℕ} {i k : ℕ} {images : List ImageInput} {spans : List ImageSpan}

theorem spansOf_nil (hi : ids.length ≤ i) : SpansOf ids i [] [] where
  images := rfl
  bound _ hs := absurd hs List.not_mem_nil
  runs _ hs := absurd hs List.not_mem_nil
  apart := .nil
  only p id hp hid _ := by
    rw [List.getElem?_eq_none (Nat.le_trans hi hp)] at hid
    exact nomatch hid

/-- Ids of the vocabulary before the images. -/
theorem SpansOf.small (h : SpansOf ids (i + k) images spans) {small t : List ℕ}
    (hids : ids.drop i = small ++ t) (hk : small.length = k)
    (hsmall : ∀ id ∈ small, id < imageIds) :
    SpansOf ids i images spans where
  images := h.images
  bound s hs := Nat.le_trans (Nat.le_add_right i k) (h.bound s hs)
  runs := h.runs
  apart := h.apart
  only p id hp hid hlarge := by
    by_cases hpk : p < i + k
    · obtain ⟨j, rfl⟩ := Nat.exists_eq_add_of_le hp
      rw [← List.getElem?_drop, hids, List.getElem?_append_left (by omega)] at hid
      exact absurd (hsmall id (List.mem_of_getElem? hid)) (Nat.not_lt.mpr hlarge)
    · exact h.only p id (Nat.not_lt.mp hpk) hid hlarge

/-- An image before the others. -/
theorem SpansOf.image {img : ImageInput} (h : SpansOf ids (i + img.tokens.toNat) images spans)
    {t : List ℕ} (hids : ids.drop i = imageRun img ++ t) :
    SpansOf ids i (img :: images) (⟨i, img⟩ :: spans) where
  images := by rw [List.map_cons, h.images]
  bound s hs := by
    rcases List.mem_cons.mp hs with rfl | hs
    · exact Nat.le_refl i
    · exact Nat.le_trans (Nat.le_add_right i _) (h.bound s hs)
  runs s hs := by
    rcases List.mem_cons.mp hs with rfl | hs
    · have hlen : (imageRun img).length = img.tokens.toNat := by simp [imageRun]
      rw [hids, ← hlen, List.take_left]
    · exact h.runs s hs
  apart := List.pairwise_cons.mpr ⟨h.bound, h.apart⟩
  only p id hp hid hlarge := by
    by_cases hpn : p < i + img.tokens.toNat
    · exact ⟨⟨i, img⟩, List.mem_cons_self, hp, hpn⟩
    · obtain ⟨s, hs, hin⟩ := h.only p id (Nat.not_lt.mp hpn) hid hlarge
      exact ⟨s, List.mem_cons_of_mem _ hs, hin⟩

variable {encode : Text → List ℕ} {start fin : ℕ}

/-- The spans placed are those of the images. -/
theorem spansOf_placed (hencode : ∀ t, ∀ id ∈ encode t, id < imageIds) (hstart : start < imageIds)
    (hfin : fin < imageIds) {ms : List (Text × ImageInput)} {tail : List ℕ}
    (htail : ∀ id ∈ tail, id < imageIds)
    (hids : ids.drop i = (ms.map markOf).flatMap (markIds encode start fin) ++ tail) :
    SpansOf ids i (ms.map Prod.snd) (placed encode i ms) := by
  induction ms generalizing i with
  | nil =>
    have hrest : SpansOf ids (i + tail.length) [] [] := by
      have hlen := congrArg List.length hids
      rw [List.length_drop] at hlen
      exact spansOf_nil (by simp at hlen; omega)
    have hids' : ids.drop i = tail ++ [] := by simpa using hids
    exact hrest.small hids' rfl htail
  | cons m ms ih =>
    rw [flatMap_markIds_cons, ← List.append_assoc] at hids
    have himage : ids.drop (i + ((encodeText encode m.1).length + 1)) = imageRun m.2 ++ fin ::
        ((ms.map markOf).flatMap (markIds encode start fin) ++ tail) := by
      rw [← List.drop_drop, hids]
      exact List.drop_left' (by simp)
    have hlast : ids.drop (i + ((encodeText encode m.1).length + 1) + m.2.tokens.toNat) = [fin] ++
        ((ms.map markOf).flatMap (markIds encode start fin) ++ tail) := by
      rw [← List.drop_drop, himage]
      exact List.drop_left' (by simp [imageRun])
    have hnext : ids.drop (i + ((encodeText encode m.1).length + 1) + m.2.tokens.toNat + 1) =
        (ms.map markOf).flatMap (markIds encode start fin) ++ tail := by
      rw [← List.drop_drop, hlast]
      rfl
    have hone : ∀ id ∈ [fin], id < imageIds := by simpa using hfin
    have htext : ∀ id ∈ encodeText encode m.1 ++ [start], id < imageIds :=
      List.forall_mem_append.mpr ⟨lt_of_mem_encodeText hencode m.1, by simpa using hstart⟩
    exact (((ih hnext).small hlast rfl hone).image himage).small hids (by simp) htext

end Found

/-! ### The lists accepted -/

section Accepted

variable {encode : Text → List ℕ} {start fin : ℕ}

/-- The markers left are accepted for the images left when they agree. -/
theorem spansFrom_accepts (hencode : ∀ t, ∀ id ∈ encode t, id < imageIds)
    (hstart : start < imageIds)
    (hfin : fin < imageIds) {images : List ImageInput} {ms : List (Text × ImageInput)}
    (hpos : ∀ m ∈ ms, 1 ≤ m.2.tokens.toNat) {spans : List ImageSpan}
    (hspans : spans.length ≤ images.length) (i : ℕ) {tail : List ℕ}
    (htail : ∀ id ∈ tail, id < imageIds) :
    (∃ out, spansFrom images i spans ((ms.map markOf).flatMap (markIds encode start fin) ++ tail) =
        .ok out ∧ out.length = images.length) ↔
      List.Forall₂ Agrees (ms.map Prod.snd) (images.drop spans.length) := by
  induction ms generalizing i spans with
  | nil =>
    have hsmall := spansFrom_small images htail i spans []
    rw [List.append_nil, spansFrom] at hsmall
    rw [List.map_nil, List.flatMap_nil, List.nil_append, hsmall, List.map_nil,
      List.forall₂_nil_left_iff,
      List.drop_eq_nil_iff]
    constructor
    · rintro ⟨out, hout, hlen⟩
      obtain rfl := Except.ok.inj hout
      exact Nat.le_of_eq hlen.symm
    · exact fun hle => ⟨spans, rfl, Nat.le_antisymm hspans hle⟩
  | cons m ms ih =>
    obtain ⟨hm, hms⟩ := List.forall_mem_cons.mp hpos
    have hone {id : ℕ} (hid : id < imageIds) : ∀ id' ∈ [id], id' < imageIds := by simpa using hid
    rw [flatMap_markIds_cons, spansFrom_small _ (lt_of_mem_encodeText hencode m.1),
      spansFrom_small _ (hone hstart), spansFrom_run images spans hm hfin, List.map_cons]
    cases himg : images[spans.length]? with
    | none =>
      have hdrop : images.drop spans.length = [] :=
        List.drop_eq_nil_iff.mpr (List.getElem?_eq_none_iff.mp himg)
      rw [hdrop]
      exact iff_of_false (fun h => by obtain ⟨_, ⟨⟩, _⟩ := h) fun h => by cases h
    | some img' =>
      obtain ⟨hlt, hget⟩ := List.getElem?_eq_some_iff.mp himg
      have hdrop : images.drop spans.length = img' :: images.drop (spans.length + 1) := by
        rw [List.drop_eq_getElem_cons hlt, hget]
      have hagrees : Agrees m.2 img' ↔ ¬ (m.2.tokens.toNat ≠ img'.tokens.toNat ∨
          imageTokenId m.2.hash 0 ≠ imageTokenId img'.hash 0) := by
        rw [Agrees, not_or, not_not, not_not, UInt64.toNat_inj]
      rw [hdrop, List.forall₂_cons, hagrees]
      dsimp only
      split_ifs with hdiff
      · exact iff_of_false (fun h => by obtain ⟨_, ⟨⟩, _⟩ := h) fun h => h.1 hdiff
      · rw [and_iff_right hdiff]
        have hfinished (j : ℕ) (spans' : List ImageSpan) (t : List ℕ) :
            spansFrom images j spans' (fin :: t) = spansFrom images (j + 1) spans' t :=
          spansFrom_small images (hone hfin) j spans' t
        have hlen (j : ℕ) : (spans ++ [(⟨j, img'⟩ : ImageSpan)]).length = spans.length + 1 := by
          simp
        rw [hfinished, ih hms (by rw [hlen]; exact hlt), hlen]

/-- Which lists of images are accepted. -/
theorem imageSpans_accepts (hencode : ∀ t, ∀ id ∈ encode t, id < imageIds)
    (hstart : start < imageIds)
    (hfin : fin < imageIds) {ms : List (Text × ImageInput)} (hpos : ∀ m ∈ ms, 1 ≤ m.2.tokens.toNat)
    {text rest : Text} (hmarks : marks text = (ms.map markOf, rest)) (images : List ImageInput) :
    (∃ spans, imageSpans (encodeMarked encode (some (start, fin)) text) images = .ok spans) ↔
      List.Forall₂ Agrees (ms.map Prod.snd) images := by
  obtain ⟨tail, htail, hids⟩ := exists_ids hencode hmarks
  have hempty : ([] : List ImageSpan).length ≤ images.length := Nat.zero_le images.length
  have haccepts := spansFrom_accepts hencode hstart hfin hpos hempty 0 htail
  rw [hids]
  exact (exists_congr fun spans => imageSpans_eq_ok).trans haccepts

/-- **The images of a prompt are found where they are**, in order and apart; a list of images is
accepted exactly when it has as many, of the same lengths and first ids. -/
theorem imageSpans_assemble (hencode : ∀ t, ∀ id ∈ encode t, id < imageIds)
    (hstart : start < imageIds)
    (hfin : fin < imageIds) {ms : List (Text × ImageInput)} {rest : Text}
    (hpos : ∀ m ∈ ms, 1 ≤ m.2.tokens.toNat) (hms : ∀ m ∈ ms, imageOpen ∉ m.1)
    (hrest : imageOpen ∉ rest) :
    (∃ spans, imageSpans (encodeMarked encode (some (start, fin)) (assemble ms rest))
      (ms.map Prod.snd) =
        .ok spans ∧
      SpansOf (encodeMarked encode (some (start, fin)) (assemble ms rest)) 0 (ms.map Prod.snd)
        spans) ∧
    ∀ images,
      (∃ spans, imageSpans (encodeMarked encode (some (start, fin)) (assemble ms rest)) images =
        .ok spans) ↔ List.Forall₂ Agrees (ms.map Prod.snd) images := by
  have hmarks : marks (assemble ms rest) = (ms.map markOf, rest) :=
    marks_eq_iff.mpr ⟨hms, nextMarker_of_notIn hrest⟩
  obtain ⟨tail, htail, hids⟩ := exists_ids hencode hmarks
  constructor
  · refine ⟨placed encode 0 ms, imageSpans_encodeMarked hencode hstart hfin hpos hmarks, ?_⟩
    exact spansOf_placed hencode hstart hfin htail hids
  · exact imageSpans_accepts hencode hstart hfin hpos hmarks

end Accepted

/-! ### Two images -/

/-- An image of one place. -/
def placeholder (hash : UInt64) : ImageInput := ⟨hash, 1, 1, 1, [0, 0, 0]⟩

theorem imageSpans_assemble_placeholders : ∃ spans,
    imageSpans
      (encodeMarked charIds (some (1, 2))
        (assemble [(['a'], placeholder 7), ([], placeholder 8)] []))
      [placeholder 7, placeholder 8] = .ok spans ∧
    SpansOf (encodeMarked charIds (some (1, 2))
      (assemble [(['a'], placeholder 7), ([], placeholder 8)] []))
      0 [placeholder 7, placeholder 8] spans :=
  (imageSpans_assemble charIds_lt (by decide) (by decide) (by decide) (by decide) (by decide)).1

/-- Two images of one length and one first id are accepted in the other order. -/
theorem imageSpans_swapped : ∃ x y : ImageInput, x ≠ y ∧
    ∃ spans, imageSpans (encodeMarked charIds (some (1, 2)) (assemble [([], x), ([], y)] []))
      [y, x] =
      .ok spans := by
  have hmarks : marks (assemble [([], placeholder 0), ([], placeholder 0x3838d7e82a5fee3a)] []) =
      ([([], placeholder 0), ([], placeholder 0x3838d7e82a5fee3a)].map markOf, []) :=
    marks_eq_iff.mpr ⟨by decide, nextMarker_of_notIn List.not_mem_nil⟩
  refine ⟨placeholder 0, placeholder 0x3838d7e82a5fee3a, by decide, ?_⟩
  refine (imageSpans_accepts charIds_lt (by decide) (by decide) (by decide) hmarks _).mpr ?_
  exact .cons (by decide) (.cons (by decide) .nil)

end Coordinator

end Mimo26

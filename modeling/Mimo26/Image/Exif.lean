import Mathlib.Data.Set.Function
import Mimo26.Library.Grid

/-!
# Orientations

An image is turned as its EXIF orientation says (`apply` of `exif.rs`): each of the seven
orientations other than the upright one reads every output pixel from one source pixel. An image
has no more bytes than its sides call for.

## Main definitions

* `RgbImage`, `RgbImage.channel` — an image, and a channel of one of its pixels
* `source`, `apply` — the pixel an output pixel is read from, and the turned image
* `inverse` — the orientation that turns back

## Main results

* `channel_apply` — what an output pixel holds
* `apply_symmetries` — pixels are moved one to one, and the orientations compose as the symmetries
  of the rectangle
-/

namespace Mimo26

namespace Image

open Grid

/-- An 8-bit RGB image, row by row. -/
@[ext]
structure RgbImage where
  width : ℕ
  height : ℕ
  data : List UInt8
  length_data : data.length = width * height * 3

namespace RgbImage

/-- Channel `i` of the pixel in column `p.1` of row `p.2`. -/
def channel (img : RgbImage) (p : ℕ × ℕ) (i : ℕ) : UInt8 :=
  img.data.getD ((p.2 * img.width + p.1) * 3 + i) 0

/-- The places of its pixels. -/
def pixels (img : RgbImage) : Set (ℕ × ℕ) := {p | p.1 < img.width ∧ p.2 < img.height}

end RgbImage

/-- The source pixel of column `p.1` of row `p.2`, in an image of `w` by `h`. -/
def source (orientation : ℤ) (w h : ℕ) (p : ℕ × ℕ) : ℕ × ℕ :=
  if orientation = 2 then (w - 1 - p.1, p.2)
  else if orientation = 3 then (w - 1 - p.1, h - 1 - p.2)
  else if orientation = 4 then (p.1, h - 1 - p.2)
  else if orientation = 5 then (p.2, p.1)
  else if orientation = 6 then (p.2, h - 1 - p.1)
  else if orientation = 7 then (w - 1 - p.2, h - 1 - p.1)
  else (w - 1 - p.2, p.1)

/-- The sides of the turned image. -/
def turnedSides (orientation : ℤ) (w h : ℕ) : ℕ × ℕ := if 5 ≤ orientation then (h, w) else (w, h)

/-- What is written to each output pixel, in the order of the loops. -/
def turnedPixels (img : RgbImage) (orientation : ℤ) : List (ℕ × (ℕ → UInt8)) :=
  let sides := turnedSides orientation img.width img.height
  (slots sides.2 sides.1).map fun rc =>
    (rc.1 * sides.1 + rc.2, img.channel (source orientation img.width img.height (rc.2, rc.1)))

theorem area_turnedSides (orientation : ℤ) (w h : ℕ) :
    (turnedSides orientation w h).1 * (turnedSides orientation w h).2 = w * h := by
  rw [turnedSides]
  split
  · exact Nat.mul_comm h w
  · rfl

/-- Turn an image; orientations other than these leave it. -/
def apply (img : RgbImage) (orientation : ℤ) : RgbImage :=
  if ¬ (2 ≤ orientation ∧ orientation ≤ 8) ∨ img.width = 0 ∨ img.height = 0 then img
  else
    { width := (turnedSides orientation img.width img.height).1
      height := (turnedSides orientation img.width img.height).2
      data := scatterSet 3 (turnedPixels img orientation) (List.replicate img.data.length 0)
      length_data := by
        rw [length_scatterSet, List.length_replicate, img.length_data, area_turnedSides] }

/-- The orientation that turns back. -/
def inverse (orientation : ℤ) : ℤ :=
  if orientation = 6 then 8 else if orientation = 8 then 6 else orientation

/-! ### Pixels -/

variable {img : RgbImage} {o : ℤ} {w h : ℕ}

theorem orientation_cases (ho : 2 ≤ o ∧ o ≤ 8) :
    o = 2 ∨ o = 3 ∨ o = 4 ∨ o = 5 ∨ o = 6 ∨ o = 7 ∨ o = 8 := by omega

theorem inverse_mem (ho : 2 ≤ o ∧ o ≤ 8) : 2 ≤ inverse o ∧ inverse o ≤ 8 := by
  rw [inverse]
  split
  · decide
  · split
    · decide
    · exact ho

theorem turnedSides_pos (o : ℤ) (hw : 0 < w) (hh : 0 < h) :
    0 < (turnedSides o w h).1 ∧ 0 < (turnedSides o w h).2 := by
  rw [turnedSides]
  split
  · exact ⟨hh, hw⟩
  · exact ⟨hw, hh⟩

theorem turnedSides_inverse (ho : 2 ≤ o ∧ o ≤ 8) :
    turnedSides (inverse o) (turnedSides o w h).1 (turnedSides o w h).2 = (w, h) := by
  rcases orientation_cases ho with rfl | rfl | rfl | rfl | rfl | rfl | rfl <;> rfl

/-- An output pixel is read from a pixel of the source. -/
theorem source_lt (ho : 2 ≤ o ∧ o ≤ 8) {p : ℕ × ℕ} (hc : p.1 < (turnedSides o w h).1)
    (hr : p.2 < (turnedSides o w h).2) : (source o w h p).1 < w ∧ (source o w h p).2 < h := by
  rcases orientation_cases ho with rfl | rfl | rfl | rfl | rfl | rfl | rfl
  · exact ⟨show w - 1 - p.1 < w by change p.1 < w at hc; omega, hr⟩
  · exact ⟨show w - 1 - p.1 < w by change p.1 < w at hc; omega,
      show h - 1 - p.2 < h by change p.2 < h at hr; omega⟩
  · exact ⟨hc, show h - 1 - p.2 < h by change p.2 < h at hr; omega⟩
  · exact ⟨hr, hc⟩
  · exact ⟨hr, show h - 1 - p.1 < h by change p.1 < h at hc; omega⟩
  · exact ⟨show w - 1 - p.2 < w by change p.2 < w at hr; omega,
      show h - 1 - p.1 < h by change p.1 < h at hc; omega⟩
  · exact ⟨show w - 1 - p.2 < w by change p.2 < w at hr; omega, hc⟩

/-- Turning there and back reads a pixel from its own place. -/
theorem source_inverse (ho : 2 ≤ o ∧ o ≤ 8) {p : ℕ × ℕ} (hc : p.1 < w) (hr : p.2 < h) :
    source o w h (source (inverse o) (turnedSides o w h).1 (turnedSides o w h).2 p) = p := by
  rcases orientation_cases ho with rfl | rfl | rfl | rfl | rfl | rfl | rfl
  · exact Prod.ext (show w - 1 - (w - 1 - p.1) = p.1 by omega) rfl
  · exact Prod.ext (show w - 1 - (w - 1 - p.1) = p.1 by omega)
      (show h - 1 - (h - 1 - p.2) = p.2 by omega)
  · exact Prod.ext rfl (show h - 1 - (h - 1 - p.2) = p.2 by omega)
  · rfl
  · exact Prod.ext rfl (show h - 1 - (h - 1 - p.2) = p.2 by omega)
  · exact Prod.ext (show w - 1 - (w - 1 - p.1) = p.1 by omega)
      (show h - 1 - (h - 1 - p.2) = p.2 by omega)
  · exact Prod.ext (show w - 1 - (w - 1 - p.1) = p.1 by omega) rfl

theorem inverse_inverse (ho : 2 ≤ o ∧ o ≤ 8) : inverse (inverse o) = o := by
  rcases orientation_cases ho with rfl | rfl | rfl | rfl | rfl | rfl | rfl <;> rfl

/-- The same from the turned image. -/
theorem inverse_source (ho : 2 ≤ o ∧ o ≤ 8) {p : ℕ × ℕ} (hc : p.1 < (turnedSides o w h).1)
    (hr : p.2 < (turnedSides o w h).2) :
    source (inverse o) (turnedSides o w h).1 (turnedSides o w h).2 (source o w h p) = p := by
  have hback := @source_inverse (inverse o) _ _ (inverse_mem ho) p hc hr
  rwa [turnedSides_inverse ho, inverse_inverse ho] at hback

/-! ### Images -/

/-- Images with the same sides and channels are the same. -/
theorem RgbImage.eq_of_channel {img img' : RgbImage} (hw : img.width = img'.width)
    (hh : img.height = img'.height)
    (h : ∀ p ∈ img.pixels, ∀ i < 3, img.channel p i = img'.channel p i) : img = img' := by
  refine RgbImage.ext hw hh (List.ext_getElem? fun j => ?_)
  have hlen : img.data.length = img'.data.length := by
    rw [img.length_data, img'.length_data, hw, hh]
  by_cases hj : j < img.data.length
  · -- the byte is channel `j % 3` of pixel `j / 3`
    have hpixel : j / 3 < img.width * img.height := by
      have := img.length_data
      omega
    have hpos : 0 < img.width := Nat.pos_of_ne_zero fun h0 => by
      rw [h0, Nat.zero_mul] at hpixel
      exact Nat.not_lt_zero _ hpixel
    have hc := h (j / 3 % img.width, j / 3 / img.width)
      ⟨Nat.mod_lt _ hpos, Nat.div_lt_of_lt_mul hpixel⟩ (j % 3) (Nat.mod_lt _ (by decide))
    rw [RgbImage.channel, RgbImage.channel, ← hw, Nat.div_add_mod' (j / 3) img.width,
      Nat.div_add_mod' j 3] at hc
    rw [List.getD_eq_getElem?_getD, List.getD_eq_getElem?_getD, List.getElem?_eq_getElem hj,
      List.getElem?_eq_getElem (hlen ▸ hj), Option.getD_some, Option.getD_some] at hc
    rw [List.getElem?_eq_getElem hj, List.getElem?_eq_getElem (hlen ▸ hj), hc]
  · rw [List.getElem?_eq_none (by omega), List.getElem?_eq_none (by omega)]

theorem apply_of_empty (h : img.width = 0 ∨ img.height = 0) : apply img o = img :=
  if_pos (Or.inr h)

/-- An image with pixels is turned. -/
theorem apply_of_nonempty (ho : 2 ≤ o ∧ o ≤ 8) (hw : 0 < img.width) (hh : 0 < img.height) :
    (apply img o).width = (turnedSides o img.width img.height).1 ∧
      (apply img o).height = (turnedSides o img.width img.height).2 ∧
      (apply img o).data =
        scatterSet 3 (turnedPixels img o) (List.replicate img.data.length 0) := by
  have hturn : ¬ (¬ (2 ≤ o ∧ o ≤ 8) ∨ img.width = 0 ∨ img.height = 0) := by
    rintro (h | h | h)
    · exact h ho
    · exact Nat.ne_of_gt hw h
    · exact Nat.ne_of_gt hh h
  rw [apply, if_neg hturn]
  exact ⟨rfl, rfl, rfl⟩

/-- No output pixel is written twice. -/
theorem nodup_turnedPixels (img : RgbImage) (o : ℤ) :
    ((turnedPixels img o).map (·.1)).Nodup := by
  rw [turnedPixels, List.map_map]
  refine (nodup_slots _ _).map_on fun rc hrc rc' hrc' heq => ?_
  have hlt := (mem_slots.mp hrc).2
  have hlt' := (mem_slots.mp hrc').2
  obtain ⟨hr, hc⟩ := cell_inj hlt hlt' heq
  exact Prod.ext hr hc

/-- **An output pixel** is its source pixel. -/
theorem channel_apply (ho : 2 ≤ o ∧ o ≤ 8) {p : ℕ × ℕ} (hp : p ∈ (apply img o).pixels) {i : ℕ}
    (hi : i < 3) :
    (apply img o).channel p i = img.channel (source o img.width img.height p) i := by
  by_cases hempty : img.width = 0 ∨ img.height = 0
  · rw [apply_of_empty hempty] at hp
    obtain ⟨hc, hr⟩ := hp
    omega
  · obtain ⟨hwidth, hheight, hdata⟩ := apply_of_nonempty ho (show 0 < img.width by omega)
      (by omega)
    obtain ⟨hc, hr⟩ := hp
    rw [hwidth] at hc
    rw [hheight] at hr
    have hitem : (p.2 * (turnedSides o img.width img.height).1 + p.1,
        img.channel (source o img.width img.height p)) ∈ turnedPixels img o :=
      List.mem_map.mpr ⟨(p.2, p.1), mem_slots.mpr ⟨hr, hc⟩, rfl⟩
    have hin : (p.2 * (turnedSides o img.width img.height).1 + p.1) * 3 + i <
        (List.replicate img.data.length (0 : UInt8)).length := by
      rw [List.length_replicate, img.length_data, ← area_turnedSides o img.width img.height,
        Nat.mul_comm (turnedSides o img.width img.height).1]
      exact cell_lt (cell_lt hr hc) hi
    have hcell := getElem?_scatterSet (nodup_turnedPixels img o) hitem hi hin
    rw [RgbImage.channel, hwidth, hdata, List.getD_eq_getElem?_getD, hcell]
    rfl

/-- It is read from a pixel that is there. -/
theorem source_mem (ho : 2 ≤ o ∧ o ≤ 8) {p : ℕ × ℕ} (hp : p ∈ (apply img o).pixels) :
    source o img.width img.height p ∈ img.pixels := by
  by_cases hempty : img.width = 0 ∨ img.height = 0
  · rw [apply_of_empty hempty] at hp
    obtain ⟨hc, hr⟩ := hp
    omega
  · obtain ⟨hwidth, hheight, -⟩ := apply_of_nonempty ho (show 0 < img.width by omega) (by omega)
    exact source_lt ho (hwidth ▸ hp.1) (hheight ▸ hp.2)

/-- **Turning there and back** gives the image. -/
theorem apply_inverse (img : RgbImage) (ho : 2 ≤ o ∧ o ≤ 8) :
    apply (apply img o) (inverse o) = img := by
  by_cases hempty : img.width = 0 ∨ img.height = 0
  · rw [apply_of_empty hempty, apply_of_empty hempty]
  · have hw : 0 < img.width := by omega
    have hh : 0 < img.height := by omega
    obtain ⟨hwidth, hheight, -⟩ := apply_of_nonempty ho hw hh
    have hpos := turnedSides_pos o hw hh
    rw [← hwidth, ← hheight] at hpos
    obtain ⟨hwidth', hheight', -⟩ := apply_of_nonempty (inverse_mem ho) hpos.1 hpos.2
    rw [hwidth, hheight, turnedSides_inverse ho] at hwidth' hheight'
    refine RgbImage.eq_of_channel hwidth' hheight' fun p hp i hi => ?_
    rw [channel_apply (inverse_mem ho) hp hi, channel_apply ho (source_mem (inverse_mem ho) hp) hi,
      hwidth, hheight, source_inverse ho (hp.1.trans_eq hwidth') (hp.2.trans_eq hheight')]

/-- **A quarter turn** is a transposition after a flip. -/
theorem apply_six (img : RgbImage) : apply (apply img 4) 5 = apply img 6 := by
  by_cases hempty : img.width = 0 ∨ img.height = 0
  · rw [apply_of_empty hempty, apply_of_empty hempty, apply_of_empty hempty]
  · have hw : 0 < img.width := by omega
    have hh : 0 < img.height := by omega
    have hflip : (2 : ℤ) ≤ 4 ∧ (4 : ℤ) ≤ 8 := by decide
    have htranspose : (2 : ℤ) ≤ 5 ∧ (5 : ℤ) ≤ 8 := by decide
    have hturn : (2 : ℤ) ≤ 6 ∧ (6 : ℤ) ≤ 8 := by decide
    obtain ⟨hwidth, hheight, -⟩ := apply_of_nonempty hflip hw hh
    obtain ⟨hwidth', hheight', -⟩ := apply_of_nonempty htranspose
      (show 0 < (apply img 4).width from hwidth ▸ hw)
      (show 0 < (apply img 4).height from hheight ▸ hh)
    obtain ⟨hwidth'', hheight'', -⟩ := apply_of_nonempty hturn hw hh
    rw [hwidth, hheight] at hwidth' hheight'
    refine RgbImage.eq_of_channel (hwidth'.trans hwidth''.symm) (hheight'.trans hheight''.symm)
      fun p hp i hi => ?_
    have hp' : p ∈ (apply img 6).pixels :=
      ⟨(hwidth'.trans hwidth''.symm) ▸ hp.1, (hheight'.trans hheight''.symm) ▸ hp.2⟩
    rw [channel_apply htranspose hp hi, channel_apply hflip (source_mem htranspose hp) hi,
      channel_apply hturn hp' hi]
    rfl

/-- **The pixels** of an image of any size go one to one to those of the turned image, whatever
they hold; turning by the inverse orientation gives the image, and a quarter turn is a transposition
after a flip. -/
theorem apply_symmetries (ho : 2 ≤ o ∧ o ≤ 8) :
    (∀ w h, ∃ place : ℕ × ℕ → ℕ × ℕ, ∀ img : RgbImage, img.width = w → img.height = h →
      Set.BijOn place img.pixels (apply img o).pixels ∧
        ∀ p ∈ img.pixels, ∀ i < 3, (apply img o).channel (place p) i = img.channel p i) ∧
      (∀ img, apply (apply img o) (inverse o) = img) ∧
      ∀ img, apply (apply img 4) 5 = apply img 6 := by
  refine ⟨fun w h => ?_, fun img => apply_inverse img ho, apply_six⟩
  refine ⟨source (inverse o) (turnedSides o w h).1 (turnedSides o w h).2, ?_⟩
  rintro img rfl rfl
  by_cases hempty : img.width = 0 ∨ img.height = 0
  · have hnone : img.pixels = ∅ := by
      refine Set.eq_empty_of_forall_notMem fun p hp => ?_
      obtain ⟨hc, hr⟩ := hp
      omega
    rw [apply_of_empty hempty, hnone]
    exact ⟨Set.bijOn_empty _, fun p hp => absurd hp (Set.notMem_empty p)⟩
  · obtain ⟨hwidth, hheight, -⟩ := apply_of_nonempty ho (show 0 < img.width by omega)
      (show 0 < img.height by omega)
    have hsides := @turnedSides_inverse _ img.width img.height ho
    have hplace : Set.MapsTo
        (source (inverse o) (turnedSides o img.width img.height).1
          (turnedSides o img.width img.height).2) img.pixels (apply img o).pixels := by
      rintro p ⟨hc, hr⟩
      have hlt := @source_lt (inverse o) (turnedSides o img.width img.height).1
        (turnedSides o img.width img.height).2 (inverse_mem ho) p (by rwa [hsides]) (by rwa [hsides])
      exact ⟨hlt.1.trans_eq hwidth.symm, hlt.2.trans_eq hheight.symm⟩
    have hinv : Set.InvOn (source o img.width img.height)
        (source (inverse o) (turnedSides o img.width img.height).1
          (turnedSides o img.width img.height).2) img.pixels (apply img o).pixels :=
      ⟨fun p hp => source_inverse ho hp.1 hp.2,
        fun p hp => inverse_source ho (hp.1.trans_eq hwidth) (hp.2.trans_eq hheight)⟩
    refine ⟨hinv.bijOn hplace fun p hp => source_mem ho hp, fun p hp i hi => ?_⟩
    rw [channel_apply ho (hplace hp) hi, source_inverse ho hp.1 hp.2]

/-- A picture of two pixels, turned a quarter and back. -/
theorem apply_symmetries_quarter :
    apply (apply ⟨2, 1, [1, 2, 3, 4, 5, 6], rfl⟩ 6) 8 = ⟨2, 1, [1, 2, 3, 4, 5, 6], rfl⟩ :=
  (apply_symmetries (o := 6) ⟨by decide, by decide⟩).2.1 ⟨2, 1, [1, 2, 3, 4, 5, 6], rfl⟩

end Image

end Mimo26

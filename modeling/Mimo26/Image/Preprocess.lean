import Mathlib.Data.Set.Function
import Mimo26.Image.Error
import Mimo26.Image.Exif
import Mimo26.Library.Grid

/-!
# Patches

An image is resized to sides that are multiples of 32 and cut into patches of 16 by 16 pixels, in
merged units of two by two (`smart_resize` of `lib.rs` and `preprocess` of `preprocess.rs`). A patch
is a row of values: three channels, of two equal temporal slots each.

What a side is rounded or scaled to, the resampling, and the value of a channel are floating-point
steps that the caller gives.

## Main definitions

* `smartResize`, `patchify`, `preprocess`
* `patchOf`, `rowOf` — the patch of a row, and back

## Main results

* `getElem?_patches` — the patches in the order of the loops
* `getElem?_patchify` — each value of a patch is that of its pixel
* `place_bijOn` — pixels, channels and temporal slots go to the values one to one
* `preprocess_eq_ok` — what is patchified is the resized image
-/

namespace Mimo26

namespace Image

open Grid

def patch : ℕ := 16

def merge : ℕ := 2

def temporal : ℕ := 2

def factor : ℕ := 32

def minPixels : ℕ := 3136

def maxPixels : ℕ := 12845056

/-- The values of a channel in one temporal slot. -/
def plane : ℕ := patch * patch

def patchDim : ℕ := 3 * temporal * patch * patch

/-- The floating-point steps: the printed ratio of two sides, when it is above 200; a side in units
of 32, rounded; and a side in such units when an image of the given area is shrunk or enlarged. -/
structure FloatSteps where
  narrow : ℕ → ℕ → Option String
  rounded : ℕ → ℕ
  shrunk : ℕ → ℕ → ℕ
  enlarged : ℕ → ℕ → ℕ

/-- Both sides to whole units, then within the bounds on the area. -/
def barSides (f : FloatSteps) (height width : ℕ) : ℕ × ℕ :=
  let hBar := f.rounded height * factor
  let wBar := f.rounded width * factor
  if maxPixels < hBar * wBar then
    (max factor (f.shrunk height (height * width) * factor),
      max factor (f.shrunk width (height * width) * factor))
  else if hBar * wBar < minPixels then
    (f.enlarged height (height * width) * factor, f.enlarged width (height * width) * factor)
  else (hBar, wBar)

def smartResize (f : FloatSteps) (height width : ℕ) : Except ImageError (ℕ × ℕ) :=
  if height = 0 ∨ width = 0 then
    .error ⟨s!"image has zero width or height ({width}x{height})"⟩
  else
    match f.narrow (max height width) (min height width) with
    | some ratio => .error
      ⟨s!"absolute aspect ratio must be smaller than 200, got {ratio} ({width}x{height})"⟩
    | none =>
      let sides := barSides f height width
      if sides.1 < 2 ^ 32 ∧ sides.2 < 2 ^ 32 then .ok sides
      else .error ⟨s!"smart_resize result out of range for {width}x{height}"⟩

structure Patches (F : Type) where
  gridT : ℕ
  gridH : ℕ
  gridW : ℕ
  data : List F

/-- The patches, line and column, in the order of the loops. -/
def patches (gh gw : ℕ) : List (ℕ × ℕ) :=
  (List.range (gh / merge) ×ˢ List.range (gw / merge) ×ˢ List.range merge ×ˢ List.range merge).map
    fun i => (i.1 * merge + i.2.2.1, i.2.1 * merge + i.2.2.2)

/-- The place of a value in a patch. -/
def offset (c t py px : ℕ) : ℕ := c * temporal * plane + py * patch + t * plane + px

section patchify

variable {F : Type} (normalizeValue : ℕ → UInt8 → F) (zero : F)

/-- What is written where: row by row, then by line, channel, column and temporal slot. -/
def patchWrites (src : RgbImage) (gh gw rw : ℕ) : List (ℕ × (ℕ → F)) :=
  ((patches gh gw).zipIdx ×ˢ List.range patch ×ˢ List.range 3 ×ˢ List.range patch ×ˢ
    List.range temporal).map fun i =>
      let py0 := i.1.1.1 * patch
      let px0 := i.1.1.2 * patch
      let s := ((py0 + i.2.1) * rw + px0) * 3
      (i.1.2 * patchDim + offset i.2.2.1 i.2.2.2.2 i.2.1 i.2.2.2.1,
        fun _ => normalizeValue i.2.2.1 (src.data.getD (s + i.2.2.2.1 * 3 + i.2.2.1) 0))

/-- Cut an image of these sides into patches. -/
def patchify (src : RgbImage) (rh rw : ℕ) : Patches F :=
  let gh := rh / patch
  let gw := rw / patch
  { gridT := 1
    gridH := gh
    gridW := gw
    data := scatterSet 1 (patchWrites normalizeValue src gh gw rw)
      (List.replicate (gh * gw * patchDim) zero) }

variable (f : FloatSteps)
  (resizeBicubic : RgbImage → (w h : ℕ) → {out : RgbImage // out.width = w ∧ out.height = h})

/-- The image at the sides it is resized to. -/
def resized (img : RgbImage) (rh rw : ℕ) : RgbImage :=
  if rw = img.width ∧ rh = img.height then img else resizeBicubic img rw rh

def preprocess (width height : ℕ) (data : List UInt8) : Except ImageError (Patches F) :=
  if h : data.length = width * height * 3 then do
    let img : RgbImage := ⟨width, height, data, h⟩
    let sides ← smartResize f height width
    return patchify normalizeValue zero (resized resizeBicubic img sides.1 sides.2) sides.1 sides.2
  else
    .error ⟨s!"RGB buffer length {data.length} does not match {width}x{height}x3"⟩

end patchify

/-! ### Patches and rows -/

/-- The line and the column of the patch in a row. -/
def patchOf (gw t : ℕ) : ℕ × ℕ :=
  (t / 4 / (gw / 2) * 2 + t % 4 / 2, t / 4 % (gw / 2) * 2 + t % 4 % 2)

/-- The row of a patch. -/
def rowOf (gw : ℕ) (p : ℕ × ℕ) : ℕ := (p.1 / 2 * (gw / 2) + p.2 / 2) * 4 + (p.1 % 2 * 2 + p.2 % 2)

variable {gh gw : ℕ}

theorem length_patches (gh gw : ℕ) : (patches gh gw).length = gh / 2 * (gw / 2 * (2 * 2)) := by
  rw [patches, List.length_map, List.length_product, List.length_product, List.length_product,
    List.length_range, List.length_range, List.length_range]
  rfl

theorem area_eq (hgh : Even gh) (hgw : Even gw) : gh * gw = gh / 2 * (gw / 2) * 4 := by
  obtain ⟨m, rfl⟩ := hgh
  obtain ⟨n, rfl⟩ := hgw
  have hm : (m + m) / 2 = m := by omega
  have hn : (n + n) / 2 = n := by omega
  rw [hm, hn]
  ring

theorem quarter_lt (hgh : Even gh) (hgw : Even gw) {t : ℕ} (ht : t < gh * gw) :
    t / 4 / (gw / 2) < gh / 2 ∧ 0 < gw / 2 := by
  rw [area_eq hgh hgw] at ht
  have hunit : t / 4 < gh / 2 * (gw / 2) := by omega
  refine ⟨Nat.div_lt_of_lt_mul (by rwa [Nat.mul_comm]), Nat.pos_of_ne_zero fun h0 => ?_⟩
  rw [h0, Nat.mul_zero] at hunit
  exact Nat.not_lt_zero _ hunit

/-- **The patch of a row**, as the loops count the rows. -/
theorem getElem?_patches (hgh : Even gh) (hgw : Even gw) {t : ℕ} (ht : t < gh * gw) :
    (patches gh gw)[t]? = some (patchOf gw t) := by
  obtain ⟨-, hpos⟩ := quarter_lt hgh hgw ht
  have hfour : (List.range merge ×ˢ List.range merge).length = 4 := rfl
  have hcols : (List.range (gw / merge) ×ˢ List.range merge ×ˢ List.range merge).length =
      gw / 2 * 4 := by
    rw [List.length_product, hfour, List.length_range]
    rfl
  have hunit : t / (gw / 2 * 4) = t / 4 / (gw / 2) := by
    rw [Nat.mul_comm, Nat.div_div_eq_div_mul]
  have hcol : t % (gw / 2 * 4) / 4 = t / 4 % (gw / 2) := by
    rw [Nat.mul_comm, Nat.mod_mul_right_div_self]
  have hpatch : t % (gw / 2 * 4) % 4 = t % 4 := Nat.mod_mul_left_mod ..
  have hline : t < gh / merge * (gw / 2 * 4) := by
    rw [area_eq hgh hgw] at ht
    rwa [← Nat.mul_assoc]
  have hrest : t % (gw / 2 * 4) < gw / merge * 4 := Nat.mod_lt _ (by omega)
  have hmod : t % 4 < 4 := Nat.mod_lt _ (by decide)
  rw [patches, List.getElem?_map, getElem?_product_range (by rwa [hcols]), hcols,
    getElem?_product_range (by rwa [hfour]), hfour, hunit, hcol, hpatch,
    getElem?_product_range (by rwa [List.length_range]), List.length_range,
    List.getElem?_range (Nat.mod_lt _ (by decide))]
  rfl

/-- A patch of a grid is in the grid. -/
theorem patchOf_lt (hgh : Even gh) (hgw : Even gw) {t : ℕ} (ht : t < gh * gw) :
    (patchOf gw t).1 < gh ∧ (patchOf gw t).2 < gw := by
  obtain ⟨hline, hpos⟩ := quarter_lt hgh hgw ht
  have hcol := Nat.mod_lt (t / 4) hpos
  obtain ⟨m, rfl⟩ := hgh
  obtain ⟨n, rfl⟩ := hgw
  constructor
  · change t / 4 / ((n + n) / 2) * 2 + t % 4 / 2 < m + m
    omega
  · change t / 4 % ((n + n) / 2) * 2 + t % 4 % 2 < n + n
    omega

theorem rowOf_patchOf (gw t : ℕ) : rowOf gw (patchOf gw t) = t := by
  have hline : (t / 4 / (gw / 2) * 2 + t % 4 / 2) / 2 = t / 4 / (gw / 2) := by omega
  have hcol : (t / 4 % (gw / 2) * 2 + t % 4 % 2) / 2 = t / 4 % (gw / 2) := by omega
  rw [rowOf, patchOf]
  dsimp only
  rw [hline, hcol, Nat.div_add_mod']
  omega

theorem rowOf_lt (hgh : Even gh) (hgw : Even gw) {p : ℕ × ℕ} (hh : p.1 < gh) (hw : p.2 < gw) :
    rowOf gw p < gh * gw := by
  have hline : p.1 / 2 < gh / 2 := by
    obtain ⟨m, rfl⟩ := hgh
    omega
  have hcol : p.2 / 2 < gw / 2 := by
    obtain ⟨n, rfl⟩ := hgw
    omega
  have hunit := cell_lt hline hcol
  rw [area_eq hgh hgw, rowOf]
  omega

theorem patchOf_rowOf (hgw : Even gw) {p : ℕ × ℕ} (hw : p.2 < gw) : patchOf gw (rowOf gw p) = p := by
  have hcol : p.2 / 2 < gw / 2 := by
    obtain ⟨n, rfl⟩ := hgw
    omega
  have hunit : rowOf gw p / 4 = p.1 / 2 * (gw / 2) + p.2 / 2 := by
    rw [rowOf]
    omega
  have hpatch : rowOf gw p % 4 = p.1 % 2 * 2 + p.2 % 2 := by
    rw [rowOf]
    omega
  have hdiv : (p.1 / 2 * (gw / 2) + p.2 / 2) / (gw / 2) = p.1 / 2 := by
    rw [Nat.add_comm, Nat.add_mul_div_right _ _ (by omega), Nat.div_eq_of_lt hcol, Nat.zero_add]
  have hmod : (p.1 / 2 * (gw / 2) + p.2 / 2) % (gw / 2) = p.2 / 2 := by
    rw [Nat.add_comm, Nat.add_mul_mod_self_right, Nat.mod_eq_of_lt hcol]
  rw [patchOf, hunit, hpatch, hdiv, hmod]
  exact Prod.ext (by dsimp only; omega) (by dsimp only; omega)

/-! ### Values -/

theorem offset_lt {c s py px : ℕ} (hc : c < 3) (hs : s < 2) (hpy : py < 16) (hpx : px < 16) :
    offset c s py px < patchDim := by
  change c * 2 * 256 + py * 16 + s * 256 + px < 1536
  omega

theorem offset_inj {c s py px c' s' py' px' : ℕ} (hs : s < 2) (hpy : py < 16) (hpx : px < 16)
    (hs' : s' < 2) (hpy' : py' < 16) (hpx' : px' < 16)
    (h : offset c s py px = offset c' s' py' px') : c = c' ∧ s = s' ∧ py = py' ∧ px = px' := by
  change c * 2 * 256 + py * 16 + s * 256 + px = c' * 2 * 256 + py' * 16 + s' * 256 + px' at h
  omega

section patchify

variable {F : Type} (normalizeValue : ℕ → UInt8 → F) (zero : F) {src : RgbImage} {rw : ℕ}

/-- **No value is written twice.** -/
theorem nodup_patchWrites (src : RgbImage) (gh gw rw : ℕ) :
    ((patchWrites normalizeValue src gh gw rw).map (·.1)).Nodup := by
  have hzip : (patches gh gw).zipIdx.Nodup := by
    refine List.Nodup.of_map Prod.snd ?_
    rw [List.zipIdx_map_snd]
    exact List.nodup_range'
  have hall : ((patches gh gw).zipIdx ×ˢ List.range patch ×ˢ List.range 3 ×ˢ List.range patch ×ˢ
      List.range temporal).Nodup :=
    hzip.product (List.nodup_range.product (List.nodup_range.product
      (List.nodup_range.product List.nodup_range)))
  rw [patchWrites, List.map_map]
  refine hall.map_on ?_
  rintro ⟨⟨p, t⟩, py, c, px, s⟩ hi ⟨⟨p', t'⟩, py', c', px', s'⟩ hi' heq
  simp only [List.mem_product, List.mem_range] at hi hi'
  obtain ⟨hp, hpy, hc, hpx, hs⟩ := hi
  obtain ⟨hp', hpy', hc', hpx', hs'⟩ := hi'
  obtain ⟨rfl, hoff⟩ := cell_inj (offset_lt hc hs hpy hpx) (offset_lt hc' hs' hpy' hpx') heq
  obtain ⟨rfl, rfl, rfl, rfl⟩ := offset_inj hs hpy hpx hs' hpy' hpx' hoff
  rw [List.mem_zipIdx_iff_getElem?] at hp hp'
  obtain rfl : p = p' := Option.some.inj (hp.symm.trans hp')
  rfl

/-- **A value of a patch** is that of its pixel. -/
theorem getElem?_patchify (hgh : Even gh) (hgw : Even gw) (hwidth : src.width = gw * 16) {t : ℕ}
    (ht : t < gh * gw) {c s py px : ℕ} (hc : c < 3) (hs : s < 2) (hpy : py < 16) (hpx : px < 16) :
    (patchify normalizeValue zero src (gh * 16) (gw * 16)).data[t * patchDim + offset c s py px]? =
      some (normalizeValue c
        (src.channel ((patchOf gw t).2 * 16 + px, (patchOf gw t).1 * 16 + py) c)) := by
  have hitem : (t * patchDim + offset c s py px, fun _ => normalizeValue c (src.data.getD
      ((((patchOf gw t).1 * patch + py) * (gw * 16) + (patchOf gw t).2 * patch) * 3 + px * 3 + c)
        0)) ∈ patchWrites normalizeValue src gh gw (gw * 16) := by
    refine List.mem_map.mpr ⟨((patchOf gw t, t), py, c, px, s), ?_, rfl⟩
    simp only [List.mem_product, List.mem_range]
    exact ⟨List.mem_zipIdx_iff_getElem?.mpr (getElem?_patches hgh hgw ht), hpy, hc, hpx, hs⟩
  have hin : (t * patchDim + offset c s py px) * 1 + 0 <
      (List.replicate (gh * gw * patchDim) zero).length := by
    rw [List.length_replicate, Nat.mul_one, Nat.add_zero]
    exact cell_lt ht (offset_lt hc hs hpy hpx)
  have hcell := getElem?_scatterSet (nodup_patchWrites normalizeValue src gh gw (gw * 16)) hitem
    Nat.zero_lt_one hin
  have hside (n : ℕ) : n * 16 / patch = n := Nat.mul_div_cancel n (by decide)
  have haddr : (((patchOf gw t).1 * patch + py) * (gw * 16) + (patchOf gw t).2 * patch) * 3 +
      px * 3 + c = (((patchOf gw t).1 * 16 + py) * (gw * 16) + ((patchOf gw t).2 * 16 + px)) * 3 +
        c := by
    rw [patch]
    ring
  rw [Nat.mul_one, Nat.add_zero, haddr, ← hwidth] at hcell
  rw [patchify, hside, hside, ← hwidth]
  exact hcell

variable (f : FloatSteps)
  (resizeBicubic : RgbImage → (w h : ℕ) → {out : RgbImage // out.width = w ∧ out.height = h})

theorem dvd_barSides (f : FloatSteps) (height width : ℕ) :
    factor ∣ (barSides f height width).1 ∧ factor ∣ (barSides f height width).2 := by
  have hmax (n : ℕ) : factor ∣ max factor (n * factor) := by
    rcases max_choice factor (n * factor) with h | h
    · exact Dvd.intro_left 1 (by rw [h, Nat.one_mul])
    · exact Dvd.intro_left n h.symm
  have hmul (n : ℕ) : factor ∣ n * factor := Nat.dvd_mul_left ..
  rw [barSides]
  split
  · exact ⟨hmax _, hmax _⟩
  · split
    · exact ⟨hmul _, hmul _⟩
    · exact ⟨hmul _, hmul _⟩

/-- The sides are multiples of 32. -/
theorem smartResize_eq_ok {f : FloatSteps} {height width : ℕ} {sides : ℕ × ℕ}
    (h : smartResize f height width = .ok sides) :
    factor ∣ sides.1 ∧ factor ∣ sides.2 ∧ sides.1 < 2 ^ 32 ∧ sides.2 < 2 ^ 32 := by
  obtain ⟨hheight, hwidth⟩ := dvd_barSides f height width
  rw [smartResize] at h
  split at h
  · cases h
  · split at h
    · cases h
    · dsimp only at h
      split at h
      · next hlt =>
        obtain rfl := Except.ok.inj h
        exact ⟨hheight, hwidth, hlt⟩
      · cases h

theorem resized_sides (img : RgbImage) (rh rw : ℕ) :
    (resized resizeBicubic img rh rw).width = rw ∧ (resized resizeBicubic img rh rw).height = rh := by
  rw [resized]
  split
  · next h => exact ⟨h.1.symm, h.2.symm⟩
  · exact (resizeBicubic img rw rh).2

/-- **What is patchified** is the resized image, at sides of whole merged units. -/
theorem preprocess_eq_ok {width height : ℕ} {data : List UInt8} {out : Patches F}
    (h : preprocess normalizeValue zero f resizeBicubic width height data = .ok out) :
    ∃ (hlen : data.length = width * height * 3) (gh gw : ℕ), Even gh ∧ Even gw ∧
      gh * 16 < 2 ^ 32 ∧ gw * 16 < 2 ^ 32 ∧
      smartResize f height width = .ok (gh * 16, gw * 16) ∧
      out = patchify normalizeValue zero
        (resized resizeBicubic ⟨width, height, data, hlen⟩ (gh * 16) (gw * 16)) (gh * 16)
          (gw * 16) := by
  rw [preprocess] at h
  split at h
  · next hlen =>
    cases hsides : smartResize f height width with
    | error e =>
      rw [hsides] at h
      cases h
    | ok sides =>
      obtain ⟨⟨a, ha⟩, ⟨b, hb⟩, hlt, hlt'⟩ := smartResize_eq_ok hsides
      have ha' : sides.1 = (a + a) * 16 := ha.trans (by rw [factor]; ring)
      have hb' : sides.2 = (b + b) * 16 := hb.trans (by rw [factor]; ring)
      rw [hsides] at h
      have hout := (Except.ok.inj h).symm
      rw [ha', hb'] at hout
      refine ⟨hlen, a + a, b + b, ⟨a, rfl⟩, ⟨b, rfl⟩, ha' ▸ hlt, hb' ▸ hlt', ?_, hout⟩
      rw [← ha', ← hb']
  · cases h

end patchify

/-! ### Places -/

/-- A pixel, a channel and a temporal slot. -/
def samples (w h : ℕ) : Set ((ℕ × ℕ) × ℕ × ℕ) :=
  {q | q.1.1 < w ∧ q.1.2 < h ∧ q.2.1 < 3 ∧ q.2.2 < temporal}

/-- Where they are written. -/
def place (gw : ℕ) (q : (ℕ × ℕ) × ℕ × ℕ) : ℕ :=
  rowOf gw (q.1.2 / 16, q.1.1 / 16) * patchDim + offset q.2.1 q.2.2 (q.1.2 % 16) (q.1.1 % 16)

/-- The temporal slot of a value. -/
def slotOf (k : ℕ) : ℕ := k % patchDim / plane % temporal

theorem slotOf_place {w h : ℕ} {q : (ℕ × ℕ) × ℕ × ℕ} (hq : q ∈ samples w h) :
    slotOf (place gw q) = q.2.2 := by
  obtain ⟨-, -, hc, hs⟩ := hq
  have hlt := @offset_lt q.2.1 q.2.2 (q.1.2 % 16) (q.1.1 % 16) hc hs (Nat.mod_lt _ (by decide))
    (Nat.mod_lt _ (by decide))
  change q.2.2 < 2 at hs
  rw [slotOf, place, Nat.mul_add_mod_self_right, Nat.mod_eq_of_lt hlt]
  change (q.2.1 * 2 * 256 + q.1.2 % 16 * 16 + q.2.2 * 256 + q.1.1 % 16) / 256 % 2 = q.2.2
  omega

/-- **Pixels, channels and temporal slots** go to the values one to one. -/
theorem place_bijOn (hgh : Even gh) (hgw : Even gw) :
    Set.BijOn (place gw) (samples (gw * 16) (gh * 16)) (Set.Iio (gh * gw * patchDim)) := by
  refine ⟨?_, ?_, ?_⟩
  · rintro ⟨⟨x, y⟩, c, s⟩ ⟨hx, hy, hc, hs⟩
    exact cell_lt (rowOf_lt hgh hgw (Nat.div_lt_of_lt_mul (by rwa [Nat.mul_comm]))
      (Nat.div_lt_of_lt_mul (by rwa [Nat.mul_comm])))
      (offset_lt hc hs (Nat.mod_lt _ (by decide)) (Nat.mod_lt _ (by decide)))
  · rintro ⟨⟨x, y⟩, c, s⟩ ⟨hx, hy, hc, hs⟩ ⟨⟨x', y'⟩, c', s'⟩ ⟨hx', hy', hc', hs'⟩ heq
    have hmod (n : ℕ) : n % 16 < 16 := Nat.mod_lt _ (by decide)
    obtain ⟨hrow, hoff⟩ := cell_inj (offset_lt hc hs (hmod y) (hmod x))
      (offset_lt hc' hs' (hmod y') (hmod x')) heq
    obtain ⟨hc, hs, hpy, hpx⟩ := offset_inj hs (hmod y) (hmod x) hs' (hmod y') (hmod x') hoff
    have hpatch := congrArg (patchOf gw) hrow
    change x < gw * 16 at hx
    change x' < gw * 16 at hx'
    rw [patchOf_rowOf hgw (by dsimp only; omega), patchOf_rowOf hgw (by dsimp only; omega)] at hpatch
    obtain ⟨hline, hcol⟩ := Prod.ext_iff.mp hpatch
    dsimp only at hc hs hpy hpx hline hcol
    obtain rfl : x = x' := by omega
    obtain rfl : y = y' := by omega
    rw [hc, hs]
  · intro k hk
    change k < gh * gw * patchDim at hk
    have ht : k / patchDim < gh * gw := Nat.div_lt_of_lt_mul (by rwa [Nat.mul_comm])
    have hlt : k % patchDim < 1536 := Nat.mod_lt _ (by decide)
    obtain ⟨hline, hcol⟩ := patchOf_lt hgh hgw ht
    refine ⟨(((patchOf gw (k / patchDim)).2 * 16 + k % patchDim % 16,
      (patchOf gw (k / patchDim)).1 * 16 + k % patchDim % 256 / 16),
      k % patchDim / 512, k % patchDim / 256 % 2), ⟨?_, ?_, ?_, ?_⟩, ?_⟩
    · change (patchOf gw (k / patchDim)).2 * 16 + k % patchDim % 16 < gw * 16
      omega
    · change (patchOf gw (k / patchDim)).1 * 16 + k % patchDim % 256 / 16 < gh * 16
      omega
    · change k % patchDim / 512 < 3
      omega
    · exact Nat.mod_lt _ (by decide)
    · have hx : ((patchOf gw (k / patchDim)).2 * 16 + k % patchDim % 16) / 16 =
          (patchOf gw (k / patchDim)).2 := by omega
      have hy : ((patchOf gw (k / patchDim)).1 * 16 + k % patchDim % 256 / 16) / 16 =
          (patchOf gw (k / patchDim)).1 := by omega
      have hpx : ((patchOf gw (k / patchDim)).2 * 16 + k % patchDim % 16) % 16 =
          k % patchDim % 16 := by omega
      have hpy : ((patchOf gw (k / patchDim)).1 * 16 + k % patchDim % 256 / 16) % 16 =
          k % patchDim % 256 / 16 := by omega
      have hoff : offset (k % patchDim / 512) (k % patchDim / 256 % 2) (k % patchDim % 256 / 16)
          (k % patchDim % 16) = k % patchDim := by
        change k % patchDim / 512 * 2 * 256 + k % patchDim % 256 / 16 * 16 +
          k % patchDim / 256 % 2 * 256 + k % patchDim % 16 = k % patchDim
        omega
      rw [place]
      dsimp only
      rw [hx, hy, hpx, hpy, hoff, rowOf_patchOf, Nat.div_add_mod']

end Image

end Mimo26

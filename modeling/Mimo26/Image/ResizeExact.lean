import Mimo26.Image.Weights
import Mimo26.Library.Grid
import Mimo26.Library.Sweep

/-!
# What bicubic resizing computes

Both passes read inside of their input and give what two passes over the whole image give, whose sums
are taken over the integers.

## Main definitions

* `passed`, `twoPasses` — a line resized, and an image resized line by line
* `Shows` — the bytes of an image
* `Windows` — what is right of the windows and the weights of an axis

## Main results

* `windows` — every axis has it
* `resizeBicubic_exact` — the bytes of a resized image
-/

namespace Mimo26

namespace Image

namespace Resize

variable {n m xx : ℕ}

/-! ### The windows of an axis -/

theorem bounds_getElem (hxx : xx < m) : (precompute n m).bounds[xx]? =
    some ((xminOf n m xx).toNat, countOf n m xx) := by
  rw [precompute, List.getElem?_map, List.getElem?_range hxx]
  rfl

theorem of_bounds_getElem {b : ℕ × ℕ} (h : (precompute n m).bounds[xx]? = some b) :
    xx < m ∧ b = ((xminOf n m xx).toNat, countOf n m xx) := by
  have hlt : xx < m := by
    have hlen := (List.getElem?_eq_some_iff.mp h).1
    rwa [precompute, List.length_map, List.length_range] at hlen
  rw [bounds_getElem hlt] at h
  exact ⟨hlt, (Option.some.inj h).symm⟩

theorem countOf_le_ksize (n m xx : ℕ) : countOf n m xx ≤ ksizeOf n m := min_le_right _ _

theorem length_padded (n m xx : ℕ) : (weights n m xx ++
    List.replicate (ksizeOf n m - countOf n m xx) 0).length = ksizeOf n m := by
  have hle := countOf_le_ksize n m xx
  rw [List.length_append, length_weights, List.length_replicate]
  omega

/-- The bounds and the weights of an output pixel. -/
theorem window_eq (hxx : xx < m) : (precompute n m).window xx =
    some (((xminOf n m xx).toNat, countOf n m xx), weights n m xx) := by
  have hle := countOf_le_ksize n m xx
  have hlen : (precompute n m).k.length = m * ksizeOf n m := by
    rw [precompute, Grid.length_flatMap_rows (length_padded n m), List.length_range]
  have hstop : xx * ksizeOf n m + countOf n m xx ≤ m * ksizeOf n m := by
    calc xx * ksizeOf n m + countOf n m xx ≤ xx * ksizeOf n m + ksizeOf n m := by omega
      _ = (xx + 1) * ksizeOf n m := by ring
      _ ≤ m * ksizeOf n m := Nat.mul_le_mul_right _ hxx
  have hdrop : ((precompute n m).k.drop (xx * ksizeOf n m)).take (countOf n m xx) =
      weights n m xx := by
    rw [precompute, Grid.drop_flatMap_rows (length_padded n m)]
    rw [List.drop_eq_getElem_cons (by rwa [List.length_range]), List.getElem_range,
      List.flatMap_cons, List.append_assoc, List.take_left' (length_weights n m xx)]
  have hslice : slice (precompute n m).k (xx * ksizeOf n m) (xx * ksizeOf n m + countOf n m xx) =
      some (weights n m xx) := by
    rw [slice, if_pos ⟨Nat.le_add_right _ _, hlen ▸ hstop⟩, Nat.add_sub_cancel_left, hdrop]
  rw [Coeffs.window, bounds_getElem hxx]
  show (slice (precompute n m).k (xx * ksizeOf n m)
    (xx * ksizeOf n m + countOf n m xx)).bind _ = _
  rw [hslice]
  rfl

/-- What is right of the windows and the weights of an axis. -/
structure Windows (n m : ℕ) : Prop where
  /-- A window is not empty, inside of the input, and not cut to `ksize`. -/
  inside : ∀ xx < m, ∃ start count, (precompute n m).bounds[xx]? = some (start, count) ∧ 0 < count ∧
    start + count ≤ n ∧ count = uncut n m xx
  /-- Windows start and end no earlier than those before them. -/
  advance : ∀ (xx xx' : ℕ) (b b' : ℕ × ℕ), xx ≤ xx' → (precompute n m).bounds[xx]? = some b →
    (precompute n m).bounds[xx']? = some b' → b.1 ≤ b'.1 ∧ b.1 + b.2 ≤ b'.1 + b'.2
  /-- All windows are between the start of the first one and the end of the last one. -/
  between : ∀ (xx : ℕ) (b first last : ℕ × ℕ), (precompute n m).bounds[xx]? = some b →
    (precompute n m).bounds[0]? = some first → (precompute n m).bounds[m - 1]? = some last →
    first.1 ≤ b.1 ∧ b.1 + b.2 ≤ last.1 + last.2
  /-- No sum of weighted bytes leaves the range of an `i32`, nor does a step towards it wrap. -/
  sums : ∀ xx w, (precompute n m).window xx = some w → ∀ (ps : List UInt8) (j : ℕ),
    InI32 (exact ((ps.zip w.2).take j)) ∧
      accumulate ((ps.zip w.2).take j) = exact ((ps.zip w.2).take j)

theorem bounds_mono (hn : 0 < n) (hm : 0 < m) {xx' : ℕ} {b b' : ℕ × ℕ} (hle : xx ≤ xx')
    (hb : (precompute n m).bounds[xx]? = some b) (hb' : (precompute n m).bounds[xx']? = some b') :
    b.1 ≤ b'.1 ∧ b.1 + b.2 ≤ b'.1 + b'.2 := by
  obtain ⟨hxx, rfl⟩ := of_bounds_getElem hb
  obtain ⟨hxx', rfl⟩ := of_bounds_getElem hb'
  obtain ⟨-, -, hend⟩ := window_spec hn hm hxx
  obtain ⟨-, -, hend'⟩ := window_spec hn hm hxx'
  have hmin := xminOf_nonneg n m xx
  have hmin' := xminOf_nonneg n m xx'
  have hstart := xminOf_mono hn hm hle
  have hstop := xmaxOf_mono hn hm hle
  dsimp only
  constructor <;> omega

/-- **Every axis has it.** -/
theorem windows (hn : 0 < n) (hm : 0 < m) : Windows n m := by
  refine ⟨fun xx hxx => ?_, fun xx xx' b b' hle hb hb' => bounds_mono hn hm hle hb hb',
    fun xx b first last hb hfirst hlast => ?_, fun xx w hw ps j => ?_⟩
  · obtain ⟨hpos, huncut, hend⟩ := window_spec hn hm hxx
    have hmin := xminOf_nonneg n m xx
    have hmax := xmaxOf_le n m xx
    exact ⟨_, _, bounds_getElem hxx, hpos, by omega, huncut⟩
  · obtain ⟨hxx, -⟩ := of_bounds_getElem hb
    exact ⟨(bounds_mono hn hm (Nat.zero_le xx) hfirst hb).1,
      (bounds_mono hn hm (Nat.le_pred_of_lt hxx) hb hlast).2⟩
  · have hxx : xx < m := by
      obtain ⟨b, hb, -⟩ := Option.bind_eq_some_iff.mp hw
      exact (of_bounds_getElem hb).1
    rw [window_eq hxx] at hw
    obtain rfl := Option.some.inj hw
    exact accumulate_eq hn hm hxx ps j

/-! ### Both passes -/

/-- A line resized to `m` pixels. -/
def passed (n m : ℕ) (line : ℕ → UInt8) (xx : ℕ) : UInt8 :=
  clip8 (exact (((List.range (countOf n m xx)).map fun j => line ((xminOf n m xx).toNat + j)).zip
    (weights n m xx)))

/-- An image by row, column and channel. -/
abbrev Pixels : Type := ℕ → ℕ → ℕ → UInt8

/-- All rows resized, and then all columns. -/
def twoPasses (iw ih ow oh : ℕ) (f : Pixels) : Pixels := fun y x i =>
  passed ih oh (fun y' => passed iw ow (fun x' => f y' x' i) x) y

/-- The bytes of an image of `w` by `h` pixels. -/
structure Shows (bytes : List UInt8) (w h : ℕ) (f : Pixels) : Prop where
  length : bytes.length = h * (w * 3)
  pixel : ∀ y < h, ∀ x < w, ∀ i < 3, bytes[y * (w * 3) + (x * 3 + i)]? = some (f y x i)

/-- The image that bytes are the bytes of. -/
def pixels (bytes : List UInt8) (w : ℕ) : Pixels := fun y x i =>
  bytes.getD (y * (w * 3) + (x * 3 + i)) 0

theorem shows_pixels {bytes : List UInt8} {w h : ℕ} (hlen : bytes.length = h * (w * 3)) :
    Shows bytes w h (pixels bytes w) := by
  refine ⟨hlen, fun y hy x hx i hi => ?_⟩
  have hlt : y * (w * 3) + (x * 3 + i) < bytes.length := hlen ▸ Grid.cell_lt hy (by omega)
  rw [pixels, List.getD_eq_getElem?_getD, List.getElem?_eq_getElem hlt]
  rfl

/-- The lines of a window are read and added up. -/
theorem weighted_eq (hn : 0 < n) (hm : 0 < m) (hxx : xx < m) {bytes : List UInt8} {len offset : ℕ}
    {line : ℕ → UInt8} (hline : ∀ j < n, bytes[j * len + offset]? = some (line j)) :
    weighted bytes len offset (xminOf n m xx).toNat (weights n m xx) =
      some (passed n m line xx) := by
  obtain ⟨-, -, hend⟩ := window_spec hn hm hxx
  have hmin := xminOf_nonneg n m xx
  have hmax := xmaxOf_le n m xx
  have hcolumn : (List.range (weights n m xx).length).mapM
      (fun j => bytes[((xminOf n m xx).toNat + j) * len + offset]?) =
      some ((List.range (weights n m xx).length).map fun j =>
        line ((xminOf n m xx).toNat + j)) := by
    refine Sweep.mapM_eq_some fun j hj => hline _ ?_
    have hlt := List.mem_range.mp hj
    rw [length_weights] at hlt
    omega
  have hsum := (accumulate_eq hn hm hxx ((List.range (countOf n m xx)).map fun j =>
    line ((xminOf n m xx).toNat + j)) (countOf n m xx)).2
  rw [List.take_of_length_le (by rw [List.length_zip, length_weights]; exact min_le_right _ _)]
    at hsum
  rw [weighted, hcolumn, length_weights]
  show some (clip8 (accumulate _)) = _
  rw [hsum]
  rfl

variable {iw ih ow oh : ℕ} {f : Pixels}

/-- One row of the first pass. -/
theorem horizontalRow_eq (hiw : 0 < iw) (how : 0 < ow) {s : List UInt8} {line : ℕ → ℕ → UInt8}
    (hs : ∀ x < iw, ∀ i < 3, s[x * 3 + i]? = some (line x i)) :
    horizontalRow s ow (precompute iw ow) = some ((List.range ow).flatMap fun xx =>
      (List.range 3).map fun i => passed iw ow (fun x => line x i) xx) := by
  have hpx : (List.range ow).mapM (fun xx => (precompute iw ow).window xx >>= fun w =>
      (List.range 3).mapM fun i => weighted s 3 i w.1.1 w.2) =
      some ((List.range ow).map fun xx =>
        (List.range 3).map fun i => passed iw ow (fun x => line x i) xx) := by
    refine Sweep.mapM_eq_some fun xx hxx => ?_
    rw [window_eq (List.mem_range.mp hxx)]
    exact Sweep.mapM_eq_some fun i hi => weighted_eq hiw how (List.mem_range.mp hxx)
      fun x hx => hs x hx i (List.mem_range.mp hi)
  rw [horizontalRow, hpx]
  exact congrArg some (List.flatMap_def ..).symm

theorem shows_rows (rows : ℕ → List UInt8) {w h : ℕ} {g : Pixels}
    (hrows : ∀ y < h, (rows y).length = w * 3 ∧
      ∀ x < w, ∀ i < 3, (rows y)[x * 3 + i]? = some (g y x i)) :
    Shows ((List.range h).flatMap rows) w h g := by
  have hlen : ∀ y < h, (rows y).length = w * 3 := fun y hy => (hrows y hy).1
  refine ⟨Grid.length_flatMap_range hlen, fun y hy x hx i hi => ?_⟩
  rw [Grid.getElem?_flatMap_range hlen hy (by omega)]
  exact (hrows y hy).2 x hx i hi

/-- **The first pass** resizes the rows, if it has all of them. -/
theorem horizontalPass_eq (hiw : 0 < iw) (how : 0 < ow) {src : List UInt8}
    (hsrc : Shows src iw ih f) : ∃ t, horizontalPass src iw ow 0 ih = some t ∧
      Shows t ow ih fun y x i => passed iw ow (fun x' => f y x' i) x := by
  have hrow : ∀ y ∈ List.range ih,
      (slice src ((y + 0) * iw * 3) ((y + 0 + 1) * iw * 3) >>= fun s =>
        horizontalRow s ow (precompute iw ow)) = some ((List.range ow).flatMap fun xx =>
          (List.range 3).map fun i => passed iw ow (fun x' => f y x' i) xx) := by
    intro y hy
    have hlt := List.mem_range.mp hy
    have hstop : (y + 1) * iw * 3 ≤ src.length := by
      rw [hsrc.length, Nat.mul_assoc]
      exact Nat.mul_le_mul_right _ hlt
    have hsub : (y + 1) * iw * 3 - y * iw * 3 = iw * 3 := by
      rw [← Nat.sub_mul, ← Nat.sub_mul, Nat.add_sub_cancel_left, Nat.one_mul]
    have hslice : slice src ((y + 0) * iw * 3) ((y + 0 + 1) * iw * 3) =
        some ((src.drop (y * iw * 3)).take (iw * 3)) := by
      rw [Nat.add_zero, slice, if_pos ⟨by nlinarith, hstop⟩, hsub]
    rw [hslice]
    refine horizontalRow_eq hiw how fun x hx i hi => ?_
    rw [List.getElem?_take_of_lt (by omega), List.getElem?_drop, Nat.mul_assoc]
    exact hsrc.pixel y hlt x hx i hi
  refine ⟨_, ?_, shows_rows (fun y => (List.range ow).flatMap fun xx =>
    (List.range 3).map fun i => passed iw ow (fun x' => f y x' i) xx) fun y hy => ?_⟩
  · have hall : minus ih 0 = some ih := if_pos (Nat.zero_le ih)
    rw [horizontalPass, hall]
    refine Option.bind_eq_some_iff.mpr ⟨ih, rfl, ?_⟩
    refine Option.bind_eq_some_iff.mpr ⟨_, Sweep.mapM_eq_some hrow, ?_⟩
    exact congrArg some (List.flatMap_def ..).symm
  · have hlen : ∀ xx < ow, ((List.range 3).map fun i =>
        passed iw ow (fun x' => f y x' i) xx).length = 3 := fun xx _ => by simp
    refine ⟨Grid.length_flatMap_range hlen, fun x hx i hi => ?_⟩
    rw [Grid.getElem?_flatMap_range hlen hx hi, List.getElem?_map, List.getElem?_range hi]
    rfl

/-- **The second pass** resizes the columns, if no row was left out. -/
theorem verticalPass_eq (hih : 0 < ih) (hoh : 0 < oh) {hsrc : List UInt8} {w : ℕ}
    (hshows : Shows hsrc w ih f) :
    ∃ out, verticalPass hsrc (w * 3) oh 0 (precompute ih oh) = some out ∧
      Shows out w oh fun y x i => passed ih oh (fun y' => f y' x i) y := by
  have hread : ∀ c < w * 3, ∀ y < ih, hsrc[y * (w * 3) + c]? = some (f y (c / 3) (c % 3)) := by
    intro c hc y hy
    have h := hshows.pixel y hy (c / 3) (by omega) (c % 3) (by omega)
    rwa [show c / 3 * 3 + c % 3 = c by omega] at h
  have hrow : ∀ yy ∈ List.range oh, ((precompute ih oh).window yy >>= fun win =>
      minus win.1.1 0 >>= fun ymin =>
        (List.range (w * 3)).mapM fun c => weighted hsrc (w * 3) c ymin win.2) =
      some ((List.range (w * 3)).map fun c => passed ih oh (fun y' => f y' (c / 3) (c % 3)) yy) := by
    intro yy hyy
    rw [window_eq (List.mem_range.mp hyy)]
    refine Option.bind_eq_some_iff.mpr ⟨_, rfl, Option.bind_eq_some_iff.mpr
      ⟨(xminOf ih oh yy).toNat, if_pos (Nat.zero_le _), ?_⟩⟩
    exact Sweep.mapM_eq_some fun c hc => weighted_eq hih hoh (List.mem_range.mp hyy)
      fun y hy => hread c (List.mem_range.mp hc) y hy
  refine ⟨_, ?_, shows_rows (fun yy => (List.range (w * 3)).map fun c =>
    passed ih oh (fun y' => f y' (c / 3) (c % 3)) yy) fun y hy => ?_⟩
  · rw [verticalPass, Sweep.mapM_eq_some hrow]
    exact congrArg some (List.flatMap_def ..).symm
  · refine ⟨by rw [List.length_map, List.length_range], fun x hx i hi => ?_⟩
    rw [List.getElem?_map, List.getElem?_range (by omega), Option.map_some,
      show (x * 3 + i) / 3 = x by omega, show (x * 3 + i) % 3 = i by omega]

/-! ### A pass that changes nothing -/

theorem filterscale_self (hn : 0 < n) : scaleOf n n = 1 ∧ filterscale n n = 1 := by
  have hone : scaleOf n n = 1 := div_self (by positivity)
  exact ⟨hone, by rw [filterscale, hone, if_neg (lt_irrefl 1)]⟩

theorem place_self (hn : 0 < n) (x : ℕ) : place n n xx x = ((x + xminOf n n xx - xx : ℤ) : ℚ) := by
  obtain ⟨hs, hF⟩ := filterscale_self hn
  rw [place, hF, center, hs]
  push_cast
  ring

/-- The filter has the value one at the center, and none at other whole places. -/
theorem bicubic_intCast (i : ℤ) : bicubic i = if i = 0 then 1 else 0 := by
  by_cases hi : i = 0
  · subst hi
    rw [Int.cast_zero, bicubic_of_lt_one (le_refl 0) one_pos]
    simp
  · rw [if_neg hi, ← bicubic_abs]
    have hge : (1 : ℚ) ≤ |(i : ℚ)| := by
      have h := Int.one_le_abs hi
      exact_mod_cast h
    by_cases htwo : 2 ≤ |(i : ℚ)|
    · exact bicubic_of_two_le htwo
    · have hone : |(i : ℚ)| = 1 := by
        have hlt : |i| < 2 := by exact_mod_cast not_le.mp htwo
        have h : |i| = 1 := le_antisymm (by omega) (Int.one_le_abs hi)
        exact_mod_cast h
      rw [hone, bicubic_one]

theorem fixed_zero : fixed 0 = 0 :=
  (fixed_of_nonneg (le_refl 0)).2.2 (by norm_num)

theorem fixed_one : fixed 1 = 2 ^ 22 := by
  have hfloor : ⌊(1 / 2 + 1 * 2 ^ precisionBits : ℚ)⌋ = 2 ^ 22 := by
    rw [precisionBits_eq, Int.floor_eq_iff]
    norm_num
  rw [fixed, if_neg (by norm_num), asI32, truncate_of_nonneg (by positivity), hfloor]
  norm_num

theorem exact_zip (c : ℕ) (f : ℕ → UInt8) (g : ℕ → ℤ) :
    exact (((List.range c).map f).zip ((List.range c).map g)) =
      half + ∑ x ∈ Finset.range c, ((f x).toNat : ℤ) * g x := by
  rw [exact, List.zip_map', List.map_map]
  rfl

theorem clip8_whole (p : UInt8) : clip8 (half + p.toNat * 2 ^ 22) = p := by
  have hlt := p.toNat_lt
  have hhalf : half = 2 ^ 21 := rfl
  have hdiv : (half + p.toNat * 2 ^ 22) / 2 ^ precisionBits = p.toNat := by
    rw [precisionBits_eq]
    omega
  rw [clip8, hdiv, min_eq_right (by omega), max_eq_right (by omega), Int.toNat_natCast]
  exact UInt8.ofNat_toNat

/-- **A pass over a line that keeps its length** gives the line. -/
theorem passed_self (hn : 0 < n) (hxx : xx < n) (line : ℕ → UInt8) :
    passed n n line xx = line xx := by
  obtain ⟨hs, hF⟩ := filterscale_self hn
  have hmem : xminOf n n xx ≤ xx ∧ (xx : ℤ) < xmaxOf n n xx := by
    refine (mem_window hn hn).mpr ⟨⟨Int.natCast_nonneg xx, by exact_mod_cast hxx⟩, ?_⟩
    rw [center, support, hs, hF]
    push_cast
    constructor <;> linarith
  obtain ⟨-, -, hend⟩ := window_spec hn hn hxx
  have hmin := xminOf_nonneg n n xx
  -- the tap at the center
  obtain ⟨o, ho⟩ := Int.eq_ofNat_of_zero_le (sub_nonneg.mpr hmem.1)
  have hocount : o ∈ Finset.range (countOf n n xx) := Finset.mem_range.mpr (by omega)
  have htap (x : ℕ) : bicubic (place n n xx x) = if x = o then 1 else 0 := by
    rw [place_self hn, bicubic_intCast]
    exact if_congr (by omega) rfl rfl
  have hmass : mass n n xx = 1 := by
    rw [mass, Finset.sum_congr rfl fun x _ => htap x, Finset.sum_ite_eq' _ o, if_pos hocount]
  have hweight (x : ℕ) :
      fixed (bicubic (place n n xx x) / mass n n xx) = if x = o then 2 ^ 22 else 0 := by
    rw [hmass, htap, div_one]
    split
    · exact fixed_one
    · exact fixed_zero
  rw [passed, weights_eq hn hn hxx, exact_zip, Finset.sum_eq_single_of_mem o hocount, hweight,
    if_pos rfl, clip8_whole]
  · rw [show (xminOf n n xx).toNat + o = xx by omega]
  · intro x _ hne
    rw [hweight, if_neg hne, mul_zero]

theorem length_tolerated (data : List UInt8) (n : ℕ) : (tolerated data n).length = n := by
  rw [tolerated]
  split
  · next h => rw [List.length_take, min_eq_left h]
  · next h =>
    rw [List.length_append, List.length_replicate]
    omega

theorem Shows.congr {bytes : List UInt8} {w h : ℕ} {g : Pixels} (hf : Shows bytes w h f)
    (hfg : ∀ y < h, ∀ x < w, ∀ i < 3, f y x i = g y x i) : Shows bytes w h g :=
  ⟨hf.length, fun y hy x hx i hi => hfg y hy x hx i hi ▸ hf.pixel y hy x hx i hi⟩

/-- The rows resized, also when there is nothing to do. -/
theorem firstPass_eq (hiw : 0 < iw) (how : 0 < ow) {src : List UInt8} (hsrc : Shows src iw ih f) :
    ∃ hsrc, firstPass src iw ow 0 ih = some hsrc ∧
      Shows hsrc ow ih fun y x i => passed iw ow (fun x' => f y x' i) x := by
  by_cases h : ow = iw
  · subst h
    refine ⟨src, if_neg (not_not_intro rfl), hsrc.congr fun y _ x hx i _ => ?_⟩
    exact (passed_self hiw hx fun x' => f y x' i).symm
  · obtain ⟨t, ht, hshows⟩ := horizontalPass_eq hiw how hsrc
    exact ⟨t, (if_pos h).trans ht, hshows⟩

/-- The columns resized, also when there is nothing to do. -/
theorem secondPass_eq (hih : 0 < ih) (hoh : 0 < oh) {hsrc : List UInt8} {w : ℕ}
    (hshows : Shows hsrc w ih f) :
    ∃ out, secondPass hsrc w ih oh 0 (precompute ih oh) = some out ∧
      Shows out w oh fun y x i => passed ih oh (fun y' => f y' x i) y := by
  by_cases h : oh = ih
  · subst h
    refine ⟨hsrc, if_neg (not_not_intro rfl), hshows.congr fun y hy x _ i _ => ?_⟩
    exact (passed_self hih hy fun y' => f y' x i).symm
  · obtain ⟨out, hout, hresult⟩ := verticalPass_eq hih hoh hshows
    exact ⟨out, (if_pos h).trans hout, hresult⟩

/-- Both passes, of which the first one has all rows. -/
theorem passes_eq (hiw : 0 < iw) (hih : 0 < ih) (how : 0 < ow) (hoh : 0 < oh) {src : List UInt8}
    (hsrc : Shows src iw ih f) :
    ∃ out, passes src iw ih ow oh = some out ∧ Shows out ow oh (twoPasses iw ih ow oh f) := by
  have hfirst : (precompute ih oh).bounds[0]? = some (0, countOf ih oh 0) := by
    rw [bounds_getElem hoh, xminOf_first]
    rfl
  have hlast := bounds_getElem (n := ih) (Nat.sub_lt hoh one_pos)
  have hrows : (xminOf ih oh (oh - 1)).toNat + countOf ih oh (oh - 1) = ih := by
    obtain ⟨-, -, hend⟩ := window_spec hih hoh (Nat.sub_lt hoh one_pos)
    have hmin := xminOf_nonneg ih oh (oh - 1)
    rw [xmaxOf_last hih hoh] at hend
    omega
  have hwidth : (if ow ≠ iw then ow else iw) = ow := by
    split
    · rfl
    · next h => exact (not_not.mp h).symm
  obtain ⟨t, ht, hshows⟩ := firstPass_eq hiw how hsrc
  obtain ⟨out, hout, hresult⟩ := secondPass_eq hih hoh hshows
  refine ⟨out, ?_, hresult⟩
  refine Option.bind_eq_some_iff.mpr ⟨_, hfirst, Option.bind_eq_some_iff.mpr ⟨_, hlast, ?_⟩⟩
  rw [hrows, hwidth, ite_self]
  exact Option.bind_eq_some_iff.mpr ⟨t, ht, hout⟩

/-- **What resizing computes**: the windows of both axes are inside of the input and not cut, they
advance, no sum leaves the range of an `i32`, and the bytes are those of two passes over the whole
image. -/
theorem resizeBicubic_exact (hiw : 0 < iw) (hih : 0 < ih) (how : 0 < ow) (hoh : 0 < oh)
    (data : List UInt8) : Windows iw ow ∧ Windows ih oh ∧
      ∃ out, resizeBicubic iw ih data ow oh = some out ∧
        Shows out ow oh (twoPasses iw ih ow oh (pixels (tolerated data (iw * ih * 3)) iw)) := by
  refine ⟨windows hiw how, windows hih hoh, ?_⟩
  have hsrc : Shows (tolerated data (iw * ih * 3)) iw ih
      (pixels (tolerated data (iw * ih * 3)) iw) := by
    refine shows_pixels ?_
    rw [length_tolerated]
    ring
  rw [resizeBicubic, if_neg (by omega), if_neg (by omega)]
  by_cases hsame : iw = ow ∧ ih = oh
  · rw [if_pos hsame]
    obtain ⟨rfl, rfl⟩ := hsame
    refine ⟨_, rfl, hsrc.congr fun y hy x hx i _ => ?_⟩
    rw [twoPasses, passed_self hih hy, passed_self hiw hx]
  · rw [if_neg hsame]
    exact passes_eq hiw hih how hoh hsrc

theorem resizeBicubic_exact_thirds : Windows 10 3 ∧ Windows 3 10 ∧
    ∃ out, resizeBicubic 10 3 [255, 0, 255] 3 10 = some out ∧
      Shows out 3 10 (twoPasses 10 3 3 10 (pixels (tolerated [255, 0, 255] (10 * 3 * 3)) 10)) :=
  resizeBicubic_exact (by decide) (by decide) (by decide) (by decide) [255, 0, 255]

end Resize

end Image

end Mimo26

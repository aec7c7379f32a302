import Mimo26.Image.Windows
import Mimo26.Library.EqualSteps

/-!
# The sums of the bicubic filter

The filter is positive up to one unit from the center and negative up to two. In a window the
positive taps outweigh the negative ones, also where an end of the input cuts the window off, and
this bounds what dividing by their sum can make of a tap.

A window is seen as two sides. Each is a row of places at equal distances, the first of them at most
that distance from the center.

## Main results

* `neg_le_pos` — the negative taps of a window are at most 8 / 27 of the positive ones
* `excess_nonneg` — in a wide window, the taps that reach a level exceed it by as much
-/

namespace Mimo26

namespace Image

namespace Resize

open EqualSteps Finset

/-! ### The filter -/

variable {s t : ℚ}

theorem bicubic_of_lt_one (h0 : 0 ≤ t) (h : t < 1) : bicubic t = (3 / 2 * t - 5 / 2) * t ^ 2 + 1 := by
  rw [bicubic, if_neg (not_lt.mpr h0), if_pos h]
  ring

theorem bicubic_of_lt_two (h : 1 ≤ t) (h2 : t < 2) :
    bicubic t = -(1 / 2) * (t - 1) * (2 - t) ^ 2 := by
  rw [bicubic, if_neg (not_lt.mpr (by linarith : 0 ≤ t)), if_neg (not_lt.mpr h), if_pos h2]
  ring

theorem bicubic_of_two_le (h : 2 ≤ t) : bicubic t = 0 := by
  rw [bicubic, if_neg (not_lt.mpr (by linarith : 0 ≤ t)), if_neg (not_lt.mpr (by linarith : 1 ≤ t)),
    if_neg (not_lt.mpr h)]

theorem bicubic_neg (t : ℚ) : bicubic (-t) = bicubic t := by
  have habs : (if -t < 0 then - -t else -t) = if t < 0 then -t else t := by
    split_ifs <;> linarith
  rw [bicubic, bicubic, habs]

theorem bicubic_abs (t : ℚ) : bicubic |t| = bicubic t := by
  rcases abs_choice t with h | h
  · rw [h]
  · rw [h, bicubic_neg]

theorem bicubic_one : bicubic 1 = 0 := by
  rw [bicubic_of_lt_two (le_refl 1) (by norm_num)]
  norm_num

/-- Up to one unit from the center. -/
theorem bicubic_inner (h0 : 0 ≤ t) (h : t ≤ 1) : bicubic t = (3 / 2 * t - 5 / 2) * t ^ 2 + 1 := by
  rcases h.lt_or_eq with h | rfl
  · exact bicubic_of_lt_one h0 h
  · rw [bicubic_one]
    norm_num

/-- Farther out. -/
theorem bicubic_outer (h : 1 ≤ t) (h2 : t ≤ 2) : bicubic t = -(1 / 2) * (t - 1) * (2 - t) ^ 2 := by
  rcases h2.lt_or_eq with h2 | rfl
  · exact bicubic_of_lt_two h h2
  · rw [bicubic_of_two_le (le_refl 2)]
    norm_num

theorem bicubic_anti (h0 : 0 ≤ s) (hst : s ≤ t) (h : t ≤ 1) : bicubic t ≤ bicubic s := by
  rw [bicubic_inner h0 (hst.trans h), bicubic_inner (h0.trans hst) h]
  have hfactor : 0 ≤ (t - s) * (5 / 2 * (t + s) - 3 / 2 * (t ^ 2 + t * s + s ^ 2)) := by
    refine mul_nonneg (by linarith) ?_
    nlinarith [mul_nonneg h0 (h0.trans hst)]
  nlinarith [hfactor]

theorem bicubic_inner_nonneg (h0 : 0 ≤ t) (h : t ≤ 1) : 0 ≤ bicubic t :=
  bicubic_one ▸ bicubic_anti h0 h (le_refl 1)

theorem bicubic_half (h0 : 0 ≤ t) (h : t ≤ 1 / 2) : 9 / 16 ≤ bicubic t := by
  have hle := bicubic_anti h0 h (by norm_num)
  rw [bicubic_inner (by norm_num : (0 : ℚ) ≤ 1 / 2) (by norm_num)] at hle
  linarith

/-- Two places that are at most one unit apart, on either side of the center. -/
theorem one_le_bicubic_add (hs : 0 ≤ s) (ht : 0 ≤ t) (h : s + t ≤ 1) :
    1 ≤ bicubic s + bicubic t := by
  have hle := bicubic_anti ht (by linarith : t ≤ 1 - s) (by linarith)
  rw [bicubic_inner (by linarith : 0 ≤ 1 - s) (by linarith)] at hle
  rw [bicubic_inner hs (by linarith)]
  nlinarith [mul_nonneg hs (by linarith : 0 ≤ 1 - s)]

theorem bicubic_outer_nonpos (h : 1 ≤ t) (h2 : t ≤ 2) : bicubic t ≤ 0 := by
  rw [bicubic_outer h h2]
  have hprod : 0 ≤ (t - 1) * (2 - t) ^ 2 := mul_nonneg (by linarith) (sq_nonneg _)
  linarith

/-- The negative lobe is deepest at one third of a unit. -/
theorem bicubic_outer_ge (h : 1 ≤ t) (h2 : t ≤ 2) : -(2 / 27) ≤ bicubic t := by
  rw [bicubic_outer h h2]
  have hprod : 0 ≤ (t - 4 / 3) ^ 2 * (7 / 3 - t) := mul_nonneg (sq_nonneg _) (by linarith)
  nlinarith [hprod]

theorem bicubic_outer_ge_half (h : 3 / 2 ≤ t) (h2 : t ≤ 2) : -(1 / 16) ≤ bicubic t := by
  rw [bicubic_outer (by linarith) h2]
  have hprod : 0 ≤ (t - 3 / 2) * (1 / 4 + (t - 3 / 2) * (2 - t)) := by
    refine mul_nonneg (by linarith) ?_
    nlinarith [mul_nonneg (by linarith : 0 ≤ t - 3 / 2) (by linarith : 0 ≤ 2 - t)]
  nlinarith [hprod]

theorem bicubic_outer_ge_quarter (h : 7 / 4 ≤ t) (h2 : t ≤ 2) : -(3 / 128) ≤ bicubic t := by
  rw [bicubic_outer (by linarith) h2]
  have hprod : 0 ≤ (t - 7 / 4) * (3 / 16 + (2 - t) * (t - 5 / 4)) := by
    refine mul_nonneg (by linarith) ?_
    nlinarith [mul_nonneg (by linarith : 0 ≤ 2 - t) (by linarith : 0 ≤ t - 5 / 4)]
  nlinarith [hprod]

/-! ### One side of a window -/

/-- The places of the taps on one side of the center. -/
structure Side (u d : ℚ) (r : ℕ) : Prop where
  pos : 0 < d
  le_one : d ≤ 1
  nonneg : 0 ≤ u
  le : u ≤ d
  within : ∀ j < r, u + j * d ≤ 2

/-- What is positive, and what is negative, of the filter at a place. -/
def gain (t : ℚ) : ℚ := max (bicubic t) 0

def loss (t : ℚ) : ℚ := max (-bicubic t) 0

theorem gain_nonneg (t : ℚ) : 0 ≤ gain t := le_max_right _ _

theorem loss_nonneg (t : ℚ) : 0 ≤ loss t := le_max_right _ _

theorem gain_sub_loss (t : ℚ) : gain t - loss t = bicubic t := by
  rw [gain, loss]
  rcases le_total (bicubic t) 0 with h | h
  · rw [max_eq_right h, max_eq_left (by linarith)]
    ring
  · rw [max_eq_left h, max_eq_right (by linarith)]
    ring

theorem loss_inner (h0 : 0 ≤ t) (h : t ≤ 1) : loss t = 0 :=
  max_eq_right (by linarith [bicubic_inner_nonneg h0 h])

theorem loss_le (h : 1 ≤ t) (h2 : t ≤ 2) : loss t ≤ 2 / 27 :=
  max_le (by linarith [bicubic_outer_ge h h2]) (by norm_num)

variable {u v d : ℚ} {r l k : ℕ}

namespace Side

theorem le_upTo (h : Side u d r) : r ≤ upTo u d 2 := by
  by_contra hlt
  have hmem : upTo u d 2 < r := not_le.mp hlt
  have hu : u ≤ 2 := by linarith [h.le, h.le_one]
  exact absurd ((lt_upTo h.pos hu).mpr (h.within _ hmem)) (lt_irrefl _)

theorem place_nonneg (h : Side u d r) (j : ℕ) : 0 ≤ u + j * d :=
  add_nonneg h.nonneg (mul_nonneg (Nat.cast_nonneg j) h.pos.le)

/-- Only one lobe of the filter is negative. -/
theorem loss_le (h : Side u d r) (hk : 1 / d < k + 1) :
    ∑ j ∈ range r, loss (u + j * d) ≤ 2 / 27 * (k + 1) := by
  have hu : u ≤ 1 := h.le.trans h.le_one
  have hle := upTo_mono (u := u) h.pos (by norm_num : (1 : ℚ) ≤ 2)
  have hcount : upTo u d 2 - upTo u d 1 ≤ k + 1 := by
    have hsub := (upTo_sub h.pos hu (by norm_num : (1 : ℚ) ≤ 2)).2
    have hlt : (upTo u d 2 : ℚ) - upTo u d 1 < k + 2 := by
      have hone : ((2 : ℚ) - 1) / d = 1 / d := by norm_num
      linarith
    have hnat : upTo u d 2 < k + 2 + upTo u d 1 := by
      have hcast : (upTo u d 2 : ℚ) < ((k + 2 + upTo u d 1 : ℕ) : ℚ) := by
        push_cast
        linarith
      exact_mod_cast hcast
    omega
  have hzero : ∑ j ∈ range (upTo u d 1), loss (u + j * d) = 0 := by
    refine sum_eq_zero fun j hj => ?_
    exact loss_inner (h.place_nonneg j) ((lt_upTo h.pos hu).mp (mem_range.mp hj))
  have hlobe : ∑ j ∈ Ico (upTo u d 1) (upTo u d 2), loss (u + j * d) ≤
      (upTo u d 2 - upTo u d 1) • (2 / 27 : ℚ) := by
    rw [← Nat.card_Ico]
    refine sum_le_card_nsmul _ _ _ fun j hj => ?_
    obtain ⟨hlo, hhi⟩ := mem_Ico.mp hj
    have hge : 1 ≤ u + j * d := by
      by_contra hlt
      exact absurd ((lt_upTo h.pos hu).mpr (not_le.mp hlt).le) (Nat.not_lt.mpr hlo)
    exact Resize.loss_le hge ((lt_upTo h.pos (by linarith)).mp hhi)
  have hrange : ∑ j ∈ range r, loss (u + j * d) ≤ ∑ j ∈ range (upTo u d 2), loss (u + j * d) :=
    sum_le_sum_of_subset_of_nonneg (range_mono h.le_upTo) fun j _ _ => loss_nonneg _
  rw [← sum_range_add_sum_Ico _ hle, hzero, zero_add] at hrange
  refine hrange.trans (hlobe.trans ?_)
  rw [nsmul_eq_mul, mul_comm]
  have hcast : ((upTo u d 2 - upTo u d 1 : ℕ) : ℚ) ≤ k + 1 := by exact_mod_cast hcount
  linarith

/-- A side that ends before the negative lobe. -/
theorem loss_eq_zero (h : Side u d r) (hshort : ∀ j < r, u + j * d ≤ 1) :
    ∑ j ∈ range r, loss (u + j * d) = 0 :=
  sum_eq_zero fun j hj => loss_inner (h.place_nonneg j) (hshort j (mem_range.mp hj))

end Side

/-- Taps that are nearly a unit apart, on the two sides, are together at least one. -/
theorem le_gain_of_both (hr : Side u d r) (hl : Side v d l) (huv : u + v = d)
    (hk : (k : ℚ) * d ≤ 1) (hlong : k ≤ r) (hlong' : k ≤ l) :
    (k : ℚ) ≤ ∑ j ∈ range r, gain (u + j * d) + ∑ j ∈ range l, gain (v + j * d) := by
  have hright : ∑ j ∈ range k, gain (u + j * d) ≤ ∑ j ∈ range r, gain (u + j * d) :=
    sum_le_sum_of_subset_of_nonneg (range_mono hlong) fun j _ _ => gain_nonneg _
  have hleft : ∑ j ∈ range k, gain (v + j * d) ≤ ∑ j ∈ range l, gain (v + j * d) :=
    sum_le_sum_of_subset_of_nonneg (range_mono hlong') fun j _ _ => gain_nonneg _
  have hpairs : (k : ℚ) ≤ ∑ j ∈ range k, (gain (u + j * d) + gain (v + (k - 1 - j : ℕ) * d)) := by
    have hone : ∀ j ∈ range k, (1 : ℚ) ≤ gain (u + j * d) + gain (v + (k - 1 - j : ℕ) * d) := by
      intro j hj
      have hlt := mem_range.mp hj
      have hsum : (j : ℚ) + (k - 1 - j : ℕ) = k - 1 := by
        have hnat : j + (k - 1 - j) + 1 = k := by omega
        have hcast := congrArg (Nat.cast (R := ℚ)) hnat
        push_cast at hcast
        linarith
      have hplaces : u + j * d + (v + (k - 1 - j : ℕ) * d) ≤ 1 := by
        calc u + j * d + (v + (k - 1 - j : ℕ) * d) = u + v + (j + (k - 1 - j : ℕ)) * d := by ring
          _ = k * d := by rw [huv, hsum]; ring
          _ ≤ 1 := hk
      have hbicubic := one_le_bicubic_add (hr.place_nonneg j) (hl.place_nonneg (k - 1 - j)) hplaces
      exact hbicubic.trans (add_le_add (le_max_left _ _) (le_max_left _ _))
    have hsum := card_nsmul_le_sum _ _ _ hone
    rwa [card_range, nsmul_eq_mul, mul_one] at hsum
  rw [sum_add_distrib, sum_range_reflect (fun j => gain (v + j * d))] at hpairs
  linarith

/-! ### Taps that reach a level -/

/-- Twice a tap, less the tap and the level `a` if it reaches it. -/
def excess (a t : ℚ) : ℚ := 2 * bicubic t - if a ≤ bicubic t then bicubic t + a else 0

variable {a b : ℚ}

/-- A tap that reaches the level. -/
theorem excess_ge (h : a ≤ bicubic t) : excess a t = bicubic t - a := by
  rw [excess, if_pos h]
  ring

theorem excess_of_lt (h : bicubic t < a) : excess a t = 2 * bicubic t := by
  rw [excess, if_neg (not_le.mpr h), sub_zero]

theorem excess_inner_nonneg (h0 : 0 ≤ t) (h : t ≤ 1) : 0 ≤ excess a t := by
  have hnonneg := bicubic_inner_nonneg h0 h
  by_cases ha : a ≤ bicubic t
  · rw [excess_ge ha]
    linarith
  · rw [excess_of_lt (not_le.mp ha)]
    linarith

theorem excess_outer (ha : 0 < a) (h : 1 ≤ t) (h2 : t ≤ 2) : excess a t = 2 * bicubic t :=
  excess_of_lt ((bicubic_outer_nonpos h h2).trans_lt ha)

namespace Side

/-- Past the positive lobe the sum falls by less than an eighth of the taps in a unit. -/
theorem total_outer (h : Side u d r) (ha : 0 < a) :
    total (excess a) u d 1 - (1 / d * (15 / 128) + 1) ≤ total (excess a) u d 2 := by
  have hu : u ≤ 1 := h.le.trans h.le_one
  have hfirst := total_step_neg (f := excess a) (c := -(4 / 27)) h.pos hu
    (by norm_num : (1 : ℚ) ≤ 3 / 2) (by norm_num) fun t ht ht' => by
      rw [excess_outer ha ht.le (by linarith)]
      linarith [bicubic_outer_ge ht.le (by linarith)]
  have hsecond := total_step_neg (f := excess a) (c := -(1 / 8)) h.pos (by linarith : u ≤ 3 / 2)
    (by norm_num : (3 / 2 : ℚ) ≤ 7 / 4) (by norm_num) fun t ht ht' => by
      rw [excess_outer ha (by linarith) (by linarith)]
      linarith [bicubic_outer_ge_half ht.le (by linarith)]
  have hthird := total_step_neg (f := excess a) (c := -(3 / 64)) h.pos (by linarith : u ≤ 7 / 4)
    (by norm_num : (7 / 4 : ℚ) ≤ 2) (by norm_num) fun t ht ht' => by
      rw [excess_outer ha (by linarith) ht']
      linarith [bicubic_outer_ge_quarter ht.le ht']
  have hunit : 0 ≤ 1 / d := (one_div_pos.mpr h.pos).le
  linarith

/-- A low level: taps within half a unit exceed it. -/
theorem total_inner_low (h : Side u d r) (ha : a ≤ 2 / 5) (hd : d ≤ 1 / 4) :
    1 / d * (33 / 256) - 2 ≤ total (excess a) u d 1 := by
  have hu : u ≤ 1 / 4 := h.le.trans hd
  have hfirst := total_start (f := excess a) (c := 299 / 640) h.pos h.le (by norm_num) hu
    fun t ht ht' => by
      have h0 : 0 ≤ t := h.nonneg.trans ht
      have hle := bicubic_anti h0 ht' (by norm_num)
      rw [bicubic_inner (by norm_num : (0 : ℚ) ≤ 1 / 4) (by norm_num)] at hle
      rw [excess_ge (by linarith)]
      linarith
  have hsecond := total_step (f := excess a) (c := 13 / 80) h.pos hu
    (by norm_num : (1 / 4 : ℚ) ≤ 1 / 2) (by norm_num) fun t ht ht' => by
      have hhalf := bicubic_half (by linarith : 0 ≤ t) ht'
      rw [excess_ge (by linarith)]
      linarith
  have hthird := total_step (f := excess a) (c := 0) h.pos (by linarith : u ≤ 1 / 2)
    (by norm_num : (1 / 2 : ℚ) ≤ 1) (le_refl 0) fun t ht ht' =>
      excess_inner_nonneg (by linarith) ht'
  have hunit : 0 ≤ 1 / d := (one_div_pos.mpr h.pos).le
  linarith

/-- Between five and six eighths of a unit no tap reaches the level. -/
theorem total_far (h : Side u d r) (ha : 2 / 5 ≤ a) (hu : u ≤ 5 / 8) :
    total (excess a) u d (5 / 8) + (1 / 8 * (1 / d) - 1) * (29 / 64) ≤ total (excess a) u d 1 := by
  have hfar := total_step (f := excess a) (c := 29 / 64) h.pos hu
    (by norm_num : (5 / 8 : ℚ) ≤ 3 / 4) (by norm_num) fun t ht ht' => by
      have h0 : 0 ≤ t := by linarith
      have hle := bicubic_anti h0 ht' (by norm_num)
      have hlt := bicubic_anti (by norm_num : (0 : ℚ) ≤ 5 / 8) ht.le (by linarith)
      rw [bicubic_inner (by norm_num : (0 : ℚ) ≤ 3 / 4) (by norm_num)] at hle
      rw [bicubic_inner (by norm_num : (0 : ℚ) ≤ 5 / 8) (by norm_num)] at hlt
      rw [excess_of_lt (by linarith)]
      linarith
  have hend := total_step (f := excess a) (c := 0) h.pos (by linarith : u ≤ 3 / 4)
    (by norm_num : (3 / 4 : ℚ) ≤ 1) (le_refl 0) fun t ht ht' =>
      excess_inner_nonneg (by linarith) ht'
  linarith

/-- A middle level: near taps exceed it, and far ones do not reach it. -/
theorem total_inner_middle (h : Side u d r) (ha : 2 / 5 ≤ a) (ha' : a ≤ 9 / 16) (hd : d ≤ 1 / 4) :
    1 / d * (33 / 256) - 2 ≤ total (excess a) u d 1 := by
  have hu : u ≤ 1 / 4 := h.le.trans hd
  have hfirst := total_start (f := excess a) (c := 39 / 128) h.pos h.le (by norm_num) hu
    fun t ht ht' => by
      have h0 : 0 ≤ t := h.nonneg.trans ht
      have hle := bicubic_anti h0 ht' (by norm_num)
      rw [bicubic_inner (by norm_num : (0 : ℚ) ≤ 1 / 4) (by norm_num)] at hle
      rw [excess_ge (by linarith)]
      linarith
  have hsecond := total_step (f := excess a) (c := 0) h.pos hu
    (by norm_num : (1 / 4 : ℚ) ≤ 5 / 8) (le_refl 0) fun t ht ht' =>
      excess_inner_nonneg (by linarith) (by linarith)
  have hfar := h.total_far ha (by linarith)
  have hunit : 0 ≤ 1 / d := (one_div_pos.mpr h.pos).le
  linarith

/-- A high level: taps beyond half a unit do not reach it. -/
theorem total_inner_high (h : Side u d r) (ha : 9 / 16 < a) (hd : d ≤ 1 / 4) :
    1 / d * (33 / 256) - 2 ≤ total (excess a) u d 1 := by
  have hu : u ≤ 1 / 4 := h.le.trans hd
  have hfirst := total_start (f := excess a) (c := 0) h.pos h.le (le_refl 0)
    (by linarith : u ≤ 1 / 2) fun t ht ht' =>
      excess_inner_nonneg (h.nonneg.trans ht) (by linarith)
  have hsecond := total_step (f := excess a) (c := 399 / 512) h.pos (by linarith : u ≤ 1 / 2)
    (by norm_num : (1 / 2 : ℚ) ≤ 5 / 8) (by norm_num) fun t ht ht' => by
      have h0 : 0 ≤ t := by linarith
      have hle := bicubic_anti h0 ht' (by norm_num)
      rw [bicubic_inner (by norm_num : (0 : ℚ) ≤ 5 / 8) (by norm_num)] at hle
      have hhalf := bicubic_anti (by norm_num : (0 : ℚ) ≤ 1 / 2) ht.le (by linarith)
      rw [bicubic_inner (by norm_num : (0 : ℚ) ≤ 1 / 2) (by norm_num)] at hhalf
      rw [excess_of_lt (by linarith)]
      linarith
  have hlevel : 2 / 5 ≤ a := by linarith
  have hfar := h.total_far hlevel (by linarith)
  have hunit : 0 ≤ 1 / d := (one_div_pos.mpr h.pos).le
  linarith

/-- **On a side with many taps in a unit, the taps that reach a level exceed it** by as much as
there is below it and in the negative lobe. -/
theorem excess_nonneg (h : Side u d r) (ha : 0 < a) (hd : 2 ^ 20 * d ≤ 1) :
    0 ≤ ∑ j ∈ range r, excess a (u + j * d) := by
  have hu : u ≤ 1 := h.le.trans h.le_one
  by_cases hr : upTo u d 1 ≤ r
  · have hmany : 2 ^ 20 ≤ 1 / d := (le_div_iff₀ h.pos).mpr hd
    have hquarter : d ≤ 1 / 4 := by linarith
    have hinner : 1 / d * (33 / 256) - 2 ≤ total (excess a) u d 1 := by
      by_cases hlow : a ≤ 2 / 5
      · exact h.total_inner_low hlow hquarter
      by_cases hmiddle : a ≤ 9 / 16
      · exact h.total_inner_middle (not_le.mp hlow).le hmiddle hquarter
      · exact h.total_inner_high (not_le.mp hmiddle) hquarter
    have houter := h.total_outer ha
    have hsum := total_le_sum (f := excess a) h.pos hu (by norm_num : (1 : ℚ) ≤ 2)
      (fun t ht ht' => by
        rw [excess_outer ha ht.le ht']
        linarith [bicubic_outer_nonpos ht.le ht']) hr h.le_upTo
    linarith
  · refine sum_nonneg fun j hj => excess_inner_nonneg (h.place_nonneg j) ?_
    exact (lt_upTo h.pos hu).mp ((mem_range.mp hj).trans (not_le.mp hr))

end Side

/-! ### Both sides of a window -/

variable {n m xx : ℕ}

theorem place_eq (hn : 0 < n) (hm : 0 < m) (hx : xx < m) {x : ℕ} (hmem : x < countOf n m xx) :
    -2 < place n m xx x ∧ place n m xx x ≤ 2 := by
  have hF := one_le_filterscale n m
  obtain ⟨-, -, hcount⟩ := window_spec hn hm hx
  have hlt : xminOf n m xx + x < xmaxOf n m xx := by omega
  obtain ⟨-, hlo, hhi⟩ := (mem_window hn hm).mp ⟨by omega, hlt⟩
  push_cast at hlo hhi
  rw [support] at hlo hhi
  rw [place, mul_one_div, lt_div_iff₀ (by linarith), div_le_iff₀ (by linarith)]
  constructor <;> linarith

/-- **A window is two sides**: an even function is summed over both. -/
theorem exists_sides (hn : 0 < n) (hm : 0 < m) (hx : xx < m) : ∃ u v l r,
    Side u (1 / filterscale n m) r ∧ Side v (1 / filterscale n m) l ∧
      u + v = 1 / filterscale n m ∧ ∀ f : ℚ → ℚ, (∀ t, f (-t) = f t) →
        ∑ x ∈ range (countOf n m xx), f (place n m xx x) =
          ∑ j ∈ range r, f (u + j * (1 / filterscale n m)) +
            ∑ j ∈ range l, f (v + j * (1 / filterscale n m)) := by
  have hF := one_le_filterscale n m
  have hc := center_pos hn hm xx
  have hcn := center_lt hn hm hx
  obtain ⟨-, -, hcount⟩ := window_spec hn hm hx
  generalize hd : 1 / filterscale n m = d
  have hdpos : 0 < d := hd ▸ one_div_pos.mpr (by linarith)
  have hdle : d ≤ 1 := by
    rw [← hd, div_le_one (by linarith)]
    exact hF
  -- the first pixel that is not left of the center
  obtain ⟨X, hX⟩ : ∃ X, X = ⌈center n m xx - 1 / 2⌉ := ⟨_, rfl⟩
  have hXge : center n m xx - 1 / 2 ≤ X := hX ▸ Int.le_ceil _
  have hXlt : (X : ℚ) < center n m xx + 1 / 2 := by
    have h := Int.ceil_lt_add_one (center n m xx - 1 / 2)
    rw [← hX] at h
    linarith
  have hmin : xminOf n m xx ≤ X := by
    have hfloor := Int.floor_le (center n m xx - support n m + 1 / 2)
    have hle : (⌊center n m xx - support n m + 1 / 2⌋ : ℚ) ≤ X := by
      rw [support] at hfloor ⊢
      linarith
    have hlt : (-1 : ℚ) < X := by linarith
    have hlt' : -1 < X := by exact_mod_cast hlt
    rw [xminOf_eq]
    exact max_le (by exact_mod_cast hle) (by omega)
  have hmax : X ≤ xmaxOf n m xx := by
    have hlt : (X : ℚ) < n + 1 := by linarith
    have hlt' : X < n + 1 := by exact_mod_cast hlt
    rw [xmaxOf_eq hn hm]
    refine le_min (Int.le_floor.mpr ?_) (by omega)
    rw [support]
    linarith
  obtain ⟨l, hl⟩ := Int.eq_ofNat_of_zero_le (sub_nonneg.mpr hmin)
  obtain ⟨r, hr⟩ := Int.eq_ofNat_of_zero_le (sub_nonneg.mpr hmax)
  have hsum : countOf n m xx = l + r := by omega
  have hplace (j : ℕ) : place n m xx (l + j) = (X - center n m xx + 1 / 2) * d + j * d := by
    have hcast : (l : ℚ) + xminOf n m xx = X := by
      have h : (l : ℤ) + xminOf n m xx = X := by omega
      exact_mod_cast h
    rw [place, hd, ← hcast]
    push_cast
    ring
  have hleft {j : ℕ} (hj : j < l) :
      place n m xx (l - 1 - j) = -(d - (X - center n m xx + 1 / 2) * d + j * d) := by
    have hcast : ((l - 1 - j : ℕ) : ℚ) + xminOf n m xx = X - 1 - j := by
      have h : ((l - 1 - j : ℕ) : ℤ) + xminOf n m xx = X - 1 - j := by omega
      exact_mod_cast h
    rw [place, hd, hcast]
    ring
  have hu0 : 0 ≤ (X - center n m xx + 1 / 2) * d := mul_nonneg (by linarith) hdpos.le
  have hud : (X - center n m xx + 1 / 2) * d ≤ d := by nlinarith
  refine ⟨(X - center n m xx + 1 / 2) * d, d - (X - center n m xx + 1 / 2) * d, l, r,
    ⟨hdpos, hdle, hu0, hud, fun j hj => ?_⟩,
    ⟨hdpos, hdle, by linarith, by linarith, fun j hj => ?_⟩, by ring, fun f hf => ?_⟩
  · rw [← hplace]
    exact (place_eq hn hm hx (by omega)).2
  · have h := (place_eq hn hm hx (by omega : l - 1 - j < countOf n m xx)).1
    rw [hleft hj] at h
    linarith
  · rw [hsum, sum_range_add, add_comm, ← sum_range_reflect (fun x => f (place n m xx x)) l]
    refine congrArg₂ _ (sum_congr rfl fun j _ => by rw [hplace]) (sum_congr rfl fun j hj => ?_)
    rw [hleft (mem_range.mp hj), hf]

/-- There is a tap within half a unit for each pixel in a unit. -/
theorem le_gain (hn : 0 < n) (hm : 0 < m) (hx : xx < m) (hkpos : 0 < k)
    (hk : (k : ℚ) ≤ filterscale n m) (hone : scaleOf n m < 1 → k = 1) :
    9 / 16 * (k : ℚ) ≤ ∑ x ∈ range (countOf n m xx), gain (place n m xx x) := by
  have hF := one_le_filterscale n m
  have hc := center_pos hn hm xx
  have hcn := center_lt hn hm hx
  have hbounds := center_bounds hn hm hx
  obtain ⟨-, -, hcount⟩ := window_spec hn hm hx
  -- the first pixel within half a unit
  obtain ⟨X, hX⟩ : ∃ X, X = ⌈center n m xx - filterscale n m / 2 - 1 / 2⌉ := ⟨_, rfl⟩
  have hXge : center n m xx - filterscale n m / 2 - 1 / 2 ≤ X := hX ▸ Int.le_ceil _
  have hXlt : (X : ℚ) < center n m xx - filterscale n m / 2 + 1 / 2 := by
    have h := Int.ceil_lt_add_one (center n m xx - filterscale n m / 2 - 1 / 2)
    rw [← hX] at h
    linarith
  have hinside : (-1 : ℚ) < X ∧ (X : ℚ) + k < n + 1 := by
    by_cases hs : scaleOf n m < 1
    · have hunit : filterscale n m = 1 := if_pos hs
      rw [hunit] at hXge hXlt
      have hcast : (k : ℚ) = 1 := by exact_mod_cast hone hs
      rw [hcast]
      constructor <;> linarith
    · have hunit : filterscale n m = scaleOf n m := if_neg hs
      rw [hunit] at hXge hXlt hk
      constructor <;> linarith
  have hX0 : 0 ≤ X := by
    have h : (-1 : ℤ) < X := by exact_mod_cast hinside.1
    omega
  have hXn : X + k ≤ n := by
    have h : X + k < n + 1 := by exact_mod_cast hinside.2
    omega
  have hnear {i : ℕ} (hi : i < k) : -(filterscale n m / 2) ≤ (X : ℚ) + i - center n m xx + 1 / 2 ∧
      (X : ℚ) + i - center n m xx + 1 / 2 ≤ filterscale n m / 2 := by
    have hi' : (i : ℚ) + 1 ≤ k := by exact_mod_cast hi
    have hi0 : (0 : ℚ) ≤ i := Nat.cast_nonneg i
    constructor <;> linarith
  have hwindow {i : ℕ} (hi : i < k) : xminOf n m xx ≤ X + i ∧ X + i < xmaxOf n m xx := by
    obtain ⟨hlo, hhi⟩ := hnear hi
    refine (mem_window hn hm).mpr ⟨by omega, ?_⟩
    push_cast
    rw [support]
    constructor <;> linarith
  obtain ⟨o, ho⟩ := Int.eq_ofNat_of_zero_le (sub_nonneg.mpr (hwindow hkpos).1)
  have hsub : Ico o (o + k) ⊆ range (countOf n m xx) := by
    intro x hx
    obtain ⟨hlo, hhi⟩ := mem_Ico.mp hx
    have hlast := (hwindow (by omega : x - o < k)).2
    exact mem_range.mpr (by omega)
  have htap : ∀ x ∈ Ico o (o + k), 9 / 16 ≤ gain (place n m xx x) := by
    intro x hx
    obtain ⟨hlo, hhi⟩ := mem_Ico.mp hx
    have hcast : (x : ℚ) + xminOf n m xx = X + (x - o : ℕ) := by
      have h : (x : ℤ) + xminOf n m xx = X + (x - o : ℕ) := by omega
      exact_mod_cast h
    obtain ⟨hlow, hhigh⟩ := hnear (by omega : x - o < k)
    have hhalf : |place n m xx x| ≤ 1 / 2 := by
      rw [place, hcast, mul_one_div, abs_div, abs_of_pos (by linarith : 0 < filterscale n m),
        div_le_iff₀ (by linarith)]
      exact abs_le.mpr ⟨by linarith, by linarith⟩
    have hbicubic := bicubic_half (abs_nonneg _) hhalf
    rw [bicubic_abs] at hbicubic
    exact hbicubic.trans (le_max_left _ _)
  have hsum := card_nsmul_le_sum _ _ _ htap
  rw [Nat.card_Ico, nsmul_eq_mul, Nat.add_sub_cancel_left, mul_comm] at hsum
  exact hsum.trans (sum_le_sum_of_subset_of_nonneg hsub fun x _ _ => gain_nonneg _)

theorem gain_neg (t : ℚ) : gain (-t) = gain t := by rw [gain, gain, bicubic_neg]

theorem loss_neg (t : ℚ) : loss (-t) = loss t := by rw [loss, loss, bicubic_neg]

theorem excess_neg (a t : ℚ) : excess a (-t) = excess a t := by rw [excess, excess, bicubic_neg]

/-- A side with a tap in the negative lobe has a tap for each pixel in a unit before it. -/
theorem Side.le_of_outer (h : Side u d r) (hk : (k : ℚ) * d ≤ 1) {j : ℕ} (hj : j < r)
    (hout : 1 < u + j * d) : k ≤ r := by
  by_contra hlt
  have hjk : j + 1 ≤ k := by omega
  have hcast : (j : ℚ) + 1 ≤ k := by exact_mod_cast hjk
  have hle := h.le
  nlinarith [mul_le_mul_of_nonneg_right hcast h.pos.le]

/-- **The negative taps of a window are at most 8 / 27 of the positive ones.** -/
theorem neg_le_pos (hn : 0 < n) (hm : 0 < m) (hx : xx < m) :
    ∑ x ∈ range (countOf n m xx), loss (place n m xx x) ≤
        8 / 27 * ∑ x ∈ range (countOf n m xx), gain (place n m xx x) ∧
      9 / 16 ≤ ∑ x ∈ range (countOf n m xx), gain (place n m xx x) := by
  have hF := one_le_filterscale n m
  obtain ⟨k, hk⟩ : ∃ k, k = ⌊filterscale n m⌋₊ := ⟨_, rfl⟩
  have hkle : (k : ℚ) ≤ filterscale n m := hk ▸ Nat.floor_le (by linarith)
  have hklt : filterscale n m < k + 1 := hk ▸ Nat.lt_floor_add_one _
  have hkpos : 0 < k := hk ▸ Nat.floor_pos.mpr hF
  have hkone : (1 : ℚ) ≤ k := by exact_mod_cast hkpos
  have hgain := le_gain hn hm hx hkpos hkle fun hs => by
    rw [hk, filterscale, if_pos hs, Nat.floor_one]
  obtain ⟨u, v, l, r, hr, hl, huv, hsum⟩ := exists_sides hn hm hx
  have hpos : 0 < filterscale n m := by linarith
  have hkd : (k : ℚ) * (1 / filterscale n m) ≤ 1 := by
    rw [mul_one_div]
    exact (div_le_one hpos).mpr hkle
  have hunit : 1 / (1 / filterscale n m) < k + 1 := by rwa [one_div_one_div]
  have hright := hr.loss_le hunit
  have hleft := hl.loss_le hunit
  refine ⟨?_, by linarith⟩
  rw [hsum loss loss_neg]
  by_cases hbr : ∀ j < r, u + j * (1 / filterscale n m) ≤ 1
  · rw [hr.loss_eq_zero hbr]
    linarith
  by_cases hbl : ∀ j < l, v + j * (1 / filterscale n m) ≤ 1
  · rw [hl.loss_eq_zero hbl]
    linarith
  · push Not at hbr hbl
    obtain ⟨i, hi, hiout⟩ := hbr
    obtain ⟨j, hj, hjout⟩ := hbl
    have hboth := le_gain_of_both hr hl huv hkd (hr.le_of_outer hkd hi hiout)
      (hl.le_of_outer hkd hj hjout)
    rw [hsum gain gain_neg]
    linarith

/-- **In a wide window, the taps that reach a level exceed it** by as much as there is below it and
in the negative lobes. -/
theorem excess_window_nonneg (hn : 0 < n) (hm : 0 < m) (hx : xx < m) (ha : 0 < a)
    (hwide : 2 ^ 20 ≤ filterscale n m) :
    0 ≤ ∑ x ∈ range (countOf n m xx), excess a (place n m xx x) := by
  obtain ⟨u, v, l, r, hr, hl, huv, hsum⟩ := exists_sides hn hm hx
  have hd : 2 ^ 20 * (1 / filterscale n m) ≤ 1 := by
    rw [mul_one_div]
    exact (div_le_one (by linarith)).mpr hwide
  rw [hsum (excess a) (excess_neg a)]
  exact add_nonneg (hr.excess_nonneg ha hd) (hl.excess_nonneg ha hd)

end Resize

end Image

end Mimo26

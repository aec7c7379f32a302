import Mathlib.Data.List.Basic
import Mathlib.Data.Nat.Notation

/-!
# Numerals

Reading an unsigned number written in a radix of at most 16, with an optional plus sign and any
number of leading zeros, and refusing what does not fit below a bound. Writing is `Nat.toDigits`.

## Main definitions

* `digit`, `numeral`, `readUnsigned` — the value of a digit, of digits, and of a number

## Main results

* `readUnsigned_toDigits` — a written number is read back
* `mem_of_readUnsigned` — what a number can consist of
-/

namespace Mimo26

namespace Numerals

/-- The value of a digit of a radix, in upper or lower case. -/
def digit (radix : ℕ) (c : Char) : Option ℕ :=
  let d :=
    if '0' ≤ c ∧ c ≤ '9' then c.toNat - '0'.toNat
    else if 'a' ≤ c ∧ c ≤ 'z' then c.toNat - 'a'.toNat + 10
    else if 'A' ≤ c ∧ c ≤ 'Z' then c.toNat - 'A'.toNat + 10
    else radix
  if d < radix then some d else none

/-- The value of digits, from the highest on, after `n`. -/
def numeral (radix : ℕ) : ℕ → List Char → Option ℕ
  | n, [] => some n
  | n, c :: s => (digit radix c).bind fun d => numeral radix (radix * n + d) s

/-- A number below `bound`. -/
def readUnsigned (radix bound : ℕ) (s : List Char) : Option ℕ :=
  let digits := if s.head? = some '+' then s.tail else s
  if digits = [] then none else (numeral radix 0 digits).filter (· < bound)

variable {radix : ℕ}

theorem digit_digitChar (hradix : radix ≤ 16) {d : ℕ} (hd : d < radix) :
    digit radix d.digitChar = some d := by
  have hvalue : ∀ d < 16,
      (if '0' ≤ d.digitChar ∧ d.digitChar ≤ '9' then d.digitChar.toNat - '0'.toNat
      else if 'a' ≤ d.digitChar ∧ d.digitChar ≤ 'z' then d.digitChar.toNat - 'a'.toNat + 10
      else if 'A' ≤ d.digitChar ∧ d.digitChar ≤ 'Z' then d.digitChar.toNat - 'A'.toNat + 10
      else 16) = d ∧ (('0' ≤ d.digitChar ∧ d.digitChar ≤ '9') ∨
        ('a' ≤ d.digitChar ∧ d.digitChar ≤ 'z')) := by
    decide
  obtain ⟨heq, hcase⟩ := hvalue d (Nat.lt_of_lt_of_le hd hradix)
  rw [digit]
  rcases hcase with h | h
  · rw [if_pos h] at heq ⊢
    rw [heq, if_pos hd]
  · by_cases h' : '0' ≤ d.digitChar ∧ d.digitChar ≤ '9'
    · rw [if_pos h'] at heq ⊢
      rw [heq, if_pos hd]
    · rw [if_neg h', if_pos h] at heq ⊢
      rw [heq, if_pos hd]

/-- A digit of a radix is one of every greater radix. -/
theorem digit_mono {radix' : ℕ} (hle : radix ≤ radix') {c : Char} (h : (digit radix c).isSome) :
    (digit radix' c).isSome := by
  rw [digit] at h ⊢
  split_ifs at h ⊢ <;> simp_all <;> omega

theorem numeral_append (n : ℕ) (s t : List Char) :
    numeral radix n (s ++ t) = (numeral radix n s).bind fun m => numeral radix m t := by
  induction s generalizing n with
  | nil => rfl
  | cons c s ih =>
    rw [List.cons_append, numeral, numeral, Option.bind_assoc]
    exact congrArg _ (funext fun d => ih _)

/-- The digits of a number are read back. -/
theorem numeral_toDigits (hpos : 1 < radix) (hradix : radix ≤ 16) (n : ℕ) :
    numeral radix 0 (Nat.toDigits radix n) = some n := by
  induction n using Nat.strongRecOn with
  | ind n ih =>
    by_cases hn : n < radix
    · rw [Nat.toDigits_of_lt_base hn, numeral, digit_digitChar hradix hn]
      simp [numeral]
    · have hmod : n % radix < radix := Nat.mod_lt n (by omega)
      rw [Nat.toDigits_of_base_le hpos (Nat.not_lt.mp hn), numeral_append,
        ih (n / radix) (Nat.div_lt_self (by omega) hpos)]
      simp [numeral, digit_digitChar hradix hmod, Nat.div_add_mod]

theorem numeral_zeros (hpos : 1 < radix) (hradix : radix ≤ 16) (k : ℕ) (s : List Char) :
    numeral radix 0 (List.replicate k '0' ++ s) = numeral radix 0 s := by
  have hzero : digit radix '0' = some 0 :=
    digit_digitChar hradix (Nat.lt_trans Nat.zero_lt_one hpos)
  induction k with
  | zero => rfl
  | succ k ih =>
    rw [List.replicate_succ, List.cons_append, numeral, hzero]
    simpa using ih

/-- What the digits of a number are. -/
theorem mem_of_numeral {n m : ℕ} {s : List Char} (h : numeral radix n s = some m) :
    ∀ c ∈ s, (digit radix c).isSome := by
  induction s generalizing n with
  | nil => exact fun c hc => absurd hc List.not_mem_nil
  | cons c s ih =>
    rw [numeral, Option.bind_eq_some_iff] at h
    obtain ⟨d, hd, hrest⟩ := h
    exact List.forall_mem_cons.mpr ⟨Option.isSome_iff_exists.mpr ⟨d, hd⟩, ih hrest⟩

/-- **What a number can consist of**: a plus sign and digits. -/
theorem mem_of_readUnsigned {bound n : ℕ} {s : List Char} (h : readUnsigned radix bound s =
    some n) :
    ∀ c ∈ s, c = '+' ∨ (digit radix c).isSome := by
  rw [readUnsigned] at h
  generalize hdigits : (if s.head? = some '+' then s.tail else s) = digits at h
  by_cases hnil : digits = []
  · rw [if_pos hnil] at h
    exact absurd h nofun
  · rw [if_neg hnil] at h
    have hmem := mem_of_numeral (Option.filter_eq_some_iff.mp h).1
    intro c hc
    by_cases hplus : s.head? = some '+'
    · rw [if_pos hplus] at hdigits
      obtain ⟨rest, rfl⟩ := List.head?_eq_some_iff.mp hplus
      subst hdigits
      exact (List.mem_cons.mp hc).imp_right (hmem c)
    · rw [if_neg hplus] at hdigits
      exact .inr (hmem c (hdigits ▸ hc))

/-- **A written number is read back**, also after leading zeros. -/
theorem readUnsigned_toDigits (hpos : 1 < radix) (hradix : radix ≤ 16) {bound n : ℕ}
    (hn : n < bound)
    (k : ℕ) : readUnsigned radix bound (List.replicate k '0' ++ Nat.toDigits radix n) = some n := by
  have hnumeral : numeral radix 0 (List.replicate k '0' ++ Nat.toDigits radix n) = some n := by
    rw [numeral_zeros hpos hradix, numeral_toDigits hpos hradix]
  have hplus : (List.replicate k '0' ++ Nat.toDigits radix n).head? ≠ some '+' := by
    intro hhead
    obtain ⟨rest, hrest⟩ := List.head?_eq_some_iff.mp hhead
    have hdigit := mem_of_numeral hnumeral '+' (hrest ▸ List.mem_cons_self)
    rw [show digit radix '+' = none by simp [digit]] at hdigit
    exact absurd hdigit nofun
  rw [readUnsigned, if_neg hplus, if_neg (List.append_ne_nil_of_right_ne_nil _ Nat.toDigits_ne_nil),
    hnumeral]
  exact Option.filter_eq_some_iff.mpr ⟨rfl, decide_eq_true hn⟩

end Numerals

end Mimo26

import Mathlib.Data.List.Range
import Mathlib.Data.Nat.Bitwise
import Mathlib.Tactic.Ring

/-!
# Bit strings

Numbers and byte strings as strings of bits, most significant bit first, and lists cut into pieces
of one length.

## Main definitions

* `toBits`, `ofBits` — a number as `w` bits, and back
* `ofBytes` — the bits of a byte string
* `pieces` — the whole pieces of `w` elements of a list

## Main results

* `toBits_add`, `ofBits_toBits`, `ofBits_append` — the conversions along a split of the bits
* `ofBytes_injective` — a byte string is told by its bits
* `pieces_append`, `pieces_ofBytes` — pieces along a split, and of bytes and of their bits
-/

namespace Mimo26

namespace BitString

/-! ### Numbers -/

/-- The `w` low bits of `n`, most significant first. -/
def toBits : ℕ → ℕ → List Bool
  | 0, _ => []
  | w + 1, n => n.testBit w :: toBits w n

/-- The number with these bits, most significant first. -/
def ofBits (bits : List Bool) : ℕ := bits.foldl (fun n bit => 2 * n + bit.toNat) 0

@[simp] theorem length_toBits (w n : ℕ) : (toBits w n).length = w := by
  induction w with
  | zero => rfl
  | succ w ih => rw [toBits, List.length_cons, ih]

theorem toBits_mod {v w : ℕ} (h : v ≤ w) (n : ℕ) : toBits v (n % 2 ^ w) = toBits v n := by
  induction v with
  | zero => rfl
  | succ v ih =>
    have hv : v < w := h
    rw [toBits, toBits, ih (le_of_lt hv), Nat.testBit_mod_two_pow, decide_eq_true hv,
      Bool.true_and]

/-- The high bits, and then the low ones. -/
theorem toBits_add (v w n : ℕ) : toBits (v + w) n = toBits v (n / 2 ^ w) ++ toBits w n := by
  induction v with
  | zero =>
    rw [Nat.zero_add]
    rfl
  | succ v ih =>
    rw [Nat.add_right_comm, toBits, toBits, ih, List.cons_append, Nat.testBit_div_two_pow,
      Nat.add_comm]

theorem toBits_zero (w : ℕ) : toBits w 0 = List.replicate w false := by
  induction w with
  | zero => rfl
  | succ w ih => rw [toBits, ih, Nat.zero_testBit, List.replicate_succ]

theorem foldl_bits (bits : List Bool) (n : ℕ) :
    bits.foldl (fun n bit => 2 * n + bit.toNat) n = n * 2 ^ bits.length + ofBits bits := by
  induction bits generalizing n with
  | nil => simp [ofBits]
  | cons bit bits ih =>
    rw [ofBits, List.foldl_cons, List.foldl_cons, ih, ih, List.length_cons, pow_succ]
    ring

theorem ofBits_append (bits bits' : List Bool) :
    ofBits (bits ++ bits') = ofBits bits * 2 ^ bits'.length + ofBits bits' := by
  rw [ofBits, List.foldl_append, foldl_bits]
  rfl

theorem ofBits_toBits (w n : ℕ) : ofBits (toBits w n) = n % 2 ^ w := by
  induction w with
  | zero => rw [pow_zero, Nat.mod_one]; rfl
  | succ w ih =>
    have hsplit : toBits (w + 1) n = [n.testBit w] ++ toBits w n := rfl
    rw [hsplit, ofBits_append, ih, length_toBits, Nat.mod_pow_succ, Nat.testBit_eq_decide_div_mod_eq]
    have hbit : n / 2 ^ w % 2 < 2 := Nat.mod_lt _ (by decide)
    have hone : ofBits [decide (n / 2 ^ w % 2 = 1)] = n / 2 ^ w % 2 := by
      rcases Nat.lt_succ_iff_lt_or_eq.mp hbit with hlt | heq
      · rw [Nat.lt_one_iff.mp hlt]
        rfl
      · rw [heq]
        rfl
    rw [hone]
    ring

/-! ### Bytes -/

/-- The bits of a byte string. -/
def ofBytes (bytes : List UInt8) : List Bool := bytes.flatMap fun b => toBits 8 b.toNat

theorem ofBytes_cons (b : UInt8) (bytes : List UInt8) :
    ofBytes (b :: bytes) = toBits 8 b.toNat ++ ofBytes bytes := rfl

theorem ofBytes_append (bytes bytes' : List UInt8) :
    ofBytes (bytes ++ bytes') = ofBytes bytes ++ ofBytes bytes' :=
  List.flatMap_append

@[simp] theorem length_ofBytes (bytes : List UInt8) : (ofBytes bytes).length = 8 * bytes.length := by
  induction bytes with
  | nil => rfl
  | cons b bytes ih =>
    rw [ofBytes_cons, List.length_append, ih, length_toBits, List.length_cons]
    ring

theorem ofBytes_replicate_zero (k : ℕ) :
    ofBytes (List.replicate k 0) = List.replicate (8 * k) false := by
  induction k with
  | zero => rfl
  | succ k ih =>
    rw [List.replicate_succ, ofBytes_cons, ih, Nat.mul_succ, Nat.add_comm, List.replicate_add]
    rfl

/-- A byte string is told by its bits. -/
theorem ofBytes_injective : Function.Injective ofBytes := by
  intro bytes bytes' h
  induction bytes generalizing bytes' with
  | nil =>
    have hlen := congrArg List.length h
    rw [length_ofBytes, length_ofBytes, List.length_nil] at hlen
    exact (List.length_eq_zero_iff.mp (by omega)).symm
  | cons b bytes ih =>
    cases bytes' with
    | nil =>
      have hlen := congrArg List.length h
      rw [length_ofBytes, length_ofBytes, List.length_nil, List.length_cons] at hlen
      omega
    | cons b' bytes' =>
      rw [ofBytes_cons, ofBytes_cons] at h
      obtain ⟨hbits, hrest⟩ := List.append_inj h (by rw [length_toBits, length_toBits])
      have hbyte := congrArg ofBits hbits
      rw [ofBits_toBits, ofBits_toBits, Nat.mod_eq_of_lt b.toNat_lt, Nat.mod_eq_of_lt b'.toNat_lt]
        at hbyte
      rw [UInt8.toNat_inj.mp hbyte, ih hrest]

/-! ### Pieces -/

variable {α : Type*}

/-- The whole pieces of `w` elements of a list. -/
def pieces (w : ℕ) (l : List α) : List (List α) :=
  (List.range (l.length / w)).map fun i => (l.drop (i * w)).take w

theorem pieces_of_lt {w : ℕ} {l : List α} (h : l.length < w) : pieces w l = [] := by
  rw [pieces, Nat.div_eq_of_lt h]
  rfl

/-- The first piece, and those of the rest. -/
theorem pieces_piece {w : ℕ} {piece : List α} (hw : 0 < w) (h : piece.length = w) (l : List α) :
    pieces w (piece ++ l) = piece :: pieces w l := by
  subst h
  have hcount : (piece ++ l).length / piece.length = l.length / piece.length + 1 := by
    rw [List.length_append, Nat.add_comm, Nat.add_div_right _ hw]
  rw [pieces, hcount, List.range_succ_eq_map, List.map_cons, List.map_map, pieces, Nat.zero_mul,
    List.drop_zero, List.take_left]
  refine congrArg _ (List.map_congr_left fun i _ => ?_)
  show ((piece ++ l).drop ((i + 1) * piece.length)).take piece.length = _
  rw [Nat.succ_mul, Nat.add_comm, ← List.drop_drop, List.drop_left]

/-- A list of a multiple of `w` elements is cut up whole. -/
theorem pieces_append {w : ℕ} (hw : 0 < w) {l : List α} (hl : w ∣ l.length) (l' : List α) :
    pieces w (l ++ l') = pieces w l ++ pieces w l' := by
  obtain ⟨k, hk⟩ := hl
  induction k generalizing l with
  | zero =>
    rw [Nat.mul_zero] at hk
    have hnil : pieces w ([] : List α) = [] := pieces_of_lt hw
    rw [List.length_eq_zero_iff.mp hk, hnil]
    rfl
  | succ k ih =>
    have hlen : (l.take w).length = w := by
      rw [List.length_take, hk, Nat.mul_succ]
      omega
    have hrest : (l.drop w).length = w * k := by
      rw [List.length_drop, hk, Nat.mul_succ]
      omega
    rw [← List.take_append_drop w l, List.append_assoc, pieces_piece hw hlen, pieces_piece hw hlen,
      ih hrest, List.cons_append]

/-- The pieces of the bits are the bits of the pieces. -/
theorem pieces_ofBytes {w : ℕ} (hw : 0 < w) (bytes : List UInt8) :
    pieces (8 * w) (ofBytes bytes) = (pieces w bytes).map ofBytes := by
  have hpos : 0 < 8 * w := by omega
  obtain ⟨k, hk⟩ : ∃ k, bytes.length / w = k := ⟨_, rfl⟩
  induction k generalizing bytes with
  | zero =>
    have hlt : bytes.length < w := (Nat.div_eq_zero_iff_lt hw).mp hk
    rw [pieces_of_lt hlt, pieces_of_lt (by rw [length_ofBytes]; omega)]
    rfl
  | succ k ih =>
    have hle : w ≤ bytes.length := by
      by_contra hlt
      rw [Nat.div_eq_of_lt (Nat.not_le.mp hlt)] at hk
      cases hk
    have hlen : (bytes.take w).length = w := List.length_take_of_le hle
    have hrest : (bytes.drop w).length / w = k := by
      have hdrop := Nat.sub_mul_div bytes.length w 1
      rw [Nat.mul_one, hk] at hdrop
      rwa [List.length_drop]
    have hsplit : bytes = bytes.take w ++ bytes.drop w := (List.take_append_drop w bytes).symm
    rw [hsplit, ofBytes_append, pieces_piece hpos (by rw [length_ofBytes, hlen]),
      pieces_piece hw hlen, List.map_cons, ih _ hrest]

end BitString

end Mimo26

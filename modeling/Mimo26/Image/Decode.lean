import Mimo26.Image.BitBuffer
import Mimo26.Image.Huffman

/-!
# Symbols

A symbol by the table of ten bits, or by the walk over the bits, is the symbol that the bit-serial
decoder reads.

## Main results

* `find_symbol` — the symbol of a code
* `decodeFrom_agrees`, `fast_agrees` — the walk and the table
* `decode_agrees` — a symbol of a code
-/

namespace Mimo26

namespace Image

open PrefixCode
open Rfc1951 (padded pad)

variable {data : List UInt8} {outLen : ℕ} {s : Inflater} {t : Rfc1951.State}
  {h : Huffman} {lengths : List ℕ}

/-- The symbol that the bit-serial decoder finds for a code of length `l`. -/
def symbolOf (lengths : List ℕ) (l code : ℕ) : Option ℕ :=
  (List.range lengths.length).find? fun s =>
    lengths[s]? = some l ∧ PrefixCode.code lengths l s = code

theorem symbolOf_eq {l s : ℕ} (hs : lengths[s]? = some l) :
    symbolOf lengths l (code lengths l s) = some s := by
  have hlt : s < lengths.length := (List.getElem?_eq_some_iff.mp hs).1
  rw [symbolOf]
  cases hfind : (List.range lengths.length).find? fun x =>
      lengths[x]? = some l ∧ code lengths l x = code lengths l s with
  | none =>
    have hno := List.find?_eq_none.mp hfind s (List.mem_range.mpr hlt)
    exact absurd (decide_eq_true ⟨hs, rfl⟩) hno
  | some x =>
    obtain ⟨hx, hcode⟩ : lengths[x]? = some l ∧ code lengths l x = code lengths l s := by
      simpa using List.find?_some hfind
    exact congrArg some (occ_inj hx hs (Nat.add_left_cancel hcode))

theorem symbolOf_eq_none {l c : ℕ} (hl : l ≠ 0) (hc : used (lengthCount lengths) l ≤ c) :
    symbolOf lengths l c = none := by
  refine List.find?_eq_none.mpr fun s _ hs => ?_
  obtain ⟨hs, hcode⟩ := of_decide_eq_true hs
  have hlt := occ_lt hs
  have hcount : lengthCount lengths l = lengths.count l := if_neg hl
  rw [used, hcount] at hc
  rw [code] at hcode
  omega

/-- A bit of the walk. -/
theorem symbolFrom_succ (n l c : ℕ) :
    Rfc1951.symbolFrom (pad data) lengths (n + 1) l c t =
      match symbolOf lengths l (2 * c + (padded data t.p).toNat) with
      | some s => some (s, { t with p := t.p + 1 })
      | none => Rfc1951.symbolFrom (pad data) lengths n (l + 1)
          (2 * c + (padded data t.p).toNat) { t with p := t.p + 1 } := by
  show (match symbolOf lengths l (2 * c + (padded data t.p).toNat) with
    | some s => (pure s : Rfc1951.Decoder ℕ)
    | none => Rfc1951.symbolFrom (pad data) lengths n (l + 1) _) { t with p := t.p + 1 } = _
  cases symbolOf lengths l (2 * c + (padded data t.p).toNat) <;> rfl

/-- **The walk over the bits**, from length `l` on. -/
theorem decodeFrom_agrees (ht : h.Tables lengths) {k : ℕ} (n l c : ℕ) (hl : 1 ≤ l)
    (hn : l + n = 16) (hfirst : first (lengthCount lengths) l ≤ 2 * c)
    (hinv : Inv data outLen s t) (hk : n + k ≤ s.bitcnt) :
    Agrees data outLen Never k (Reads t.out)
      (h.decodeFrom n l (2 * c) (first (lengthCount lengths) l)
        (PrefixCode.index (lengthCount lengths) l) s)
      (Rfc1951.symbolFrom (pad data) lengths n l c t) := by
  induction n generalizing l c s t with
  | zero => exact .fails rfl hinv.length_out fun b t' hb => absurd hb (by
      show ¬ none = some (b, t')
      nofun)
  | succ n ih =>
    obtain ⟨s₁, hrun, hinv₁, hcnt⟩ := bit_spec hinv (show 1 ≤ s.bitcnt by omega)
    have hbit := Bool.toNat_le (padded data t.p)
    generalize hb : (padded data t.p).toNat = b at hrun hbit
    have hcode : 2 * c ||| b = 2 * c + b := by
      have hor := Nat.shiftLeft_add_eq_or_of_lt (show b < 2 ^ 1 by omega) c
      rw [Nat.shiftLeft_eq, pow_one, Nat.mul_comm] at hor
      exact hor.symm
    have hcount : index h.count l s₁ = .ok (lengthCount lengths l) s₁ := by
      rw [index, ht.count, Huffman.getElem?_counts (by omega)]
      rfl
    have hstep : h.decodeFrom (n + 1) l (2 * c) (first (lengthCount lengths) l)
        (PrefixCode.index (lengthCount lengths) l) s =
          (if (((2 * c + b : ℕ) : ℤ) - lengthCount lengths l < first (lengthCount lengths) l) then
            (match if 0 ≤ (PrefixCode.index (lengthCount lengths) l + (2 * c + b : ℕ) -
                first (lengthCount lengths) l : ℤ) then h.symbols[(PrefixCode.index
                  (lengthCount lengths) l + (2 * c + b : ℕ) -
                    first (lengthCount lengths) l : ℤ).toNat]? else none with
            | some s => pure s
            | none => bail "PNG image data: invalid Huffman code")
          else h.decodeFrom n (l + 1) ((2 * c + b) <<< 1)
            ((first (lengthCount lengths) l + lengthCount lengths l) <<< 1)
            (PrefixCode.index (lengthCount lengths) l + lengthCount lengths l)) s₁ := by
      refine (run_bind hrun).trans ((run_bind hcount).trans ?_)
      dsimp only
      rw [hcode] <;> rfl
    rw [hstep, symbolFrom_succ, hb]
    by_cases hused : used (lengthCount lengths) l ≤ 2 * c + b
    · have hnext := ih (l + 1) (2 * c + b) (by omega) (by omega) (by rw [first_succ]; omega) hinv₁
        (by omega)
      rw [symbolOf_eq_none (by omega) hused, if_neg (by rw [used] at hused; omega),
        Nat.shiftLeft_eq, Nat.shiftLeft_eq, pow_one, Nat.mul_comm, Nat.mul_comm (_ + _)]
      exact hnext
    · have hcountL : lengthCount lengths l = lengths.count l := if_neg (by omega)
      rw [used] at hused
      obtain ⟨sym, hsym, hocc⟩ := exists_occ
        (show 2 * c + b - first (lengthCount lengths) l < lengths.count l by omega)
      have hsymcode : 2 * c + b = code lengths l sym := by
        rw [code, hocc]
        omega
      have hrank : (PrefixCode.index (lengthCount lengths) l + (2 * c + b : ℕ) -
          first (lengthCount lengths) l : ℤ) = rank lengths l sym := by
        rw [rank, hocc]
        omega
      rw [if_pos (by omega), hrank, if_pos (by omega), Int.toNat_natCast,
        ht.symbol sym l (by omega) hsym, hsymcode, symbolOf_eq hsym]
      exact .ok rfl rfl ⟨rfl, rfl⟩ hinv₁ (by omega)

/-- The symbol of the code that a stream begins with. -/
theorem symbolFrom_assigned {l sym : ℕ} (hl : 1 ≤ l) (hsym : lengths[sym]? = some l)
    (hcode : code lengths l sym = value (fun i => padded data (t.p + i)) l) (n m : ℕ)
    (hm : m < l) (hn : l ≤ m + n) :
    Rfc1951.symbolFrom (pad data) lengths n (m + 1) (value (fun i => padded data (t.p + i)) m)
      { t with p := t.p + m } = some (sym, { t with p := t.p + l }) := by
  have hassigned : Assigned (lengthCount lengths) (fun i => padded data (t.p + i)) l :=
    (assigned_iff (by omega)).mpr ⟨sym, hsym, hcode⟩
  induction n generalizing m with
  | zero => exact absurd hn (by omega)
  | succ n ih =>
    rw [symbolFrom_succ]
    show (match symbolOf lengths (m + 1) (value (fun i => padded data (t.p + i)) (m + 1)) with
      | some s => some (s, { t with p := t.p + (m + 1) })
      | none => Rfc1951.symbolFrom (pad data) lengths n (m + 1 + 1)
          (value (fun i => padded data (t.p + i)) (m + 1)) { t with p := t.p + (m + 1) }) = _
    rcases Nat.lt_or_ge (m + 1) l with hlt | hge
    · -- a shorter beginning is no code
      have hnot (m : ℕ) (hm : m < l) :
          ¬ Assigned (lengthCount lengths) (fun i => padded data (t.p + i)) m := fun h =>
        hm.ne (h.unique hassigned)
      have hfirst := first_le_value fun m' hm' => hnot m' (hm'.trans hlt)
      have hused := Nat.le_of_not_lt fun h => hnot (m + 1) hlt ⟨hfirst, h⟩
      rw [symbolOf_eq_none (Nat.succ_ne_zero m) hused]
      exact ih (m + 1) hlt (by omega)
    · obtain rfl : l = m + 1 := by omega
      rw [← hcode, symbolOf_eq hsym]

/-- **A symbol of a code.** -/
theorem decode_agrees (ht : h.Tables lengths) {k : ℕ} (hinv : Inv data outLen s t)
    (hk : 15 + k ≤ s.bitcnt) :
    Agrees data outLen Never k (Reads t.out) (h.decode s)
      (Rfc1951.symbol (pad data) lengths t) := by
  have hmask : s.bitbuf &&& (2 ^ fastBits - 1) = s.bitbuf % 2 ^ fastBits :=
    Nat.and_two_pow_sub_one_eq_mod _ _
  have hlt : s.bitbuf % 2 ^ fastBits < h.fast.length := by
    rw [ht.fast]
    exact Nat.mod_lt _ (Nat.two_pow_pos _)
  obtain ⟨e, he⟩ : ∃ e, h.fast[s.bitbuf % 2 ^ fastBits]? = some e :=
    ⟨_, List.getElem?_eq_getElem hlt⟩
  have hindex : index h.fast (s.bitbuf &&& (2 ^ fastBits - 1)) s = .ok e s := by
    rw [index, hmask, he]
    rfl
  have hstep : h.decode s = (if e ≠ 0 then do
      consume (e &&& 15)
      pure (e >>> 4)
    else h.decodeSlow) s := run_bind hindex
  rw [hstep]
  by_cases hzero : e = 0
  · rw [if_neg (not_not.mpr hzero)]
    exact decodeFrom_agrees ht 15 1 0 (Nat.le_refl 1) rfl (Nat.le_refl 0) hinv hk
  · rw [if_pos hzero]
    obtain ⟨l, sym, hl, hl10, hsym, hcode, heq⟩ := ht.entry _ e he hzero
    have hlen : e &&& 15 = l := by
      rw [show 15 = 2 ^ 4 - 1 from rfl, Nat.and_two_pow_sub_one_eq_mod, heq]
      omega
    have hval : e >>> 4 = sym := by
      rw [Nat.shiftRight_eq_div_pow, heq]
      omega
    have hstream : code lengths l sym = value (fun i => padded data (t.p + i)) l := by
      refine hcode.trans (value_congr _ fun i hi => ?_)
      rw [Nat.testBit_mod_two_pow, decide_eq_true (show i < fastBits from hi.trans_le hl10),
        Bool.true_and, hinv.bits i (by omega)]
    obtain ⟨hrun, hnext⟩ := consume_spec hinv (show l ≤ s.bitcnt by omega)
    rw [hlen, hval]
    refine .ok (run_bind hrun) (symbolFrom_assigned hl hsym hstream 15 0 hl (by omega))
      ⟨rfl, rfl⟩ hnext ?_
    dsimp only
    omega

end Image

end Mimo26

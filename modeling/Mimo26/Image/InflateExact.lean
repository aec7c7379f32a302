import Mathlib.Tactic.IntervalCases
import Mimo26.Image.CopyMatch
import Mimo26.Image.Decode

/-!
# Inflate is RFC 1951

Each step of the decoder agrees with the bit-serial decoder of the padded input, and a decoder that
has used bits past the end of the input fails in the end.

## Main results

* `stored_agrees`, `codes_agrees`, `dynamicTables_agrees`, `block_agrees` — the parts of a stream
* `inflate_exact` — the decoder of a stream
-/

namespace Mimo26

namespace Image

open Rfc1951 (padded pad)

variable {data : List UInt8} {outLen : ℕ} {s : Inflater} {t : Rfc1951.State}

/-! ### Stored blocks -/

/-- The next whole byte, unless bits past the end of the input have been used. -/
theorem handBack_spec (h : Inv data outLen s t) :
    ∃ s', handBack s = .ok () s' ∧ s'.bitbuf = 0 ∧ s'.bitcnt = 0 ∧ s'.out = t.out ∧
      ((t.p + 7) / 8 * 8 = 8 * s'.pos ∧ s'.pos ≤ data.length ∧ s'.virt = 0 ∨
        0 < s'.virt ∧ 8 * data.length < (t.p + 7) / 8 * 8) := by
  obtain ⟨hrun, hinv⟩ := consume_spec h (show s.bitcnt &&& 7 ≤ s.bitcnt from Nat.and_le_left)
  have hmask : s.bitcnt &&& 7 = s.bitcnt % 8 := Nat.and_two_pow_sub_one_eq_mod _ 3
  have hload := h.loaded
  have hpos := h.pos
  have hvirt := h.virt
  rw [handBack, run_bind (run_get _), run_bind hrun, run_bind (run_get _)]
  dsimp only
  rw [hmask, if_neg (by omega)]
  refine ⟨_, rfl, rfl, rfl, h.out, ?_⟩
  dsimp only
  rcases Nat.lt_or_ge ((s.bitcnt - s.bitcnt % 8) / 8) s.virt with hlt | hle
  · have hend := hvirt (by omega)
    exact .inr ⟨by omega, by omega⟩
  · refine .inl ⟨by omega, by omega, by omega⟩

/-- The bytes of a stored block, as far as bytes are missing. -/
theorem storedBytes_eq (data : List UInt8) (outLen n : ℕ) (t : Rfc1951.State) :
    ∃ bytes, Rfc1951.storedBytes (pad data) outLen n t =
        some ((), ⟨t.p + 8 * min n (outLen - t.out.length), t.out ++ bytes⟩) ∧
      ∀ pos, t.p = 8 * pos → pos + min n (outLen - t.out.length) ≤ data.length →
        bytes = (data.drop pos).take (min n (outLen - t.out.length)) := by
  induction n generalizing t with
  | zero =>
    refine ⟨[], ?_, fun pos _ _ => by rw [Nat.zero_min, List.take_zero]⟩
    rw [Nat.zero_min, List.append_nil]
    rfl
  | succ n ih =>
    have hstep : Rfc1951.storedBytes (pad data) outLen (n + 1) t =
        (if outLen ≤ t.out.length then pure () else do
          let b ← Rfc1951.bits (pad data) 8
          Rfc1951.emit outLen (UInt8.ofNat b)
          Rfc1951.storedBytes (pad data) outLen n : Rfc1951.Decoder Unit) t := rfl
    rw [hstep]
    by_cases hfull : outLen ≤ t.out.length
    · rw [if_pos hfull, show outLen - t.out.length = 0 by omega, Nat.min_zero]
      exact ⟨[], by rw [List.append_nil]; rfl, fun pos _ _ => by rw [List.take_zero]⟩
    · obtain ⟨v, hv⟩ := Rfc1951.exists_bits data 8 t
      obtain ⟨bytes, hrun, hbytes⟩ := ih ⟨t.p + 8, t.out ++ [UInt8.ofNat v]⟩
      have hmin : min (n + 1) (outLen - t.out.length) =
          min n (outLen - (t.out ++ [UInt8.ofNat v]).length) + 1 := by
        rw [List.length_append, List.length_singleton]
        omega
      have hemit : Rfc1951.emit outLen (UInt8.ofNat v) { t with p := t.p + 8 } =
          some ((), ⟨t.p + 8, t.out ++ [UInt8.ofNat v]⟩) := by
        show (if t.out.length < outLen then _ else _ : Rfc1951.Decoder Unit) _ = _
        rw [if_pos (by omega)]
        rfl
      rw [if_neg hfull, Rfc1951.bind_of_eq_some hv, Rfc1951.bind_of_eq_some hemit, hrun, hmin]
      refine ⟨UInt8.ofNat v :: bytes, ?_, fun pos hpos hfits => ?_⟩
      · dsimp only
        rw [List.append_assoc, List.singleton_append, Nat.mul_succ, Nat.add_assoc,
          Nat.add_comm 8]
      · have hlt : pos < data.length := by omega
        have hbyte := Rfc1951.exists_bits data 8 t
        have hbits : Rfc1951.bits (pad data) 8 t =
            some (data[pos].toNat % 2 ^ 8, { t with p := t.p + 8 }) :=
          bits_pad fun i hi => by rw [hpos, padded_byte (List.getElem?_eq_getElem hlt) hi]
        obtain ⟨rfl, -⟩ := Prod.mk.inj (Option.some.inj (hv.symm.trans hbits))
        rw [List.drop_eq_getElem_cons hlt, List.take_succ_cons,
          hbytes (pos + 1) (by dsimp only; omega) (by dsimp only; omega),
          Nat.mod_eq_of_lt data[pos].toNat_lt, UInt8.ofNat_toNat]

theorem storedBytes_agrees {pos len : ℕ} (hp : t.p = 8 * pos) (hpos : pos ≤ data.length)
    (hlen : t.out.length ≤ outLen) (hout : s.out = t.out) (hbuf : s.bitbuf = 0)
    (hcnt : s.bitcnt = 0) (hvirt : s.virt = 0) :
    Agrees data outLen (Past data) 0 (fun _ _ _ => True) (storedBytes data outLen pos len s)
      (Rfc1951.storedBytes (pad data) outLen len t) := by
  obtain ⟨bytes, hspec, hbytes⟩ := storedBytes_eq data outLen len t
  rw [storedBytes, run_bind (run_get _)]
  dsimp only
  rw [hout, if_neg (by omega), run_bind (run_set _ _), List.length_append, List.length_take,
    List.length_drop]
  have hinv {p : ℕ} (hle : p ≤ data.length) (out : List UInt8) (hout : out.length ≤ outLen) :
      Inv data outLen { s with pos := p, out := out } ⟨8 * p, out⟩ := by
    constructor
    · intro i hi
      exact absurd hi (by dsimp only; omega)
    · intro i hi
      rw [hbuf, Nat.zero_testBit] at hi
      exact Bool.noConfusion hi
    · dsimp only
      omega
    · exact hle
    · intro hpos
      exact absurd hpos (by dsimp only; omega)
    · dsimp only
      omega
    · rfl
    · exact hout
  have hp' (m : ℕ) : t.p + 8 * m = 8 * (pos + m) := by omega
  rw [hp'] at hspec
  by_cases hfits : pos + min len (outLen - t.out.length) ≤ data.length
  · have htake : min (min len (outLen - t.out.length)) (data.length - pos) =
        min len (outLen - t.out.length) := by omega
    have hsize : (t.out ++ bytes).length ≤ outLen := by
      rw [hbytes pos hp hfits, List.length_append, List.length_take, List.length_drop]
      omega
    rw [htake, htake, ← hbytes pos hp hfits]
    by_cases hfull : outLen ≤ t.out.length + min len (outLen - t.out.length)
    · rw [if_pos hfull]
      exact .ok rfl hspec trivial (hinv hfits _ hsize) (Nat.zero_le _)
    · rw [if_neg hfull, if_neg (by omega)]
      rw [show min len (outLen - t.out.length) = len by omega] at hspec hfits
      exact .ok rfl hspec trivial (hinv hfits _ hsize) (Nat.zero_le _)
  · rw [if_neg (by omega), if_pos (by omega)]
    refine .fails rfl ?_ fun b t' hb => ?_
    · dsimp only
      rw [List.length_append, List.length_take, List.length_drop]
      omega
    · obtain ⟨-, rfl⟩ := Prod.mk.inj (Option.some.inj (hspec.symm.trans hb))
      show 8 * data.length < 8 * _
      omega

theorem leWord_lt (xs : List UInt8) : leWord xs < 2 ^ (8 * xs.length) := by
  refine Nat.lt_pow_two_of_testBit _ fun i hi => ?_
  rw [testBit_leWord, padded_of_le hi]

/-- A number of whole bytes. -/
theorem bits_bytes {pos n : ℕ} (hp : t.p = 8 * pos) :
    Rfc1951.bits (pad data) (8 * n) t =
      some (leWord ((data.drop pos).take n), { t with p := 8 * (pos + n) }) := by
  have hlt : leWord ((data.drop pos).take n) < 2 ^ (8 * n) :=
    (leWord_lt _).trans_le (Nat.pow_le_pow_right (by omega) (by simp))
  rw [bits_pad fun i hi => by rw [hp, testBit_leWord_slice hi], Nat.mod_eq_of_lt hlt, hp, Nat.mul_add]

/-- **A stored block.** -/
theorem stored_agrees (h : Inv data outLen s t) :
    Agrees data outLen (Past data) 0 (fun _ _ _ => True) (stored data outLen s)
      (Rfc1951.stored (pad data) outLen t) := by
  obtain ⟨s', hrun, hbuf, hcnt, hout, hcases⟩ := handBack_spec h
  have hlen := h.length
  rw [Rfc1951.stored, Rfc1951.modify_bind, stored, run_bind hrun, run_bind (run_get _)]
  -- what the bit-serial decoder reads from the next byte on
  have hmono {t₁ : Rfc1951.State} {b : Unit} {t' : Rfc1951.State} (hb : (do
      let len ← Rfc1951.bits (pad data) 16
      let nlen ← Rfc1951.bits (pad data) 16
      if len + nlen = 2 ^ 16 - 1 then Rfc1951.storedBytes (pad data) outLen len
        else failure : Rfc1951.Decoder Unit) t₁ = some (b, t')) : t₁.p + 32 ≤ t'.p := by
    obtain ⟨len, hbits⟩ := Rfc1951.exists_bits data 16 t₁
    obtain ⟨nlen, hbits'⟩ := Rfc1951.exists_bits data 16 { t₁ with p := t₁.p + 16 }
    rw [Rfc1951.bind_of_eq_some hbits, Rfc1951.bind_of_eq_some hbits'] at hb
    exact (Rfc1951.Bounded.ite (Rfc1951.bounded_storedBytes len) .failure).mono hb
  rcases hcases with ⟨hp, hpos, hvirt⟩ | ⟨hvirt, hpast⟩
  · rw [hp, if_neg (by omega), chunk?]
    by_cases hfits : s'.pos + 4 ≤ data.length
    · rw [if_pos hfits]
      dsimp only
      have hlo : ((data.drop s'.pos).take 4).take 2 = (data.drop s'.pos).take 2 := List.take_take
      have hhi : ((data.drop s'.pos).take 4).drop 2 = (data.drop (s'.pos + 2)).take 2 := by
        rw [List.drop_take, List.drop_drop]
      have hbits : Rfc1951.bits (pad data) 16 { t with p := 8 * s'.pos } = _ := bits_bytes rfl (n := 2)
      have hbits' : Rfc1951.bits (pad data) 16 { t with p := 8 * (s'.pos + 2) } = _ :=
        bits_bytes rfl (n := 2)
      have hlt := leWord_lt ((data.drop s'.pos).take 2)
      have hlt' := leWord_lt ((data.drop (s'.pos + 2)).take 2)
      rw [hlo, hhi, Rfc1951.bind_of_eq_some hbits, Rfc1951.bind_of_eq_some hbits']
      rw [List.length_take, List.length_drop] at hlt hlt'
      rw [show min 2 (data.length - s'.pos) = 2 by omega] at hlt
      rw [show min 2 (data.length - (s'.pos + 2)) = 2 by omega] at hlt'
      by_cases hnlen : leWord ((data.drop s'.pos).take 2) =
          2 ^ 16 - 1 - leWord ((data.drop (s'.pos + 2)).take 2)
      · rw [if_neg (not_not.mpr hnlen), if_pos (by omega)]
        exact storedBytes_agrees rfl hfits hlen hout hbuf hcnt hvirt
      · rw [if_pos hnlen, if_neg (by omega)]
        exact .fails rfl (hout ▸ hlen) fun b t' hb => by cases (show none = some (b, t') from hb)
    · rw [if_neg hfits]
      refine .fails rfl (hout ▸ hlen) fun b t' hb => ?_
      have hle := hmono hb
      show 8 * data.length < t'.p
      dsimp only at hle
      omega
  · rw [if_pos hvirt]
    refine .fails rfl (hout ▸ hlen) fun b t' hb => ?_
    have hle := hmono hb
    show 8 * data.length < t'.p
    dsimp only at hle
    omega

/-! ### Literals and matches -/

/-- The tables of the two decoders. -/
theorem lengthTable_spec {i : ℕ} (h : i < 29) :
    ∃ base extra, lenBase[i]? = some base ∧ lenExtra[i]? = some extra ∧
      Rfc1951.lengthTable[i]? = some (base, extra) ∧ extra ≤ 5 ∧ 1 ≤ base := by
  interval_cases i <;> exact ⟨_, _, rfl, rfl, rfl, by decide, by decide⟩

theorem distanceTable_spec {i : ℕ} (h : i < 30) :
    ∃ base extra, distBase[i]? = some base ∧ distExtra[i]? = some extra ∧
      Rfc1951.distanceTable[i]? = some (base, extra) ∧ extra ≤ 13 ∧ 1 ≤ base := by
  interval_cases i <;> exact ⟨_, _, rfl, rfl, rfl, by decide, by decide⟩

theorem run_index {σ α : Type} {xs : List α} {i : ℕ} {x : α} (h : xs[i]? = some x) (s : σ) :
    index xs i s = .ok x s := by
  rw [index, h]
  rfl

theorem run_tableNumber {table : List (ℕ × ℕ)} {i base extra : ℕ} (h : table[i]? = some (base, extra)) :
    Rfc1951.tableNumber (pad data) table i =
      (do let v ← Rfc1951.bits (pad data) extra; pure (base + v)) := by
  rw [Rfc1951.tableNumber, h]

/-- **A match** adds to an output that is not full. -/
theorem codesMatch_agrees {dist : Huffman} {distLengths : List ℕ} (hdist : dist.Tables distLengths)
    (h : Inv data outLen s t) (hcnt : 33 ≤ s.bitcnt) (sym : ℕ) :
    Agrees data outLen Never 0
      (fun _ _ t' => t.out.length < outLen → t.out.length < t'.out.length)
      (codesMatch outLen dist sym s) (Rfc1951.codesMatch (pad data) outLen distLengths sym t) := by
  rw [codesMatch, Rfc1951.codesMatch]
  dsimp only
  generalize sym - 257 = li
  by_cases hli : 29 ≤ li
  · rw [if_pos hli]
    refine .fails rfl h.length_out fun b t' hb => ?_
    have hnone : Rfc1951.lengthTable[li]? = none := List.getElem?_eq_none hli
    rw [Rfc1951.tableNumber, hnone] at hb
    cases (show none = some (b, t') from hb)
  · obtain ⟨base, extra, hbase, hextra, htable, hextra5, hbase1⟩ :=
      lengthTable_spec (Nat.lt_of_not_le hli)
    obtain ⟨v, s₁, hv, hvspec, h₁, hcnt₁, -⟩ := bits_spec h (show extra ≤ s.bitcnt by omega)
    rw [if_neg hli, run_bind (run_index hbase s), run_bind (run_index hextra s), run_bind hv,
      run_tableNumber htable, bind_assoc, Rfc1951.bind_of_eq_some hvspec, pure_bind]
    refine (decode_agrees hdist (k := 13) h₁ (by omega)).bind (fun dsym dsym' s₂ t₂ hR h₂ hcnt₂ => ?_)
      fun _ _ _ _ hnever _ => hnever.elim
    obtain ⟨rfl, hout₂⟩ := hR
    replace hout₂ : t₂.out = t.out := hout₂
    by_cases hdsym : 30 ≤ dsym
    · rw [if_pos hdsym]
      refine .fails rfl h₂.length_out fun b t' hb => ?_
      have hnone : Rfc1951.distanceTable[dsym]? = none := List.getElem?_eq_none hdsym
      rw [Rfc1951.tableNumber, hnone] at hb
      cases (show none = some (b, t') from hb)
    · obtain ⟨dbase, dextra, hdbase, hdextra, hdtable, hdextra13, hdbase1⟩ :=
        distanceTable_spec (Nat.lt_of_not_le hdsym)
      obtain ⟨w, s₃, hw, hwspec, h₃, hcnt₃, -⟩ := bits_spec h₂ (show dextra ≤ s₂.bitcnt by omega)
      rw [if_neg hdsym, run_bind (run_index hdbase s₂), run_bind (run_index hdextra s₂),
        run_bind hw, run_tableNumber hdtable, bind_assoc, Rfc1951.bind_of_eq_some hwspec, pure_bind,
        run_bind (run_get s₃), Rfc1951.get_bind, h₃.out]
      dsimp only
      have hlen : t₂.out.length ≤ outLen := h₂.length
      by_cases hfar : t₂.out.length < dbase + w
      · rw [if_pos hfar, if_neg (show ¬ dbase + w ≤ t₂.out.length by omega)]
        exact .fails rfl h₃.length_out fun b t' hb =>
          by cases (show none = some (b, t') from hb)
      · rw [if_neg hfar, if_neg (by omega), if_pos (by omega), copyMatch_eq (by omega) (by omega),
          copy_eq (by omega) (by dsimp only; omega)]
        refine .ok rfl rfl (fun hlt => ?_) (h₃.put ?_) (Nat.zero_le _)
        · dsimp only
          rw [length_repeated, hout₂]
          omega
        · rw [length_repeated]
          omega

/-- **The symbols of a block.** -/
theorem codes_agrees {lit dist : Huffman} {litLengths distLengths : List ℕ}
    (hlit : lit.Tables litLengths) (hdist : dist.Tables distLengths) (n fuel : ℕ)
    (h : Inv data outLen s t) (hout : t.out.length < outLen) (hn : outLen - t.out.length ≤ n)
    (hfuel : n < fuel) :
    Agrees data outLen (Past data) 0 (fun _ _ _ => True) (codes data outLen lit dist fuel s)
      (Rfc1951.codes (pad data) outLen litLengths distLengths n t) := by
  induction n generalizing fuel s t with
  | zero => exact absurd hn (by omega)
  | succ n ih =>
    obtain ⟨fuel, rfl⟩ := Nat.exists_eq_succ_of_ne_zero (show fuel ≠ 0 by omega)
    rw [codes, codesStep, bind_assoc]
    refine refill_agrees h (fun b t' hb => (Rfc1951.bounded_codes _ _ _).mono hb) fun s₁ h₁ hcnt => ?_
    rw [bind_assoc]
    refine (decode_agrees hlit (k := 41) h₁ hcnt).bind (fun sym sym' s₂ t₂ hR h₂ hcnt₂ => ?_)
      fun _ _ _ _ hnever _ => hnever.elim
    obtain ⟨rfl, hout₂⟩ := hR
    replace hout₂ : t₂.out = t.out := hout₂
    -- after the output of a symbol
    have hnext {s₃ : Inflater} {t₃ : Rfc1951.State} (h₃ : Inv data outLen s₃ t₃)
        (hlt : t.out.length < t₃.out.length) :
        Agrees data outLen (Past data) 0 (fun _ _ _ => True)
          ((if decide (outLen ≤ s₃.out.length) = true then pure ()
            else codes data outLen lit dist fuel) s₃)
          ((if outLen ≤ t₃.out.length then pure ()
            else Rfc1951.codes (pad data) outLen litLengths distLengths n : Rfc1951.Decoder Unit)
              t₃) := by
      rw [h₃.out]
      by_cases hfull : outLen ≤ t₃.out.length
      · rw [if_pos hfull, if_pos (decide_eq_true hfull)]
        exact .ok rfl rfl trivial h₃ (Nat.zero_le _)
      · rw [if_neg hfull, if_neg (by simpa using hfull)]
        exact ih fuel h₃ (by omega) (by omega) (by omega)
    by_cases hsym : sym < 256
    · have hend : sym ≠ 256 := by omega
      have hemit : Rfc1951.output (pad data) outLen distLengths sym t₂ =
          some ((), { t₂ with out := t₂.out ++ [UInt8.ofNat sym] }) := by
        rw [Rfc1951.output, if_pos hsym]
        show (if t₂.out.length < outLen then _ else _ : Rfc1951.Decoder Unit) _ = _
        rw [if_pos (by rw [hout₂]; exact hout)]
        rfl
      have hput : (t₂.out ++ [UInt8.ofNat sym]).length = t.out.length + 1 := by
        rw [hout₂, List.length_append, List.length_singleton]
      simp only [if_pos hsym, if_neg hend]
      rw [Rfc1951.bind_of_eq_some hemit, Rfc1951.get_bind, bind_assoc]
      show Agrees data outLen (Past data) 0 _ ((if decide (outLen ≤ (s₂.out ++
        [UInt8.ofNat sym]).length) = true then pure () else codes data outLen lit dist fuel)
          { s₂ with out := s₂.out ++ [UInt8.ofNat sym] }) _
      rw [h₂.out]
      exact hnext (h₂.put (by omega)) (by dsimp only; omega)
    · simp only [if_neg hsym]
      obtain hend | hend := eq_or_ne sym 256
      · simp only [if_pos hend]
        exact .ok rfl rfl trivial h₂ (Nat.zero_le _)
      · simp only [if_neg hend]
        have hmatch := codesMatch_agrees hdist h₂ (Nat.le_trans (by decide) hcnt₂) sym
        have houtput : Rfc1951.output (pad data) outLen distLengths sym =
            Rfc1951.codesMatch (pad data) outLen distLengths sym := if_neg hsym
        rw [bind_assoc, houtput]
        refine hmatch.bind (fun _ _ s₃ t₃ hgrows h₃ _ => ?_) fun _ _ _ _ hnever _ => hnever.elim
        have hlt := hgrows (by rw [hout₂]; exact hout)
        rw [hout₂] at hlt
        rw [bind_assoc, run_bind (run_get s₃), Rfc1951.get_bind, pure_bind]
        exact hnext h₃ hlt

/-! ### Dynamic tables -/

/-- What a code length symbol stands for is a length, for one place or more. -/
theorem lengthSymbol_agrees {cl : Huffman} {clLengths : List ℕ} (hcl : cl.Tables clLengths)
    {lens : List ℕ} (hlens : ∀ l ∈ lens, l ≤ 15) (h : Inv data outLen s t) (hcnt : 22 ≤ s.bitcnt) :
    Agrees data outLen Never 0
      (fun a b t' => Reads t.out a b t' ∧ a.1 ≤ 15 ∧ 1 ≤ a.2)
      (lengthSymbol cl lens lens.length s) (Rfc1951.lengthSymbol (pad data) clLengths lens t) := by
  rw [lengthSymbol, Rfc1951.lengthSymbol]
  refine (decode_agrees hcl (k := 7) h hcnt).bind (fun sym sym' s₁ t₁ hR h₁ hcnt₁ => ?_)
    fun _ _ _ _ hnever _ => hnever.elim
  obtain ⟨rfl, hout₁⟩ := hR
  -- the bits of a repeat count
  have hrepeat (value base n : ℕ) (hvalue : value ≤ 15) (hbase : 1 ≤ base) (hn : n ≤ 7) :
      Agrees data outLen Never 0 (fun a b t' => Reads t.out a b t' ∧ a.1 ≤ 15 ∧ 1 ≤ a.2)
        ((do let v ← bits n; pure (value, base + v) : Inflate (ℕ × ℕ)) s₁)
        ((do let v ← Rfc1951.bits (pad data) n; pure (value, base + v)) t₁) := by
    obtain ⟨v, s₂, hv, hvspec, h₂, -, -⟩ := bits_spec h₁ (show n ≤ s₁.bitcnt by omega)
    rw [run_bind hv, Rfc1951.bind_of_eq_some hvspec]
    exact .ok rfl rfl ⟨⟨rfl, hout₁⟩, hvalue, by dsimp only; omega⟩ h₂ (Nat.zero_le _)
  by_cases h15 : sym ≤ 15
  · rw [if_pos h15, if_pos h15]
    exact .ok rfl rfl ⟨⟨rfl, hout₁⟩, h15, Nat.le_refl 1⟩ h₁ (Nat.zero_le _)
  · rw [if_neg h15, if_neg h15]
    by_cases h16 : sym = 16
    · rw [if_pos h16, if_pos h16]
      cases hlast : lens.getLast? with
      | none =>
        have hzero : lens.length = 0 := by rw [List.getLast?_eq_none_iff.mp hlast]; rfl
        rw [if_pos hzero]
        exact .fails rfl h₁.length_out fun b t' hb =>
          absurd (show none = some (b, t') from hb) nofun
      | some value =>
        have hat : lens[lens.length - 1]? = some value := by
          rw [← List.getLast?_eq_getElem?, hlast]
        have hpos : lens.length ≠ 0 := by
          have := (List.getElem?_eq_some_iff.mp hat).1
          omega
        rw [if_neg hpos]
        beta_reduce
        rw [run_bind (run_index hat s₁)]
        exact hrepeat value 3 2 (hlens value (List.mem_of_getElem? hat)) (by omega) (by omega)
    · rw [if_neg h16, if_neg h16]
      by_cases h17 : sym = 17
      · rw [if_pos h17, if_pos h17]
        exact hrepeat 0 3 3 (by omega) (by omega) (by omega)
      · rw [if_neg h17, if_neg h17]
        exact hrepeat 0 11 7 (by omega) (by omega) (by omega)

/-- **The code lengths.** -/
theorem lengthLoop_agrees {cl : Huffman} {clLengths : List ℕ} (hcl : cl.Tables clLengths)
    {total : ℕ} (n : ℕ) {lens : List ℕ} (hn : total ≤ lens.length + n) (hle : lens.length ≤ total)
    (hlens : ∀ l ∈ lens, l ≤ 15) (h : Inv data outLen s t) :
    Agrees data outLen (Past data) 0
      (fun a b t' => Reads t.out a b t' ∧ a.length = total ∧ ∀ l ∈ a, l ≤ 15)
      (lengthLoop data cl total n lens s)
      (Rfc1951.codeLengths (pad data) clLengths total n lens t) := by
  induction n generalizing lens s t with
  | zero =>
    rw [lengthLoop, Rfc1951.codeLengths, if_neg (by omega)]
    exact .ok rfl rfl ⟨⟨rfl, rfl⟩, by omega, hlens⟩ h (Nat.zero_le _)
  | succ n ih =>
    have hmono {b : List ℕ} {t' : Rfc1951.State}
        (hb : Rfc1951.codeLengths (pad data) clLengths total (n + 1) lens t = some (b, t')) :
        t.p ≤ t'.p := (Rfc1951.bounded_codeLengths _ _ _ _).mono hb
    by_cases hlt : lens.length < total
    · rw [lengthLoop, if_pos hlt]
      refine refill_agrees h (fun b t' hb => hmono hb) fun s₁ h₁ hcnt => ?_
      rw [Rfc1951.codeLengths, if_pos hlt]
      refine (lengthSymbol_agrees hcl hlens h₁ (by omega)).bind (fun a a' s₂ t₂ hR h₂ _ => ?_)
        fun _ _ _ _ hnever _ => hnever.elim
      obtain ⟨⟨rfl, hout₂⟩, hvalue, hcount⟩ := hR
      obtain ⟨value, count⟩ := a
      dsimp only at hvalue hcount ⊢
      by_cases hfits : lens.length + count ≤ total
      · rw [if_neg (by omega), if_pos hfits, ← hout₂]
        refine ih (by rw [List.length_append, List.length_replicate]; omega)
          (by rw [List.length_append, List.length_replicate]; omega) ?_ h₂
        intro l hl
        rcases List.mem_append.mp hl with hl | hl
        · exact hlens l hl
        · rw [(List.mem_replicate.mp hl).2]
          exact hvalue
      · rw [if_pos (by omega), if_neg hfits]
        exact .fails rfl h₂.length_out fun b t' hb =>
          absurd (show none = some (b, t') from hb) nofun
    · rw [lengthLoop, Rfc1951.codeLengths, if_neg hlt, if_neg hlt]
      exact .ok rfl rfl ⟨⟨rfl, rfl⟩, by omega, hlens⟩ h (Nat.zero_le _)

/-- The lengths of the code length code. -/
theorem codeLengthLengths_agrees (slots : List ℕ) {lens : List ℕ} (hlen : lens.length = 19)
    (hlens : ∀ l ∈ lens, l ≤ 15) (h : Inv data outLen s t) :
    Agrees data outLen (Past data) 0
      (fun a b t' => Reads t.out a b t' ∧ a.length = 19 ∧ ∀ l ∈ a, l ≤ 15)
      ((slots.foldlM (fun (clLens : List ℕ) slot => do
        refill data
        let v ← bits 3
        pure (clLens.set slot v)) lens : Inflate (List ℕ)) s)
      (Rfc1951.codeLengthLengths (pad data) slots lens t) := by
  induction slots generalizing lens s t with
  | nil => exact .ok rfl rfl ⟨⟨rfl, rfl⟩, hlen, hlens⟩ h (Nat.zero_le _)
  | cons slot slots ih =>
    rw [List.foldlM_cons, bind_assoc]
    refine refill_agrees h
      (fun b t' hb => (Rfc1951.bounded_codeLengthLengths (slot :: slots) lens).mono hb)
      fun s₁ h₁ hcnt => ?_
    obtain ⟨v, s₂, hv, hvspec, h₂, -, hlt⟩ := bits_spec h₁ (show 3 ≤ s₁.bitcnt by omega)
    rw [bind_assoc, run_bind hv, pure_bind, Rfc1951.codeLengthLengths,
      Rfc1951.bind_of_eq_some hvspec]
    refine ih (by rw [List.length_set, hlen]) (fun l hl => ?_) h₂
    rcases List.mem_or_eq_of_mem_set hl with hl | rfl
    · exact hlens l hl
    · omega

theorem run_lift {σ α : Type} (a : α) (s : σ) : lift (.ok a) s = .ok a s := rfl

/-- The two tables of the code lengths. -/
theorem tables_agrees {lens : List ℕ} {nlen : ℕ} (hlen : 256 < lens.length)
    (hsmall : lens.length ≤ 2 ^ 12) (hle : ∀ l ∈ lens, l ≤ 15) {out : List UInt8}
    (hout : t.out = out) (h : Inv data outLen s t) :
    Agrees data outLen (Past data) 0
      (fun a b t' => a.1.Tables b.1 ∧ a.2.Tables b.2 ∧ t'.out = out)
      ((do
        let eob ← index lens 256
        if eob = 0 then bail "PNG image data: invalid code -- missing end-of-block"
        let lit ← lift (Huffman.new (lens.take nlen) .lens)
        let dist ← lift (Huffman.new (lens.drop nlen) .dists)
        pure (lit, dist) : Inflate (Huffman × Huffman)) s)
      ((if lens[256]? ≠ some 0 ∧ Rfc1951.Accepted false (lens.take nlen) ∧
          Rfc1951.Accepted false (lens.drop nlen) then pure (lens.take nlen, lens.drop nlen)
        else failure : Rfc1951.Decoder (List ℕ × List ℕ)) t) := by
  have heob := List.getElem?_eq_getElem hlen
  rw [run_bind (run_index heob s), heob]
  by_cases hzero : lens[256] = 0
  · rw [if_pos hzero, if_neg (by rw [hzero]; exact fun hacc => hacc.1 rfl)]
    exact .fails rfl h.length_out fun b t' hb => absurd (show none = some (b, t') from hb) nofun
  · have hsome : some lens[256] ≠ some 0 := fun heq => hzero (Option.some.inj heq)
    rw [if_neg hzero]
    beta_reduce
    have hlitLen : (lens.take nlen).length ≤ 2 ^ 12 := by
      rw [List.length_take]
      omega
    have hdistLen : (lens.drop nlen).length ≤ 2 ^ 12 := by
      rw [List.length_drop]
      omega
    rcases Huffman.new_spec hlitLen (fun l hl => hle l (List.mem_of_mem_take hl)) .lens with ⟨lit, hlit, htlit, hacc⟩ | ⟨e, hlit, hacc⟩
    · rcases Huffman.new_spec hdistLen
        (fun l hl => hle l (List.mem_of_mem_drop hl)) .dists with
        ⟨dist, hdist, htdist, hacc'⟩ | ⟨e, hdist, hacc'⟩
      · rw [hlit, hdist, if_pos ⟨hsome, hacc, hacc'⟩]
        exact .ok rfl rfl ⟨htlit, htdist, hout⟩ h (Nat.zero_le _)
      · rw [hlit, hdist, if_neg fun hall => hacc' hall.2.2]
        exact .fails rfl h.length_out fun b t' hb => absurd (show none = some (b, t') from hb) nofun
    · rw [hlit, if_neg fun hall => hacc hall.2.1]
      exact .fails rfl h.length_out fun b t' hb => absurd (show none = some (b, t') from hb) nofun

/-- **The tables of a dynamic block.** -/
theorem dynamicTables_agrees (h : Inv data outLen s t) :
    Agrees data outLen (Past data) 0
      (fun a b t' => a.1.Tables b.1 ∧ a.2.Tables b.2 ∧ t'.out = t.out)
      (dynamicTables data s) (Rfc1951.dynamicTables (pad data) t) := by
  refine refill_agrees h (fun b t' hb => Rfc1951.bounded_dynamicTables.mono hb) fun s₁ h₁ hcnt => ?_
  obtain ⟨hlit, s₂, hrun₂, hspec₂, h₂, hcnt₂, hlitLt⟩ := bits_spec h₁ (show 5 ≤ s₁.bitcnt by omega)
  obtain ⟨hdist, s₃, hrun₃, hspec₃, h₃, hcnt₃, hdistLt⟩ := bits_spec h₂ (show 5 ≤ s₂.bitcnt by omega)
  obtain ⟨hclen, s₄, hrun₄, hspec₄, h₄, hcnt₄, hclenLt⟩ := bits_spec h₃ (show 4 ≤ s₃.bitcnt by omega)
  rw [run_bind hrun₂, run_bind hrun₃, run_bind hrun₄, Rfc1951.dynamicTables,
    Rfc1951.bind_of_eq_some hspec₂, Rfc1951.bind_of_eq_some hspec₃, Rfc1951.bind_of_eq_some hspec₄]
  by_cases hmany : hlit + 257 ≤ 286 ∧ hdist + 1 ≤ 30
  · rw [if_pos hmany, if_neg (by omega)]
    refine (codeLengthLengths_agrees _ List.length_replicate (fun l hl => ?_) h₄).bind
      (fun cl cl' s₅ t₅ hR h₅ _ => ?_) fun cl t₅ c t' hpast hb => hpast.trans_le ?_
    · rw [(List.mem_replicate.mp hl).2]
      exact Nat.zero_le 15
    · obtain ⟨⟨rfl, hout₅⟩, hlen, hle⟩ := hR
      replace hout₅ : t₅.out = t.out := hout₅
      rcases Huffman.new_spec (by omega) hle .codeLengths with ⟨clTable, hnew, hcl, hacc⟩ | ⟨e, hnew, hacc⟩
      · replace hacc : Rfc1951.Accepted true cl := hacc
        rw [hnew, if_pos hacc, run_bind (run_lift _ _)]
        refine (lengthLoop_agrees hcl _ (Nat.le_add_left _ _) (Nat.zero_le _)
          (fun l hl => absurd hl List.not_mem_nil) h₅).bind
          (fun lens lens' s₆ t₆ hR h₆ _ => ?_) fun lens t₆ c t' hpast hb => hpast.trans_le ?_
        · obtain ⟨⟨rfl, hout₆⟩, hlens, hle⟩ := hR
          exact tables_agrees (by omega) (by omega) hle (hout₆.trans hout₅) h₆
        · exact (show Rfc1951.Bounded data _ _ from .ite (.pure _) .failure).mono hb
      · replace hacc : ¬ Rfc1951.Accepted true cl := hacc
        rw [hnew, if_neg hacc]
        exact .fails rfl h₅.length_out fun b t' hb => absurd (show none = some (b, t') from hb) nofun
    · exact (Rfc1951.Bounded.ite ((Rfc1951.bounded_codeLengths _ _ _ _).bind fun lens =>
        .ite (.pure _) .failure) .failure).mono hb
  · rw [if_neg hmany, if_pos (by omega)]
    exact .fails rfl h₄.length_out fun b t' hb => absurd (show none = some (b, t') from hb) nofun

/-! ### Blocks -/

/-- **A block.** -/
theorem block_agrees (h : Inv data outLen s t) (hout : t.out.length < outLen) :
    Agrees data outLen (Past data) 0 (fun a b _ => a = b) (block data outLen s)
      (Rfc1951.block (pad data) outLen t) := by
  refine refill_agrees h (fun b t' hb => Rfc1951.bounded_block.mono hb) fun s₁ h₁ hcnt => ?_
  obtain ⟨last, s₂, hrun₂, hspec₂, h₂, hcnt₂, -⟩ := bits_spec h₁ (show 1 ≤ s₁.bitcnt by omega)
  obtain ⟨kind, s₃, hrun₃, hspec₃, h₃, hcnt₃, -⟩ := bits_spec h₂ (show 2 ≤ s₂.bitcnt by omega)
  rw [run_bind hrun₂, run_bind hrun₃, Rfc1951.block, Rfc1951.bind_of_eq_some hspec₂,
    Rfc1951.bind_of_eq_some hspec₃]
  -- the end of each kind of block
  have hdone {m : Inflate Unit} {d : Rfc1951.Decoder Unit} {s : Inflater} {t : Rfc1951.State}
      (hm : Agrees data outLen (Past data) 0 (fun _ _ _ => True) (m s) (d t)) :
      Agrees data outLen (Past data) 0 (fun a b _ => a = b)
        ((do m; pure (decide (last = 1)) : Inflate Bool) s)
        ((do d; pure (decide (last = 1)) : Rfc1951.Decoder Bool) t) := by
    refine hm.bind (fun _ _ s' t' _ h' _ => .ok rfl rfl rfl h' (Nat.zero_le _)) ?_
    intro _ t₁ c t' hpast hb
    obtain ⟨-, rfl⟩ := Prod.mk.inj (Option.some.inj hb)
    exact hpast
  by_cases hstored : kind = 0
  · rw [if_pos hstored, if_pos hstored]
    exact hdone (stored_agrees h₃)
  · rw [if_neg hstored, if_neg hstored]
    by_cases hfixed : kind = 1
    · rw [if_pos hfixed, if_pos hfixed]
      obtain ⟨lit, dist, htables, hlit, hdist⟩ := fixedTables_spec
      rw [htables, run_bind (run_lift _ _), Rfc1951.get_bind]
      exact hdone (codes_agrees hlit hdist _ _ h₃ hout (Nat.le_refl _) (by dsimp only; omega))
    · rw [if_neg hfixed, if_neg hfixed]
      by_cases hdynamic : kind = 2
      · rw [if_pos hdynamic, if_pos hdynamic]
        refine (dynamicTables_agrees h₃).bind (fun a b s₄ t₄ hR h₄ _ => ?_) ?_
        · obtain ⟨hlit, hdist, hout₄⟩ := hR
          replace hout₄ : t₄.out = t.out := hout₄
          exact hdone (codes_agrees hlit hdist _ _ h₄ (by rw [hout₄]; exact hout) (Nat.le_refl _)
            (by omega))
        · intro b t₄ c t' hpast hb
          refine hpast.trans_le ?_
          exact (show Rfc1951.Bounded data _ _ from Rfc1951.Bounded.get.bind fun _ =>
            (Rfc1951.bounded_codes _ _ _).bind fun _ => .pure _).mono hb
      · rw [if_neg hdynamic, if_neg hdynamic]
        exact .fails rfl h₃.length_out fun b t' hb => absurd (show none = some (b, t') from hb) nofun

/-! ### Streams -/

/-- The blocks of a stream, from a block on. -/
structure RunExact (data : List UInt8) (outLen : ℕ) (t : Rfc1951.State)
    (r : EStateM.Result Stop Inflater Unit) : Prop where
  value : ∀ s', r = .ok () s' →
    ∃ t', Rfc1951.Blocks (pad data) outLen t t' ∧ Inv data outLen s' t' ∧ outLen ≤ t'.out.length
  failure : ∀ e s', r = .error e s' → e.IsError ∧ s'.out.length ≤ outLen ∧
    ∀ t', Rfc1951.Blocks (pad data) outLen t t' → Past data t'

/-- **The blocks of a stream.** -/
theorem run_exact (fuel : ℕ) (h : Inv data outLen s t) (hout : t.out.length < outLen)
    (hfuel : 8 * (data.length + 8) < t.p + fuel) :
    RunExact data outLen t (run data outLen fuel s) := by
  induction fuel generalizing s t with
  | zero =>
    have hload := h.loaded
    have hpos := h.pos
    have hvirt := h.virt_le
    omega
  | succ fuel ih =>
    have hblock := block_agrees h hout
    cases hrun : block data outLen s with
    | error e s₁ =>
      obtain ⟨he, hlen, hpast⟩ := hblock.failure e s₁ hrun
      have hfail : run data outLen (fuel + 1) s = .error e s₁ := by
        show EStateM.bind _ _ s = _
        rw [EStateM.bind, hrun]
      constructor
      · intro s' h'
        exact absurd (hfail.symm.trans h') nofun
      · intro e' s' h'
        obtain ⟨rfl, rfl⟩ := EStateM.Result.error.inj (hfail.symm.trans h')
        refine ⟨he, hlen, fun t' hblocks => ?_⟩
        cases hblocks with
        | done hspec _ => exact hpast _ _ hspec
        | next hspec _ hrest => exact Nat.lt_of_lt_of_le (hpast _ _ hspec) hrest.mono
    | ok last s₁ =>
      obtain ⟨last', t₁, hspec, rfl, h₁, -⟩ := hblock.value last s₁ hrun
      rw [run, run_bind hrun, run_bind (run_get s₁), h₁.out]
      by_cases hfull : outLen ≤ t₁.out.length
      · rw [if_pos hfull]
        constructor
        · intro s' h'
          obtain ⟨-, rfl⟩ := EStateM.Result.ok.inj h'
          exact ⟨t₁, .done hspec hfull, h₁, hfull⟩
        · intro e s' h'
          exact absurd h' nofun
      · rw [if_neg hfull]
        have hshort : t₁.out.length < outLen := Nat.lt_of_not_le hfull
        cases last with
        | true =>
          rw [if_pos rfl]
          constructor
          · intro s' h'
            exact absurd h' nofun
          · intro e s' h'
            obtain ⟨rfl, rfl⟩ := EStateM.Result.error.inj h'
            refine ⟨trivial, h₁.length_out, fun t' hblocks => ?_⟩
            cases hblocks with
            | done hspec' hout' =>
              obtain ⟨-, rfl⟩ := Prod.mk.inj (Option.some.inj (hspec.symm.trans hspec'))
              exact absurd hout' hfull
            | next hspec' _ _ =>
              exact absurd (Prod.mk.inj (Option.some.inj (hspec.symm.trans hspec'))).1 nofun
        | false =>
          rw [if_neg Bool.false_ne_true]
          have hrest := ih h₁ hshort (by have := Rfc1951.block_lt hspec; omega)
          constructor
          · intro s' h'
            obtain ⟨t', hblocks, hinv, hfull'⟩ := hrest.value s' h'
            exact ⟨t', .next hspec hshort hblocks, hinv, hfull'⟩
          · intro e s' h'
            obtain ⟨he, hlen, hpast⟩ := hrest.failure e s' h'
            refine ⟨he, hlen, fun t' hblocks => ?_⟩
            cases hblocks with
            | done hspec' hout' =>
              obtain ⟨-, rfl⟩ := Prod.mk.inj (Option.some.inj (hspec.symm.trans hspec'))
              exact absurd hout' hfull
            | next hspec' _ hblocks =>
              obtain ⟨-, rfl⟩ := Prod.mk.inj (Option.some.inj (hspec.symm.trans hspec'))
              exact hpast t' hblocks

theorem inv_start : Inv data outLen {} {} :=
  ⟨fun i hi => absurd hi (Nat.not_lt_zero i), fun i hi => absurd hi (by simp), rfl, Nat.zero_le _,
    fun hpos => absurd hpos (Nat.lt_irrefl 0), Nat.zero_le 8, rfl, Nat.zero_le _⟩

/-- **Inflate is RFC 1951**: it returns what the bit-serial decoder puts out from the bits of the
input, and fails with a message where that decoder does not; it never has put out more. -/
theorem inflate_exact (data : List UInt8) (outLen : ℕ) :
    (∀ out, (∃ s, inflate data outLen {} = .ok out s) ↔ Rfc1951.Inflates data outLen out) ∧
    (∀ out s, inflate data outLen {} = .ok out s → out.length = outLen) ∧
    ∀ e s, inflate data outLen {} = .error e s → e.IsError ∧ s.out.length ≤ outLen := by
  by_cases hzero : outLen = 0
  · subst hzero
    have hrun : inflate data 0 {} = .ok [] {} := by
      rw [inflate, if_neg (Nat.lt_irrefl 0)]
      beta_reduce
      rw [run_bind (run_get _)]
      dsimp only
      rw [if_neg (by omega), if_neg (by omega)]
      rfl
    refine ⟨fun out => ⟨?_, ?_⟩, fun out s h' => ?_, fun e s h' => absurd (hrun.symm.trans h') nofun⟩
    · rintro ⟨s, h'⟩
      exact .inl ⟨rfl, (EStateM.Result.ok.inj (hrun.symm.trans h')).1.symm⟩
    · rintro (⟨-, rfl⟩ | ⟨hpos, -⟩)
      · exact ⟨{}, hrun⟩
      · exact absurd hpos (Nat.lt_irrefl 0)
    · rw [← (EStateM.Result.ok.inj (hrun.symm.trans h')).1]
      rfl
  · have hpos : 0 < outLen := by omega
    have hstart : Inv data outLen {} {} := inv_start
    have hrun := run_exact (8 * (data.length + 8) + 1) hstart hpos (by dsimp only; omega)
    have hbits {t' : Rfc1951.State} : Rfc1951.Blocks (Rfc1951.sourceBit data) outLen {} t' ↔
        Rfc1951.Blocks (pad data) outLen {} t' ∧ t'.p ≤ 8 * data.length :=
      Rfc1951.blocks_iff (Nat.zero_le _)
    cases hblocks : run data outLen (8 * (data.length + 8) + 1) {} with
    | error e s =>
      obtain ⟨he, hlen, hpast⟩ := hrun.failure e s hblocks
      have hfail : inflate data outLen {} = .error e s := by
        rw [inflate, if_pos hpos]
        show EStateM.bind _ _ _ = _
        rw [EStateM.bind, hblocks]
      refine ⟨fun out => ⟨?_, ?_⟩, fun out s' h' => absurd (hfail.symm.trans h') nofun,
        fun e' s' h' => ?_⟩
      · rintro ⟨s', h'⟩
        exact absurd (hfail.symm.trans h') nofun
      · rintro (⟨rfl, -⟩ | ⟨-, p, hp⟩)
        · exact absurd hpos (Nat.lt_irrefl 0)
        · obtain ⟨hpad, hle⟩ := hbits.mp hp
          exact absurd (hpast _ hpad) (Nat.not_lt.mpr hle)
      · obtain ⟨rfl, rfl⟩ := EStateM.Result.error.inj (hfail.symm.trans h')
        exact ⟨he, hlen⟩
    | ok _ s =>
      obtain ⟨t, hpad, hinv, hfull⟩ := hrun.value s hblocks
      have hload := hinv.loaded
      have hlen : s.out.length = outLen := by
        rw [hinv.out]
        exact Nat.le_antisymm hinv.length hfull
      have hcheck : inflate data outLen {} = (if data.length * 8 < t.p then bail truncated
          else pure s.out : Inflate (List UInt8)) s := by
        rw [inflate, if_pos hpos, run_bind hblocks]
        beta_reduce
        rw [run_bind (run_get s)]
        dsimp only
        rw [if_neg (by omega), show (s.pos + s.virt) * 8 - s.bitcnt = t.p by omega]
        split <;> rfl
      rw [hcheck]
      by_cases hle : t.p ≤ 8 * data.length
      · have hreal := hbits.mpr ⟨hpad, hle⟩
        rw [if_neg (by omega)]
        refine ⟨fun out => ⟨?_, ?_⟩, fun out s' h' => ?_, fun e s' h' => absurd h' nofun⟩
        · rintro ⟨s', h'⟩
          obtain ⟨rfl, -⟩ := EStateM.Result.ok.inj h'
          rw [hinv.out]
          exact .inr ⟨hpos, t.p, hreal⟩
        · rintro (⟨rfl, -⟩ | ⟨-, p, hp⟩)
          · exact absurd hpos (Nat.lt_irrefl 0)
          · refine ⟨s, congrArg (EStateM.Result.ok · s) ?_⟩
            rw [hinv.out, hreal.unique hp]
        · obtain ⟨rfl, -⟩ := EStateM.Result.ok.inj h'
          exact hlen
      · rw [if_pos (by omega)]
        refine ⟨fun out => ⟨?_, ?_⟩, fun out s' h' => absurd h' nofun, fun e s' h' => ?_⟩
        · rintro ⟨s', h'⟩
          exact absurd h' nofun
        · rintro (⟨rfl, -⟩ | ⟨-, p, hp⟩)
          · exact absurd hpos (Nat.lt_irrefl 0)
          · obtain ⟨hpad', hle'⟩ := hbits.mp hp
            rw [hpad.unique hpad'] at hle
            exact absurd hle' hle
        · obtain ⟨rfl, rfl⟩ := EStateM.Result.error.inj h'
          exact ⟨trivial, hlen.le⟩

end Image

end Mimo26

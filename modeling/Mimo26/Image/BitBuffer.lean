import Mimo26.Image.Inflate
import Mimo26.Image.Padded

/-!
# The bit buffer

What the decoder's buffer holds of the padded input, and how a step of the decoder is compared with
one of the bit-serial decoder. Bits above `bitcnt` may be left over, but only where the input has
them.

## Main definitions

* `Inv` — the buffer holds the bits to come
* `Agrees` — the outcome of a step, against that of the bit-serial decoder
* `Never`, `Past` — what a failing step says of that decoder

## Main results

* `refill_spec` — a refill loads 56 bits, or bits past the end of the input have been used
* `bits_spec` — buffered bits are the next bits
-/

namespace Mimo26

namespace Image

open Rfc1951 (padded pad)

/-! ### Bits of the input -/

theorem padded_of_le {data : List UInt8} {p : ℕ} (h : 8 * data.length ≤ p) :
    padded data p = false := by
  rw [padded, Rfc1951.sourceBit_of_le h, Option.getD_none]

theorem padded_byte {data : List UInt8} {pos j : ℕ} {b : UInt8} (hb : data[pos]? = some b)
    (hj : j < 8) : padded data (8 * pos + j) = b.toNat.testBit j := by
  rw [padded, Rfc1951.sourceBit, show (8 * pos + j) / 8 = pos by omega,
    show (8 * pos + j) % 8 = j by omega, hb, Option.map_some, Option.getD_some]

theorem testBit_leWord (xs : List UInt8) (j : ℕ) : (leWord xs).testBit j = padded xs j := by
  induction xs generalizing j with
  | nil => rw [leWord, Nat.zero_testBit, padded_of_le (Nat.zero_le _)]
  | cons b xs ih =>
    rw [leWord, Nat.add_comm, Nat.testBit_two_pow_mul_add _ b.toNat_lt]
    split
    · next hj => rw [← padded_byte (List.getElem?_cons_zero) hj, Nat.mul_zero, Nat.zero_add]
    · next hj =>
      rw [ih, padded, padded, Rfc1951.sourceBit, Rfc1951.sourceBit,
        show j / 8 = (j - 8) / 8 + 1 by omega, show j % 8 = (j - 8) % 8 by omega,
        List.getElem?_cons_succ]

/-- A word of the input. -/
theorem testBit_leWord_slice {data : List UInt8} {pos n j : ℕ} (hj : j < 8 * n) :
    (leWord ((data.drop pos).take n)).testBit j = padded data (8 * pos + j) := by
  rw [testBit_leWord, padded, padded, Rfc1951.sourceBit, Rfc1951.sourceBit,
    List.getElem?_take_of_lt (by omega), List.getElem?_drop,
    show (8 * pos + j) / 8 = pos + j / 8 by omega, show (8 * pos + j) % 8 = j % 8 by omega]

/-! ### The buffer -/

variable {data : List UInt8} {outLen : ℕ}

/-- The buffer holds the bits from `t.p` on, and what is above them is of the input. -/
structure Inv (data : List UInt8) (outLen : ℕ) (s : Inflater) (t : Rfc1951.State) : Prop where
  bits : ∀ i < s.bitcnt, s.bitbuf.testBit i = padded data (t.p + i)
  stale : ∀ i, s.bitbuf.testBit i = true → padded data (t.p + i) = true
  loaded : t.p + s.bitcnt = 8 * (s.pos + s.virt)
  pos : s.pos ≤ data.length
  virt : 0 < s.virt → s.pos = data.length
  virt_le : s.virt ≤ 8
  out : s.out = t.out
  length : t.out.length ≤ outLen

variable {s : Inflater} {t : Rfc1951.State}

/-- Another output. -/
theorem Inv.put (h : Inv data outLen s t) {out : List UInt8} (hlen : out.length ≤ outLen) :
    Inv data outLen { s with out := out } { t with out := out } :=
  ⟨h.bits, h.stale, h.loaded, h.pos, h.virt, h.virt_le, rfl, hlen⟩

/-- Bits of the input or-ed in above the count. -/
theorem Inv.load (h : Inv data outLen s t) (word n : ℕ)
    (hword : ∀ j < n, word.testBit (s.bitcnt + j) = padded data (t.p + (s.bitcnt + j)))
    (hlow : ∀ i < s.bitcnt, word.testBit i = false)
    (hstale : ∀ j, word.testBit (s.bitcnt + j) = true →
      padded data (t.p + (s.bitcnt + j)) = true) :
    (∀ i < s.bitcnt + n, (s.bitbuf ||| word).testBit i = padded data (t.p + i)) ∧
      ∀ i, (s.bitbuf ||| word).testBit i = true → padded data (t.p + i) = true := by
  constructor
  · intro i hi
    rw [Nat.testBit_or]
    by_cases hlt : i < s.bitcnt
    · rw [h.bits i hlt, hlow i hlt, Bool.or_false]
    · obtain ⟨j, rfl⟩ := Nat.exists_eq_add_of_le (Nat.le_of_not_lt hlt)
      rw [hword j (by omega)]
      have hold := h.stale (s.bitcnt + j)
      cases hbit : s.bitbuf.testBit (s.bitcnt + j) with
      | false => rw [Bool.false_or]
      | true => rw [hold hbit, Bool.or_true]
  · intro i hi
    rw [Nat.testBit_or, Bool.or_eq_true] at hi
    rcases hi with hi | hi
    · exact h.stale i hi
    · by_cases hlt : i < s.bitcnt
      · exact absurd (hlow i hlt) (by rw [hi]; exact Bool.noConfusion)
      · obtain ⟨j, rfl⟩ := Nat.exists_eq_add_of_le (Nat.le_of_not_lt hlt)
        exact hstale j hi

/-- Byte by byte. -/
theorem refillBytes_spec (h : Inv data outLen s t) :
    (∃ s', refillBytes data s = .ok () s' ∧ Inv data outLen s' t ∧ 56 ≤ s'.bitcnt) ∨
    ∃ s', refillBytes data s = .error (.error ⟨truncated⟩) s' ∧ s'.out = t.out ∧
      8 * data.length < t.p := by
  fun_induction refillBytes data s with
  | case1 s hle b hb ih =>
    have hlt : s.pos < data.length := (List.getElem?_eq_some_iff.mp hb).1
    have hvirt : s.virt = 0 := by
      by_contra hne
      have := h.virt (by omega)
      omega
    have hload := h.loaded
    have hat (j : ℕ) : t.p + (s.bitcnt + j) = 8 * s.pos + j := by omega
    obtain ⟨hbits, hstale⟩ := h.load (b.toNat <<< s.bitcnt) 8
      (fun j hj => by
        rw [Nat.testBit_shiftLeft, decide_eq_true (by omega), Bool.true_and,
          Nat.add_sub_cancel_left, hat, padded_byte hb hj])
      (fun i hi => by rw [Nat.testBit_shiftLeft, decide_eq_false (by omega), Bool.false_and])
      (fun j hj => by
        rw [Nat.testBit_shiftLeft, Nat.add_sub_cancel_left, Bool.and_eq_true] at hj
        have hj8 : j < 8 := by
          by_contra hge
          have := Nat.testBit_lt_two_pow (b.toNat_lt.trans_le
            (Nat.pow_le_pow_right (by omega) (show 8 ≤ j by omega)))
          rw [this] at hj
          exact Bool.noConfusion hj.2
        rw [hat, padded_byte hb hj8, hj.2])
    exact ih ⟨hbits, hstale, by dsimp only; omega, hlt, fun hpos => absurd hpos (by
      dsimp only; omega), h.virt_le, h.out, h.length⟩
  | case2 s hle hb hvirt =>
    have hlen := List.getElem?_eq_none_iff.mp hb
    have hload := h.loaded
    have hpos := h.pos
    exact .inr ⟨_, rfl, h.out, by omega⟩
  | case3 s hle hb hvirt ih =>
    have hlen := List.getElem?_eq_none_iff.mp hb
    have hload := h.loaded
    have hpos := h.pos
    refine ih ⟨fun i hi => ?_, h.stale, by dsimp only; omega, h.pos, fun _ => by
      dsimp only; omega, by dsimp only; omega, h.out, h.length⟩
    by_cases hlt : i < s.bitcnt
    · exact h.bits i hlt
    · have hpad : padded data (t.p + i) = false := padded_of_le (by omega)
      rw [hpad, ← Bool.not_eq_true]
      intro hbit
      rw [h.stale i hbit] at hpad
      exact Bool.noConfusion hpad
  | case4 s hlt => exact .inl ⟨s, rfl, h, by omega⟩

/-- **A refill** loads 56 bits, unless bits past the end of the input have been used. -/
theorem refill_spec (h : Inv data outLen s t) :
    (∃ s', refill data s = .ok () s' ∧ Inv data outLen s' t ∧ 56 ≤ s'.bitcnt) ∨
    ∃ s', refill data s = .error (.error ⟨truncated⟩) s' ∧ s'.out = t.out ∧
      8 * data.length < t.p := by
  rw [refill]
  split
  · next hlt => exact .inl ⟨s, rfl, h, hlt.le⟩
  · next hle =>
    rw [chunk?]
    by_cases hfits : s.pos + 8 ≤ data.length
    · rw [if_pos hfits]
      have hvirt : s.virt = 0 := by
        by_contra hne
        have := h.virt (by omega)
        omega
      have hload := h.loaded
      have hat (j : ℕ) : t.p + (s.bitcnt + j) = 8 * s.pos + j := by omega
      have hnbytes : (63 - s.bitcnt) >>> 3 = (63 - s.bitcnt) / 8 := Nat.shiftRight_eq_div_pow _ 3
      have hword (j : ℕ) : (leWord ((data.drop s.pos).take 8) <<< s.bitcnt % 2 ^ 64).testBit
          (s.bitcnt + j) = (decide (s.bitcnt + j < 64) &&
            (leWord ((data.drop s.pos).take 8)).testBit j) := by
        rw [Nat.testBit_mod_two_pow, Nat.testBit_shiftLeft, decide_eq_true (Nat.le_add_right _ _),
          Bool.true_and, Nat.add_sub_cancel_left]
      obtain ⟨hbits, hstale⟩ := h.load (leWord ((data.drop s.pos).take 8) <<< s.bitcnt % 2 ^ 64)
        ((63 - s.bitcnt) / 8 * 8)
        (fun j hj => by
          rw [hword, decide_eq_true (by omega), Bool.true_and, testBit_leWord_slice (by omega), hat])
        (fun i hi => by
          rw [Nat.testBit_mod_two_pow, Nat.testBit_shiftLeft,
            decide_eq_false (show ¬ i ≥ s.bitcnt by omega), Bool.false_and, Bool.and_false])
        (fun j hj => by
          rw [hword, Bool.and_eq_true, decide_eq_true_eq] at hj
          rw [hat, ← testBit_leWord_slice (show j < 8 * 8 by omega), hj.2])
      refine .inl ⟨_, rfl, ⟨?_, ?_, ?_, ?_, fun hpos => absurd hpos (by dsimp only; omega),
        h.virt_le, h.out, h.length⟩, ?_⟩
      · rw [hnbytes]
        exact hbits
      · exact hstale
      · dsimp only
        rw [hnbytes]
        omega
      · dsimp only
        rw [hnbytes]
        omega
      · dsimp only
        rw [hnbytes]
        omega
    · rw [if_neg hfits]
      exact refillBytes_spec h

theorem consume_spec (h : Inv data outLen s t) {n : ℕ} (hn : n ≤ s.bitcnt) :
    consume n s = .ok () { s with bitbuf := s.bitbuf >>> n, bitcnt := s.bitcnt - n } ∧
      Inv data outLen { s with bitbuf := s.bitbuf >>> n, bitcnt := s.bitcnt - n }
        { t with p := t.p + n } := by
  refine ⟨if_neg (Nat.not_lt.mpr hn), fun i hi => ?_, fun i hi => ?_, ?_, h.pos, h.virt, h.virt_le,
    h.out, h.length⟩
  · dsimp only at hi ⊢
    rw [Nat.testBit_shiftRight, h.bits _ (by omega), Nat.add_assoc]
  · rw [Nat.testBit_shiftRight] at hi
    rw [Nat.add_assoc]
    exact h.stale _ hi
  · have hload := h.loaded
    dsimp only
    omega

/-- The number that the next bits make. -/
theorem bits_pad {b n : ℕ} {t : Rfc1951.State}
    (h : ∀ i < n, b.testBit i = padded data (t.p + i)) :
    Rfc1951.bits (pad data) n t = some (b % 2 ^ n, { t with p := t.p + n }) := by
  induction n generalizing b t with
  | zero => rw [pow_zero, Nat.mod_one]; rfl
  | succ n ih =>
    have hrest := ih (b := b / 2) (t := { t with p := t.p + 1 }) fun i hi => by
      rw [Nat.testBit_div_two, h (i + 1) (by omega)]
      exact congrArg _ (by dsimp only; omega)
    refine Rfc1951.bind_eq_some.mpr ⟨padded data t.p, { t with p := t.p + 1 }, rfl, ?_⟩
    refine Rfc1951.bind_eq_some.mpr ⟨_, _, hrest, ?_⟩
    have hbit : (padded data t.p).toNat = b % 2 := by
      rw [← Nat.add_zero t.p, ← h 0 (Nat.succ_pos n), Nat.testBit_zero]
      rcases Nat.mod_two_eq_zero_or_one b with hb | hb <;> rw [hb] <;> rfl
    show some ((padded data t.p).toNat + 2 * (b / 2 % 2 ^ n),
      ({ p := t.p + 1 + n, out := t.out } : Rfc1951.State)) = _
    rw [hbit, pow_succ', Nat.mod_mul, show t.p + 1 + n = t.p + (n + 1) by omega]

/-- **Buffered bits are the next bits.** -/
theorem bits_spec (h : Inv data outLen s t) {n : ℕ} (hn : n ≤ s.bitcnt) :
    ∃ v s', bits n s = .ok v s' ∧
      Rfc1951.bits (pad data) n t = some (v, { t with p := t.p + n }) ∧
      Inv data outLen s' { t with p := t.p + n } ∧ s'.bitcnt = s.bitcnt - n ∧ v < 2 ^ n := by
  obtain ⟨hrun, hinv⟩ := consume_spec h hn
  refine ⟨_, _, ?_, bits_pad fun i hi => h.bits i (by omega), hinv, rfl,
    Nat.mod_lt _ (Nat.two_pow_pos n)⟩
  show (consume n >>= fun _ => pure (s.bitbuf &&& (2 ^ n - 1))) s = _
  rw [Nat.and_two_pow_sub_one_eq_mod]
  exact run_bind hrun

theorem bit_spec (h : Inv data outLen s t) (hn : 1 ≤ s.bitcnt) :
    ∃ s', bits 1 s = .ok (padded data t.p).toNat s' ∧
      Inv data outLen s' { t with p := t.p + 1 } ∧ s'.bitcnt = s.bitcnt - 1 := by
  obtain ⟨v, s', hrun, hspec, hinv, hcnt, -⟩ := bits_spec h hn
  have hbit : Rfc1951.bits (pad data) 1 t =
      some ((padded data t.p).toNat, { t with p := t.p + 1 }) := rfl
  obtain ⟨rfl, -⟩ := Prod.mk.inj (Option.some.inj (hbit.symm.trans hspec))
  exact ⟨s', hrun, hinv, hcnt⟩

/-! ### Outcomes -/

section

variable {α β γ δ : Type}

/-- What a step that starts with the buffer full enough comes to, against what the bit-serial
decoder of the padded input comes to: the same, with `k` bits left in the buffer; or an error, where
that decoder ends in a state with `P`, if at all. -/
structure Agrees (data : List UInt8) (outLen : ℕ) (P : Rfc1951.State → Prop) (k : ℕ)
    (R : α → β → Rfc1951.State → Prop) (r : EStateM.Result Stop Inflater α)
    (d : Option (β × Rfc1951.State)) : Prop where
  value : ∀ a s, r = .ok a s →
    ∃ b t, d = some (b, t) ∧ R a b t ∧ Inv data outLen s t ∧ k ≤ s.bitcnt
  failure : ∀ e s, r = .error e s →
    e.IsError ∧ s.out.length ≤ outLen ∧ ∀ b t, d = some (b, t) → P t

variable {P P' : Rfc1951.State → Prop} {k k' : ℕ} {R : α → β → Rfc1951.State → Prop}
  {R' : γ → δ → Rfc1951.State → Prop}

theorem Agrees.ok {r : EStateM.Result Stop Inflater α} {d : Option (β × Rfc1951.State)} {a : α}
    {b : β} (hr : r = .ok a s) (hd : d = some (b, t)) (hR : R a b t) (h : Inv data outLen s t)
    (hk : k ≤ s.bitcnt) : Agrees data outLen P k R r d := by
  constructor
  · intro a' s' h'
    obtain ⟨rfl, rfl⟩ := EStateM.Result.ok.inj (hr.symm.trans h')
    exact ⟨b, t, hd, hR, h, hk⟩
  · intro e s' h'
    exact absurd (hr.symm.trans h') nofun

theorem Agrees.fails {r : EStateM.Result Stop Inflater α} {e : ImageError}
    {d : Option (β × Rfc1951.State)} (hr : r = .error (.error e) s) (hlen : s.out.length ≤ outLen)
    (hd : ∀ b t, d = some (b, t) → P t) : Agrees data outLen P k R r d := by
  constructor
  · intro a s' h'
    exact absurd (hr.symm.trans h') nofun
  · intro e' s' h'
    obtain ⟨rfl, rfl⟩ := EStateM.Result.error.inj (hr.symm.trans h')
    exact ⟨trivial, hlen, hd⟩

theorem Inv.length_out (h : Inv data outLen s t) : s.out.length ≤ outLen := by
  rw [h.out]
  exact h.length

/-- One step after another. -/
theorem Agrees.bind {m : Inflate α} {f : α → Inflate γ} {d : Rfc1951.Decoder β}
    {g : β → Rfc1951.Decoder δ} (hm : Agrees data outLen P k R (m s) (d t))
    (hf : ∀ a b s t, R a b t → Inv data outLen s t → k ≤ s.bitcnt →
      Agrees data outLen P' k' R' (f a s) (g b t))
    (hg : ∀ b t c t', P t → g b t = some (c, t') → P' t') :
    Agrees data outLen P' k' R' ((m >>= f) s) ((d >>= g) t) := by
  cases hrun : m s with
  | ok a s₁ =>
    obtain ⟨b, t₁, hd, hR, hinv, hk⟩ := hm.value a s₁ hrun
    rw [run_bind hrun, Rfc1951.bind_of_eq_some hd]
    exact hf a b s₁ t₁ hR hinv hk
  | error e s₁ =>
    obtain ⟨he, hlen, hd⟩ := hm.failure e s₁ hrun
    have hfail : (m >>= f) s = .error e s₁ := by
      show EStateM.bind m f s = _
      rw [EStateM.bind, hrun]
    constructor
    · intro c s' h'
      exact absurd (hfail.symm.trans h') nofun
    · intro e' s' h'
      obtain ⟨rfl, rfl⟩ := EStateM.Result.error.inj (hfail.symm.trans h')
      refine ⟨he, hlen, fun c t' hc => ?_⟩
      obtain ⟨b, t₁, hb, hrest⟩ := Rfc1951.bind_eq_some.mp hc
      exact hg b t₁ c t' (hd b t₁ hb) hrest

theorem Agrees.imp {r : EStateM.Result Stop Inflater α} {d : Option (β × Rfc1951.State)}
    {R₁ : α → β → Rfc1951.State → Prop} (h : Agrees data outLen P k R r d)
    (hR : ∀ a b t, R a b t → R₁ a b t) (hP : ∀ t, P t → P' t) (hk : k' ≤ k) :
    Agrees data outLen P' k' R₁ r d := by
  constructor
  · intro a s h'
    obtain ⟨b, t, hd, hab, hinv, hcnt⟩ := h.value a s h'
    exact ⟨b, t, hd, hR a b t hab, hinv, hk.trans hcnt⟩
  · intro e s h'
    obtain ⟨he, hlen, hd⟩ := h.failure e s h'
    exact ⟨he, hlen, fun b t hb => hP t (hd b t hb)⟩

end

/-- The bit-serial decoder does not end. -/
def Never (_ : Rfc1951.State) : Prop := False

/-- Bits past the end of the input have been used. -/
def Past (data : List UInt8) (t : Rfc1951.State) : Prop := 8 * data.length < t.p

/-- The same value, with the output `out`. -/
def Reads {α : Type} (out : List UInt8) (a b : α) (t : Rfc1951.State) : Prop :=
  a = b ∧ t.out = out

theorem bits_agrees (h : Inv data outLen s t) {n k : ℕ} (hk : n + k ≤ s.bitcnt) :
    Agrees data outLen Never k (fun a b t' => Reads t.out a b t' ∧ a < 2 ^ n) (bits n s)
      (Rfc1951.bits (pad data) n t) := by
  obtain ⟨v, s', hrun, hspec, hinv, hcnt, hlt⟩ := bits_spec h (show n ≤ s.bitcnt by omega)
  exact .ok hrun hspec ⟨⟨rfl, rfl⟩, hlt⟩ hinv (by omega)

/-- A step that begins with a refill. -/
theorem refill_agrees {α β : Type} {k : ℕ} {R : α → β → Rfc1951.State → Prop} {f : Inflate α}
    {d : Rfc1951.Decoder β} (h : Inv data outLen s t)
    (hd : ∀ b t', d t = some (b, t') → t.p ≤ t'.p)
    (hf : ∀ s, Inv data outLen s t → 56 ≤ s.bitcnt →
      Agrees data outLen (Past data) k R (f s) (d t)) :
    Agrees data outLen (Past data) k R ((refill data >>= fun _ => f) s) (d t) := by
  rcases refill_spec h with ⟨s', hrun, hinv, hcnt⟩ | ⟨s', hrun, hout, hpast⟩
  · rw [run_bind hrun]
    exact hf s' hinv hcnt
  · have hfail : (refill data >>= fun _ => f) s = .error (.error ⟨truncated⟩) s' := by
      show EStateM.bind _ _ s = _
      rw [EStateM.bind, hrun]
    exact .fails hfail (hout ▸ h.length) fun b t' hb => hpast.trans_le (hd b t' hb)

end Image

end Mimo26

import Mathlib.Data.List.Basic
import Mathlib.Tactic.Ring
import Mimo26.Image.Rfc1951

/-!
# DEFLATE with zeros past the end

A decoder that finds zeros past the end of its input goes on where the decoder of `Rfc1951` stops.
What it reads only moves on, so the two agree on each stream that is read up to the end and no
further.

## Main definitions

* `pad` — the input with zeros past its end
* `Bounded` — the decoders of the input and of the padded input agree up to the end

## Main results

* `bounded_block` — they do on each block
* `blocks_iff` — and on the blocks of a stream
-/

namespace Mimo26

namespace Image

namespace Rfc1951

/-- A bit of the input, or zero past its end. -/
def padded (data : List UInt8) (p : ℕ) : Bool := (sourceBit data p).getD false

/-- The input with zeros past its end. -/
def pad (data : List UInt8) (p : ℕ) : Option Bool := some (padded data p)

theorem sourceBit_of_lt {data : List UInt8} {p : ℕ} (h : p < 8 * data.length) :
    sourceBit data p = pad data p := by
  rw [pad, padded, sourceBit, List.getElem?_eq_getElem (by omega), Option.map_some, Option.getD_some]

theorem sourceBit_of_le {data : List UInt8} {p : ℕ} (h : 8 * data.length ≤ p) :
    sourceBit data p = none := by
  rw [sourceBit, List.getElem?_eq_none (by omega), Option.map_none]

section

variable {α β : Type} {data : List UInt8}

/-- A decoder of the input, which is one of the padded input as far as the input goes. -/
structure Bounded (data : List UInt8) (d d' : Decoder α) : Prop where
  mono : ∀ {t a t'}, d' t = some (a, t') → t.p ≤ t'.p
  iff : ∀ {t}, t.p ≤ 8 * data.length → ∀ {a t'},
    d t = some (a, t') ↔ d' t = some (a, t') ∧ t'.p ≤ 8 * data.length

theorem bind_eq_some {d : Decoder α} {f : α → Decoder β} {t t' : State} {b : β} :
    (d >>= f) t = some (b, t') ↔ ∃ a t₁, d t = some (a, t₁) ∧ f a t₁ = some (b, t') := by
  show (d t).bind _ = _ ↔ _
  rw [Option.bind_eq_some_iff, Prod.exists]

theorem modify_bind (f : State → State) (g : PUnit → Decoder α) (t : State) :
    ((modify f : Decoder PUnit) >>= g) t = g ⟨⟩ (f t) := rfl

theorem get_bind (g : State → Decoder α) (t : State) :
    ((get : Decoder State) >>= g) t = g t t := rfl

theorem bind_of_eq_some {d : Decoder α} {f : α → Decoder β} {t t' : State} {a : α}
    (h : d t = some (a, t')) : (d >>= f) t = f a t' := by
  show (d t).bind _ = _
  rw [h]
  rfl

theorem Bounded.bind {d d' : Decoder α} {f f' : α → Decoder β} (hd : Bounded data d d')
    (hf : ∀ a, Bounded data (f a) (f' a)) : Bounded data (d >>= f) (d' >>= f') := by
  constructor
  · intro t b t' h
    obtain ⟨a, t₁, ha, hb⟩ := bind_eq_some.mp h
    exact (hd.mono ha).trans ((hf a).mono hb)
  · intro t ht b t'
    rw [bind_eq_some, bind_eq_some]
    constructor
    · rintro ⟨a, t₁, ha, hb⟩
      obtain ⟨ha', ht₁⟩ := (hd.iff ht).mp ha
      obtain ⟨hb', ht'⟩ := ((hf a).iff ht₁).mp hb
      exact ⟨⟨a, t₁, ha', hb'⟩, ht'⟩
    · rintro ⟨⟨a, t₁, ha, hb⟩, ht'⟩
      have ht₁ := ((hf a).mono hb).trans ht'
      exact ⟨a, t₁, (hd.iff ht).mpr ⟨ha, ht₁⟩, ((hf a).iff ht₁).mpr ⟨hb, ht'⟩⟩

/-- A decoder that reads nothing. -/
theorem Bounded.of_eq {d : Decoder α} (h : ∀ {t a t'}, d t = some (a, t') → t'.p = t.p) :
    Bounded data d d := by
  refine ⟨fun hd => (h hd).ge, fun ht => ⟨fun hd => ⟨hd, ?_⟩, And.left⟩⟩
  rw [h hd]
  exact ht

theorem Bounded.pure (a : α) : Bounded data (Pure.pure a) (Pure.pure a) :=
  .of_eq fun h => (Prod.mk.inj (Option.some.inj h)).2 ▸ rfl

theorem Bounded.failure : Bounded data (failure : Decoder α) failure :=
  .of_eq fun {_ a t'} h => absurd (show none = some (a, t') from h) nofun

theorem Bounded.get : Bounded data MonadState.get MonadState.get :=
  .of_eq fun h => (Prod.mk.inj (Option.some.inj h)).2 ▸ rfl

theorem Bounded.ite {p : Prop} [Decidable p] {d₁ d₁' d₂ d₂' : Decoder α}
    (h₁ : Bounded data d₁ d₁') (h₂ : Bounded data d₂ d₂') :
    Bounded data (if p then d₁ else d₂) (if p then d₁' else d₂') := by
  split
  · exact h₁
  · exact h₂

end

section

variable {data : List UInt8} {outLen : ℕ}

theorem bounded_bit : Bounded data (bit (sourceBit data)) (bit (pad data)) := by
  constructor
  · rintro t b t' h
    obtain ⟨-, rfl⟩ := Prod.mk.inj (Option.some.inj h)
    exact Nat.le_succ _
  · intro t ht b t'
    have hbit (src : ℕ → Option Bool) : bit src t = (src t.p).map fun b => (b, { t with p := t.p + 1 }) := by
      rw [bit]
      dsimp only [bind, StateT.bind, get, getThe, MonadStateOf.get, StateT.get, pure,
        Option.bind_some]
      cases src t.p <;> rfl
    rw [hbit, hbit]
    by_cases hlt : t.p < 8 * data.length
    · rw [sourceBit_of_lt hlt, pad, Option.map_some]
      refine ⟨fun h => ⟨h, ?_⟩, And.left⟩
      obtain ⟨-, rfl⟩ := Prod.mk.inj (Option.some.inj h)
      exact hlt
    · rw [sourceBit_of_le (by omega), pad, Option.map_some, Option.map_none]
      refine ⟨fun h => (by cases h), ?_⟩
      rintro ⟨h, hle⟩
      obtain ⟨-, rfl⟩ := Prod.mk.inj (Option.some.inj h)
      exact absurd hle (by dsimp only; omega)

theorem bounded_bits (n : ℕ) : Bounded data (bits (sourceBit data) n) (bits (pad data) n) := by
  induction n with
  | zero => exact .pure 0
  | succ n ih => exact bounded_bit.bind fun b => ih.bind fun v => .pure _

theorem bounded_emit (b : UInt8) : Bounded data (emit outLen b) (emit outLen b) := by
  refine .of_eq fun {t a t'} h => ?_
  have hemit : emit outLen b t =
      some ((), if t.out.length < outLen then { t with out := t.out ++ [b] } else t) := by
    show (if t.out.length < outLen then _ else _ : Decoder Unit) t = _
    split <;> rfl
  rw [hemit] at h
  obtain ⟨-, rfl⟩ := Prod.mk.inj (Option.some.inj h)
  split <;> rfl

theorem bounded_symbolFrom (lengths : List ℕ) (n l code : ℕ) :
    Bounded data (symbolFrom (sourceBit data) lengths n l code)
      (symbolFrom (pad data) lengths n l code) := by
  induction n generalizing l code with
  | zero => exact .failure
  | succ n ih =>
    refine bounded_bit.bind fun b => ?_
    dsimp only
    split
    · exact .pure _
    · exact ih _ _

theorem bounded_symbol (lengths : List ℕ) :
    Bounded data (symbol (sourceBit data) lengths) (symbol (pad data) lengths) :=
  bounded_symbolFrom lengths 15 1 0

theorem bounded_storedBytes (n : ℕ) :
    Bounded data (storedBytes (sourceBit data) outLen n) (storedBytes (pad data) outLen n) := by
  induction n with
  | zero => exact .pure ()
  | succ n ih =>
    refine Bounded.get.bind fun s => .ite (.pure ()) ?_
    exact (bounded_bits 8).bind fun b => (bounded_emit _).bind fun _ => ih

theorem bounded_align : Bounded data (modify fun s => { s with p := (s.p + 7) / 8 * 8 })
    (modify fun s => { s with p := (s.p + 7) / 8 * 8 }) := by
  constructor
  · intro t a t' h
    obtain ⟨-, rfl⟩ := Prod.mk.inj (Option.some.inj h)
    dsimp only
    omega
  · intro t ht a t'
    refine ⟨fun h => ⟨h, ?_⟩, And.left⟩
    obtain ⟨-, rfl⟩ := Prod.mk.inj (Option.some.inj h)
    dsimp only
    omega

theorem bounded_stored :
    Bounded data (stored (sourceBit data) outLen) (stored (pad data) outLen) := by
  refine bounded_align.bind fun _ => (bounded_bits 16).bind fun len =>
    (bounded_bits 16).bind fun nlen => ?_
  exact .ite (bounded_storedBytes len) .failure

theorem bounded_copy (d n : ℕ) : Bounded data (copy outLen d n) (copy outLen d n) := by
  induction n with
  | zero => exact .pure ()
  | succ n ih =>
    refine Bounded.get.bind fun s => ?_
    split
    · exact (bounded_emit _).bind fun _ => ih
    · exact .failure

theorem bounded_tableNumber (table : List (ℕ × ℕ)) (i : ℕ) :
    Bounded data (tableNumber (sourceBit data) table i) (tableNumber (pad data) table i) := by
  rw [tableNumber, tableNumber]
  split
  · exact (bounded_bits _).bind fun v => .pure _
  · exact .failure

theorem bounded_codesMatch (dist : List ℕ) (sym : ℕ) :
    Bounded data (codesMatch (sourceBit data) outLen dist sym)
      (codesMatch (pad data) outLen dist sym) := by
  refine (bounded_tableNumber _ _).bind fun len => (bounded_symbol dist).bind fun dsym =>
    (bounded_tableNumber _ _).bind fun d => Bounded.get.bind fun s => ?_
  exact .ite (bounded_copy d len) .failure

theorem bounded_output (dist : List ℕ) (sym : ℕ) :
    Bounded data (output (sourceBit data) outLen dist sym) (output (pad data) outLen dist sym) :=
  .ite (bounded_emit _) (bounded_codesMatch dist sym)

theorem bounded_codes (lit dist : List ℕ) (n : ℕ) :
    Bounded data (codes (sourceBit data) outLen lit dist n) (codes (pad data) outLen lit dist n) := by
  induction n with
  | zero => exact .pure ()
  | succ n ih =>
    refine (bounded_symbol lit).bind fun sym => .ite (.pure ()) ?_
    exact (bounded_output dist sym).bind fun _ => Bounded.get.bind fun s => .ite (.pure ()) ih

theorem bounded_codeLengthLengths (slots lens : List ℕ) :
    Bounded data (codeLengthLengths (sourceBit data) slots lens)
      (codeLengthLengths (pad data) slots lens) := by
  induction slots generalizing lens with
  | nil => exact .pure lens
  | cons slot slots ih => exact (bounded_bits 3).bind fun v => ih _

theorem bounded_lengthSymbol (cl lens : List ℕ) :
    Bounded data (lengthSymbol (sourceBit data) cl lens) (lengthSymbol (pad data) cl lens) := by
  refine (bounded_symbol cl).bind fun sym => .ite (.pure _) (.ite ?_ (.ite ?_ ?_))
  · split
    · exact (bounded_bits 2).bind fun v => .pure _
    · exact .failure
  · exact (bounded_bits 3).bind fun v => .pure _
  · exact (bounded_bits 7).bind fun v => .pure _

theorem bounded_codeLengths (cl : List ℕ) (total n : ℕ) (lens : List ℕ) :
    Bounded data (codeLengths (sourceBit data) cl total n lens)
      (codeLengths (pad data) cl total n lens) := by
  induction n generalizing lens with
  | zero => exact .pure lens
  | succ n ih =>
    refine .ite ((bounded_lengthSymbol cl lens).bind fun x => ?_) (.pure lens)
    exact .ite (ih _) .failure

theorem bounded_dynamicTables :
    Bounded data (dynamicTables (sourceBit data)) (dynamicTables (pad data)) := by
  refine (bounded_bits 5).bind fun hlit => (bounded_bits 5).bind fun hdist =>
    (bounded_bits 4).bind fun hclen => .ite ?_ .failure
  refine (bounded_codeLengthLengths _ _).bind fun cl => .ite ?_ .failure
  exact (bounded_codeLengths _ _ _ _).bind fun lens => .ite (.pure _) .failure

/-- What follows the first bit of a block. -/
theorem exists_block (data : List UInt8) (outLen : ℕ) : ∃ f f' : ℕ → Decoder Bool,
    block (sourceBit data) outLen = bits (sourceBit data) 1 >>= f ∧
      block (pad data) outLen = bits (pad data) 1 >>= f' ∧ ∀ last, Bounded data (f last) (f' last) := by
  refine ⟨_, _, rfl, rfl, fun last => (bounded_bits 2).bind fun kind => ?_⟩
  refine .ite (bounded_stored.bind fun _ => .pure _) (.ite ?_ (.ite ?_ ?_))
  · exact Bounded.get.bind fun s => (bounded_codes _ _ _).bind fun _ => .pure _
  · refine bounded_dynamicTables.bind fun lens => ?_
    exact Bounded.get.bind fun s => (bounded_codes _ _ _).bind fun _ => .pure _
  · exact Bounded.failure.bind fun _ => .pure _

theorem bounded_block : Bounded data (block (sourceBit data) outLen) (block (pad data) outLen) := by
  obtain ⟨f, f', hblock, hpad, hf⟩ := exists_block data outLen
  rw [hblock, hpad]
  exact (bounded_bits 1).bind hf

/-- There is a number of any bits. -/
theorem exists_bits (data : List UInt8) (n : ℕ) (t : State) :
    ∃ v, bits (pad data) n t = some (v, { t with p := t.p + n }) := by
  induction n generalizing t with
  | zero => exact ⟨0, rfl⟩
  | succ n ih =>
    obtain ⟨v, hv⟩ := ih { t with p := t.p + 1 }
    refine ⟨(padded data t.p).toNat + 2 * v, bind_eq_some.mpr ⟨padded data t.p, _, rfl, ?_⟩⟩
    refine bind_eq_some.mpr ⟨v, _, hv, ?_⟩
    show some (_, { p := t.p + 1 + n, out := t.out : State }) = _
    rw [show t.p + 1 + n = t.p + (n + 1) by omega]

/-- A block is of some bits. -/
theorem block_lt {t t' : State} {last : Bool} (h : block (pad data) outLen t = some (last, t')) :
    t.p < t'.p := by
  obtain ⟨f, f', -, hpad, hf⟩ := exists_block data outLen
  obtain ⟨v, hv⟩ := exists_bits data 1 t
  obtain ⟨v', t₁, hv', hrest⟩ := bind_eq_some.mp (hpad ▸ h)
  obtain ⟨-, rfl⟩ := Prod.mk.inj (Option.some.inj (hv.symm.trans hv'))
  exact Nat.lt_of_succ_le ((hf v').mono hrest)

/-! ### Streams -/

theorem Blocks.mono {t t' : State} (h : Blocks (pad data) outLen t t') : t.p ≤ t'.p := by
  induction h with
  | done hblock _ => exact bounded_block.mono hblock
  | next hblock _ _ ih => exact (bounded_block.mono hblock).trans ih

/-- The blocks of a stream put out the same bytes to the same end. -/
theorem Blocks.unique {src : ℕ → Option Bool} {t t₁ t₂ : State} (h₁ : Blocks src outLen t t₁)
    (h₂ : Blocks src outLen t t₂) : t₁ = t₂ := by
  induction h₁ with
  | done hspec hout =>
    cases h₂ with
    | done hspec' _ => exact (Prod.mk.inj (Option.some.inj (hspec.symm.trans hspec'))).2
    | next hspec' hout' _ =>
      obtain ⟨-, rfl⟩ := Prod.mk.inj (Option.some.inj (hspec.symm.trans hspec'))
      exact absurd hout' (Nat.not_lt.mpr hout)
  | next hspec hout _ ih =>
    cases h₂ with
    | done hspec' hout' =>
      obtain ⟨-, rfl⟩ := Prod.mk.inj (Option.some.inj (hspec.symm.trans hspec'))
      exact absurd hout' (Nat.not_le.mpr hout)
    | next hspec' _ hrest =>
      obtain ⟨-, rfl⟩ := Prod.mk.inj (Option.some.inj (hspec.symm.trans hspec'))
      exact ih hrest

/-- **The blocks of a stream** are those of the padded input that end within the input. -/
theorem blocks_iff {t t' : State} (ht : t.p ≤ 8 * data.length) :
    Blocks (sourceBit data) outLen t t' ↔
      Blocks (pad data) outLen t t' ∧ t'.p ≤ 8 * data.length := by
  constructor
  · intro h
    induction h with
    | done hblock hout =>
      obtain ⟨hpad, hle⟩ := (bounded_block.iff ht).mp hblock
      exact ⟨.done hpad hout, hle⟩
    | next hblock hout _ ih =>
      obtain ⟨hpad, hle⟩ := (bounded_block.iff ht).mp hblock
      exact ⟨.next hpad hout (ih hle).1, (ih hle).2⟩
  · rintro ⟨h, hle⟩
    induction h with
    | done hblock hout => exact .done ((bounded_block.iff ht).mpr ⟨hblock, hle⟩) hout
    | next hblock hout hrest ih =>
      have hmid := hrest.mono.trans hle
      exact .next ((bounded_block.iff ht).mpr ⟨hblock, hmid⟩) hout (ih hmid hle)

end

end Rfc1951

end Image

end Mimo26

import Mimo26.Library.Utf8

/-!
# UTF-8 in pieces

What becomes of bytes that are decoded piece by piece: a piece may be cut where a character is not
complete, and then the pieces have more characters than the whole.

## Main definitions

* `IsChar` — the bytes of one character, as the table of the standard has them
* `cutTail` — the bytes at the end whose character is not complete
* `follows` — whether a byte goes on with such a character

## Main results

* `isChar_iff` — the table has the bytes of the characters
* `fromUtf8Lossy_append` — pieces that cut no character make up the whole
* `length_fromUtf8Lossy_append_lt` — pieces that cut one have more characters
-/

namespace Mimo26

namespace Utf8

/-- The bytes of one character. -/
inductive IsChar : List UInt8 → Prop
  | one {b : UInt8} (hb : width b = 1) : IsChar [b]
  | two {b x : UInt8} (hb : width b = 2) (hx : mayFollow b x) : IsChar [b, x]
  | three {b x y : UInt8} (hb : width b = 3) (hx : mayFollow b x) (hy : isCont y) : IsChar [b, x, y]
  | four {b x y z : UInt8} (hb : width b = 4) (hx : mayFollow b x) (hy : isCont y)
    (hz : isCont z) : IsChar [b, x, y, z]

theorem isCont_iff {b : UInt8} : isCont b ↔ 0x80 ≤ b.toNat ∧ b.toNat ≤ 0xBF := by
  rw [isCont, decide_eq_true_iff, UInt8.le_iff_toNat_le, UInt8.le_iff_toNat_le]
  rfl

theorem width_spec (b : UInt8) :
    (width b = 1 ↔ b.toNat < 0x80) ∧ (width b = 2 ↔ 0xC2 ≤ b.toNat ∧ b.toNat < 0xE0) ∧
      (width b = 3 ↔ 0xE0 ≤ b.toNat ∧ b.toNat < 0xF0) ∧
      (width b = 4 ↔ 0xF0 ≤ b.toNat ∧ b.toNat < 0xF5) ∧ width b ≤ 4 := by
  simp only [width, UInt8.lt_iff_toNat_lt, UInt8.reduceToNat]
  split
  · omega
  · split
    · omega
    · split
      · omega
      · split
        · omega
        · split
          · omega
          · omega

theorem mayFollow_iff {b x : UInt8} : mayFollow b x ↔ 0x80 ≤ x.toNat ∧ x.toNat ≤ 0xBF ∧
    (b.toNat = 0xE0 → 0xA0 ≤ x.toNat) ∧ (b.toNat = 0xED → x.toNat ≤ 0x9F) ∧
    (b.toNat = 0xF0 → 0x90 ≤ x.toNat) ∧ (b.toNat = 0xF4 → x.toNat ≤ 0x8F) := by
  have heq (n : UInt8) : b = n ↔ b.toNat = n.toNat := UInt8.toNat_inj.symm
  simp only [mayFollow, isCont, heq, UInt8.le_iff_toNat_le, UInt8.reduceToNat]
  split
  · simp only [decide_eq_true_iff]
    omega
  · split
    · simp only [decide_eq_true_iff]
      omega
    · split
      · simp only [decide_eq_true_iff]
        omega
      · split
        · simp only [decide_eq_true_iff]
          omega
        · simp only [decide_eq_true_iff]
          omega

theorem toNat_ofNat {n : ℕ} (h : n < 256) : (UInt8.ofNat n).toNat = n := UInt8.toNat_ofNat_of_lt' h

theorem isChar_encode (c : Char) : IsChar (String.utf8EncodeChar c) := by
  have hvalid : c.val.toNat < 0xD800 ∨ 0xDFFF < c.val.toNat ∧ c.val.toNat < 0x110000 := c.valid
  rw [String.utf8EncodeChar]
  split
  · refine .one ?_
    rw [(width_spec _).1, toNat_ofNat (by omega)]
    omega
  · split
    · refine .two ?_ ?_
      · rw [(width_spec _).2.1, toNat_ofNat (by omega)]
        omega
      · rw [mayFollow_iff, toNat_ofNat (by omega), toNat_ofNat (by omega)]
        omega
    · split
      · refine .three ?_ ?_ ?_
        · rw [(width_spec _).2.2.1, toNat_ofNat (by omega)]
          omega
        · rw [mayFollow_iff, toNat_ofNat (by omega), toNat_ofNat (by omega)]
          omega
        · rw [isCont_iff, toNat_ofNat (by omega)]
          omega
      · refine .four ?_ ?_ ?_ ?_
        · rw [(width_spec _).2.2.2.1, toNat_ofNat (by omega)]
          omega
        · rw [mayFollow_iff, toNat_ofNat (by omega), toNat_ofNat (by omega)]
          omega
        · rw [isCont_iff, toNat_ofNat (by omega)]
          omega
        · rw [isCont_iff, toNat_ofNat (by omega)]
          omega

/-- The character of a number that is a scalar value. -/
theorem exists_char {n : ℕ} (h : n < 0xD800 ∨ 0xDFFF < n ∧ n < 0x110000) :
    ∃ c : Char, c.val.toNat = n := by
  have hlt : n < 2 ^ 32 := by omega
  have hval : (UInt32.ofNat n).toNat = n := UInt32.toNat_ofNat_of_lt' hlt
  exact ⟨⟨UInt32.ofNat n, by rw [UInt32.isValidChar, hval]; exact h⟩, hval⟩

/-- **The table has the bytes of the characters.** -/
theorem isChar_iff {bs : List UInt8} : IsChar bs ↔ ∃ c, String.utf8EncodeChar c = bs := by
  constructor
  · intro h
    have hbyte : ∀ (b : UInt8) {n : ℕ}, n = b.toNat → UInt8.ofNat n = b := by
      rintro b _ rfl
      exact UInt8.ofNat_toNat
    cases h with
    | @one b hb =>
      rw [(width_spec _).1] at hb
      obtain ⟨c, hc⟩ := exists_char (n := b.toNat) (by omega)
      refine ⟨c, ?_⟩
      rw [String.utf8EncodeChar, hc, if_pos (by omega), hbyte b rfl]
    | @two b x hb hx =>
      rw [(width_spec _).2.1] at hb
      rw [mayFollow_iff] at hx
      obtain ⟨c, hc⟩ := exists_char (n := (b.toNat - 0xC0) * 64 + (x.toNat - 0x80)) (by omega)
      refine ⟨c, ?_⟩
      rw [String.utf8EncodeChar, hc, if_neg (by omega), if_pos (by omega), hbyte b (by omega),
        hbyte x (by omega)]
    | @three b x y hb hx hy =>
      rw [(width_spec _).2.2.1] at hb
      rw [mayFollow_iff] at hx
      rw [isCont_iff] at hy
      obtain ⟨c, hc⟩ := exists_char
        (n := (b.toNat - 0xE0) * 4096 + (x.toNat - 0x80) * 64 + (y.toNat - 0x80)) (by omega)
      refine ⟨c, ?_⟩
      rw [String.utf8EncodeChar, hc, if_neg (by omega), if_neg (by omega), if_pos (by omega),
        hbyte b (by omega), hbyte x (by omega), hbyte y (by omega)]
    | @four b x y z hb hx hy hz =>
      rw [(width_spec _).2.2.2.1] at hb
      rw [mayFollow_iff] at hx
      rw [isCont_iff] at hy hz
      obtain ⟨c, hc⟩ := exists_char
        (n := (b.toNat - 0xF0) * 262144 + (x.toNat - 0x80) * 4096 + (y.toNat - 0x80) * 64 +
          (z.toNat - 0x80)) (by omega)
      refine ⟨c, ?_⟩
      rw [String.utf8EncodeChar, hc, if_neg (by omega), if_neg (by omega), if_neg (by omega),
        hbyte b (by omega), hbyte x (by omega), hbyte y (by omega), hbyte z (by omega)]
  · rintro ⟨c, rfl⟩
    exact isChar_encode c

theorem head_eq_some {bs : List UInt8} {c : Char} :
    head bs = some c ↔ String.utf8EncodeChar c <+: bs := by
  constructor
  · intro h
    obtain ⟨l, hl⟩ := ByteArray.exists_of_utf8DecodeChar?_eq_some h
    refine ⟨l.data.toList, ?_⟩
    have hdata := congrArg (fun b : ByteArray => b.data.toList) hl
    simpa using hdata.symm
  · rintro ⟨rest, rfl⟩
    rw [head, List.toByteArray_append]
    exact ByteArray.utf8DecodeChar?_utf8EncodeChar_append

theorem head_eq_none {bs : List UInt8} : head bs = none ↔ ∀ p, IsChar p → ¬ p <+: bs := by
  constructor
  · intro h p hp hpre
    obtain ⟨c, rfl⟩ := isChar_iff.mp hp
    rw [head_eq_some.mpr hpre] at h
    cases h
  · intro h
    cases hhead : head bs with
    | none => rfl
    | some c => exact absurd (head_eq_some.mp hhead) (h _ (isChar_encode c))

theorem head_append {a b : List UInt8} {c : Char} (h : head a = some c) : head (a ++ b) = some c :=
  head_eq_some.mpr ((head_eq_some.mp h).trans (List.prefix_append a b))

theorem length_isChar {p : List UInt8} (h : IsChar p) : 1 ≤ p.length := by
  cases h <;> simp

/-! ### One character, or one error -/

theorem fromUtf8Lossy_nil : fromUtf8Lossy [] = [] := by
  rw [fromUtf8Lossy, if_pos rfl]

theorem ne_nil_of_head {bs : List UInt8} {c : Char} (h : head bs = some c) : bs ≠ [] := by
  rintro rfl
  have hlen := length_isChar (isChar_encode c)
  rw [List.prefix_nil.mp (head_eq_some.mp h)] at hlen
  cases hlen

theorem fromUtf8Lossy_of_head {bs : List UInt8} {c : Char} (h : head bs = some c) :
    fromUtf8Lossy bs = c :: fromUtf8Lossy (bs.drop c.utf8Size) := by
  rw [fromUtf8Lossy, if_neg (ne_nil_of_head h)]
  simp only [h]

/-- A character at the front. -/
theorem fromUtf8Lossy_isChar_append {p : List UInt8} (hp : IsChar p) (rest : List UInt8) :
    ∃ c, fromUtf8Lossy (p ++ rest) = c :: fromUtf8Lossy rest := by
  obtain ⟨c, rfl⟩ := isChar_iff.mp hp
  refine ⟨c, ?_⟩
  rw [fromUtf8Lossy_of_head (head_eq_some.mpr (List.prefix_append _ rest)),
    ← String.length_utf8EncodeChar, List.drop_left]

theorem errorLen_spec {bs : List UInt8} {n : ℕ} (h : errorLen bs = some n) :
    1 ≤ n ∧ n ≤ bs.length := by
  unfold errorLen at h
  split at h
  · cases h
  · split at h
    · obtain rfl := Option.some.inj h
      simp
    · split at h
      · cases h
      · split at h
        · obtain rfl := Option.some.inj h
          simp
        · split at h
          · cases h
          · split at h
            · obtain rfl := Option.some.inj h
              simp
            · split at h
              · cases h
              · obtain rfl := Option.some.inj h
                simp

theorem fromUtf8Lossy_of_errorLen {bs : List UInt8} {n : ℕ} (hhead : head bs = none)
    (h : errorLen bs = some n) : fromUtf8Lossy bs = '\uFFFD' :: fromUtf8Lossy (bs.drop n) := by
  have hne : bs ≠ [] := by
    rintro rfl
    cases h
  rw [fromUtf8Lossy, if_neg hne]
  simp only [hhead, h, Nat.max_eq_right (errorLen_spec h).1]

theorem fromUtf8Lossy_of_cut {bs : List UInt8} (hne : bs ≠ []) (hhead : head bs = none)
    (h : errorLen bs = none) : fromUtf8Lossy bs = ['\uFFFD'] := by
  rw [fromUtf8Lossy, if_neg hne]
  simp only [hhead, h]

/-- A continuation byte begins no character. -/
theorem fromUtf8Lossy_cons_of_isCont {b : UInt8} (hb : isCont b) (rest : List UInt8) :
    fromUtf8Lossy (b :: rest) = '\uFFFD' :: fromUtf8Lossy rest := by
  have hwidth : width b < 2 ∧ width b ≠ 1 := by
    have hspec := width_spec b
    rw [isCont_iff] at hb
    omega
  refine fromUtf8Lossy_of_errorLen (head_eq_none.mpr fun p hp hpre => ?_) (n := 1) ?_
  · obtain ⟨rest', hrest⟩ := hpre
    cases hp with
    | one hb' | two hb' | three hb' | four hb' =>
      obtain ⟨rfl, -⟩ := List.cons.inj hrest
      omega
  · unfold errorLen
    exact if_pos hwidth.1

/-- How many bytes at the front are continuation bytes. -/
def conts (bs : List UInt8) : ℕ := (bs.takeWhile isCont).length

@[simp] theorem conts_nil : conts [] = 0 := rfl

theorem conts_cons_of_isCont {b : UInt8} (h : isCont b) (bs : List UInt8) :
    conts (b :: bs) = conts bs + 1 := by
  rw [conts, List.takeWhile_cons_of_pos h]
  rfl

theorem conts_cons_of_not {b : UInt8} (h : ¬ isCont b) (bs : List UInt8) : conts (b :: bs) = 0 := by
  rw [conts, List.takeWhile_cons_of_neg h]
  rfl

theorem isCont_of_mayFollow {b x : UInt8} (h : mayFollow b x) : isCont x := by
  rw [mayFollow_iff] at h
  exact isCont_iff.mpr ⟨h.1, h.2.1⟩

/-- What is no character of three or four bytes in the table, after two. -/
theorem head_none_of_two {b x : UInt8} {rest : List UInt8} (hb : 3 ≤ width b)
    (h : ∀ y, rest.head? = some y → isCont y → width b = 4 ∧
      ∀ z, rest[1]? = some z → ¬ isCont z) : head (b :: x :: rest) = none := by
  refine head_eq_none.mpr fun p hp hpre => ?_
  obtain ⟨rest', hrest⟩ := hpre
  cases hp with
  | one hb' =>
    obtain ⟨rfl, -⟩ := List.cons.inj hrest
    omega
  | two hb' =>
    obtain ⟨rfl, -⟩ := List.cons.inj hrest
    omega
  | three hb' hx hy =>
    simp only [List.cons_append, List.nil_append, List.cons.injEq] at hrest
    obtain ⟨rfl, rfl, rfl⟩ := hrest
    have hfour := (h _ rfl hy).1
    omega
  | four hb' hx hy hz =>
    simp only [List.cons_append, List.nil_append, List.cons.injEq] at hrest
    obtain ⟨rfl, rfl, rfl⟩ := hrest
    exact (h _ rfl hy).2 _ rfl hz

section errorLen

variable {b x y : UInt8} (hb : 2 ≤ width b) (hx : mayFollow b x)

include hb hx

theorem errorLen_two : errorLen [b, x] = none := by
  simp [errorLen, Nat.not_lt.mpr hb, hx]

theorem errorLen_of_not (hy : ¬ isCont y) (rest : List UInt8) :
    errorLen (b :: x :: y :: rest) = some 2 := by
  simp [errorLen, Nat.not_lt.mpr hb, hx, hy]

theorem errorLen_three (hy : isCont y) : errorLen [b, x, y] = none := by
  simp [errorLen, Nat.not_lt.mpr hb, hx, hy]

theorem errorLen_four (hy : isCont y) (z : UInt8) (rest : List UInt8) :
    errorLen (b :: x :: y :: z :: rest) = some 3 := by
  simp [errorLen, Nat.not_lt.mpr hb, hx, hy]

end errorLen

/-- **A character of several bytes** takes the continuation bytes there are, up to its own; if there
are too few it is an error. -/
theorem fromUtf8Lossy_cons_cons {b x : UInt8} (hb : 2 ≤ width b) (hx : mayFollow b x)
    (rest : List UInt8) : ∃ c, fromUtf8Lossy (b :: x :: rest) =
      c :: fromUtf8Lossy ((x :: rest).drop (min (width b - 1) (conts (x :: rest)))) ∧
        (conts (x :: rest) < width b - 1 → c = '\uFFFD') := by
  have hle := (width_spec b).2.2.2.2
  rw [conts_cons_of_isCont (isCont_of_mayFollow hx)]
  by_cases htwo : width b = 2
  · obtain ⟨c, hc⟩ := fromUtf8Lossy_isChar_append (.two htwo hx) rest
    refine ⟨c, ?_, fun h => by omega⟩
    rw [Nat.min_eq_left (by omega), htwo]
    exact hc
  have hthree : 3 ≤ width b := by omega
  rcases rest with _ | ⟨y, rest⟩
  · have hhead : head [b, x] = none := head_none_of_two hthree fun y hy => by cases hy
    refine ⟨_, ?_, fun _ => rfl⟩
    rw [fromUtf8Lossy_of_cut (List.cons_ne_nil _ _) hhead (errorLen_two hb hx),
      Nat.min_eq_right (by rw [conts_nil]; omega)]
    exact congrArg _ fromUtf8Lossy_nil.symm
  by_cases hy : isCont y
  · rw [conts_cons_of_isCont hy]
    by_cases hwidth : width b = 3
    · obtain ⟨c, hc⟩ := fromUtf8Lossy_isChar_append (.three hwidth hx hy) rest
      refine ⟨c, ?_, fun h => by omega⟩
      rw [Nat.min_eq_left (by omega), hwidth]
      exact hc
    have hfour : width b = 4 := by omega
    rcases rest with _ | ⟨z, rest⟩
    · have hhead : head [b, x, y] = none :=
        head_none_of_two hthree fun y' hy' _ => ⟨hfour, fun z hz => by cases hz⟩
      refine ⟨_, ?_, fun _ => rfl⟩
      rw [fromUtf8Lossy_of_cut (List.cons_ne_nil _ _) hhead (errorLen_three hb hx hy),
        Nat.min_eq_right (by rw [conts_nil]; omega)]
      exact congrArg _ fromUtf8Lossy_nil.symm
    by_cases hz : isCont z
    · obtain ⟨c, hc⟩ := fromUtf8Lossy_isChar_append (.four hfour hx hy hz) rest
      refine ⟨c, ?_, ?_⟩
      · rw [conts_cons_of_isCont hz, Nat.min_eq_left (by omega), hfour]
        exact hc
      · rw [conts_cons_of_isCont hz]
        omega
    · have hhead : head (b :: x :: y :: z :: rest) = none := by
        refine head_none_of_two hthree fun y' hy' _ => ⟨hfour, fun z' hz' => ?_⟩
        obtain rfl := Option.some.inj hz'
        exact hz
      refine ⟨_, ?_, fun _ => rfl⟩
      rw [fromUtf8Lossy_of_errorLen hhead (errorLen_four hb hx hy z rest), conts_cons_of_not hz,
        Nat.min_eq_right (by omega)]
      rfl
  · have hhead : head (b :: x :: y :: rest) = none := by
      refine head_none_of_two hthree fun y' hy' hcont => ?_
      obtain rfl := Option.some.inj hy'
      exact absurd hcont hy
    refine ⟨_, ?_, fun _ => rfl⟩
    rw [fromUtf8Lossy_of_errorLen hhead (errorLen_of_not hb hx hy rest), conts_cons_of_not hy,
      Nat.min_eq_right (by omega)]
    rfl

/-- A first byte of several without its second. -/
theorem fromUtf8Lossy_cons_of_not {b : UInt8} (hb : 2 ≤ width b) {rest : List UInt8}
    (h : ∀ x, rest.head? = some x → ¬ mayFollow b x) :
    fromUtf8Lossy (b :: rest) = '\uFFFD' :: fromUtf8Lossy rest := by
  have hhead : head (b :: rest) = none := by
    refine head_eq_none.mpr fun p hp hpre => ?_
    obtain ⟨rest', hrest⟩ := hpre
    cases hp with
    | one hb' =>
      obtain ⟨rfl, -⟩ := List.cons.inj hrest
      omega
    | two hb' hx | three hb' hx | four hb' hx =>
      obtain ⟨rfl, rfl⟩ := List.cons.inj hrest
      exact h _ rfl hx
  cases rest with
  | nil =>
    rw [fromUtf8Lossy_of_cut (List.cons_ne_nil _ _) hhead, fromUtf8Lossy_nil]
    simp [errorLen, Nat.not_lt.mpr hb]
  | cons x rest =>
    rw [fromUtf8Lossy_of_errorLen hhead (n := 1)]
    · rfl
    · simp [errorLen, Nat.not_lt.mpr hb, h x rfl]

/-! ### A piece, and what comes after -/

/-- The bytes at the end whose character is not complete. -/
def cutTail (bs : List UInt8) : List UInt8 :=
  if bs = [] then []
  else match head bs with
    | some c => cutTail (bs.drop c.utf8Size)
    | none =>
      match errorLen bs with
      | some n => cutTail (bs.drop (max 1 n))
      | none => bs
termination_by bs.length
decreasing_by
  · have hpos := List.length_pos_of_ne_nil ‹bs ≠ []›
    have hsize := c.utf8Size_pos
    rw [List.length_drop]
    omega
  · have hpos := List.length_pos_of_ne_nil ‹bs ≠ []›
    rw [List.length_drop]
    omega

/-- Whether the byte goes on with the character that the tail begins. -/
def follows : List UInt8 → UInt8 → Bool
  | [], _ => false
  | [b], x => mayFollow b x
  | _ :: _ :: _, x => isCont x

/-- The beginnings of characters. -/
inductive IsCut : List UInt8 → Prop
  | one {b : UInt8} (hb : 2 ≤ width b) : IsCut [b]
  | two {b x : UInt8} (hb : 3 ≤ width b) (hx : mayFollow b x) : IsCut [b, x]
  | three {b x y : UInt8} (hb : width b = 4) (hx : mayFollow b x) (hy : isCont y) : IsCut [b, x, y]

theorem isCut_of_errorLen {bs : List UInt8} (hne : bs ≠ []) (hhead : head bs = none)
    (h : errorLen bs = none) : IsCut bs := by
  have hnot := head_eq_none.mp hhead
  unfold errorLen at h
  split at h
  · exact absurd rfl hne
  · rename_i b rest
    have hle := (width_spec b).2.2.2.2
    split at h
    · cases h
    · rename_i hb
      rw [Nat.not_lt] at hb
      split at h
      · exact .one hb
      · rename_i x rest
        split at h
        · cases h
        · rename_i hx
          rw [Bool.not_eq_true, Bool.not_eq_false'] at hx
          have htwo : width b ≠ 2 := fun hw => hnot _ (.two hw hx) (List.prefix_append [b, x] rest)
          split at h
          · exact .two (by omega) hx
          · rename_i y rest
            split at h
            · cases h
            · rename_i hy
              rw [Bool.not_eq_true, Bool.not_eq_false'] at hy
              have hthree : width b ≠ 3 := fun hw =>
                hnot _ (.three hw hx hy) (List.prefix_append [b, x, y] rest)
              split at h
              · exact .three (by omega) hx hy
              · cases h

/-- A cut character is an error of its own, unless the next byte goes on with it. -/
theorem IsCut.not_follows {t : List UInt8} {x : UInt8} (ht : IsCut t) (h : follows t x = false)
    (rest : List UInt8) :
    fromUtf8Lossy (t ++ x :: rest) = '\uFFFD' :: fromUtf8Lossy (x :: rest) := by
  cases ht with
  | one hb =>
    refine fromUtf8Lossy_cons_of_not hb fun x' hx' => ?_
    obtain rfl := Option.some.inj hx'
    exact Bool.eq_false_iff.mp h
  | @two b x' hb hx =>
    obtain ⟨c, hc, herr⟩ := fromUtf8Lossy_cons_cons (by omega) hx (x :: rest)
    rw [conts_cons_of_isCont (isCont_of_mayFollow hx), conts_cons_of_not (Bool.eq_false_iff.mp h)]
      at hc herr
    rw [herr (by omega), Nat.min_eq_right (by omega)] at hc
    exact hc
  | @three b x' y hb hx hy =>
    obtain ⟨c, hc, herr⟩ := fromUtf8Lossy_cons_cons (by omega) hx (y :: x :: rest)
    rw [conts_cons_of_isCont (isCont_of_mayFollow hx), conts_cons_of_isCont hy,
      conts_cons_of_not (Bool.eq_false_iff.mp h)] at hc herr
    rw [herr (by omega), Nat.min_eq_right (by omega)] at hc
    exact hc

theorem IsCut.follows {t : List UInt8} {x : UInt8} (ht : IsCut t) (h : follows t x = true)
    (rest : List UInt8) : ∃ c k, fromUtf8Lossy (t ++ x :: rest) =
      c :: fromUtf8Lossy ((x :: rest).drop k) ∧ 1 ≤ k ∧ k ≤ conts (x :: rest) := by
  cases ht with
  | @one b hb =>
    obtain ⟨c, hc, -⟩ := fromUtf8Lossy_cons_cons hb h rest
    rw [conts_cons_of_isCont (isCont_of_mayFollow h)] at hc ⊢
    exact ⟨c, _, hc, by omega, Nat.min_le_right _ _⟩
  | @two b x' hb hx =>
    obtain ⟨c, hc, -⟩ := fromUtf8Lossy_cons_cons (by omega) hx (x :: rest)
    rw [conts_cons_of_isCont (isCont_of_mayFollow hx), conts_cons_of_isCont h] at hc
    rw [conts_cons_of_isCont h]
    obtain ⟨k, hk⟩ : ∃ k, min (width b - 1) (conts rest + 1 + 1) = k + 1 := ⟨_, (Nat.sub_add_cancel
      (by omega)).symm⟩
    rw [hk] at hc
    exact ⟨c, k, hc, by omega, by omega⟩
  | @three b x' y hb hx hy =>
    obtain ⟨c, hc, -⟩ := fromUtf8Lossy_cons_cons (by omega) hx (y :: x :: rest)
    rw [conts_cons_of_isCont (isCont_of_mayFollow hx), conts_cons_of_isCont hy,
      conts_cons_of_isCont h, hb, Nat.min_eq_left (by omega)] at hc
    rw [conts_cons_of_isCont h]
    exact ⟨c, 1, hc, Nat.le_refl _, by omega⟩

/-- Each continuation byte at the front is an error of its own. -/
theorem length_fromUtf8Lossy_drop {bs : List UInt8} {k : ℕ} (h : k ≤ conts bs) :
    (fromUtf8Lossy bs).length = k + (fromUtf8Lossy (bs.drop k)).length := by
  induction k generalizing bs with
  | zero => rw [List.drop_zero, Nat.zero_add]
  | succ k ih =>
    cases bs with
    | nil => cases h
    | cons b bs =>
      have hb : isCont b := by
        by_contra hnot
        rw [conts_cons_of_not hnot] at h
        cases h
      rw [conts_cons_of_isCont hb] at h
      rw [fromUtf8Lossy_cons_of_isCont hb, List.length_cons, List.drop_succ_cons,
        ih (Nat.le_of_succ_le_succ h)]
      omega

theorem errorLen_append {a : List UInt8} {n : ℕ} (h : errorLen a = some n) (b : List UInt8) :
    errorLen (a ++ b) = some n := by
  rcases a with _ | ⟨v, _ | ⟨x, _ | ⟨y, _ | ⟨z, rest⟩⟩⟩⟩
  · cases h
  all_goals
    simp only [errorLen, List.cons_append, List.nil_append] at h ⊢
    grind

/-- What begins a character is no error. -/
theorem errorLen_of_prefix {p a : List UInt8} (hp : IsChar p) (h : a <+: p) :
    a = p ∨ errorLen a = none := by
  cases hp with
  | one hb =>
    simp only [List.prefix_cons_iff, List.prefix_nil] at h
    rcases h with rfl | ⟨_, rfl, rfl⟩
    · exact .inr rfl
    · exact .inl rfl
  | two hb hx =>
    simp only [List.prefix_cons_iff, List.prefix_nil] at h
    rcases h with rfl | ⟨_, rfl, rfl | ⟨_, rfl, rfl⟩⟩
    · exact .inr rfl
    · exact .inr (by simp [errorLen, hb])
    · exact .inl rfl
  | three hb hx hy =>
    simp only [List.prefix_cons_iff, List.prefix_nil] at h
    rcases h with rfl | ⟨_, rfl, rfl | ⟨_, rfl, rfl | ⟨_, rfl, rfl⟩⟩⟩
    · exact .inr rfl
    · exact .inr (by simp [errorLen, hb])
    · exact .inr (errorLen_two (by omega) hx)
    · exact .inl rfl
  | four hb hx hy hz =>
    simp only [List.prefix_cons_iff, List.prefix_nil] at h
    rcases h with rfl | ⟨_, rfl, rfl | ⟨_, rfl, rfl | ⟨_, rfl, rfl | ⟨_, rfl, rfl⟩⟩⟩⟩
    · exact .inr rfl
    · exact .inr (by simp [errorLen, hb])
    · exact .inr (errorLen_two (by omega) hx)
    · exact .inr (errorLen_three (by omega) hx hy)
    · exact .inl rfl

theorem head_append_of_errorLen {a : List UInt8} {n : ℕ} (hhead : head a = none)
    (h : errorLen a = some n) (b : List UInt8) : head (a ++ b) = none := by
  refine head_eq_none.mpr fun p hp hpre => ?_
  have hnot := head_eq_none.mp hhead p hp
  have hpa := (List.prefix_or_prefix_of_prefix hpre (List.prefix_append a b)).resolve_left hnot
  rcases errorLen_of_prefix hp hpa with rfl | hnone
  · exact hnot List.prefix_rfl
  · rw [hnone] at h
    cases h

theorem cutTail_of_head {bs : List UInt8} {c : Char} (h : head bs = some c) :
    cutTail bs = cutTail (bs.drop c.utf8Size) := by
  rw [cutTail, if_neg (ne_nil_of_head h)]
  simp only [h]

theorem utf8Size_le_of_head {bs : List UInt8} {c : Char} (h : head bs = some c) :
    c.utf8Size ≤ bs.length := by
  have hlen := (head_eq_some.mp h).length_le
  rwa [String.length_utf8EncodeChar] at hlen

/-- What is decoded of two pieces is decided where the first one is cut. -/
theorem fromUtf8Lossy_append_cut (a b : List UInt8) :
    ∃ done, fromUtf8Lossy a = done ++ fromUtf8Lossy (cutTail a) ∧
      fromUtf8Lossy (a ++ b) = done ++ fromUtf8Lossy (cutTail a ++ b) ∧
      (cutTail a = [] ∨ IsCut (cutTail a) ∧ fromUtf8Lossy (cutTail a) = ['\uFFFD']) := by
  induction a using cutTail.induct with
  | case1 => 
    rw [cutTail, if_pos rfl]
    exact ⟨[], rfl, rfl, .inl rfl⟩
  | case2 a hne c hhead ih =>
    obtain ⟨done, ha, hab, htail⟩ := ih
    rw [cutTail_of_head hhead]
    refine ⟨c :: done, ?_, ?_, htail⟩
    · rw [fromUtf8Lossy_of_head hhead, ha]
      rfl
    · rw [fromUtf8Lossy_of_head (head_append hhead), 
        List.drop_append_of_le_length (utf8Size_le_of_head hhead), hab]
      rfl
  | case3 a hne hhead n herr ih =>
    obtain ⟨done, ha, hab, htail⟩ := ih
    have hspec := errorLen_spec herr
    have htake : cutTail a = cutTail (a.drop n) := by
      rw [cutTail, if_neg hne]
      simp only [hhead, herr, Nat.max_eq_right hspec.1]
    rw [Nat.max_eq_right hspec.1] at ha hab htail
    rw [htake]
    refine ⟨'\uFFFD' :: done, ?_, ?_, htail⟩
    · rw [fromUtf8Lossy_of_errorLen hhead herr, ha]
      rfl
    · rw [fromUtf8Lossy_of_errorLen (head_append_of_errorLen hhead herr b) (errorLen_append herr b),
        List.drop_append_of_le_length hspec.2, hab]
      rfl
  | case4 a hne hhead herr =>
    have htake : cutTail a = a := by
      rw [cutTail, if_neg hne]
      simp only [hhead, herr]
    rw [htake]
    exact ⟨[], rfl, rfl, .inr ⟨isCut_of_errorLen hne hhead herr,
      fromUtf8Lossy_of_cut hne hhead herr⟩⟩

/-- **Pieces that cut no character** make up the whole. -/
theorem fromUtf8Lossy_append {a b : List UInt8}
    (h : ∀ x, b.head? = some x → follows (cutTail a) x = false) :
    fromUtf8Lossy (a ++ b) = fromUtf8Lossy a ++ fromUtf8Lossy b := by
  obtain ⟨done, ha, hab, htail⟩ := fromUtf8Lossy_append_cut a b
  rcases htail with hnil | ⟨hcut, hone⟩
  · rw [hab, ha, hnil, fromUtf8Lossy_nil, List.append_nil]
    rfl
  · rw [hab, ha, hone, List.append_assoc]
    cases b with
    | nil => rw [List.append_nil, hone, fromUtf8Lossy_nil, List.append_nil]
    | cons x b =>
      rw [hcut.not_follows (h x rfl)]
      rfl

/-- **Pieces that cut a character** have more characters. -/
theorem length_fromUtf8Lossy_append_lt {a b : List UInt8} {x : UInt8}
    (h : follows (cutTail a) x = true) : (fromUtf8Lossy (a ++ x :: b)).length <
      (fromUtf8Lossy a).length + (fromUtf8Lossy (x :: b)).length := by
  obtain ⟨done, ha, hab, htail⟩ := fromUtf8Lossy_append_cut a (x :: b)
  rcases htail with hnil | ⟨hcut, hone⟩
  · rw [hnil] at h
    cases h
  · obtain ⟨c, k, hc, hk, hle⟩ := hcut.follows h b
    have hrest := length_fromUtf8Lossy_drop hle
    have hpiece := congrArg List.length ha
    have hwhole := congrArg List.length hab
    rw [hone, List.length_append, List.length_singleton] at hpiece
    rw [hc, List.length_append, List.length_cons] at hwhole
    omega

theorem length_fromUtf8Lossy_append_le (a b : List UInt8) : (fromUtf8Lossy (a ++ b)).length ≤
    (fromUtf8Lossy a).length + (fromUtf8Lossy b).length := by
  by_cases h : ∀ x, b.head? = some x → follows (cutTail a) x = false
  · exact Nat.le_of_eq (by rw [fromUtf8Lossy_append h, List.length_append])
  · cases b with
    | nil => exact absurd (fun x hx => by cases hx) h
    | cons x b =>
      refine Nat.le_of_lt (length_fromUtf8Lossy_append_lt ?_)
      by_contra hnot
      refine h fun x' hx' => ?_
      obtain rfl := Option.some.inj hx'
      exact Bool.eq_false_iff.mpr hnot

/-! ### Pieces of whole characters -/

theorem fromUtf8_of_head {bs : List UInt8} {c : Char} (h : head bs = some c) :
    fromUtf8 bs = (fromUtf8 (bs.drop c.utf8Size)).map (c :: ·) := by
  rw [fromUtf8, if_neg (ne_nil_of_head h)]
  simp only [h]

theorem fromUtf8_of_none {bs : List UInt8} (hne : bs ≠ []) (h : head bs = none) :
    fromUtf8 bs = .error (errorLen bs) := by
  rw [fromUtf8, if_neg hne]
  simp only [h]

/-- A piece of whole characters is cut nowhere, and the next one begins after it. -/
theorem fromUtf8_append_of_ok {a : List UInt8} {cs : List Char} (h : fromUtf8 a = .ok cs)
    (b : List UInt8) : cutTail a = [] ∧ fromUtf8 (a ++ b) = (fromUtf8 b).map (cs ++ ·) := by
  induction a using cutTail.induct generalizing cs with
  | case1 =>
    rw [fromUtf8, if_pos rfl] at h
    obtain rfl := Except.ok.inj h
    refine ⟨by rw [cutTail, if_pos rfl], ?_⟩
    cases hb : fromUtf8 b with
    | ok ds => simp [hb, Except.map]
    | error e => simp [hb, Except.map]
  | case2 a hne c hhead ih =>
    rw [fromUtf8_of_head hhead] at h
    cases hrest : fromUtf8 (a.drop c.utf8Size) with
    | error e =>
      rw [hrest] at h
      cases h
    | ok ds =>
      rw [hrest] at h
      obtain rfl := Except.ok.inj h
      obtain ⟨htail, happend⟩ := ih hrest
      refine ⟨(cutTail_of_head hhead).trans htail, ?_⟩
      rw [fromUtf8_of_head (head_append hhead),
        List.drop_append_of_le_length (utf8Size_le_of_head hhead), happend]
      cases fromUtf8 b <;> rfl
  | case3 a hne hhead n herr ih =>
    rw [fromUtf8_of_none hne hhead] at h
    cases h
  | case4 a hne hhead herr =>
    rw [fromUtf8_of_none hne hhead] at h
    cases h

/-- What is wrong stays wrong. -/
theorem fromUtf8_append_of_error {a : List UInt8} {n : ℕ} (h : fromUtf8 a = .error (some n))
    (b : List UInt8) : fromUtf8 (a ++ b) = .error (some n) := by
  induction a using cutTail.induct with
  | case1 =>
    rw [fromUtf8, if_pos rfl] at h
    cases h
  | case2 a hne c hhead ih =>
    rw [fromUtf8_of_head hhead] at h
    rw [fromUtf8_of_head (head_append hhead),
      List.drop_append_of_le_length (utf8Size_le_of_head hhead)]
    cases hrest : fromUtf8 (a.drop c.utf8Size) with
    | ok ds =>
      rw [hrest] at h
      cases h
    | error e =>
      rw [hrest] at h ih
      obtain rfl := Except.error.inj h
      rw [ih rfl]
      rfl
  | case3 a hne hhead m herr ih =>
    rw [fromUtf8_of_none hne hhead] at h
    rw [fromUtf8_of_none (fun hnil => hne (List.append_eq_nil_iff.mp hnil).1)
      (head_append_of_errorLen hhead herr b), errorLen_append herr b]
    exact herr ▸ h
  | case4 a hne hhead herr =>
    rw [fromUtf8_of_none hne hhead, herr] at h
    cases h

end Utf8

end Mimo26

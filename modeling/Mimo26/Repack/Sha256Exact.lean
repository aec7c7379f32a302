import Mimo26.Library.Fips180
import Mimo26.Repack.Sha256

/-!
# The streaming hasher computes SHA-256

Whatever pieces a byte string is absorbed in, the hasher has compressed its whole blocks and buffers
the rest of it. Padding the rest is padding the string, so the digest is the standard's.

## Main definitions

* `Sha256.Absorbed` — the hasher has absorbed a byte string

## Main results

* `compress_eq` — the compression function is the standard's
* `Sha256.Absorbed.update` — absorbing one more piece
* `finalize_update` — the digest of a byte string absorbed in pieces is the standard's of its bits
-/

namespace Mimo26

namespace Repack

open BitString

/-! ### One block -/

/-- A hash value of the standard. -/
def ShaWords.words (s : ShaWords) : Fips180.Words := ⟨s.a, s.b, s.c, s.d, s.e, s.f, s.g, s.h⟩

set_option maxRecDepth 100000 in
theorem shaK_eq : shaK = (List.range 64).map Fips180.K := by decide

set_option maxRecDepth 100000 in
theorem words_shaH0 : shaH0.words = Fips180.H0 := by decide

/-- The four bytes of a word, as a number. -/
theorem toNat_fromBeBytes (b0 b1 b2 b3 : UInt8) : (fromBeBytes b0 b1 b2 b3).toNat =
    b0.toNat * 2 ^ 24 + b1.toNat * 2 ^ 16 + b2.toNat * 2 ^ 8 + b3.toNat := by
  have h0 := b0.toNat_lt
  have h1 := b1.toNat_lt
  have h2 := b2.toNat_lt
  have h3 := b3.toNat_lt
  have h01 : b0.toNat * 2 ^ 24 ||| b1.toNat * 2 ^ 16 = b0.toNat * 2 ^ 24 + b1.toNat * 2 ^ 16 := by
    rw [Nat.mul_comm, ← Nat.two_pow_add_eq_or_of_lt (by omega)]
  have h012 : (b0.toNat * 2 ^ 24 + b1.toNat * 2 ^ 16) ||| b2.toNat * 2 ^ 8 =
      b0.toNat * 2 ^ 24 + b1.toNat * 2 ^ 16 + b2.toNat * 2 ^ 8 := by
    have hmul : b0.toNat * 2 ^ 24 + b1.toNat * 2 ^ 16 = 2 ^ 16 * (b0.toNat * 2 ^ 8 + b1.toNat) := by
      omega
    rw [hmul, ← Nat.two_pow_add_eq_or_of_lt (by omega)]
  have h0123 : (b0.toNat * 2 ^ 24 + b1.toNat * 2 ^ 16 + b2.toNat * 2 ^ 8) ||| b3.toNat =
      b0.toNat * 2 ^ 24 + b1.toNat * 2 ^ 16 + b2.toNat * 2 ^ 8 + b3.toNat := by
    have hmul : b0.toNat * 2 ^ 24 + b1.toNat * 2 ^ 16 + b2.toNat * 2 ^ 8 =
        2 ^ 8 * (b0.toNat * 2 ^ 16 + b1.toNat * 2 ^ 8 + b2.toNat) := by
      omega
    rw [hmul, ← Nat.two_pow_add_eq_or_of_lt (by omega)]
  have hshift (b : UInt8) (n : UInt32) {k : ℕ} (hn : n.toNat = k) (hk : k ≤ 24) :
      (b.toUInt32 <<< n).toNat = b.toNat * 2 ^ k := by
    have hb := b.toNat_lt
    have hpow : 2 ^ k ≤ 2 ^ 24 := Nat.pow_le_pow_right (by decide) hk
    rw [UInt32.toNat_shiftLeft, hn, Nat.mod_eq_of_lt (by omega : k < 32), Nat.shiftLeft_eq,
      UInt8.toNat_toUInt32, Nat.mod_eq_of_lt]
    calc b.toNat * 2 ^ k ≤ 255 * 2 ^ 24 := Nat.mul_le_mul (by omega) hpow
      _ < 2 ^ 32 := by decide
  rw [fromBeBytes, UInt32.toNat_or, UInt32.toNat_or, UInt32.toNat_or,
    hshift b0 24 (k := 24) rfl (by decide), hshift b1 16 (k := 16) rfl (by decide),
    hshift b2 8 (k := 8) rfl (by decide),
    UInt8.toNat_toUInt32, h01, h012, h0123]

theorem word_ofBytes (b0 b1 b2 b3 : UInt8) (bytes : List UInt8) :
    Fips180.word (ofBytes (b0 :: b1 :: b2 :: b3 :: bytes)) 0 = fromBeBytes b0 b1 b2 b3 := by
  have hbits : ((ofBytes (b0 :: b1 :: b2 :: b3 :: bytes)).drop (32 * 0)).take 32 =
      toBits 8 b0.toNat ++ (toBits 8 b1.toNat ++ (toBits 8 b2.toNat ++ toBits 8 b3.toNat)) := rfl
  rw [← UInt32.toNat_inj, toNat_fromBeBytes, Fips180.word, hbits, ofBits_append, ofBits_append,
    ofBits_append, ofBits_toBits, ofBits_toBits, ofBits_toBits, ofBits_toBits, List.length_append,
    List.length_append, length_toBits, length_toBits, length_toBits]
  have h0 := b0.toNat_lt
  have h1 := b1.toNat_lt
  have h2 := b2.toNat_lt
  have h3 := b3.toNat_lt
  rw [UInt32.toNat_ofNat']
  omega

theorem word_ofBytes_succ (b0 b1 b2 b3 : UInt8) (bytes : List UInt8) (t : ℕ) :
    Fips180.word (ofBytes (b0 :: b1 :: b2 :: b3 :: bytes)) (t + 1) =
      Fips180.word (ofBytes bytes) t := by
  have hdrop : (ofBytes (b0 :: b1 :: b2 :: b3 :: bytes)).drop (32 * (t + 1)) =
      (ofBytes bytes).drop (32 * t) := by
    have hsplit : ofBytes (b0 :: b1 :: b2 :: b3 :: bytes) =
        ofBytes [b0, b1, b2, b3] ++ ofBytes bytes := ofBytes_append [b0, b1, b2, b3] bytes
    have hlen : (ofBytes [b0, b1, b2, b3]).length = 32 := rfl
    rw [hsplit, Nat.mul_succ, Nat.add_comm, ← List.drop_drop, ← hlen, List.drop_left]
  rw [Fips180.word, hdrop]
  rfl

/-- The words of a block. -/
theorem blockWords_eq {k : ℕ} {bytes : List UInt8} (h : bytes.length = 4 * k) :
    blockWords bytes = (List.range k).map (Fips180.word (ofBytes bytes)) := by
  induction k generalizing bytes with
  | zero =>
    rw [List.length_eq_zero_iff.mp h]
    rfl
  | succ k ih =>
    obtain ⟨b0, b1, b2, b3, rest, rfl⟩ : ∃ b0 b1 b2 b3 rest, bytes = b0 :: b1 :: b2 :: b3 :: rest := by
      rcases bytes with _ | ⟨b0, _ | ⟨b1, _ | ⟨b2, _ | ⟨b3, rest⟩⟩⟩⟩
      · simp at h
      · simp only [List.length_cons, List.length_nil] at h
        omega
      · simp only [List.length_cons, List.length_nil] at h
        omega
      · simp only [List.length_cons, List.length_nil] at h
        omega
      · exact ⟨b0, b1, b2, b3, rest, rfl⟩
    have hrest : rest.length = 4 * k := by
      simp only [List.length_cons] at h
      omega
    rw [blockWords, ih hrest, List.range_succ_eq_map, List.map_cons, word_ofBytes, List.map_map]
    exact congrArg _ (List.map_congr_left fun t _ => (word_ofBytes_succ b0 b1 b2 b3 rest t).symm)

/-- The next word of the schedule. -/
theorem nextWord_eq (M : ℕ → UInt32) {n : ℕ} (hn : 16 ≤ n) :
    nextWord ((List.range n).map (Fips180.W M)) = Fips180.W M n := by
  have hget {i : ℕ} (hi : i < n) : ((List.range n).map (Fips180.W M)).getD i 0 = Fips180.W M i := by
    rw [List.getD_eq_getElem?_getD, List.getElem?_map, List.getElem?_range hi]
    rfl
  have hstep : Fips180.W M n = Fips180.smallSigma1 (Fips180.W M (n - 2)) + Fips180.W M (n - 7) +
      Fips180.smallSigma0 (Fips180.W M (n - 15)) + Fips180.W M (n - 16) := by
    rw [Fips180.W, if_neg (by omega)]
  rw [nextWord, List.length_map, List.length_range, hget (by omega : n - 15 < n),
    hget (by omega : n - 2 < n), hget (by omega : n - 16 < n), hget (by omega : n - 7 < n), hstep]
  show Fips180.W M (n - 16) + Fips180.smallSigma0 (Fips180.W M (n - 15)) + Fips180.W M (n - 7) +
    Fips180.smallSigma1 (Fips180.W M (n - 2)) = _
  ac_rfl

/-- The message schedule. -/
theorem schedule_eq {block : List UInt8} (h : block.length = 64) :
    schedule block = (List.range 64).map (Fips180.W (Fips180.word (ofBytes block))) := by
  have hrun (k : ℕ) : (List.range k).foldl (fun w _ => w ++ [nextWord w]) (blockWords block) =
      (List.range (16 + k)).map (Fips180.W (Fips180.word (ofBytes block))) := by
    induction k with
    | zero =>
      rw [List.range_zero, List.foldl_nil, blockWords_eq (k := 16) h]
      refine List.map_congr_left fun t ht => ?_
      rw [Fips180.W, if_pos (List.mem_range.mp ht)]
    | succ k ih =>
      rw [List.range_succ, List.foldl_append, ih, ← Nat.add_assoc, List.range_succ, List.map_append]
      show _ ++ [nextWord _] = _
      rw [nextWord_eq _ (by omega : 16 ≤ 16 + k)]
      rfl
  exact hrun 48

/-- One round. -/
theorem words_shaRound (M : ℕ → UInt32) (s : ShaWords) (t : ℕ) :
    (shaRound s (Fips180.K t, Fips180.W M t)).words = Fips180.step M s.words t := rfl

/-- **The compression function** is the standard's. -/
theorem compress_eq (s : ShaWords) {block : List UInt8} (h : block.length = 64) :
    (compress s block).words = Fips180.compress s.words (ofBytes block) := by
  have hrun (ts : List ℕ) (s : ShaWords) :
      (ts.foldl (fun s t => shaRound s
        (Fips180.K t, Fips180.W (Fips180.word (ofBytes block)) t)) s).words =
        ts.foldl (Fips180.step (Fips180.word (ofBytes block))) s.words := by
    induction ts generalizing s with
    | nil => rfl
    | cons t ts ih => exact ih _
  have hzip : shaK.zip (schedule block) = (List.range 64).map fun t =>
      (Fips180.K t, Fips180.W (Fips180.word (ofBytes block)) t) := by
    rw [shaK_eq, schedule_eq h, List.zip_map']
  have hfold := hrun (List.range 64) s
  rw [compress, hzip, List.foldl_map, Fips180.compress, ← hfold]
  generalize (List.range 64).foldl _ s = v
  simp only [ShaWords.words, UInt32.add_comm]

/-! ### The hasher -/

namespace Sha256

/-- The hasher has compressed the whole blocks of `m` and buffers the rest. -/
structure Absorbed (s : Sha256) (m : List UInt8) : Prop where
  split : ∃ front, m = front ++ s.buf ∧ 64 ∣ front.length ∧ s.buf.length < 64 ∧
    s.h = (pieces 64 front).foldl Repack.compress shaH0

theorem absorbed_new : Absorbed new [] :=
  ⟨[], rfl, Nat.dvd_zero 64, by decide, rfl⟩

/-- A block more. -/
theorem foldl_pieces_block {front block : List UInt8} (hfront : 64 ∣ front.length)
    (hblock : block.length = 64) :
    (pieces 64 (front ++ block)).foldl Repack.compress shaH0 =
      Repack.compress ((pieces 64 front).foldl Repack.compress shaH0) block := by
  have hone : pieces 64 block = [block] := by
    have hpiece := pieces_piece (by decide) hblock []
    rwa [List.append_nil, pieces_of_lt (by decide : ([] : List UInt8).length < 64)] at hpiece
  rw [pieces_append (by decide) hfront, hone, List.foldl_append]
  rfl

/-- Filling the buffer. -/
theorem absorbed_flush {s : Sha256} {front : List UInt8} (hfront : 64 ∣ front.length)
    (hbuf : s.buf.length ≤ 64) (hh : s.h = (pieces 64 front).foldl Repack.compress shaH0) :
    Absorbed s.flush (front ++ s.buf) := by
  rw [flush]
  split
  · next hfull =>
    refine ⟨front ++ s.buf, (List.append_nil _).symm, ?_, Nat.zero_lt_succ 63, ?_⟩
    · rw [List.length_append, hfull]
      exact Nat.dvd_add hfront (Nat.dvd_refl 64)
    · rw [foldl_pieces_block hfront hfull, ← hh]
  · next hnot => exact ⟨front, rfl, hfront, lt_of_le_of_ne hbuf hnot, hh⟩

theorem buf_flush {s : Sha256} (h : s.buf.length = 64) : s.flush.buf = [] := by
  rw [flush, if_pos h]

theorem absorb_nil (s : Sha256) : s.absorb [] = s := by
  rw [Sha256.absorb, if_neg (by decide), if_pos (by decide)]

/-- Whole blocks past an empty buffer. -/
theorem Absorbed.absorb {s : Sha256} {m : List UInt8} (h : Absorbed s m) (hbuf : s.buf = [])
    (data : List UInt8) : Absorbed (s.absorb data) (m ++ data) := by
  induction s, data using Sha256.absorb.induct generalizing m with
  | case1 s data hle ih =>
    obtain ⟨front, hm, hfront, -, hh⟩ := h.split
    rw [hbuf, List.append_nil] at hm
    subst hm
    have htake : (data.take 64).length = 64 := List.length_take_of_le hle
    have hblock : Absorbed { s with h := Repack.compress s.h (data.take 64) }
        (m ++ data.take 64) := by
      refine ⟨m ++ data.take 64, ?_, ?_, ?_, ?_⟩
      · rw [hbuf, List.append_nil]
      · rw [List.length_append, htake]
        exact Nat.dvd_add hfront (Nat.dvd_refl 64)
      · rw [hbuf]
        decide
      · rw [foldl_pieces_block hfront htake, ← hh]
    have hrest := ih hblock hbuf
    rw [List.append_assoc, List.take_append_drop] at hrest
    rw [Sha256.absorb, if_pos hle]
    exact hrest
  | case2 s data hnot hempty =>
    rw [Sha256.absorb, if_neg hnot, if_pos hempty, List.isEmpty_iff.mp hempty, List.append_nil]
    exact h
  | case3 s data hnot hdata =>
    obtain ⟨front, hm, hfront, -, hh⟩ := h.split
    rw [hbuf, List.append_nil] at hm
    rw [Sha256.absorb, if_neg hnot, if_neg hdata]
    exact ⟨front, by rw [hm], hfront, Nat.not_le.mp hnot, hh⟩

/-- **Absorbing** one more piece. -/
theorem Absorbed.update {s : Sha256} {m : List UInt8} (h : Absorbed s m) (data : List UInt8) :
    Absorbed (s.update data) (m ++ data) := by
  have hcount (totalLen : UInt64) : Absorbed { s with totalLen := totalLen } m := ⟨h.split⟩
  rw [Sha256.update]
  dsimp only
  split
  · obtain ⟨front, hm, hfront, hlt, hh⟩ := h.split
    generalize htake : min (64 - s.buf.length) data.length = take
    have hfill : (s.buf ++ data.take take).length ≤ 64 := by
      rw [List.length_append, List.length_take]
      omega
    have hpart := absorbed_flush (s := { s with buf := s.buf ++ data.take take
                                                totalLen := s.totalLen + UInt64.ofNat data.length })
      hfront hfill hh
    rw [← List.append_assoc, ← hm] at hpart
    rcases Nat.lt_or_ge (s.buf ++ data.take take).length 64 with hshort | hfull
    · -- the piece is used up
      have hall : take = data.length := by
        rw [List.length_append, List.length_take] at hshort
        omega
      rw [hall, List.take_length] at hpart ⊢
      rw [List.drop_length, absorb_nil]
      exact hpart
    · have hrest := hpart.absorb (buf_flush (le_antisymm hfill hfull)) (data.drop take)
      rwa [List.append_assoc, List.take_append_drop] at hrest
  · next hempty =>
    have hbuf : s.buf = [] := List.length_eq_zero_iff.mp (by omega)
    exact (hcount (s.totalLen + UInt64.ofNat data.length)).absorb hbuf data

theorem totalLen_flush (s : Sha256) : s.flush.totalLen = s.totalLen := by
  rw [flush]
  split <;> rfl

theorem totalLen_absorb (s : Sha256) (data : List UInt8) :
    (s.absorb data).totalLen = s.totalLen := by
  induction s, data using Sha256.absorb.induct with
  | case1 s data hle ih => rw [Sha256.absorb, if_pos hle, ih]
  | case2 s data hnot hempty => rw [Sha256.absorb, if_neg hnot, if_pos hempty]
  | case3 s data hnot hdata => rw [Sha256.absorb, if_neg hnot, if_neg hdata]

theorem totalLen_update (s : Sha256) (data : List UInt8) :
    (s.update data).totalLen = s.totalLen + UInt64.ofNat data.length := by
  rw [Sha256.update]
  dsimp only
  split
  · rw [totalLen_absorb, totalLen_flush]
  · rw [totalLen_absorb]

/-- The hasher after a byte string in pieces. -/
theorem absorbed_foldl_update (pieces : List (List UInt8)) {s : Sha256} {m : List UInt8}
    (h : Absorbed s m) (hlen : s.totalLen = UInt64.ofNat m.length) :
    Absorbed (pieces.foldl Sha256.update s) (m ++ pieces.flatten) ∧
      (pieces.foldl Sha256.update s).totalLen = UInt64.ofNat (m ++ pieces.flatten).length := by
  induction pieces generalizing s m with
  | nil =>
    rw [List.flatten_nil, List.append_nil]
    exact ⟨h, hlen⟩
  | cons piece pieces ih =>
    rw [List.foldl_cons, List.flatten_cons, ← List.append_assoc]
    refine ih (h.update piece) ?_
    rw [totalLen_update, hlen, List.length_append, UInt64.ofNat_add]

/-! ### Padding -/

theorem Absorbed.length_buf {s : Sha256} {m : List UInt8} (h : Absorbed s m) :
    s.buf.length = m.length % 64 := by
  obtain ⟨front, rfl, hfront, hlt, -⟩ := h.split
  rw [List.length_append]
  omega

theorem Absorbed.updateRaw {s : Sha256} {m : List UInt8} (h : Absorbed s m) (b : UInt8) :
    Absorbed (s.updateRaw b) (m ++ [b]) := by
  obtain ⟨front, rfl, hfront, hlt, hh⟩ := h.split
  rw [List.append_assoc]
  refine absorbed_flush (s := { s with buf := s.buf ++ [b] }) hfront ?_ hh
  rw [List.length_append]
  exact hlt

theorem Absorbed.foldl_updateRaw (bytes : List UInt8) {s : Sha256} {m : List UInt8}
    (h : Absorbed s m) : Absorbed (bytes.foldl Sha256.updateRaw s) (m ++ bytes) := by
  induction bytes generalizing s m with
  | nil => rwa [List.append_nil]
  | cons b bytes ih =>
    have hrest := ih (h.updateRaw b)
    rwa [List.append_assoc] at hrest

theorem totalLen_updateRaw (s : Sha256) (b : UInt8) : (s.updateRaw b).totalLen = s.totalLen :=
  totalLen_flush _

/-- The zero bytes after the `0x80`, by the length so far. -/
def zeroBytes (l : ℕ) : ℕ := (120 - l % 64) % 64

/-- The loop adds zeros as long as the buffer needs them. -/
theorem absorbed_padZeros {s : Sha256} {m : List UInt8} (h : Absorbed s m) :
    Absorbed s.padZeros (m ++ List.replicate (zeroBytes m.length) 0) := by
  have hrun (j : ℕ) : Absorbed ((List.range j).foldl
      (fun s _ => if s.buf.length ≠ 56 then s.updateRaw 0 else s) s)
      (m ++ List.replicate (min j (zeroBytes m.length)) 0) := by
    induction j with
    | zero =>
      rw [Nat.zero_min, List.replicate_zero, List.append_nil]
      exact h
    | succ j ih =>
      rw [List.range_succ, List.foldl_append, List.foldl_cons, List.foldl_nil]
      have hbuf := ih.length_buf
      rw [List.length_append, List.length_replicate] at hbuf
      rcases Nat.lt_or_ge j (zeroBytes m.length) with hlt | hge
      · have hmin : min (j + 1) (zeroBytes m.length) = min j (zeroBytes m.length) + 1 := by omega
        rw [if_pos, hmin, List.replicate_succ', ← List.append_assoc]
        · exact ih.updateRaw 0
        · rw [hbuf, Nat.min_eq_left (le_of_lt hlt)]
          rw [zeroBytes] at hlt
          omega
      · have hmin : min (j + 1) (zeroBytes m.length) = min j (zeroBytes m.length) := by omega
        rw [if_neg, hmin]
        · exact ih
        · rw [hbuf, Nat.min_eq_right hge, zeroBytes]
          omega
  have hall := hrun 63
  have hmin : min 63 (zeroBytes m.length) = zeroBytes m.length := by
    rw [zeroBytes]
    omega
  rwa [hmin] at hall

theorem ofBytes_toBeBytes (x : UInt32) : ofBytes (toBeBytes x) = toBits 32 x.toNat := by
  have hbyte (n : UInt32) {k : ℕ} (hn : n.toNat = k) (hk : k < 32) :
      toBits 8 (x >>> n).toUInt8.toNat = toBits 8 (x.toNat / 2 ^ k) := by
    rw [UInt32.toNat_toUInt8, UInt32.toNat_shiftRight, hn, Nat.mod_eq_of_lt hk,
      Nat.shiftRight_eq_div_pow]
    exact toBits_mod (le_refl 8) _
  have hlast : toBits 8 x.toUInt8.toNat = toBits 8 x.toNat := by
    rw [UInt32.toNat_toUInt8]
    exact toBits_mod (le_refl 8) _
  have h16 : toBits 16 x.toNat = toBits 8 (x.toNat / 2 ^ 8) ++ toBits 8 x.toNat :=
    toBits_add 8 8 x.toNat
  have h24 : toBits 24 x.toNat = toBits 8 (x.toNat / 2 ^ 16) ++ toBits 16 x.toNat :=
    toBits_add 8 16 x.toNat
  have h32 : toBits 32 x.toNat = toBits 8 (x.toNat / 2 ^ 24) ++ toBits 24 x.toNat :=
    toBits_add 8 24 x.toNat
  rw [h32, h24, h16, ← hbyte 24 (k := 24) rfl (by decide), ← hbyte 16 (k := 16) rfl (by decide),
    ← hbyte 8 (k := 8) rfl (by decide), ← hlast]
  rfl

theorem ofBytes_lenBytes (x : UInt64) : ofBytes (lenBytes x) = toBits 64 x.toNat := by
  have hhigh : toBits 32 (x >>> 32).toUInt32.toNat = toBits 32 (x.toNat / 2 ^ 32) := by
    have hshift : (x >>> 32).toNat = x.toNat / 2 ^ 32 := by
      rw [UInt64.toNat_shiftRight, Nat.shiftRight_eq_div_pow]
      rfl
    rw [UInt64.toNat_toUInt32, hshift]
    exact toBits_mod (le_refl 32) _
  have hlow : toBits 32 x.toUInt32.toNat = toBits 32 x.toNat := by
    rw [UInt64.toNat_toUInt32]
    exact toBits_mod (le_refl 32) _
  have h64 : toBits 64 x.toNat = toBits 32 (x.toNat / 2 ^ 32) ++ toBits 32 x.toNat :=
    toBits_add 32 32 x.toNat
  rw [lenBytes, ofBytes_append, ofBytes_toBeBytes, ofBytes_toBeBytes, hhigh, hlow, h64]

/-- The padding bytes are the standard's padding of the bits. -/
theorem ofBytes_pad {m : List UInt8} (hm : m.length < 2 ^ 61) :
    ofBytes (m ++ [0x80] ++ List.replicate (zeroBytes (m.length + 1)) 0 ++
      lenBytes (UInt64.ofNat m.length * 8)) = Fips180.pad (ofBytes m) := by
  have hone : ofBytes [0x80] = true :: List.replicate 7 false := by decide
  have hzeros : Fips180.zeros (8 * m.length) = 7 + 8 * zeroBytes (m.length + 1) := by
    rw [Fips180.zeros, zeroBytes]
    omega
  have hlen : (UInt64.ofNat m.length * 8).toNat = 8 * m.length := by
    have hsize : UInt64.size = 2 ^ 64 := rfl
    rw [UInt64.toNat_mul, UInt64.toNat_ofNat_of_lt' (by omega)]
    show m.length * 8 % 2 ^ 64 = 8 * m.length
    omega
  rw [ofBytes_append, ofBytes_append, ofBytes_append, hone, ofBytes_replicate_zero,
    ofBytes_lenBytes, hlen, Fips180.pad, length_ofBytes, hzeros, List.replicate_add,
    List.append_assoc, List.append_assoc, List.append_assoc, List.append_assoc, List.append_assoc]
  rfl

/-- The blocks of the padded string, compressed. -/
theorem words_foldl_compress (blocks : List (List UInt8)) (hblocks : ∀ b ∈ blocks, b.length = 64)
    (s : ShaWords) : (blocks.foldl Repack.compress s).words =
      (blocks.map ofBytes).foldl Fips180.compress s.words := by
  induction blocks generalizing s with
  | nil => rfl
  | cons block blocks ih =>
    obtain ⟨hblock, hrest⟩ := List.forall_mem_cons.mp hblocks
    rw [List.foldl_cons, ih hrest, compress_eq s hblock]
    rfl

/-- The words of a hash value as bytes. -/
theorem ofBytes_digest (s : ShaWords) :
    ofBytes ([s.a, s.b, s.c, s.d, s.e, s.f, s.g, s.h].flatMap toBeBytes) = s.words.toBits := by
  have hwords (ws : List UInt32) :
      ofBytes (ws.flatMap toBeBytes) = ws.flatMap fun w => toBits 32 w.toNat := by
    induction ws with
    | nil => rfl
    | cons w ws ih =>
      rw [List.flatMap_cons, List.flatMap_cons, ofBytes_append, ofBytes_toBeBytes, ih]
  exact hwords _

/-- A hasher that has absorbed whole blocks has compressed them all. -/
theorem Absorbed.words_h {s : Sha256} {m : List UInt8} (h : Absorbed s m) (hm : 64 ∣ m.length) :
    s.h.words = (BitString.pieces 512 (ofBytes m)).foldl Fips180.compress Fips180.H0 := by
  have hbuf : s.buf = [] := by
    have hlen := h.length_buf
    exact List.length_eq_zero_iff.mp (by omega)
  obtain ⟨front, hfront, -, -, hh⟩ := h.split
  rw [hbuf, List.append_nil] at hfront
  subst hfront
  have hblocks : ∀ b ∈ BitString.pieces 64 m, b.length = 64 := by
    intro b hb
    obtain ⟨i, hi, rfl⟩ := List.mem_map.mp hb
    have hi := List.mem_range.mp hi
    rw [List.length_take, List.length_drop]
    omega
  have hbits : BitString.pieces 512 (ofBytes m) = (BitString.pieces 64 m).map ofBytes :=
    pieces_ofBytes (Nat.zero_lt_succ 63) m
  rw [hh, words_foldl_compress _ hblocks, hbits, words_shaH0]

end Sha256

open Sha256

/-- **The digest** of a byte string is the standard's of its bits, in whatever pieces it is
absorbed. -/
theorem finalize_update (pieces : List (List UInt8)) (hlen : pieces.flatten.length < 2 ^ 61) :
    ofBytes (pieces.foldl Sha256.update Sha256.new).finalize =
      Fips180.sha256 (ofBytes pieces.flatten) := by
  obtain ⟨habsorbed, htotal⟩ := absorbed_foldl_update pieces absorbed_new rfl
  rw [List.nil_append] at habsorbed htotal
  generalize pieces.foldl Sha256.update Sha256.new = s at habsorbed htotal ⊢
  generalize pieces.flatten = m at habsorbed htotal hlen ⊢
  have hpadded := (absorbed_padZeros (habsorbed.updateRaw 0x80)).foldl_updateRaw
    (lenBytes (UInt64.ofNat m.length * 8))
  have hone : (m ++ [0x80]).length = m.length + 1 := List.length_append
  have hblocks : 64 ∣ (m ++ [0x80] ++ List.replicate (zeroBytes (m.length + 1)) 0 ++
      lenBytes (UInt64.ofNat m.length * 8)).length := by
    have hbits := Fips180.length_pad (ofBytes m)
    rw [← ofBytes_pad hlen, length_ofBytes] at hbits
    omega
  rw [hone] at hpadded
  rw [finalize, htotal, ofBytes_digest, hpadded.words_h hblocks, ofBytes_pad hlen, Fips180.sha256]

/-- A string of three bytes in two pieces. -/
theorem finalize_update_abc :
    ofBytes (([[0x61], [0x62, 0x63]] : List (List UInt8)).foldl Sha256.update Sha256.new).finalize =
      Fips180.sha256 (ofBytes ([[0x61], [0x62, 0x63]] : List (List UInt8)).flatten) :=
  finalize_update _ (by decide)

end Repack

end Mimo26

import Mathlib.Data.List.Zip
import Mimo26.Image.Inflate
import Mimo26.Image.Rfc1951
import Mimo26.Library.Result

/-!
# The tables of a code

`Huffman.new` takes the sets of lengths that zlib takes, and its tables are those of their canonical
code: the symbols by their places in the order of the codes, and in the table of ten bits the symbols
whose codes the entry begins with. An entry that is zero says nothing; the walk over the bits finds
its code, if there is one.

## Main definitions

* `counts` — how many codes there are of each length
* `Tables` — the tables of a set of lengths

## Main results

* `leftOver_counts` — the codes of the lengths fit, or the set is turned down
* `new_spec` — which sets are taken, and their tables
* `fixedTables_spec` — the fixed codes
-/

namespace Mimo26

namespace Image

open PrefixCode Result

namespace Huffman

/-! ### Tables of numbers -/

/-- How many codes there are of each length. -/
def counts (lengths : List ℕ) : List ℕ := (List.range 16).map (lengthCount lengths)

theorem cell?_eq_ok {xs : List ℕ} {i x : ℕ} (h : xs[i]? = some x) : cell? xs i = .ok x := by
  rw [cell?, h]

theorem cell?_map_range {n l : ℕ} (f : ℕ → ℕ) (h : l < n) :
    cell? ((List.range n).map f) l = .ok (f l) := by
  refine cell?_eq_ok ?_
  rw [List.getElem?_map, List.getElem?_range h, Option.map_some]

theorem set_map_range {n : ℕ} (f : ℕ → ℕ) (l v : ℕ) :
    ((List.range n).map f).set l v = (List.range n).map (Function.update f l v) := by
  refine List.ext_getElem (by simp) fun i hi _ => ?_
  rw [List.getElem_set, List.getElem_map, List.getElem_map, List.getElem_range,
    Function.update_apply]
  by_cases h : l = i
  · rw [if_pos h, if_pos h.symm]
  · rw [if_neg h, if_neg (Ne.symm h)]

theorem foldlM_count {lengths : List ℕ} (h : ∀ l ∈ lengths, l ≤ 15) (f : ℕ → ℕ) :
    lengths.foldlM (fun count l => do
      let c ← cell? count l
      pure (count.set l (c + 1))) ((List.range 16).map f) =
        .ok ((List.range 16).map fun l => f l + lengths.count l) := by
  induction lengths generalizing f with
  | nil => simp [pure, Except.pure]
  | cons x lengths ih =>
    rw [List.forall_mem_cons] at h
    rw [List.foldlM_cons, cell?_map_range f (show x < 16 by omega)]
    refine (congrArg (fun count => List.foldlM _ count lengths) (set_map_range f x (f x + 1))).trans
      ((ih h.2 _).trans (congrArg (fun g => Except.ok ((List.range 16).map g)) ?_))
    funext l
    rw [Function.update_apply, List.count_cons]
    by_cases hl : l = x
    · subst hl
      simp
      omega
    · simp [hl, Ne.symm hl]

theorem countLengths_eq {lengths : List ℕ} (h : ∀ l ∈ lengths, l ≤ 15) :
    countLengths lengths = .ok (counts lengths) := by
  have hzero : List.replicate 16 0 = (List.range 16).map fun _ => 0 := rfl
  rw [countLengths, hzero, foldlM_count h]
  refine congrArg Except.ok ((set_map_range _ 0 0).trans (List.map_congr_left fun l _ => ?_))
  rw [Function.update_apply, lengthCount, Nat.zero_add]

theorem getElem?_counts {lengths : List ℕ} {l : ℕ} (h : l ≤ 15) :
    (counts lengths)[l]? = some (lengthCount lengths l) := by
  rw [counts, List.getElem?_map, List.getElem?_range (by omega), Option.map_some]

/-! ### Which lengths are taken -/

theorem foldlM_leftOver (count : ℕ → ℕ) (n l : ℕ) (hl : used count l ≤ 2 ^ l) :
    ((List.range' (l + 1) n).map count).foldlM (fun (left : ℤ) (c : ℕ) =>
      let left := 2 * left - c
      if left < 0 then .error (.error ⟨"PNG image data: over-subscribed Huffman code"⟩)
      else .ok left) (2 ^ l - used count l : ℤ) =
        if used count (l + n) ≤ 2 ^ (l + n) then .ok (2 ^ (l + n) - used count (l + n) : ℤ)
        else (.error (.error ⟨"PNG image data: over-subscribed Huffman code"⟩) : Except Stop ℤ) := by
  induction n generalizing l with
  | zero => exact (if_pos hl).symm
  | succ n ih =>
    have hstep : (2 * (2 ^ l - used count l) - count (l + 1) : ℤ) =
        2 ^ (l + 1) - used count (l + 1) := by
      rw [used_succ, pow_succ]
      push_cast
      ring
    rw [List.range'_succ, List.map_cons, List.foldlM_cons]
    dsimp only
    rw [hstep]
    by_cases hused : used count (l + 1) ≤ 2 ^ (l + 1)
    · have hnext := ih (l + 1) hused
      rw [show l + 1 + n = l + (n + 1) by omega] at hnext
      rw [if_neg (by have : (used count (l + 1) : ℤ) ≤ 2 ^ (l + 1) := by exact_mod_cast hused
                     omega), ← hnext]
      exact_mod_cast rfl
    · have hall : ¬ used count (l + (n + 1)) ≤ 2 ^ (l + (n + 1)) := fun hle =>
        hused (used_le count (by omega) hle)
      rw [if_neg hall, if_pos (by have : (2 ^ (l + 1) : ℤ) < used count (l + 1) := by
                                    exact_mod_cast Nat.lt_of_not_le hused
                                  omega)]
      rfl

/-- **The codes of the lengths fit**, or there are too many. -/
theorem leftOver_counts (lengths : List ℕ) :
    leftOver (counts lengths) =
      if used (lengthCount lengths) 15 ≤ 2 ^ 15 then
        .ok (2 ^ 15 - used (lengthCount lengths) 15 : ℤ)
      else .error (.error ⟨"PNG image data: over-subscribed Huffman code"⟩) := by
  exact foldlM_leftOver (lengthCount lengths) 15 0 (Nat.zero_le _)

/-- The codes of 15 bits that begin with a code are the shares of the codes. -/
theorem used_lengthCount {lengths : List ℕ} (h : ∀ l ∈ lengths, l ≤ 15) :
    used (lengthCount lengths) 15 = Rfc1951.kraft lengths := by
  induction lengths with
  | nil => rfl
  | cons x lengths ih =>
    rw [List.forall_mem_cons] at h
    rw [lengthCount_cons, used_add, ih h.2, used_singleton, Rfc1951.kraft, Rfc1951.kraft, List.filter_cons]
    by_cases hx : x = 0
    · simp [hx]
    · simp [hx, h.1]

/-- The last number up to `n` with a property. -/
theorem find?_last (p : ℕ → Bool) (n : ℕ) :
    (∃ m, (List.range' 1 n).reverse.find? p = some m ∧ 1 ≤ m ∧ m ≤ n ∧ p m ∧
      ∀ l, m < l → l ≤ n → ¬ p l) ∨
    (List.range' 1 n).reverse.find? p = none ∧ ∀ l, 1 ≤ l → l ≤ n → ¬ p l := by
  induction n with
  | zero => exact .inr ⟨rfl, fun l h1 h0 => absurd h0 (by omega)⟩
  | succ n ih =>
    rw [List.range'_concat, List.reverse_append, List.reverse_singleton, List.singleton_append,
      Nat.one_mul, Nat.add_comm 1 n]
    by_cases hp : p (n + 1)
    · rw [List.find?_cons_of_pos hp]
      exact .inl ⟨n + 1, rfl, by omega, Nat.le_refl _, hp, fun l hlt hle => by omega⟩
    · rw [List.find?_cons_of_neg hp]
      rcases ih with ⟨m, hm, h1, hle, hpm, hlast⟩ | ⟨hnone, hall⟩
      · refine .inl ⟨m, hm, h1, by omega, hpm, fun l hlt hl => ?_⟩
        rcases Nat.le_succ_iff.mp hl with hl | rfl
        · exact hlast l hlt hl
        · exact hp
      · refine .inr ⟨hnone, fun l h1 hl => ?_⟩
        rcases Nat.le_succ_iff.mp hl with hl | rfl
        · exact hall l h1 hl
        · exact hp

/-- The largest length, if there is one. -/
theorem exists_max {lengths : List ℕ} (h : ∀ l ∈ lengths, l ≤ 15) :
    ∃ max, ((List.range' 1 15).reverse.find? fun l => (counts lengths)[l]? ≠ some 0).getD 0 = max ∧
      ∀ m, max ≤ m ↔ ∀ l ∈ lengths, l ≤ m := by
  have hmem {l : ℕ} (h1 : 1 ≤ l) (hl : l ≤ 15) :
      decide ((counts lengths)[l]? ≠ some 0) = true ↔ l ∈ lengths := by
    rw [getElem?_counts hl, lengthCount, if_neg (by omega)]
    simp [List.count_eq_zero]
  refine ⟨_, rfl, fun m => ?_⟩
  rcases find?_last (fun l => (counts lengths)[l]? ≠ some 0) 15 with
    ⟨max, hfind, h1, hle, hmax, hlast⟩ | ⟨hfind, hall⟩
  · rw [hfind, Option.getD_some]
    rw [hmem h1 hle] at hmax
    refine ⟨fun hm l hl => ?_, fun hall => hall max hmax⟩
    by_contra hlt
    exact hlast l (by omega) (h l hl) ((hmem (by omega) (h l hl)).mpr hl)
  · rw [hfind, Option.getD_none]
    refine ⟨fun _ l hl => ?_, fun _ => Nat.zero_le m⟩
    by_contra hlt
    exact hall l (by omega) (h l hl) ((hmem (by omega) (h l hl)).mpr hl)

/-! ### The symbols in the order of the codes -/

theorem foldlM_offsets (count : ℕ → ℕ) (n l : ℕ) (hl : l + n < 16) (f : ℕ → ℕ)
    (hf : ∀ m ≤ l, f m = PrefixCode.index count m) :
    ∃ g, (List.range' l n).foldlM (fun offs len => do
      let o ← cell? offs len
      let c ← cell? ((List.range 16).map count) len
      pure (offs.set (len + 1) (o + c))) ((List.range 16).map f) = .ok ((List.range 16).map g) ∧
      ∀ m ≤ l + n, g m = PrefixCode.index count m := by
  induction n generalizing l f with
  | zero => exact ⟨f, rfl, hf⟩
  | succ n ih =>
    obtain ⟨g, hrun, hg⟩ := ih (l + 1) (by omega) (Function.update f (l + 1) (f l + count l)) (by
      intro m hm
      rw [Function.update_apply]
      split
      · next h => rw [h, hf l (Nat.le_refl l)]; rfl
      · exact hf m (by omega))
    refine ⟨g, ?_, fun m hm => hg m (by omega)⟩
    rw [List.range'_succ, List.foldlM_cons, cell?_map_range f (by omega),
      cell?_map_range count (by omega)]
    exact (congrArg (fun offs => List.foldlM _ offs _) (set_map_range f (l + 1) _)).trans hrun

/-- Where the symbols of each length begin. -/
theorem offsets_counts (lengths : List ℕ) :
    ∃ offs, offsets (counts lengths) = .ok ((List.range 16).map offs) ∧
      ∀ l ≤ 15, offs l = PrefixCode.index (lengthCount lengths) l := by
  refine foldlM_offsets (lengthCount lengths) 14 1 (by omega) (fun _ => 0) fun m hm => ?_
  match m, hm with
  | 0, _ => rfl
  | 1, _ => rfl

/-- The symbols below `n` are at their places, and those to come go after them. -/
structure Sorted (lengths : List ℕ) (n : ℕ) (symbols : List ℕ) (offs : ℕ → ℕ) : Prop where
  length : symbols.length = lengths.length
  offs : ∀ l ≤ 15, l ≠ 0 → offs l = rank lengths l n
  symbol : ∀ s < n, ∀ l ≠ 0, lengths[s]? = some l → symbols[rank lengths l s]? = some s

/-- One more symbol. -/
theorem Sorted.push {lengths symbols : List ℕ} {n x : ℕ} {offs : ℕ → ℕ}
    (h : Sorted lengths n symbols offs) (hn : lengths[n]? = some x) (hx : x ≠ 0) :
    Sorted lengths (n + 1) (symbols.set (rank lengths x n) n)
      (Function.update offs x (rank lengths x n + 1)) := by
  constructor
  · rw [List.length_set, h.length]
  · intro l hl hne
    rw [Function.update_apply]
    split
    · next heq =>
      rw [heq, rank, rank, occ_succ hn]
      rfl
    · next hneq => rw [h.offs l hl hne, rank, rank, occ_succ_of_ne hn (Ne.symm hneq)]
  · intro s hs l hne hl
    rcases Nat.lt_succ_iff_lt_or_eq.mp hs with hlt | rfl
    · have hapart : rank lengths x n ≠ rank lengths l s := fun heq =>
        hlt.ne' (rank_inj hx hne hn hl heq)
      rw [List.getElem?_set_ne hapart]
      exact h.symbol s hlt l hne hl
    · obtain rfl := Option.some.inj (hn.symm.trans hl)
      refine List.getElem?_set_self ?_
      rw [h.length]
      exact rank_lt hx hn

/-- A symbol without a code. -/
theorem Sorted.skip {lengths symbols : List ℕ} {n : ℕ} {offs : ℕ → ℕ}
    (h : Sorted lengths n symbols offs) (hn : lengths[n]? = some 0) :
    Sorted lengths (n + 1) symbols offs := by
  refine ⟨h.length, fun l hl hne => ?_, fun s hs l hne hl => ?_⟩
  · rw [h.offs l hl hne, rank, rank, occ_succ_of_ne hn (Ne.symm hne)]
  · rcases Nat.lt_succ_iff_lt_or_eq.mp hs with hlt | rfl
    · exact h.symbol s hlt l hne hl
    · exact absurd (Option.some.inj (hn.symm.trans hl)) (Ne.symm hne)

theorem foldlM_sort {lengths : List ℕ} (hsmall : lengths.length ≤ 2 ^ 16)
    (h15 : ∀ l ∈ lengths, l ≤ 15) (rest : List ℕ) (n : ℕ) (hrest : lengths.drop n = rest)
    (symbols : List ℕ) (offs : ℕ → ℕ) (hsorted : Sorted lengths n symbols offs) :
    ∃ symbols' offs', (rest.zipIdx n).foldlM (fun (sorted : List ℕ × List ℕ) sym =>
      if sym.1 ≠ 0 then do
        let o ← cell? sorted.2 sym.1
        if o < sorted.1.length then
          pure (sorted.1.set o (sym.2 % 2 ^ 16), sorted.2.set sym.1 (o + 1))
        else .error .panic
      else pure sorted) (symbols, (List.range 16).map offs) =
        .ok (symbols', (List.range 16).map offs') ∧
      Sorted lengths (n + rest.length) symbols' offs' := by
  induction rest generalizing n symbols offs with
  | nil => exact ⟨symbols, offs, rfl, hsorted⟩
  | cons x rest ih =>
    have hn : lengths[n]? = some x := by
      rw [← Nat.add_zero n, ← List.getElem?_drop, hrest]
      rfl
    have hlt : n < lengths.length := (List.getElem?_eq_some_iff.mp hn).1
    have hnext : lengths.drop (n + 1) = rest := by
      rw [← List.drop_drop, hrest]
      rfl
    have hx : x ≤ 15 := h15 x (List.mem_of_getElem? hn)
    rw [List.zipIdx_cons, List.foldlM_cons, List.length_cons,
      show n + (rest.length + 1) = n + 1 + rest.length by omega]
    by_cases hzero : x = 0
    · subst hzero
      exact ih (n + 1) hnext symbols offs (hsorted.skip hn)
    · obtain ⟨symbols', offs', hrun, hdone⟩ := ih (n + 1) hnext _ _ (hsorted.push hn hzero)
      refine ⟨symbols', offs', ?_, hdone⟩
      rw [if_pos hzero, cell?_map_range offs (by omega), hsorted.offs x hx hzero]
      show (if rank lengths x n < symbols.length then
        (pure (symbols.set _ (n % 2 ^ 16), ((List.range 16).map offs).set x _) : Except Stop _)
        else .error .panic) >>= _ = _
      rw [if_pos (hsorted.length ▸ rank_lt hzero hn), set_map_range,
        Nat.mod_eq_of_lt (hlt.trans_le hsmall)]
      exact hrun

/-- **The symbols are at their places.** -/
theorem sortSymbols_spec {lengths : List ℕ} (hsmall : lengths.length ≤ 2 ^ 16)
    (h15 : ∀ l ∈ lengths, l ≤ 15) {offs : ℕ → ℕ}
    (hoffs : ∀ l ≤ 15, offs l = PrefixCode.index (lengthCount lengths) l) :
    ∃ symbols, sortSymbols lengths ((List.range 16).map offs) = .ok symbols ∧
      ∀ s l, l ≠ 0 → lengths[s]? = some l → symbols[rank lengths l s]? = some s := by
  obtain ⟨symbols, offs', hrun, hsorted⟩ := foldlM_sort hsmall h15 lengths 0 rfl
    (List.replicate lengths.length 0) offs ⟨List.length_replicate, fun l hl _ => hoffs l hl,
      fun s hs => absurd hs (Nat.not_lt_zero s)⟩
  refine ⟨symbols, ?_, fun s l hne hl => ?_⟩
  · rw [sortSymbols, hrun]
    rfl
  · have hlt := (List.getElem?_eq_some_iff.mp hl).1
    exact hsorted.symbol s (by omega) l hne hl

/-! ### The table -/

theorem reverseBits_lt (n code : ℕ) : reverseBits n code < 2 ^ n := by
  induction n generalizing code with
  | zero => exact Nat.one_pos
  | succ n ih =>
    have hrest := ih (code / 2)
    have hbit : code % 2 * 2 ^ n ≤ 1 * 2 ^ n := Nat.mul_le_mul_right _ (by omega)
    rw [reverseBits, pow_succ]
    omega

theorem reverseBits_zero (n : ℕ) : reverseBits n 0 = 0 := by
  induction n with
  | zero => rfl
  | succ n ih => rw [reverseBits, Nat.zero_mod, Nat.zero_mul, Nat.zero_div, ih]

/-- The bits of a shorter code come first. -/
theorem reverseBits_add (n k code : ℕ) :
    reverseBits (n + k) code = reverseBits n code * 2 ^ k + reverseBits k (code / 2 ^ n) := by
  induction n generalizing code with
  | zero => rw [reverseBits, Nat.zero_add, Nat.zero_mul, Nat.zero_add, pow_zero, Nat.div_one]
  | succ n ih =>
    rw [show n + 1 + k = n + k + 1 by omega, reverseBits, ih, reverseBits, Nat.div_div_eq_div_mul,
      ← pow_succ', pow_add]
    ring

theorem reverseBits_shift {n code : ℕ} (hn : n ≤ 32) (hcode : code < 2 ^ n) :
    reverseBits 32 code >>> (32 - n) = reverseBits n code := by
  have hadd := reverseBits_add n (32 - n) code
  rw [Nat.add_sub_cancel' hn, Nat.div_eq_of_lt hcode, reverseBits_zero, Nat.add_zero] at hadd
  rw [hadd, Nat.shiftRight_eq_div_pow, Nat.mul_div_cancel _ (Nat.two_pow_pos _)]

/-- A code, least significant bit first, is read back most significant bit first. -/
theorem value_reverseBits {n code : ℕ} (h : code < 2 ^ n) :
    value (reverseBits n code).testBit n = code := by
  induction n generalizing code with
  | zero => exact (Nat.lt_one_iff.mp h).symm
  | succ n ih =>
    have hlow : ∀ i < n, (reverseBits (n + 1) code).testBit i =
        (reverseBits n (code / 2)).testBit i := by
      intro i hi
      rw [reverseBits, Nat.mul_comm, Nat.testBit_two_pow_mul_add _ (reverseBits_lt _ _), if_pos hi]
    have hhigh : (reverseBits (n + 1) code).testBit n = decide (code % 2 = 1) := by
      rw [reverseBits, Nat.mul_comm, Nat.testBit_two_pow_mul_add _ (reverseBits_lt _ _),
        if_neg (Nat.lt_irrefl n), Nat.sub_self, Nat.testBit_zero, Nat.mod_mod]
    rw [value, value_congr _ hlow, ih (by rw [pow_succ] at h; omega), hhigh]
    rcases Nat.mod_two_eq_zero_or_one code with hbit | hbit
    · rw [hbit, decide_eq_false (by omega)]
      show 2 * (code / 2) + 0 = code
      omega
    · rw [hbit, decide_eq_true rfl]
      show 2 * (code / 2) + 1 = code
      omega

theorem length_fillFast (fast : List ℕ) (entry len i : ℕ) :
    (fillFast fast entry len i).length = fast.length := by
  fun_induction fillFast fast entry len i with
  | case1 fast i _ ih => rw [ih, List.length_set]
  | case2 => rfl

/-- An entry is what it was, or the one the loop writes. -/
theorem getElem?_fillFast {fast : List ℕ} {entry len i x e : ℕ}
    (h : (fillFast fast entry len i)[x]? = some e) :
    fast[x]? = some e ∨ e = entry ∧ x % 2 ^ len = i % 2 ^ len := by
  fun_induction fillFast fast entry len i with
  | case1 fast i hi ih =>
    rcases ih h with hset | ⟨he, hx⟩
    · rw [List.getElem?_set] at hset
      split at hset
      · next heq =>
        subst heq
        exact .inr ⟨(Option.some.inj hset).symm, rfl⟩
      · exact .inl hset
    · exact .inr ⟨he, by rw [hx, Nat.add_mod_right]⟩
  | case2 => exact .inl h

/-- An entry for the bits `x` is zero, or a symbol whose code they begin with. -/
def Entry (lengths : List ℕ) (x e : ℕ) : Prop :=
  e ≠ 0 → ∃ l s, 1 ≤ l ∧ l ≤ 10 ∧ lengths[s]? = some l ∧ code lengths l s = value x.testBit l ∧
    e = 16 * s + l

/-- The tables of a set of lengths. -/
structure Tables (h : Huffman) (lengths : List ℕ) : Prop where
  count : h.count = counts lengths
  fast : h.fast.length = 2 ^ fastBits
  entry : ∀ x e, h.fast[x]? = some e → Entry lengths x e
  symbol : ∀ s l, l ≠ 0 → lengths[s]? = some l → h.symbols[rank lengths l s]? = some s

/-- The table as far as the codes of length `l` before the `j`-th. -/
structure Filled (lengths : List ℕ) (l j : ℕ) (s : Fill) : Prop where
  fast : s.fast.length = 2 ^ fastBits
  entry : ∀ x e, s.fast[x]? = some e → Entry lengths x e
  code : s.code = first (lengthCount lengths) l + j
  k : s.k = PrefixCode.index (lengthCount lengths) l + j

variable {lengths symbols : List ℕ}

/-- **A code of a length.** -/
theorem fillCode_spec (hsmall : lengths.length ≤ 2 ^ 12)
    (hsymbols : ∀ s l, l ≠ 0 → lengths[s]? = some l → symbols[rank lengths l s]? = some s)
    {l j : ℕ} (h1 : 1 ≤ l) (h15 : l ≤ 15) (hused : used (lengthCount lengths) l ≤ 2 ^ l)
    (hj : j < lengthCount lengths l) {s : Fill} (hs : Filled lengths l j s) :
    ∃ s', fillCode symbols l s = .ok s' ∧ Filled lengths l (j + 1) s' := by
  have hcount : lengthCount lengths l = lengths.count l := if_neg (by omega)
  obtain ⟨sym, hsym, hocc⟩ := exists_occ (hcount ▸ hj)
  have hcode : s.code = PrefixCode.code lengths l sym := by rw [hs.code, PrefixCode.code, hocc]
  have hlt : s.code < 2 ^ l := by
    rw [used] at hused
    rw [hs.code]
    omega
  have hat : symbols[s.k]? = some sym := by
    have hrank := hsymbols sym l (by omega) hsym
    rwa [rank, hocc, ← hs.k] at hrank
  rw [fillCode]
  by_cases hfast : l ≤ fastBits
  · rw [if_pos hfast, cell?_eq_ok hat, reverseBits_shift (by omega) hlt]
    refine ⟨_, rfl, (length_fillFast ..).trans hs.fast, fun x e he => ?_, by
      show s.code + 1 = _; rw [hs.code]; rfl, by show s.k + 1 = _; rw [hs.k]; rfl⟩
    rcases getElem?_fillFast he with hold | ⟨rfl, hx⟩
    · exact hs.entry x e hold
    · intro _
      have hsymlt : sym < 2 ^ 12 := (List.getElem?_eq_some_iff.mp hsym).1.trans_le hsmall
      refine ⟨l, sym, h1, hfast, hsym, ?_, ?_⟩
      · rw [Nat.mod_eq_of_lt (reverseBits_lt _ _)] at hx
        rw [← hcode, ← value_reverseBits hlt]
        refine value_congr _ fun i hi => ?_
        rw [← hx, Nat.testBit_mod_two_pow, decide_eq_true hi, Bool.true_and]
      · rw [Nat.mod_eq_of_lt (by rw [Nat.shiftLeft_eq]; omega),
          ← Nat.shiftLeft_add_eq_or_of_lt (by omega), Nat.shiftLeft_eq]
        omega
  · rw [if_neg hfast]
    exact ⟨_, rfl, hs.fast, hs.entry, by show s.code + 1 = _; rw [hs.code]; rfl, by
      show s.k + 1 = _; rw [hs.k]; rfl⟩

/-- The codes of a length. -/
theorem fillLength_spec (hsmall : lengths.length ≤ 2 ^ 12)
    (hsymbols : ∀ s l, l ≠ 0 → lengths[s]? = some l → symbols[rank lengths l s]? = some s)
    {l : ℕ} (h1 : 1 ≤ l) (h15 : l ≤ 15) (hused : used (lengthCount lengths) l ≤ 2 ^ l)
    {s : Fill} (hs : Filled lengths l 0 s) :
    ∃ s', fillLength (counts lengths) symbols s l = .ok s' ∧ Filled lengths (l + 1) 0 s' := by
  have hloop (xs : List ℕ) (j : ℕ) (hj : j + xs.length = lengthCount lengths l) (s : Fill)
      (hs : Filled lengths l j s) :
      ∃ s', xs.foldlM (fun s _ => fillCode symbols l s) s = .ok s' ∧
        Filled lengths l (lengthCount lengths l) s' := by
    induction xs generalizing j s with
    | nil => exact ⟨s, rfl, hj ▸ hs⟩
    | cons x xs ih =>
      rw [List.length_cons] at hj
      obtain ⟨s₁, hrun, hs₁⟩ := fillCode_spec hsmall hsymbols h1 h15 hused (by omega) hs
      rw [List.foldlM_cons, hrun]
      exact ih (j + 1) (by omega) s₁ hs₁
  obtain ⟨s', hrun, hs'⟩ := hloop (List.range (lengthCount lengths l)) 0
    (by rw [List.length_range, Nat.zero_add]) s hs
  rw [fillLength, cell?_eq_ok (getElem?_counts h15), ok_bind, hrun, ok_bind]
  refine ⟨_, rfl, hs'.fast, hs'.entry, ?_, hs'.k⟩
  show s'.code <<< 1 = _
  rw [hs'.code, Nat.shiftLeft_eq, first]
  omega

/-- The whole table. -/
theorem foldlM_fillLength (hsmall : lengths.length ≤ 2 ^ 12)
    (hsymbols : ∀ s l, l ≠ 0 → lengths[s]? = some l → symbols[rank lengths l s]? = some s)
    (hused : used (lengthCount lengths) 15 ≤ 2 ^ 15) :
    ∃ s, (List.range' 1 15).foldlM (fillLength (counts lengths) symbols)
      ⟨List.replicate (2 ^ fastBits) 0, 0, 0⟩ = .ok s ∧ Filled lengths 16 0 s := by
  have hloop (n l : ℕ) (h1 : 1 ≤ l) (hl : l + n = 16) (s : Fill) (hs : Filled lengths l 0 s) :
      ∃ s', (List.range' l n).foldlM (fillLength (counts lengths) symbols) s = .ok s' ∧
        Filled lengths 16 0 s' := by
    induction n generalizing l s with
    | zero => exact ⟨s, rfl, hl ▸ hs⟩
    | succ n ih =>
      obtain ⟨s₁, hrun, hs₁⟩ := fillLength_spec hsmall hsymbols h1 (by omega)
        (used_le _ (by omega) hused) hs
      rw [List.range'_succ, List.foldlM_cons, hrun]
      exact ih (l + 1) (by omega) (by omega) s₁ hs₁
  refine hloop 15 1 (Nat.le_refl 1) rfl _ ⟨List.length_replicate, fun x e he h => ?_, rfl, rfl⟩
  rw [List.getElem?_replicate] at he
  split at he
  · exact absurd (Option.some.inj he).symm h
  · exact absurd he (by simp)

theorem used_eq_zero (h : ∀ l ∈ lengths, l = 0) (l : ℕ) : used (lengthCount lengths) l = 0 := by
  have hnone (l : ℕ) : lengthCount lengths l = 0 := by
    rw [lengthCount]
    split
    · rfl
    · next hl => exact List.count_eq_zero.mpr fun hmem => hl (h l hmem)
  induction l with
  | zero => rw [used, hnone, first]
  | succ l ih => rw [used_succ, ih, hnone]

/-- **A construction** takes the sets of lengths that zlib takes, and makes their tables. -/
theorem new_spec (hsmall : lengths.length ≤ 2 ^ 12) (h15 : ∀ l ∈ lengths, l ≤ 15) (kind : Kind) :
    (∃ h, new lengths kind = .ok h ∧ Tables h lengths ∧
      Rfc1951.Accepted (kind = .codeLengths) lengths) ∨
    ∃ e, new lengths kind = .error (.error e) ∧
      ¬ Rfc1951.Accepted (kind = .codeLengths) lengths := by
  obtain ⟨max, hmax, hbound⟩ := exists_max h15
  have hkraft := used_lengthCount h15
  have hnone : max = 0 ↔ ∀ l ∈ lengths, l = 0 := by
    rw [← Nat.le_zero, hbound]
    exact forall₂_congr fun _ _ => Nat.le_zero
  rw [new, countLengths_eq h15]
  show (∃ h, (if (List.find? _ _).getD 0 = 0 then _ else _) = _ ∧ _) ∨
    ∃ e, (if (List.find? _ _).getD 0 = 0 then _ else _) = _ ∧ _
  rw [hmax]
  by_cases hzero : max = 0
  · rw [if_pos hzero]
    refine .inl ⟨_, rfl, ⟨rfl, List.length_replicate, fun x e he hne => ?_, fun s l hl hs => ?_⟩,
      .inl (hnone.mp hzero)⟩
    · rw [List.getElem?_replicate] at he
      split at he
      · exact absurd (Option.some.inj he).symm hne
      · exact absurd he (by simp)
    · exact absurd (hnone.mp hzero l (List.mem_of_getElem? hs)) hl
  · have hsome : ¬ ∀ l ∈ lengths, l = 0 := fun hall => hzero (hnone.mpr hall)
    have hone : max ≠ 1 ↔ ¬ ∀ l ∈ lengths, l ≤ 1 := by
      rw [← hbound]
      omega
    rw [if_neg hzero, leftOver_counts]
    by_cases hused : used (lengthCount lengths) 15 ≤ 2 ^ 15
    · have hlow : 0 < (2 ^ 15 - used (lengthCount lengths) 15 : ℤ) ↔
          Rfc1951.kraft lengths < 2 ^ 15 := by
        rw [hkraft]
        omega
      rw [if_pos hused, ok_bind]
      by_cases hleft : 0 < (2 ^ 15 - used (lengthCount lengths) 15 : ℤ) ∧
          (kind = .codeLengths ∨ max ≠ 1)
      · rw [if_pos hleft]
        refine .inr ⟨_, rfl, ?_⟩
        rintro (hall | heq | ⟨-, hkind, hall⟩)
        · exact hsome hall
        · exact absurd (hlow.mp hleft.1) (by omega)
        · rcases hleft.2 with hcl | hmax
          · exact absurd hcl (of_decide_eq_false hkind)
          · exact hone.mp hmax hall
      · obtain ⟨offs, hoffs, hoff⟩ := offsets_counts lengths
        obtain ⟨symbols, hsort, hsymbols⟩ := sortSymbols_spec (by omega) h15 hoff
        obtain ⟨s, hfill, hs⟩ := foldlM_fillLength hsmall hsymbols hused
        rw [if_neg hleft, hoffs, ok_bind, hsort, ok_bind, hfill, ok_bind]
        refine .inl ⟨_, rfl, ⟨rfl, hs.fast, hs.entry, hsymbols⟩, ?_⟩
        rcases (hkraft ▸ hused).eq_or_lt with heq | hlt
        · exact .inr (.inl heq)
        · have hkind : kind ≠ .codeLengths := fun hcl => hleft ⟨hlow.mpr hlt, .inl hcl⟩
          refine .inr (.inr ⟨hlt, decide_eq_false hkind, ?_⟩)
          by_contra hall
          exact hleft ⟨hlow.mpr hlt, .inr (hone.mpr hall)⟩
    · rw [if_neg hused]
      refine .inr ⟨_, rfl, ?_⟩
      rintro (hall | heq | ⟨hlt, -⟩)
      · exact hsome hall
      · omega
      · omega

end Huffman

theorem length_fixedLit : Rfc1951.fixedLit.length = 288 := by
  simp only [Rfc1951.fixedLit, List.length_append, List.length_replicate]

theorem kraft_fixedLit : Rfc1951.kraft Rfc1951.fixedLit = 2 ^ 15 := by
  simp only [Rfc1951.kraft, Rfc1951.fixedLit, List.filter_append, List.filter_replicate,
    List.map_append, List.sum_append]
  simp [-List.reduceReplicate]

theorem kraft_fixedDist : Rfc1951.kraft Rfc1951.fixedDist = 2 ^ 15 := by
  simp only [Rfc1951.kraft, Rfc1951.fixedDist, List.filter_replicate]
  simp [-List.reduceReplicate]

theorem le_of_mem_fixedLit : ∀ l ∈ Rfc1951.fixedLit, l ≤ 15 := by
  intro l hl
  simp only [Rfc1951.fixedLit, List.mem_append, List.mem_replicate] at hl
  omega

theorem le_of_mem_fixedDist : ∀ l ∈ Rfc1951.fixedDist, l ≤ 15 := by
  intro l hl
  rw [Rfc1951.fixedDist, List.mem_replicate] at hl
  omega

/-- The fixed codes are taken. -/
theorem fixedTables_spec : ∃ lit dist, fixedTables = .ok (lit, dist) ∧
    Huffman.Tables lit Rfc1951.fixedLit ∧ Huffman.Tables dist Rfc1951.fixedDist := by
  rcases Huffman.new_spec (length_fixedLit.trans_le (by omega)) le_of_mem_fixedLit .lens with
    ⟨lit, hlit, htablesLit, -⟩ | ⟨e, -, hbad⟩
  · rcases Huffman.new_spec (List.length_replicate.trans_le (by omega)) le_of_mem_fixedDist
      .dists with ⟨dist, hdist, htablesDist, -⟩ | ⟨e, -, hbad⟩
    · refine ⟨lit, dist, ?_, htablesLit, htablesDist⟩
      unfold fixedTables
      have hlit' : Huffman.new fixedLit .lens = .ok lit := hlit
      have hdist' : Huffman.new fixedDist .dists = .ok dist := hdist
      rw [hlit', hdist', Huffman.expect]
    · exact absurd (.inr (.inl kraft_fixedDist)) hbad
  · exact absurd (.inr (.inl kraft_fixedLit)) hbad

end Image

end Mimo26

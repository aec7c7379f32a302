import Mathlib.Data.List.Basic
import Mathlib.Tactic.Ring

/-!
# Fields in byte strings

Little-endian numbers, and reading and writing fixed-width fields of a byte string at an offset.
Nothing here is about a particular format: a format is a list of `put`s at its offsets, a parser
is a list of `slice`s at the same offsets, and the two cancel by the lemmas below.

## Main definitions

* `toLe`, `ofLe` — a number as `w` little-endian bytes, and back
* `put`, `slice` — overwrite and read `n` bytes at an offset
* `putAll`, `Laid` — a record written field by field, and that its fields do not overlap
* `chunksExact` — a byte string cut into records of one width

## Main results

* `ofLe_toLe`, `toLe_ofLe` — the two conversions are inverse up to the width
* `slice_put_self`, `slice_put_of_le`, `slice_put_of_ge` — read after write, and reading beside it
* `slice_putAll` — every field of a laid-out record reads back
* `slice_flatMap`, `chunksExact_flatMap` — every record of a table reads back
-/

namespace Mimo26

namespace Bytes

/-! ### Little-endian numbers -/

/-- The `w` low bytes of `x`, least significant first. -/
def toLe : ℕ → ℕ → List UInt8
  | 0, _ => []
  | w + 1, x => UInt8.ofNat x :: toLe w (x / 256)

/-- The number whose bytes are `bs`, least significant first. -/
def ofLe : List UInt8 → ℕ
  | [] => 0
  | b :: bs => b.toNat + 256 * ofLe bs

@[simp] theorem length_toLe (w x : ℕ) : (toLe w x).length = w := by
  induction w generalizing x with
  | zero => rfl
  | succ w ih => simp [toLe, ih]

theorem ofLe_toLe (w x : ℕ) : ofLe (toLe w x) = x % 256 ^ w := by
  induction w generalizing x with
  | zero => simp [toLe, ofLe, Nat.mod_one]
  | succ w ih =>
    have hb : (UInt8.ofNat x).toNat = x % 256 := by simp
    rw [toLe, ofLe, ih, hb, pow_succ', Nat.mod_mul]

theorem ofLe_toLe_of_lt {w x : ℕ} (h : x < 256 ^ w) : ofLe (toLe w x) = x := by
  rw [ofLe_toLe, Nat.mod_eq_of_lt h]

theorem toLe_ofLe (bs : List UInt8) : toLe bs.length (ofLe bs) = bs := by
  induction bs with
  | nil => rfl
  | cons b bs ih =>
    have hlow : UInt8.ofNat (b.toNat + 256 * ofLe bs) = b := by
      apply UInt8.toNat_inj.mp
      have := b.toNat_lt
      simp only [UInt8.toNat_ofNat']
      omega
    have hhigh : (b.toNat + 256 * ofLe bs) / 256 = ofLe bs := by
      have := b.toNat_lt
      omega
    rw [List.length_cons, ofLe, toLe, hlow, hhigh, ih]

theorem ofLe_lt (bs : List UInt8) : ofLe bs < 256 ^ bs.length := by
  induction bs with
  | nil => simp [ofLe]
  | cons b bs ih =>
    have hb := b.toNat_lt
    rw [ofLe, List.length_cons, pow_succ']
    omega

/-! ### Fields at an offset -/

/-- Overwrite `out` with `v` from offset `off` on, leaving its length as it is. -/
def put (out : List UInt8) (off : ℕ) (v : List UInt8) : List UInt8 :=
  out.mapIdx fun i b => if off ≤ i then v.getD (i - off) b else b

/-- The `n` bytes of `bs` at offset `off`. -/
def slice (bs : List UInt8) (off n : ℕ) : List UInt8 := (bs.drop off).take n

@[simp] theorem length_put (out : List UInt8) (off : ℕ) (v : List UInt8) :
    (put out off v).length = out.length := by
  simp [put]

theorem length_slice {bs : List UInt8} {off n : ℕ} (h : off + n ≤ bs.length) :
    (slice bs off n).length = n := by
  simp only [slice, List.length_take, List.length_drop]
  omega

theorem getElem?_slice (bs : List UInt8) (off n i : ℕ) :
    (slice bs off n)[i]? = if i < n then bs[off + i]? else none := by
  rw [slice, List.getElem?_take, List.getElem?_drop]

theorem getD_slice (bs : List UInt8) (off : ℕ) {n i : ℕ} (hi : i < n) :
    (slice bs off n).getD i 0 = bs.getD (off + i) 0 := by
  rw [List.getD_eq_getElem?_getD, getElem?_slice, if_pos hi, ← List.getD_eq_getElem?_getD]

/-- **Read after write.** -/
theorem slice_put_self {out v : List UInt8} {off n : ℕ} (hn : n = v.length)
    (h : off + v.length ≤ out.length) : slice (put out off v) off n = v := by
  subst hn
  refine List.ext_getElem? fun i => ?_
  rw [getElem?_slice, put, List.getElem?_mapIdx]
  split
  · next hi =>
    rw [List.getElem?_eq_getElem (by omega : off + i < out.length)]
    simp [hi]
  · next hi => simp [Nat.not_lt.mp hi]

/-- A write above the field leaves it alone. -/
theorem slice_put_of_le {out v : List UInt8} {off off' n : ℕ} (hle : off' + n ≤ off) :
    slice (put out off v) off' n = slice out off' n := by
  refine List.ext_getElem? fun i => ?_
  rw [getElem?_slice, getElem?_slice, put, List.getElem?_mapIdx]
  split
  · next hi => simp [show ¬ off ≤ off' + i by omega]
  · rfl

/-- A write below the field leaves it alone. -/
theorem slice_put_of_ge {out v : List UInt8} {off off' n : ℕ} (hge : off + v.length ≤ off') :
    slice (put out off v) off' n = slice out off' n := by
  refine List.ext_getElem? fun i => ?_
  rw [getElem?_slice, getElem?_slice, put, List.getElem?_mapIdx]
  split
  · have hv : v[off' + i - off]? = none := List.getElem?_eq_none (by omega)
    simp [List.getD_eq_getElem?_getD, hv]
  · rfl

/-- Reading inside the first part of a concatenation. -/
theorem slice_append_left {a b : List UInt8} {off n : ℕ} (h : off + n ≤ a.length) :
    slice (a ++ b) off n = slice a off n := by
  rw [slice, slice, List.drop_append_of_le_length (by omega),
    List.take_append_of_le_length (by simp only [List.length_drop]; omega)]

/-- Reading past the first part of a concatenation. -/
theorem slice_append_right {a b : List UInt8} {off n : ℕ} (h : a.length ≤ off) :
    slice (a ++ b) off n = slice b (off - a.length) n := by
  obtain ⟨d, rfl⟩ := Nat.exists_eq_add_of_le h
  rw [slice, slice, ← List.drop_drop, List.drop_left' rfl, Nat.add_sub_cancel_left]

@[simp] theorem slice_zero_length (bs : List UInt8) : slice bs 0 bs.length = bs := by
  rw [slice, List.drop_zero, List.take_length]

/-- A field of a field. -/
theorem slice_slice {bs : List UInt8} {off w o n : ℕ} (h : o + n ≤ w) :
    slice (slice bs off w) o n = slice bs (off + o) n := by
  rw [slice, slice, slice, List.drop_take, List.drop_drop, List.take_take, min_eq_left (by omega)]

/-- A write inside the first part of a concatenation stays there. -/
theorem put_append_left {a b v : List UInt8} {off : ℕ} (h : off + v.length ≤ a.length) :
    put (a ++ b) off v = put a off v ++ b := by
  refine List.ext_getElem? fun i => ?_
  simp only [put, List.getElem?_mapIdx, List.getElem?_append, List.length_mapIdx]
  by_cases hi : i < a.length
  · rw [if_pos hi, if_pos hi]
  · rw [if_neg hi, if_neg hi]
    have hv : v[i - off]? = none := List.getElem?_eq_none (by omega)
    simp [List.getD_eq_getElem?_getD, hv]

/-! ### Records -/

/-- Write the fields of a record, each at its offset. -/
def putAll (out : List UInt8) (fields : List (ℕ × List UInt8)) : List UInt8 :=
  fields.foldl (fun out f => put out f.1 f.2) out

/-- The fields lie in `[start, len)` in the order of the list, without overlapping. -/
def Laid (len : ℕ) : ℕ → List (ℕ × List UInt8) → Prop
  | start, [] => start ≤ len
  | start, f :: fs => start ≤ f.1 ∧ Laid len (f.1 + f.2.length) fs

@[simp] theorem length_putAll (out : List UInt8) (fields : List (ℕ × List UInt8)) :
    (putAll out fields).length = out.length := by
  induction fields generalizing out with
  | nil => rfl
  | cons f fs ih => rw [putAll, List.foldl_cons, ← putAll, ih, length_put]

theorem Laid.start_le {len start : ℕ} {fs : List (ℕ × List UInt8)} (h : Laid len start fs) :
    start ≤ len := by
  induction fs generalizing start with
  | nil => exact h
  | cons f fs ih =>
    obtain ⟨hstart, hrest⟩ := h
    exact le_trans (by omega) (ih hrest)

/-- Bytes below all fields of a record are left alone. -/
theorem slice_putAll_of_le {out : List UInt8} {fs : List (ℕ × List UInt8)} {start off n : ℕ}
    (h : Laid out.length start fs) (hoff : off + n ≤ start) :
    slice (putAll out fs) off n = slice out off n := by
  induction fs generalizing out start with
  | nil => rfl
  | cons f fs ih =>
    obtain ⟨hstart, hrest⟩ := h
    rw [putAll, List.foldl_cons, ← putAll, ih (by rwa [length_put]) (by omega),
      slice_put_of_le (by omega)]

/-- **Field after record.** -/
theorem slice_putAll {out : List UInt8} {fs : List (ℕ × List UInt8)} {start : ℕ}
    (h : Laid out.length start fs) {f : ℕ × List UInt8} (hf : f ∈ fs) :
    slice (putAll out fs) f.1 f.2.length = f.2 := by
  induction fs generalizing out start with
  | nil => exact absurd hf List.not_mem_nil
  | cons g fs ih =>
    obtain ⟨-, hrest⟩ := h
    rw [putAll, List.foldl_cons, ← putAll]
    rcases List.mem_cons.mp hf with rfl | hmem
    · rw [slice_putAll_of_le (by rwa [length_put]) le_rfl]
      exact slice_put_self rfl hrest.start_le
    · exact ih (by rwa [length_put]) hmem

/-- The bytes of two fields do not overlap. -/
def Apart (f g : ℕ × List UInt8) : Prop := f.1 + f.2.length ≤ g.1 ∨ g.1 + g.2.length ≤ f.1

/-- Bytes that no field of a record overlaps are left alone. -/
theorem slice_putAll_of_apart {out : List UInt8} {fs : List (ℕ × List UInt8)} {f : ℕ × List UInt8}
    (h : ∀ g ∈ fs, Apart f g) :
        slice (putAll out fs) f.1 f.2.length = slice out f.1 f.2.length := by
  induction fs generalizing out with
  | nil => rfl
  | cons g fs ih =>
    rw [putAll, List.foldl_cons, ← putAll, ih fun g' hg' => h g' (List.mem_cons_of_mem g hg')]
    rcases h g List.mem_cons_self with hle | hge
    · exact slice_put_of_le hle
    · exact slice_put_of_ge hge

/-- **Field after record**, where the fields are written in any order. -/
theorem slice_putAll_of_pairwise {out : List UInt8} {fs : List (ℕ × List UInt8)}
    (h : fs.Pairwise Apart) {f : ℕ × List UInt8} (hf : f ∈ fs)
    (hlen : f.1 + f.2.length ≤ out.length) :
    slice (putAll out fs) f.1 f.2.length = f.2 := by
  induction fs generalizing out with
  | nil => exact absurd hf List.not_mem_nil
  | cons g fs ih =>
    obtain ⟨hg, hrest⟩ := List.pairwise_cons.mp h
    rw [putAll, List.foldl_cons, ← putAll]
    rcases List.mem_cons.mp hf with rfl | hmem
    · rw [slice_putAll_of_apart hg]
      exact slice_put_self rfl hlen
    · exact ih hrest hmem (by rwa [length_put])

/-- The fields lie side by side from `start` on. -/
def Adjacent : ℕ → List (ℕ × List UInt8) → Prop
  | _, [] => True
  | start, f :: fs => f.1 = start ∧ Adjacent (start + f.2.length) fs

theorem putAll_append (out : List UInt8) (fs gs : List (ℕ × List UInt8)) :
    putAll out (fs ++ gs) = putAll (putAll out fs) gs := List.foldl_append

/-! ### Tables -/

/-- The whole `w`-byte records of `bs`, in order. -/
def chunksExact (w : ℕ) (bs : List UInt8) : List (List UInt8) :=
  (List.range (bs.length / w)).map fun i => slice bs (i * w) w

variable {α : Type*} {l : List α} {f : α → List UInt8} {w : ℕ}

theorem length_flatMap_of_forall (hw : ∀ a ∈ l, (f a).length = w) :
    (l.flatMap f).length = l.length * w := by
  induction l with
  | nil => simp
  | cons a l ih =>
    rw [List.flatMap_cons, List.length_append, hw a List.mem_cons_self,
      ih fun b hb => hw b (List.mem_cons_of_mem a hb), List.length_cons]
    ring

/-- Record `i` of a table. -/
theorem slice_flatMap (hw : ∀ a ∈ l, (f a).length = w) {i : ℕ} (hi : i < l.length) :
    slice (l.flatMap f) (i * w) w = f l[i] := by
  induction l generalizing i with
  | nil => simp at hi
  | cons a l ih =>
    have ha : (f a).length = w := hw a List.mem_cons_self
    rw [List.flatMap_cons]
    cases i with
    | zero =>
      rw [zero_mul, slice_append_left (by omega), slice, List.drop_zero, ← ha, List.take_length]
      rfl
    | succ i =>
      rw [slice_append_right (by rw [ha]; exact Nat.le_mul_of_pos_left w i.succ_pos), ha,
        show (i + 1) * w - w = i * w by rw [Nat.succ_mul, Nat.add_sub_cancel]]
      exact ih (fun b hb => hw b (List.mem_cons_of_mem a hb)) (by simpa using hi)

theorem chunksExact_flatMap (hw : ∀ a ∈ l, (f a).length = w) (hpos : 0 < w) :
    chunksExact w (l.flatMap f) = l.map f := by
  rw [chunksExact, length_flatMap_of_forall hw, Nat.mul_div_cancel _ hpos]
  refine List.ext_getElem (by simp) fun i hi hi' => ?_
  have hlt : i < l.length := by simpa using hi'
  rw [List.getElem_map, List.getElem_range, List.getElem_map, slice_flatMap hw hlt]

/-- A field written is the bytes before it, it and the bytes after it. -/
theorem put_eq_append {out v : List UInt8} {off : ℕ} (h : off + v.length ≤ out.length) :
    put out off v = out.take off ++ (v ++ out.drop (off + v.length)) := by
  have hlen : (out.take off).length = off := by
    rw [List.length_take]
    omega
  refine List.ext_getElem? fun i => ?_
  rw [put, List.getElem?_mapIdx]
  rcases Nat.lt_or_ge i off with hi | hi
  · rw [List.getElem?_append_left (by omega), List.getElem?_take_of_lt hi]
    simp [Nat.not_le.mpr hi]
  · rw [List.getElem?_append_right (by omega), hlen]
    simp only [if_pos hi]
    rcases Nat.lt_or_ge (i - off) v.length with hv | hv
    · rw [List.getElem?_append_left hv, List.getElem?_eq_getElem (show i < out.length by omega),
        Option.map_some, List.getD_eq_getElem?_getD, List.getElem?_eq_getElem hv, Option.getD_some]
    · rw [List.getElem?_append_right hv, List.getElem?_drop,
        show off + v.length + (i - off - v.length) = i by omega]
      simp [List.getD_eq_getElem?_getD, List.getElem?_eq_none hv]

/-- Fields side by side, written into the bytes around them. -/
theorem putAll_adjacent {out : List UInt8} {fs : List (ℕ × List UInt8)} {start : ℕ}
    (h : Adjacent start fs) (hfit : start + (fs.flatMap (·.2)).length ≤ out.length) :
    putAll out fs =
      out.take start ++ (fs.flatMap (·.2) ++ out.drop (start + (fs.flatMap (·.2)).length)) := by
  induction fs generalizing out start with
  | nil => simp [putAll]
  | cons f fs ih =>
    obtain ⟨rfl, hrest⟩ := h
    rw [List.flatMap_cons, List.length_append] at hfit ⊢
    have hput := put_eq_append (show f.1 + f.2.length ≤ out.length by omega)
    have hlen : (out.take f.1 ++ f.2).length = f.1 + f.2.length := by
      rw [List.length_append, List.length_take]
      omega
    rw [putAll, List.foldl_cons, ← putAll, ih hrest (by rw [length_put]; omega), hput,
      ← List.append_assoc (out.take f.1), List.take_left' hlen, ← hlen, List.drop_length_add_append,
      hlen, List.drop_drop, List.append_assoc, List.append_assoc, Nat.add_assoc]

theorem length_of_mem_chunksExact {bs c : List UInt8} (hc : c ∈ chunksExact w bs) :
    c.length = w := by
  obtain ⟨i, hi, rfl⟩ := List.mem_map.mp hc
  refine length_slice ?_
  calc i * w + w = (i + 1) * w := (Nat.succ_mul i w).symm
    _ ≤ bs.length / w * w := Nat.mul_le_mul_right w (List.mem_range.mp hi)
    _ ≤ bs.length := Nat.div_mul_le_self _ _

/-- The records of a byte string, end to end. -/
theorem flatten_chunksExact (w : ℕ) (bs : List UInt8) :
    (chunksExact w bs).flatten = bs.take (bs.length / w * w) := by
  have hrecords (n : ℕ) :
      ((List.range n).map fun i => slice bs (i * w) w).flatten = bs.take (n * w) := by
    induction n with
    | zero => simp
    | succ n ih =>
      rw [List.range_succ, List.map_append, List.flatten_append, ih, Nat.succ_mul, List.take_add]
      simp [slice]
  exact hrecords _

/-- Two fields side by side are one. -/
theorem slice_add (bs : List UInt8) (off m n : ℕ) :
    slice bs off (m + n) = slice bs off m ++ slice bs (off + m) n := by
  rw [slice, slice, slice, List.take_add, List.drop_drop]

/-- A record whose fields leave no gap is its fields. -/
theorem slice_adjacent {bs : List UInt8} {fs : List (ℕ × List UInt8)} {start : ℕ}
    (h : Adjacent start fs) (hread : ∀ f ∈ fs, slice bs f.1 f.2.length = f.2) :
    slice bs start (fs.flatMap (·.2)).length = fs.flatMap (·.2) := by
  induction fs generalizing start with
  | nil => simp [slice]
  | cons f fs ih =>
    obtain ⟨rfl, hrest⟩ := h
    rw [List.flatMap_cons, List.length_append, slice_add, hread f List.mem_cons_self,
      ih hrest fun g hg => hread g (List.mem_cons_of_mem f hg)]

/-- A field between the bytes before it and those after it. -/
theorem take_slice_drop (bs : List UInt8) (off n : ℕ) :
    bs.take off ++ (slice bs off n ++ bs.drop (off + n)) = bs := by
  rw [slice, ← List.drop_drop, List.take_append_drop, List.take_append_drop]

/-- Byte strings that agree on a field and on both sides of it. -/
theorem eq_of_take_slice_drop {a b : List UInt8} {off n : ℕ} (htake : a.take off = b.take off)
    (hslice : slice a off n = slice b off n) (hdrop : a.drop (off + n) = b.drop (off + n)) :
        a = b := by
  rw [← take_slice_drop a off n, ← take_slice_drop b off n, htake, hslice, hdrop]

/-- A write leaves the bytes before it. -/
theorem take_put (bs v : List UInt8) (off : ℕ) : (put bs off v).take off = bs.take off := by
  have h : slice (put bs off v) 0 off = slice bs 0 off := slice_put_of_le (by omega)
  exact h

/-- A write leaves the bytes after it. -/
theorem drop_put (bs v : List UInt8) {off n : ℕ} (hv : v.length ≤ n) :
    (put bs off v).drop (off + n) = bs.drop (off + n) := by
  have h : slice (put bs off v) (off + n) bs.length = slice bs (off + n) bs.length :=
    slice_put_of_ge (by omega)
  rwa [slice, slice, List.take_of_length_le (by simp), List.take_of_length_le (by simp)] at h

/-- A table is its records. -/
theorem flatMap_slice {bs : List UInt8} {n : ℕ} (h : bs.length = n * w) :
    (List.range n).flatMap (fun i => slice bs (i * w) w) = bs := by
  induction n generalizing bs with
  | zero => exact (List.length_eq_zero_iff.mp (h.trans (Nat.zero_mul w))).symm
  | succ n ih =>
    have hrest : (bs.drop w).length = n * w := by
      rw [List.length_drop, h, Nat.succ_mul, Nat.add_sub_cancel]
    have hnext (i : ℕ) : slice bs ((i + 1) * w) w = slice (bs.drop w) (i * w) w := by
      rw [slice, slice, List.drop_drop, Nat.succ_mul, Nat.add_comm]
    rw [List.range_succ_eq_map, List.flatMap_cons, List.flatMap_map, Nat.zero_mul]
    simp only [Nat.succ_eq_add_one, hnext, ih hrest]
    exact List.take_append_drop w bs

/-- A byte string that reads as a table record by record. -/
theorem flatMap_eq_of_slice {bs : List UInt8} (hlen : bs.length = l.length * w)
    (h : ∀ (i : ℕ) (hi : i < l.length), slice bs (i * w) w = f l[i]) : l.flatMap f = bs := by
  have hrecords : (List.range l.length).map (fun i => slice bs (i * w) w) = l.map f := by
    refine List.ext_getElem (by simp) fun i hi hi' => ?_
    rw [List.getElem_map, List.getElem_map, List.getElem_range]
    exact h i (by simpa using hi')
  rw [← flatMap_slice hlen, List.flatMap_def, List.flatMap_def, hrecords]

end Bytes

end Mimo26

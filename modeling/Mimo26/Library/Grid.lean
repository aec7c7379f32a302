import Mathlib.Data.List.Basic
import Mathlib.Data.List.Nodup
import Mathlib.Data.List.Perm.Subperm
import Mathlib.Data.List.ProdSigma
import Mathlib.Tactic.Ring

/-!
# Tables kept in one flat list

A table with lines of a fixed width in one list, as loops over `base + i` see it: adding a line
into a span of cells, recomputing a span, and reading a cell back after either.

## Main definitions

* `addSpan`, `setSpan` — combine a line into the cells from `base` on; overwrite `n` of them
* `scatterAdd`, `scatterSet` — the same for a list of lines, one after the other
* `slots` — the pairs `(rank, token)` of an `m × n` table, line by line

## Main results

* `getElem?_addSpan`, `getElem?_setSpan` — a cell after a loop over a span
* `getElem?_scatterAdd`, `getElem?_scatterSet` — a cell after a list of lines
* `cell_inj`, `cell_lt` — cell addresses `line * width + i` are distinct and in range
* `perm_slots_of_nodup` — as many distinct slots as the table has are all of them
-/

namespace Mimo26

namespace Grid

variable {F : Type*}

/-! ### Loops over a span -/

/-- `buf[base + i] := op buf[base + i] vals[i]` for each `i`. -/
def addSpan (op : F → F → F) (buf : List F) (base : ℕ) : List F → List F
  | [] => buf
  | v :: vals => addSpan op (buf.modify base (op · v)) (base + 1) vals

@[simp] theorem length_addSpan (op : F → F → F) (buf : List F) (base : ℕ) (vals : List F) :
    (addSpan op buf base vals).length = buf.length := by
  induction vals generalizing buf base with
  | nil => rfl
  | cons v vals ih => rw [addSpan, ih, List.length_modify]

theorem getElem?_addSpan (op : F → F → F) (buf : List F) (base : ℕ) (vals : List F) (j : ℕ) :
    (addSpan op buf base vals)[j]? =
      if h : base ≤ j ∧ j < base + vals.length then
        buf[j]?.map (op · (vals.get ⟨j - base, by omega⟩))
      else buf[j]? := by
  induction vals generalizing buf base with
  | nil =>
    rw [addSpan, dif_neg]
    rintro ⟨hle, hlt⟩
    simp only [List.length_nil] at hlt
    omega
  | cons v vals ih =>
    have hmod : (buf.modify base (op · v))[j]?
        = if base = j then buf[j]?.map (op · v) else buf[j]? := by
      rw [List.getElem?_modify]
      split <;> simp
    rw [addSpan, ih, hmod]
    rcases Nat.lt_trichotomy j base with hj | rfl | hj
    · rw [dif_neg (by omega), dif_neg (by omega), if_neg (by omega)]
    · rw [dif_neg (by omega), dif_pos ⟨le_rfl, by simp⟩, if_pos rfl]
      simp
    · rw [if_neg (by omega)]
      by_cases hin : j < base + (v :: vals).length
      · have hin' : j < base + 1 + vals.length := by rw [List.length_cons] at hin; omega
        rw [dif_pos ⟨by omega, hin'⟩, dif_pos ⟨by omega, hin⟩]
        obtain ⟨d, rfl⟩ : ∃ d, j = base + 1 + d := ⟨j - (base + 1), by omega⟩
        have hd : base + 1 + d - base = d + 1 := by omega
        have hd' : base + 1 + d - (base + 1) = d := by omega
        simp only [hd, hd', List.get_eq_getElem, List.getElem_cons_succ]
      · have hin' : ¬ j < base + 1 + vals.length := by rw [List.length_cons] at hin; omega
        rw [dif_neg fun h => hin' h.2, dif_neg fun h => hin h.2]

theorem getElem?_addSpan_add {op : F → F → F} {buf : List F} {base i : ℕ} {vals : List F}
    (hi : i < vals.length) :
    (addSpan op buf base vals)[base + i]? = buf[base + i]?.map (op · vals[i]) := by
  have hsub : base + i - base = i := Nat.add_sub_cancel_left base i
  rw [getElem?_addSpan, dif_pos (by omega)]
  simp only [hsub, List.get_eq_getElem]

theorem getElem?_addSpan_of_not {op : F → F → F} {buf : List F} {base j : ℕ} {vals : List F}
    (hj : ¬ (base ≤ j ∧ j < base + vals.length)) :
    (addSpan op buf base vals)[j]? = buf[j]? := by
  rw [getElem?_addSpan, dif_neg hj]

/-- `buf[base + i] := f i` for each `i < n`. -/
def setSpan (buf : List F) (base n : ℕ) (f : ℕ → F) : List F :=
  (List.range n).foldl (fun buf i => buf.set (base + i) (f i)) buf

theorem setSpan_succ (buf : List F) (base n : ℕ) (f : ℕ → F) :
    setSpan buf base (n + 1) f = (setSpan buf base n f).set (base + n) (f n) := by
  rw [setSpan, List.range_succ, List.foldl_append]
  rfl

@[simp] theorem length_setSpan (buf : List F) (base n : ℕ) (f : ℕ → F) :
    (setSpan buf base n f).length = buf.length := by
  induction n with
  | zero => rfl
  | succ n ih => rw [setSpan_succ, List.length_set, ih]

theorem getElem?_setSpan (buf : List F) (base n : ℕ) (f : ℕ → F) (j : ℕ) :
    (setSpan buf base n f)[j]? =
      if base ≤ j ∧ j < base + n then buf[j]?.map fun _ => f (j - base) else buf[j]? := by
  induction n with
  | zero =>
    rw [if_neg (by omega)]
    rfl
  | succ n ih =>
    rw [setSpan_succ, List.getElem?_set, ih, length_setSpan]
    by_cases hj : base + n = j
    · subst hj
      rw [if_pos rfl, if_pos (show base ≤ base + n ∧ base + n < base + (n + 1) by omega),
        Nat.add_sub_cancel_left]
      by_cases hlt : base + n < buf.length
      · rw [if_pos hlt, List.getElem?_eq_getElem hlt, Option.map_some]
      · rw [if_neg hlt, List.getElem?_eq_none (by omega), Option.map_none]
    · rw [if_neg hj]
      by_cases hin : base ≤ j ∧ j < base + n
      · rw [if_pos hin, if_pos (by omega)]
      · rw [if_neg hin, if_neg (by omega)]

/-! ### Tables of rows -/

theorem length_flatMap_range {n w : ℕ} {f : ℕ → List F} (hf : ∀ r < n, (f r).length = w) :
    ((List.range n).flatMap f).length = n * w := by
  induction n with
  | zero => simp
  | succ n ih =>
    have hrows := ih fun r hr => hf r (Nat.lt_succ_of_lt hr)
    rw [List.range_succ, List.flatMap_append, List.length_append, hrows, List.flatMap_singleton,
      hf n (Nat.lt_succ_self n), Nat.succ_mul]

/-- A table laid out row by row. -/
theorem getElem?_flatMap_range {n w : ℕ} {f : ℕ → List F} (hf : ∀ r < n, (f r).length = w) {r i : ℕ}
    (hr : r < n) (hi : i < w) : ((List.range n).flatMap f)[r * w + i]? = (f r)[i]? := by
  induction n with
  | zero => exact absurd hr (Nat.not_lt_zero r)
  | succ n ih =>
    have hrows : ∀ r < n, (f r).length = w := fun r hr => hf r (Nat.lt_succ_of_lt hr)
    have hlen := length_flatMap_range hrows
    rw [List.range_succ, List.flatMap_append, List.flatMap_singleton]
    rcases Nat.lt_succ_iff_lt_or_eq.mp hr with hlt | rfl
    · have hin : r * w + i < n * w := by
        have hrow : (r + 1) * w ≤ n * w := Nat.mul_le_mul_right w hlt
        rw [Nat.succ_mul] at hrow
        omega
      rw [List.getElem?_append_left (hlen ▸ hin), ih hrows hlt]
    · rw [List.getElem?_append_right (hlen ▸ Nat.le_add_right _ _), hlen, Nat.add_sub_cancel_left]

section rows

variable {R : Type*} {f : R → List F} {m : ℕ}

/-- Rows of one length lie one after the other. -/
theorem length_flatMap_rows (h : ∀ r, (f r).length = m) (rows : List R) :
    (rows.flatMap f).length = rows.length * m := by
  induction rows with
  | nil => rw [List.flatMap_nil, List.length_nil, List.length_nil, Nat.zero_mul]
  | cons r rows ih =>
    rw [List.flatMap_cons, List.length_append, h, ih, List.length_cons, Nat.succ_mul, Nat.add_comm]

theorem getElem?_flatMap_rows (h : ∀ r, (f r).length = m) {rows : List R} {t j : ℕ} {r : R}
    (hr : rows[t]? = some r) (hj : j < m) : (rows.flatMap f)[t * m + j]? = (f r)[j]? := by
  induction rows generalizing t with
  | nil => cases hr
  | cons r' rows ih =>
    rw [List.flatMap_cons]
    cases t with
    | zero =>
      obtain rfl := Option.some.inj hr
      rw [Nat.zero_mul, Nat.zero_add, List.getElem?_append_left (by rwa [h])]
    | succ t =>
      have haddr : (t + 1) * m + j = m + (t * m + j) := by ring
      rw [haddr, List.getElem?_append_right (by rw [h]; omega), h, Nat.add_sub_cancel_left]
      exact ih hr

theorem drop_flatMap_rows (h : ∀ r, (f r).length = m) (rows : List R) (d : ℕ) :
    (rows.flatMap f).drop (d * m) = (rows.drop d).flatMap f := by
  induction d generalizing rows with
  | zero => rw [Nat.zero_mul, List.drop_zero, List.drop_zero]
  | succ d ih =>
    cases rows with
    | nil => rw [List.flatMap_nil, List.drop_nil, List.drop_nil, List.flatMap_nil]
    | cons r rows =>
      have hlen : (d + 1) * m = (f r).length + d * m := by rw [h]; ring
      rw [List.flatMap_cons, hlen, List.drop_append, List.drop_eq_nil_of_le (Nat.le_add_right _ _),
        Nat.add_sub_cancel_left, List.nil_append, ih, List.drop_succ_cons]

theorem take_flatMap_rows (h : ∀ r, (f r).length = m) (rows : List R) (d : ℕ) :
    (rows.flatMap f).take (d * m) = (rows.take d).flatMap f := by
  induction d generalizing rows with
  | zero => rw [Nat.zero_mul, List.take_zero, List.take_zero, List.flatMap_nil]
  | succ d ih =>
    cases rows with
    | nil => rw [List.flatMap_nil, List.take_nil, List.take_nil, List.flatMap_nil]
    | cons r rows =>
      have hlen : (d + 1) * m = (f r).length + d * m := by rw [h]; ring
      rw [List.flatMap_cons, hlen, List.take_append, List.take_of_length_le (Nat.le_add_right _ _),
        Nat.add_sub_cancel_left, ih, List.take_succ_cons, List.flatMap_cons]

/-- A loop over the cells of each row. -/
theorem map_product_rows {ι : Type*} {rows : List R} {l : List ι} {g : ℕ × ι → F} {G : R → ι → F}
    (h : ∀ t r, rows[t]? = some r → ∀ i ∈ l, g (t, i) = G r i) :
    (List.range rows.length ×ˢ l).map g = rows.flatMap fun r => l.map (G r) := by
  induction rows generalizing g with
  | nil => rfl
  | cons r rows ih =>
    have hhead : (l.map (Prod.mk 0)).map g = l.map (G r) := by
      rw [List.map_map]
      exact List.map_congr_left fun i hi => h 0 r rfl i hi
    have htail := @ih (fun p => g (p.1 + 1, p.2)) fun t r' hr' i hi => h (t + 1) r' hr' i hi
    have hshift : ((List.range rows.length).map Nat.succ ×ˢ l).map g =
        (List.range rows.length ×ˢ l).map fun p => g (p.1 + 1, p.2) := by
      change (((List.range rows.length).map Nat.succ).flatMap fun t => l.map (Prod.mk t)).map g =
        ((List.range rows.length).flatMap fun t => l.map (Prod.mk t)).map _
      rw [List.flatMap_map, List.map_flatMap, List.map_flatMap]
      refine List.flatMap_congr fun t _ => ?_
      rw [List.map_map, List.map_map]
      rfl
    rw [List.length_cons, List.range_succ_eq_map, List.flatMap_cons, ← htail, ← hshift, ← hhead,
      ← List.map_append]
    rfl

end rows

/-- A product with a list of lines runs through the list line by line. -/
theorem getElem?_product_range {n : ℕ} {l : List F} {t : ℕ} (ht : t < n * l.length) :
    (List.range n ×ˢ l)[t]? = l[t % l.length]?.map (Prod.mk (t / l.length)) := by
  have hpos : 0 < l.length := Nat.pos_of_ne_zero fun h0 => by
    rw [h0, Nat.mul_zero] at ht
    exact Nat.not_lt_zero _ ht
  have hline : t / l.length < n := Nat.div_lt_of_lt_mul (by rwa [Nat.mul_comm])
  have hget := @getElem?_flatMap_range (ℕ × F) n l.length (fun r => l.map (Prod.mk r))
    (fun _ _ => List.length_map _) (t / l.length) (t % l.length) hline (Nat.mod_lt _ hpos)
  rw [Nat.div_add_mod'] at hget
  calc (List.range n ×ˢ l)[t]? = ((List.range n).flatMap fun r => l.map (Prod.mk r))[t]? := rfl
    _ = (l.map (Prod.mk (t / l.length)))[t % l.length]? := hget
    _ = l[t % l.length]?.map (Prod.mk (t / l.length)) := List.getElem?_map ..

/-! ### Addresses -/

theorem cell_lt {lines width line i : ℕ} (hline : line < lines) (hi : i < width) :
    line * width + i < lines * width := by
  calc line * width + i < line * width + width := by omega
    _ = (line + 1) * width := by ring
    _ ≤ lines * width := Nat.mul_le_mul_right width hline

theorem cell_inj {width line line' i i' : ℕ} (hi : i < width) (hi' : i' < width)
    (h : line * width + i = line' * width + i') : line = line' ∧ i = i' := by
  have hpos : 0 < width := by omega
  have hline : line = line' := by
    have hdiv := congrArg (· / width) h
    simpa [Nat.add_comm, Nat.add_mul_div_right _ _ hpos, Nat.div_eq_of_lt hi,
      Nat.div_eq_of_lt hi'] using hdiv
  subst hline
  exact ⟨rfl, by omega⟩

/-- An address in another line is outside the line's span. -/
theorem not_mem_span {width line line' i : ℕ} (hi : i < width) (hne : line' ≠ line) :
    ¬ (line * width ≤ line' * width + i ∧ line' * width + i < line * width + width) := by
  rintro ⟨hle, hlt⟩
  obtain ⟨d, hd⟩ := Nat.exists_eq_add_of_le hle
  have hdlt : d < width := by omega
  exact hne (cell_inj hi hdlt hd).1

/-- The same with lines in planes of `lines` of them each. -/
theorem not_mem_span_plane {lines width plane plane' line line' i : ℕ} (hline : line < lines)
    (hline' : line' < lines) (hi : i < width) (hne : (plane', line') ≠ (plane, line)) :
    ¬ (plane * (lines * width) + line * width ≤ plane' * (lines * width) + line' * width + i ∧
      plane' * (lines * width) + line' * width + i
        < plane * (lines * width) + line * width + width) := by
  have haddr (a b : ℕ) : a * (lines * width) + b * width = (a * lines + b) * width := by ring
  rw [haddr, haddr]
  refine not_mem_span hi fun heq => hne ?_
  obtain ⟨rfl, rfl⟩ := cell_inj hline' hline heq
  rfl

/-! ### Scattered lines -/

/-- `buf[line][i] := op buf[line][i] (f i)` over `width` cells, for each item `(line, f)` in turn.
-/
def scatterAdd (op : F → F → F) (width : ℕ) (items : List (ℕ × (ℕ → F))) (buf : List F) : List F :=
  items.foldl (fun buf item => addSpan op buf (item.1 * width) ((List.range width).map item.2)) buf

/-- `buf[line][i] := f i` over `width` cells, for each item `(line, f)` in turn. -/
def scatterSet (width : ℕ) (items : List (ℕ × (ℕ → F))) (buf : List F) : List F :=
  items.foldl (fun buf item => setSpan buf (item.1 * width) width item.2) buf

@[simp] theorem length_scatterAdd (op : F → F → F) (width : ℕ) (items : List (ℕ × (ℕ → F)))
    (buf : List F) :
    (scatterAdd op width items buf).length = buf.length := by
  induction items generalizing buf with
  | nil => rfl
  | cons item items ih => rw [scatterAdd, List.foldl_cons, ← scatterAdd, ih, length_addSpan]

@[simp] theorem length_scatterSet (width : ℕ) (items : List (ℕ × (ℕ → F))) (buf : List F) :
    (scatterSet width items buf).length = buf.length := by
  induction items generalizing buf with
  | nil => rfl
  | cons item items ih => rw [scatterSet, List.foldl_cons, ← scatterSet, ih, length_setSpan]

/-- A cell takes the items of its line, in their order. -/
theorem getElem?_scatterAdd {op : F → F → F} {width : ℕ} {items : List (ℕ × (ℕ → F))} {buf : List F}
    {line i : ℕ} (hi : i < width) : (scatterAdd op width items buf)[line * width + i]? =
      buf[line * width + i]?.map fun v =>
        (items.filter (·.1 = line)).foldl (fun v item => op v (item.2 i)) v := by
  induction items generalizing buf with
  | nil => simp [scatterAdd]
  | cons item items ih =>
    rw [scatterAdd, List.foldl_cons, ← scatterAdd, ih]
    by_cases hline : item.1 = line
    · subst hline
      rw [getElem?_addSpan_add (by simpa using hi), List.filter_cons_of_pos (by simp),
        List.getElem_map,
        List.getElem_range, Option.map_map]
      rfl
    · rw [getElem?_addSpan_of_not, List.filter_cons_of_neg (by simpa using hline)]
      rw [List.length_map, List.length_range]
      exact not_mem_span hi fun heq => hline heq.symm

/-- A cell of a line that one item is for. -/
theorem getElem?_scatterSet {width : ℕ} {items : List (ℕ × (ℕ → F))} {buf : List F}
    (hnodup : (items.map (·.1)).Nodup) {item : ℕ × (ℕ → F)} (hitem : item ∈ items) {i : ℕ}
    (hi : i < width)
    (hin : item.1 * width + i < buf.length) :
    (scatterSet width items buf)[item.1 * width + i]? = some (item.2 i) := by
  induction items generalizing buf with
  | nil => exact absurd hitem List.not_mem_nil
  | cons head items ih =>
    rw [List.map_cons, List.nodup_cons] at hnodup
    rw [scatterSet, List.foldl_cons, ← scatterSet]
    rcases List.mem_cons.mp hitem with rfl | hmem
    · -- no later item writes the line again
      have hrest {buf : List F} : (scatterSet width items buf)[item.1 * width + i]? =
          buf[item.1 * width + i]? := by
        have hnot := hnodup.1
        clear ih hin hnodup hitem
        induction items generalizing buf with
        | nil => rfl
        | cons head items ih =>
          rw [List.map_cons, List.mem_cons, not_or] at hnot
          rw [scatterSet, List.foldl_cons, ← scatterSet, ih hnot.2, getElem?_setSpan,
            if_neg (not_mem_span hi hnot.1)]
      rw [hrest, getElem?_setSpan, if_pos ⟨Nat.le_add_right _ _, Nat.add_lt_add_left hi _⟩,
        List.getElem?_eq_getElem hin, Option.map_some, Nat.add_sub_cancel_left]
    · exact ih hnodup.2 hmem (by rwa [length_setSpan])

/-! ### Slots -/

/-- The pairs `(rank, token)` with `rank < m` and `token < n`. -/
def slots (m n : ℕ) : List (ℕ × ℕ) := List.range m ×ˢ List.range n

theorem mem_slots {m n rank token : ℕ} : (rank, token) ∈ slots m n ↔ rank < m ∧ token < n := by
  simp [slots]

theorem length_slots (m n : ℕ) : (slots m n).length = m * n := by
  simp [slots, List.length_product]

theorem nodup_slots (m n : ℕ) : (slots m n).Nodup :=
  List.nodup_range.product List.nodup_range

/-- A column of the table has one slot per line. -/
theorem countP_slots {m n token : ℕ} (htoken : token < n) :
    (slots m n).countP (fun x => x.2 = token) = m := by
  have hrow (rank : ℕ) : ((List.range n).map (Prod.mk rank)).countP (fun x => x.2 = token) = 1 := by
    have hone : (List.range n).count token = 1 :=
      List.count_eq_one_of_mem List.nodup_range (List.mem_range.mpr htoken)
    rw [List.countP_map, ← hone]
    rfl
  rw [slots, show List.range m ×ˢ List.range n
    = (List.range m).flatMap fun rank => (List.range n).map (Prod.mk rank) from rfl,
    List.countP_flatMap]
  simp [Function.comp_def, hrow]

/-- Keys without repetition pick out one entry each. -/
theorem filter_eq_singleton {α β : Type*} [DecidableEq β] {f : α → β} {l : List α}
    (hl : (l.map f).Nodup) {a : α} (ha : a ∈ l) : l.filter (fun x => f x = f a) = [a] := by
  induction l with
  | nil => exact absurd ha List.not_mem_nil
  | cons b l ih =>
    obtain ⟨hb, hl⟩ := List.nodup_cons.mp hl
    have hne {x : α} (hx : x ∈ l) : f x ≠ f b := fun heq =>
      hb (heq ▸ List.mem_map_of_mem hx)
    rcases List.mem_cons.mp ha with rfl | hmem
    · rw [List.filter_cons_of_pos (by simp), List.filter_eq_nil_iff.mpr]
      intro x hx
      simpa using hne hx
    · rw [List.filter_cons_of_neg (by simpa using (hne hmem).symm), ih hl hmem]

/-- Distinct slots of the table, as many as it has, are each of them once. -/
theorem perm_slots_of_nodup {m n : ℕ} {l : List (ℕ × ℕ)} (hl : l.Nodup) (hsub : l ⊆ slots m n)
    (hlen : l.length = n * m) : l.Perm (slots m n) := by
  refine (List.subperm_of_subset hl hsub).perm_of_length_le ?_
  rw [length_slots, hlen, Nat.mul_comm]

end Grid

end Mimo26

import Mathlib.Data.List.Infix

/-!
# Searching a sequence

`find pat s` is where `pat` first occurs in `s`. A pattern that does not repeat its first symbol
cannot overlap itself, so its first occurrence is wherever nothing before it holds one: the
searches of a scanner for its tags are read off from how the text is put together.

## Main definitions

* `find`, `HeadOnce` — a search, and a pattern that does not repeat its first symbol

## Main results

* `find_append`, `exists_of_find`, `find_eq_none` — what a search says of the text
-/

namespace Mimo26

namespace Search

variable {α : Type*}

/-- Where the first occurrence of `pat` begins. -/
def find [DecidableEq α] (pat : List α) : List α → Option ℕ
  | [] => if pat = [] then some 0 else none
  | c :: s => if pat <+: c :: s then some 0 else (find pat s).map (· + 1)

/-- The first symbol of the pattern stands nowhere else in it. -/
def HeadOnce (pat : List α) : Prop := ∃ c p, pat = c :: p ∧ c ∉ p

variable {pat s head t : List α} {c : α}

theorem HeadOnce.ne_nil (h : HeadOnce pat) : pat ≠ [] := by
  obtain ⟨c, p, rfl, -⟩ := h
  exact List.cons_ne_nil c p

theorem headOnce_cons {p : List α} (h : c ∉ p) : HeadOnce (c :: p) := ⟨c, p, rfl, h⟩

/-- A list without `c` that begins a text with a `c` in it ends before that `c`. -/
theorem prefix_append_cons {p l : List α} (hc : c ∉ p) (h : p <+: l ++ c :: t) : p <+: l := by
  induction p generalizing l with
  | nil => exact List.nil_prefix
  | cons a p ih =>
    cases l with
    | nil =>
      obtain ⟨rfl, -⟩ := List.cons_prefix_cons.mp h
      exact absurd List.mem_cons_self hc
    | cons b l =>
      obtain ⟨rfl, htail⟩ := List.cons_prefix_cons.mp h
      exact List.cons_prefix_cons.mpr ⟨rfl, ih (fun hmem => hc (List.mem_cons_of_mem _ hmem)) htail⟩

/-- An occurrence that begins in a text without one, but ends after it, begins with all that is
left of the text. -/
theorem drop_begins_of_begins {i : ℕ} (hnot : ¬ pat <:+: s) (h : pat <+: (s ++ t).drop i)
    (hi : i ≤ s.length) : s.drop i <+: pat := by
  rw [List.drop_append_of_le_length hi] at h
  rcases List.prefix_or_prefix_of_prefix h (List.prefix_append (s.drop i) t) with hpre | hpre
  · exact absurd (hpre.isInfix.trans (List.drop_suffix i s).isInfix) hnot
  · exact hpre

/-- An occurrence does not begin in a text without the pattern's first symbol. -/
theorem infix_of_notMem {p q : List α} (hc : c ∉ q) (h : c :: p <:+: q ++ s) : c :: p <:+: s := by
  induction q with
  | nil => exact h
  | cons a q ih =>
    rw [List.mem_cons, not_or] at hc
    rcases List.infix_cons_iff.mp h with hpre | hin
    · exact absurd (List.cons_prefix_cons.mp hpre).1 hc.1
    · exact ih hc.2 hin

/-- Two patterns of which neither begins the other do not begin one text. -/
theorem not_prefix_append {pat pat' : List α} (h : ¬ pat <+: pat') (h' : ¬ pat' <+: pat)
    (t : List α) : ¬ pat <+: pat' ++ t := by
  intro hpre
  rcases List.prefix_or_prefix_of_prefix hpre (List.prefix_append pat' t) with hpre | hpre
  · exact h hpre
  · exact h' hpre

variable [DecidableEq α]

theorem find_of_begins (h : pat <+: s) : find pat s = some 0 := by
  cases s with
  | nil => rw [find, if_pos (List.prefix_nil.mp h)]
  | cons c s => rw [find, if_pos h]

theorem find_cons_of_not (h : ¬ pat <+: c :: s) : find pat (c :: s) = (find pat s).map (· + 1) := by
  rw [find, if_neg h]

theorem find_eq_none (hpat : pat ≠ []) : find pat s = none ↔ ¬ pat <:+: s := by
  induction s with
  | nil => simp [find, hpat]
  | cons c s ih =>
    rw [List.infix_cons_iff, not_or]
    by_cases hpre : pat <+: c :: s
    · simp [find_of_begins hpre, hpre]
    · rw [find_cons_of_not hpre, Option.map_eq_none_iff, ih, and_iff_right hpre]

/-- What comes before the first occurrence holds none. -/
theorem exists_of_find (hpat : pat ≠ []) {i : ℕ} (h : find pat s = some i) :
    ∃ head t, s = head ++ (pat ++ t) ∧ head.length = i ∧ ¬ pat <:+: head := by
  induction s generalizing i with
  | nil => simp [find, hpat] at h
  | cons c s ih =>
    by_cases hpre : pat <+: c :: s
    · rw [find_of_begins hpre] at h
      obtain rfl := Option.some.inj h
      obtain ⟨t, ht⟩ := hpre
      exact ⟨[], t, ht.symm, rfl, fun hin => hpat (List.infix_nil.mp hin)⟩
    · rw [find_cons_of_not hpre] at h
      obtain ⟨j, hj, rfl⟩ := Option.map_eq_some_iff.mp h
      obtain ⟨head, t, rfl, hlen, hnot⟩ := ih hj
      refine ⟨c :: head, t, rfl, by rw [List.length_cons, hlen], fun hin => ?_⟩
      rcases List.infix_cons_iff.mp hin with hin | hin
      · exact hpre (hin.trans (List.prefix_append (c :: head) (pat ++ t)))
      · exact hnot hin

/-- A text that holds a pattern has a first occurrence of it. -/
theorem exists_first (hpat : pat ≠ []) (h : pat <:+: s) :
    ∃ head t, s = head ++ (pat ++ t) ∧ ¬ pat <:+: head := by
  obtain ⟨i, hi⟩ := Option.ne_none_iff_exists'.mp fun hnone => (find_eq_none hpat).mp hnone h
  obtain ⟨head, t, hs, -, hhead⟩ := exists_of_find hpat hi
  exact ⟨head, t, hs, hhead⟩

/-- **The first occurrence** is the one before which there is none. -/
theorem find_append (hpat : HeadOnce pat) (hhead : ¬ pat <:+: head) (t : List α) :
    find pat (head ++ (pat ++ t)) = some head.length := by
  induction head with
  | nil => exact find_of_begins (List.prefix_append pat t)
  | cons a head ih =>
    rw [List.infix_cons_iff, not_or] at hhead
    have hpre : ¬ pat <+: a :: (head ++ (pat ++ t)) := by
      intro hpre
      refine hhead.1 ?_
      obtain ⟨c, p, rfl, hc⟩ := hpat
      obtain ⟨rfl, htail⟩ := List.cons_prefix_cons.mp hpre
      exact List.cons_prefix_cons.mpr ⟨rfl, prefix_append_cons hc htail⟩
    rw [List.cons_append, find_cons_of_not hpre, ih hhead.2, Option.map_some, List.length_cons]

/-- A search goes past a text without the pattern that ends at another of its first symbols. -/
theorem find_append_cons {p x y : List α} (hc : c ∉ p) (hx : ¬ c :: p <:+: x) :
    find (c :: p) (x ++ c :: y) = (find (c :: p) (c :: y)).map (· + x.length) := by
  induction x with
  | nil => simp
  | cons a x ih =>
    rw [List.infix_cons_iff, not_or] at hx
    have hpre : ¬ c :: p <+: a :: (x ++ c :: y) := by
      intro hpre
      obtain ⟨rfl, htail⟩ := List.cons_prefix_cons.mp hpre
      exact hx.1 (List.cons_prefix_cons.mpr ⟨rfl, prefix_append_cons hc htail⟩)
    rw [List.cons_append, find_cons_of_not hpre, ih hx.2, Option.map_map, List.length_cons]
    rfl

/-- A search goes past another pattern with the same first symbol. -/
theorem find_pattern_append {p q : List α} (hq : c ∉ q) (h : ¬ p <+: q) (h' : ¬ q <+: p)
    (t : List α) : find (c :: p) (c :: q ++ t) = (find (c :: p) t).map (· + (c :: q).length) := by
  have hpast : find (c :: p) (q ++ t) = (find (c :: p) t).map (· + q.length) := by
    clear h h'
    induction q with
    | nil => simp
    | cons a q ih =>
      rw [List.mem_cons, not_or] at hq
      have hpre : ¬ c :: p <+: a :: (q ++ t) := fun hpre => hq.1 (List.cons_prefix_cons.mp hpre).1
      rw [List.cons_append, find_cons_of_not hpre, ih hq.2, Option.map_map, List.length_cons]
      rfl
  have hpre : ¬ c :: p <+: c :: (q ++ t) := fun hpre =>
    not_prefix_append h h' t (List.cons_prefix_cons.mp hpre).2
  rw [List.cons_append, find_cons_of_not hpre, hpast, Option.map_map, List.length_cons]
  rfl

/-- Two first occurrences in one text are one. -/
theorem append_inj_of_first {head' t' : List α} (hpat : HeadOnce pat) (h : ¬ pat <:+: head)
    (h' : ¬ pat <:+: head') (heq : head ++ (pat ++ t) = head' ++ (pat ++ t')) :
    head = head' ∧ t = t' := by
  have hlen : head.length = head'.length := by
    have hfind := find_append hpat h t
    rw [heq, find_append hpat h' t'] at hfind
    exact (Option.some.inj hfind).symm
  obtain ⟨rfl, htail⟩ := List.append_inj heq hlen
  exact ⟨rfl, List.append_cancel_left htail⟩

/-- A text around what a search finds in it. -/
theorem eq_of_find {i : ℕ} (hpat : pat ≠ []) (h : find pat s = some i) :
    s = s.take i ++ (pat ++ s.drop (i + pat.length)) := by
  obtain ⟨head, t, rfl, rfl, -⟩ := exists_of_find hpat h
  rw [List.take_left, List.drop_length_add_append, List.drop_left]

/-- Before what a search finds, and anywhere if it finds nothing, the pattern does not occur. -/
theorem not_infix_take {i : ℕ} (hpat : pat ≠ []) (h : ∀ j ∈ find pat s, i ≤ j) :
    ¬ pat <:+: s.take i := by
  intro hin
  cases hfind : find pat s with
  | none => exact (find_eq_none hpat).mp hfind (hin.trans (List.take_prefix i s).isInfix)
  | some j =>
    obtain ⟨head, t, rfl, rfl, hnot⟩ := exists_of_find hpat hfind
    rw [List.take_append_of_le_length (h _ hfind)] at hin
    exact hnot (hin.trans (List.take_prefix i head).isInfix)

/-- A text without an occurrence that begins in its first part has none if its second part has none.
-/
theorem not_infix_append {a : List α} (ha : ∀ i < a.length, ¬ pat <+: (a ++ s).drop i)
    (hs : ¬ pat <:+: s) : ¬ pat <:+: a ++ s := by
  induction a with
  | nil => exact hs
  | cons c a ih =>
    rw [List.cons_append, List.infix_cons_iff, not_or]
    refine ⟨ha 0 (Nat.succ_pos _), ih fun i hi => ?_⟩
    exact ha (i + 1) (Nat.succ_lt_succ hi)

theorem find_le {i : ℕ} (hpat : pat ≠ []) (h : find pat s = some i) :
    i + pat.length ≤ s.length := by
  obtain ⟨head, t, rfl, rfl, -⟩ := exists_of_find hpat h
  rw [List.length_append, List.length_append]
  omega

/-- A search finds an occurrence, or an earlier one. -/
theorem exists_find_le {i : ℕ} (h : pat <+: s.drop i) : ∃ j, find pat s = some j ∧ j ≤ i := by
  induction s generalizing i with
  | nil =>
    rw [List.drop_nil] at h
    exact ⟨0, find_of_begins h, Nat.zero_le i⟩
  | cons c s ih =>
    by_cases hpre : pat <+: c :: s
    · exact ⟨0, find_of_begins hpre, Nat.zero_le i⟩
    · cases i with
      | zero => exact absurd h hpre
      | succ i =>
        obtain ⟨j, hj, hle⟩ := ih h
        exact ⟨j + 1, by rw [find_cons_of_not hpre, hj, Option.map_some], Nat.succ_le_succ hle⟩

/-- An occurrence that begins in the first part of a text without one leaves a part of the pattern
at its end. -/
theorem exists_part_of_begins {i : ℕ} (hnot : ¬ pat <:+: s) (h : pat <+: (s ++ t).drop i)
    (hi : i < s.length) :
    ∃ q, q ≠ [] ∧ q <+: pat ∧ q.length < pat.length ∧ q <:+ s := by
  have hq := drop_begins_of_begins hnot h hi.le
  refine ⟨s.drop i, ?_, hq, ?_, List.drop_suffix i s⟩
  · rwa [Ne, List.drop_eq_nil_iff, Nat.not_le]
  · refine Nat.lt_of_le_of_ne hq.length_le fun hlen => hnot ?_
    rw [← hq.eq_of_length hlen]
    exact (List.drop_suffix i s).isInfix

/-! ### A single symbol -/

/-- Where a single symbol is first found. -/
theorem find_char (h : c ∉ head) (t : List α) : find [c] (head ++ c :: t) = some head.length :=
  find_append ⟨c, [], rfl, List.not_mem_nil⟩ (mt (List.singleton_infix_iff c head).mp h) t

theorem find_char_none (h : c ∉ s) : find [c] s = none :=
  (find_eq_none (List.cons_ne_nil c [])).mpr (mt (List.singleton_infix_iff c s).mp h)

theorem exists_of_find_char {i : ℕ} (h : find [c] s = some i) :
    ∃ head t, s = head ++ c :: t ∧ head.length = i ∧ c ∉ head := by
  obtain ⟨head, t, hs, hi, hhead⟩ := exists_of_find (List.cons_ne_nil c []) h
  exact ⟨head, t, hs, hi, mt (List.singleton_infix_iff c head).mpr hhead⟩

theorem append_inj_char {head' t' : List α} (h : c ∉ head) (h' : c ∉ head')
    (heq : head ++ c :: t = head' ++ c :: t') : head = head' ∧ t = t' :=
  append_inj_of_first ⟨c, [], rfl, List.not_mem_nil⟩ (mt (List.singleton_infix_iff c head).mp h)
    (mt (List.singleton_infix_iff c head').mp h') heq

end Search

end Mimo26

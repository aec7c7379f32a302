import Mathlib.Data.List.Basic
import Mathlib.Tactic.Ring

/-!
# A list in pages

A list cut into pages of one size, the last of which may be shorter. Appending to the list, up to
the end of its last page, appends to that page or begins a new one; the other pages stay.

## Main definitions

* `page`, `pageCount`, `pages`

## Main results

* `page_append_of_lt`, `page_append_last` — the pages after an append
* `drop_take_page` — a range in a page is one in the list
* `flatten_pages` — the pages in order are the list
-/

namespace Mimo26

namespace Pages

variable {α : Type*} {size : ℕ}

def page (size : ℕ) (l : List α) (p : ℕ) : List α := (l.drop (p * size)).take size

/-- How many pages hold `n` entries. -/
def pageCount (size n : ℕ) : ℕ := (n + size - 1) / size

def pages (size : ℕ) (l : List α) : List (List α) :=
  (List.range (pageCount size l.length)).map (page size l)

/-! ### How many pages -/

theorem pageCount_of_mod_eq_zero (hsize : 0 < size) {n : ℕ} (h : n % size = 0) :
    pageCount size n = n / size := by
  have hn := Nat.div_add_mod' n size
  rw [h, Nat.add_zero] at hn
  rw [pageCount]
  refine Nat.div_eq_of_lt_le ?_ ?_
  · omega
  · rw [Nat.succ_mul]
    omega

theorem pageCount_of_mod_pos (hsize : 0 < size) {n : ℕ} (h : 0 < n % size) :
    pageCount size n = n / size + 1 := by
  have hn := Nat.div_add_mod' n size
  have hlt := Nat.mod_lt n hsize
  rw [pageCount]
  refine Nat.div_eq_of_lt_le ?_ ?_
  · rw [Nat.succ_mul]
    omega
  · rw [Nat.succ_mul, Nat.succ_mul]
    omega

/-- Up to the end of the page in hand. -/
theorem pageCount_add (hsize : 0 < size) {n d : ℕ} (hd : 0 < d) (hle : d ≤ size - n % size) :
    pageCount size (n + d) = n / size + 1 := by
  have hn := Nat.div_add_mod' n size
  have hlt := Nat.mod_lt n hsize
  rw [pageCount]
  refine Nat.div_eq_of_lt_le ?_ ?_
  · rw [Nat.succ_mul]
    omega
  · rw [Nat.succ_mul, Nat.succ_mul]
    omega

theorem div_lt_pageCount (hsize : 0 < size) {n t : ℕ} (ht : t < n) : t / size < pageCount size n := by
  have hle : t / size + 1 ≤ (t + size) / size := by rw [Nat.add_div_right _ hsize]
  exact hle.trans (Nat.div_le_div_right (by omega))

/-! ### What they hold -/

theorem length_page (l : List α) (p : ℕ) :
    (page size l p).length = min size (l.length - p * size) := by
  rw [page, List.length_take, List.length_drop]

/-- A full page stays. -/
theorem page_append_of_lt {l m : List α} {p : ℕ} (hp : p < l.length / size) :
    page size (l ++ m) p = page size l p := by
  have hle : (p + 1) * size ≤ l.length :=
    (Nat.mul_le_mul_right size hp).trans (Nat.div_mul_le_self _ _)
  rw [Nat.succ_mul] at hle
  rw [page, page, List.drop_append_of_le_length (by omega),
    List.take_append_of_le_length (by rw [List.length_drop]; omega)]

/-- **An append** up to the end of the last page. -/
theorem page_append_last {l m : List α} (hm : m.length ≤ size - l.length % size) :
    page size (l ++ m) (l.length / size) = page size l (l.length / size) ++ m := by
  have hl := Nat.div_add_mod' l.length size
  have hdrop : (l.drop (l.length / size * size)).length = l.length % size := by
    rw [List.length_drop]
    omega
  rcases Nat.eq_zero_or_pos size with rfl | hsize
  · obtain rfl : m = [] := List.eq_nil_of_length_eq_zero (by omega)
    rw [List.append_nil, List.append_nil]
  · have hlt := Nat.mod_lt l.length hsize
    rw [page, page, List.drop_append_of_le_length (by omega), List.take_of_length_le,
      List.take_of_length_le (by omega)]
    rw [List.length_append]
    omega

/-- A page that nothing was put in. -/
theorem page_eq_nil {l : List α} (h : l.length % size = 0) : page size l (l.length / size) = [] := by
  have hl := Nat.div_add_mod' l.length size
  rw [page, List.drop_eq_nil_of_le (by omega), List.take_nil]

/-- **A range in a page** is one in the list. -/
theorem drop_take_page (l : List α) {p off n : ℕ} (h : off + n ≤ size) :
    ((page size l p).drop off).take n = (l.drop (p * size + off)).take n := by
  rw [page, List.drop_take, List.drop_drop, List.take_take, Nat.min_eq_left (by omega)]

/-- **The pages in order** are the list. -/
theorem flatten_pages (hsize : 0 < size) (l : List α) : (pages size l).flatten = l := by
  have hprefix : ∀ n, ((List.range n).map (page size l)).flatten = l.take (n * size) := by
    intro n
    induction n with
    | zero => rw [Nat.zero_mul, List.take_zero]; rfl
    | succ n ih =>
      rw [List.range_succ, List.map_append, List.flatten_append, ih, List.map_singleton,
        List.flatten_singleton, page, Nat.succ_mul, List.take_add]
  rw [pages, hprefix, List.take_of_length_le]
  by_contra hlt
  have hcount := @div_lt_pageCount size hsize l.length (pageCount size l.length * size) (by omega)
  rw [Nat.mul_div_cancel _ hsize] at hcount
  exact Nat.lt_irrefl _ hcount

theorem flatMap_pages {β : Type*} (hsize : 0 < size) (l : List α) (f : α → List β) :
    (List.range (pageCount size l.length)).flatMap (fun p => (page size l p).flatMap f) =
      l.flatMap f := by
  conv_rhs => rw [← flatten_pages hsize l]
  rw [pages, List.flatten_eq_flatMap, List.flatMap_assoc, List.flatMap_map]
  rfl

end Pages

end Mimo26

import Mathlib.Data.List.Basic
import Mimo26.Library.Grid
import Mimo26.Library.Result

/-!
# Matrices of the checkpoint loader

Row-major matrices (`Mat` of `lib.rs`), and the loop that fills one row after row. A step fails
with a `LoadError`; `panic` is a subscript out of range, a failed assertion or a division by zero.

## Main definitions

* `LoadError`, `Stop` — failures
* `Mat` — matrices: `get`, `sliceRows`, `stackRows`
* `Mat.fill` — `zeros` and a loop of `set`s over every cell

## Main results

* `Mat.fill_eq_ok` — the cells of a filled matrix
* `Mat.stackRows_eq_ok` — those of stacked ones
-/

namespace Mimo26

namespace Load

open Grid Result

inductive LoadError where
  | unevenShardRows (rows : List ℕ)
  | segmentMismatch (shard got expected : ℕ)
  | shardListMismatch
  | shapeMismatch (what : String)
  deriving DecidableEq, Repr

inductive Stop where
  | error (e : LoadError)
  | panic
  deriving DecidableEq, Repr

/-- A row-major matrix. -/
structure Mat (α : Type) where
  rows : ℕ
  cols : ℕ
  data : List α
  length_data : data.length = rows * cols

namespace Mat

variable {α : Type}

def get (m : Mat α) (r c : ℕ) : Except Stop α :=
  match m.data[r * m.cols + c]? with
  | some x => .ok x
  | none => .error .panic

/-- The matrix of no rows. -/
def none (cols : ℕ) : Mat α := ⟨0, cols, [], (Nat.zero_mul cols).symm⟩

/-- One more row. -/
def pushRow (m : Mat α) (row : { l : List α // l.length = m.cols }) : Mat α :=
  ⟨m.rows + 1, m.cols, m.data ++ row.1, by
    rw [List.length_append, m.length_data, row.2, Nat.succ_mul]⟩

/-- The first `n` values of a row, in order. -/
def line (f : ℕ → Except Stop α) : (n : ℕ) → Except Stop { l : List α // l.length = n }
  | 0 => .ok ⟨[], rfl⟩
  | n + 1 => do
    let l ← line f n
    let x ← f n
    return ⟨l.1 ++ [x], by rw [List.length_append, l.2, List.length_singleton]⟩

/-- Fill a matrix row after row: a check before each row, and then its cells. -/
def fill (cols : ℕ) (check : ℕ → Except Stop Unit) (f : ℕ → ℕ → Except Stop α) :
    (rows : ℕ) → Except Stop { m : Mat α // m.cols = cols }
  | 0 => .ok ⟨none cols, rfl⟩
  | r + 1 => do
    let m ← fill cols check f r
    check r
    let row ← line (f r) m.1.cols
    return ⟨m.1.pushRow row, m.2⟩

/-- Rows `lo` to `hi`. -/
def sliceRows (m : Mat α) (lo hi : ℕ) : Except Stop (Mat α) :=
  if h : hi ≤ m.rows ∧ lo ≤ hi then
    .ok ⟨hi - lo, m.cols, (m.data.take (hi * m.cols)).drop (lo * m.cols), by
      rw [List.length_drop, List.length_take, m.length_data,
        Nat.min_eq_left (Nat.mul_le_mul_right _ h.1), Nat.sub_mul]⟩
  else .error .panic

/-- The parts below one another, all of `cols` columns. -/
def stackOnto (m : Mat α) : List (Mat α) → Except Stop (Mat α)
  | [] => .ok m
  | p :: parts =>
    if h : p.cols = m.cols then
      stackOnto ⟨m.rows + p.rows, m.cols, m.data ++ p.data, by
        rw [List.length_append, m.length_data, p.length_data, h, Nat.add_mul]⟩ parts
    else .error (.error (.shapeMismatch s!"stack_rows: cols {p.cols} != {m.cols}"))

def stackRows : List (Mat α) → Except Stop (Mat α)
  | [] => .ok (none 0)
  | p :: parts => stackOnto (none p.cols) (p :: parts)

/-! ### Cells -/

variable {m : Mat α} {r c : ℕ} {x : α}

theorem get_eq_ok : m.get r c = .ok x ↔ m.data[r * m.cols + c]? = some x := by
  rw [get]
  cases m.data[r * m.cols + c]? with
  | none => exact ⟨fun h => (by cases h), fun h => (by cases h)⟩
  | some y => rw [Except.ok.injEq, Option.some.injEq]

/-- Equal bytes at equal addresses. -/
theorem get_congr {m' : Mat α} {r' c' : ℕ}
    (h : m.data[r * m.cols + c]? = m'.data[r' * m'.cols + c']?) : m.get r c = m'.get r' c' := by
  rw [get, get, h]

/-- A cell of the matrix is read. -/
theorem exists_get (hr : r < m.rows) (hc : c < m.cols) : ∃ x, m.get r c = .ok x := by
  have hlt : r * m.cols + c < m.data.length := m.length_data ▸ cell_lt hr hc
  exact ⟨_, get_eq_ok.mpr (List.getElem?_eq_getElem hlt)⟩

theorem get_pushRow_of_lt {row : { l : List α // l.length = m.cols }} (hr : r < m.rows)
    (hc : c < m.cols) : (m.pushRow row).get r c = m.get r c :=
  get_congr (List.getElem?_append_left (m.length_data ▸ cell_lt hr hc))

theorem get_pushRow {row : { l : List α // l.length = m.cols }} (hx : row.1[c]? = some x) :
    (m.pushRow row).get m.rows c = .ok x := by
  refine get_eq_ok.mpr ?_
  change (m.data ++ row.1)[m.rows * m.cols + c]? = some x
  rw [← m.length_data, List.getElem?_append_right (Nat.le_add_right _ _), Nat.add_sub_cancel_left,
    hx]

theorem get_sliceRows {m' : Mat α} {lo hi : ℕ} (h : m.sliceRows lo hi = .ok m') :
    m'.rows = hi - lo ∧ m'.cols = m.cols ∧
      ∀ r c, r < hi - lo → c < m.cols → m'.get r c = m.get (lo + r) c := by
  rw [sliceRows] at h
  split at h
  · obtain rfl := Except.ok.inj h
    refine ⟨rfl, rfl, fun r c hr hc => get_congr ?_⟩
    dsimp only
    have hlt : (lo + r) * m.cols + c < hi * m.cols := cell_lt (by omega) hc
    rw [Nat.add_mul] at hlt ⊢
    rw [List.getElem?_drop, List.getElem?_take_of_lt (by omega), Nat.add_assoc]
  · cases h

/-- **The values of a row** are those of the loop. -/
theorem line_eq_ok {f : ℕ → Except Stop α} {n : ℕ} {l : { l : List α // l.length = n }}
    (h : line f n = .ok l) {c : ℕ} (hc : c < n) : ∃ x, f c = .ok x ∧ l.1[c]? = some x := by
  induction n with
  | zero => exact absurd hc (Nat.not_lt_zero c)
  | succ n ih =>
    obtain ⟨l', hl', h⟩ := bind_eq_ok.mp h
    obtain ⟨x, hx, h⟩ := bind_eq_ok.mp h
    obtain rfl := Except.ok.inj h
    dsimp only
    rcases Nat.lt_succ_iff_lt_or_eq.mp hc with hlt | rfl
    · obtain ⟨y, hy, hget⟩ := ih hl' hlt
      exact ⟨y, hy, by rw [List.getElem?_append_left (l'.2.symm ▸ hlt), hget]⟩
    · refine ⟨x, hx, ?_⟩
      rw [List.getElem?_append_right l'.2.le, l'.2, Nat.sub_self]
      rfl

/-- **The cells of a filled matrix** are those of the loop, and its checks have passed. -/
theorem fill_eq_ok {cols rows : ℕ} {check : ℕ → Except Stop Unit} {f : ℕ → ℕ → Except Stop α}
    {m : { m : Mat α // m.cols = cols }} (h : fill cols check f rows = .ok m) :
    m.1.rows = rows ∧ ∀ r < rows, check r = .ok () ∧
      ∀ c < cols, ∃ x, f r c = .ok x ∧ m.1.get r c = .ok x := by
  induction rows generalizing m with
  | zero =>
    obtain rfl := Except.ok.inj h
    exact ⟨rfl, fun r hr => absurd hr (Nat.not_lt_zero r)⟩
  | succ n ih =>
    obtain ⟨m', hm', h⟩ := bind_eq_ok.mp h
    obtain ⟨⟨⟩, hcheck, h⟩ := bind_eq_ok.mp h
    obtain ⟨row, hrow, h⟩ := bind_eq_ok.mp h
    obtain rfl := Except.ok.inj h
    obtain ⟨hrows, hcells⟩ := ih hm'
    refine ⟨congrArg (· + 1) hrows, fun r hr => ?_⟩
    rcases Nat.lt_succ_iff_lt_or_eq.mp hr with hlt | rfl
    · obtain ⟨hcheck', hline⟩ := hcells r hlt
      refine ⟨hcheck', fun c hc => ?_⟩
      obtain ⟨x, hx, hget⟩ := hline c hc
      exact ⟨x, hx, by rw [get_pushRow_of_lt (hrows ▸ hlt) (m'.2.symm ▸ hc), hget]⟩
    · refine ⟨hcheck, fun c hc => ?_⟩
      obtain ⟨x, hx, hget⟩ := line_eq_ok hrow (m'.2.symm ▸ hc)
      exact ⟨x, hx, hrows ▸ get_pushRow hget⟩

theorem stackOnto_eq_ok {parts : List (Mat α)} {m m' : Mat α} (h : stackOnto m parts = .ok m') :
    m'.cols = m.cols ∧ (∀ p ∈ parts, p.cols = m.cols) ∧
      m'.rows = m.rows + (parts.map rows).sum ∧ m'.data = m.data ++ parts.flatMap data := by
  induction parts generalizing m with
  | nil =>
    obtain rfl := Except.ok.inj h
    exact ⟨rfl, List.forall_mem_nil _, rfl, (List.append_nil _).symm⟩
  | cons p parts ih =>
    rw [stackOnto] at h
    split at h
    · next hcols =>
      obtain ⟨hcols', hparts, hrows, hdata⟩ := ih h
      refine ⟨hcols', List.forall_mem_cons.mpr ⟨hcols, hparts⟩, ?_, ?_⟩
      · rw [hrows, List.map_cons, List.sum_cons, Nat.add_assoc]
      · rw [hdata, List.flatMap_cons, List.append_assoc]
    · cases h

theorem stackRows_eq_ok {parts : List (Mat α)} {m : Mat α} (h : stackRows parts = .ok m) :
    (∀ p ∈ parts, p.cols = m.cols) ∧ m.rows = (parts.map rows).sum ∧
      m.data = parts.flatMap data := by
  cases parts with
  | nil =>
    obtain rfl := Except.ok.inj h
    exact ⟨List.forall_mem_nil _, rfl, rfl⟩
  | cons p parts =>
    obtain ⟨hcols, hparts, hrows, hdata⟩ := stackOnto_eq_ok h
    refine ⟨fun p' hp' => (hparts p' hp').trans hcols.symm, ?_, hdata⟩
    rw [hrows]
    exact Nat.zero_add _

/-- **A part of a stack** lies below those before it. -/
theorem get_stackRows {before after : List (Mat α)} {p m : Mat α}
    (h : stackRows (before ++ p :: after) = .ok m) {i c : ℕ} (hi : i < p.rows) (hc : c < p.cols) :
    m.get ((before.map rows).sum + i) c = p.get i c := by
  obtain ⟨hcols, -, hdata⟩ := stackRows_eq_ok h
  have hp : p.cols = m.cols := hcols p (by simp)
  have hbefore : (before.flatMap data).length = (before.map rows).sum * m.cols := by
    have hall : ∀ q ∈ before, q.cols = m.cols := fun q hq => hcols q (by simp [hq])
    clear hdata hcols h
    induction before with
    | nil => exact (Nat.zero_mul _).symm
    | cons q before ih =>
      obtain ⟨hq, hall⟩ := List.forall_mem_cons.mp hall
      rw [List.flatMap_cons, List.length_append, ih hall, q.length_data, hq, List.map_cons,
        List.sum_cons, Nat.add_mul]
  refine get_congr ?_
  rw [hdata, List.flatMap_append, List.flatMap_cons, Nat.add_mul, Nat.add_assoc, ← hbefore,
    List.getElem?_append_right (Nat.le_add_right _ _), Nat.add_sub_cancel_left, hp,
    List.getElem?_append_left]
  rw [p.length_data, ← hp]
  exact cell_lt hi hc

end Mat

/-! ### Panics -/

/-- The step does not panic. -/
def Safe {α : Type} (x : Except Stop α) : Prop := x ≠ .error .panic

namespace Safe

variable {α β : Type}

theorem ok (a : α) : Safe (Except.ok a) := fun h => (by cases h)

theorem error (e : LoadError) : Safe (Except.error (.error e) : Except Stop α) :=
  fun h => (by cases h)

theorem bind {x : Except Stop α} {f : α → Except Stop β} (hx : Safe x)
    (hf : ∀ a, x = .ok a → Safe (f a)) : Safe (x >>= f) := by
  intro h
  rcases bind_eq_error.mp h with h | ⟨a, ha, h⟩
  · exact hx h
  · exact hf a ha h

theorem demand {p : Prop} [Decidable p] (e : LoadError) : Safe (demand p (Stop.error e)) := by
  rw [Result.demand]
  split
  · exact ok ()
  · exact error e

theorem mapM {f : α → Except Stop β} {l : List α} (h : ∀ a ∈ l, Safe (f a)) :
    Safe (l.mapM f) := by
  induction l with
  | nil => exact ok []
  | cons a l ih =>
    obtain ⟨ha, hl⟩ := List.forall_mem_cons.mp h
    rw [List.mapM_cons]
    exact bind ha fun b _ => bind (ih hl) fun bs _ => ok _

theorem line {f : ℕ → Except Stop α} {n : ℕ} (h : ∀ c < n, Safe (f c)) : Safe (Mat.line f n) := by
  induction n with
  | zero => exact ok _
  | succ n ih =>
    exact bind (ih fun c hc => h c (Nat.lt_succ_of_lt hc)) fun l _ =>
      bind (h n (Nat.lt_succ_self n)) fun x _ => ok _

theorem fill {cols rows : ℕ} {check : ℕ → Except Stop Unit} {f : ℕ → ℕ → Except Stop α}
    (hcheck : ∀ r < rows, Safe (check r))
    (hf : ∀ r < rows, check r = .ok () → ∀ c < cols, Safe (f r c)) :
    Safe (Mat.fill cols check f rows) := by
  induction rows with
  | zero => exact ok _
  | succ n ih =>
    refine bind (ih (fun r hr => hcheck r (Nat.lt_succ_of_lt hr)) fun r hr =>
      hf r (Nat.lt_succ_of_lt hr)) fun m _ => ?_
    refine bind (hcheck n (Nat.lt_succ_self n)) fun u hu => ?_
    refine bind (line fun c hc => ?_) fun row _ => ok _
    exact hf n (Nat.lt_succ_self n) hu c (m.2 ▸ hc)

theorem stackOnto {parts : List (Mat α)} (m : Mat α) : Safe (m.stackOnto parts) := by
  induction parts generalizing m with
  | nil => exact ok m
  | cons p parts ih =>
    rw [Mat.stackOnto]
    split
    · exact ih _
    · exact error _

theorem stackRows (parts : List (Mat α)) : Safe (Mat.stackRows parts) := by
  cases parts with
  | nil => exact ok _
  | cons p parts => exact stackOnto _

end Safe

end Load

end Mimo26

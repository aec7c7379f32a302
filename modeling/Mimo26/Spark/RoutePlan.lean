import Mimo26.Expert.Grouped
import Mimo26.Library.Arrange
import Mimo26.Wire.L4

/-!
# Routes and their reduction

A Spark groups the routed rows of a request by expert, replicates each token's hidden row once per
route into the FFN input, and reduces the grouped output to one weighted row per token (`route.rs`,
and the CPU reduction of `decode.rs`). Each expert's rows fill tiles of 256, 64 and 16 rows, of
which the last is padded.

`f32` arithmetic is left uninterpreted. `usize` sums and products stay in range, since there are as
many tokens as rows of the request.

## Main definitions

* `RoutePlan`, `fromRoutes` — the routing table of a request
* `replicateX`, `reduce` — the FFN input, and the sum over a token's routes
* `tokenMajorRoutes`, `cpuReduceBf16` — the table by token, and the reduction that uses it
-/

namespace Mimo26

namespace Spark

open Wire Result Expert

/-- `f32` with its multiplication too. -/
class Fp32Mul (F : Type) extends Fp32 F where
  mul : F → F → F
  toBits : F → UInt32

/-- `while r >= tile`: the tiles taken off, and what is left. -/
def peel (tile r : ℕ) : List ℕ × ℕ :=
  if 0 < tile ∧ tile ≤ r then
    let rest := peel tile (r - tile)
    (tile :: rest.1, rest.2)
  else ([], r)
termination_by r
decreasing_by omega

/-- The tiles of an expert's rows. -/
def tileM (real : ℕ) : List ℕ :=
  let (tiles256, r) := peel 256 real
  let (tiles64, r) := peel 64 r
  let (tiles16, r) := peel 16 r
  -- the last tile is padded
  tiles256 ++ (tiles64 ++ (tiles16 ++ if 0 < r then [16] else []))

/-- The routing table of a request. -/
structure RoutePlan where
  plan : GroupedPlan
  /-- The token of each routed row, in group order. -/
  rowToken : List ℕ
  rowWeight : List UInt32
  /-- The row's place in the padded matrix. -/
  rowPadded : List ℕ
  tokens : ℕ
  deriving DecidableEq, Repr

def expertOf (routes : List RouteEntry) (slot : ℕ) : ℕ := routes[slot]?.elim 0 (·.expertId.toNat)

def weightOf (routes : List RouteEntry) (slot : ℕ) : UInt32 := routes[slot]?.elim 0 (·.gateWeight)

/-- The slots of each expert, the experts ascending. -/
def byExpert (routes : List RouteEntry) : List (ℕ × List ℕ) :=
  Arrange.buckets (expertOf routes) (List.range routes.length)

/-- One group per tile, from the padded row `running` on. -/
def groupsFrom (expert : ℕ) : ℕ → List ℕ → List Group
  | _, [] => []
  | running, tile :: tiles => ⟨expert, tile, running⟩ :: groupsFrom expert (running + tile) tiles

/-- The table while it is built, and the padded rows so far. -/
structure Layout where
  groups : List Group
  rowToken : List ℕ
  rowWeight : List UInt32
  rowPadded : List ℕ
  running : ℕ

/-- Lay out the rows of one expert: they fill its tiles from the first on. -/
def Layout.addExpert (routes : List RouteEntry) (s : Layout) (bucket : ℕ × List ℕ) : Layout :=
  let (expert, slots) := bucket
  let tiles := tileM slots.length
  { groups := s.groups ++ groupsFrom expert s.running tiles
    rowToken := s.rowToken ++ slots.map (· / 8)
    rowWeight := s.rowWeight ++ slots.map (weightOf routes)
    rowPadded := s.rowPadded ++ (List.range slots.length).map (s.running + ·)
    running := s.running + tiles.sum }

def fromRoutes (routes : List RouteEntry) (tokens : ℕ) : Except String RoutePlan := do
  let n := routes.length
  let expected := tokens * 8
  demand (n = expected) s!"route: {n} routes for {tokens} tokens (expected {expected})"
  routes.zipIdx.forM fun (r, slot) => do
    let row := r.rowIndex.toNat
    let token := slot / 8
    demand (row = token) s!"route: entry {slot} row_index {row} != token {token}"
  let layout := (byExpert routes).foldl (Layout.addExpert routes) ⟨[], [], [], [], 0⟩
  return ⟨⟨layout.groups, 0⟩, layout.rowToken, layout.rowWeight, layout.rowPadded, tokens⟩

namespace RoutePlan

def paddedRows (rp : RoutePlan) : ℕ := rp.plan.totalTokens

variable {F : Type} [Fp32Mul F]

/-- Each token's hidden row once per route; padding rows are zero. -/
def replicateX (rp : RoutePlan) (hidden : List F) : Except String (List F) := do
  let n := hidden.length
  let tokens := rp.tokens
  demand (n = tokens * hiddenDim)
    s!"route: hidden has {n} elements, expected {tokens} tokens x 4096"
  return Grid.scatterSet hiddenDim ((rp.rowToken.zip rp.rowPadded).map fun (token, padded) =>
    (padded, fun h => hidden.getD (token * hiddenDim + h) Fp32.zero))
    (List.replicate (rp.paddedRows * hiddenDim) Fp32.zero)

/-- The weighted sum of a token's rows of the FFN output. -/
def reduce (rp : RoutePlan) (ffnOut : List F) : Except String (List F) := do
  let n := ffnOut.length
  let rows := rp.paddedRows
  demand (n = rows * hiddenDim)
    s!"route: ffn_out has {n} elements, expected {rows} padded rows x 4096"
  return Grid.scatterAdd Fp32.add hiddenDim
    ((rp.rowToken.zip (rp.rowWeight.zip rp.rowPadded)).map fun (token, w, padded) =>
      (token, fun h => Fp32Mul.mul (ffnOut.getD (padded * hiddenDim + h) Fp32.zero)
        (Fp32.ofBits w)))
    (List.replicate (rp.tokens * hiddenDim) Fp32.zero)

/-- Rows in token order, a token's rows as `reduce` meets them. -/
def tokenMajorOrder (rp : RoutePlan) : List ℕ :=
  (List.range rp.rowToken.length).mergeSort fun i j =>
    decide (rp.rowToken.getD i 0 ≤ rp.rowToken.getD j 0)

/-- The table in token order; the places are `i32`. -/
def tokenMajorRoutes (rp : RoutePlan) : List Int32 × List UInt32 :=
  (rp.tokenMajorOrder.map fun i => Int32.ofNat (rp.rowPadded.getD i 0),
    rp.tokenMajorOrder.map fun i => rp.rowWeight.getD i 0)

end RoutePlan

/-! ### The CPU reduction -/

/-- `p as usize`, which extends the sign. -/
def asUsize (p : Int32) : ℕ := (p.toInt % 2 ^ 64).toNat

variable {F : Type} [Fp32Mul F]

/-- The weighted row of a route; an index past the output panics. -/
def weightedRow (ffnOut : List F) (hidden p : ℕ) (w : UInt32) : Except String (List F) :=
  (List.range hidden).mapM fun h =>
    match ffnOut[p * hidden + h]? with
    | some v => .ok (Fp32Mul.mul v (Fp32.ofBits w))
    | none => .error "index out of bounds"

/-- Add row `t` of the table to its token's. -/
def cpuAddRow (ffnOut : List F) (tokens hidden : ℕ) (out : List F) (row : (Int32 × UInt32) × ℕ) :
    Except String (List F) := do
  let ((p, w), t) := row
  let token := t / 8
  demand (hidden = 0 ∨ token < tokens) "index out of bounds"
  let vals ← weightedRow ffnOut hidden (asUsize p) w
  return Grid.addSpan Fp32.add out (token * hidden) vals

/-- Accumulate each token's eight routes in the order of the table, then round. -/
def cpuReduceBf16 (ffnOut : List F) (padded : List Int32) (weight : List UInt32)
    (tokens hidden : ℕ) :
    Except String (List UInt16) := do
  let out ← ((padded.zip weight).zipIdx).foldlM (cpuAddRow ffnOut tokens hidden)
    (List.replicate (tokens * hidden) Fp32.zero)
  return out.map fun v => f32ToBf16Rne (Fp32Mul.toBits v)

/-- The experts over a padded input, row by row. -/
def runExperts (plan : GroupedPlan) (expert : ℕ → List F → List F) (x : List F) : List F :=
  (List.range plan.totalTokens).flatMap fun row =>
    expert (expertAt plan.groups row) ((x.drop (row * hiddenDim)).take hiddenDim)

/-! ### Tiles -/

theorem peel_spec {tile : ℕ} (htile : 0 < tile) (r : ℕ) : (∀ t ∈ (peel tile r).1, t = tile) ∧
    (peel tile r).1.sum + (peel tile r).2 = r ∧ (peel tile r).2 < tile := by
  induction r using Nat.strongRecOn with
  | ind r ih =>
    rw [peel]
    split
    · next h =>
      obtain ⟨hall, hsum, hlt⟩ := ih (r - tile) (by omega)
      dsimp only
      refine ⟨fun t ht => ?_, ?_, hlt⟩
      · rcases List.mem_cons.mp ht with rfl | hmem
        · rfl
        · exact hall t hmem
      · rw [List.sum_cons]
        omega
    · next h => exact ⟨nofun, by simp, by omega⟩

/-- The tiles of `real` rows: three sizes, enough of them, and fewer than 16 rows too many. -/
theorem tileM_spec (real : ℕ) : (∀ t ∈ tileM real, t = 16 ∨ t = 64 ∨ t = 256) ∧
    real ≤ (tileM real).sum ∧ (tileM real).sum < real + 16 := by
  obtain ⟨h256, hsum256, -⟩ := peel_spec (show 0 < 256 by decide) real
  obtain ⟨h64, hsum64, -⟩ := peel_spec (show 0 < 64 by decide) (peel 256 real).2
  obtain ⟨h16, hsum16, hlt⟩ := peel_spec (show 0 < 16 by decide) (peel 64 (peel 256 real).2).2
  have hlast : ∀ r : ℕ, ∀ t ∈ (if 0 < r then [16] else []), t = 16 := by
    intro r t ht
    split at ht
    · exact List.mem_singleton.mp ht
    · exact absurd ht List.not_mem_nil
  refine ⟨fun t ht => ?_, ?_⟩
  · rcases List.mem_append.mp ht with hmem | hmem
    · exact .inr (.inr (h256 t hmem))
    · rcases List.mem_append.mp hmem with hmem | hmem
      · exact .inr (.inl (h64 t hmem))
      · rcases List.mem_append.mp hmem with hmem | hmem
        · exact .inl (h16 t hmem)
        · exact .inl (hlast _ t hmem)
  · rw [tileM]
    simp only [List.sum_append]
    split
    · rw [List.sum_singleton]
      omega
    · rw [List.sum_nil]
      omega

/-! ### Groups -/

/-- The groups follow each other from row `off` on. -/
def Chained : ℕ → List Group → Prop
  | _, [] => True
  | off, g :: groups => g.tokenOffset = off ∧ Chained (off + g.tokens) groups

/-- The rows of groups. -/
def rowsOf (groups : List Group) : ℕ := (groups.map Group.tokens).sum

theorem rowsOf_cons (g : Group) (gs : List Group) : rowsOf (g :: gs) = g.tokens + rowsOf gs :=
    List.sum_cons

theorem rowsOf_append (gs gs' : List Group) : rowsOf (gs ++ gs') = rowsOf gs + rowsOf gs' := by
  rw [rowsOf, List.map_append, List.sum_append, rowsOf, rowsOf]

theorem rowsOf_groupsFrom (expert running : ℕ) (tiles : List ℕ) :
    rowsOf (groupsFrom expert running tiles) = tiles.sum := by
  induction tiles generalizing running with
  | nil => rfl
  | cons tile tiles ih =>
    rw [groupsFrom, rowsOf_cons, ih, List.sum_cons]

theorem chained_append {off : ℕ} {gs gs' : List Group} :
    Chained off (gs ++ gs') ↔ Chained off gs ∧ Chained (off + rowsOf gs) gs' := by
  induction gs generalizing off with
  | nil => simp [Chained, rowsOf]
  | cons g gs ih =>
    rw [List.cons_append, Chained, ih, Chained, and_assoc, rowsOf_cons, Nat.add_assoc]

theorem chained_groupsFrom (expert running : ℕ) (tiles : List ℕ) :
    Chained running (groupsFrom expert running tiles) := by
  induction tiles generalizing running with
  | nil => trivial
  | cons tile tiles ih => exact ⟨rfl, ih _⟩

theorem mem_groupsFrom {expert running : ℕ} {tiles : List ℕ} {g : Group}
    (hg : g ∈ groupsFrom expert running tiles) : g.expert = expert ∧ g.tokens ∈ tiles := by
  induction tiles generalizing running with
  | nil => exact absurd hg List.not_mem_nil
  | cons tile tiles ih =>
    rcases List.mem_cons.mp hg with rfl | hmem
    · exact ⟨rfl, List.mem_cons_self⟩
    · exact ⟨(ih hmem).1, List.mem_cons_of_mem tile (ih hmem).2⟩

theorem expertAt_append_left {gs : List Group} (gs' : List Group) {row : ℕ} (h : row < rowsOf gs) :
    expertAt (gs ++ gs') row = expertAt gs row := by
  induction gs generalizing row with
  | nil => exact absurd h (Nat.not_lt_zero row)
  | cons g gs ih =>
    rw [rowsOf_cons] at h
    rw [List.cons_append, expertAt, expertAt]
    split
    · rfl
    · exact ih (by omega)

theorem expertAt_append_right (gs gs' : List Group) (row : ℕ) :
    expertAt (gs ++ gs') (rowsOf gs + row) = expertAt gs' row := by
  induction gs with
  | nil => rw [rowsOf, List.map_nil, List.sum_nil, Nat.zero_add, List.nil_append]
  | cons g gs ih =>
    rw [rowsOf_cons, List.cons_append, expertAt, if_neg (by omega), Nat.add_assoc,
      Nat.add_sub_cancel_left, ih]

/-- Every row of an expert's groups is the expert's. -/
theorem expertAt_groupsFrom {expert running : ℕ} {tiles : List ℕ} {row : ℕ} (h : row < tiles.sum) :
    expertAt (groupsFrom expert running tiles) row = expert := by
  induction tiles generalizing running row with
  | nil => exact absurd h (Nat.not_lt_zero row)
  | cons tile tiles ih =>
    rw [List.sum_cons] at h
    rw [groupsFrom, expertAt]
    split
    · rfl
    · exact ih (by simp only at *; omega)

/-- The group a row lies in. -/
theorem exists_group_of_lt {off : ℕ} {gs : List Group} (hchain : Chained off gs) {row : ℕ}
    (h : row < rowsOf gs) :
    ∃ g ∈ gs, g.expert = expertAt gs row ∧ g.tokenOffset ≤ off + row ∧
        off + row < g.tokenOffset + g.tokens := by
  induction gs generalizing off row with
  | nil => exact absurd h (Nat.not_lt_zero row)
  | cons g gs ih =>
    obtain ⟨hoff, hchain⟩ := hchain
    rw [rowsOf_cons] at h
    rw [expertAt]
    split
    · next hlt => exact ⟨g, List.mem_cons_self, rfl, by omega, by omega⟩
    · next hge =>
      have hrest : row - g.tokens < rowsOf gs := by omega
      obtain ⟨g', hg', hexpert, hle, hlt⟩ := ih hchain hrest
      exact ⟨g', List.mem_cons_of_mem g hg', hexpert, by omega, by omega⟩

/-- Groups further on begin behind the rows before them. -/
theorem le_tokenOffset {off : ℕ} {gs : List Group} (hchain : Chained off gs) {g : Group}
    (hg : g ∈ gs) :
    off ≤ g.tokenOffset := by
  induction gs generalizing off with
  | nil => exact absurd hg List.not_mem_nil
  | cons g' gs ih =>
    obtain ⟨hoff, hchain⟩ := hchain
    rcases List.mem_cons.mp hg with rfl | hmem
    · exact hoff.ge
    · exact Nat.le_of_add_right_le (ih hchain hmem)

/-- Two groups share no row. -/
theorem disjoint_groups {off : ℕ} {gs : List Group} (hchain : Chained off gs) :
    gs.Pairwise fun g g' => g.tokenOffset + g.tokens ≤ g'.tokenOffset := by
  induction gs generalizing off with
  | nil => exact .nil
  | cons g gs ih =>
    obtain ⟨hoff, hchain⟩ := hchain
    refine List.pairwise_cons.mpr ⟨fun g' hg' => ?_, ih hchain⟩
    rw [hoff]
    exact le_tokenOffset hchain hg'

/-! ### The table while it is built -/

/-- The table holds the buckets `bs`. -/
structure LaysOut (routes : List RouteEntry) (s : Layout) (bs : List (ℕ × List ℕ)) : Prop where
  rowToken : s.rowToken = (bs.flatMap (·.2)).map (· / 8)
  rowWeight : s.rowWeight = (bs.flatMap (·.2)).map (weightOf routes)
  running : s.running = rowsOf s.groups
  chained : Chained 0 s.groups
  sizes : ∀ g ∈ s.groups, g.tokens = 16 ∨ g.tokens = 64 ∨ g.tokens = 256
  increasing : s.rowPadded.Pairwise (· < ·)
  below : ∀ p ∈ s.rowPadded, p < s.running
  own : s.rowPadded.map (expertAt s.groups) = bs.flatMap fun b => b.2.map fun _ => b.1
  ascending : s.groups.Pairwise (·.expert ≤ ·.expert)
  keys : ∀ g ∈ s.groups, ∃ b ∈ bs, b.1 = g.expert
  padding : ∀ b ∈ bs, b.2.length ≤ rowsOf (s.groups.filter (·.expert = b.1)) ∧
    rowsOf (s.groups.filter (·.expert = b.1)) < b.2.length + 16

theorem filter_groupsFrom (expert running : ℕ) (tiles : List ℕ) (e : ℕ) :
    (groupsFrom expert running tiles).filter (·.expert = e) =
      if expert = e then groupsFrom expert running tiles else [] :=
  Arrange.filter_run (fun _ hg => (mem_groupsFrom hg).1) e

/-- **One more expert.** -/
theorem LaysOut.addExpert {routes : List RouteEntry} {s : Layout} {bs : List (ℕ × List ℕ)} {b : ℕ ×
    List ℕ}
    (h : LaysOut routes s bs) (hnew : ∀ c ∈ bs, c.1 < b.1) :
    LaysOut routes (s.addExpert routes b) (bs ++ [b]) := by
  obtain ⟨expert, slots⟩ := b
  obtain ⟨hsizes, hge, hlt⟩ := tileM_spec slots.length
  have hnone : ∀ g ∈ s.groups, g.expert < expert := by
    intro g hg
    obtain ⟨c, hc, heq⟩ := h.keys g hg
    rw [← heq]
    exact hnew c hc
  have hplace {p : ℕ} (hp : p ∈ (List.range slots.length).map (s.running + ·)) :
      ∃ j < slots.length, p = s.running + j := by
    obtain ⟨j, hj, rfl⟩ := List.mem_map.mp hp
    exact ⟨j, List.mem_range.mp hj, rfl⟩
  rw [Layout.addExpert]
  refine ⟨?_, ?_, ?_, ?_, ?_, ?_, ?_, ?_, ?_, ?_, ?_⟩
  · rw [List.flatMap_append, List.map_append, ← h.rowToken, List.flatMap_singleton]
  · rw [List.flatMap_append, List.map_append, ← h.rowWeight, List.flatMap_singleton]
  · rw [rowsOf_append, rowsOf_groupsFrom, ← h.running]
  · refine chained_append.mpr ⟨h.chained, ?_⟩
    rw [Nat.zero_add, ← h.running]
    exact chained_groupsFrom _ _ _
  · intro g hg
    rcases List.mem_append.mp hg with hmem | hmem
    · exact h.sizes g hmem
    · exact hsizes _ (mem_groupsFrom hmem).2
  · refine List.pairwise_append.mpr ⟨h.increasing, ?_, fun p hp q hq => ?_⟩
    · exact List.pairwise_map.mpr (List.pairwise_lt_range.imp fun hij => Nat.add_lt_add_left hij _)
    · obtain ⟨j, -, rfl⟩ := hplace hq
      exact Nat.lt_add_right j (h.below p hp)
  · intro p hp
    rcases List.mem_append.mp hp with hmem | hmem
    · exact Nat.lt_add_right _ (h.below p hmem)
    · obtain ⟨j, hj, rfl⟩ := hplace hmem
      exact Nat.add_lt_add_left (Nat.lt_of_lt_of_le hj hge) _
  · have hold :
        s.rowPadded.map (expertAt (s.groups ++ groupsFrom expert s.running (tileM slots.length))) =
        s.rowPadded.map (expertAt s.groups) := by
      refine List.map_congr_left fun p hp => expertAt_append_left _ ?_
      rw [← h.running]
      exact h.below p hp
    have hadd : ((List.range slots.length).map (s.running + ·)).map
        (expertAt (s.groups ++ groupsFrom expert s.running (tileM slots.length))) =
        slots.map fun _ => expert := by
      refine List.ext_getElem (by simp) fun j hj hj' => ?_
      simp only [List.getElem_map, List.getElem_range]
      rw [h.running, expertAt_append_right]
      exact expertAt_groupsFrom (Nat.lt_of_lt_of_le (by simpa using hj) hge)
    rw [List.map_append, hold, hadd, h.own, List.flatMap_append, List.flatMap_singleton]
  · refine List.pairwise_append.mpr ⟨h.ascending, ?_, fun g hg g' hg' => ?_⟩
    · refine List.pairwise_of_forall_mem_list fun g hg g' hg' => ?_
      rw [(mem_groupsFrom hg).1, (mem_groupsFrom hg').1]
    · rw [(mem_groupsFrom hg').1]
      exact (hnone g hg).le
  · intro g hg
    rcases List.mem_append.mp hg with hmem | hmem
    · obtain ⟨c, hc, heq⟩ := h.keys g hmem
      exact ⟨c, List.mem_append_left _ hc, heq⟩
    · exact ⟨(expert, slots), List.mem_append_right _ List.mem_cons_self,
        (mem_groupsFrom hmem).1.symm⟩
  · intro c hc
    rw [List.filter_append, filter_groupsFrom]
    rcases List.mem_append.mp hc with hmem | hmem
    · rw [if_neg (hnew c hmem).ne', List.append_nil]
      exact h.padding c hmem
    · rw [List.mem_singleton.mp hmem, if_pos rfl, List.filter_eq_nil_iff.mpr, List.nil_append,
        rowsOf_groupsFrom]
      · exact ⟨hge, hlt⟩
      · intro g hg
        simpa using (hnone g hg).ne

/-- **All experts.** -/
theorem laysOut_foldl (routes : List RouteEntry) {bs : List (ℕ × List ℕ)}
    (hasc : bs.Pairwise (·.1 < ·.1)) :
    LaysOut routes (bs.foldl (Layout.addExpert routes) ⟨[], [], [], [], 0⟩) bs := by
  induction bs using List.reverseRecOn with
  | nil => exact ⟨rfl, rfl, rfl, trivial, nofun, .nil, nofun, rfl, .nil, nofun, nofun⟩
  | append_singleton bs b ih =>
    obtain ⟨hbs, -, hlast⟩ := List.pairwise_append.mp hasc
    rw [List.foldl_append]
    exact (ih hbs).addExpert fun c hc => hlast c hc b List.mem_cons_self

/-! ### Placed rows -/

/-- The slots of the routes in group order. -/
def slotOrder (routes : List RouteEntry) : List ℕ := (byExpert routes).flatMap (·.2)

/-- Group order is the routes in the order of their experts, those of one expert as they came. -/
theorem arranged_slotOrder (routes : List RouteEntry) :
    Arrange.Arranged (expertOf routes) (List.range routes.length) (slotOrder routes) :=
  (Arrange.holds_buckets _ _).arranged

/-- Every route has a place of its own among the rows of its expert. -/
structure Placed (routes : List RouteEntry) (rp : RoutePlan) : Prop where
  slots : (slotOrder routes).Perm (List.range routes.length)
  rowToken : rp.rowToken = (slotOrder routes).map (· / 8)
  rowWeight : rp.rowWeight = (slotOrder routes).map (weightOf routes)
  length : rp.rowPadded.length = routes.length
  injective : rp.rowPadded.Nodup
  /-- The place of a route lies in a group of its expert. -/
  group : ∀ i slot p : ℕ, (slotOrder routes)[i]? = some slot → rp.rowPadded[i]? = some p →
    p < rp.paddedRows ∧ expertAt rp.plan.groups p = expertOf routes slot ∧
      ∃ g ∈ rp.plan.groups, g.expert = expertOf routes slot ∧ g.tokenOffset ≤ p ∧
        p < g.tokenOffset + g.tokens
  /-- The groups follow each other, an expert's side by side, and share no row. -/
  chained : Chained 0 rp.plan.groups
  ascending : rp.plan.groups.Pairwise (·.expert ≤ ·.expert)
  disjoint : rp.plan.groups.Pairwise fun g g' => g.tokenOffset + g.tokens ≤ g'.tokenOffset
  sizes : ∀ g ∈ rp.plan.groups, g.tokens = 16 ∨ g.tokens = 64 ∨ g.tokens = 256
  /-- An expert with routes has fewer than 16 rows more than routes. -/
  padding : ∀ slot < routes.length,
    rowsOf (rp.plan.groups.filter (·.expert = expertOf routes slot)) <
      (List.range routes.length).countP (expertOf routes · = expertOf routes slot) + 16

/-- What `fromRoutes` checks, and what it builds. -/
theorem fromRoutes_eq_ok {routes : List RouteEntry} {tokens : ℕ} {rp : RoutePlan}
    (h : fromRoutes routes tokens = .ok rp) : routes.length = tokens * 8 ∧ rp.tokens = tokens ∧
      rp.plan.groups =
        ((byExpert routes).foldl (Layout.addExpert routes) ⟨[], [], [], [], 0⟩).groups ∧
      rp.rowToken =
        ((byExpert routes).foldl (Layout.addExpert routes) ⟨[], [], [], [], 0⟩).rowToken ∧
      rp.rowWeight =
        ((byExpert routes).foldl (Layout.addExpert routes) ⟨[], [], [], [], 0⟩).rowWeight ∧
      rp.rowPadded =
          ((byExpert routes).foldl (Layout.addExpert routes) ⟨[], [], [], [], 0⟩).rowPadded := by
  obtain ⟨_, hlen, hrest⟩ := bind_eq_ok.mp h
  obtain ⟨_, -, hrest⟩ := bind_eq_ok.mp hrest
  obtain rfl := Except.ok.inj hrest
  exact ⟨demand_eq_ok.mp hlen, rfl, rfl, rfl, rfl, rfl⟩

theorem placed_of_fromRoutes {routes : List RouteEntry} {tokens : ℕ} {rp : RoutePlan}
    (h : fromRoutes routes tokens = .ok rp) : Placed routes rp := by
  obtain ⟨-, -, hgroups, hrowToken, hrowWeight, hrowPadded⟩ := fromRoutes_eq_ok h
  have hbuckets : Arrange.Holds (expertOf routes) (List.range routes.length) (byExpert routes) :=
    Arrange.holds_buckets _ _
  have hl := laysOut_foldl routes hbuckets.ascending
  have hperm := (arranged_slotOrder routes).perm
  have hown : rp.rowPadded.map (expertAt rp.plan.groups) =
      (slotOrder routes).map (expertOf routes) := by
    rw [hrowPadded, hgroups, hl.own, slotOrder, List.map_flatMap]
    refine List.flatMap_congr fun b hb => List.map_congr_left fun slot hslot => ?_
    rw [hbuckets.contents b hb] at hslot
    exact (of_decide_eq_true (List.mem_filter.mp hslot).2).symm
  have hlen : rp.rowPadded.length = (slotOrder routes).length := by
    simpa using congrArg List.length hown
  refine ⟨hperm, hrowToken.trans hl.rowToken, hrowWeight.trans hl.rowWeight, ?_, ?_, ?_, ?_, ?_, ?_,
    ?_, ?_⟩
  · rw [hlen, hperm.length_eq, List.length_range]
  · rw [hrowPadded]
    exact hl.increasing.imp ne_of_lt
  · intro i slot p hslot hp
    have hexpert : expertAt rp.plan.groups p = expertOf routes slot := by
      have hget := congrArg (·[i]?) hown
      simpa [hslot, hp] using hget
    have hbelow : p < rowsOf rp.plan.groups := by
      have hmem := List.mem_of_getElem? hp
      rw [hrowPadded] at hmem
      rw [hgroups, ← hl.running]
      exact hl.below p hmem
    have hchain : Chained 0 rp.plan.groups := by
      rw [hgroups]
      exact hl.chained
    obtain ⟨g, hg, hge, hle, hlt⟩ := exists_group_of_lt hchain hbelow
    rw [Nat.zero_add] at hle hlt
    exact ⟨hbelow, hexpert, g, hg, hge.trans hexpert, hle, hlt⟩
  · rw [hgroups]
    exact hl.chained
  · rw [hgroups]
    exact hl.ascending
  · rw [hgroups]
    exact disjoint_groups hl.chained
  · rw [hgroups]
    exact hl.sizes
  · intro slot hslot
    obtain ⟨b, hb, hkey⟩ := hbuckets.complete slot (List.mem_range.mpr hslot)
    have hpad := (hl.padding b hb).2
    rw [hbuckets.contents b hb, ← List.countP_eq_length_filter, hkey] at hpad
    rwa [hgroups]

end Spark

end Mimo26

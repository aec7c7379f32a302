import Mathlib.Algebra.Order.BigOperators.Group.List
import Mimo26.Spark.RoutePlan

/-!
# The launches of an FFN

A kernel launch takes at most 256 groups and eight times the rows of the capacity class it is built
for, so a plan is cut into launches (`ffn_roundtrip` and `ffn_route_reduce` in `decode.rs`, which
cut alike). A launch is filled with the next groups until one of the limits would be passed, and
its plan counts rows from its own first one.

## Main definitions

* `fillChunk`, `launches` — the groups of the next launch, and the launches of a plan
* `Chunked` — what the launches of a plan are

## Main results

* `launches_chunked` — every plan is cut so, unless a group is too large for any launch
-/

namespace Mimo26

namespace Spark

open Result Expert

/-! ### Cutting a plan -/

/-- The groups a launch takes. -/
def maxGroups : ℕ := 256

/-- The groups of a launch and their rows, and the groups after them. -/
structure Chunk where
  groups : List Group
  total : ℕ
  rest : List Group

/-- Fill a launch that holds some groups already. -/
def fillChunk (maxTotal : ℕ) : List Group → ℕ → List Group → Chunk
  | chunkGroups, chunkTotal, [] => ⟨chunkGroups, chunkTotal, []⟩
  | chunkGroups, chunkTotal, g :: rest =>
    if chunkGroups.length < maxGroups ∧ chunkTotal + g.tokens ≤ maxTotal then
      fillChunk maxTotal (chunkGroups ++ [g]) (chunkTotal + g.tokens) rest
    else ⟨chunkGroups, chunkTotal, g :: rest⟩

/-- What the filling of a launch leaves as it was, and its limits. -/
structure Fills (maxTotal : ℕ) (groups : List Group) (c : Chunk) : Prop where
  append : c.groups ++ c.rest = groups
  total : c.total = rowsOf c.groups
  groups_le : c.groups.length ≤ maxGroups
  total_le : c.total ≤ maxTotal

theorem fills_fillChunk {maxTotal chunkTotal : ℕ} {chunkGroups groups : List Group}
    (htotal : chunkTotal = rowsOf chunkGroups) (hgroups : chunkGroups.length ≤ maxGroups)
    (hle : chunkTotal ≤ maxTotal) :
    Fills maxTotal (chunkGroups ++ groups)
      (fillChunk maxTotal chunkGroups chunkTotal groups) := by
  induction groups generalizing chunkGroups chunkTotal with
  | nil => exact ⟨rfl, htotal, hgroups, hle⟩
  | cons g groups ih =>
    rw [fillChunk]
    split
    · next h =>
      rw [← List.singleton_append, ← List.append_assoc]
      refine ih ?_ ?_ h.2
      · rw [rowsOf_append, ← htotal]
        rfl
      · rw [List.length_append]
        exact h.1
    · exact ⟨rfl, htotal, hgroups, hle⟩

/-- A launch that takes a group leaves fewer. -/
theorem Fills.length_rest_lt {maxTotal : ℕ} {groups : List Group} {c : Chunk}
    (h : Fills maxTotal groups c) (hne : c.groups ≠ []) : c.rest.length < groups.length := by
  have hlen := congrArg List.length h.append
  rw [List.length_append] at hlen
  have hpos := List.length_pos_of_ne_nil hne
  omega

theorem fills_new (maxTotal : ℕ) (groups : List Group) :
    Fills maxTotal groups (fillChunk maxTotal [] 0 groups) :=
  @fills_fillChunk maxTotal 0 [] groups rfl (Nat.zero_le _) (Nat.zero_le _)

/-- A launch that begins empty stays empty exactly if the first group alone is too large. -/
theorem fillChunk_eq_nil {maxTotal : ℕ} {g : Group}
    {groups : List Group} :
    (fillChunk maxTotal [] 0 (g :: groups)).groups = [] ↔ maxTotal < g.tokens := by
  have hkept (chunkGroups : List Group) (chunkTotal : ℕ) (gs : List Group) :
      chunkGroups <+: (fillChunk maxTotal chunkGroups chunkTotal gs).groups := by
    induction gs generalizing chunkGroups chunkTotal with
    | nil => exact List.prefix_rfl
    | cons g gs ih =>
      rw [fillChunk]
      split
      · exact (List.prefix_append _ _).trans (ih _ _)
      · exact List.prefix_rfl
  rw [fillChunk, Nat.zero_add]
  split
  · next h =>
    refine iff_of_false (fun hnil => ?_) (Nat.not_lt.mpr h.2)
    have hprefix := hkept ([] ++ [g]) (0 + g.tokens) groups
    rw [Nat.zero_add, hnil] at hprefix
    exact absurd (List.prefix_nil.mp hprefix) (List.cons_ne_nil g [])
  · next h => exact iff_of_true rfl (Nat.not_le.mp fun hle => h ⟨by decide, hle⟩)

/-- A launch: the row of the batch it begins at, its rows, and its own plan. -/
structure Launch where
  chunkStart : ℕ
  chunkTotal : ℕ
  subPlan : GroupedPlan

/-- The launch of some groups from row `chunkStart` on, which is the offset of the first. -/
def Chunk.launch (c : Chunk) (chunkStart : ℕ) : Launch where
  chunkStart := chunkStart
  chunkTotal := c.total
  subPlan := {
    groups := c.groups.map fun g => { g with tokenOffset := g.tokenOffset - chunkStart }
    padded := 0 }

/-- The launches of the groups from row `chunkStart` on. -/
def launchesFrom (kind : String) (maxTotal chunkStart : ℕ) (groups : List Group) :
    Except String (List Launch) :=
  match groups with
  | [] => .ok []
  | g :: groups =>
    let c := fillChunk maxTotal [] 0 (g :: groups)
    if _h : c.groups = [] then
      .error s!"{kind}: a single group exceeds the launch cap ({maxTotal} rows)"
    else do
      let ls ← launchesFrom kind maxTotal (chunkStart + c.total) c.rest
      return c.launch chunkStart :: ls
termination_by groups.length
decreasing_by exact (fills_new maxTotal (g :: groups)).length_rest_lt _h

/-- The launches of a plan, for the capacity class the kernel is built for. -/
def launches (kind : String) (capacity : ℕ) (plan : GroupedPlan) : Except String (List Launch) :=
  launchesFrom kind (8 * capacity) 0 plan.groups

/-! ### What the launches of a plan are -/

/-- A group at its offset in the batch. -/
def shiftGroup (g : Expert.Group) (chunkStart : ℕ) : Expert.Group :=
  { g with tokenOffset := chunkStart + g.tokenOffset }

/-- The rows of the batch a launch covers. -/
def Launch.rows (l : Launch) : List ℕ := List.range' l.chunkStart l.chunkTotal

/-- What the launches of some groups from row `chunkStart` on are. -/
structure Chunked (maxTotal chunkStart : ℕ) (groups : List Group) (ls : List Launch) : Prop where
  /-- Every group is in exactly one launch, and they keep their order. -/
  assigned : ls.flatMap (fun l => l.subPlan.groups.map (shiftGroup · l.chunkStart)) = groups
  groups_le : ∀ l ∈ ls, l.subPlan.groups.length ≤ maxGroups
  rows_le : ∀ l ∈ ls, l.chunkTotal ≤ maxTotal
  /-- A launch's offsets begin at 0 and follow its groups. -/
  offsets : ∀ l ∈ ls, Chained 0 l.subPlan.groups
  total : ∀ l ∈ ls, l.subPlan.totalTokens = l.chunkTotal
  /-- The launches in order cover every row exactly once. -/
  covered : ls.flatMap Launch.rows = List.range' chunkStart (rowsOf groups)

/-- Offsets that follow each other still do when they are counted from the first. -/
theorem chained_rebase {chunkStart off : ℕ} {groups : List Group}
    (h : Chained (chunkStart + off) groups) :
    Chained off (groups.map fun g => { g with tokenOffset := g.tokenOffset - chunkStart }) := by
  induction groups generalizing off with
  | nil => trivial
  | cons g groups ih =>
    obtain ⟨hoff, hchain⟩ := h
    refine ⟨?_, ih (by rwa [← Nat.add_assoc])⟩
    show g.tokenOffset - chunkStart = off
    omega

theorem map_shift_rebase {chunkStart : ℕ} {groups : List Group}
    (h : ∀ g ∈ groups, chunkStart ≤ g.tokenOffset) :
    (groups.map fun g => { g with tokenOffset := g.tokenOffset - chunkStart }).map
      (shiftGroup · chunkStart) = groups := by
  rw [List.map_map]
  conv_rhs => rw [← List.map_id groups]
  refine List.map_congr_left fun g hg => ?_
  show ({ g with tokenOffset := chunkStart + (g.tokenOffset - chunkStart) } : Expert.Group) = g
  rw [Nat.add_sub_cancel' (h g hg)]

theorem totalTokens_launch (c : Chunk) (chunkStart : ℕ) :
    (c.launch chunkStart).subPlan.totalTokens = rowsOf c.groups := by
  rw [GroupedPlan.totalTokens, Chunk.launch, List.map_map]
  rfl

/-- A launch of the next groups, and the launches of the groups after them. -/
theorem Chunked.cons {maxTotal chunkStart : ℕ} {groups : List Group} {c : Chunk}
    (hc : Fills maxTotal groups c) (hchain : Chained chunkStart groups) {ls : List Launch}
    (h : Chunked maxTotal (chunkStart + c.total) c.rest ls) :
    Chunked maxTotal chunkStart groups (c.launch chunkStart :: ls) := by
  have hchain := hchain
  rw [← hc.append, chained_append] at hchain
  have hle : ∀ g ∈ c.groups, chunkStart ≤ g.tokenOffset := fun g hg => le_tokenOffset hchain.1 hg
  refine ⟨?_, ?_, ?_, ?_, ?_, ?_⟩
  · rw [List.flatMap_cons, h.assigned]
    exact (congrArg (· ++ c.rest) (map_shift_rebase hle)).trans hc.append
  · refine List.forall_mem_cons.mpr ⟨?_, h.groups_le⟩
    show (c.groups.map _).length ≤ maxGroups
    rw [List.length_map]
    exact hc.groups_le
  · exact List.forall_mem_cons.mpr ⟨hc.total_le, h.rows_le⟩
  · exact List.forall_mem_cons.mpr ⟨@chained_rebase chunkStart 0 c.groups hchain.1, h.offsets⟩
  · refine List.forall_mem_cons.mpr ⟨?_, h.total⟩
    rw [totalTokens_launch]
    exact hc.total.symm
  · rw [List.flatMap_cons, h.covered]
    show List.range' chunkStart c.total ++ _ = _
    rw [List.range'_append_1, ← hc.append, rowsOf_append, hc.total]

/-- **The launches of groups that follow each other.** -/
theorem launchesFrom_spec (kind : String) {maxTotal chunkStart : ℕ} {groups : List Group}
    (hchain : Chained chunkStart groups) :
    (∀ ls, launchesFrom kind maxTotal chunkStart groups = .ok ls →
      Chunked maxTotal chunkStart groups ls) ∧
    ((∃ e, launchesFrom kind maxTotal chunkStart groups = .error e) ↔
      ∃ g ∈ groups, maxTotal < g.tokens) := by
  induction groups using (measure List.length).wf.induction generalizing chunkStart with
  | _ groups ih =>
    cases groups with
    | nil =>
      rw [launchesFrom]
      refine ⟨fun ls hls => ?_, iff_of_false ?_ ?_⟩
      · obtain rfl := Except.ok.inj hls
        exact ⟨rfl, List.forall_mem_nil _, List.forall_mem_nil _, List.forall_mem_nil _,
          List.forall_mem_nil _, rfl⟩
      · rintro ⟨e, ⟨⟩⟩
      · rintro ⟨g, hg, -⟩
        exact absurd hg List.not_mem_nil
    | cons g groups =>
      have hfills := fills_new maxTotal (g :: groups)
      have hfirst := @fillChunk_eq_nil maxTotal g groups
      rw [launchesFrom]
      generalize fillChunk maxTotal [] 0 (g :: groups) = c at hfills hfirst ⊢
      split
      · next hnil =>
        refine ⟨fun ls hls => ?_, iff_of_true ⟨_, rfl⟩ ⟨g, List.mem_cons_self, hfirst.mp hnil⟩⟩
        cases hls
      · next hne =>
        have hrest : Chained (chunkStart + c.total) c.rest := by
          rw [← hfills.append, chained_append] at hchain
          rw [hfills.total]
          exact hchain.2
        obtain ⟨hok, herr⟩ := ih c.rest (hfills.length_rest_lt hne) hrest
        refine ⟨fun ls hls => ?_, ?_⟩
        · obtain ⟨ls', hls', hls⟩ := bind_eq_ok.mp hls
          obtain rfl := Except.ok.inj hls
          exact (hok ls' hls').cons hfills hchain
        · -- the groups of this launch fit in it
          have hsmall : ∀ g' ∈ c.groups, ¬maxTotal < g'.tokens := by
            intro g' hg'
            have hle : g'.tokens ≤ rowsOf c.groups :=
              List.single_le_sum (fun _ _ => Nat.zero_le _) _ (List.mem_map_of_mem hg')
            have htotal := hfills.total_le
            rw [hfills.total] at htotal
            exact Nat.not_lt.mpr (hle.trans htotal)
          have hmem : (∃ g' ∈ g :: groups, maxTotal < g'.tokens) ↔
              ∃ g' ∈ c.rest, maxTotal < g'.tokens := by
            rw [← hfills.append]
            constructor
            · rintro ⟨g', hg', hlarge⟩
              rcases List.mem_append.mp hg' with hin | hin
              · exact absurd hlarge (hsmall g' hin)
              · exact ⟨g', hin, hlarge⟩
            · rintro ⟨g', hg', hlarge⟩
              exact ⟨g', List.mem_append_right _ hg', hlarge⟩
          rw [hmem, ← herr]
          constructor
          · rintro ⟨e, he⟩
            rcases bind_eq_error.mp he with he | ⟨ls', -, hls⟩
            · exact ⟨e, he⟩
            · cases hls
          · rintro ⟨e, he⟩
            exact ⟨e, bind_eq_error.mpr (.inl he)⟩

/-- **The launches of a plan** whose groups follow each other: every group is in exactly one launch,
no launch passes a limit, and there are none exactly if a group is too large for any. -/
theorem launches_chunked (kind : String) (capacity : ℕ) {plan : GroupedPlan}
    (hchain : Chained 0 plan.groups) :
    (∀ ls, launches kind capacity plan = .ok ls → Chunked (8 * capacity) 0 plan.groups ls) ∧
    ((∃ e, launches kind capacity plan = .error e) ↔
      ∃ g ∈ plan.groups, 8 * capacity < g.tokens) :=
  launchesFrom_spec kind hchain

/-- Two groups that do not fit in one launch together. -/
theorem launches_twoGroups :
    (∀ ls, launches "ffn" 8 ⟨[⟨0, 16, 0⟩, ⟨3, 64, 16⟩], 0⟩ = .ok ls →
      Chunked (8 * 8) 0 [⟨0, 16, 0⟩, ⟨3, 64, 16⟩] ls) ∧
    ((∃ e, launches "ffn" 8 ⟨[⟨0, 16, 0⟩, ⟨3, 64, 16⟩], 0⟩ = .error e) ↔
      ∃ g ∈ ([⟨0, 16, 0⟩, ⟨3, 64, 16⟩] : List Group), 8 * 8 < g.tokens) :=
  @launches_chunked "ffn" 8 ⟨[⟨0, 16, 0⟩, ⟨3, 64, 16⟩], 0⟩ ⟨rfl, rfl, trivial⟩

end Spark

end Mimo26

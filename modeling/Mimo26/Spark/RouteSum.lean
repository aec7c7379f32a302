import Mathlib.Data.List.GetD
import Mathlib.Data.List.Sort
import Mimo26.Spark.RoutePlan

/-!
# The sum over a token's routes

Replicating the hidden rows, running the experts row by row and reducing adds up a token's eight
routes in the order of their experts. The CPU reduction by the token-major table adds the same terms
in that order.

## Main definitions

* `tokenRoutes`, `routeSum` — the routes of a token by expert, and their weighted sum

## Main results

* `reduce_runExperts` — what `reduce` gives
* `cpuReduce_runExperts` — the CPU reduction gives its roundings
* `fromRoutes_reduce` — both, for every list of routes that is accepted
-/

namespace Mimo26

namespace Spark

open Wire Result Expert

def routeAt (routes : List RouteEntry) (slot : ℕ) : RouteEntry := routes[slot]?.getD ⟨0, 0, 0⟩

/-- The routes of a token, by expert, those of one expert in slot order. -/
def tokenRoutes (routes : List RouteEntry) (token : ℕ) : List RouteEntry :=
  ((routes.drop (token * 8)).take 8).mergeSort fun a b =>
    decide (a.expertId.toNat ≤ b.expertId.toNat)

variable {F : Type} [Fp32Mul F]

def hiddenRow (hidden : List F) (token : ℕ) : List F :=
    (hidden.drop (token * hiddenDim)).take hiddenDim

/-- Cell `h` of the weighted sum of a token's routes. -/
def routeSum (expert : ℕ → List F → List F) (routes : List RouteEntry) (hidden : List F)
    (token h : ℕ) : F :=
  (tokenRoutes routes token).foldl (fun sum r => Fp32.add sum
    (Fp32Mul.mul ((expert r.expertId.toNat (hiddenRow hidden token)).getD h Fp32.zero)
      (Fp32.ofBits r.gateWeight)))
    Fp32.zero

/-! ### A token's slots -/

omit [Fp32Mul F] in
theorem expertOf_eq (routes : List RouteEntry) (slot : ℕ) :
    expertOf routes slot = (routeAt routes slot).expertId.toNat := by
  rw [expertOf, routeAt]
  cases routes[slot]? <;> rfl

theorem weightOf_eq (routes : List RouteEntry) (slot : ℕ) :
    weightOf routes slot = (routeAt routes slot).gateWeight := by
  rw [weightOf, routeAt]
  cases routes[slot]? <;> rfl

/-- The eight slots of a token. -/
theorem filter_slots {tokens token : ℕ} (ht : token < tokens) :
    (List.range (tokens * 8)).filter (· / 8 = token) = (List.range 8).map (token * 8 + ·) := by
  refine List.Perm.eq_of_pairwise (fun a b _ _ (hab : a < b) hba => absurd hab (Nat.lt_asymm hba))
    (List.pairwise_lt_range.filter _) (List.pairwise_map.mpr (List.pairwise_lt_range.imp fun hij =>
      Nat.add_lt_add_left hij _)) ?_
  rw [List.perm_ext_iff_of_nodup (List.nodup_range.filter _)
    (List.nodup_range.map fun a b hab => by simpa using hab)]
  intro slot
  simp only [List.mem_filter, List.mem_range, decide_eq_true_eq, List.mem_map]
  constructor
  · rintro ⟨-, rfl⟩
    exact ⟨slot % 8, Nat.mod_lt _ (by decide), by omega⟩
  · rintro ⟨j, hj, rfl⟩
    omega

/-- A token's routes, in group order. -/
theorem map_routeAt_slotOrder {routes : List RouteEntry} {tokens token : ℕ}
    (hlen : routes.length = tokens * 8)
    (ht : token < tokens) :
    ((slotOrder routes).filter (· / 8 = token)).map (routeAt routes) =
        tokenRoutes routes token := by
  have harranged := arranged_slotOrder routes
  rw [show expertOf routes = fun slot =>
    (routeAt routes slot).expertId.toNat from funext (expertOf_eq routes)]
    at harranged
  have hwindow : ((List.range routes.length).filter (· / 8 = token)).map (routeAt routes) =
      (routes.drop (token * 8)).take 8 := by
    rw [hlen, filter_slots ht, List.map_map]
    refine List.ext_getElem (by simp; omega) fun j hj hj' => ?_
    have hin : token * 8 + j < routes.length := by
      simp only [List.length_map, List.length_range] at hj
      omega
    simp [routeAt, List.getElem?_eq_getElem hin]
  have hgroup : Arrange.Arranged (fun r : RouteEntry => r.expertId.toNat)
      (((List.range routes.length).filter (· / 8 = token)).map (routeAt routes))
      (((slotOrder routes).filter (· / 8 = token)).map (routeAt routes)) :=
    Arrange.Arranged.map (f := routeAt routes) (harranged.filter (· / 8 = token))
  rw [hwindow] at hgroup
  exact hgroup.unique (Arrange.arranged_mergeSort _ _)

/-! ### The FFN output -/

theorem map_getD_range {α : Type} (l : List α) (d : α) :
    (List.range l.length).map (fun i => l.getD i d) = l := by
  refine List.ext_getElem (by simp) fun i hi hi' => ?_
  rw [List.getElem_map, List.getElem_range, List.getD_eq_getElem _ _ hi']

section output

variable {routes : List RouteEntry} {rp : RoutePlan} (hp : Placed routes rp)
  (hlen : routes.length = rp.tokens * 8)
include hp

omit [Fp32Mul F] in
theorem Placed.length_slotOrder : (slotOrder routes).length = routes.length := by
  rw [hp.slots.length_eq, List.length_range]

/-- Row `i` of the table. -/
theorem Placed.row {i : ℕ} (hi : i < routes.length) : ∃ slot p, (slotOrder routes)[i]? = some slot ∧
    slot < routes.length ∧ rp.rowPadded[i]? = some p ∧ rp.rowToken.getD i 0 = slot / 8 ∧
      rp.rowWeight.getD i 0 = weightOf routes slot ∧ p < rp.paddedRows ∧
      expertAt rp.plan.groups p = expertOf routes slot := by
  have hi' : i < (slotOrder routes).length := by rwa [hp.length_slotOrder]
  have hi'' : i < rp.rowPadded.length := by rwa [hp.length]
  have hslot : (slotOrder routes)[i]? = some (slotOrder routes)[i] := List.getElem?_eq_getElem hi'
  have hplace : rp.rowPadded[i]? = some rp.rowPadded[i] := List.getElem?_eq_getElem hi''
  obtain ⟨hlt, hexpert, -⟩ := hp.group i _ _ hslot hplace
  refine ⟨_, _, hslot, ?_, hplace, ?_, ?_, hlt, hexpert⟩
  · exact List.mem_range.mp (hp.slots.mem_iff.mp (List.getElem_mem hi'))
  · rw [hp.rowToken, List.getD_eq_getElem?_getD, List.getElem?_map, hslot]
    rfl
  · rw [hp.rowWeight, List.getD_eq_getElem?_getD, List.getElem?_map, hslot]
    rfl

theorem Placed.lengths : rp.rowToken.length = routes.length ∧
    rp.rowWeight.length = routes.length := by
  rw [hp.rowToken, hp.rowWeight, List.length_map, List.length_map, hp.length_slotOrder]
  exact ⟨rfl, rfl⟩

theorem Placed.zip_eq : rp.rowToken.zip rp.rowPadded =
    (List.range routes.length).map fun i => (rp.rowToken.getD i 0, rp.rowPadded.getD i 0) := by
  rw [← List.zip_map', ← hp.length, map_getD_range, hp.length, ← hp.lengths.1, map_getD_range]

theorem Placed.zip_weight_eq : rp.rowToken.zip (rp.rowWeight.zip rp.rowPadded) =
    (List.range routes.length).map fun i =>
      (rp.rowToken.getD i 0, rp.rowWeight.getD i 0, rp.rowPadded.getD i 0) := by
  rw [← List.zip_map', ← List.zip_map', ← hp.length, map_getD_range, hp.length, ← hp.lengths.2,
    map_getD_range,
    hp.lengths.2, ← hp.lengths.1, map_getD_range]

/-- The FFN input holds each route's hidden row at the route's place. -/
theorem Placed.replicateX_row {hidden x : List F} (hhidden : hidden.length = rp.tokens * hiddenDim)
    (hlen : routes.length = rp.tokens * 8) (hx : rp.replicateX hidden = .ok x) :
    x.length = rp.paddedRows * hiddenDim ∧ ∀ i < routes.length,
      (x.drop (rp.rowPadded.getD i 0 * hiddenDim)).take hiddenDim =
          hiddenRow hidden (rp.rowToken.getD i 0) := by
  obtain ⟨_, -, hx⟩ := bind_eq_ok.mp hx
  obtain rfl := Except.ok.inj hx
  refine ⟨by simp, fun i hi => List.ext_getElem? fun h => ?_⟩
  obtain ⟨slot, p, -, hslot, hplace, htoken, -, hlt, -⟩ := hp.row hi
  have hget : rp.rowPadded.getD i 0 = p := by
    rw [List.getD_eq_getElem?_getD, hplace, Option.getD_some]
  rw [hget, htoken, hiddenRow, List.getElem?_take, List.getElem?_take, List.getElem?_drop,
    List.getElem?_drop]
  split
  · next hh =>
    have hsrc : slot / 8 * hiddenDim + h < hidden.length := by
      rw [hhidden]
      exact Grid.cell_lt (by omega) hh
    have hdst : p * hiddenDim + h <
        (List.replicate (rp.paddedRows * hiddenDim) (Fp32.zero : F)).length := by
      rw [List.length_replicate]
      exact Grid.cell_lt hlt hh
    have hnodup : (((rp.rowToken.zip rp.rowPadded).map fun x =>
        (x.2, fun h => hidden.getD (x.1 * hiddenDim + h) Fp32.zero)).map (·.1)).Nodup := by
      rw [hp.zip_eq, List.map_map, List.map_map, ← hp.length]
      simp only [Function.comp_def, map_getD_range]
      exact hp.injective
    have hmem : (p, fun h => hidden.getD (slot / 8 * hiddenDim + h) Fp32.zero) ∈
        (rp.rowToken.zip rp.rowPadded).map fun x =>
          (x.2, fun h => hidden.getD (x.1 * hiddenDim + h) Fp32.zero) := by
      rw [hp.zip_eq, List.map_map]
      refine List.mem_map.mpr ⟨i, List.mem_range.mpr hi, ?_⟩
      rw [Function.comp_apply, hget, htoken]
    refine (Grid.getElem?_scatterSet hnodup hmem hh hdst).trans ?_
    dsimp only
    rw [List.getD_eq_getElem _ _ hsrc, List.getElem?_eq_getElem hsrc]
  · rfl

/-! ### The terms of a sum -/

/-- The slot of row `i` of the table. -/
def slotAt (routes : List RouteEntry) (i : ℕ) : ℕ := (slotOrder routes).getD i 0

/-- Cell `h` of a route's weighted row. -/
def slotTerm (expert : ℕ → List F → List F) (routes : List RouteEntry) (hidden : List F)
    (slot h : ℕ) : F :=
  Fp32Mul.mul ((expert (expertOf routes slot) (hiddenRow hidden (slot / 8))).getD h Fp32.zero)
    (Fp32.ofBits (weightOf routes slot))

omit [Fp32Mul F] in
theorem Placed.slotAt_row {i : ℕ} (hi : i < routes.length) : slotAt routes i < routes.length ∧
    rp.rowPadded.getD i 0 < rp.paddedRows ∧
      expertAt rp.plan.groups (rp.rowPadded.getD i 0) = expertOf routes (slotAt routes i) := by
  obtain ⟨slot, p, hslot, hin, hplace, -, -, hlt, hexpert⟩ := hp.row hi
  have hat : slotAt routes i = slot := by
    rw [slotAt, List.getD_eq_getElem?_getD, hslot, Option.getD_some]
  have hget : rp.rowPadded.getD i 0 = p := by
    rw [List.getD_eq_getElem?_getD, hplace, Option.getD_some]
  rw [hat, hget]
  exact ⟨hin, hlt, hexpert⟩

omit [Fp32Mul F] in
theorem Placed.token_eq (i : ℕ) : rp.rowToken.getD i 0 = slotAt routes i / 8 := by
  rw [hp.rowToken, slotAt]
  exact List.getD_map (slotOrder routes) 0 (· / 8)

omit [Fp32Mul F] in
theorem Placed.weight_eq {i : ℕ} (hi : i < routes.length) :
    rp.rowWeight.getD i 0 = weightOf routes (slotAt routes i) := by
  rw [hp.rowWeight, slotAt, List.getD_eq_getElem?_getD, List.getElem?_map,
    List.getD_eq_getElem?_getD,
    List.getElem?_eq_getElem (by rwa [hp.length_slotOrder]), Option.map_some, Option.getD_some,
      Option.getD_some]

/-- Row `i` of the FFN output. -/
theorem Placed.ffn_cell {expert : ℕ → List F → List F}
    (hexpert : ∀ e row, row.length = hiddenDim → (expert e row).length = hiddenDim)
    {hidden x : List F}
    (hhidden : hidden.length = rp.tokens * hiddenDim) (hlen : routes.length = rp.tokens * 8)
    (hx : rp.replicateX hidden = .ok x) :
      (runExperts rp.plan expert x).length = rp.paddedRows * hiddenDim ∧
      ∀ i < routes.length, ∀ h < hiddenDim,
        (runExperts rp.plan expert x).getD (rp.rowPadded.getD i 0 * hiddenDim + h) Fp32.zero =
          (expert (expertOf routes (slotAt routes i)) (hiddenRow hidden (slotAt routes i / 8))).getD
              h Fp32.zero := by
  obtain ⟨hxlen, hxrow⟩ := hp.replicateX_row hhidden hlen hx
  have hrows : ∀ row < rp.plan.totalTokens,
      (expert (expertAt rp.plan.groups row) ((x.drop (row * hiddenDim)).take hiddenDim)).length =
          hiddenDim := by
    intro row hrow
    refine hexpert _ _ ?_
    have hle : row * hiddenDim + hiddenDim ≤ x.length := by
      rw [hxlen, ← Nat.succ_mul]
      exact Nat.mul_le_mul_right _ hrow
    rw [List.length_take, List.length_drop]
    omega
  refine ⟨Grid.length_flatMap_range hrows, fun i hi h hh => ?_⟩
  obtain ⟨-, hlt, hexpertAt⟩ := hp.slotAt_row hi
  rw [List.getD_eq_getElem?_getD, runExperts, Grid.getElem?_flatMap_range hrows hlt hh, hexpertAt,
    hxrow i hi,
    hp.token_eq, List.getD_eq_getElem?_getD]

end output

/-! ### Sums of rows -/

/-- The rows of the table as lines for the sum. -/
def rowItem (rp : RoutePlan) (ffnOut : List F) (i : ℕ) : ℕ × (ℕ → F) :=
  (rp.rowToken.getD i 0, fun h =>
    Fp32Mul.mul (ffnOut.getD (rp.rowPadded.getD i 0 * hiddenDim + h) Fp32.zero)
    (Fp32.ofBits (rp.rowWeight.getD i 0)))

theorem reduce_eq {routes : List RouteEntry} {rp : RoutePlan} (hp : Placed routes rp)
    {ffnOut : List F}
    (hffn : ffnOut.length = rp.paddedRows * hiddenDim) : rp.reduce ffnOut =
      .ok (Grid.scatterAdd Fp32.add hiddenDim ((List.range routes.length).map (rowItem rp ffnOut))
        (List.replicate (rp.tokens * hiddenDim) Fp32.zero)) := by
  rw [RoutePlan.reduce, hp.zip_weight_eq, List.map_map]
  exact bind_eq_ok.mpr ⟨(), demand_eq_ok.mpr hffn, rfl⟩

section sums

variable {routes : List RouteEntry} {rp : RoutePlan} (hp : Placed routes rp)
  (hlen : routes.length = rp.tokens * 8) {expert : ℕ → List F → List F} {hidden ffnOut : List F}
  (hcell : ∀ i < routes.length, ∀ h < hiddenDim,
    ffnOut.getD (rp.rowPadded.getD i 0 * hiddenDim + h) Fp32.zero =
      (expert (expertOf routes (slotAt routes i)) (hiddenRow hidden (slotAt routes i / 8))).getD h
        Fp32.zero)
include hp hlen hcell

/-- A token's lines add up to its sum if its slots stand in group order. -/
theorem foldl_rowItem {order : List ℕ} (horder : ∀ i ∈ order, i < routes.length) {token : ℕ}
    (htoken : token < rp.tokens)
    (hslots : (order.map (slotAt routes)).filter (· / 8 = token) =
      (slotOrder routes).filter (· / 8 = token))
    {h : ℕ} (hh : h < hiddenDim) :
    ((order.map (rowItem rp ffnOut)).filter (·.1 = token)).foldl (fun v item =>
      Fp32.add v (item.2 h)) Fp32.zero =
      routeSum expert routes hidden token h := by
  have hterm : ∀ v : F, ∀ i ∈ order.filter (slotAt routes · / 8 = token),
      Fp32.add v ((rowItem rp ffnOut i).2 h) =
          Fp32.add v (slotTerm expert routes hidden (slotAt routes i) h) := by
    intro v i hi
    have hin := horder i (List.mem_filter.mp hi).1
    dsimp only [rowItem]
    rw [slotTerm, hcell i hin h hh, hp.weight_eq hin]
  have hfilter :
      order.filter ((fun item : ℕ × (ℕ → F) => decide (item.1 = token)) ∘ rowItem rp ffnOut) =
      order.filter (slotAt routes · / 8 = token) := by
    refine List.filter_congr fun i _ => ?_
    rw [Function.comp_apply, rowItem, hp.token_eq]
  have hsum : (((slotOrder routes).filter (· / 8 = token)).map (routeAt routes)).foldl (fun sum r =>
      Fp32.add sum
        (Fp32Mul.mul ((expert r.expertId.toNat (hiddenRow hidden token)).getD h Fp32.zero)
        (Fp32.ofBits r.gateWeight))) Fp32.zero =
      ((slotOrder routes).filter (· / 8 = token)).foldl (fun sum slot =>
        Fp32.add sum (slotTerm expert routes hidden slot h)) Fp32.zero := by
    rw [List.foldl_map]
    refine List.foldl_ext _ _ _ fun v slot hslot => ?_
    rw [slotTerm, expertOf_eq, weightOf_eq, of_decide_eq_true (List.mem_filter.mp hslot).2]
  rw [routeSum, ← map_routeAt_slotOrder hlen htoken, hsum, ← hslots, List.filter_map,
    List.foldl_map, List.filter_map,
    List.foldl_map, hfilter]
  exact List.foldl_ext _ _ _ hterm

/-- The cells of a sum whose tokens' slots stand in group order. -/
theorem scatterAdd_rowItem {order : List ℕ} (horder : ∀ i ∈ order, i < routes.length)
    (hslots : ∀ token < rp.tokens,
      (order.map (slotAt routes)).filter (· / 8 = token) =
        (slotOrder routes).filter (· / 8 = token)) :
    Grid.scatterAdd Fp32.add hiddenDim (order.map (rowItem rp ffnOut))
      (List.replicate (rp.tokens * hiddenDim) Fp32.zero) =
      (List.range rp.tokens).flatMap fun token =>
          (List.range hiddenDim).map (routeSum expert routes hidden token) := by
  have hwidth : ∀ token < rp.tokens,
      ((List.range hiddenDim).map (routeSum expert routes hidden token)).length =
      hiddenDim := by simp
  have hpos : 0 < hiddenDim := by decide
  refine List.ext_getElem? fun j => ?_
  by_cases hj : j < rp.tokens * hiddenDim
  · -- cell `j` is cell `h` of a token's row
    obtain ⟨token, h, htoken, hh, rfl⟩ : ∃ token h, token < rp.tokens ∧ h < hiddenDim ∧
        j = token * hiddenDim + h :=
      ⟨j / hiddenDim, j % hiddenDim, Nat.div_lt_of_lt_mul (by rwa [Nat.mul_comm]),
        Nat.mod_lt _ hpos,
        (Nat.div_add_mod' j hiddenDim).symm⟩
    rw [Grid.getElem?_scatterAdd hh, Grid.getElem?_flatMap_range hwidth htoken hh,
      List.getElem?_replicate,
      if_pos (Grid.cell_lt htoken hh), Option.map_some, List.getElem?_map, List.getElem?_range hh,
        Option.map_some,
      foldl_rowItem hp hlen hcell horder htoken (hslots token htoken) hh]
  · rw [List.getElem?_eq_none (by simpa using hj), List.getElem?_eq_none]
    rw [Grid.length_flatMap_range hwidth]
    exact Nat.not_lt.mp hj

end sums

/-! ### Token order -/

section order

variable {routes : List RouteEntry} {rp : RoutePlan} (hp : Placed routes rp)
  (hlen : routes.length = rp.tokens * 8)
include hp

omit [Fp32Mul F] in
theorem map_slotAt_range : (List.range routes.length).map (slotAt routes) = slotOrder routes := by
  rw [← hp.length_slotOrder]
  exact map_getD_range _ 0

omit [Fp32Mul F] in
/-- Token order is group order, by token. -/
theorem arranged_tokenMajor :
    Arrange.Arranged (· / 8) (slotOrder routes) (rp.tokenMajorOrder.map (slotAt routes)) := by
  have hsorted := Arrange.arranged_mergeSort (fun i => rp.rowToken.getD i 0)
      (List.range rp.rowToken.length)
  rw [← RoutePlan.tokenMajorOrder, hp.lengths.1, show (fun i => rp.rowToken.getD i 0) =
    fun i => slotAt routes i / 8 from funext hp.token_eq] at hsorted
  have hmap : Arrange.Arranged (· / 8) ((List.range routes.length).map (slotAt routes))
      (rp.tokenMajorOrder.map (slotAt routes)) := hsorted.map
  rwa [map_slotAt_range hp] at hmap

omit [Fp32Mul F] in
theorem lt_of_mem_tokenMajor {i : ℕ} (hi : i ∈ rp.tokenMajorOrder) : i < routes.length := by
  rw [RoutePlan.tokenMajorOrder, List.mem_mergeSort, List.mem_range, hp.lengths.1] at hi
  exact hi

omit [Fp32Mul F] in
include hlen in
/-- Token `t`'s rows stand from place `8 * t` on. -/
theorem token_of_tokenMajor {k i : ℕ} (hk : rp.tokenMajorOrder[k]? = some i) :
    rp.rowToken.getD i 0 = k / 8 := by
  have height : ∀ token < rp.tokens, ((slotOrder routes).filter (· / 8 = token)).length = 8 := by
    intro token htoken
    rw [(hp.slots.filter _).length_eq, hlen, filter_slots htoken, List.length_map,
      List.length_range]
  have hbelow : ∀ slot ∈ slotOrder routes, slot / 8 < rp.tokens := by
    intro slot hslot
    have hin := List.mem_range.mp (hp.slots.mem_iff.mp hslot)
    omega
  have hruns := (arranged_tokenMajor hp).eq_flatMap hbelow
  have hkn : k < rp.tokens * 8 := by
    have hlt := (List.getElem?_eq_some_iff.mp hk).1
    rwa [RoutePlan.tokenMajorOrder, List.length_mergeSort, List.length_range, hp.lengths.1,
      hlen] at hlt
  have hmap : (rp.tokenMajorOrder.map (slotAt routes))[k]? = some (slotAt routes i) := by
    rw [List.getElem?_map, hk, Option.map_some]
  have hdiv : k / 8 < rp.tokens := by omega
  rw [hruns, ← Nat.div_add_mod' k 8, Grid.getElem?_flatMap_range height hdiv
    (Nat.mod_lt k (by decide))] at hmap
  rw [hp.token_eq]
  exact of_decide_eq_true (List.mem_filter.mp (List.mem_of_getElem? hmap)).2

end order

/-! ### The CPU reduction -/

theorem asUsize_ofNat {p : ℕ} (hp : p < 2 ^ 31) : asUsize (Int32.ofNat p) = p := by
  rw [asUsize, Int32.toInt_ofNat_of_lt hp]
  omega

section cpu

variable {routes : List RouteEntry} {rp : RoutePlan} (hp : Placed routes rp)
  (hlen : routes.length = rp.tokens * 8) {ffnOut : List F}
  (hffn : ffnOut.length = rp.paddedRows * hiddenDim)
  (hrows : rp.paddedRows ≤ 2 ^ 31)

/-- Row `i` of the table, as the token-major one holds it. -/
def tableRow (rp : RoutePlan) (i : ℕ) : Int32 × UInt32 :=
  (Int32.ofNat (rp.rowPadded.getD i 0), rp.rowWeight.getD i 0)

include hp hlen hffn hrows

/-- **One row.** -/
theorem cpuAddRow_eq {i t : ℕ} (hi : i < routes.length) (htoken : rp.rowToken.getD i 0 = t / 8)
    (out : List F) :
    cpuAddRow ffnOut rp.tokens hiddenDim out (tableRow rp i, t) =
      .ok (Grid.addSpan Fp32.add out ((rowItem rp ffnOut i).1 * hiddenDim)
        ((List.range hiddenDim).map (rowItem rp ffnOut i).2)) := by
  obtain ⟨hslot, hlt, -⟩ := hp.slotAt_row hi
  have hpad : asUsize (Int32.ofNat (rp.rowPadded.getD i 0)) = rp.rowPadded.getD i 0 :=
    asUsize_ofNat (Nat.lt_of_lt_of_le hlt hrows)
  have htokens : t / 8 < rp.tokens := by
    rw [← htoken, hp.token_eq]
    omega
  have hrow : weightedRow ffnOut hiddenDim (rp.rowPadded.getD i 0) (rp.rowWeight.getD i 0) =
      .ok ((List.range hiddenDim).map (rowItem rp ffnOut i).2) := by
    refine mapM_eq_ok fun h hh => ?_
    have hin : rp.rowPadded.getD i 0 * hiddenDim + h < ffnOut.length := by
      rw [hffn]
      exact Grid.cell_lt hlt (List.mem_range.mp hh)
    simp only [List.getElem?_eq_getElem hin, rowItem, List.getD_eq_getElem _ _ hin]
  refine bind_eq_ok.mpr ⟨(), demand_eq_ok.mpr (.inr htokens), ?_⟩
  refine bind_eq_ok.mpr ⟨_, by simpa only [tableRow, hpad] using hrow, ?_⟩
  rw [rowItem, htoken]
  rfl

/-- **The rows of a table.** -/
theorem foldlM_cpuAddRow (order : List ℕ) (off : ℕ) (out : List F)
    (horder : ∀ k i : ℕ, order[k]? = some i → i < routes.length ∧ rp.rowToken.getD i 0 =
      (off + k) / 8) :
    ((order.map (tableRow rp)).zipIdx off).foldlM (cpuAddRow ffnOut rp.tokens hiddenDim) out =
      .ok (Grid.scatterAdd Fp32.add hiddenDim (order.map (rowItem rp ffnOut)) out) := by
  induction order generalizing off out with
  | nil => rfl
  | cons i order ih =>
    obtain ⟨hi, htoken⟩ := horder 0 i rfl
    rw [Nat.add_zero] at htoken
    rw [List.map_cons, List.zipIdx_cons, List.foldlM_cons,
      cpuAddRow_eq hp hlen hffn hrows hi htoken, ok_bind,
      List.map_cons, Grid.scatterAdd, List.foldl_cons, ← Grid.scatterAdd]
    refine ih _ _ fun k j hj => ?_
    have hnext := horder (k + 1) j hj
    rwa [show off + (k + 1) = off + 1 + k by omega] at hnext

/-- The CPU reduction by the token-major table adds up the rows in token order. -/
theorem cpuReduceBf16_eq :
    cpuReduceBf16 ffnOut rp.tokenMajorRoutes.1 rp.tokenMajorRoutes.2 rp.tokens hiddenDim =
      .ok ((Grid.scatterAdd Fp32.add hiddenDim (rp.tokenMajorOrder.map (rowItem rp ffnOut))
        (List.replicate (rp.tokens * hiddenDim) Fp32.zero)).map fun v =>
            f32ToBf16Rne (Fp32Mul.toBits v)) := by
  have hzip : rp.tokenMajorRoutes.1.zip rp.tokenMajorRoutes.2 =
      rp.tokenMajorOrder.map (tableRow rp) :=
    List.zip_map'
  rw [cpuReduceBf16, hzip, foldlM_cpuAddRow hp hlen hffn hrows]
  · rfl
  · intro k i hk
    rw [Nat.zero_add]
    exact ⟨lt_of_mem_tokenMajor hp (List.mem_of_getElem? hk), token_of_tokenMajor hp hlen hk⟩

end cpu

/-! ### The whole -/

/-- Every list of routes that is accepted places each route among its expert's rows, and the experts
over the placed rows, reduced, give each token the weighted sum of its routes in the order of their
experts. The CPU reduction by the token-major table rounds the same sums, if the places fit an
`i32`. -/
theorem fromRoutes_reduce {routes : List RouteEntry} {tokens : ℕ} {rp : RoutePlan}
    (hrp : fromRoutes routes tokens = .ok rp) {expert : ℕ → List F → List F}
    (hexpert : ∀ e row, row.length = hiddenDim → (expert e row).length = hiddenDim)
    {hidden : List F}
    (hhidden : hidden.length = tokens * hiddenDim) : Placed routes rp ∧ ∃ x out,
      rp.replicateX hidden = .ok x ∧ rp.reduce (runExperts rp.plan expert x) = .ok out ∧
      out = (List.range tokens).flatMap (fun token =>
        (List.range hiddenDim).map (routeSum expert routes hidden token)) ∧
      (rp.paddedRows ≤ 2 ^ 31 →
        cpuReduceBf16 (runExperts rp.plan expert x) rp.tokenMajorRoutes.1 rp.tokenMajorRoutes.2
          tokens hiddenDim =
          .ok (out.map fun v => f32ToBf16Rne (Fp32Mul.toBits v))) := by
  have hp := placed_of_fromRoutes hrp
  obtain ⟨hlen, rfl, -⟩ := fromRoutes_eq_ok hrp
  have hx : rp.replicateX hidden = .ok _ := bind_eq_ok.mpr ⟨(), demand_eq_ok.mpr hhidden, rfl⟩
  obtain ⟨hffn, hcell⟩ := hp.ffn_cell hexpert hhidden hlen hx
  have hgroup :=
      scatterAdd_rowItem hp hlen hcell (fun i hi => List.mem_range.mp hi) fun token _ => by
    rw [map_slotAt_range hp]
  have htoken :=
      scatterAdd_rowItem hp hlen hcell (fun i hi => lt_of_mem_tokenMajor hp hi) fun token _ =>
    (arranged_tokenMajor hp).stable token
  refine ⟨hp, _, _, hx, reduce_eq hp hffn, hgroup, fun hrows => ?_⟩
  rw [cpuReduceBf16_eq hp hlen hffn hrows, htoken, hgroup]

/-- The checks of `fromRoutes` pass on routes in token order. -/
theorem exists_fromRoutes {routes : List RouteEntry} {tokens : ℕ}
    (hlen : routes.length = tokens * 8)
    (hrow : ∀ (slot : ℕ) (r : RouteEntry), routes[slot]? = some r → r.rowIndex.toNat = slot / 8) :
    ∃ rp, fromRoutes routes tokens = .ok rp := by
  refine ⟨_, bind_eq_ok.mpr ⟨(), demand_eq_ok.mpr hlen, bind_eq_ok.mpr ⟨(), ?_, rfl⟩⟩⟩
  rw [forM_eq_ok]
  rintro ⟨r, slot⟩ hmem
  exact demand_eq_ok.mpr (hrow slot r (List.mem_zipIdx_iff_getElem?.mp hmem))

/-- Whole numbers below `2 ^ 24`, whose sums and products below it are exact. -/
structure Whole where
  val : ℕ
  deriving DecidableEq, Repr

instance : Fp32Mul Whole where
  zero := ⟨0⟩
  add a b := ⟨a.val + b.val⟩
  mul a b := ⟨a.val * b.val⟩
  ofBits bits :=
    let exp := bits.toNat / 2 ^ 23
    if exp = 0 then ⟨0⟩ else ⟨(2 ^ 23 + bits.toNat % 2 ^ 23) / 2 ^ (150 - exp)⟩
  toBits a :=
    let e := a.val.log2
    if a.val = 0 then 0 else UInt32.ofNat ((127 + e) * 2 ^ 23 + (a.val - 2 ^ e) * 2 ^ (23 - e))

/-- A token's routes to five experts, with the weights 1 and 2. -/
def mixedRoutes : List RouteEntry :=
  [⟨0, 9, 0x3F800000⟩, ⟨0, 3, 0x40000000⟩, ⟨0, 9, 0x40000000⟩, ⟨0, 0, 0x3F800000⟩,
    ⟨0, 255, 0x3F800000⟩,
    ⟨0, 3, 0x3F800000⟩, ⟨0, 7, 0x3F800000⟩, ⟨0, 9, 0x3F800000⟩]

theorem fromRoutes_reduce_mixed : ∃ rp, fromRoutes mixedRoutes 1 = .ok rp ∧ (Placed mixedRoutes rp ∧
    ∃ (x out : List Whole), rp.replicateX (List.replicate hiddenDim ⟨3⟩) = .ok x ∧
      rp.reduce (runExperts rp.plan (fun _ row => row) x) = .ok out ∧
      out = (List.range 1).flatMap (fun token => (List.range hiddenDim).map
        (routeSum (fun _ row => row) mixedRoutes (List.replicate hiddenDim ⟨3⟩) token)) ∧
      (rp.paddedRows ≤ 2 ^ 31 →
        cpuReduceBf16 (runExperts rp.plan (fun _ row => row) x) rp.tokenMajorRoutes.1
          rp.tokenMajorRoutes.2 1
          hiddenDim = .ok (out.map fun v => f32ToBf16Rne (Fp32Mul.toBits v)))) := by
  obtain ⟨rp, hrp⟩ : ∃ rp, fromRoutes mixedRoutes 1 = .ok rp := by
    refine exists_fromRoutes rfl fun slot r hr => ?_
    have hlt := (List.getElem?_eq_some_iff.mp hr).1
    have hall : ∀ r ∈ mixedRoutes, r.rowIndex.toNat = 0 := by decide
    rw [hall r (List.mem_of_getElem? hr)]
    exact (Nat.div_eq_of_lt hlt).symm
  exact ⟨rp, hrp, fromRoutes_reduce hrp (fun _ _ h => h) List.length_replicate⟩

/-! ### More rows than the table by token can name -/

/-- Routes of `tokens` tokens, all to expert 0. -/
def oneExpertRoutes (tokens : ℕ) : List RouteEntry :=
  (List.range (tokens * 8)).map fun slot => ⟨UInt32.ofNat (slot / 8), 0, 0⟩

theorem oneExpert_plan {tokens : ℕ} (hpos : 0 < tokens) (htokens : tokens < 2 ^ 32) :
    ∃ rp, fromRoutes (oneExpertRoutes tokens) tokens =
    .ok rp ∧ rp.rowPadded = List.range (tokens * 8) ∧ rp.paddedRows < tokens * 8 + 16 := by
  have hlen : (oneExpertRoutes tokens).length = tokens * 8 := by simp [oneExpertRoutes]
  obtain ⟨rp, hrp⟩ : ∃ rp, fromRoutes (oneExpertRoutes tokens) tokens = .ok rp := by
    refine exists_fromRoutes hlen fun slot r hr => ?_
    have hlt := (List.getElem?_eq_some_iff.mp hr).1
    rw [hlen] at hlt
    rw [oneExpertRoutes, List.getElem?_map, List.getElem?_range hlt] at hr
    obtain rfl := Option.some.inj hr
    exact UInt32.toNat_ofNat_of_lt' (by rw [UInt32.size]; omega)
  obtain ⟨-, -, hgroups, -, -, hrowPadded⟩ := fromRoutes_eq_ok hrp
  refine ⟨rp, hrp, ?_⟩
  have hexpert : expertOf (oneExpertRoutes tokens) = fun _ => 0 := by
    funext slot
    rw [expertOf, oneExpertRoutes, List.getElem?_map]
    cases (List.range (tokens * 8))[slot]? <;> rfl
  rw [byExpert, hexpert, hlen] at hgroups hrowPadded
  rw [Arrange.buckets_const 0 (by simpa using hpos.ne')] at hgroups hrowPadded
  obtain ⟨-, -, hlt⟩ := tileM_spec (tokens * 8)
  constructor
  · rw [hrowPadded]
    simp [Layout.addExpert]
  · change rowsOf rp.plan.groups < _
    rw [hgroups, List.foldl_cons, List.foldl_nil, Layout.addExpert, List.length_range,
      List.nil_append,
      rowsOf_groupsFrom]
    exact hlt

/-- A row of the table by token whose place is `2 ^ 31` lies past the output. -/
theorem cpuReduce_manyRows {routes : List RouteEntry} {rp : RoutePlan} (hp : Placed routes rp)
    {ffnOut : List F} (hffn : ffnOut.length = rp.paddedRows * hiddenDim)
    (hrows : rp.paddedRows < 2 ^ 32)
    (hplace : 2 ^ 31 ∈ rp.rowPadded) {tokens : ℕ} {codes : List UInt16} :
    cpuReduceBf16 ffnOut rp.tokenMajorRoutes.1 rp.tokenMajorRoutes.2 tokens hiddenDim ≠ .ok
        codes := by
  intro hcpu
  obtain ⟨i, hi⟩ := List.getElem?_of_mem hplace
  have hlt : i < routes.length := by
    rw [← hp.length]
    exact (List.getElem?_eq_some_iff.mp hi).1
  have hmem : (Int32.ofNat (2 ^ 31), rp.rowWeight.getD i 0) ∈
      rp.tokenMajorRoutes.1.zip rp.tokenMajorRoutes.2 := by
    have hzip : rp.tokenMajorRoutes.1.zip rp.tokenMajorRoutes.2 =
        rp.tokenMajorOrder.map (tableRow rp) :=
      List.zip_map'
    rw [hzip]
    refine List.mem_map.mpr ⟨i, ?_, ?_⟩
    · rwa [RoutePlan.tokenMajorOrder, List.mem_mergeSort, List.mem_range, hp.lengths.1]
    · rw [tableRow, List.getD_eq_getElem?_getD, hi, Option.getD_some]
  obtain ⟨t, ht⟩ := List.getElem?_of_mem hmem
  obtain ⟨_, hfold, -⟩ := bind_eq_ok.mp hcpu
  have hzipIdx : ((Int32.ofNat (2 ^ 31), rp.rowWeight.getD i 0), t) ∈
      (rp.tokenMajorRoutes.1.zip rp.tokenMajorRoutes.2).zipIdx :=
        List.mem_zipIdx_iff_getElem?.mpr ht
  obtain ⟨out, out', hstep⟩ := exists_step_of_foldlM hfold hzipIdx
  obtain ⟨_, -, hstep⟩ := bind_eq_ok.mp hstep
  obtain ⟨vals, hrow, -⟩ := bind_eq_ok.mp hstep
  obtain ⟨-, hcells⟩ := mapM_range_eq_ok_iff.mp hrow
  -- the first cell of the row
  have hpast : ffnOut[asUsize (Int32.ofNat (2 ^ 31)) * hiddenDim + 0]? = none := by
    rw [List.getElem?_eq_none_iff, hffn, Nat.add_zero]
    refine Nat.mul_le_mul_right _ (hrows.le.trans ?_)
    decide
  have hlen : 0 < vals.length := by
    rw [(mapM_range_eq_ok_iff.mp hrow).1]
    decide
  have hcell := hcells 0 hlen
  rw [hpast] at hcell
  exact absurd hcell (by simp)

/-- From `2 ^ 31` rows on the table by token is wrong: place `2 ^ 31` is a negative `i32`, and its
row lies past the output. -/
theorem not_cpuReduce_manyTokens : ∃ rp, fromRoutes (oneExpertRoutes (2 ^ 28 + 1)) (2 ^ 28 + 1) =
    .ok rp ∧
    ∃ x out : List Whole, rp.replicateX (List.replicate ((2 ^ 28 + 1) * hiddenDim) ⟨0⟩) = .ok x ∧
      rp.reduce (runExperts rp.plan (fun _ row => row) x) = .ok out ∧
      cpuReduceBf16 (runExperts rp.plan (fun _ row => row) x) rp.tokenMajorRoutes.1
        rp.tokenMajorRoutes.2
        (2 ^ 28 + 1) hiddenDim ≠ .ok (out.map fun v => f32ToBf16Rne (Fp32Mul.toBits v)) := by
  generalize htokens : 2 ^ 28 + 1 = tokens
  obtain ⟨rp, hrp, hrowPadded, hrows⟩ := @oneExpert_plan tokens (by omega) (by omega)
  have hp := placed_of_fromRoutes hrp
  obtain ⟨-, rfl, -⟩ := fromRoutes_eq_ok hrp
  have hhidden : (List.replicate (rp.tokens * hiddenDim) (⟨0⟩ : Whole)).length =
      rp.tokens * hiddenDim :=
    List.length_replicate
  have hx : rp.replicateX (List.replicate (rp.tokens * hiddenDim) (⟨0⟩ : Whole)) = .ok _ :=
    bind_eq_ok.mpr ⟨(), demand_eq_ok.mpr hhidden, rfl⟩
  obtain ⟨hffn, -⟩ := @Placed.ffn_cell Whole _ _ _ hp (fun _ row => row)
    (fun _ _ h => h) _ _ hhidden
    (fromRoutes_eq_ok hrp).1 hx
  refine ⟨rp, hrp, _, _, hx, reduce_eq hp hffn, cpuReduce_manyRows hp hffn (by omega) ?_⟩
  rw [hrowPadded, List.mem_range]
  omega

end Spark

end Mimo26

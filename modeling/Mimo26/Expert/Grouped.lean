import Mathlib.Algebra.BigOperators.Intervals
import Mathlib.Algebra.Field.Defs
import Mathlib.Algebra.BigOperators.Group.Finset.Basic
import Mimo26.Expert.Slice

/-!
# The grouped expert FFN

A batch of tokens, grouped by expert, run through the three projections of the experts' quarter
slices (`grouped.rs` of `mimo26-expert`), in exact arithmetic: the values of a slice are the
rationals of its codec, activations lie in a field, and `silu` is any function on it. The
known-wrong variants that the tests select are left out, and with them the reading of padding.

## Main definitions

* `GroupedPlan`, `groupedGemm`, `expertFfnSelfContained` — a batch, and what a rank computes of it
* `fullFfn` — the FFN of a whole expert

## Main results

* `groupedGemm_eq_ok` — every row of a batch is the product with its own expert's rows
* `ranks_sum_fullFfn` — the four ranks' partials add up to the FFN of the whole expert
-/

namespace Mimo26

namespace Expert

open Result Bytes Grid Mxfp4 Finset

/-- The tokens of an expert, at an offset of the batch. -/
structure Group where
  expert : ℕ
  tokens : ℕ
  tokenOffset : ℕ
  deriving DecidableEq, Repr

/-- The groups of a batch, in order, and the padding after them. -/
structure GroupedPlan where
  groups : List Group
  padded : ℕ
  deriving DecidableEq, Repr

/-- The group sizes the kernel is built for. -/
def mSizes : List ℕ := [1, 2, 4, 8, 16, 64, 256]

namespace GroupedPlan

def totalTokens (plan : GroupedPlan) : ℕ := (plan.groups.map Group.tokens).sum

/-- The check of group `i` on, where the groups before it hold `expectOff` tokens. -/
def validateFrom : ℕ → ℕ → List Group → Except ExpertError Unit
  | _, _, [] => .ok ()
  | i, expectOff, g :: groups => do
    checkExpert g.expert
    let off := g.tokenOffset
    let tokens := g.tokens
    demand (off = expectOff)
      (.grouped s!"group {i} token_offset {off} != running offset {expectOff}")
    demand (tokens ∈ mSizes) (.grouped s!"group {i} has {tokens} tokens; M must be one of {mSizes}")
    validateFrom (i + 1) (expectOff + tokens) groups

def validate (plan : GroupedPlan) : Except ExpertError Unit := validateFrom 0 0 plan.groups

end GroupedPlan

/-- The result of a grouped GEMM, row by row. -/
structure GroupedOutput (K : Type) where
  data : List K
  outRows : ℕ

variable {K : Type} [Field K]

/-- The product of row `r` of a projection and a hidden vector, in the order of the loop. -/
def dot (p : Proj) (payload scales : List UInt8) (r : ℕ) (xrow : List K) : K :=
  let (prow, srow) := rowOf p payload scales r
  (List.range p.sliceInCols).foldl
    (fun acc k => acc + (unpackElement prow srow k : K) * xrow.getD k 0) 0

/-- A token's row of the result. -/
def gemmRow (p : Proj) (payload scales : List UInt8) (x out : List K) (token : ℕ) : List K :=
  let xrow := (x.drop (token * p.sliceInCols)).take p.sliceInCols
  setSpan out (token * p.sliceRows) p.sliceRows fun r => dot p payload scales r xrow

/-- The rows of a group. -/
def gemmGroup (grouped : List UInt8) (x : List K) (p : Proj) (out : List K) (g : Group) :
    Except ExpertError (List K) := do
  let (payload, scales) ← groupedProj grouped g.expert p
  return (List.range g.tokens).foldl
    (fun out t => gemmRow p payload scales x out (g.tokenOffset + t)) out

def groupedGemm (grouped : List UInt8) (x : List K) (plan : GroupedPlan) (p : Proj) :
    Except ExpertError (GroupedOutput K) := do
  plan.validate
  let inCols := p.sliceInCols
  let total := plan.totalTokens
  let len := x.length
  let want := total * inCols
  demand (x.length = total * inCols)
    (.grouped s!"x has {len} elements, expected {total} tokens x {inCols} cols = {want}")
  let data ← plan.groups.foldlM (gemmGroup grouped x p) (List.replicate (total * p.sliceRows) 0)
  return ⟨data, p.sliceRows⟩

/-- The gate and up half of the FFN. -/
def gateUp (silu : K → K) (grouped : List UInt8) (x : List K) (plan : GroupedPlan) :
    Except ExpertError (GroupedOutput K) := do
  let g ← groupedGemm grouped x plan .gate
  let u ← groupedGemm grouped x plan .up
  return ⟨(List.range g.data.length).map fun i => silu (g.data.getD i 0) * u.data.getD i 0,
    g.outRows⟩

/-- A rank's partial of the FFN. -/
def expertFfnSelfContained (silu : K → K) (grouped : List UInt8) (x : List K) (plan : GroupedPlan) :
    Except ExpertError (GroupedOutput K) := do
  let h ← gateUp silu grouped x plan
  groupedGemm grouped h.data plan .down

/-! ### Plans -/

/-- The groups follow each other from token `off` on, and none is empty. -/
def Follows : ℕ → List Group → Prop
  | _, [] => True
  | off, g :: groups => g.expert < expertsPerLayer ∧ g.tokenOffset = off ∧ g.tokens ∈ mSizes ∧
    Follows (off + g.tokens) groups

theorem GroupedPlan.validateFrom_eq_ok {i off : ℕ} {groups : List Group} :
    GroupedPlan.validateFrom i off groups = .ok () ↔ Follows off groups := by
  induction groups generalizing i off with
  | nil => simp [GroupedPlan.validateFrom, Follows]
  | cons g groups ih =>
    simp [GroupedPlan.validateFrom, Follows, checkExpert, bind_eq_ok, Unique.exists_iff,
      demand_eq_ok, ih]

/-- The expert of a token, counted from the first group on. -/
def expertAt : List Group → ℕ → ℕ
  | [], _ => 0
  | g :: groups, token => if token < g.tokens then g.expert else expertAt groups (token - g.tokens)

theorem exists_expertAt {groups : List Group} {token : ℕ}
    (h : token < (groups.map Group.tokens).sum) :
        ∃ g ∈ groups, g.expert = expertAt groups token := by
  induction groups generalizing token with
  | nil => exact absurd h (Nat.not_lt_zero token)
  | cons g groups ih =>
    rw [List.map_cons, List.sum_cons] at h
    by_cases hfirst : token < g.tokens
    · exact ⟨g, List.mem_cons_self, (if_pos hfirst).symm⟩
    · have hrest : token - g.tokens < (groups.map Group.tokens).sum := by omega
      obtain ⟨g', hg', heq⟩ := ih hrest
      exact ⟨g', List.mem_cons_of_mem g hg', heq.trans (if_neg hfirst).symm⟩

/-- Every batch has a plan: its vectors one by one. -/
theorem GroupedPlan.exists_validate (n expert : ℕ) (h : expert < expertsPerLayer) :
    ∃ plan : GroupedPlan, plan.validate = .ok () ∧ plan.totalTokens = n ∧
      ∀ g ∈ plan.groups, g.expert = expert := by
  have hfollows (off n : ℕ) :
      Follows off ((List.range' off n).map fun t => ⟨expert, 1, t⟩) := by
    induction n generalizing off with
    | zero => trivial
    | succ n ih => exact ⟨h, rfl, List.mem_cons_self, ih (off + 1)⟩
  refine ⟨⟨(List.range' 0 n).map fun t => ⟨expert, 1, t⟩, 0⟩, ?_, ?_, ?_⟩
  · exact GroupedPlan.validateFrom_eq_ok.mpr (hfollows 0 n)
  · simp [GroupedPlan.totalTokens, Function.comp_def]
  · simp

/-! ### One projection -/

theorem foldl_add_eq_sum (f : ℕ → K) (n : ℕ) :
    (List.range n).foldl (fun acc k => acc + f k) 0 = ∑ k ∈ range n, f k := by
  induction n with
  | zero => rfl
  | succ n ih => rw [List.range_succ, List.foldl_append, ih, sum_range_succ]; rfl

/-- A token's vector. -/
def vector (n : ℕ) (x : List K) (token : ℕ) : ℕ → K := fun k => x.getD (token * n + k) 0

theorem dot_eq_sum (p : Proj) (payload scales : List UInt8) (r : ℕ) (x : List K) (token : ℕ) :
    dot p payload scales r ((x.drop (token * p.sliceInCols)).take p.sliceInCols) =
      ∑ k ∈ range p.sliceInCols, (unpackElement (rowOf p payload scales r).1
        (rowOf p payload scales r).2 k : K) * vector p.sliceInCols x token k := by
  rw [dot]
  dsimp only
  rw [foldl_add_eq_sum]
  refine sum_congr rfl fun k hk => ?_
  rw [mem_range] at hk
  rw [vector, List.getD_eq_getElem?_getD, List.getElem?_take, if_pos hk, List.getElem?_drop,
    ← List.getD_eq_getElem?_getD]

variable {p : Proj} {payload scales : List UInt8} {x out : List K} {token r : ℕ}

theorem length_gemmRow : (gemmRow p payload scales x out token).length = out.length :=
  length_setSpan _ _ _ _

theorem getElem?_gemmRow {token' : ℕ} (hr : r < p.sliceRows)
    (hlen : token' * p.sliceRows + p.sliceRows ≤ out.length) :
    (gemmRow p payload scales x out token')[token * p.sliceRows + r]? =
      if token = token' then
        some (dot p payload scales r ((x.drop (token * p.sliceInCols)).take p.sliceInCols))
      else out[token * p.sliceRows + r]? := by
  rw [gemmRow, getElem?_setSpan]
  by_cases htoken : token = token'
  · subst htoken
    rw [if_pos (by omega), if_pos rfl, List.getElem?_eq_getElem (by omega), Option.map_some,
      Nat.add_sub_cancel_left]
  · rw [if_neg (not_mem_span hr htoken), if_neg htoken]

theorem gemmRows (p : Proj) (payload scales : List UInt8) (x : List K) {out : List K} {off n : ℕ}
    (hlen : (off + n) * p.sliceRows ≤ out.length) :
    let rows := (List.range n).foldl (fun out t => gemmRow p payload scales x out (off + t)) out
    rows.length = out.length ∧ ∀ token r, r < p.sliceRows → rows[token * p.sliceRows + r]? =
      if off ≤ token ∧ token < off + n then
        some (dot p payload scales r ((x.drop (token * p.sliceInCols)).take p.sliceInCols))
      else out[token * p.sliceRows + r]? := by
  induction n with
  | zero => exact ⟨rfl, fun token r _ => (if_neg (by omega)).symm⟩
  | succ n ih =>
    have hmul : (off + (n + 1)) * p.sliceRows = (off + n) * p.sliceRows + p.sliceRows := by
      rw [← Nat.add_assoc, Nat.succ_mul]
    obtain ⟨hrows, hget⟩ := ih (by omega)
    dsimp only at hrows hget ⊢
    rw [List.range_succ, List.foldl_append]
    constructor
    · exact length_gemmRow.trans hrows
    · intro token r hr
      refine (getElem?_gemmRow hr (by omega)).trans ?_
      by_cases htoken : token = off + n
      · rw [if_pos htoken, if_pos (by omega)]
      · rw [if_neg htoken, hget token r hr]
        by_cases hin : off ≤ token ∧ token < off + n
        · rw [if_pos hin, if_pos (by omega)]
        · rw [if_neg hin, if_neg (by omega)]

/-- **The groups of a batch**: every token's row is the product with its own expert's rows. -/
theorem gemmGroups {grouped : List UInt8} {regions : ℕ → List UInt8 × List UInt8} {off : ℕ}
    {groups : List Group} (hfollows : Follows off groups)
    (hregions : ∀ g ∈ groups, groupedProj grouped g.expert p = .ok (regions g.expert))
    (hlen : (off + (groups.map Group.tokens).sum) * p.sliceRows ≤ out.length) :
    ∃ rows, groups.foldlM (gemmGroup grouped x p) out = .ok rows ∧ rows.length = out.length ∧
      ∀ token r, r < p.sliceRows → rows[token * p.sliceRows + r]? =
        if off ≤ token ∧ token < off + (groups.map Group.tokens).sum then
          some (dot p (regions (expertAt groups (token - off))).1
            (regions (expertAt groups (token - off))).2 r
            ((x.drop (token * p.sliceInCols)).take p.sliceInCols))
        else out[token * p.sliceRows + r]? := by
  induction groups generalizing off out with
  | nil => exact ⟨out, rfl, rfl, fun token r _ => (if_neg (by simp)).symm⟩
  | cons g groups ih =>
    obtain ⟨-, hoff, -, hrest⟩ := hfollows
    rw [List.map_cons, List.sum_cons, ← Nat.add_assoc] at hlen
    have hhere : (off + g.tokens) * p.sliceRows ≤ out.length :=
      (Nat.mul_le_mul_right _ (Nat.le_add_right _ _)).trans hlen
    obtain ⟨hrows, hget⟩ := gemmRows p (regions g.expert).1 (regions g.expert).2 x hhere
    obtain ⟨rows, hfold, hrows', hget'⟩ := ih hrest
      (fun g' hg' => hregions g' (List.mem_cons_of_mem g hg')) (hrows.symm ▸ hlen)
    refine ⟨rows, ?_, hrows'.trans hrows, fun token r hr => ?_⟩
    · rw [List.foldlM_cons, gemmGroup, hregions g List.mem_cons_self, hoff]
      exact hfold
    · rw [hget' token r hr, hget token r hr, List.map_cons, List.sum_cons, expertAt]
      by_cases hfirst : off ≤ token ∧ token < off + g.tokens
      · rw [if_neg (by omega), if_pos hfirst, if_pos (by omega), if_pos (by omega)]
      by_cases hlater : off + g.tokens ≤ token ∧
          token < off + g.tokens + (groups.map Group.tokens).sum
      · rw [if_pos hlater, if_pos (by omega), if_neg (by omega), Nat.sub_sub]
      · rw [if_neg hlater, if_neg hfirst, if_neg (by omega)]

/-- **A grouped GEMM** gives each token the products of its vector with the rows of its own expert.
-/
theorem groupedGemm_eq_ok {grouped : List UInt8} {plan : GroupedPlan}
    (rows : ℕ → ℕ → List UInt8 × List UInt8) (hplan : plan.validate = .ok ())
    (hx : x.length = plan.totalTokens * p.sliceInCols)
    (hregions : ∀ g ∈ plan.groups, ∃ payload scales,
      groupedProj grouped g.expert p = .ok (payload, scales) ∧
        ∀ r < p.sliceRows, rowOf p payload scales r = rows g.expert r) :
    ∃ out : GroupedOutput K, groupedGemm grouped x plan p = .ok out ∧ out.outRows = p.sliceRows ∧
      out.data.length = plan.totalTokens * p.sliceRows ∧
      ∀ token < plan.totalTokens, ∀ r < p.sliceRows, out.data.getD (token * p.sliceRows + r) 0 =
        ∑ k ∈ range p.sliceInCols, (unpackElement (rows (expertAt plan.groups token) r).1
          (rows (expertAt plan.groups token) r).2 k : K) * vector p.sliceInCols x token k := by
  let regions (e : ℕ) := (groupedProj grouped e p).toOption.getD ([], [])
  have hregion (g : Group) (hg : g ∈ plan.groups) :
      groupedProj grouped g.expert p = .ok (regions g.expert) ∧
        ∀ r < p.sliceRows, rowOf p (regions g.expert).1 (regions g.expert).2 r =
            rows g.expert r := by
    obtain ⟨payload, scales, hproj, hrows⟩ := hregions g hg
    have hregion : regions g.expert = (payload, scales) := by
      show (groupedProj grouped g.expert p).toOption.getD ([], []) = (payload, scales)
      rw [hproj]
      rfl
    rw [hregion]
    exact ⟨hproj, hrows⟩
  have hfollows := GroupedPlan.validateFrom_eq_ok.mp hplan
  have hlen : (0 + (plan.groups.map Group.tokens).sum) * p.sliceRows ≤
      (List.replicate (plan.totalTokens * p.sliceRows) (0 : K)).length := by
    rw [List.length_replicate, Nat.zero_add]
    exact le_rfl
  obtain ⟨data, hfold, hdata, hget⟩ :=
    gemmGroups (x := x) hfollows (fun g hg => (hregion g hg).1) hlen
  refine ⟨⟨data, p.sliceRows⟩, ?_, rfl, hdata.trans List.length_replicate, ?_⟩
  · have hsize (e : ExpertError) :
        demand (x.length = plan.totalTokens * p.sliceInCols) e = .ok () := demand_eq_ok.mpr hx
    rw [groupedGemm, hplan]
    simp only [ok_bind, hsize, hfold, pure_eq_ok]
  · intro token htoken r hr
    obtain ⟨g, hg, hexpert⟩ := exists_expertAt htoken
    rw [List.getD_eq_getElem?_getD, hget token r hr, Nat.sub_zero, Nat.zero_add,
      if_pos ⟨Nat.zero_le _, htoken⟩, Option.getD_some, dot_eq_sum, ← hexpert,
        (hregion g hg).2 r hr]

/-! ### The FFN of a whole expert -/

/-- The product of row `row` of a matrix of `cols` columns and a vector. -/
def matvec (m : List ℚ) (cols : ℕ) (x : ℕ → K) (row : ℕ) : K :=
  ∑ k ∈ range cols, (m.getD (row * cols + k) 0 : K) * x k

/-- The FFN of an expert: `down (silu (gate x) * up x)` on its decoded tensors. -/
def fullFfn (silu : K → K) (t : Repack.ExpertTensors) (x : ℕ → K) : ℕ → K :=
  matvec (Repack.expertToF32 t .down) Repack.Proj.down.inCols fun i =>
    silu (matvec (Repack.expertToF32 t .gate) Repack.Proj.gate.inCols x i) *
      matvec (Repack.expertToF32 t .up) Repack.Proj.up.inCols x i

theorem getD_expertToF32 {t : Repack.ExpertTensors} {q : Repack.Proj} (h : t.Sized q) {i c : ℕ}
    (hi : i < q.outRows) (hc : c < q.inCols) :
    (Repack.expertToF32 t q).getD (i * q.inCols + c) 0 = Repack.weight t q i c := by
  rw [List.getD_eq_getElem?_getD, Repack.getElem?_expertToF32 h hi hc, Option.getD_some]

theorem matvec_eq {t : Repack.ExpertTensors} {q : Repack.Proj} (h : t.Sized q) {i : ℕ}
    (hi : i < q.outRows) (x : ℕ → K) : matvec (Repack.expertToF32 t q) q.inCols x i =
      ∑ k ∈ range q.inCols, (Repack.weight t q i k : K) * x k := by
  rw [matvec]
  refine sum_congr rfl fun k hk => ?_
  rw [getD_expertToF32 h hi (mem_range.mp hk)]

/-- What the intermediate `i` of an expert adds to its output `o`. -/
def downTerm (silu : K → K) (t : Repack.ExpertTensors) (x : ℕ → K) (o i : ℕ) : K :=
  (Repack.weight t .down o i : K) *
    (silu (matvec (Repack.expertToF32 t .gate) hidden x i) *
      matvec (Repack.expertToF32 t .up) hidden x i)

theorem fullFfn_eq_sum {t : Repack.ExpertTensors} (h : t.Sized .down) (silu : K → K)
    (x : ℕ → K) {o : ℕ}
    (ho : o < Repack.Proj.down.outRows) :
    fullFfn silu t x o = ∑ i ∈ range intermediate, downTerm silu t x o i := matvec_eq h ho _

/-- A sum over the rows of all ranks is one over all rows. -/
theorem sum_ranks (f : ℕ → K) (ranks n : ℕ) :
    ∑ rank ∈ range ranks, ∑ j ∈ range n, f (rank * n + j) = ∑ i ∈ range (ranks * n), f i := by
  induction ranks with
  | zero => simp
  | succ ranks ih => rw [sum_range_succ, ih, Nat.succ_mul, sum_range_add]

theorem Follows.expert_lt {off : ℕ} {groups : List Group} (h : Follows off groups) :
    ∀ g ∈ groups, g.expert < expertsPerLayer := by
  induction groups generalizing off with
  | nil => exact fun g hg => absurd hg List.not_mem_nil
  | cons g groups ih =>
    obtain ⟨hexpert, -, -, hrest⟩ := h
    exact List.forall_mem_cons.mpr ⟨hexpert, ih hrest⟩

/-- The grouped image holds the slices of the rank for the experts of the plan. -/
def Holds (grouped : List UInt8) (plan : GroupedPlan) (ts : ℕ → Repack.ExpertTensors) (rank : ℕ) :
    Prop :=
  ∀ g ∈ plan.groups, g.expert * quarterSliceBytes + quarterSliceBytes ≤ grouped.length ∧
    Repack.buildSlice (ts g.expert) rank =
      .ok (slice grouped (g.expert * quarterSliceBytes) quarterSliceBytes)

section Rank

variable {grouped : List UInt8} {plan : GroupedPlan} {ts : ℕ → Repack.ExpertTensors} {rank : ℕ}

/-- One projection of a rank: the products with its rows and columns of the experts. -/
theorem groupedGemm_rank (hrank : rank < epRanks) (hsized : ∀ e p, (ts e).Sized p)
    (hholds : Holds grouped plan ts rank) (hplan : plan.validate = .ok ()) (p : Proj)
    (hx : x.length = plan.totalTokens * p.sliceInCols) :
    ∃ out : GroupedOutput K, groupedGemm grouped x plan p = .ok out ∧ out.outRows = p.sliceRows ∧
      out.data.length = plan.totalTokens * p.sliceRows ∧
      ∀ token < plan.totalTokens, ∀ r < p.sliceRows, out.data.getD (token * p.sliceRows + r) 0 =
        ∑ k ∈ range p.sliceInCols, (Repack.weight (ts (expertAt plan.groups token)) p.cut
          (p.cut.rowStart rank + r) (p.cut.sliceColStart rank + k) : K) *
            vector p.sliceInCols x token k := by
  have hfollows := GroupedPlan.validateFrom_eq_ok.mp hplan
  have hregions : ∀ g ∈ plan.groups, ∃ payload scales,
      groupedProj grouped g.expert p = .ok (payload, scales) ∧
        ∀ r < p.sliceRows, rowOf p payload scales r =
          (Repack.payloadRow (ts g.expert) p.cut rank r,
              Repack.scaleRow (ts g.expert) p.cut rank r) := by
    intro g hg
    obtain ⟨hfin, himage⟩ := hholds g hg
    exact groupedProj_buildSlice hrank (hsized g.expert) himage (hfollows.expert_lt g hg) hfin rfl p
  obtain ⟨out, hout, hrows, hlen, hget⟩ := groupedGemm_eq_ok (fun e r =>
    (Repack.payloadRow (ts e) p.cut rank r, Repack.scaleRow (ts e) p.cut rank r)) hplan hx hregions
  refine ⟨out, hout, hrows, hlen, fun token htoken r hr => ?_⟩
  rw [hget token htoken r hr]
  refine sum_congr rfl fun k hk => ?_
  have hk' : k < p.cut.sliceInCols := by
    rw [p.cut_layout.2.1]
    exact mem_range.mp hk
  rw [Repack.unpackElement_rows hrank r hk']

/-- **What a rank computes**: its columns of the down projection, with its rows of the other two. -/
theorem expertFfn_rank (silu : K → K) (hrank : rank < epRanks) (hsized : ∀ e p, (ts e).Sized p)
    (hholds : Holds grouped plan ts rank) (hplan : plan.validate = .ok ())
    (hx : x.length = plan.totalTokens * hidden) :
    ∃ out : GroupedOutput K, expertFfnSelfContained silu grouped x plan = .ok out ∧
      out.data.length = plan.totalTokens * hidden ∧
      ∀ token < plan.totalTokens, ∀ o < hidden, out.data.getD (token * hidden + o) 0 =
        ∑ j ∈ range 512, downTerm silu (ts (expertAt plan.groups token)) (vector hidden x token) o
          (rank * 512 + j) := by
  obtain ⟨g, hg, hgrows, hglen, hgget⟩ := groupedGemm_rank hrank hsized hholds hplan .gate hx
  obtain ⟨u, hu, -, hulen, huget⟩ := groupedGemm_rank hrank hsized hholds hplan .up hx
  let h : List K := (List.range g.data.length).map fun i => silu (g.data.getD i 0) * u.data.getD i 0
  have hlen : h.length = plan.totalTokens * Proj.down.sliceInCols := by
    rw [List.length_map, List.length_range, hglen]
    rfl
  obtain ⟨out, hout, -, holen, hoget⟩ := groupedGemm_rank hrank hsized hholds hplan .down hlen
  refine ⟨out, ?_, holen, fun token htoken o ho => ?_⟩
  · have hgate : gateUp silu grouped x plan = .ok ⟨h, g.outRows⟩ := by
      rw [gateUp, hg, ok_bind, hu, ok_bind]
      rfl
    rw [expertFfnSelfContained, hgate, ok_bind]
    exact hout
  · have hhidden (j : ℕ) (hj : j < 512) : vector 512 h token j =
        silu (matvec (Repack.expertToF32 (ts (expertAt plan.groups token)) .gate) hidden
            (vector hidden x token) (rank * 512 + j)) *
          matvec (Repack.expertToF32 (ts (expertAt plan.groups token)) .up) hidden
            (vector hidden x token) (rank * 512 + j) := by
      have hrow : rank * 512 + j < 2048 := by
        rw [epRanks] at hrank
        omega
      have hcell : token * 512 + j < g.data.length := by
        rw [hglen]
        exact cell_lt htoken hj
      have hgate : g.data.getD (token * 512 + j) 0 =
          matvec (Repack.expertToF32 (ts (expertAt plan.groups token)) .gate) hidden
            (vector hidden x token) (rank * 512 + j) := by
        refine (hgget token htoken j hj).trans ?_
        refine Eq.trans (sum_congr rfl fun k _ => ?_) (matvec_eq (hsized _ .gate) hrow _).symm
        rw [show Repack.Proj.sliceColStart (Proj.cut .gate) rank + k = k from Nat.zero_add k]
        rfl
      have hup : u.data.getD (token * 512 + j) 0 =
          matvec (Repack.expertToF32 (ts (expertAt plan.groups token)) .up) hidden
            (vector hidden x token) (rank * 512 + j) := by
        refine (huget token htoken j hj).trans ?_
        refine Eq.trans (sum_congr rfl fun k _ => ?_) (matvec_eq (hsized _ .up) hrow _).symm
        rw [show Repack.Proj.sliceColStart (Proj.cut .up) rank + k = k from Nat.zero_add k]
        rfl
      rw [vector, List.getD_eq_getElem?_getD, List.getElem?_map, List.getElem?_range hcell,
        Option.map_some, Option.getD_some, hgate, hup]
    refine (hoget token htoken o ho).trans (sum_congr rfl fun j hj => ?_)
    rw [show vector (Proj.down.sliceInCols) h token j = vector 512 h token j from rfl,
      hhidden j (mem_range.mp hj),
      show Repack.Proj.rowStart (Proj.cut .down) rank + o = o from Nat.zero_add o]
    rfl

end Rank

/-- Each rank's slice of an expert decodes to its own rows and columns of it, and the ranks'
partials of a batch add up to the FFN of the whole expert. -/
def SumsToWhole (silu : K → K) (t : Repack.ExpertTensors) (plan : GroupedPlan) (x : List K) :
    Prop :=
  ∃ (image : ℕ → List UInt8) (out : ℕ → GroupedOutput K),
    (∀ rank < epRanks, Repack.buildSlice t rank = .ok (image rank) ∧
      expertFfnSelfContained silu (image rank) x plan = .ok (out rank) ∧
      (out rank).data.length = plan.totalTokens * hidden ∧
      ∀ p, Repack.sliceToF32 (image rank) p =
        .ok (Repack.sliceRowsOfFull (Repack.expertToF32 t p) p rank)) ∧
    ∀ token < plan.totalTokens, ∀ o < hidden,
      ∑ rank ∈ range epRanks, (out rank).data.getD (token * hidden + o) 0 =
        fullFfn silu t (vector hidden x token) o

/-- **The ranks' partials add up to the FFN of the whole expert**, for every batch. -/
theorem ranks_sum_fullFfn (silu : K → K) (t : Repack.ExpertTensors) (h : ∀ p, t.Sized p)
    (plan : GroupedPlan) (hplan : plan.validate = .ok ())
    (hexpert : ∀ g ∈ plan.groups, g.expert = 0)
    (x : List K) (hx : x.length = plan.totalTokens * hidden) : SumsToWhole silu t plan x := by
  have hrank (rank : ℕ) (hrank : rank < epRanks) : ∃ (image : List UInt8) (out : GroupedOutput K),
      Repack.buildSlice t rank = .ok image ∧
        expertFfnSelfContained silu image x plan = .ok out ∧
        out.data.length = plan.totalTokens * hidden ∧
        ∀ token < plan.totalTokens, ∀ o < hidden, out.data.getD (token * hidden + o) 0 =
          ∑ j ∈ range 512, downTerm silu t (vector hidden x token) o (rank * 512 + j) := by
    obtain ⟨image, himage⟩ : ∃ image, Repack.buildSlice t rank = .ok image :=
      ⟨_, Repack.buildSlice_eq_ok hrank h⟩
    have hlen : image.length = quarterSliceBytes := Repack.length_buildSlice hrank h himage
    have hholds : Holds image plan (fun _ => t) rank := by
      intro g hg
      rw [hexpert g hg, Nat.zero_mul, Nat.zero_add]
      refine ⟨hlen.ge, ?_⟩
      rw [← hlen, slice_zero_length]
      exact himage
    obtain ⟨out, hout, holen, hget⟩ := expertFfn_rank silu hrank (fun _ => h) hholds hplan hx
    exact ⟨image, out, himage, hout, holen, hget⟩
  have : Nonempty (GroupedOutput K) := ⟨⟨[], 0⟩⟩
  choose! image out hslice hffn hlen hget using hrank
  refine ⟨image, out, fun rank hrank => ⟨hslice rank hrank, hffn rank hrank, hlen rank hrank,
    Repack.sliceToF32_buildSlice hrank h (hslice rank hrank)⟩, fun token htoken o ho => ?_⟩
  calc ∑ rank ∈ range epRanks, (out rank).data.getD (token * hidden + o) 0
      = ∑ rank ∈ range epRanks, ∑ j ∈ range 512,
          downTerm silu t (vector hidden x token) o (rank * 512 + j) :=
        sum_congr rfl fun rank hrank => hget rank (mem_range.mp hrank) token htoken o ho
    _ = ∑ i ∈ range (epRanks * 512), downTerm silu t (vector hidden x token) o i :=
        sum_ranks _ epRanks 512
    _ = fullFfn silu t (vector hidden x token) o := (fullFfn_eq_sum (h .down) silu _ ho).symm

/-- An expert whose weights are all alike. -/
def evenExpert : Repack.ExpertTensors :=
  ⟨List.replicate (2048 * 2048) 0x22, List.replicate (2048 * 128) 127,
    List.replicate (2048 * 2048) 0x33, List.replicate (2048 * 128) 126,
    List.replicate (4096 * 1024) 0x9a, List.replicate (4096 * 64) 128⟩

theorem ranks_sum_fullFfn_evenExpert :
    SumsToWhole (fun v : ℚ => v * v) evenExpert ⟨[⟨0, 1, 0⟩], 0⟩ (List.replicate 4096 1) := by
  have hsized : ∀ p, evenExpert.Sized p := by
    intro p
    cases p with
    | gate => exact ⟨List.length_replicate, List.length_replicate⟩
    | up => exact ⟨List.length_replicate, List.length_replicate⟩
    | down => exact ⟨List.length_replicate, List.length_replicate⟩
  exact ranks_sum_fullFfn _ evenExpert hsized ⟨[⟨0, 1, 0⟩], 0⟩ rfl (by simp) _ List.length_replicate

end Expert

end Mimo26

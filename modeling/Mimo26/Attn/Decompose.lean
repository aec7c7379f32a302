import Mathlib.Algebra.Order.Field.Rat
import Mathlib.Analysis.SpecialFunctions.Exp
import Mathlib.Analysis.SpecialFunctions.Pow.NNReal
import Mimo26.Attn.Rows

/-!
# The decompositions of attention agree

## Main definitions

* `visibleKeys`, `exactRows` — the exact result, for heads that come in whole groups

## Main results

* `decompositions_agree` — the decompositions give what the two-pass reference gives
-/

namespace Mimo26

namespace Attn

open Softmax Sweep

variable {K : Type} [Field K] [LinearOrder K] (A : Arith K)

/-! ### The four functions -/

omit [LinearOrder K] [Field K] in
theorem eachHead_congr {spec : AttnSpec} {tLen : ℕ} {row row' : ℕ → ℕ → Option (List K)}
    (h : ∀ t < tLen, ∀ h < spec.nQ, row t h = row' t h) :
    eachHead spec tLen row = eachHead spec tLen row' := by
  rw [eachHead, eachHead]
  congr 1
  refine mapM_congr fun t ht => mapM_congr fun i hi => ?_
  exact h t (List.mem_range.mp ht) i (List.mem_range.mp hi)

/-- The rows as means. -/
def meanRows (spec : AttnSpec) (q k v : List K) (qPos kPos : List ℤ) (sink : Option (List K)) :
    Except AttnError (Option (List K)) := do
  checkSink spec sink
  pure do
    let nRep ← spec.nRep
    eachHead spec qPos.length (meanRow A spec q k v qPos kPos sink nRep)

omit [LinearOrder K] [Field K] in
/-- A checked sink has a logit for each head. -/
theorem sinkLogit_of_check {spec : AttnSpec} {sink : Option (List K)}
    (hsink : checkSink spec sink = .ok ()) {h : ℕ} (hh : h < spec.nQ) :
    ∃ b, sinkLogit spec sink h = some b := by
  cases sink with
  | none => exact ⟨none, rfl⟩
  | some s =>
    rw [checkSink] at hsink
    split at hsink
    · exact absurd hsink (by simp)
    · next hlen =>
      rw [sinkLogit]
      split
      · rw [List.getElem?_eq_getElem (by omega)]
        exact ⟨_, rfl⟩
      · exact ⟨none, rfl⟩

variable {A} {spec : AttnSpec} {q k v : List K} {qPos kPos : List ℤ}

/-- A function that checks the sink and gives the means. -/
theorem rows_eq_meanRows {sink : Option (List K)} {row : ℕ → ℕ → ℕ → Option (List K)}
    (hrow : checkSink spec sink = .ok () → ∀ nRep, spec.nRep = some nRep →
      ∀ t < qPos.length, ∀ h < spec.nQ,
        row nRep t h = meanRow A spec q k v qPos kPos sink nRep t h) :
    (do
      checkSink spec sink
      pure do
        let nRep ← spec.nRep
        eachHead spec qPos.length (row nRep)) = meanRows A spec q k v qPos kPos sink := by
  rw [meanRows]
  cases hsink : checkSink spec sink with
  | error e => rfl
  | ok u =>
    show Except.ok _ = Except.ok _
    congr 1
    cases hrep : spec.nRep with
    | none => rfl
    | some nRep => exact eachHead_congr (hrow hsink nRep hrep)

theorem attention_eq [IsStrictOrderedRing K] (sink : Option (List K))
    (hq : q.length = qPos.length * spec.nQ * spec.dQk)
    (hk : k.length = kPos.length * spec.nKv * spec.dQk)
    (hv : v.length = kPos.length * spec.nKv * spec.dV) :
    attention A spec q k v qPos kPos sink = meanRows A spec q k v qPos kPos sink := by
  rw [attention, if_neg (not_not.mpr hq), if_neg (not_not.mpr hk), if_neg (not_not.mpr hv)]
  refine rows_eq_meanRows fun hsink nRep _ t _ h hh => ?_
  obtain ⟨b, hb⟩ := sinkLogit_of_check hsink hh
  exact attentionRow_eq A q k v kPos nRep hb

omit [Field K] [LinearOrder K] in
theorem checkShapes_eq_ok (hq : q.length = qPos.length * spec.nQ * spec.dQk)
    (hk : k.length = kPos.length * spec.nKv * spec.dQk)
    (hv : v.length = kPos.length * spec.nKv * spec.dV) (what : String) :
    checkShapes spec q k v qPos.length kPos.length what = .ok () :=
  if_neg (by simp [hq, hk, hv])

theorem decodeSplitKv_eq [IsStrictOrderedRing K] (sink : Option (List K))
    (hq : q.length = qPos.length * spec.nQ * spec.dQk)
    (hk : k.length = kPos.length * spec.nKv * spec.dQk)
    (hv : v.length = kPos.length * spec.nKv * spec.dV) {nSplits : ℕ}
    (hfits : max nSplits 1 * partialBytes ≤ maxBytes)
    (hkeys : kPos.length * max nSplits 1 < 2 ^ 64) :
    decodeSplitKv A spec q k v qPos kPos sink nSplits = meanRows A spec q k v qPos kPos sink := by
  rw [decodeSplitKv, checkShapes_eq_ok hq hk hv]
  exact rows_eq_meanRows fun _ nRep _ t ht h hh =>
    decodeRow_eq A k v kPos sink nRep hq ht hh (by omega) hfits hkeys

theorem attentionChunked_eq [IsStrictOrderedRing K] (sink : Option (List K))
    (hq : q.length = qPos.length * spec.nQ * spec.dQk)
    (hk : k.length = kPos.length * spec.nKv * spec.dQk)
    (hv : v.length = kPos.length * spec.nKv * spec.dV) (keysPerChunk : ℕ) :
    attentionChunked A spec q k v qPos kPos sink keysPerChunk =
      meanRows A spec q k v qPos kPos sink := by
  rw [attentionChunked, checkShapes_eq_ok hq hk hv]
  exact rows_eq_meanRows fun _ nRep _ t ht h hh => chunkedRow_eq A k v kPos sink _ nRep hq ht hh

theorem attentionPaged_eq [IsStrictOrderedRing K] (sink : Option (List K))
    (hq : q.length = qPos.length * spec.nQ * spec.dQk) (hheads : spec.nKv ∣ spec.nQ)
    {ga : GaPaged K} (hga : ga.Returns spec k v) (hlen : kPos.length = ga.nTokens)
    (hfits : ga.nTokens + ga.pageTokens ≤ 2 ^ 64) (pagesPerChunk : ℕ) :
    attentionPaged A spec q qPos kPos sink ga pagesPerChunk =
      meanRows A spec q k v qPos kPos sink := by
  rw [attentionPaged, if_neg (not_not.mpr hq), if_neg (not_not.mpr hlen)]
  refine rows_eq_meanRows fun _ nRep hrep t ht h hh => ?_
  refine pagedRow_eq A sink _ hq ht hh ?_ hga hlen hfits
  rw [AttnSpec.nRep, div?] at hrep
  split at hrep
  · exact absurd hrep (by simp)
  · rw [← Option.some.inj hrep, Nat.mul_div_cancel' hheads]

/-! ### The exact result -/

/-- The visible keys of query `t` and head `h`: their logits and their values. -/
def visibleKeys (A : Arith K) (spec : AttnSpec) (q k v : List K) (qPos kPos : List ℤ) (t h : ℕ) :
    List (K × List K) :=
  let kvh := h / (spec.nQ / spec.nKv)
  ((List.range kPos.length).filter fun j =>
    isVisible (qPos.getD t 0) (kPos.getD j 0) spec.windowGated).map fun j =>
      (((List.range spec.dQk).map fun i => q.getD ((t * spec.nQ + h) * spec.dQk + i) 0 *
          k.getD ((j * spec.nKv + kvh) * spec.dQk + i) 0).sum * attnScale A spec.dQk,
        (List.range spec.dV).map fun i => v.getD ((j * spec.nKv + kvh) * spec.dV + i) 0)

/-- The logit of the sink of head `h`, if it is live. -/
def liveSink (spec : AttnSpec) (sink : Option (List K)) (h : ℕ) : Option K :=
  if spec.sinkAllowed then sink.map (·.getD h 0) else none

/-- The rows of all queries and heads. -/
def exactRows (A : Arith K) (spec : AttnSpec) (q k v : List K) (qPos kPos : List ℤ)
    (sink : Option (List K)) : List K :=
  (List.range qPos.length).flatMap fun t => (List.range spec.nQ).flatMap fun h =>
    exactRow A spec (liveSink spec sink h) (visibleKeys A spec q k v qPos kPos t h)

/-- An entry of a flat list of rows of heads. -/
theorem flat_lt {a as b bs c cs : ℕ} (ha : a < as) (hb : b < bs) (hc : c < cs) :
    (a * bs + b) * cs + c < as * bs * cs := by
  have hrow : a * bs + b + 1 ≤ as * bs := by
    have hmul := Nat.mul_le_mul_right bs (Nat.succ_le_of_lt ha)
    rw [Nat.succ_mul] at hmul
    omega
  have hmul := Nat.mul_le_mul_right cs hrow
  rw [Nat.succ_mul] at hmul
  omega

omit [Field K] [LinearOrder K] in
theorem getElem?_eq_getD {xs : List K} {i : ℕ} (d : K) (h : i < xs.length) :
    xs[i]? = some (xs.getD i d) := by
  rw [List.getD_eq_getElem?_getD, List.getElem?_eq_getElem h]
  rfl

/-- The logit of a key and a query that are there. -/
theorem logit_eq_sum {qoff kvh j : ℕ} (hq : ∀ i < spec.dQk, qoff + i < q.length)
    (hk : ∀ i < spec.dQk, (j * spec.nKv + kvh) * spec.dQk + i < k.length) :
    logit A spec q k qoff kvh j = some (((List.range spec.dQk).map fun i =>
      q.getD (qoff + i) 0 * k.getD ((j * spec.nKv + kvh) * spec.dQk + i) 0).sum *
        attnScale A spec.dQk) := by
  have hterms : (List.range spec.dQk).mapM (fun i => do
      let x ← q[qoff + i]?
      let y ← k[(j * spec.nKv + kvh) * spec.dQk + i]?
      pure (x * y)) = some ((List.range spec.dQk).map fun i =>
        q.getD (qoff + i) 0 * k.getD ((j * spec.nKv + kvh) * spec.dQk + i) 0) := mapM_eq_some
    fun i hi => by
      have hi' := List.mem_range.mp hi
      rw [getElem?_eq_getD 0 (hq i hi'), getElem?_eq_getD 0 (hk i hi')]
      rfl
  have hbody (s : K) (i : ℕ) : (do
      let x ← q[qoff + i]?
      let y ← k[(j * spec.nKv + kvh) * spec.dQk + i]?
      pure (s + x * y)) = (do
        let x ← q[qoff + i]?
        let y ← k[(j * spec.nKv + kvh) * spec.dQk + i]?
        pure (x * y)).map (s + ·) := by
    cases q[qoff + i]? with
    | none => rfl
    | some x =>
      cases k[(j * spec.nKv + kvh) * spec.dQk + i]? with
      | none => rfl
      | some y => rfl
  have hloop := foldlM_map (fun i => do
    let x ← q[qoff + i]?
    let y ← k[(j * spec.nKv + kvh) * spec.dQk + i]?
    pure (x * y)) (fun s y => s + y) (List.range spec.dQk) 0
  simp only [← hbody] at hloop
  rw [logit, hloop, hterms, List.sum_eq_foldl]
  rfl

/-- What is read for a head that exists. -/
theorem rowItems_eq (hq : q.length = qPos.length * spec.nQ * spec.dQk)
    (hk : k.length = kPos.length * spec.nKv * spec.dQk)
    (hv : v.length = kPos.length * spec.nKv * spec.dV) (hkv : 0 < spec.nKv)
    (hheads : spec.nKv ∣ spec.nQ) {t h : ℕ} (ht : t < qPos.length) (hh : h < spec.nQ) :
    rowItems A spec q k v qPos kPos (spec.nQ / spec.nKv) t h =
      some (visibleKeys A spec q k v qPos kPos t h) := by
  have hrep : 0 < spec.nQ / spec.nKv :=
    Nat.div_pos (Nat.le_of_dvd (by omega) hheads) hkv
  have hkvh : h / (spec.nQ / spec.nKv) < spec.nKv := by
    refine Nat.div_lt_of_lt_mul ?_
    rw [Nat.div_mul_cancel hheads]
    exact hh
  have hitem (j : ℕ) (hj : j ∈ List.range kPos.length) :
      keyItem A spec q k v ((t * spec.nQ + h) * spec.dQk) (h / (spec.nQ / spec.nKv))
        (qPos.getD t 0) kPos j =
      some (if isVisible (qPos.getD t 0) (kPos.getD j 0) spec.windowGated then
        some (((List.range spec.dQk).map fun i =>
            q.getD ((t * spec.nQ + h) * spec.dQk + i) 0 *
              k.getD ((j * spec.nKv + h / (spec.nQ / spec.nKv)) * spec.dQk + i) 0).sum *
                attnScale A spec.dQk,
          (List.range spec.dV).map fun i =>
            v.getD ((j * spec.nKv + h / (spec.nQ / spec.nKv)) * spec.dV + i) 0)
      else none) := by
    have hj' := List.mem_range.mp hj
    have hvalues : values spec v (h / (spec.nQ / spec.nKv)) j = some ((List.range spec.dV).map
        fun i => v.getD ((j * spec.nKv + h / (spec.nQ / spec.nKv)) * spec.dV + i) 0) :=
      mapM_eq_some fun i hi => getElem?_eq_getD 0 (by
        rw [hv]
        exact flat_lt hj' hkvh (List.mem_range.mp hi))
    have hlogit := @logit_eq_sum _ _ _ A spec q k ((t * spec.nQ + h) * spec.dQk)
      (h / (spec.nQ / spec.nKv)) j
      (fun i hi => by rw [hq]; exact flat_lt ht hh hi)
      (fun i hi => by rw [hk]; exact flat_lt hj' hkvh hi)
    rw [keyItem, getElem?_eq_getD 0 hj', hvalues, hlogit]
    dsimp only [bind, Option.bind]
    split
    · rfl
    · rfl
  rw [rowItems, getElem?_eq_getD 0 ht, div?, if_neg (by omega)]
  dsimp only [bind, Option.bind]
  rw [mapM_eq_some hitem]
  dsimp only [pure]
  rw [visibleKeys]
  congr 1
  generalize List.range kPos.length = js
  induction js with
  | nil => rfl
  | cons j js ih =>
    rw [List.map_cons, List.filter_cons]
    split
    · next hvisible => rw [List.reduceOption_cons_of_some, ih, List.map_cons]
    · next hvisible => rw [List.reduceOption_cons_of_none, ih]

/-- The exact result of heads that exist. -/
theorem meanRows_eq {sink : Option (List K)}
    (hq : q.length = qPos.length * spec.nQ * spec.dQk)
    (hk : k.length = kPos.length * spec.nKv * spec.dQk)
    (hv : v.length = kPos.length * spec.nKv * spec.dV) (hkv : 0 < spec.nKv)
    (hheads : spec.nKv ∣ spec.nQ) (hsink : ∀ s, sink = some s → s.length = spec.nQ) :
    meanRows A spec q k v qPos kPos sink = .ok (some (exactRows A spec q k v qPos kPos sink)) := by
  have hcheck : checkSink spec sink = .ok () := by
    cases sink with
    | none => rfl
    | some s => exact if_neg (not_not.mpr (hsink s rfl))
  have hlive (h : ℕ) (hh : h < spec.nQ) :
      sinkLogit spec sink h = some (liveSink spec sink h) := by
    cases sink with
    | none => rw [sinkLogit, liveSink, Option.map_none, ite_self]
    | some s =>
      rw [sinkLogit, liveSink, sinkActive, getElem?_eq_getD 0 (by rw [hsink s rfl]; exact hh)]
      split
      · rfl
      · rfl
  have hrow (t : ℕ) (ht : t < qPos.length) (h : ℕ) (hh : h < spec.nQ) :
      meanRow A spec q k v qPos kPos sink (spec.nQ / spec.nKv) t h =
        some (exactRow A spec (liveSink spec sink h) (visibleKeys A spec q k v qPos kPos t h)) := by
    rw [meanRow, rowItems_eq hq hk hv hkv hheads ht hh, hlive h hh]
    rfl
  have hrows : (List.range qPos.length).mapM (fun t => (List.range spec.nQ).mapM fun h =>
      meanRow A spec q k v qPos kPos sink (spec.nQ / spec.nKv) t h) = some _ := mapM_eq_some fun t ht =>
    mapM_eq_some fun h hh => hrow t (List.mem_range.mp ht) h (List.mem_range.mp hh)
  rw [meanRows, hcheck, AttnSpec.nRep, div?, if_neg (by omega)]
  show Except.ok (Option.bind (List.mapM _ _) _) = _
  rw [hrows]
  show Except.ok (some _) = _
  rw [exactRows, List.flatten_flatten, List.map_map, ← List.flatMap_def]
  rfl

/-- **The decompositions agree** with the two-pass reference: split-KV and chunked for any layer,
paged for a layer whose heads come in whole groups, as long as the sizes stay a `usize`. The
reference gives the softmax-weighted mean with the sink once, and a query that sees no key a zero
row. -/
theorem decompositions_agree [IsStrictOrderedRing K] (A : Arith K) (spec : AttnSpec)
    (q k v : List K)
    (qPos kPos : List ℤ) (sink : Option (List K))
    (hq : q.length = qPos.length * spec.nQ * spec.dQk)
    (hk : k.length = kPos.length * spec.nKv * spec.dQk)
    (hv : v.length = kPos.length * spec.nKv * spec.dV) :
    (∀ nSplits, max nSplits 1 * partialBytes ≤ maxBytes →
      kPos.length * max nSplits 1 < 2 ^ 64 →
      decodeSplitKv A spec q k v qPos kPos sink nSplits =
        attention A spec q k v qPos kPos sink) ∧
    (∀ keysPerChunk, attentionChunked A spec q k v qPos kPos sink keysPerChunk =
      attention A spec q k v qPos kPos sink) ∧
    (spec.nKv ∣ spec.nQ → ∀ ga : GaPaged K, ga.Returns spec k v → kPos.length = ga.nTokens →
      ga.nTokens + ga.pageTokens ≤ 2 ^ 64 → ∀ pagesPerChunk,
      attentionPaged A spec q qPos kPos sink ga pagesPerChunk =
        attention A spec q k v qPos kPos sink) ∧
    (0 < spec.nKv → spec.nKv ∣ spec.nQ → (∀ s, sink = some s → s.length = spec.nQ) →
      attention A spec q k v qPos kPos sink =
        .ok (some (exactRows A spec q k v qPos kPos sink)) ∧
      ∀ t h, visibleKeys A spec q k v qPos kPos t h = [] →
        exactRow A spec (liveSink spec sink h) (visibleKeys A spec q k v qPos kPos t h) =
          List.replicate spec.dV 0) := by
  rw [attention_eq sink hq hk hv]
  refine ⟨fun nSplits hfits hkeys => decodeSplitKv_eq sink hq hk hv hfits hkeys,
    attentionChunked_eq sink hq hk hv,
    fun hheads ga hga hlen hfits => attentionPaged_eq sink hq hheads hga hlen hfits,
    fun hkv hheads hsink => ⟨meanRows_eq hq hk hv hkv hheads hsink, fun t h hnone => ?_⟩⟩
  rw [hnone, exactRow_nil]

/-- The reals. -/
noncomputable def realArith : Arith ℝ where
  exp := Real.exp
  exp_pos := Real.exp_pos
  exp_add := Real.exp_add
  sqrt := Real.sqrt

/-- The rows of flat lists in pages. -/
def flatPages (spec : AttnSpec) (k v : List K) (nTokens pageTokens : ℕ) (h : 0 < pageTokens) :
    GaPaged K where
  nTokens := nTokens
  pageTokens := pageTokens
  pageTokens_pos := h
  rowsRange lo hi :=
    if lo ≤ hi ∧ hi ≤ nTokens then
      some ((k.drop (lo * (spec.nKv * spec.dQk))).take ((hi - lo) * (spec.nKv * spec.dQk)),
        (v.drop (lo * (spec.nKv * spec.dV))).take ((hi - lo) * (spec.nKv * spec.dV)))
    else none

omit [Field K] [LinearOrder K] in
theorem returns_flatPages (spec : AttnSpec) (k v : List K) (nTokens pageTokens : ℕ)
    (h : 0 < pageTokens) : (flatPages spec k v nTokens pageTokens h).Returns spec k v :=
  fun _ _ hle hn => if_pos ⟨hle, hn⟩

/-- A layer of a window with a sink, and two heads on one KV head. -/
def swaSpec : AttnSpec := ⟨.swa, 2, 1, 1, 1, 128, true⟩

theorem decompositions_agree_swa :
    decodeSplitKv realArith swaSpec [1, 2] [3, 4] [5, 6] [7] [6, 7] (some [1, 2]) 3 =
      attention realArith swaSpec [1, 2] [3, 4] [5, 6] [7] [6, 7] (some [1, 2]) ∧
    attentionPaged realArith swaSpec [1, 2] [7] [6, 7] (some [1, 2])
      (flatPages swaSpec [3, 4] [5, 6] 2 1 (by decide)) 1 =
      attention realArith swaSpec [1, 2] [3, 4] [5, 6] [7] [6, 7] (some [1, 2]) ∧
    attention realArith swaSpec [1, 2] [3, 4] [5, 6] [7] [6, 7] (some [1, 2]) =
      .ok (some (exactRows realArith swaSpec [1, 2] [3, 4] [5, 6] [7] [6, 7] (some [1, 2]))) := by
  obtain ⟨hsplits, -, hpaged, hexact⟩ := decompositions_agree realArith swaSpec [1, 2] [3, 4]
    [5, 6] [7] [6, 7] (some [1, 2]) rfl rfl rfl
  refine ⟨hsplits 3 (by decide) (by decide),
    hpaged ⟨2, rfl⟩ _ (returns_flatPages _ _ _ _ _ _) rfl (by decide) 1,
      (hexact (by decide) ⟨2, rfl⟩ ?_).1⟩
  intro s hs
  rw [← Option.some.inj hs]
  rfl

/-- An exponential that is one everywhere. -/
def flatArith : Arith ℚ where
  exp := fun _ => 1
  exp_pos := fun _ => one_pos
  exp_add := fun _ _ => (one_mul 1).symm
  sqrt := fun x => x

/-- Three heads on two KV heads, and one on one. -/
def unevenSpec : AttnSpec := ⟨.ga, 3, 2, 1, 1, 128, false⟩

def oneSpec : AttnSpec := ⟨.ga, 1, 1, 1, 1, 128, false⟩

/-- **Where they do not**: a third head of two KV heads reads the next row's first, which a page
does not have; a page size near the largest `usize` leaves no page; and a split count is too large
for a `Vec`. -/
theorem not_decompositions_agree :
    (attention flatArith unevenSpec [1, 1, 1] [1, 2, 3, 4] [5, 6, 7, 8] [0] [0, 1] none =
        .ok (some [5, 6, 7]) ∧
      (flatPages unevenSpec ([1, 2, 3, 4] : List ℚ) [5, 6, 7, 8] 2 1 (by decide)).Returns
        unevenSpec [1, 2, 3, 4] [5, 6, 7, 8] ∧
      attentionPaged flatArith unevenSpec [1, 1, 1] [0] [0, 1] none
        (flatPages unevenSpec [1, 2, 3, 4] [5, 6, 7, 8] 2 1 (by decide)) 1 = .ok none) ∧
    attention flatArith oneSpec [1] [1, 2] [5, 7] [1] [0, 1] none = .ok (some [6]) ∧
    attentionPaged flatArith oneSpec [1] [1] [0, 1] none
      (flatPages oneSpec [1, 2] [5, 7] 2 (2 ^ 64 - 1) (by decide)) 1 = .ok (some [0]) ∧
    decodeSplitKv flatArith oneSpec [1] [1, 2] [5, 7] [1] [0, 1] none (2 ^ 63) = .ok none := by
  refine ⟨⟨?_, returns_flatPages _ _ _ _ _ _, ?_⟩, ?_, ?_, ?_⟩
  · decide +kernel
  · decide +kernel
  · decide +kernel
  · decide +kernel
  · decide

end Attn

end Mimo26

import Mimo26.Attn.Attention
import Mimo26.Library.Sweep

/-!
# The rows of attention

Each of the four functions reads the visible keys of a query and a head, in order, and gives their
softmax-weighted mean. What is read does not depend on how the keys are cut up, and neither does the
mean.

## Main definitions

* `keyItem` — a key's logit and values, if the query sees it
* `exactRow`, `meanRow` — the mean of some keys, and of what is read

## Main results

* `attentionRow_eq`, `decodeRow_eq`, `chunkedRow_eq`, `pagedRow_eq` — every row is the mean of what
  is read
-/

namespace Mimo26

namespace Attn

open Softmax Sweep

/-! ### Rows as vectors -/

section Vec

variable {K : Type} [Field K]

/-- A list as a vector. -/
def vec (l : List K) : ℕ → K := fun i => l.getD i 0

/-- A row is its vector. -/
theorem eq_map_vec {l : List K} {n : ℕ} (h : l.length = n) : l = (List.range n).map (vec l) := by
  refine List.ext_getElem? fun i => ?_
  rw [List.getElem?_map]
  rcases Nat.lt_or_ge i n with hi | hi
  · rw [List.getElem?_range hi, Option.map_some, vec, List.getD_eq_getElem?_getD,
      List.getElem?_eq_getElem (h ▸ hi)]
    rfl
  · rw [List.getElem?_eq_none (h.trans_le hi), List.getElem?_eq_none (by simpa using hi)]
    rfl

theorem vec_replicate (n : ℕ) : vec (List.replicate n (0 : K)) = 0 := by
  funext i
  simp [vec, List.getD_eq_getElem?_getD, List.getElem?_replicate]
  split
  · rfl
  · rfl

/-- Two lists combined place by place. -/
theorem vec_zipWith {f : K → K → K} (hf : f 0 0 = 0) {xs ys : List K}
    (h : xs.length = ys.length) (i : ℕ) :
        vec (List.zipWith f xs ys) i = f (vec xs i) (vec ys i) := by
  rw [vec, vec, vec, List.getD_eq_getElem?_getD, List.getD_eq_getElem?_getD,
    List.getD_eq_getElem?_getD, List.getElem?_zipWith]
  rcases Nat.lt_or_ge i xs.length with hi | hi
  · rw [List.getElem?_eq_getElem hi, List.getElem?_eq_getElem (h ▸ hi)]
    rfl
  · rw [List.getElem?_eq_none hi, List.getElem?_eq_none (h ▸ hi)]
    exact hf.symm

end Vec

variable {K : Type} [Field K] [LinearOrder K] (A : Arith K)

/-- The logit and the values of key `j`, if it is visible. -/
def keyItem (spec : AttnSpec) (q k v : List K) (qoff kvh : ℕ) (qp : ℤ) (kPos : List ℤ) (j : ℕ) :
    Option (Option (K × List K)) := do
  let kp ← kPos[j]?
  if isVisible qp kp spec.windowGated then
    let s ← logit A spec q k qoff kvh j
    let val ← values spec v kvh j
    pure (some (s, val))
  else pure none

/-- The softmax-weighted mean of the keys' values. -/
def exactRow (spec : AttnSpec) (sink : Option K) (keys : List (K × List K)) : List K :=
  (List.range spec.dV).map (softmax A.toExpHom sink (keys.map fun x => (x.1, vec x.2)))

/-- Without a key the row is zero. -/
theorem exactRow_nil (spec : AttnSpec) (sink : Option K) :
    exactRow A spec sink [] = List.replicate spec.dV 0 := by
  rw [exactRow, List.map_nil, softmax_nil]
  show (List.range spec.dV).map (fun _ => (0 : K)) = _
  rw [List.map_const', List.length_range]

/-! ### What is read -/

theorem length_values {K : Type} {spec : AttnSpec} {v val : List K} {kvh j : ℕ}
    (h : values spec v kvh j = some val) : val.length = spec.dV := by
  rw [length_of_mapM h, List.length_range]

/-- The values of a key that is read have the row's width. -/
theorem length_keyItem {spec : AttnSpec} {q k v : List K} {qoff kvh : ℕ} {qp : ℤ}
    {kPos : List ℤ} {js : List ℕ} {ys : List (Option (K × List K))}
    (h : js.mapM (keyItem A spec q k v qoff kvh qp kPos) = some ys) :
    ∀ x ∈ ys.reduceOption, x.2.length = spec.dV := by
  have hall : ∀ y ∈ ys, ∀ x, y = some x → x.2.length = spec.dV := by
    refine forall_of_mapM h fun j _ y hy x hx => ?_
    subst hx
    obtain ⟨kp, -, hy⟩ := Option.bind_eq_some_iff.mp hy
    split at hy
    · obtain ⟨s, -, hy⟩ := Option.bind_eq_some_iff.mp hy
      obtain ⟨val, hval, hy⟩ := Option.bind_eq_some_iff.mp hy
      rw [← Option.some.inj (Option.some.inj hy)]
      exact length_values hval
    · exact absurd (Option.some.inj hy) (by simp)
  intro x hx
  rw [List.reduceOption_mem_iff] at hx
  exact hall _ hx x rfl

/-- A logit depends on the entries it reads. -/
theorem logit_congr {spec : AttnSpec} {q q' k k' : List K} {qoff qoff' kvh kvh' j j' : ℕ}
    (hq : ∀ i < spec.dQk, q[qoff + i]? = q'[qoff' + i]?)
    (hk : ∀ i < spec.dQk, k[(j * spec.nKv + kvh) * spec.dQk + i]? =
      k'[(j' * spec.nKv + kvh') * spec.dQk + i]?) :
    logit A spec q k qoff kvh j = logit A spec q' k' qoff' kvh' j' := by
  rw [logit, logit]
  congr 1
  have hfold (is : List ℕ) (his : ∀ i ∈ is, i < spec.dQk) (s : K) :
      is.foldlM (fun s i => do
        let x ← q[qoff + i]?
        let y ← k[(j * spec.nKv + kvh) * spec.dQk + i]?
        pure (s + x * y)) s =
      is.foldlM (fun s i => do
        let x ← q'[qoff' + i]?
        let y ← k'[(j' * spec.nKv + kvh') * spec.dQk + i]?
        pure (s + x * y)) s := by
    induction is generalizing s with
    | nil => rfl
    | cons i is ih =>
      rw [List.forall_mem_cons] at his
      rw [List.foldlM_cons, List.foldlM_cons, hq i his.1, hk i his.1]
      congr 1
      funext s
      exact ih his.2 s
  exact hfold _ (fun i hi => List.mem_range.mp hi) 0

/-- A query's row read on its own. -/
theorem logit_slice {spec : AttnSpec} {q qRow : List K} (k : List K) {qoff : ℕ} (kvh j : ℕ)
    (h : slice q qoff (qoff + spec.dQk) = some qRow) :
    logit A spec qRow k 0 kvh j = logit A spec q k qoff kvh j := by
  rw [slice] at h
  split at h
  · obtain rfl := Option.some.inj h
    refine logit_congr A (fun i hi => ?_) fun _ _ => rfl
    rw [Nat.zero_add, List.getElem?_take_of_lt (by omega), List.getElem?_drop]
  · exact absurd h (by simp)

theorem keyItem_slice {spec : AttnSpec} {q qRow : List K} (k v : List K) {qoff : ℕ} (kvh : ℕ)
    (qp : ℤ) (kPos : List ℤ) (h : slice q qoff (qoff + spec.dQk) = some qRow) :
    keyItem A spec qRow k v 0 kvh qp kPos = keyItem A spec q k v qoff kvh qp kPos := by
  funext j
  rw [keyItem, keyItem, logit_slice A k kvh j h]

/-- **A range of keys** folds what is read of it. -/
theorem foldRangeKvh_eq (spec : AttnSpec) (kvh : ℕ) (qRow k v : List K) (lo hi : ℕ) (qp : ℤ)
    (kPos : List ℤ) (p : Partial K) : foldRangeKvh A spec kvh qRow k v lo hi qp kPos p =
      ((List.range' lo (hi - lo)).mapM (keyItem A spec qRow k v 0 kvh qp kPos)).map fun ys =>
        ys.reduceOption.foldl (fun p x => p.fold A x.1 x.2) p := by
  have hbody (p : Partial K) (j : ℕ) : (do
      let kp ← kPos[j]?
      if isVisible qp kp spec.windowGated then
        let s ← logit A spec qRow k 0 kvh j
        let val ← values spec v kvh j
        pure (p.fold A s val)
      else pure p) = (keyItem A spec qRow k v 0 kvh qp kPos j).map fun y =>
        y.elim p fun x => p.fold A x.1 x.2 := by
    rw [keyItem]
    cases kPos[j]? with
    | none => rfl
    | some kp =>
      show (if isVisible qp kp spec.windowGated then _ else _) = Option.map _ (ite _ _ _)
      split
      · cases logit A spec qRow k 0 kvh j with
        | none => rfl
        | some s =>
          cases values spec v kvh j with
          | none => rfl
          | some val => rfl
      · rfl
  rw [foldRangeKvh]
  have hloop := foldlM_map (keyItem A spec qRow k v 0 kvh qp kPos)
    (fun (p : Partial K) y => y.elim p fun x => p.fold A x.1 x.2) (List.range' lo (hi - lo)) p
  simp only [← hbody] at hloop
  rw [hloop]
  congr 1
  funext ys
  exact foldl_reduceOption (fun (p : Partial K) x => p.fold A x.1 x.2) ys p

/-! ### What is folded -/

namespace Partial

/-- A partial as an accumulator. -/
def toAcc (p : Partial K) : Acc K (ℕ → K) := ⟨p.m, p.l, vec p.o⟩

omit [LinearOrder K] in
theorem toAcc_new (n : ℕ) : (Partial.new n : Partial K).toAcc = Acc.zero := by
  rw [toAcc, Partial.new, Acc.zero, vec_replicate]

theorem toAcc_fold {p : Partial K} {s : K} {val : List K} (h : p.o.length = val.length) :
    (p.fold A s val).toAcc = p.toAcc.fold A.toExpHom s (vec val) := by
  rw [toAcc, fold, Acc.fold]
  congr 1
  funext i
  rw [vec_zipWith (by ring) h, mul_comm]
  rfl

theorem length_fold {p : Partial K} {s : K} {val : List K} (h : p.o.length = val.length) :
    (p.fold A s val).o.length = p.o.length := by
  show (List.zipWith _ p.o val).length = _
  rw [List.length_zipWith, ← h, Nat.min_self]

/-- The keys folded into a partial. -/
theorem foldl_fold {n : ℕ} {keys : List (K × List K)} (hkeys : ∀ x ∈ keys, x.2.length = n)
    {p : Partial K} (hp : p.o.length = n) {before : List (K × (ℕ → K))}
    (hsums : Sums A.toExpHom p.toAcc before) :
    (keys.foldl (fun p x => p.fold A x.1 x.2) p).o.length = n ∧
      Sums A.toExpHom (keys.foldl (fun p x => p.fold A x.1 x.2) p).toAcc
        (before ++ keys.map fun x => (x.1, vec x.2)) := by
  induction keys generalizing p before with
  | nil =>
    rw [List.map_nil, List.append_nil]
    exact ⟨hp, hsums⟩
  | cons x keys ih =>
    rw [List.forall_mem_cons] at hkeys
    have hlen : p.o.length = x.2.length := hp.trans hkeys.1.symm
    have hfold := hsums.fold x.1 (vec x.2)
    rw [← toAcc_fold A hlen] at hfold
    have hrest := ih hkeys.2 ((length_fold A hlen).trans hp) hfold
    rw [List.append_assoc] at hrest
    exact hrest

end Partial

/-- The sums of partials of one width. -/
theorem reducePartials_toAcc {n : ℕ} {ps : List (Partial K)} (hne : ps ≠ [])
    (hps : ∀ p ∈ ps, p.o.length = n) (sink : Option K) :
    (reducePartials A ps sink).2.length = n ∧
      (reducePartials A ps sink).1 = (Acc.reduce A.toExpHom (ps.map Partial.toAcc) sink).1 ∧
      vec (reducePartials A ps sink).2 =
        (Acc.reduce A.toExpHom (ps.map Partial.toAcc) sink).2 := by
  have hwidth : (ps.head?.map (·.o.length)).getD 0 = n := by
    cases ps with
    | nil => exact absurd rfl hne
    | cons p ps => exact hps p List.mem_cons_self
  have hbase : sup (ps.foldl (fun m p => sup m p.m) none) sink =
      Acc.base (ps.map Partial.toAcc) sink := by
    rw [Acc.base, List.foldl_map]
    rfl
  have hsums (m : Option K) (sums : K × List K) (hlen : sums.2.length = n)
      (ps : List (Partial K)) (hps : ∀ p ∈ ps, p.o.length = n) :
      let out := ps.foldl (fun (sums : K × List K) p =>
        if p.m = none ∧ p.l = 0 then sums
        else
          let w := relative A.toExpHom p.m m
          (sums.1 + w * p.l, List.zipWith (fun o x => o + w * x) sums.2 p.o)) sums
      out.2.length = n ∧ (out.1, vec out.2) =
        (ps.map Partial.toAcc).foldl (Acc.add A.toExpHom m) (sums.1, vec sums.2) := by
    induction ps generalizing sums with
    | nil => exact ⟨hlen, rfl⟩
    | cons p ps ih =>
      rw [List.forall_mem_cons] at hps
      have hadd : (p.toAcc.add A.toExpHom m (sums.1, vec sums.2)) =
          if p.m = none ∧ p.l = 0 then (sums.1, vec sums.2)
          else (sums.1 + relative A.toExpHom p.m m * p.l,
            vec (List.zipWith (fun o x => o + relative A.toExpHom p.m m * x) sums.2 p.o)) := by
        rw [Acc.add]
        congr 1
        refine Prod.ext rfl (funext fun i => ?_)
        exact (vec_zipWith (f := fun o x => o + relative A.toExpHom p.m m * x) (by simp)
          (hlen.trans hps.1.symm) i).symm
      rw [List.map_cons, List.foldl_cons, List.foldl_cons, hadd]
      split
      · exact ih sums hlen hps.2
      · refine ih (_, _) ?_ hps.2
        rw [List.length_zipWith, hlen, hps.1, Nat.min_self]
  obtain ⟨hlen, heq⟩ := hsums (Acc.base (ps.map Partial.toAcc) sink) (0, List.replicate n 0)
    (List.length_replicate ..) ps hps
  rw [vec_replicate] at heq
  unfold reducePartials
  dsimp only
  rw [hwidth, hbase]
  cases sink with
  | none => exact ⟨hlen, congrArg Prod.fst heq, congrArg Prod.snd heq⟩
  | some b => exact ⟨hlen, congrArg (· + _) (congrArg Prod.fst heq), congrArg Prod.snd heq⟩

theorem vec_outRow (spec : AttnSpec) (l : K) (o : List K) :
    vec (outRow spec l o) = ratio l (vec o) := by
  rw [outRow, ratio]
  split
  · funext i
    rw [vec, List.getD_eq_getElem?_getD, List.getElem?_map]
    show _ = l⁻¹ * o.getD i 0
    rw [List.getD_eq_getElem?_getD]
    cases o[i]? with
    | none => exact (mul_zero _).symm
    | some x => exact div_eq_inv_mul x l
  · exact vec_replicate _

theorem length_outRow {spec : AttnSpec} {o : List K} (h : o.length = spec.dV) (l : K) :
    (outRow spec l o).length = spec.dV := by
  rw [outRow]
  split
  · rw [List.length_map, h]
  · exact List.length_replicate ..

/-- A row of the output that is the mean. -/
theorem outRow_eq {spec : AttnSpec} {l : K} {o : List K} (hlen : o.length = spec.dV)
    {sink : Option K} {keys : List (K × List K)} (h : ratio l (vec o) =
      softmax A.toExpHom sink (keys.map fun x => (x.1, vec x.2))) :
    outRow spec l o = exactRow A spec sink keys := by
  rw [eq_map_vec (length_outRow hlen l), vec_outRow, h, exactRow]

/-! ### Rows -/

/-- What query `t` and head `h` read of all keys. -/
def rowItems (spec : AttnSpec) (q k v : List K) (qPos kPos : List ℤ) (nRep t h : ℕ) :
    Option (List (K × List K)) := do
  let qp ← qPos[t]?
  let kvh ← div? h nRep
  let ys ← (List.range kPos.length).mapM
    (keyItem A spec q k v ((t * spec.nQ + h) * spec.dQk) kvh qp kPos)
  pure ys.reduceOption

/-- A row as the mean of what is read. -/
def meanRow (spec : AttnSpec) (q k v : List K) (qPos kPos : List ℤ) (sink : Option (List K))
    (nRep t h : ℕ) : Option (List K) := do
  let keys ← rowItems A spec q k v qPos kPos nRep t h
  let b ← sinkLogit spec sink h
  pure (exactRow A spec b keys)

/-- The mean from partials of some parts of the keys. -/
theorem outRow_partials [IsStrictOrderedRing K] {spec : AttnSpec} {parts : List (List (K × List K))}
    (hne : parts ≠ [])
    (hparts : ∀ keys ∈ parts, ∀ x ∈ keys, x.2.length = spec.dV) (b : Option K) :
    let ps := parts.map fun keys =>
      keys.foldl (fun p x => p.fold A x.1 x.2) (Partial.new spec.dV)
    outRow spec (reducePartials A ps b).1 (reducePartials A ps b).2 =
      exactRow A spec b parts.flatten := by
  intro ps
  have hempty : Sums A.toExpHom (Partial.new spec.dV).toAcc [] := by
    rw [Partial.toAcc_new]
    exact Sums.empty
  have hfold (keys : List (K × List K)) (hkeys : keys ∈ parts) :=
    Partial.foldl_fold A (hparts keys hkeys) (List.length_replicate ..) hempty
  have hwidths : ∀ p ∈ ps, p.o.length = spec.dV := by
    intro p hp
    obtain ⟨keys, hkeys, rfl⟩ := List.mem_map.mp hp
    exact (hfold keys hkeys).1
  have hsums : List.Forall₂ (Sums A.toExpHom) (ps.map Partial.toAcc)
      (parts.map fun keys => keys.map fun x => (x.1, vec x.2)) := by
    rw [List.map_map, List.forall₂_map_left_iff, List.forall₂_map_right_iff,
      List.forall₂_same]
    exact fun keys hkeys => (hfold keys hkeys).2
  obtain ⟨hwidth, hl, ho⟩ := reducePartials_toAcc A (by simpa [ps] using hne) hwidths b
  refine outRow_eq A hwidth ?_
  rw [hl, ho, ratio_reduce hsums b, List.map_flatten]

/-- The mean from one partial of all keys. -/
theorem outRow_single [IsStrictOrderedRing K] {spec : AttnSpec} {keys : List (K × List K)}
    (hkeys : ∀ x ∈ keys, x.2.length = spec.dV) (b : Option K) :
    let p := keys.foldl (fun p x => p.fold A x.1 x.2) (Partial.new spec.dV)
    outRow spec (reducePartials A [p] b).1 (reducePartials A [p] b).2 =
      exactRow A spec b keys := by
  have hparts := outRow_partials A (List.cons_ne_nil keys []) (by simpa using hkeys) b
  rw [List.flatten_singleton] at hparts
  exact hparts

/-- The row of a query in a flat list. -/
theorem slice_row {K : Type} {spec : AttnSpec} {q : List K} {tLen t h : ℕ}
    (hq : q.length = tLen * spec.nQ * spec.dQk) (ht : t < tLen) (hh : h < spec.nQ) :
    ∃ qRow, slice q ((t * spec.nQ + h) * spec.dQk) ((t * spec.nQ + h) * spec.dQk + spec.dQk) =
      some qRow := by
  have hle : (t * spec.nQ + h) * spec.dQk + spec.dQk ≤ q.length := by
    have hrow : t * spec.nQ + h + 1 ≤ tLen * spec.nQ := by
      have hstep : (t + 1) * spec.nQ ≤ tLen * spec.nQ := Nat.mul_le_mul_right _ ht
      rw [Nat.succ_mul] at hstep
      omega
    have hmul := Nat.mul_le_mul_right spec.dQk hrow
    rw [Nat.succ_mul] at hmul
    rw [hq]
    exact hmul
  exact ⟨_, if_pos ⟨Nat.le_add_right _ _, hle⟩⟩

/-- The parts of the keys that the splits take, up to one of them. -/
theorem flatMap_splits (sLen n m : ℕ) :
    ((List.range m).flatMap fun sp =>
      List.range' (sLen * sp / n) (sLen * (sp + 1) / n - sLen * sp / n)) =
      List.range (sLen * m / n) := by
  induction m with
  | zero => simp
  | succ m ih =>
    have hle : sLen * m / n ≤ sLen * (m + 1) / n :=
      Nat.div_le_div_right (Nat.mul_le_mul_left _ (Nat.le_succ m))
    rw [List.range_succ, List.flatMap_append, ih, List.flatMap_singleton, List.range_eq_range',
      List.range_eq_range']
    have happend := List.range'_append_1 (s := 0) (m := sLen * m / n)
      (n := sLen * (m + 1) / n - sLen * m / n)
    rw [Nat.zero_add] at happend
    rw [happend]
    congr 1
    omega

/-- **Splits.** -/
theorem decodeRow_eq [IsStrictOrderedRing K] {spec : AttnSpec} {q : List K}
    (k v : List K) {qPos : List ℤ}
    (kPos : List ℤ) (sink : Option (List K)) {nSplits : ℕ} (nRep : ℕ) {t h : ℕ}
    (hq : q.length = qPos.length * spec.nQ * spec.dQk) (ht : t < qPos.length)
    (hh : h < spec.nQ) (hpos : 0 < nSplits) (hfits : nSplits * partialBytes ≤ maxBytes)
    (hkeys : kPos.length * nSplits < 2 ^ 64) :
    decodeRow A spec q k v qPos kPos sink nSplits nRep t h =
      meanRow A spec q k v qPos kPos sink nRep t h := by
  obtain ⟨qRow, hrow⟩ := slice_row hq ht hh
  rw [decodeRow, meanRow, rowItems]
  cases qPos[t]? with
  | none => rfl
  | some qp =>
    cases div? h nRep with
    | none => rfl
    | some kvh =>
      have hitem := keyItem_slice A k v kvh qp kPos hrow
      have hread : (List.range nSplits).mapM (fun sp => foldRangeKvh A spec kvh qRow k v
          (wrap (kPos.length * sp) / nSplits) (wrap (kPos.length * (sp + 1)) / nSplits) qp kPos
          (Partial.new spec.dV)) =
          ((List.range nSplits).mapM fun sp => (List.range' (kPos.length * sp / nSplits)
            (kPos.length * (sp + 1) / nSplits - kPos.length * sp / nSplits)).mapM
              (keyItem A spec q k v ((t * spec.nQ + h) * spec.dQk) kvh qp kPos)).map
            (List.map fun ys => ys.reduceOption.foldl (fun p x => p.fold A x.1 x.2)
              (Partial.new spec.dV)) := by
        rw [← mapM_option_map]
        refine mapM_congr fun sp hsp => ?_
        have hle : sp + 1 ≤ nSplits := List.mem_range.mp hsp
        have hmul := Nat.mul_le_mul_left kPos.length hle
        have hmul' := Nat.mul_le_mul_left kPos.length (Nat.le_of_lt hle)
        rw [foldRangeKvh_eq, hitem, wrap, wrap, Nat.mod_eq_of_lt (by omega),
          Nat.mod_eq_of_lt (by omega)]
      have hall := mapM_flatMap
        (keyItem A spec q k v ((t * spec.nQ + h) * spec.dQk) kvh qp kPos)
        (fun sp => List.range' (kPos.length * sp / nSplits)
          (kPos.length * (sp + 1) / nSplits - kPos.length * sp / nSplits)) (List.range nSplits)
      rw [flatMap_splits, Nat.mul_div_cancel _ hpos] at hall
      dsimp only [bind, Option.bind]
      rw [hrow, hall]
      dsimp only
      rw [if_neg (Nat.not_lt.mpr hfits), hread]
      generalize hyss : (List.range nSplits).mapM (fun sp =>
        (List.range' (kPos.length * sp / nSplits)
          (kPos.length * (sp + 1) / nSplits - kPos.length * sp / nSplits)).mapM
            (keyItem A spec q k v ((t * spec.nQ + h) * spec.dQk) kvh qp kPos)) = yss
      cases yss with
      | none => rfl
      | some yss =>
        have hne : yss.map List.reduceOption ≠ [] := by
          have hlen := length_of_mapM hyss
          rw [List.length_range] at hlen
          intro hnil
          rw [List.map_eq_nil_iff.mp hnil] at hlen
          exact absurd hlen (Nat.ne_of_lt hpos)
        have hwidth : ∀ keys ∈ yss.map List.reduceOption, ∀ x ∈ keys, x.2.length = spec.dV := by
          intro keys hkeys
          obtain ⟨ys, hys, rfl⟩ := List.mem_map.mp hkeys
          exact forall_of_mapM (P := fun ys => ∀ x ∈ ys.reduceOption, x.2.length = spec.dV) hyss
            (fun sp _ ys hys => length_keyItem A hys) ys hys
        show Option.bind (sinkLogit spec sink h) _ = Option.bind (sinkLogit spec sink h) _
        congr 1
        funext b
        have hmean := outRow_partials A hne hwidth b
        rw [List.map_map] at hmean
        rw [reduceOption_flatten]
        exact congrArg some hmean

/-- **Chunks** of keys. -/
theorem chunkLoop_eq (spec : AttnSpec) (kvh : ℕ) (qRow k v : List K) (qp : ℤ) (kPos : List ℤ)
    {chunk : ℕ} (hchunk : 0 < chunk) (lo : ℕ) (p : Partial K) :
    chunkLoop A spec kvh qRow k v qp kPos hchunk lo p =
      ((List.range' lo (kPos.length - lo)).mapM (keyItem A spec qRow k v 0 kvh qp kPos)).map
        fun ys => ys.reduceOption.foldl (fun p x => p.fold A x.1 x.2) p := by
  generalize hleft : kPos.length - lo = left
  induction left using Nat.strongRecOn generalizing lo p with
  | ind left ih =>
    rw [chunkLoop]
    split
    · next hlo =>
      have hcut : List.range' lo left = List.range' lo (min (lo + chunk) kPos.length - lo) ++
          List.range' (min (lo + chunk) kPos.length)
            (kPos.length - min (lo + chunk) kPos.length) := by
        have happend := List.range'_append_1 (s := lo) (m := min (lo + chunk) kPos.length - lo)
          (n := kPos.length - min (lo + chunk) kPos.length)
        rw [show lo + (min (lo + chunk) kPos.length - lo) = min (lo + chunk) kPos.length by omega]
          at happend
        rw [happend, ← hleft]
        congr 1
        omega
      dsimp only [bind, Option.bind]
      rw [foldRangeKvh_eq, hcut, mapM_append]
      cases (List.range' lo (min (lo + chunk) kPos.length - lo)).mapM
          (keyItem A spec qRow k v 0 kvh qp kPos) with
      | none => rfl
      | some ys =>
        dsimp only [Option.map, Option.bind]
        rw [ih _ (by omega) _ _ rfl]
        cases (List.range' (min (lo + chunk) kPos.length)
            (kPos.length - min (lo + chunk) kPos.length)).mapM
            (keyItem A spec qRow k v 0 kvh qp kPos) with
        | none => rfl
        | some zs =>
          dsimp only [Option.map]
          rw [List.reduceOption_append, List.foldl_append]
    · next hlo =>
      rw [show left = 0 by omega]
      rfl

/-- The mean from one partial of what is read of all keys. -/
theorem meanRow_eq [IsStrictOrderedRing K] {spec : AttnSpec} {q : List K}
    (k v : List K) {qPos : List ℤ} (kPos : List ℤ)
    (sink : Option (List K)) {nRep t h : ℕ} {qp : ℤ} {kvh : ℕ} {qRow : List K}
    (hqp : qPos[t]? = some qp) (hkvh : div? h nRep = some kvh)
    (hrow : slice q ((t * spec.nQ + h) * spec.dQk)
      ((t * spec.nQ + h) * spec.dQk + spec.dQk) = some qRow) :
    meanRow A spec q k v qPos kPos sink nRep t h = (do
      let p ← ((List.range' 0 (kPos.length - 0)).mapM
        (keyItem A spec qRow k v 0 kvh qp kPos)).map fun ys =>
          ys.reduceOption.foldl (fun p x => p.fold A x.1 x.2) (Partial.new spec.dV)
      let b ← sinkLogit spec sink h
      let (l, o) := reducePartials A [p] b
      pure (outRow spec l o)) := by
  rw [meanRow, rowItems, hqp, hkvh, keyItem_slice A k v kvh qp kPos hrow, Nat.sub_zero,
    ← List.range_eq_range']
  dsimp only [bind, Option.bind]
  cases hys : (List.range kPos.length).mapM
      (keyItem A spec q k v ((t * spec.nQ + h) * spec.dQk) kvh qp kPos) with
  | none => rfl
  | some ys =>
    cases sinkLogit spec sink h with
    | none => rfl
    | some b => exact congrArg some (outRow_single A (length_keyItem A hys) b).symm

theorem chunkedRow_eq [IsStrictOrderedRing K] {spec : AttnSpec} {q : List K}
    (k v : List K) {qPos : List ℤ}
    (kPos : List ℤ) (sink : Option (List K)) {chunk : ℕ} (hchunk : 0 < chunk) (nRep : ℕ)
    {t h : ℕ} (hq : q.length = qPos.length * spec.nQ * spec.dQk) (ht : t < qPos.length)
    (hh : h < spec.nQ) : chunkedRow A spec q k v qPos kPos sink hchunk nRep t h =
      meanRow A spec q k v qPos kPos sink nRep t h := by
  obtain ⟨qRow, hrow⟩ := slice_row hq ht hh
  cases hqp : qPos[t]? with
  | none => rw [chunkedRow, meanRow, rowItems, hqp]; rfl
  | some qp =>
    cases hkvh : div? h nRep with
    | none => rw [chunkedRow, meanRow, rowItems, hqp, hkvh]; rfl
    | some kvh =>
      rw [meanRow_eq A k v kPos sink hqp hkvh hrow, chunkedRow, hqp, hkvh, hrow,
        ← chunkLoop_eq A spec kvh qRow k v qp kPos hchunk 0]
      rfl

/-! ### Pages -/

/-- The store returns the rows of `k` and `v`. -/
def GaPaged.Returns (ga : GaPaged K) (spec : AttnSpec) (k v : List K) : Prop :=
  ∀ lo hi, lo ≤ hi → hi ≤ ga.nTokens → ga.rowsRange lo hi = some
    ((k.drop (lo * (spec.nKv * spec.dQk))).take ((hi - lo) * (spec.nKv * spec.dQk)),
      (v.drop (lo * (spec.nKv * spec.dV))).take ((hi - lo) * (spec.nKv * spec.dV)))

omit [Field K] [LinearOrder K] in
/-- An entry of a head that exists, read from the rows of a page. -/
theorem getElem?_page (xs : List K) {nKv d lo n j kvh i : ℕ} (hj : j < n) (hkvh : kvh < nKv)
    (hi : i < d) : ((xs.drop (lo * (nKv * d))).take (n * (nKv * d)))[(j * nKv + kvh) * d + i]? =
      xs[((lo + j) * nKv + kvh) * d + i]? := by
  have hlt : (j * nKv + kvh) * d + i < n * (nKv * d) := by
    have hrow : j * nKv + kvh + 1 ≤ n * nKv := by
      have hmul := Nat.mul_le_mul_right nKv (Nat.succ_le_of_lt hj)
      rw [Nat.succ_mul] at hmul
      omega
    have hmul := Nat.mul_le_mul_right d hrow
    rw [Nat.succ_mul, Nat.mul_assoc] at hmul
    omega
  rw [List.getElem?_take_of_lt hlt, List.getElem?_drop]
  congr 1
  ring

/-- A key read from a page. -/
theorem keyItem_page {spec : AttnSpec} (q k v : List K) (qoff : ℕ) {kvh : ℕ} (qp : ℤ)
    {kPos kPosRows : List ℤ} {lo n j : ℕ} (hkvh : kvh < spec.nKv) (hj : j < n)
    (hpos : kPosRows[j]? = kPos[lo + j]?) :
    keyItem A spec q ((k.drop (lo * (spec.nKv * spec.dQk))).take (n * (spec.nKv * spec.dQk)))
      ((v.drop (lo * (spec.nKv * spec.dV))).take (n * (spec.nKv * spec.dV))) qoff kvh qp kPosRows
      j = keyItem A spec q k v qoff kvh qp kPos (lo + j) := by
  have hvalues : values spec ((v.drop (lo * (spec.nKv * spec.dV))).take
      (n * (spec.nKv * spec.dV))) kvh j = values spec v kvh (lo + j) := by
    rw [values, values]
    exact mapM_congr fun i hi => getElem?_page v hj hkvh (List.mem_range.mp hi)
  rw [keyItem, keyItem, hpos, hvalues, logit_congr A (fun _ _ => rfl)
    fun i hi => getElem?_page k hj hkvh hi]

/-- **Pages** of keys, of a head that exists. -/
theorem pageLoop_eq {spec : AttnSpec} {kvh : ℕ} (qRow : List K) {k v : List K} (qp : ℤ)
    {kPos : List ℤ} {ga : GaPaged K} {chunk : ℕ} (hchunk : 0 < chunk) {nPages : ℕ}
    (hga : ga.Returns spec k v) (hkvh : kvh < spec.nKv) (hlen : kPos.length = ga.nTokens)
    (hpages : ∀ pg, pg < nPages ↔ pg * ga.pageTokens < kPos.length) (pg : ℕ) (p : Partial K) :
    pageLoop A spec kvh qRow qp kPos ga hchunk nPages pg p =
      ((List.range' (pg * ga.pageTokens) (kPos.length - pg * ga.pageTokens)).mapM
        (keyItem A spec qRow k v 0 kvh qp kPos)).map
          fun ys => ys.reduceOption.foldl (fun p x => p.fold A x.1 x.2) p := by
  generalize hleft : nPages - pg = left
  induction left using Nat.strongRecOn generalizing pg p with
  | ind left ih =>
    rw [pageLoop]
    split
    · next hpg =>
      -- the rows of the chunk, from `lo` to `hi`
      generalize hnext : min (pg + chunk) nPages = next
      generalize hlo : pg * ga.pageTokens = lo
      generalize hhi : min (next * ga.pageTokens) ga.nTokens = hi
      have hlt : lo < kPos.length := hlo ▸ (hpages pg).mp hpg
      have hle : lo ≤ next * ga.pageTokens := by
        rw [← hlo]
        exact Nat.mul_le_mul_right _ (by omega)
      have hrange : lo ≤ hi ∧ hi ≤ kPos.length := by omega
      have hrest : List.range' (next * ga.pageTokens) (kPos.length - next * ga.pageTokens) =
          List.range' hi (kPos.length - hi) := by
        rcases Nat.lt_or_ge (next * ga.pageTokens) kPos.length with h | h
        · rw [show next * ga.pageTokens = hi by omega]
        · rw [Nat.sub_eq_zero_of_le h, show kPos.length - hi = 0 by omega]
          rfl
      have hcut : List.range' lo (kPos.length - lo) =
          List.range' lo (hi - lo) ++ List.range' hi (kPos.length - hi) := by
        have happend := List.range'_append_1 (s := lo) (m := hi - lo) (n := kPos.length - hi)
        rw [show lo + (hi - lo) = hi by omega] at happend
        rw [happend]
        congr 1
        omega
      have hread : (List.range' 0 (hi - lo - 0)).mapM (keyItem A spec qRow
          ((k.drop (lo * (spec.nKv * spec.dQk))).take ((hi - lo) * (spec.nKv * spec.dQk)))
          ((v.drop (lo * (spec.nKv * spec.dV))).take ((hi - lo) * (spec.nKv * spec.dV))) 0 kvh qp
          ((kPos.drop lo).take (hi - lo))) =
          (List.range' lo (hi - lo)).mapM (keyItem A spec qRow k v 0 kvh qp kPos) := by
        have hmap : List.range' lo (hi - lo) = (List.range (hi - lo)).map (lo + ·) :=
          List.range'_eq_map_range
        rw [Nat.sub_zero, hmap, List.mapM_map, ← List.range_eq_range']
        refine mapM_congr fun j hj => ?_
        have hj' := List.mem_range.mp hj
        refine keyItem_page A qRow k v 0 qp hkvh hj' ?_
        rw [List.getElem?_take_of_lt hj', List.getElem?_drop]
      have hslice : slice kPos lo hi = some ((kPos.drop lo).take (hi - lo)) := if_pos hrange
      dsimp only [bind, Option.bind]
      rw [hhi, hga lo hi hrange.1 (by omega)]
      dsimp only
      rw [hslice]
      dsimp only
      rw [foldRangeKvh_eq, hread, hcut, mapM_append]
      cases (List.range' lo (hi - lo)).mapM (keyItem A spec qRow k v 0 kvh qp kPos) with
      | none => rfl
      | some ys =>
        dsimp only [Option.map, Option.bind]
        rw [ih (nPages - next) (by omega) next _ rfl, hrest]
        cases (List.range' hi (kPos.length - hi)).mapM (keyItem A spec qRow k v 0 kvh qp kPos) with
        | none => rfl
        | some zs =>
          dsimp only [Option.map]
          rw [List.reduceOption_append, List.foldl_append]
    · next hpg =>
      have hdone : kPos.length ≤ pg * ga.pageTokens :=
        Nat.not_lt.mp fun h => hpg ((hpages pg).mpr h)
      rw [Nat.sub_eq_zero_of_le hdone]
      rfl

theorem pagedRow_eq [IsStrictOrderedRing K] {spec : AttnSpec} {q k v : List K} {qPos kPos : List ℤ}
    (sink : Option (List K)) {ga : GaPaged K} {chunk : ℕ} (hchunk : 0 < chunk) {nRep t h : ℕ}
    (hq : q.length = qPos.length * spec.nQ * spec.dQk) (ht : t < qPos.length)
    (hh : h < spec.nQ) (hheads : spec.nQ = spec.nKv * nRep) (hga : ga.Returns spec k v)
    (hlen : kPos.length = ga.nTokens) (hfits : ga.nTokens + ga.pageTokens ≤ 2 ^ 64) :
    pagedRow A spec q qPos kPos sink ga hchunk nRep t h =
      meanRow A spec q k v qPos kPos sink nRep t h := by
  obtain ⟨qRow, hrow⟩ := slice_row hq ht hh
  have hpt := ga.pageTokens_pos
  cases hqp : qPos[t]? with
  | none => rw [pagedRow, meanRow, rowItems, hqp]; rfl
  | some qp =>
    cases hkvh : div? h nRep with
    | none => rw [pagedRow, meanRow, rowItems, hqp, hkvh]; rfl
    | some kvh =>
      have hhead : kvh < spec.nKv := by
        rw [div?] at hkvh
        split at hkvh
        · exact absurd hkvh (by simp)
        · obtain rfl := Option.some.inj hkvh
          refine Nat.div_lt_of_lt_mul ?_
          rw [Nat.mul_comm, ← hheads]
          exact hh
      have hpages (pg : ℕ) : pg < wrap (ga.nTokens + ga.pageTokens - 1) / ga.pageTokens ↔
          pg * ga.pageTokens < kPos.length := by
        rw [wrap, Nat.mod_eq_of_lt (by omega), ← Nat.succ_le_iff, Nat.le_div_iff_mul_le hpt,
          Nat.succ_mul, hlen]
        omega
      have hloop := pageLoop_eq A qRow qp hchunk hga hhead hlen hpages 0 (Partial.new spec.dV)
      rw [Nat.zero_mul] at hloop
      rw [meanRow_eq A k v kPos sink hqp hkvh hrow, pagedRow, hqp, hkvh, hrow, ← hloop]
      rfl

/-! ### Two passes -/

/-- The weights and values of the second pass, as vectors. -/
theorem vec_foldl_relative {n : ℕ} {keys : List (K × List K)}
    (hkeys : ∀ x ∈ keys, x.2.length = n) (m : K) {sums : K × List K} (hsums : sums.2.length = n) :
    let out := keys.foldl (fun (sums : K × List K) x =>
      let p := relative A.toExpHom (some x.1) (some m)
      (sums.1 + p, List.zipWith (fun a y => a + p * y) sums.2 x.2)) sums
    out.2.length = n ∧ (out.1, vec out.2) = (keys.map fun x => (x.1, vec x.2)).foldl
      (fun sums x => (sums.1 + A.exp (x.1 - m), sums.2 + A.exp (x.1 - m) • x.2))
      (sums.1, vec sums.2) := by
  induction keys generalizing sums with
  | nil => exact ⟨hsums, rfl⟩
  | cons x keys ih =>
    rw [List.forall_mem_cons] at hkeys
    let next : K × List K := (sums.1 + A.exp (x.1 - m),
      List.zipWith (fun a y => a + A.exp (x.1 - m) * y) sums.2 x.2)
    have hwidth : next.2.length = n := by
      rw [List.length_zipWith, hsums, hkeys.1, Nat.min_self]
    have hvec : vec next.2 = vec sums.2 + A.exp (x.1 - m) • vec x.2 := by
      funext i
      exact vec_zipWith (by simp) (hsums.trans hkeys.1.symm) i
    obtain ⟨hlen, hout⟩ := ih hkeys.2 hwidth
    refine ⟨hlen, hout.trans ?_⟩
    rw [hvec]
    rfl

omit [Field K] in
/-- The largest logit. -/
theorem foldl_sup_logits (keys : List (K × List K)) (m : Option K) :
    keys.foldl (fun m x => sup m (some x.1)) m = none ↔ m = none ∧ keys = [] := by
  induction keys generalizing m with
  | nil => simp
  | cons x keys ih =>
    rw [List.foldl_cons, ih, sup_eq_none]
    simp

/-- The mean from the two passes over what is read. -/
theorem outRow_passes [IsStrictOrderedRing K] {spec : AttnSpec} {keys : List (K × List K)}
    (hkeys : ∀ x ∈ keys, x.2.length = spec.dV) (b : Option K) :
    let m := sup (keys.foldl (fun m x => sup m (some x.1)) none) b
    let sums := keys.foldl (fun (sums : K × List K) x =>
      let p := relative A.toExpHom (some x.1) m
      (sums.1 + p, List.zipWith (fun a y => a + p * y) sums.2 x.2)) (0, List.replicate spec.dV 0)
    outRow spec (match b with
      | some b => sums.1 + relative A.toExpHom (some b) m
      | none => sums.1) sums.2 = exactRow A spec b keys := by
  dsimp only
  generalize hm : sup (keys.foldl (fun m x => sup m (some x.1)) none) b = m
  cases m with
  | none =>
    obtain ⟨hmax, rfl⟩ := sup_eq_none.mp hm
    obtain ⟨-, rfl⟩ := (foldl_sup_logits keys none).mp hmax
    refine outRow_eq A (List.length_replicate ..) ?_
    show ratio 0 (vec (List.replicate _ 0)) = softmax _ none []
    rw [vec_replicate, softmax_nil, ratio, if_neg (lt_irrefl _)]
  | some M =>
    obtain ⟨hlen, hsums⟩ := vec_foldl_relative A hkeys M
      (show ((0 : K), List.replicate spec.dV (0 : K)).2.length = spec.dV from
        List.length_replicate ..)
    rw [vec_replicate] at hsums
    have hmean := ratio_relative (E := A.toExpHom) (keys.map fun x => (x.1, vec x.2)) b M hsums
    refine outRow_eq A hlen ?_
    rw [← hmean]
    cases b with
    | none =>
      rw [Option.elim, add_zero]
    | some b => rfl

/-- The logit of key `j`, if it is visible. -/
def logitItem (spec : AttnSpec) (q k : List K) (qoff kvh : ℕ) (qp : ℤ) (kPos : List ℤ) (j : ℕ) :
    Option (Option K) := do
  let kp ← kPos[j]?
  if isVisible qp kp spec.windowGated then
    let s ← logit A spec q k qoff kvh j
    pure (some s)
  else pure none

theorem logitItem_of_keyItem {spec : AttnSpec} {q k v : List K} {qoff kvh : ℕ} {qp : ℤ}
    {kPos : List ℤ} {j : ℕ} {y : Option (K × List K)}
    (h : keyItem A spec q k v qoff kvh qp kPos j = some y) :
    logitItem A spec q k qoff kvh qp kPos j = some (y.map Prod.fst) := by
  obtain ⟨kp, hkp, h⟩ := Option.bind_eq_some_iff.mp h
  rw [logitItem, hkp]
  dsimp only [bind, Option.bind]
  split at h
  · next hvisible =>
    obtain ⟨s, hs, h⟩ := Option.bind_eq_some_iff.mp h
    obtain ⟨val, -, h⟩ := Option.bind_eq_some_iff.mp h
    rw [if_pos hvisible, hs, ← Option.some.inj h]
    rfl
  · next hvisible =>
    rw [if_neg hvisible, ← Option.some.inj h]
    rfl

/-- No key is visible. -/
theorem keyItem_of_none {spec : AttnSpec} (q k v : List K) (qoff kvh : ℕ) {qp : ℤ}
    {kPos : List ℤ}
    (h : (kPos.map fun kp => isVisible qp kp spec.windowGated).any id = false) :
    (List.range kPos.length).mapM (keyItem A spec q k v qoff kvh qp kPos) =
      some ((List.range kPos.length).map fun _ => none) := by
  refine mapM_eq_some fun j hj => ?_
  have hj' := List.mem_range.mp hj
  have hnot : isVisible qp kPos[j] spec.windowGated = false := by
    rw [List.any_map, List.any_eq_false] at h
    exact Bool.eq_false_iff.mpr (h _ (List.getElem_mem hj'))
  rw [keyItem, List.getElem?_eq_getElem hj']
  dsimp only [bind, Option.bind]
  rw [hnot]
  rfl

/-- The first pass takes the largest logit of what is read. -/
theorem firstPass_eq (spec : AttnSpec) (q k : List K) (qoff kvh : ℕ) (qp : ℤ) (kPos : List ℤ) :
    (List.range kPos.length).foldlM (fun m j => do
      if ← (kPos.map fun kp => isVisible qp kp spec.windowGated)[j]? then
        let s ← logit A spec q k qoff kvh j
        pure (sup m (some s))
      else pure m) none =
    ((List.range kPos.length).mapM (logitItem A spec q k qoff kvh qp kPos)).map fun ys =>
      ys.reduceOption.foldl (fun m s => sup m (some s)) none := by
  have hbody (m : Option K) (j : ℕ) : (do
      if ← (kPos.map fun kp => isVisible qp kp spec.windowGated)[j]? then
        let s ← logit A spec q k qoff kvh j
        pure (sup m (some s))
      else pure m) = (logitItem A spec q k qoff kvh qp kPos j).map fun y =>
        y.elim m fun s => sup m (some s) := by
    rw [logitItem, List.getElem?_map]
    cases kPos[j]? with
    | none => rfl
    | some kp =>
      show (if isVisible qp kp spec.windowGated then _ else _) = Option.map _ (ite _ _ _)
      split
      · cases logit A spec q k qoff kvh j with
        | none => rfl
        | some s => rfl
      · rfl
  have hloop := foldlM_map (logitItem A spec q k qoff kvh qp kPos)
    (fun (m : Option K) y => y.elim m fun s => sup m (some s)) (List.range kPos.length) none
  simp only [← hbody] at hloop
  rw [hloop]
  congr 1
  funext ys
  exact foldl_reduceOption (fun (m : Option K) s => sup m (some s)) ys none

/-- The second pass folds what is read. -/
theorem secondPass_eq (spec : AttnSpec) (q k v : List K) (qoff kvh : ℕ) (qp : ℤ) (kPos : List ℤ)
    (m : Option K) :
    (List.range kPos.length).foldlM (fun (sums : K × List K) j => do
      if ← (kPos.map fun kp => isVisible qp kp spec.windowGated)[j]? then
        let s ← logit A spec q k qoff kvh j
        let val ← values spec v kvh j
        pure (sums.1 + relative A.toExpHom (some s) m,
          List.zipWith (fun a x => a + relative A.toExpHom (some s) m * x) sums.2 val)
      else pure sums) (0, List.replicate spec.dV 0) =
    ((List.range kPos.length).mapM (keyItem A spec q k v qoff kvh qp kPos)).map fun ys =>
      ys.reduceOption.foldl (fun (sums : K × List K) x =>
        (sums.1 + relative A.toExpHom (some x.1) m,
          List.zipWith (fun a y => a + relative A.toExpHom (some x.1) m * y) sums.2 x.2))
        (0, List.replicate spec.dV 0) := by
  have hbody (sums : K × List K) (j : ℕ) : (do
      if ← (kPos.map fun kp => isVisible qp kp spec.windowGated)[j]? then
        let s ← logit A spec q k qoff kvh j
        let val ← values spec v kvh j
        pure (sums.1 + relative A.toExpHom (some s) m,
          List.zipWith (fun a x => a + relative A.toExpHom (some s) m * x) sums.2 val)
      else pure sums) = (keyItem A spec q k v qoff kvh qp kPos j).map fun y =>
        y.elim sums fun x => (sums.1 + relative A.toExpHom (some x.1) m,
          List.zipWith (fun a y => a + relative A.toExpHom (some x.1) m * y) sums.2 x.2) := by
    rw [keyItem, List.getElem?_map]
    cases kPos[j]? with
    | none => rfl
    | some kp =>
      show (if isVisible qp kp spec.windowGated then _ else _) = Option.map _ (ite _ _ _)
      split
      · cases logit A spec q k qoff kvh j with
        | none => rfl
        | some s =>
          cases values spec v kvh j with
          | none => rfl
          | some val => rfl
      · rfl
  have hloop := foldlM_map (keyItem A spec q k v qoff kvh qp kPos)
    (fun (sums : K × List K) y => y.elim sums fun x =>
      (sums.1 + relative A.toExpHom (some x.1) m,
        List.zipWith (fun a y => a + relative A.toExpHom (some x.1) m * y) sums.2 x.2))
    (List.range kPos.length) (0, List.replicate spec.dV 0)
  simp only [← hbody] at hloop
  rw [hloop]
  congr 1
  funext ys
  exact foldl_reduceOption (fun (sums : K × List K) x =>
    (sums.1 + relative A.toExpHom (some x.1) m,
      List.zipWith (fun a y => a + relative A.toExpHom (some x.1) m * y) sums.2 x.2)) ys _

/-- **The two-pass row** is the mean of what is read. -/
theorem attentionRow_eq [IsStrictOrderedRing K] {spec : AttnSpec} (q k v : List K) {qPos : List ℤ}
    (kPos : List ℤ)
    {sink : Option (List K)} (nRep : ℕ) {t h : ℕ} {b : Option K}
    (hb : sinkLogit spec sink h = some b) :
    attentionRow A spec q k v qPos kPos sink nRep t h =
      meanRow A spec q k v qPos kPos sink nRep t h := by
  rw [attentionRow, meanRow, rowItems, hb]
  cases qPos[t]? with
  | none => rfl
  | some qp =>
    cases div? h nRep with
    | none => rfl
    | some kvh =>
      have hfirst := firstPass_eq A spec q k ((t * spec.nQ + h) * spec.dQk) kvh qp kPos
      have hsecond := secondPass_eq A spec q k v ((t * spec.nQ + h) * spec.dQk) kvh qp kPos
      simp only [Option.bind_eq_bind, Option.bind_some, Option.pure_def] at hfirst hsecond ⊢
      rw [hfirst]
      simp only [hsecond]
      cases hys : (List.range kPos.length).mapM
          (keyItem A spec q k v ((t * spec.nQ + h) * spec.dQk) kvh qp kPos) with
      | none =>
        -- a key that panics is visible, and the second pass panics on it
        have hany : (kPos.map fun kp => isVisible qp kp spec.windowGated).any id = true := by
          by_contra hnot
          rw [keyItem_of_none A q k v _ kvh (Bool.eq_false_iff.mpr hnot)] at hys
          exact absurd hys (by simp)
        rw [hany]
        cases (List.range kPos.length).mapM
            (logitItem A spec q k ((t * spec.nQ + h) * spec.dQk) kvh qp kPos) with
        | none => rfl
        | some zs => rfl
      | some ys =>
        rw [mapM_of_mapM hys fun j y hy => logitItem_of_keyItem A hy]
        cases hany : (kPos.map fun kp => isVisible qp kp spec.windowGated).any id with
        | false =>
          have hnone := keyItem_of_none A q k v ((t * spec.nQ + h) * spec.dQk) kvh hany
          have hempty : ys.reduceOption = [] := by
            rw [Option.some.inj (hys.symm.trans hnone), List.eq_nil_iff_forall_not_mem]
            intro x hx
            obtain ⟨j, -, hj⟩ := List.mem_map.mp (List.reduceOption_mem_iff.mp hx)
            exact absurd hj (by simp)
          show some (List.replicate spec.dV 0) = some (exactRow A spec b ys.reduceOption)
          rw [hempty, exactRow_nil]
        | true =>
          have hmean := outRow_passes A (length_keyItem A hys) b
          have hmax : (ys.map (Option.map Prod.fst)).reduceOption.foldl
              (fun m s => sup m (some s)) none =
              ys.reduceOption.foldl (fun m x => sup m (some x.1)) none := by
            rw [List.reduceOption_map, List.foldl_map]
          rw [Option.map_some, hmax]
          exact congrArg some hmean

end Attn

end Mimo26

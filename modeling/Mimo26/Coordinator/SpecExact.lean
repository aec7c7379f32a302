import Mathlib.Data.List.Forall2
import Mimo26.Coordinator.SpecStep
import Mimo26.Library.Runs

/-!
# Speculation is exact

The tokens a request emits are those of one-token decoding, `stream`, whatever is drafted, copied,
verified or accepted: a row of the verify pass selects the token that follows the rows before it,
and a draft is kept as long as it is that token. What a step keeps of the KV are the rows of all
tokens but the last.

## Main definitions

* `decodeTokens`, `stream` — one token at a time
* `ends` — a request ends with its `g`-th token
* `Serves` — the invariant of a running request

## Main results

* `rowOrder_lanes` — the lanes hold every block row once, in block order
* `verifyBatch_rowsAt` — the selections of a verify pass
* `acceptRows_kept` — the tokens and the KV of each request after a step
* `Serves.step`, `serves_run` — kept by every event, and so by every run
* `speculation_exact` — the emitted tokens and the KV in any state of any run
-/

namespace Mimo26

namespace Coordinator

open Runs

/-! ### One token at a time -/

/-- The next `n` tokens after `ctx`, the first at emitted position `position`. -/
def decodeTokens (pick : List ℕ → ℕ → ℕ) (ctx : List ℕ) (position : ℕ) : ℕ → List ℕ
  | 0 => []
  | n + 1 =>
    pick ctx position :: decodeTokens pick (ctx ++ [pick ctx position]) (position + 1) n

section decodeTokens

variable {pick : List ℕ → ℕ → ℕ}

@[simp] theorem length_decodeTokens (ctx : List ℕ) (position n : ℕ) :
    (decodeTokens pick ctx position n).length = n := by
  induction n generalizing ctx position with
  | zero => rfl
  | succ n ih => rw [decodeTokens, List.length_cons, ih]

theorem decodeTokens_add (ctx : List ℕ) (position n m : ℕ) :
    decodeTokens pick ctx position (n + m) = decodeTokens pick ctx position n ++
      decodeTokens pick (ctx ++ decodeTokens pick ctx position n) (position + n) m := by
  induction n generalizing ctx position with
  | zero => simp [decodeTokens]
  | succ n ih =>
    rw [Nat.add_right_comm, decodeTokens, ih, decodeTokens, List.cons_append, List.append_assoc,
      List.singleton_append, Nat.add_assoc, Nat.add_comm 1 n]

/-- A list each of whose tokens is the one picked after those before it. -/
theorem eq_decodeTokens {ctx : List ℕ} {position : ℕ} {out : List ℕ}
    (h : ∀ j < out.length, out[j]? = some (pick (ctx ++ out.take j) (position + j))) :
    out = decodeTokens pick ctx position out.length := by
  induction out generalizing ctx position with
  | nil => rfl
  | cons x out ih =>
    have hx : x = pick ctx position := by
      have hzero := h 0 (Nat.zero_lt_succ _)
      rw [List.take_zero, List.append_nil] at hzero
      exact Option.some.inj hzero
    rw [List.length_cons, decodeTokens, ← hx]
    congr 1
    refine ih fun j hj => ?_
    have hnext := h (j + 1) (by rw [List.length_cons]; omega)
    rw [List.getElem?_cons_succ, List.take_succ_cons] at hnext
    rw [hnext, List.append_assoc, List.singleton_append, Nat.add_right_comm, Nat.add_assoc]

end decodeTokens

variable {S : Type}

/-- The first `n` tokens of a job, one at a time. -/
def Forward.stream (t : Forward S) (job : Job S) (n : ℕ) : List ℕ :=
  decodeTokens (t.pick job.sampling) job.ids 0 n

/-- The request ends with its `g`-th token. -/
def Forward.ends (t : Forward S) (job : Job S) (g : ℕ) : Prop :=
  t.pick job.sampling (job.ids ++ t.stream job (g - 1)) (g - 1) ∈ t.eos ∨ job.max ≤ g ∨
    job.gone g = true

theorem Forward.stream_succ (t : Forward S) (job : Job S) (n : ℕ) :
    t.stream job (n + 1) =
      t.stream job n ++ [t.pick job.sampling (job.ids ++ t.stream job n) n] := by
  rw [stream, decodeTokens_add, Nat.zero_add]
  rfl

/-! ### The rows of a verify pass -/

variable {t : Forward S} {blocks : List (Block S)}

/-- Every block row, in block order. -/
def allRows (blocks : List (Block S)) : List (ℕ × ℕ) :=
  (List.range blocks.length).flatMap fun i => (List.range' 0 (whole blocks i).2.2).map (Prod.mk i)

theorem rowOrder_whole (l : List ℕ) :
    rowOrder [l.map (whole blocks)] =
      l.flatMap fun i => (List.range' 0 (whole blocks i).2.2).map (Prod.mk i) := by
  rw [rowOrder, List.flatMap_cons, List.flatMap_nil, List.append_nil, List.flatMap_map]
  rfl

/-- **The lanes** hold every block row once, in block order. -/
theorem rowOrder_lanes (t : Forward S) (blocks : List (Block S)) :
    rowOrder (lanes t blocks) = allRows blocks := by
  rw [lanes]
  dsimp only
  split
  · exact rowOrder_whole _
  · split
    · next hone =>
      obtain ⟨b, hb⟩ := List.length_eq_one_iff.mp hone
      subst hb
      have htotal : totalRows [b] = b.ids.length := by simp [totalRows]
      rw [htotal]
      simp only [rowOrder, allRows, List.flatMap_cons, List.flatMap_nil, List.append_nil,
        List.length_singleton, List.range_one]
      rw [← List.map_append, ← List.range_eq_range', range_halves, List.range_eq_range']
      rfl
    · rw [allRows, ← range_halves blocks.length, List.flatMap_append, ← rowOrder_whole,
        ← rowOrder_whole]
      simp only [rowOrder, List.flatMap_cons, List.flatMap_nil, List.append_nil]

/-- The tokens each row attends to, in block order. -/
def contexts (blocks : List (Block S)) : List (List ℕ) :=
  blocks.flatMap fun b => (List.range' 0 b.ids.length).map b.upTo

theorem map_rowContext (blocks : List (Block S)) :
    (allRows blocks).map (rowContext blocks) = contexts blocks := by
  have hrows : (List.range blocks.length).map (fun i =>
      ((List.range' 0 (whole blocks i).2.2).map (Prod.mk i)).map (rowContext blocks)) =
      blocks.map fun b => (List.range' 0 b.ids.length).map b.upTo := by
    refine List.ext_getElem (by simp) fun i hi hi' => ?_
    have hlt : i < blocks.length := by simpa using hi'
    simp only [List.getElem_map, List.getElem_range, List.map_map]
    rw [whole, List.getElem?_eq_getElem hlt]
    refine List.map_congr_left fun j _ => ?_
    rw [Function.comp_apply, rowContext, List.getElem?_eq_getElem hlt]
    rfl
  rw [allRows, List.map_flatMap, contexts, List.flatMap_def, List.flatMap_def, hrows]

/-! ### The selections -/

/-- The token selected after row `j` of a block. -/
def Block.selection (t : Forward S) (b : Block S) (j : ℕ) : ℕ :=
  match b.draw with
  | none => t.argmax (b.upTo j)
  | some (s, done) => t.draw s (done + j) (b.upTo j)

/-- From `off` on, `xs` holds the rows of the blocks, as `f` gives them. -/
def RowsAt {α : Type} (f : Block S → ℕ → α) (xs : List α) : ℕ → List (Block S) → Prop
  | _, [] => True
  | off, b :: bs =>
    (∀ j < b.ids.length, xs[off + j]? = some (f b j)) ∧ RowsAt f xs (off + b.ids.length) bs

theorem RowsAt.map {α β : Type} {f : Block S → ℕ → α} {xs : List α} {off : ℕ}
    {bs : List (Block S)} (h : RowsAt f xs off bs) (g : α → β) :
    RowsAt (fun b j => g (f b j)) (xs.map g) off bs := by
  induction bs generalizing off with
  | nil => trivial
  | cons b bs ih =>
    exact ⟨fun j hj => by rw [List.getElem?_map, h.1 j hj, Option.map_some], ih h.2⟩

theorem rowsAt_contexts (pre : List (List ℕ)) (bs : List (Block S)) :
    RowsAt Block.upTo (pre ++ contexts bs) pre.length bs := by
  induction bs generalizing pre with
  | nil => trivial
  | cons b bs ih =>
    have hcons : contexts (b :: bs) = (List.range' 0 b.ids.length).map b.upTo ++ contexts bs := by
      rw [contexts, List.flatMap_cons]
      rfl
    refine ⟨fun j hj => ?_, ?_⟩
    · rw [hcons, List.getElem?_append_right (by omega), Nat.add_sub_cancel_left,
        List.getElem?_append_left (by simpa using hj), List.getElem?_map,
        List.getElem?_range' hj]
      simp
    · have hrest := ih (pre ++ (List.range' 0 b.ids.length).map b.upTo)
      rw [List.length_append, List.length_map, List.length_range', List.append_assoc] at hrest
      rw [hcons]
      exact hrest

/-- The draws written over the argmax. -/
def drawAll (t : Forward S) (ctxs : List (List ℕ)) (am : List ℕ) (sampled : List (ℕ × S × ℕ)) :
    List ℕ :=
  sampled.foldl (fun am r => am.set r.1 (t.draw r.2.1 r.2.2 (ctxs.getD r.1 []))) am

theorem drawAll_append (ctxs : List (List ℕ)) (am : List ℕ) (xs ys : List (ℕ × S × ℕ)) :
    drawAll t ctxs am (xs ++ ys) = drawAll t ctxs (drawAll t ctxs am xs) ys :=
  List.foldl_append

theorem length_drawAll (ctxs : List (List ℕ)) (am : List ℕ) (xs : List (ℕ × S × ℕ)) :
    (drawAll t ctxs am xs).length = am.length := by
  induction xs generalizing am with
  | nil => rfl
  | cons x xs ih => rw [drawAll, List.foldl_cons, ← drawAll, ih, List.length_set]

/-- The draws of one block. -/
theorem getElem?_drawAll_block (ctxs : List (List ℕ)) (am : List ℕ) (off n done : ℕ) (s : S)
    (q : ℕ) :
    (drawAll t ctxs am ((List.range n).map fun j => (off + j, s, done + j)))[q]? =
      if off ≤ q ∧ q < off + n then
        am[q]?.map fun _ => t.draw s (done + (q - off)) (ctxs.getD q [])
      else am[q]? := by
  induction n with
  | zero => rw [if_neg (by omega)]; rfl
  | succ n ih =>
    rw [List.range_succ, List.map_append, drawAll_append]
    show (List.set (drawAll t ctxs am _) (off + n) _)[q]? = _
    rw [List.getElem?_set, ih, length_drawAll]
    by_cases heq : off + n = q
    · subst heq
      have hin : off ≤ off + n ∧ off + n < off + (n + 1) := by omega
      rw [if_pos rfl, if_pos hin, Nat.add_sub_cancel_left]
      split
      · next hlt => rw [List.getElem?_eq_getElem hlt, Option.map_some]
      · next hge => rw [List.getElem?_eq_none (by omega)]; rfl
    · rw [if_neg heq]
      by_cases hin : off ≤ q ∧ q < off + n
      · rw [if_pos hin, if_pos (by omega)]
      · rw [if_neg hin, if_neg (by omega)]

/-- The draws of the blocks from `off` on leave the rows before it. -/
theorem getElem?_drawAll_of_lt (ctxs : List (List ℕ)) (am : List ℕ) (off : ℕ) (bs : List (Block S))
    {q : ℕ} (hq : q < off) :
    (drawAll t ctxs am (sampledRows off bs))[q]? = am[q]? := by
  induction bs generalizing off am with
  | nil => rfl
  | cons b bs ih =>
    rw [sampledRows, drawAll_append, ih _ _ (by omega)]
    cases b.draw with
    | none => rfl
    | some d => rw [getElem?_drawAll_block, if_neg (by omega)]

theorem RowsAt.congr {α : Type} {f : Block S → ℕ → α} {xs ys : List α} {off : ℕ}
    {bs : List (Block S)} (h : RowsAt f xs off bs) (heq : ∀ q, off ≤ q → ys[q]? = xs[q]?) :
    RowsAt f ys off bs := by
  induction bs generalizing off with
  | nil => trivial
  | cons b bs ih =>
    exact ⟨fun j hj => (heq _ (Nat.le_add_right _ _)).trans (h.1 j hj),
      ih h.2 fun q hq => heq q (by omega)⟩

theorem rowsAt_drawAll {ctxs : List (List ℕ)} {am : List ℕ} {off : ℕ} {bs : List (Block S)}
    (hctx : RowsAt Block.upTo ctxs off bs)
    (ham : RowsAt (fun b j => t.argmax (b.upTo j)) am off bs) :
    RowsAt (Block.selection t) (drawAll t ctxs am (sampledRows off bs)) off bs := by
  induction bs generalizing off am with
  | nil => trivial
  | cons b bs ih =>
    obtain ⟨hctxb, hctxs⟩ := hctx
    obtain ⟨hamb, hams⟩ := ham
    rw [sampledRows, drawAll_append]
    cases hdraw : b.draw with
    | none =>
      refine ⟨fun j hj => ?_, ih hctxs hams⟩
      dsimp only
      rw [getElem?_drawAll_of_lt _ _ _ _ (by omega), Block.selection, hdraw]
      exact hamb j hj
    | some d =>
      dsimp only
      have hblock := getElem?_drawAll_block (t := t) ctxs am off b.ids.length d.2 d.1
      refine ⟨fun j hj => ?_, ih hctxs (hams.congr fun q hq => ?_)⟩
      · rw [getElem?_drawAll_of_lt _ _ _ _ (by omega), hblock, if_pos (by omega), hamb j hj,
          Option.map_some, Nat.add_sub_cancel_left, List.getD_eq_getElem?_getD, hctxb j hj,
          Option.getD_some, Block.selection, hdraw]
      · rw [hblock, if_neg (by omega)]

/-- **Verify.** The selections of a verify pass, whatever its lanes. -/
theorem verifyBatch_rowsAt {device : Bool} {am : List ℕ}
    (h : verifyBatch t blocks device = .ok am) :
    RowsAt (Block.selection t) am 0 blocks ∧ ∀ b ∈ blocks, b.ids ≠ [] := by
  rw [verifyBatch] at h
  obtain ⟨u, hshape, h⟩ := Result.bind_eq_ok.mp h
  obtain ⟨u, -, h⟩ := Result.bind_eq_ok.mp h
  obtain ⟨u, -, h⟩ := Result.bind_eq_ok.mp h
  have hids : ∀ b ∈ blocks, b.ids ≠ [] := by
    rw [require] at hshape
    split at hshape
    · next hc => exact fun b hb => ((of_decide_eq_true hc).2 b hb).1
    · exact absurd hshape (by simp)
  split at h
  · exact absurd h (by simp)
  · obtain ⟨u, -, h⟩ := Result.bind_eq_ok.mp h
    rw [rowOrder_lanes, map_rowContext, select] at h
    obtain ⟨u, -, h⟩ := Result.bind_eq_ok.mp h
    obtain rfl := Except.ok.inj h
    have hctx : RowsAt Block.upTo (contexts blocks) 0 blocks := rowsAt_contexts [] blocks
    exact ⟨rowsAt_drawAll hctx (hctx.map t.argmax), hids⟩

/-! ### Acceptance -/

theorem acceptLoop_spec (b g : List ℕ) (n : ℕ) {acc : ℕ} (hacc : acc < b.length)
    (hagree : ∀ j < acc, b.getD (j + 1) 0 = g.getD j 0) :
    acceptLoop b g n acc < b.length ∧
      ∀ j < acceptLoop b g n acc, b.getD (j + 1) 0 = g.getD j 0 := by
  induction n generalizing acc with
  | zero => exact ⟨hacc, hagree⟩
  | succ n ih =>
    rw [acceptLoop]
    split
    · next hnext =>
      refine ih hnext.1 fun j hj => ?_
      rcases Nat.lt_succ_iff_lt_or_eq.mp hj with hlt | rfl
      · exact hagree j hlt
      · exact hnext.2
    · exact ⟨hacc, hagree⟩

/-- What a step leaves of a request with history `ctx`: the tokens it emits follow one another as
picked, and the KV holds the rows of all but the last. -/
def Kept (pick : List ℕ → ℕ → ℕ) (ctx : List ℕ) (position : ℕ) (x : List ℕ × List ℕ) : Prop :=
  ∃ n, 0 < n ∧ x.2 = decodeTokens pick ctx position n ∧ x.1 = (ctx ++ x.2).dropLast

theorem accepted_kept {b : Block S} {last : ℕ} {ids g : List ℕ} (hids : b.ids = last :: ids)
    {pick : List ℕ → ℕ → ℕ} {position : ℕ}
    (hg : ∀ j < b.ids.length, g[j]? = some (pick (b.upTo j) (position + j))) :
    Kept pick (b.kv ++ [last]) position
      ((b.kv ++ b.ids).take (b.kv.length + accepted b.ids g + 1),
        (b.ids.drop 1).take (accepted b.ids g) ++ [g.getD (accepted b.ids g) 0]) := by
  obtain ⟨hlt, hagree⟩ := @acceptLoop_spec b.ids g b.ids.length 0
    (by rw [hids]; exact Nat.zero_lt_succ _) fun j hj => absurd hj (Nat.not_lt_zero j)
  rw [← accepted] at hlt hagree
  generalize accepted b.ids g = acc at hlt hagree
  have hlen : acc ≤ ids.length := by
    rw [hids, List.length_cons] at hlt
    omega
  have hdrop : b.ids.drop 1 = ids := by rw [hids]; rfl
  have htake : (ids.take acc).length = acc := by rw [List.length_take, Nat.min_eq_left hlen]
  have hup (j : ℕ) : b.upTo j = b.kv ++ [last] ++ ids.take j := by
    rw [Block.upTo, hids, List.take_succ_cons, List.append_assoc, List.singleton_append]
  rw [hdrop]
  have hout : (ids.take acc ++ [g.getD acc 0]).length = acc + 1 := by
    rw [List.length_append, htake, List.length_singleton]
  refine ⟨acc + 1, Nat.zero_lt_succ _, ?_, ?_⟩
  · -- every token emitted is the one selected after the tokens before it
    have hall := @eq_decodeTokens pick (b.kv ++ [last]) position
      (ids.take acc ++ [g.getD acc 0]) fun j hj => by
        rw [hout] at hj
        have hgj := hg j (by omega)
        have hbefore : (ids.take acc ++ [g.getD acc 0]).take j = ids.take j := by
          rw [List.take_append_of_le_length (by omega), List.take_take, Nat.min_eq_left (by omega)]
        rw [hbefore, ← hup, ← hgj]
        rcases Nat.lt_succ_iff_lt_or_eq.mp hj with hj' | rfl
        · have hsame := hagree j hj'
          rw [hids, List.getD_cons_succ, List.getD_eq_getElem?_getD, List.getD_eq_getElem?_getD,
            hgj, List.getElem?_eq_getElem (by omega)] at hsame
          rw [List.getElem?_append_left (by omega), List.getElem?_take_of_lt hj', hgj,
            List.getElem?_eq_getElem (by omega)]
          exact congrArg some hsame
        · rw [List.getElem?_append_right (by omega), htake, Nat.sub_self, hgj,
            List.getD_eq_getElem?_getD, hgj]
          rfl
    rw [hout] at hall
    exact hall
  · show (b.kv ++ b.ids).take (b.kv.length + acc + 1) = _
    rw [Nat.add_assoc, List.take_length_add_append, hids, List.take_succ_cons, ← List.append_assoc,
      List.dropLast_concat, List.append_assoc, List.singleton_append]

/-- **Acceptance** keeps of every block what one-token decoding would have emitted. -/
theorem acceptRows_kept {am : List ℕ} {off : ℕ} {bs : List (Block S)}
    (hrows : RowsAt (Block.selection t) am off bs) {outs : List (List ℕ × List ℕ)}
    (h : acceptRows am off bs = .ok outs) :
    List.Forall₂ (fun b x => ∀ pick last ids position, b.ids = last :: ids →
      (∀ j, b.selection t j = pick (b.upTo j) (position + j)) →
      Kept pick (b.kv ++ [last]) position x) bs outs := by
  induction bs generalizing off outs with
  | nil =>
    obtain rfl := Except.ok.inj h
    exact .nil
  | cons b bs ih =>
    obtain ⟨hb, hbs⟩ := hrows
    rw [acceptRows] at h
    obtain ⟨kv, hkv, h⟩ := Result.bind_eq_ok.mp h
    obtain ⟨rest, hrest, h⟩ := Result.bind_eq_ok.mp h
    obtain rfl := Except.ok.inj h
    refine .cons (fun pick last ids position hids hsel => ?_) (ih hbs hrest)
    rw [truncate] at hkv
    split at hkv
    · obtain rfl := Except.ok.inj hkv
      refine accepted_kept hids fun j hj => ?_
      rw [List.getElem?_take_of_lt hj, List.getElem?_drop, hb j hj, hsel]
    · exact absurd hkv (by simp)

theorem selection_specBlock (env : StepEnv) (i : ℕ) {r : SpecReq S} {sampling : Option S}
    {position : ℕ} (hdraw : r.draw = sampling.map fun s => (s, position)) (j : ℕ) :
    (specBlock env i r).selection t j =
      t.pick sampling ((specBlock env i r).upTo j) (position + j) := by
  cases sampling with
  | none => simp [Block.selection, Forward.pick, specBlock, hdraw]
  | some s => simp [Block.selection, Forward.pick, specBlock, hdraw]

/-- A step leaves what one-token decoding would have left, of every request. -/
def StepExact (t : Forward S) (reqs : List (SpecReq S)) (outs : List (List ℕ × List ℕ)) : Prop :=
  List.Forall₂ (fun r x => ∀ sampling position, r.draw = sampling.map (fun s => (s, position)) →
    Kept (t.pick sampling) (r.kv ++ [r.last]) position x) reqs outs

/-- **Step,** whatever is drafted, copied and verified. -/
theorem specStep_exact {env : StepEnv} {reqs : List (SpecReq S)} {outs : List (List ℕ × List ℕ)}
    (h : specStep t env reqs = .ok outs) : StepExact t reqs outs := by
  rw [specStep] at h
  obtain ⟨u, -, h⟩ := Result.bind_eq_ok.mp h
  obtain ⟨u, -, h⟩ := Result.bind_eq_ok.mp h
  obtain ⟨am, ham, h⟩ := Result.bind_eq_ok.mp h
  obtain ⟨outs', houts, h⟩ := Result.bind_eq_ok.mp h
  obtain ⟨u, -, h⟩ := Result.bind_eq_ok.mp h
  obtain rfl := Except.ok.inj h
  have hkept := acceptRows_kept (verifyBatch_rowsAt ham).1 houts
  rw [StepExact]
  rw [List.forall₂_iff_get] at hkept ⊢
  obtain ⟨hlen, hall⟩ := hkept
  rw [List.length_mapIdx] at hlen
  refine ⟨hlen, fun i hi hi' sampling position hdraw => ?_⟩
  have hspec := hall i (by rwa [List.length_mapIdx]) hi'
  simp only [List.get_eq_getElem, List.getElem_mapIdx] at hspec hdraw ⊢
  exact hspec (t.pick sampling) reqs[i].last _ position rfl
    fun j => selection_specBlock env i hdraw j

/-! ### Requests -/

/-- A running request, between steps. -/
structure Serves (t : Forward S) (a : Active S) : Prop where
  pos : 0 < a.generated
  hist : a.hist = a.job.ids ++ t.stream a.job a.generated
  last : a.hist = a.hist.dropLast ++ [a.last]
  copy : Indexed a.copy a.hist
  kv : a.kv = a.hist.dropLast
  going : ∀ g, 0 < g → g ≤ a.generated → ¬ t.ends a.job g

/-- A request that has ended. -/
structure Ended (t : Forward S) (a : Active S) : Prop where
  pos : 0 < a.generated
  hist : a.hist = a.job.ids ++ t.stream a.job a.generated
  kv : a.kv = a.hist.dropLast
  ends : t.ends a.job a.generated
  first : ∀ g, 0 < g → g < a.generated → ¬ t.ends a.job g

/-- A request that has emitted its first `a.generated` tokens and not ended before. -/
structure Going (t : Forward S) (a : Active S) : Prop where
  hist : a.hist = a.job.ids ++ t.stream a.job a.generated
  copy : Indexed a.copy a.hist
  going : ∀ g, 0 < g → g ≤ a.generated → ¬ t.ends a.job g

theorem Serves.toGoing {a : Active S} (h : Serves t a) : Going t a := ⟨h.hist, h.copy, h.going⟩

/-- What `emit` does with the next `n` tokens of a request: it takes `m` of them, and stops exactly
when the request ends. -/
structure Emits (t : Forward S) (a : Active S) (n : ℕ) (r : Active S × Bool) (m : ℕ) : Prop where
  job : r.1.job = a.job
  kv : r.1.kv = a.kv
  le : m ≤ n
  generated : r.1.generated = a.generated + m
  taken : r.1.hist = a.hist ++ decodeTokens (t.pick a.job.sampling) a.hist a.generated m
  hist : r.1.hist = a.job.ids ++ t.stream a.job r.1.generated
  copy : Indexed r.1.copy r.1.hist
  last : r.1.hist = a.hist ∧ r.1.last = a.last ∨ r.1.hist = r.1.hist.dropLast ++ [r.1.last]
  before : ∀ g, 0 < g → g < r.1.generated → ¬ t.ends a.job g
  running : r.2 = false → m = n ∧ ∀ g, 0 < g → g ≤ r.1.generated → ¬ t.ends a.job g
  ended : r.2 = true → 0 < m ∧ t.ends a.job r.1.generated

theorem Going.emits {a : Active S} (h : Going t a) (n : ℕ) :
    ∃ m, Emits t a n
      (emit t a (decodeTokens (t.pick a.job.sampling) a.hist a.generated n)) m := by
  induction n generalizing a with
  | zero =>
    refine ⟨0, rfl, rfl, Nat.le_refl _, rfl, (List.append_nil _).symm, h.hist, h.copy,
      Or.inl ⟨rfl, rfl⟩, fun g h0 hg => h.going g h0 (Nat.le_of_lt hg),
      fun _ => ⟨rfl, h.going⟩, fun hd => absurd hd (by simp [decodeTokens, emit])⟩
  | succ n ih =>
    rw [decodeTokens, emit]
    generalize hnext : t.pick a.job.sampling a.hist a.generated = next
    have hhist : a.hist ++ [next] = a.job.ids ++ t.stream a.job (a.generated + 1) := by
      rw [← hnext, h.hist, Forward.stream_succ, List.append_assoc]
    have hends : t.ends a.job (a.generated + 1) ↔
        next ∈ t.eos ∨ a.job.max ≤ a.generated + 1 ∨ a.job.gone (a.generated + 1) = true := by
      rw [Forward.ends, Nat.add_sub_cancel, ← h.hist, hnext]
    have hone : decodeTokens (t.pick a.job.sampling) a.hist a.generated 1 = [next] := by
      rw [← hnext]
      rfl
    dsimp only
    split
    · next hend =>
      exact ⟨1, rfl, rfl, Nat.succ_le_succ (Nat.zero_le n), rfl, by rw [hone], hhist,
        h.copy.append [next], Or.inr (by rw [List.dropLast_concat]),
        fun g h0 hg => h.going g h0 (Nat.lt_succ_iff.mp hg), fun hd => absurd hd (by simp), fun _ =>
          ⟨Nat.zero_lt_one, hends.mpr hend⟩⟩
    · next hgo =>
      have hgoing : Going t
          { a with last := next, generated := a.generated + 1, hist := a.hist ++ [next] } := by
        refine ⟨hhist, h.copy.append [next], fun g h0 hg => ?_⟩
        rcases Nat.lt_succ_iff_lt_or_eq.mp (Nat.lt_succ_of_le hg) with hlt | rfl
        · exact h.going g h0 (Nat.lt_succ_iff.mp hlt)
        · exact fun he => hgo (hends.mp he)
      obtain ⟨m, hm⟩ := ih hgoing
      refine ⟨m + 1, hm.job, hm.kv, Nat.succ_le_succ hm.le, ?_, ?_, hm.hist, hm.copy, Or.inr ?_,
        hm.before, fun hd => ?_, fun hd => ⟨Nat.zero_lt_succ m, (hm.ended hd).2⟩⟩
      · rw [hm.generated]
        show a.generated + 1 + m = a.generated + (m + 1)
        omega
      · rw [hm.taken, Nat.add_comm m 1, decodeTokens_add, hone, List.append_assoc]
      · rcases hm.last with ⟨hsame, hlast⟩ | hlast
        · rw [hsame, hlast, List.dropLast_concat]
        · exact hlast
      · obtain ⟨hmn, hall⟩ := hm.running hd
        exact ⟨by rw [hmn], hall⟩

/-- **Tokens handed out.** A request handed the next tokens of one-token decoding, with a KV of all
but the last of them, runs on or has ended. -/
theorem Going.emit {a : Active S} (h : Going t a) {n : ℕ} (hn : 0 < n)
    (hkv : a.kv = (a.hist ++ decodeTokens (t.pick a.job.sampling) a.hist a.generated n).dropLast) :
    let r := Coordinator.emit t a (decodeTokens (t.pick a.job.sampling) a.hist a.generated n)
    r.1.job = a.job ∧ (r.2 = false → Serves t r.1) ∧ (r.2 = true → Ended t (retireKv r.1)) := by
  intro r
  obtain ⟨m, hm⟩ : ∃ m, Emits t a n r m := h.emits n
  have hlast (hpos : 0 < m) : r.1.hist = r.1.hist.dropLast ++ [r.1.last] := by
    refine hm.last.resolve_left fun hsame => ?_
    have hlen := congrArg List.length (hm.taken.symm.trans hsame.1)
    rw [List.length_append, length_decodeTokens] at hlen
    omega
  have hhist : r.1.hist <+: a.hist ++
      decodeTokens (t.pick a.job.sampling) a.hist a.generated n := by
    rw [hm.taken, ← Nat.add_sub_cancel' hm.le, decodeTokens_add, ← List.append_assoc]
    exact List.prefix_append _ _
  refine ⟨hm.job, fun hd => ?_, fun hd => ?_⟩
  · obtain ⟨rfl, hall⟩ := hm.running hd
    refine ⟨?_, ?_, hlast hn, hm.copy, ?_, ?_⟩
    · rw [hm.generated]
      omega
    · rw [hm.job]
      exact hm.hist
    · rw [hm.kv, hkv, hm.taken]
    · rw [hm.job]
      exact hall
  · obtain ⟨hpos, hend⟩ := hm.ended hd
    refine ⟨?_, ?_, ?_, ?_, ?_⟩
    · show 0 < r.1.generated
      rw [hm.generated]
      omega
    · show r.1.hist = r.1.job.ids ++ t.stream r.1.job r.1.generated
      rw [hm.job]
      exact hm.hist
    · -- the rows after the last token kept are dropped
      show r.1.kv.take (r.1.hist.length - 1) = r.1.hist.dropLast
      have hle := hhist.length_le
      obtain ⟨rest, hrest⟩ := hhist
      rw [hm.kv, hkv, List.dropLast_eq_take, List.take_take, List.dropLast_eq_take,
        Nat.min_eq_left (by omega), ← hrest, List.take_append_of_le_length (by omega)]
    · show t.ends r.1.job r.1.generated
      rw [hm.job]
      exact hend
    · show ∀ g, 0 < g → g < r.1.generated → ¬ t.ends r.1.job g
      rw [hm.job]
      exact hm.before

/-- **A step of a request** that keeps what one-token decoding would have emitted. -/
theorem Serves.emit {a : Active S} (h : Serves t a) {copy : CopyIndex} (hcopy : Indexed copy a.hist)
    {x : List ℕ × List ℕ}
    (hx : Kept (t.pick a.job.sampling) (a.kv ++ [a.last]) a.generated x) :
    let r := Coordinator.emit t { a with kv := x.1, copy := copy } x.2
    r.1.job = a.job ∧ (r.2 = false → Serves t r.1) ∧ (r.2 = true → Ended t (retireKv r.1)) := by
  obtain ⟨n, hn, hout, hkv⟩ := hx
  have hctx : a.kv ++ [a.last] = a.hist := by
    rw [h.kv]
    exact h.last.symm
  rw [hctx] at hout hkv
  have hgoing : Going t { a with kv := x.1, copy := copy } := ⟨h.hist, hcopy, h.going⟩
  rw [hout]
  exact hgoing.emit hn (by rw [hkv, hout])

/-! ### The scheduler -/

/-- Every running request serves one of the jobs, every retired one has ended one. -/
structure Exact (t : Forward S) (jobs : Job S → Prop) (s : Sched S) : Prop where
  active : ∀ a ∈ s.active, jobs a.job ∧ Serves t a
  retired : ∀ a ∈ s.retired, jobs a.job ∧ Ended t a

variable {jobs : Job S → Prop}

theorem exact_deliverTokens {outs : List (Active S × List ℕ × List ℕ)} {retired : List (Active S)}
    (houts : ∀ y ∈ outs, jobs y.1.job ∧
      let r := emit t { y.1 with kv := y.2.1 } y.2.2
      r.1.job = y.1.job ∧ (r.2 = false → Serves t r.1) ∧ (r.2 = true → Ended t (retireKv r.1)))
    (hretired : ∀ a ∈ retired, jobs a.job ∧ Ended t a) :
    Exact t jobs (deliverTokens t outs retired) := by
  refine ⟨fun a ha => ?_, fun a ha => ?_⟩
  · obtain ⟨r, hr, rfl⟩ := List.mem_map.mp ha
    obtain ⟨hmem, hd⟩ := List.mem_filter.mp hr
    obtain ⟨y, hy, rfl⟩ := List.mem_map.mp hmem
    obtain ⟨hjob, hsame, hserves, -⟩ := houts y hy
    refine ⟨?_, hserves (by simpa using hd)⟩
    rw [show (emit t { y.1 with kv := y.2.1 } y.2.2).1.job = y.1.job from hsame]
    exact hjob
  · rcases List.mem_append.mp ha with ha | ha
    · exact hretired a ha
    · obtain ⟨r, hr, rfl⟩ := List.mem_map.mp ha
      obtain ⟨hmem, hd⟩ := List.mem_filter.mp hr
      obtain ⟨y, hy, rfl⟩ := List.mem_map.mp hmem
      obtain ⟨hjob, hsame, -, hended⟩ := houts y hy
      refine ⟨?_, hended hd⟩
      show jobs (emit t { y.1 with kv := y.2.1 } y.2.2).1.job
      rw [show (emit t { y.1 with kv := y.2.1 } y.2.2).1.job = y.1.job from hsame]
      exact hjob

theorem plan_fst (t : Forward S) (a : Active S) :
    (plan t a).1 = { a with copy := (plan t a).1.copy } := by
  rw [plan]

theorem plan_indexed {a : Active S} (h : Indexed a.copy a.hist) :
    Indexed (plan t a).1.copy a.hist := by
  rw [plan]
  dsimp only
  split
  · exact h.propose _
  · exact h

/-- **Step.** -/
theorem Exact.step {s : Sched S} (h : Exact t jobs s) {e : SchedEvent S}
    (he : ∀ job, e = .start job → jobs job) : Exact t jobs (schedStep t s e) := by
  cases e with
  | start job =>
    have hgoing : Going t job.prefilled :=
      ⟨(List.append_nil _).symm, indexed_empty _, fun g h0 hg => absurd hg (Nat.not_le.mpr h0)⟩
    obtain ⟨hsame, hserves, hended⟩ := hgoing.emit (n := 1) Nat.zero_lt_one (by
      show job.ids = (job.ids ++ [_]).dropLast
      rw [List.dropLast_concat])
    have hjob := he job rfl
    rw [schedStep]
    change Coordinator.emit t job.prefilled [t.pick job.sampling job.ids 0] |>.1.job = job at hsame
    change (Coordinator.emit t job.prefilled [t.pick job.sampling job.ids 0]).2 = false →
      Serves t (Coordinator.emit t job.prefilled [t.pick job.sampling job.ids 0]).1 at hserves
    change (Coordinator.emit t job.prefilled [t.pick job.sampling job.ids 0]).2 = true →
      Ended t (retireKv (Coordinator.emit t job.prefilled [t.pick job.sampling job.ids 0]).1)
      at hended
    cases hr : Coordinator.emit t job.prefilled [t.pick job.sampling job.ids 0] with
    | mk a done =>
      rw [hr] at hsame hserves hended
      obtain rfl : a.job = job := hsame
      dsimp only
      cases done with
      | false =>
        refine ⟨fun b hb => ?_, h.retired⟩
        rcases List.mem_append.mp hb with hb | hb
        · exact h.active b hb
        · rw [List.mem_singleton.mp hb]
          exact ⟨hjob, hserves rfl⟩
      | true =>
        refine ⟨h.active, fun b hb => ?_⟩
        rcases List.mem_append.mp hb with hb | hb
        · exact h.retired b hb
        · rw [List.mem_singleton.mp hb]
          exact ⟨hjob, hended rfl⟩
  | spec env =>
    rw [schedStep, List.map_map]
    cases hstep : specStep t env (s.active.map (Prod.snd ∘ plan t)) with
    | error e => exact ⟨by simp, h.retired⟩
    | ok outs =>
      have hkept := specStep_exact hstep
      rw [StepExact, List.forall₂_map_left_iff] at hkept
      refine exact_deliverTokens (fun y hy => ?_) h.retired
      rw [List.map_map, List.zip_map_left] at hy
      obtain ⟨⟨a, x⟩, hax, rfl⟩ := List.mem_map.mp hy
      obtain ⟨hjob, hserves⟩ := h.active a (List.of_mem_zip hax).1
      have hrun := hserves.emit (plan_indexed (t := t) hserves.copy)
        (List.forall₂_zip hkept hax _ _ rfl)
      have hplan : ({ (plan t a).1 with kv := x.1 } : Active S) =
          { a with kv := x.1, copy := (plan t a).1.copy } := by
        rw [plan_fst]
      show jobs (plan t a).1.job ∧ _
      rw [show (plan t a).1.job = a.job by rw [plan_fst]]
      refine ⟨hjob, ?_⟩
      show let r := Coordinator.emit t { (plan t a).1 with kv := x.1 } x.2; _
      rw [hplan]
      exact hrun
  | decode device =>
    rw [schedStep]
    split
    · refine exact_deliverTokens (fun y hy => ?_) h.retired
      obtain ⟨a, ha, rfl⟩ := List.mem_map.mp hy
      obtain ⟨hjob, hserves⟩ := h.active a ha
      refine ⟨hjob, hserves.emit hserves.copy (x := decodeOne t a) ⟨1, Nat.zero_lt_one, rfl, ?_⟩⟩
      show a.kv ++ [a.last] = (a.kv ++ [a.last] ++ [_]).dropLast
      rw [List.dropLast_concat]
    · exact ⟨by simp, h.retired⟩
  | cancel i =>
    refine ⟨fun a ha => h.active a ?_, h.retired⟩
    change a ∈ if i < s.active.length then Vec.swapRemove s.active i else s.active at ha
    split at ha
    · exact Vec.mem_swapRemove ha
    · exact ha

/-- **Run.** -/
theorem exact_run (t : Forward S) (events : List (SchedEvent S)) :
    Exact t (fun job => .start job ∈ events) (run (schedStep t) {} events) := by
  refine inv_run (fun s e h he => h.step he) ⟨by simp, by simp⟩ (along_of_forall fun e he => ?_)
  rintro job rfl
  exact he

/-- Two ended requests of one job end with the same token. -/
theorem Ended.generated_eq {a b : Active S} (ha : Ended t a) (hb : Ended t b)
    (hjob : a.job = b.job) : a.generated = b.generated := by
  rcases Nat.lt_trichotomy a.generated b.generated with hlt | heq | hlt
  · exact absurd (hjob ▸ ha.ends) (hb.first _ ha.pos hlt)
  · exact heq
  · exact absurd (hjob ▸ hb.ends) (ha.first _ hb.pos hlt)

/-- **Speculation is exact.** A step leaves of every request what one-token decoding would have
left, whatever is drafted, copied and verified; in any state of any run a request has emitted the
first tokens of its one-token stream, up to its end and no further, and its KV holds the rows of all
tokens but the last; and two runs, with speculative steps or without, end a job with the same
history. -/
theorem speculation_exact (t : Forward S) :
    (∀ env reqs outs, specStep t env reqs = .ok outs → StepExact t reqs outs) ∧
    (∀ events : List (SchedEvent S), let s := run (schedStep t) {} events
      (∀ a ∈ s.active, .start a.job ∈ events ∧ Serves t a) ∧
      (∀ a ∈ s.retired, .start a.job ∈ events ∧ Ended t a)) ∧
    ∀ events events' : List (SchedEvent S), ∀ a ∈ (run (schedStep t) {} events).retired,
      ∀ b ∈ (run (schedStep t) {} events').retired, a.job = b.job →
        a.hist = b.hist ∧ a.kv = b.kv := by
  refine ⟨fun env reqs outs h => specStep_exact h,
    fun events => ⟨(exact_run t events).active, (exact_run t events).retired⟩, ?_⟩
  intro events events' a ha b hb hjob
  obtain ⟨-, ha⟩ := (exact_run t events).retired a ha
  obtain ⟨-, hb⟩ := (exact_run t events').retired b hb
  have hhist : a.hist = b.hist := by
    rw [ha.hist, hb.hist, ha.generated_eq hb hjob, hjob]
  exact ⟨hhist, by rw [ha.kv, hb.kv, hhist]⟩

end Coordinator

end Mimo26

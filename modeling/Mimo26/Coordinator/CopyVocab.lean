import Mathlib.Data.Int.Notation
import Mimo26.Coordinator.SpecExact

/-!
# Ids of a verify block

The last token of a request, the drafts and the tokens it takes are argmaxes and draws of rows that
are as wide as the vocabulary. The copy window is not: it copies ids of the prompt, and a prompt has
ids past any vocabulary where it has images (`image_token_id`). A window that runs into them makes
the verify pass fail, and with it the step of every active request.

## Main definitions

* `argmaxRow`, `drawRow` — the token taken from a row of logits
* `withLogits`, `withRows` — a forward and a step environment whose tokens are taken so
* `VerifyInVocab` — a speculative step verifies ids of the vocabulary only
* `CopySafe` — no copy window of a request runs past it

## Main results

* `specStep_outOfVocab` — a step that fails on an id fails on one of a verify block
* `verifyInVocab_run` — in every state of every run the ids are those of the vocabulary exactly when
  the copy windows are safe
* `not_verifyInVocab_imagePrompt` — a prompt with an image fails the step of another request
-/

namespace Mimo26

namespace Coordinator

open Runs

/-! ### Rows of logits -/

/-- A row of logits or scores, each by its place in the order of floats; none for NaN and for a
token that is filtered. -/
abbrev Row := ℕ → Option ℤ

/-- The best of the first columns, and one column more. -/
def better (row : Row) (best : Option (ℕ × ℤ)) (i : ℕ) : Option (ℕ × ℤ) :=
  match row i, best with
  | none, best => best
  | some v, none => some (i, v)
  | some v, some (j, w) => if w < v then some (i, v) else some (j, w)

/-- The first index of the maximum of `n` columns. -/
def firstMax (n : ℕ) (row : Row) : Option ℕ :=
  ((List.range n).foldl (better row) none).map (·.1)

/-- The argmax of a row; 0 where nothing compares. -/
def argmaxRow (vocab : ℕ) (row : Row) : ℕ := (firstMax vocab row).getD 0

/-- A draw from a row: the best score, or the argmax that was there. -/
def drawRow (vocab sampleVocab : ℕ) (row scores : Row) : ℕ :=
  (firstMax (min sampleVocab vocab) scores).getD (argmaxRow vocab row)

theorem better_cases (row : Row) (best : Option (ℕ × ℤ)) (i : ℕ) :
    better row best i = best ∨ ∃ v, better row best i = some (i, v) := by
  unfold better
  split
  · exact Or.inl rfl
  · next v _ => exact Or.inr ⟨v, rfl⟩
  · next v j w _ =>
    split
    · exact Or.inr ⟨v, rfl⟩
    · exact Or.inl rfl

theorem foldl_better_lt {n : ℕ} {row : Row} {l : List ℕ} (hl : ∀ j ∈ l, j < n)
    {best : Option (ℕ × ℤ)} (hbest : ∀ b ∈ best, b.1 < n) :
    ∀ b ∈ l.foldl (better row) best, b.1 < n := by
  induction l generalizing best with
  | nil => exact hbest
  | cons j l ih =>
    refine ih (fun i hi => hl i (List.mem_cons_of_mem _ hi)) fun b hb => ?_
    rcases better_cases row best j with heq | ⟨v, heq⟩
    · exact hbest b (heq ▸ hb)
    · rw [heq] at hb
      rw [← Option.some.inj hb]
      exact hl j List.mem_cons_self

theorem firstMax_lt {n : ℕ} {row : Row} {i : ℕ} (h : firstMax n row = some i) : i < n := by
  rw [firstMax, Option.map_eq_some_iff] at h
  obtain ⟨b, hb, rfl⟩ := h
  exact foldl_better_lt (fun j hj => List.mem_range.mp hj) (by simp) b hb

theorem argmaxRow_lt {vocab : ℕ} (hvocab : 0 < vocab) (row : Row) :
    argmaxRow vocab row < vocab := by
  rw [argmaxRow]
  cases h : firstMax vocab row with
  | none => exact hvocab
  | some i => exact firstMax_lt h

theorem drawRow_lt {vocab : ℕ} (hvocab : 0 < vocab) (sampleVocab : ℕ) (row scores : Row) :
    drawRow vocab sampleVocab row scores < vocab := by
  rw [drawRow]
  cases h : firstMax (min sampleVocab vocab) scores with
  | none => exact argmaxRow_lt hvocab row
  | some i => exact Nat.lt_of_lt_of_le (firstMax_lt h) (Nat.min_le_right _ _)

/-! ### The forward over its logits -/

variable {S : Type}

/-- What the target computes. -/
structure Logits (S : Type) where
  /-- The logits after the given tokens. -/
  row : List ℕ → Row
  /-- The ids that draws select from. -/
  sampleVocab : ℕ
  /-- The scores of a draw from a row, for an emitted position. -/
  scores : S → ℕ → Row → Row

/-- The forward that takes its tokens from logits. -/
def Forward.withLogits (t : Forward S) (l : Logits S) : Forward S :=
  { t with
    argmax := fun ctx => argmaxRow t.vocab (l.row ctx)
    draw := fun s position ctx =>
      drawRow t.vocab l.sampleVocab (l.row ctx) (l.scores s position (l.row ctx)) }

theorem Forward.pick_withLogits_lt (t : Forward S) (l : Logits S) (sampling : Option S)
    (ctx : List ℕ) (position : ℕ) : (t.withLogits l).pick sampling ctx position < t.vocab := by
  cases sampling with
  | none => exact argmaxRow_lt t.vocab_pos _
  | some s => exact drawRow_lt t.vocab_pos _ _ _

/-- The step in which the drafts of request `i` are taken from the drafter's rows, each with the
scores of a draft that is coupled to a draw. -/
def StepEnv.withRows (env : StepEnv) (vocab sampleVocab : ℕ) (rows : ℕ → List (Row × Option Row)) :
    StepEnv :=
  { env with
    drafts := fun i => (rows i).map fun r =>
      match r.2 with
      | none => argmaxRow vocab r.1
      | some scores => drawRow vocab sampleVocab r.1 scores }

theorem StepEnv.drafts_withRows_lt {env : StepEnv} {vocab sampleVocab : ℕ} (hvocab : 0 < vocab)
    {rows : ℕ → List (Row × Option Row)} {i d : ℕ}
    (hd : d ∈ (env.withRows vocab sampleVocab rows).drafts i) : d < vocab := by
  obtain ⟨⟨row, coupled⟩, -, rfl⟩ := List.mem_map.mp hd
  cases coupled with
  | none => exact argmaxRow_lt hvocab row
  | some scores => exact drawRow_lt hvocab _ row scores

/-! ### Steps that fail on an id -/

variable {t : Forward S}

theorem require_ne_outOfVocab {c : Bool} {e : StepError} {id : ℕ} (he : e ≠ .outOfVocab id) :
    require c e ≠ .error (.outOfVocab id) := by
  rw [require]
  split
  · simp
  · exact fun h => he (Except.error.inj h)

theorem dflashDraft_outOfVocab {reqs : List (SpecReq S)} {device : Bool} {id : ℕ}
    (h : dflashDraft t reqs device = .error (.outOfVocab id)) :
    t.vocab ≤ id ∧ ∃ r ∈ reqs, r.last = id := by
  rw [dflashDraft] at h
  split at h
  · exact absurd h (by simp)
  · split at h
    · next id' hfind =>
      obtain rfl := StepError.outOfVocab.inj (Except.error.inj h)
      obtain ⟨r, hr, rfl⟩ := List.mem_map.mp (List.mem_of_find?_eq_some hfind)
      exact ⟨by simpa using List.find?_some hfind, r, (List.mem_filter.mp hr).1, rfl⟩
    · exact absurd h (require_ne_outOfVocab (by simp))

/-- The rows of a verify pass are rows of its blocks. -/
theorem rowId_mem {blocks : List (Block S)} {row : ℕ × ℕ} (h : row ∈ allRows blocks) :
    ∃ b ∈ blocks, rowId blocks row ∈ b.ids := by
  obtain ⟨i, hi, hrow⟩ := List.mem_flatMap.mp h
  obtain ⟨j, hj, rfl⟩ := List.mem_map.mp hrow
  rw [List.mem_range] at hi
  rw [whole, List.getElem?_eq_getElem hi] at hj
  have hjlt : j < blocks[i].ids.length := by simpa using hj
  refine ⟨blocks[i], List.getElem_mem hi, ?_⟩
  rw [rowId, List.getElem?_eq_getElem hi]
  show blocks[i].ids.getD j 0 ∈ blocks[i].ids
  rw [List.getD_eq_getElem?_getD, List.getElem?_eq_getElem hjlt]
  exact List.getElem_mem hjlt

theorem verifyBatch_outOfVocab {blocks : List (Block S)} {device : Bool} {id : ℕ}
    (h : verifyBatch t blocks device = .error (.outOfVocab id)) :
    t.vocab ≤ id ∧ ∃ b ∈ blocks, id ∈ b.ids := by
  rw [verifyBatch] at h
  obtain ⟨u, -, h⟩ := (Result.bind_eq_error.mp h).resolve_left (require_ne_outOfVocab (by simp))
  obtain ⟨u, -, h⟩ := (Result.bind_eq_error.mp h).resolve_left (require_ne_outOfVocab (by simp))
  obtain ⟨u, -, h⟩ := (Result.bind_eq_error.mp h).resolve_left (require_ne_outOfVocab (by simp))
  split at h
  · next id' hfind =>
    obtain rfl := StepError.outOfVocab.inj (Except.error.inj h)
    obtain ⟨row, hrow, rfl⟩ := List.mem_map.mp (List.mem_of_find?_eq_some hfind)
    rw [rowOrder_lanes] at hrow
    exact ⟨by simpa using List.find?_some hfind, rowId_mem hrow⟩
  · obtain ⟨u, -, h⟩ := (Result.bind_eq_error.mp h).resolve_left (require_ne_outOfVocab (by simp))
    rw [select] at h
    obtain ⟨u, -, h⟩ := (Result.bind_eq_error.mp h).resolve_left (require_ne_outOfVocab (by simp))
    exact absurd h (by simp)

theorem acceptRows_ne_outOfVocab {am : List ℕ} {off : ℕ} {blocks : List (Block S)} {id : ℕ} :
    acceptRows am off blocks ≠ .error (.outOfVocab id) := by
  induction blocks generalizing off with
  | nil => simp [acceptRows]
  | cons b bs ih =>
    intro h
    rw [acceptRows] at h
    rcases Result.bind_eq_error.mp h with h | ⟨kv, -, h⟩
    · rw [truncate] at h
      split at h
      · exact absurd h (by simp)
      · exact absurd (Except.error.inj h) (by simp)
    · rcases Result.bind_eq_error.mp h with h | ⟨rest, -, h⟩
      · exact ih h
      · exact absurd h (by simp)

/-- **A step that fails on an id** fails on one of a verify block. -/
theorem specStep_outOfVocab {env : StepEnv} {reqs : List (SpecReq S)} {id : ℕ}
    (h : specStep t env reqs = .error (.outOfVocab id)) :
    t.vocab ≤ id ∧ ∃ b ∈ reqs.mapIdx (specBlock env), id ∈ b.ids := by
  rw [specStep] at h
  obtain ⟨u, -, h⟩ := (Result.bind_eq_error.mp h).resolve_left (require_ne_outOfVocab (by simp))
  rcases Result.bind_eq_error.mp h with h | ⟨u, -, h⟩
  · obtain ⟨hid, r, hr, rfl⟩ := dflashDraft_outOfVocab h
    obtain ⟨i, hi, rfl⟩ := List.mem_iff_getElem.mp hr
    refine ⟨hid, specBlock env i reqs[i], ?_, List.mem_cons_self⟩
    exact List.mem_mapIdx.mpr ⟨i, hi, rfl⟩
  · rcases Result.bind_eq_error.mp h with h | ⟨am, -, h⟩
    · exact verifyBatch_outOfVocab h
    · obtain ⟨outs, -, h⟩ := (Result.bind_eq_error.mp h).resolve_left acceptRows_ne_outOfVocab
      obtain ⟨u, -, h⟩ := (Result.bind_eq_error.mp h).resolve_left (require_ne_outOfVocab (by simp))
      exact absurd h (by simp)

/-! ### The ids the scheduler verifies -/

/-- What a speculative step asks of the forward. -/
def Sched.requests (t : Forward S) (s : Sched S) : List (SpecReq S) :=
  (s.active.map (plan t)).map (·.2)

/-- A speculative step verifies ids of the vocabulary only, and does not fail on one. -/
def VerifyInVocab (t : Forward S) (env : StepEnv) (s : Sched S) : Prop :=
  (∀ b ∈ (s.requests t).mapIdx (specBlock env), ∀ id ∈ b.ids, id < t.vocab) ∧
    ∀ id, specStep t env (s.requests t) ≠ .error (.outOfVocab id)

/-- No copy window of the request runs past the vocabulary. -/
def CopySafe (t : Forward S) (a : Active S) : Prop :=
  t.copyOn → a.job.sampling = none →
    CopyClean t.vocab a.hist (min (a.job.max - a.generated - 1) dflashDrafts)

theorem Serves.last_lt {a : Active S} (h : Serves t a)
    (hpick : ∀ sampling ctx position, t.pick sampling ctx position < t.vocab) :
    a.last < t.vocab := by
  obtain ⟨n, hn⟩ := Nat.exists_eq_succ_of_ne_zero (Nat.ne_of_gt h.pos)
  have hlast := h.hist
  rw [hn, Forward.stream_succ, ← List.append_assoc, h.last] at hlast
  rw [List.cons.inj (List.append_inj_right' hlast rfl) |>.1]
  exact hpick _ _ _

/-- **One block.** The last token and the drafts are ids of the vocabulary, the window is a
proposal. -/
theorem specBlock_lt_iff {a : Active S} (h : Serves t a) (env : StepEnv)
    (hpick : ∀ sampling ctx position, t.pick sampling ctx position < t.vocab)
    (hdrafts : ∀ i, ∀ d ∈ env.drafts i, d < t.vocab) (i : ℕ) :
    (∀ id ∈ (specBlock env i (plan t a).2).ids, id < t.vocab) ↔ CopySafe t a := by
  generalize hk : min (a.job.max - a.generated - 1) dflashDrafts = k
  have hwindow : (plan t a).2.copy =
      if t.copyOn ∧ a.job.sampling.isNone then (a.copy.propose a.hist k).2 else [] := by
    rw [plan, hk]
    by_cases hon : t.copyOn ∧ a.job.sampling.isNone
    · rw [if_pos hon, if_pos hon]
    · rw [if_neg hon, if_neg hon]
  have hkept : (plan t a).2.k = k := by rw [plan, hk]
  have hle : (plan t a).2.copy.length ≤ k := by
    rw [hwindow]
    split
    · exact length_propose_le _ _ _
    · exact Nat.zero_le _
  have hids : (∀ id ∈ (specBlock env i (plan t a).2).ids, id < t.vocab) ↔
      ∀ id ∈ (plan t a).2.copy, id < t.vocab := by
    rw [specBlock, hkept, Nat.min_eq_left hle, List.take_length]
    dsimp only
    rw [List.forall_mem_cons, and_iff_right (show (plan t a).2.last < t.vocab from h.last_lt hpick)]
    split
    · next hnil =>
      rw [hnil]
      exact ⟨by simp, fun _ d hd => hdrafts i d (List.mem_of_mem_take hd)⟩
    · exact Iff.rfl
  rw [hids, hwindow, CopySafe, hk]
  split
  · next hon =>
    rw [forall_propose_lt h.copy]
    exact ⟨fun hclean _ _ => hclean, fun hsafe => hsafe hon.1 (Option.isNone_iff_eq_none.mp hon.2)⟩
  · next hoff =>
    refine ⟨fun _ hon hnone => absurd ⟨hon, ?_⟩ hoff, by simp⟩
    rw [hnone]
    rfl

/-- **In every state of every run** a speculative step verifies ids of the vocabulary only, and does
not fail on one, exactly when no copy window of an active request runs past it. -/
theorem verifyInVocab_run (t : Forward S) (l : Logits S) (events : List (SchedEvent S))
    (env : StepEnv) (rows : ℕ → List (Row × Option Row)) :
    let s := run (schedStep (t.withLogits l)) {} events
    VerifyInVocab (t.withLogits l) (env.withRows t.vocab l.sampleVocab rows) s ↔
      ∀ a ∈ s.active, CopySafe (t.withLogits l) a := by
  intro s
  have hserves : ∀ a ∈ s.active, Serves (t.withLogits l) a :=
    fun a ha => ((exact_run (t.withLogits l) events).active a ha).2
  have hblock (a : Active S) (ha : a ∈ s.active) (i : ℕ) :=
    specBlock_lt_iff (hserves a ha) (env.withRows t.vocab l.sampleVocab rows)
      (t.pick_withLogits_lt l) (fun i d hd => StepEnv.drafts_withRows_lt t.vocab_pos hd) i
  constructor
  · rintro ⟨hids, -⟩ a ha
    have hreq : (plan (t.withLogits l) a).2 ∈ s.requests (t.withLogits l) :=
      List.mem_map_of_mem (List.mem_map_of_mem ha)
    obtain ⟨i, hi, heq⟩ := List.mem_iff_getElem.mp hreq
    refine (hblock a ha i).mp (hids _ ?_)
    rw [← heq]
    exact List.mem_mapIdx.mpr ⟨i, hi, rfl⟩
  · intro hsafe
    have hids : ∀ b ∈ (s.requests (t.withLogits l)).mapIdx
        (specBlock (env.withRows t.vocab l.sampleVocab rows)), ∀ id ∈ b.ids, id < t.vocab := by
      intro b hb
      obtain ⟨i, hi, rfl⟩ := List.mem_mapIdx.mp hb
      obtain ⟨y, hy, heq⟩ := List.mem_map.mp (List.getElem_mem hi)
      obtain ⟨a, ha, rfl⟩ := List.mem_map.mp hy
      rw [← heq]
      exact (hblock a ha i).mpr (hsafe a ha)
    refine ⟨hids, fun id h => ?_⟩
    obtain ⟨hid, b, hb, hmem⟩ := specStep_outOfVocab h
    exact absurd (hids b hb id hmem) (Nat.not_lt.mpr hid)

/-! ### A prompt with an image -/

/-- A row whose maximum is at 8. -/
def eightRow : Row := fun i => if i = 8 then some 1 else some 0

/-- A forward that always takes token 8. -/
def eightForward : Forward Unit :=
  Forward.withLogits
    { vocab := 100, vocab_pos := by decide, maxChunk := 64, pipelined := false, verifyLanes := 0
      copyOn := true, eos := [], argmax := fun _ => 0, draw := fun _ _ _ => 0 }
    { row := fun _ => eightRow, sampleVocab := 100, scores := fun _ _ _ _ => none }

/-- A step with one draft, of the same row. -/
def eightEnv : StepEnv :=
  StepEnv.withRows { drafts := fun _ => [], policy := fun _ => 1 } 100 100
    fun _ => [(eightRow, none)]

/-- A prompt in which a row of an image follows a gram that its end and the first token repeat. -/
def imageJob : Job Unit where
  ids := [1, 2, 3, 4, 5, 6, 7, 8, 0x80000000, 9, 1, 2, 3, 4, 5, 6, 7]
  max := 100
  sampling := none
  tx := 0
  gone := fun _ => false

/-- A prompt of text. -/
def textJob : Job Unit where
  ids := [1, 2, 3]
  max := 100
  sampling := none
  tx := 1
  gone := fun _ => false

/-- **A window over an image** fails the step, and ends the other request as well. -/
theorem not_verifyInVocab_imagePrompt :
    let s := run (schedStep eightForward) {} [.start textJob, .start imageJob]
    s.active.map (·.job.tx) = [1, 0] ∧ ¬ VerifyInVocab eightForward eightEnv s ∧
      specStep eightForward eightEnv (s.requests eightForward) = .error (.outOfVocab 0x80000000) ∧
      (schedStep eightForward s (.spec eightEnv)).active.map (·.job.tx) = [] := by
  have hstep : specStep eightForward eightEnv
      ((run (schedStep eightForward) {} [.start textJob, .start imageJob]).requests eightForward) =
      .error (.outOfVocab 0x80000000) := by
    decide +kernel
  exact ⟨by decide +kernel, fun h => h.2 _ hstep, hstep, by decide +kernel⟩

end Coordinator

end Mimo26

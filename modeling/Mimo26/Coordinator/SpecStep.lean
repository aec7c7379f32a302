import Mathlib.Algebra.Ring.Nat
import Mathlib.Data.List.Basic
import Mathlib.Data.List.TakeDrop
import Mimo26.Coordinator.CopyIndex
import Mimo26.Library.Result
import Mimo26.Library.Vec

/-!
# The speculative step

`spec_step` and `verify_batch` (`dforward.rs`), and the scheduler's decode steps that use them
(`api.rs`). The parallel slices of a step are one list of records.

A KV is the list of the tokens whose rows it holds: `truncate` drops the newest, a pass appends its
own, and the row of a token attends to the tokens up to it. What the devices compute is an argument:
the target's argmax and its draw, functions of those tokens and of the emitted position, are part of
`Forward`; the drafts, the verify lengths of the policy and the device errors of one step are its
`StepEnv`. How many rows of a sliding window a KV stores is a matter of its own.

## Main definitions

* `Forward`, `pick` — the target model and the token it takes
* `lanes`, `select`, `verifyBatch` — the verify pass
* `accepted`, `acceptRows`, `specStep` — the step
* `Active`, `SchedEvent`, `schedStep` — the scheduler's requests and decode steps
-/

namespace Mimo26

namespace Coordinator

/-- Drafts of a round. -/
def dflashDrafts : ℕ := 7

/-- The longest verify block. -/
def dflashBlock : ℕ := 8

/-- The forward, as far as decoding depends on it; `S` is a request's sampling. -/
structure Forward (S : Type) where
  vocab : ℕ
  vocab_pos : 0 < vocab
  maxChunk : ℕ
  /-- The wire takes two exchanges. -/
  pipelined : Bool
  verifyLanes : ℕ
  copyOn : Bool
  eos : List ℕ
  /-- The argmax after the given tokens. -/
  argmax : List ℕ → ℕ
  /-- The draw for an emitted position after the given tokens. -/
  draw : S → ℕ → List ℕ → ℕ

variable {S : Type}

/-- The token a request takes at an emitted position. -/
def Forward.pick (t : Forward S) (sampling : Option S) (ctx : List ℕ) (position : ℕ) : ℕ :=
  match sampling with
  | none => t.argmax ctx
  | some s => t.draw s position ctx

/-- Why a step fails. -/
inductive StepError where
  | shape
  /-- More rows than the lanes hold. -/
  | rows
  /-- `token id {id} out of vocab`. -/
  | outOfVocab (id : ℕ)
  | selectRow
  | truncate
  /-- A device call failed. -/
  | device
  deriving DecidableEq, Repr

def require (c : Bool) (e : StepError) : Except StepError Unit := if c then .ok () else .error e

/-! ### The verify pass -/

/-- One request of a verify pass. -/
structure Block (S : Type) where
  /-- The tokens of the request's KV. -/
  kv : List ℕ
  ids : List ℕ
  /-- Its sampling and the tokens it has emitted. -/
  draw : Option (S × ℕ)

/-- All of a request's block. -/
def whole (blocks : List (Block S)) (i : ℕ) : ℕ × ℕ × ℕ :=
  (i, 0, (blocks[i]?.map (·.ids.length)).getD 0)

def totalRows (blocks : List (Block S)) : ℕ := (blocks.map (·.ids.length)).sum

/-- Lanes of `(request, first block row, rows)` segments, contiguous in block order. -/
def lanes (t : Forward S) (blocks : List (Block S)) : List (List (ℕ × ℕ × ℕ)) :=
  let n := blocks.length
  let total := totalRows blocks
  if !t.pipelined ∨ t.verifyLanes = 1 ∨ (n = 1 ∧ total < 2) then
    [(List.range n).map (whole blocks)]
  else if n = 1 then
    let a := (total + 1) / 2
    [[(0, 0, a)], [(0, a, total - a)]]
  else
    let n0 := (n + 1) / 2
    [(List.range n0).map (whole blocks), (List.range' n0 (n - n0)).map (whole blocks)]

theorem range_halves (n : ℕ) :
    List.range ((n + 1) / 2) ++ List.range' ((n + 1) / 2) (n - (n + 1) / 2) = List.range n := by
  have hstart : 0 + 1 * ((n + 1) / 2) = (n + 1) / 2 := by omega
  have hlen : (n + 1) / 2 + (n - (n + 1) / 2) = n := by omega
  have happ := @List.range'_append 0 ((n + 1) / 2) (n - (n + 1) / 2) 1
  rw [hstart, hlen] at happ
  rw [List.range_eq_range', List.range_eq_range', happ]

def laneRows (lane : List (ℕ × ℕ × ℕ)) : ℕ := (lane.map (·.2.2)).sum

/-- The rows of the lanes, `(request, block row)`, in the order of their logits. -/
def rowOrder (ls : List (List (ℕ × ℕ × ℕ))) : List (ℕ × ℕ) :=
  ls.flatMap fun lane => lane.flatMap fun (i, r0, len) => (List.range' r0 len).map (Prod.mk i)

/-- The id of a row. -/
def rowId (blocks : List (Block S)) (row : ℕ × ℕ) : ℕ :=
  (blocks[row.1]?.map (·.ids.getD row.2 0)).getD 0

/-- The tokens up to row `j` of a block. -/
def Block.upTo (b : Block S) (j : ℕ) : List ℕ := b.kv ++ b.ids.take (j + 1)

/-- The tokens a row attends to. -/
def rowContext (blocks : List (Block S)) (row : ℕ × ℕ) : List ℕ :=
  (blocks[row.1]?.map (·.upTo row.2)).getD []

/-- The rows drawn, `(row, sampling, position)`, of the blocks whose first row is `off`. -/
def sampledRows : ℕ → List (Block S) → List (ℕ × S × ℕ)
  | _, [] => []
  | off, b :: bs =>
    (match b.draw with
      | some (s, done) => (List.range b.ids.length).map fun j => (off + j, s, done + j)
      | none => []) ++ sampledRows (off + b.ids.length) bs

/-- The token after each row: the argmax, or for each of `sampled` its draw. -/
def select (t : Forward S) (contexts : List (List ℕ)) (sampled : List (ℕ × S × ℕ)) :
    Except StepError (List ℕ) := do
  require (sampled.all fun r => r.1 < contexts.length) .selectRow
  return sampled.foldl (fun am r => am.set r.1 (t.draw r.2.1 r.2.2 (contexts.getD r.1 [])))
    (contexts.map t.argmax)

/-- The target's verify pass: every row's selection, in block order. -/
def verifyBatch (t : Forward S) (blocks : List (Block S)) (device : Bool) :
    Except StepError (List ℕ) := do
  require (blocks ≠ [] ∧ ∀ b ∈ blocks, b.ids ≠ [] ∧ b.ids.length ≤ dflashBlock) .shape
  require (totalRows blocks ≤ 2 * t.maxChunk) .rows
  let ls := lanes t blocks
  require (ls.all fun lane => laneRows lane ≤ t.maxChunk) .rows
  match ((rowOrder ls).map (rowId blocks)).find? (t.vocab ≤ ·) with
  | some id => throw (.outOfVocab id)
  | none =>
    require device .device
    select t ((rowOrder ls).map (rowContext blocks)) (sampledRows 0 blocks)

/-! ### The step -/

/-- What the devices do in one step. -/
structure StepEnv where
  /-- The drafts of request `i`. -/
  drafts : ℕ → List ℕ
  /-- How many of them the policy verifies. -/
  policy : ℕ → ℕ
  draft : Bool := true
  verify : Bool := true
  commit : Bool := true

/-- One request of a step. -/
structure SpecReq (S : Type) where
  kv : List ℕ
  last : ℕ
  k : ℕ
  draw : Option (S × ℕ)
  copy : List ℕ

/-- The block verified for request `i`: its copy window, or drafts. -/
def specBlock (env : StepEnv) (i : ℕ) (r : SpecReq S) : Block S where
  kv := r.kv
  ids := r.last ::
    if r.copy = [] then (env.drafts i).take (env.policy i) else r.copy.take (min r.copy.length r.k)
  draw := r.draw

/-- `while acc + 1 < b.len() && b[acc + 1] == g[acc]`, at most `n` more rounds. -/
def acceptLoop (b g : List ℕ) : ℕ → ℕ → ℕ
  | 0, acc => acc
  | n + 1, acc =>
    if acc + 1 < b.length ∧ b.getD (acc + 1) 0 = g.getD acc 0 then acceptLoop b g n (acc + 1)
    else acc

/-- The drafts of `b` the selections `g` agree with. -/
def accepted (b g : List ℕ) : ℕ := acceptLoop b g b.length 0

/-- Drop the newest tokens back to `n`. -/
def truncate (kv : List ℕ) (n : ℕ) : Except StepError (List ℕ) :=
  if n ≤ kv.length then .ok (kv.take n) else .error .truncate

/-- Each request's KV and new tokens, from the selections `am` of the rows from `off` on. -/
def acceptRows (am : List ℕ) : ℕ → List (Block S) → Except StepError (List (List ℕ × List ℕ))
  | _, [] => .ok []
  | off, b :: bs => do
    let g := (am.drop off).take b.ids.length
    let acc := accepted b.ids g
    let kv ← truncate (b.kv ++ b.ids) (b.kv.length + acc + 1)
    let out := (b.ids.drop 1).take acc ++ [g.getD acc 0]
    let rest ← acceptRows am (off + b.ids.length) bs
    return (kv, out) :: rest

/-- The drafter's checks: it embeds the last token of every request it drafts for. -/
def dflashDraft (t : Forward S) (reqs : List (SpecReq S)) (device : Bool) :
    Except StepError Unit := do
  let need := reqs.filter (·.copy = [])
  if need = [] then return ()
  else
    match (need.map (·.last)).find? (t.vocab ≤ ·) with
    | some id => throw (.outOfVocab id)
    | none => require device .device

/-- One speculative step: each request's KV and new tokens. -/
def specStep (t : Forward S) (env : StepEnv) (reqs : List (SpecReq S)) :
    Except StepError (List (List ℕ × List ℕ)) := do
  require (!reqs.isEmpty) .shape
  dflashDraft t reqs env.draft
  let blocks := reqs.mapIdx (specBlock env)
  let am ← verifyBatch t blocks env.verify
  let outs ← acceptRows am 0 blocks
  require env.commit .device
  return outs

/-! ### The scheduler -/

/-- A job, prefilled. -/
structure Job (S : Type) where
  ids : List ℕ
  max : ℕ
  sampling : Option S
  /-- Its client's channel. -/
  tx : ℕ
  /-- Whether the client is gone when its `g`-th token is sent. -/
  gone : ℕ → Bool

/-- A running request. -/
structure Active (S : Type) where
  job : Job S
  kv : List ℕ
  last : ℕ
  generated : ℕ
  /-- The prompt and the tokens emitted. -/
  hist : List ℕ
  copy : CopyIndex

/-- Emit new tokens until the request ends; says whether it has. -/
def emit (t : Forward S) (a : Active S) : List ℕ → Active S × Bool
  | [] => (a, false)
  | next :: out =>
    let a := { a with last := next, generated := a.generated + 1, hist := a.hist ++ [next] }
    if next ∈ t.eos ∨ a.job.max ≤ a.generated ∨ a.job.gone a.generated then (a, true)
    else emit t a out

/-- The KV of a retired request, back to the history's end. -/
def retireKv (a : Active S) : Active S := { a with kv := a.kv.take (a.hist.length - 1) }

/-- A prefilled job, with no token emitted yet. -/
def Job.prefilled (job : Job S) : Active S where
  job := job
  kv := job.ids
  last := 0
  generated := 0
  hist := job.ids
  copy := {}

/-- What a scheduler step plans for a request: its copy index and its part of the step. -/
def plan (t : Forward S) (a : Active S) : Active S × SpecReq S :=
  let k := min (a.job.max - a.generated - 1) dflashDrafts
  let (copy, window) :=
    if t.copyOn ∧ a.job.sampling.isNone then a.copy.propose a.hist k else (a.copy, [])
  ({ a with copy := copy },
    { kv := a.kv, last := a.last, k := k, draw := a.job.sampling.map fun s => (s, a.generated)
      copy := window })

/-- One token of `decode_batch`: the last token's row, and the token after it. -/
def decodeOne (t : Forward S) (a : Active S) : List ℕ × List ℕ :=
  (a.kv ++ [a.last], [t.pick a.job.sampling (a.kv ++ [a.last]) a.generated])

/-- The requests, and those that have ended. -/
structure Sched (S : Type) where
  active : List (Active S) := []
  retired : List (Active S) := []

/-- Hand out the tokens of a step. -/
def deliverTokens (t : Forward S) (outs : List (Active S × List ℕ × List ℕ))
    (retired : List (Active S)) : Sched S :=
  let ends := outs.map fun (a, kv, out) => emit t { a with kv := kv } out
  { active := (ends.filter (!·.2)).map (·.1)
    retired := retired ++ (ends.filter (·.2)).map fun a => retireKv a.1 }

/-- What happens to the scheduler. -/
inductive SchedEvent (S : Type) where
  /-- A job's prefill is done. -/
  | start (job : Job S)
  /-- A speculative step. -/
  | spec (env : StepEnv)
  /-- A one-token step; says whether the device calls succeed. -/
  | decode (device : Bool)
  /-- A client is found gone before a step. -/
  | cancel (i : ℕ)

def schedStep (t : Forward S) (s : Sched S) : SchedEvent S → Sched S
  | .start job =>
    let a := job.prefilled
    let (a, done) := emit t a [t.pick job.sampling job.ids 0]
    if done then { s with retired := s.retired ++ [retireKv a] }
    else { s with active := s.active ++ [a] }
  | .spec env =>
    let planned := s.active.map (plan t)
    match specStep t env (planned.map (·.2)) with
    | .ok outs => deliverTokens t ((planned.map (·.1)).zip outs) s.retired
    | .error _ => { s with active := [] }
  | .decode device =>
    if device then deliverTokens t (s.active.map fun a => (a, decodeOne t a)) s.retired
    else { s with active := [] }
  | .cancel i =>
    { s with active := if i < s.active.length then Vec.swapRemove s.active i else s.active }

end Coordinator

end Mimo26

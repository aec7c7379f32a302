import Mathlib.Logic.Function.Basic
import Mathlib.Data.List.FinRange
import Mimo26.Coordinator.SpecStep

/-!
# Device caches

A request's device cache (`DeviceKv` in `dforward.rs`) by the positions of its rows. A global layer
keeps every row and grows; a sliding-window layer keeps the rows of its window and, when an append
does not fit, drops the older ones first. What the rows hold beside their position, and the
drafter's rings, which follow their own rule, are left out.

A call into the device can fail; the caller then resets the cache, so a failed operation is a reset
here. Only a failing shrink is ignored, and leaves the layers before the failure shrunk.

## Main definitions

* `LayerKv`, `prepare`, `append` — one layer, and an append of rows
* `DeviceKv`, `appendSegs`, `forward`, `verify`, `truncate`, `shrinkSwa`, `save`, `load` — the cache
* `Caches`, `KvOp`, `cacheStep` — the caches of a server and the states saved from them
-/

namespace Mimo26

namespace Coordinator

/-- Rows of slack of a sliding-window layer between prefills. -/
def swaSlackRows : ℕ := 64

/-- The shortest lane of a prompt in two lanes. -/
def pairMin : ℕ := 64

/-- `x` rounded up to a multiple of `m`. -/
def roundUp (x m : ℕ) : ℕ := (x + m - 1) / m * m

theorem le_roundUp (x : ℕ) {m : ℕ} (hm : 0 < m) : x ≤ roundUp x m := by
  have hlt := Nat.lt_mul_div_succ (x + m - 1) hm
  rw [roundUp, Nat.mul_comm]
  rw [Nat.mul_add, Nat.mul_one] at hlt
  omega

inductive LayerKind where
  | ga
  | swa
  deriving DecidableEq, Repr

/-! ### One layer -/

structure LayerKv where
  kind : LayerKind
  window : ℕ
  cap : ℕ
  /-- The positions of its rows, oldest first. -/
  pos : List ℕ := []

namespace LayerKv

/-- Live rows. -/
def rows (l : LayerKv) : ℕ := l.pos.length

/-- Keep the last `window - 1` rows. -/
def compact (l : LayerKv) : LayerKv :=
  let keep := min l.rows (l.window - 1)
  { l with pos := l.pos.drop (l.rows - keep) }

/-- Make room to append `t` rows. -/
def prepare (l : LayerKv) (t : ℕ) : LayerKv :=
  if l.rows + t ≤ l.cap then l
  else
    match l.kind with
    | .swa =>
      let l := l.compact
      if l.cap < l.rows + t then { l with cap := roundUp (l.rows + t) 64 } else l
    | .ga => { l with cap := max (l.cap + max (l.cap / 8) 4096) (l.rows + t) }

/-- Append the rows of `t` tokens, the first at position `next`. -/
def append (l : LayerKv) (next t : ℕ) : LayerKv :=
  let l := l.prepare t
  { l with pos := l.pos ++ List.range' next t }

/-- Append segments, one after the other. -/
def appendSegs (l : LayerKv) : ℕ → List ℕ → LayerKv
  | _, [] => l
  | next, t :: ts => (l.append next t).appendSegs (next + t) ts

/-- Drop the newest `n` rows. -/
def dropNewest (l : LayerKv) (n : ℕ) : LayerKv := { l with pos := l.pos.take (l.rows - n) }

/-- Back to the size between prefills. -/
def shrink (l : LayerKv) (cap0 : ℕ) : LayerKv :=
  if l.kind = .swa ∧ cap0 < l.cap then { l.compact with cap := cap0 } else l

/-- Grow to a prefill's working set. -/
def reserve (l : LayerKv) (cap : ℕ) : LayerKv :=
  if l.kind = .swa ∧ l.cap < cap then { l with cap := cap } else l

/-- Grow a global layer to `n` rows. -/
def reserveGa (l : LayerKv) (n : ℕ) : LayerKv :=
  if l.cap < n then { l with cap := roundUp n 4096 } else l

/-- The rows a later query can see, as they are saved. -/
def kept (l : LayerKv) (keepMax : ℕ) : List ℕ := l.pos.drop (l.rows - min l.rows keepMax)

end LayerKv

/-! ### The cache -/

/-- The layers of a model. -/
structure Geometry where
  layers : ℕ
  kind : Fin layers → LayerKind
  window : ℕ
  gaCap : ℕ
  maxChunk : ℕ

variable {g : Geometry}

/-- A layer as it is built. -/
def LayerKv.new (g : Geometry) : LayerKind → LayerKv
  | .ga => { kind := .ga, window := 0, cap := g.gaCap }
  | .swa => { kind := .swa, window := g.window, cap := g.window - 1 + swaSlackRows }

structure DeviceKv (g : Geometry) where
  layers : Fin g.layers → LayerKv
  tokens : ℕ := 0
  /-- Sliding-window capacity between prefills. -/
  swaCap0 : ℕ

/-- A saved position: its tokens and the rows kept of every sliding-window layer. -/
structure Saved (g : Geometry) where
  tokens : ℕ
  rows : ℕ
  kept : Fin g.layers → List ℕ

/-- Cut `n` tokens into chunks: their rows. -/
def chunkSpans (n maxChunk : ℕ) (paired : Bool) : List ℕ :=
  if !paired then
    (List.range ((n + maxChunk - 1) / maxChunk)).map fun i => min maxChunk (n - i * maxChunk)
  else
    let c := (n + maxChunk - 1) / maxChunk
    let c := if c % 2 = 1 ∧ 2 * pairMin ≤ n then c + 1 else c
    (List.range c).map fun i => n / c + if i < n % c then 1 else 0

/-- The spans of a prefill, in groups of one a lane. -/
def groups : ℕ → List ℕ → List (List ℕ)
  | 2, a :: b :: spans => [a, b] :: groups 2 spans
  | 2, [a] => [[a]]
  | 2, [] => []
  | _, spans => spans.map fun a => [a]

/-- The rows of each lane's part of one request's block, in a verify pass over `n` requests. -/
def verifySegs (pipelined : Bool) (verifyLanes n len : ℕ) : List ℕ :=
  if !pipelined ∨ verifyLanes = 1 ∨ n ≠ 1 ∨ len < 2 then [len]
  else [(len + 1) / 2, len - (len + 1) / 2]

namespace DeviceKv

/-- A cache as it is built. -/
def new (g : Geometry) : DeviceKv g where
  layers i := LayerKv.new g (g.kind i)
  swaCap0 := g.window - 1 + swaSlackRows

/-- Drop every row. -/
def reset (kv : DeviceKv g) : DeviceKv g :=
  { kv with layers := fun i => { kv.layers i with pos := [] }, tokens := 0 }

/-- Every layer appends the segments, in their order. -/
def appendSegs (kv : DeviceKv g) (segs : List ℕ) : DeviceKv g :=
  { kv with
    layers := fun i => (kv.layers i).appendSegs kv.tokens segs
    tokens := kv.tokens + segs.sum }

/-- A prefill of `n` tokens, group by group. -/
def forward (kv : DeviceKv g) (n : ℕ) (pipelined : Bool) : DeviceKv g :=
  let lanes := if pipelined then 2 else 1
  (groups lanes (chunkSpans n g.maxChunk (lanes = 2))).foldl appendSegs kv

/-- Drop the newest rows back to `to'` tokens. -/
def truncate (kv : DeviceKv g) (to' : ℕ) : Option (DeviceKv g) :=
  if kv.tokens < to' then none
  else
    let drop := kv.tokens - to'
    if ∀ i, drop ≤ (kv.layers i).rows then
      some { kv with layers := fun i => (kv.layers i).dropNewest drop, tokens := to' }
    else none

/-- A verify block of `len` rows in these segments, `acc` of its drafts accepted. -/
def verify (kv : DeviceKv g) (segs : List ℕ) (len acc : ℕ) : Option (DeviceKv g) :=
  if len = 0 ∨ dflashBlock < len ∨ len ≤ acc then none
  else (kv.appendSegs segs).truncate (kv.tokens + acc + 1)

/-- Return the first `n` layers to their size between prefills. -/
def shrinkSwa (kv : DeviceKv g) (n : ℕ) : DeviceKv g :=
  { kv with
    layers := fun i => if i.val < n then (kv.layers i).shrink kv.swaCap0 else kv.layers i }

def swaKeepMax (kv : DeviceKv g) : ℕ :=
  match (List.finRange g.layers).find? fun i => (kv.layers i).kind = .swa with
  | some i => (kv.layers i).window - 1
  | none => 0

/-- Grow the first `n` layers to a prefill's working set. -/
def reserveSwa (kv : DeviceKv g) (n : ℕ) : DeviceKv g :=
  let cap := roundUp (kv.swaKeepMax + g.maxChunk) 64
  { kv with layers := fun i => if i.val < n then (kv.layers i).reserve cap else kv.layers i }

/-- Save the current position. -/
def save (kv : DeviceKv g) : Option (Saved g) :=
  let kept i := (kv.layers i).kept kv.swaKeepMax
  match (List.finRange g.layers).find? fun i => (kv.layers i).kind = .swa with
  | none => some { tokens := kv.tokens, rows := 0, kept := kept }
  | some i₀ =>
    if ∀ i, (kv.layers i).kind = .swa → (kept i).length = (kept i₀).length then
      some { tokens := kv.tokens, rows := (kept i₀).length, kept := kept }
    else none

/-- The sliding-window rows of a saved position. -/
def loadState (kv : DeviceKv g) (s : Saved g) : Option (DeviceKv g) :=
  if kv.swaKeepMax < s.rows then none
  else
    some { kv with
      layers := fun i =>
        match (kv.layers i).kind with
        | .ga => kv.layers i
        | .swa => { kv.layers i with pos := s.kept i } }

/-- Change the global layers, and set the position. -/
def mapGa (kv : DeviceKv g) (f : Fin g.layers → LayerKv → LayerKv) (tokens : ℕ) : DeviceKv g :=
  { kv with
    layers := fun i =>
      match (kv.layers i).kind with
      | .ga => f i (kv.layers i)
      | .swa => kv.layers i
    tokens := tokens }

/-- Keep the first `p` rows of the global layers, and set the position. -/
def rewindGa (kv : DeviceKv g) (p : ℕ) : Option (DeviceKv g) :=
  if ∀ i, (kv.layers i).kind = .ga → p ≤ (kv.layers i).rows then
    some (kv.mapGa (fun _ l => { l with pos := l.pos.take p }) p)
  else none

/-- Back to a position saved from a cache with the same global rows (`Point::load`). -/
def load (kv : DeviceKv g) (s : Saved g) : Option (DeviceKv g) :=
  (kv.rewindGa s.tokens).bind fun kv => kv.loadState s

/-- Start as a copy of the first `n` global rows of `src`. -/
def forkGa (kv src : DeviceKv g) (n : ℕ) : Option (DeviceKv g) :=
  if ∀ i, (kv.layers i).kind = .ga → n ≤ (src.layers i).rows then
    some (kv.mapGa (fun i l => { l.reserveGa n with pos := (src.layers i).pos.take n }) n)
  else none

/-- Load a saved position from the host (`HostCache::restore`): the global rows come with it. -/
def restore (kv : DeviceKv g) (s : Saved g) : Option (DeviceKv g) :=
  (kv.reset.mapGa (fun _ l => { l.reserveGa s.tokens with pos := List.range s.tokens })
    s.tokens).loadState s

end DeviceKv

/-! ### Caches over a run -/

/-- The caches of a server, and the positions saved from them. -/
structure Caches (g : Geometry) where
  kv : ℕ → DeviceKv g := fun _ => DeviceKv.new g
  saved : List (Saved g) := []

/-- An operation on one cache. -/
inductive KvOp where
  | reset
  /-- A prefill segment of `n` tokens. -/
  | forward (n : ℕ) (pipelined : Bool)
  /-- A request's `t` rows of a batched prefill or of a decode step. -/
  | append (t : ℕ)
  /-- A verify block of `len` rows in a pass over `n` requests, then the rejected rows dropped. -/
  | verify (pipelined : Bool) (verifyLanes n len acc : ℕ)
  /-- The first `n` layers are shrunk; the next one fails, if there is one. -/
  | shrinkSwa (n : ℕ)
  | reserveSwa (n : ℕ)
  | save
  /-- Load the `k`-th saved position. -/
  | load (k : ℕ)
  /-- Fork the `k`-th saved position from another cache. -/
  | fork (src k : ℕ)
  | restore (k : ℕ)
  /-- Any other operation fails. -/
  | fail

/-- The cache after an operation; a failed one is reset. -/
def DeviceKv.apply (s : Caches g) (kv : DeviceKv g) (op : KvOp) : DeviceKv g :=
  match op with
  | .reset => kv.reset
  | .forward n pipelined => kv.forward n pipelined
  | .append t => kv.appendSegs [t]
  | .verify pipelined verifyLanes n len acc =>
    (kv.verify (verifySegs pipelined verifyLanes n len) len acc).getD kv.reset
  | .shrinkSwa n => kv.shrinkSwa n
  | .reserveSwa n => kv.reserveSwa n
  | .save => kv
  | .load k => (s.saved[k]?.bind kv.load).getD kv.reset
  | .fork src k =>
    (s.saved[k]?.bind fun p => (kv.reset.forkGa (s.kv src) p.tokens).bind (·.load p)).getD kv.reset
  | .restore k => (s.saved[k]?.bind kv.restore).getD kv.reset
  | .fail => kv.reset

/-- An operation on cache `i`. -/
def cacheStep (s : Caches g) (e : ℕ × KvOp) : Caches g :=
  { kv := Function.update s.kv e.1 ((s.kv e.1).apply s e.2)
    saved :=
      match e.2 with
      | .save => s.saved ++ (s.kv e.1).save.toList
      | _ => s.saved }

end Coordinator

end Mimo26

import Mathlib.Algebra.Ring.Nat
import Mathlib.Data.Int.Notation
import Mimo26.Library.RefPool
import Mimo26.Library.Vec

/-!
# The host cache

Snapshots in host memory (`hostcache.rs`): the global rows of a snapshot in pages that snapshots
share by the hash of the tokens up to the page's end, the rows past its last full page in a page
slot of its own, and its position state in a state slot.

`R` is a row of all global layers, `σ` a position state (the sliding-window rows and the drafter's
rings). The hash of a block of tokens after another block's hash is an argument. A vector used as a
stack is a list with its top first.

The calls of a capture into the device can fail (`CaptureEnv`). An export copies behind the
program's back until the next synchronization; a capture that fails leaves in the slots it wrote
whatever the environment says.

## Main definitions

* `arenaSlots` — the slots of an arena
* `pageChain` — the ids of the full pages of a prompt
* `capture`, `lookup`, `restore` — the operations
* `HostEvent`, `hostStep` — a run
-/

namespace Mimo26

namespace Coordinator

open RefPool Vec

/-- Rows of a page. -/
def kvPageRows : ℕ := 256

/-- The shortest snapshot worth caching. -/
def minTokens : ℕ := 512

/-- Bytes of a slab. -/
def slabBytes : ℕ := 2 ^ 30

/-- A slab and an offset in it. -/
abbrev Slot := ℕ × ℕ

/-- The slots of an arena, the first to be taken first. -/
def arenaSlots (slotBytes slots : ℕ) : List Slot :=
  let perSlab := max (slabBytes / slotBytes) 1
  ((List.range ((slots + perSlab - 1) / perSlab)).flatMap fun s =>
    (List.range (min perSlab (slots - s * perSlab))).reverse.map fun i =>
      (s, i * slotBytes)).reverse

/-- Which bank a snapshot came from. -/
inductive Kind where
  | prompt
  | turn
  deriving DecidableEq, Repr

/-- What is known about the token after a snapshot: the argmax, and the row of logits. -/
structure After where
  greedy : Option ℕ
  logits : Option (List ℤ)

/-- Whether it gives a request its first token. -/
def After.serves (a : After) (sampled : Bool) : Bool :=
  if sampled then a.logits.isSome else a.greedy.isSome

/-- The hash of a block of tokens after a hash. -/
structure Hasher (ι : Type) where
  zero : ι
  block : ι → List ℕ → ι

variable {ι R σ : Type}

/-- The ids of `n` blocks after a hash. -/
def chainFrom (h : Hasher ι) : ι → List ℕ → ℕ → List ι
  | _, _, 0 => []
  | prev, tokens, n + 1 =>
    let id := h.block prev (tokens.take kvPageRows)
    id :: chainFrom h id (tokens.drop kvPageRows) n

/-- The ids of the full pages, in order. -/
def pageChain (h : Hasher ι) (tokens : List ℕ) : List ι :=
  chainFrom h h.zero tokens (tokens.length / kvPageRows)

structure Snapshot (ι : Type) where
  tokens : List ℕ
  /-- The ids of the full pages. -/
  pages : List ι
  /-- The page slot of the rows past the last full page. -/
  tail : Option Slot
  state : Slot
  /-- Sliding-window rows of a layer. -/
  swaRows : ℕ
  after : After
  kind : Kind
  lastUse : ℕ

/-- The global rows of a device cache: it has a row for every token. -/
structure DeviceRows (R : Type) where
  tokens : ℕ
  ga : List R
  le : tokens ≤ ga.length

structure HostCache (ι R σ : Type) where
  /-- The page slots and the shared pages. -/
  pages : Pool ι Slot
  pageData : Slot → ℕ → R
  /-- The free state slots. -/
  states : List Slot
  stateData : Slot → σ
  snaps : List (Snapshot ι) := []
  clock : ℕ := 0

/-- What the calls of a capture into the device do. -/
structure CaptureEnv (R : Type) where
  /-- Whether the export of page `i` succeeds. -/
  export' : ℕ → Bool
  sync : Bool
  copy : Bool
  /-- What a failed capture leaves in the slots it wrote. -/
  garbage : Slot → ℕ → R

/-- Why a capture stops. -/
inductive Stop where
  /-- No slot is left. -/
  | full
  /-- A call into the device failed. -/
  | failed
  deriving DecidableEq, Repr

namespace HostCache

variable [DecidableEq ι]

/-- The snapshot deleted next: the least recently used, a prompt snapshot first. -/
def victim (snaps : List (Snapshot ι)) : Option ℕ :=
  minIdx (fun a b : ℕ × Bool => a.1 < b.1 || (a.1 = b.1 && !a.2 && b.2))
    (fun s : Snapshot ι => (s.lastUse, s.kind == .turn)) snaps

/-- Give up the slots and the references of a snapshot that is no longer listed. -/
def release (c : HostCache ι R σ) (s : Snapshot ι) : HostCache ι R σ :=
  let pages := match s.tail with
    | some t => { c.pages with free := t :: c.pages.free }
    | none => c.pages
  { c with states := s.state :: c.states, pages := pages.dropAll s.pages }

/-- Evict one snapshot, if there is one. -/
def evictOne (c : HostCache ι R σ) : Option (HostCache ι R σ) :=
  match victim c.snaps with
  | none => none
  | some i =>
    match c.snaps[i]? with
    | none => none
    | some s => some (release { c with snaps := swapRemove c.snaps i } s)

/-- Pop a page slot, evicting while there is none; `n` evictions at most. -/
def allocPageLoop : ℕ → HostCache ι R σ → Option Slot × HostCache ι R σ
  | n, c =>
    match c.pages.free with
    | slot :: free => (some slot, { c with pages := { c.pages with free := free } })
    | [] =>
      match n with
      | 0 => (none, c)
      | n + 1 =>
        match c.evictOne with
        | none => (none, c)
        | some c => allocPageLoop n c

def allocPage (c : HostCache ι R σ) : Option Slot × HostCache ι R σ :=
  allocPageLoop c.snaps.length c

/-- Pop a state slot, evicting while there is none; `n` evictions at most. -/
def allocStateLoop : ℕ → HostCache ι R σ → Option Slot × HostCache ι R σ
  | n, c =>
    match c.states with
    | slot :: free => (some slot, { c with states := free })
    | [] =>
      match n with
      | 0 => (none, c)
      | n + 1 =>
        match c.evictOne with
        | none => (none, c)
        | some c => allocStateLoop n c

def allocState (c : HostCache ι R σ) : Option Slot × HostCache ι R σ :=
  allocStateLoop c.snaps.length c

/-- Copy rows `[r0, r0 + n)` into a page slot. -/
def exportPage (c : HostCache ι R σ) (kv : DeviceRows R) (r0 n : ℕ) (slot : Slot) :
    HostCache ι R σ :=
  { c with
    pageData := fun s j =>
      if s = slot ∧ j < n then (kv.ga[r0 + j]?).getD (c.pageData s j) else c.pageData s j }

/-- What a failed capture leaves in the slots it wrote. -/
def garble (c : HostCache ι R σ) (env : CaptureEnv R) (written : List Slot) : HostCache ι R σ :=
  { c with pageData := fun s => if s ∈ written then env.garbage s else c.pageData s }

/-- Where a capture is: the cache, the references taken and the slots written. -/
structure Taken (ι R σ : Type) where
  cache : HostCache ι R σ
  held : List ι := []
  written : List Slot := []

/-- Share or write the full pages, from page `i` on. -/
def capturePages (env : CaptureEnv R) (kv : DeviceRows R) :
    ℕ → List ι → Taken ι R σ → Taken ι R σ × Option Stop
  | _, [], t => (t, none)
  | i, id :: ids, t =>
    match t.cache.pages.find id with
    | some _ =>
      capturePages env kv (i + 1) ids
        { t with
          cache := { t.cache with pages := t.cache.pages.share id }
          held := t.held ++ [id] }
    | none =>
      match t.cache.allocPage with
      | (none, c) => ({ t with cache := c }, some .full)
      | (some slot, c) =>
        if env.export' i ∧ i * kvPageRows + kvPageRows ≤ kv.ga.length then
          let c := c.exportPage kv (i * kvPageRows) kvPageRows slot
          capturePages env kv (i + 1) ids
            { cache := { c with pages := c.pages.insert id slot }
              held := t.held ++ [id]
              written := slot :: t.written }
        else ({ t with cache := c, written := slot :: t.written }, some .failed)

/-- Write the rows past the last full page. -/
def captureTail (env : CaptureEnv R) (kv : DeviceRows R) (n : ℕ) (t : Taken ι R σ) :
    Taken ι R σ × Option Slot × Option Stop :=
  let rem := n % kvPageRows
  if rem = 0 then (t, none, none)
  else
    match t.cache.allocPage with
    | (none, c) => ({ t with cache := c }, none, some .full)
    | (some slot, c) =>
      let t := { t with cache := c, written := slot :: t.written }
      if env.export' (n / kvPageRows) ∧ n ≤ kv.ga.length then
        ({ t with cache := t.cache.exportPage kv (n - rem) rem slot }, some slot, none)
      else (t, none, some .failed)

/-- Drop the references a capture took. -/
def abort (c : HostCache ι R σ) (held : List ι) : HostCache ι R σ :=
  { c with pages := c.pages.dropAll held }

/-- Give back a tail's slot. -/
def freeTail (c : HostCache ι R σ) : Option Slot → HostCache ι R σ
  | none => c
  | some t => { c with pages := { c.pages with free := t :: c.pages.free } }

/-- A snapshot of `tokens` that is held already is in use again. -/
def refresh (after : After) (clock : ℕ) (tokens : List ℕ) :
    List (Snapshot ι) → List (Snapshot ι)
  | [] => []
  | s :: snaps =>
    if s.tokens = tokens then
      { s with
        lastUse := clock
        after :=
          { greedy := s.after.greedy.or after.greedy, logits := s.after.logits.or after.logits } }
        :: snaps
    else s :: refresh after clock tokens snaps

/-- What a capture is called with. -/
structure CaptureArgs (R σ : Type) where
  kv : DeviceRows R
  tokens : List ℕ
  after : After
  kind : Kind
  state : σ
  swaRows : ℕ

/-- Store a snapshot; `some .failed` is an error. -/
def capture (h : Hasher ι) (env : CaptureEnv R) (a : CaptureArgs R σ) (c : HostCache ι R σ) :
    HostCache ι R σ × Option Stop :=
  let n := a.tokens.length
  if n < minTokens ∨ a.kv.tokens < n then (c, none)
  else
    let c := { c with clock := c.clock + 1 }
    if c.snaps.any (·.tokens = a.tokens) then
      ({ c with snaps := refresh a.after c.clock a.tokens c.snaps }, none)
    else
      match capturePages env a.kv 0 (pageChain h a.tokens) { cache := c } with
      | (t, some .full) => (t.cache.abort t.held, some .full)
      | (t, some .failed) => (t.cache.garble env t.written, some .failed)
      | (t, none) =>
        match captureTail env a.kv n t with
        | (t, _, some .full) => (t.cache.abort t.held, some .full)
        | (t, _, some .failed) => (t.cache.garble env t.written, some .failed)
        | (t, tail, none) =>
          if !env.sync then (t.cache.garble env t.written, some .failed)
          else
            match t.cache.allocState with
            | (none, c) => ((c.freeTail tail).abort t.held, some .full)
            | (some slot, c) =>
              if !env.copy then
                ((({ c with states := slot :: c.states }).freeTail tail).abort t.held, some .failed)
              else
                ({ c with
                    stateData := Function.update c.stateData slot a.state
                    snaps := c.snaps ++ [{
                      tokens := a.tokens, pages := t.held, tail := tail, state := slot
                      swaRows := a.swaRows, after := a.after, kind := a.kind
                      lastUse := c.clock }] }, none)

/-- The longest snapshot whose tokens start `prompt`, the first of the longest. -/
def lookup (h : Hasher ι) (c : HostCache ι R σ) (prompt : List ℕ) : Option (ℕ × ℕ) :=
  let chain := pageChain h prompt
  let matches' (s : Snapshot ι) : Bool :=
    let n := s.tokens.length
    let full := n / kvPageRows
    n ≤ prompt.length && s.pages = chain.take full &&
      s.tokens.drop (full * kvPageRows) = (prompt.take n).drop (full * kvPageRows)
  c.snaps.zipIdx.foldl (fun best (s, i) =>
    if matches' s && best.all (·.2 < s.tokens.length) then some (i, s.tokens.length) else best) none

/-- `lookup` for a request: a snapshot of the whole prompt that does not serve it gives way to the
longest shorter one. -/
def lookupFor (h : Hasher ι) (c : HostCache ι R σ) (prompt : List ℕ) (sampled : Bool) :
    Option (ℕ × ℕ) :=
  match c.lookup h prompt with
  | some (i, n) =>
    if n = prompt.length ∧ ((c.snaps[i]?).all fun s => !s.after.serves sampled) then
      c.lookup h (prompt.take (prompt.length - 1))
    else some (i, n)
  | none => none

/-- What a restore loads. -/
structure Restored (R σ : Type) where
  tokens : ℕ
  ga : List R
  state : σ
  swaRows : ℕ
  after : After
  kind : Kind

/-- The first `n` rows of a page slot. -/
def pageRows (c : HostCache ι R σ) (slot : Slot) (n : ℕ) : List R :=
  (List.range n).map (c.pageData slot)

/-- Load snapshot `i`, unless a page is missing or the device fails. -/
def restore (c : HostCache ι R σ) (i : ℕ) (device : Bool) :
    HostCache ι R σ × Option (Restored R σ) :=
  match c.snaps[i]? with
  | none => (c, none)
  | some s =>
    let c := { c with
      clock := c.clock + 1, snaps := c.snaps.set i { s with lastUse := c.clock + 1 } }
    let n := s.tokens.length
    match s.pages.mapM c.pages.find with
    | none => (c, none)
    | some pages =>
      let ga := pages.flatMap (fun p => c.pageRows p.slot kvPageRows) ++
        (match s.tail with
          | some t => c.pageRows t (n % kvPageRows)
          | none => [])
      if device then
        (c, some { tokens := n, ga := ga, state := c.stateData s.state, swaRows := s.swaRows
                   after := s.after, kind := s.kind })
      else (c, none)

end HostCache

/-! ### Runs -/

/-- The sizes of the arenas. -/
structure HostSizes where
  pageBytes : ℕ
  stateBytes : ℕ
  pages : ℕ
  states : ℕ
  pageBytes_pos : 0 < pageBytes
  stateBytes_pos : 0 < stateBytes

/-- An empty cache, whatever its memory holds. -/
def HostCache.new (sz : HostSizes) (pageData : Slot → ℕ → R) (stateData : Slot → σ) :
    HostCache ι R σ where
  pages := { free := arenaSlots sz.pageBytes sz.pages }
  pageData := pageData
  states := arenaSlots sz.stateBytes sz.states
  stateData := stateData

inductive HostEvent (R σ : Type) where
  | capture (env : CaptureEnv R) (a : HostCache.CaptureArgs R σ)
  | restore (i : ℕ) (device : Bool)

def hostStep [DecidableEq ι] (h : Hasher ι) (c : HostCache ι R σ) :
    HostEvent R σ → HostCache ι R σ
  | .capture env a => (c.capture h env a).1
  | .restore i device => (c.restore i device).1

end Coordinator

end Mimo26

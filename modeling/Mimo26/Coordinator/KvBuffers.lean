import Mimo26.Coordinator.DeviceKv
import Mimo26.Coordinator.HostCache
import Mimo26.Library.Fallible
import Mimo26.Library.Runs

/-!
# The buffers of a device cache

The same cache (`DeviceKv` in `dforward.rs`) by the sizes of its buffers: every layer has a key, a
value and a position buffer and a capacity in rows, and each operation checks rows against the
capacity before it writes. Any device call may fail, and the caller goes on with the cache as the
failed operation left it.

Growing a layer, and shrinking a sliding-window layer, allocates all three buffers before it
replaces the old ones and the capacity. Shrinking a global layer replaces them one by one and the
capacity last, so a failed allocation in between leaves a small buffer under the old capacity.

## Main definitions

* `LayerKv`, `DeviceKv`, `Plane`, `DeviceCall` — buffers, and the device calls that may fail
* `prepare`, `shrinkGa`, `shrinkSwa`, `reserveGa`, `forkGa`, … — the operations
* `LayerKv.Fits` — the buffers hold the capacity, the capacity holds the rows
* `Torn` — a shrink of the global layers fails between two buffers of one layer

## Main results

* `Sound.step`, `fits_run_iff` — the buffers fit throughout exactly the runs without a torn shrink
* `append_fits` — then every append writes inside its buffers
* `not_fits_tornShrink` — a torn shrink leaves a key buffer smaller than its capacity
-/

namespace Mimo26

namespace Coordinator

namespace KvBuffers

open Fallible Runs

/-! ### State -/

/-- The three buffers of a layer. -/
inductive Plane where
  | k
  | v
  | pos
  deriving DecidableEq, Repr

/-- A call into the device for layer `i`. -/
inductive DeviceCall where
  | alloc (i : ℕ) (b : Plane)
  | copy (i : ℕ) (b : Plane)
  /-- The two copies of a compaction, through the staging buffer. -/
  | compact (i : ℕ) (b : Plane) (back : Bool)
  /-- The kernels that write appended rows. -/
  | store (i : ℕ)
  deriving DecidableEq, Repr

/-- Which calls fail. -/
abbrev Device := DeviceCall → Bool

inductive KvError where
  | cuda (call : DeviceCall)
  | refused (text : String)
  deriving DecidableEq, Repr

/-- One layer: the sizes of its buffers in bytes. -/
structure LayerKv where
  kind : LayerKind
  rowK : ℕ
  rowV : ℕ
  window : ℕ
  cap : ℕ
  rows : ℕ
  k : ℕ
  v : ℕ
  pos : ℕ
  deriving DecidableEq, Repr

structure DeviceKv where
  layers : List LayerKv
  tokens : ℕ
  maxChunk : ℕ
  gaCap0 : ℕ
  swaCap0 : ℕ
  deriving DecidableEq, Repr

/-- The layers of a model: their kinds, and the bytes of a key and of a value row. -/
structure Config where
  layers : List (LayerKind × ℕ × ℕ)
  slidingWindow : ℕ
  rowK_pos : ∀ x ∈ layers, 0 < x.2.1

/-- A layer as it is built. -/
def LayerKv.new (cfg : Config) (gaCap : ℕ) : LayerKind × ℕ × ℕ → LayerKv
  | (kind, rowK, rowV) =>
    let (window, cap) :=
      match kind with
      | .ga => (0, gaCap)
      | .swa => (cfg.slidingWindow, cfg.slidingWindow - 1 + swaSlackRows)
    { kind := kind, rowK := rowK, rowV := rowV, window := window, cap := cap, rows := 0
      k := cap * rowK, v := cap * rowV, pos := cap * 8 }

/-- A cache as it is built. -/
def DeviceKv.new (cfg : Config) (gaCap maxChunk : ℕ) : DeviceKv where
  layers := cfg.layers.map (LayerKv.new cfg gaCap)
  tokens := 0
  maxChunk := maxChunk
  gaCap0 := gaCap
  swaCap0 := cfg.slidingWindow - 1 + swaSlackRows

abbrev Layer := EStateM KvError LayerKv
abbrev Kv := EStateM KvError DeviceKv

/-- A device call. -/
def call {σ : Type} (dev : Device) (c : DeviceCall) : EStateM KvError σ Unit :=
  check (!dev c) (.cuda c)

/-- A step of one layer, in a loop over them. -/
def onNext (body : ℕ → Layer Unit) (i : ℕ) : EStateM KvError (LayerKv × Unit) Unit := fun x =>
  match body i x.1 with
  | .ok () l => .ok () (l, ())
  | .error e l => .error e (l, ())

/-- `for l in layers.iter_mut() { body? }` -/
def forLayers (body : ℕ → Layer Unit) : Kv Unit := fun kv =>
  match each (onNext body) 0 kv.layers () with
  | .ok () (ls, ()) => .ok () { kv with layers := ls }
  | .error e (ls, ()) => .error e { kv with layers := ls }

/-- Device calls, up to the first that fails. -/
def calls {σ : Type} (dev : Device) (cs : List DeviceCall) : EStateM KvError σ Unit :=
  cs.forM (call dev)

/-- The same call for each of the three buffers. -/
def forPlanes {σ : Type} (dev : Device) (c : Plane → DeviceCall) : EStateM KvError σ Unit :=
  calls dev [c .k, c .v, c .pos]

/-! ### Growing and shrinking -/

/-- Replace the buffers of a layer by buffers of `cap` rows. -/
def LayerKv.resize (l : LayerKv) (cap : ℕ) : LayerKv :=
  { l with k := cap * l.rowK, v := cap * l.rowV, pos := cap * 8, cap := cap }

/-- Reallocate layer `i` to `cap` rows, keeping its rows (`grow_ga`, `grow_swa`). -/
def grow (dev : Device) (i cap : ℕ) : Layer Unit := do
  forPlanes dev (.alloc i)
  forPlanes dev (.copy i)
  modify (·.resize cap)

/-- Drop every row. -/
def DeviceKv.reset (kv : DeviceKv) : DeviceKv :=
  { kv with layers := kv.layers.map fun l => { l with rows := 0 }, tokens := 0 }

/-- Shrink a grown global layer: the buffers one by one, and the capacity last. -/
def shrinkLayer (dev : Device) (gaCap0 i : ℕ) : Layer Unit := do
  let l ← get
  if l.kind = .ga ∧ gaCap0 < l.cap then
    call dev (.alloc i .k)
    modify fun l => { l with k := gaCap0 * l.rowK }
    call dev (.alloc i .v)
    modify fun l => { l with v := gaCap0 * l.rowV }
    call dev (.alloc i .pos)
    modify fun l => { l with pos := gaCap0 * 8 }
    modify fun l => { l with cap := gaCap0 }

/-- Give back the global memory grown past the build capacity. -/
def shrinkGa (dev : Device) : Kv Unit := do
  modify DeviceKv.reset
  let kv ← get
  forLayers (shrinkLayer dev kv.gaCap0)

/-- Return the sliding-window layers to their size between prefills. -/
def shrinkSwa (dev : Device) : Kv Unit := do
  let kv ← get
  forLayers fun i => do
    let l ← get
    if l.kind = .swa ∧ kv.swaCap0 < l.cap then
      let keep := min l.rows (l.window - 1)
      forPlanes dev (.alloc i)
      forPlanes dev (.copy i)
      modify fun l => { l.resize kv.swaCap0 with rows := keep }

/-- Grow every global layer to hold `rows` rows. -/
def reserveGa (dev : Device) (rows : ℕ) : Kv Unit :=
  forLayers fun i => do
    let l ← get
    if l.kind = .ga ∧ l.cap < rows then grow dev i (roundUp rows 4096)

def DeviceKv.swaKeepMax (kv : DeviceKv) : ℕ :=
  match kv.layers.find? fun l => l.kind = .swa with
  | some l => l.window - 1
  | none => 0

/-- Grow every sliding-window layer to a prefill's working set. -/
def reserveSwa (dev : Device) : Kv Unit := do
  let kv ← get
  let cap := roundUp (kv.swaKeepMax + kv.maxChunk) 64
  forLayers fun i => do
    let l ← get
    if l.kind = .swa ∧ l.cap < cap then grow dev i cap

/-- Make room to append `t` rows to layer `i`. -/
def prepare (dev : Device) (i t : ℕ) : Layer Unit := do
  let l ← get
  if l.rows + t ≤ l.cap then pure ()
  else
    match l.kind with
    | .swa => do
      calls dev ([Plane.k, .v, .pos].flatMap fun b => [.compact i b false, .compact i b true])
      let keep := min l.rows (l.window - 1)
      modify fun l => { l with rows := keep }
      if l.cap < keep + t then grow dev i (roundUp (keep + t) 64)
    | .ga => grow dev i (max (l.cap + max (l.cap / 8) 4096) (l.rows + t))

/-! ### Rows -/

/-- Append `t` rows to layer `i`. -/
def append (dev : Device) (i t : ℕ) : Layer Unit := do
  prepare dev i t
  call dev (.store i)
  modify fun l => { l with rows := l.rows + t }

/-- An operation on layer `i`, when there is one. -/
def onLayer (i : ℕ) (m : Layer Unit) : Kv Unit := fun kv =>
  match kv.layers[i]? with
  | none => .ok () kv
  | some l =>
    match m l with
    | .ok () l' => .ok () { kv with layers := kv.layers.set i l' }
    | .error e l' => .error e { kv with layers := kv.layers.set i l' }

/-- Append `n` rows from a host page to every global layer. -/
def importGaPage (dev : Device) (n : ℕ) : Kv Unit := do
  check (n ≤ kvPageRows) (.refused "import_ga_page")
  forLayers fun i => do
    let l ← get
    if l.kind = .ga then
      prepare dev i n
      call dev (.copy i .k)
      call dev (.copy i .v)
      modify fun l => { l with rows := l.rows + n }

/-- Load a state of `rows` rows into every sliding-window layer (`import_swa`, `load_state_dev`). -/
def importSwa (dev : Device) (rows : ℕ) : Kv Unit := do
  let kv ← get
  check (rows ≤ kv.swaKeepMax) (.refused "import_swa")
  forLayers fun i => do
    let l ← get
    if l.kind = .swa then
      forPlanes dev (.copy i)
      modify fun l => { l with rows := rows }

/-- Drop the newest rows back to `to'` tokens. -/
def truncate (to' : ℕ) : Kv Unit := do
  let kv ← get
  check (to' ≤ kv.tokens) (.refused "truncate")
  let drop := kv.tokens - to'
  forLayers fun _ => do
    let l ← get
    check (drop ≤ l.rows) (.refused "truncate: layer")
    modify fun l => { l with rows := l.rows - drop }
  modify fun kv => { kv with tokens := to' }

/-- Keep the first `p` rows of the global layers. -/
def rewindGa (p : ℕ) : Kv Unit := do
  forLayers fun _ => do
    let l ← get
    if l.kind = .ga then
      check (p ≤ l.rows) (.refused "rewind_ga")
      modify fun l => { l with rows := p }
  modify fun kv => { kv with tokens := p }

/-- Start as a copy of the first `n` global rows of `src`. -/
def forkGa (dev : Device) (src : DeviceKv) (n : ℕ) : Kv Unit := do
  reserveGa dev n
  forLayers fun i => do
    let l ← get
    match src.layers[i]? with
    | none => pure ()
    | some s =>
      if l.kind = .ga then
        check (n ≤ s.rows ∧ n ≤ l.cap) (.refused "fork_ga")
        forPlanes dev (.copy i)
        modify fun l => { l with rows := n }
  modify fun kv => { kv with tokens := n }

/-! ### Runs -/

/-- An operation of one cache. -/
inductive KvOp where
  | reset
  | setTokens (n : ℕ)
  | truncate (to' : ℕ)
  | shrinkGa
  | shrinkSwa
  | reserveGa (rows : ℕ)
  | reserveSwa
  | prepare (i t : ℕ)
  | append (i t : ℕ)
  | importGaPage (n : ℕ)
  | importSwa (rows : ℕ)
  | rewindGa (p : ℕ)
  /-- The source is another of the caches. -/
  | forkGa (src n : ℕ)
  deriving DecidableEq, Repr

/-- The operation, with the other caches for the source of a fork. -/
def KvOp.run (kvs : ℕ → DeviceKv) (dev : Device) : KvOp → Kv Unit
  | .reset => modify DeviceKv.reset
  | .setTokens n => modify fun kv => { kv with tokens := n }
  | .truncate to' => KvBuffers.truncate to'
  | .shrinkGa => KvBuffers.shrinkGa dev
  | .shrinkSwa => KvBuffers.shrinkSwa dev
  | .reserveGa rows => KvBuffers.reserveGa dev rows
  | .reserveSwa => KvBuffers.reserveSwa dev
  | .prepare i t => onLayer i (KvBuffers.prepare dev i t)
  | .append i t => onLayer i (KvBuffers.append dev i t)
  | .importGaPage n => KvBuffers.importGaPage dev n
  | .importSwa rows => KvBuffers.importSwa dev rows
  | .rewindGa p => KvBuffers.rewindGa p
  | .forkGa src n => KvBuffers.forkGa dev (kvs src) n

/-- An operation of one of the caches, and the device calls that fail during it. -/
structure KvEvent where
  cache : ℕ
  op : KvOp
  dev : Device

/-- The caches after an operation, as it left them, whether or not it failed. -/
def kvStep (kvs : ℕ → DeviceKv) (e : KvEvent) : ℕ → DeviceKv :=
  Function.update kvs e.cache
    (match e.op.run kvs e.dev (kvs e.cache) with
    | .ok _ kv => kv
    | .error _ kv => kv)

/-! ### The promise -/

/-- The buffers hold at least `cap` rows, and the rows are at most `cap`. -/
structure LayerKv.Fits (l : LayerKv) : Prop where
  k : l.cap * l.rowK ≤ l.k
  v : l.cap * l.rowV ≤ l.v
  pos : l.cap * 8 ≤ l.pos
  rows : l.rows ≤ l.cap

/-- A shrink of the layers from `i` on gets to a grown global layer whose key buffer it replaces and
whose value or position buffer it then fails to allocate. -/
def TornFrom (dev : Device) (gaCap0 : ℕ) : ℕ → List LayerKv → Prop
  | _, [] => False
  | i, l :: ls =>
    if l.kind = .ga ∧ gaCap0 < l.cap then
      dev (.alloc i .k) = false ∧ (dev (.alloc i .v) = true ∨ dev (.alloc i .pos) = true ∨
        TornFrom dev gaCap0 (i + 1) ls)
    else TornFrom dev gaCap0 (i + 1) ls

/-- The operation is a shrink of the global layers that fails between two buffers of one layer. -/
def Torn (kvs : ℕ → DeviceKv) (e : KvEvent) : Prop :=
  e.op = .shrinkGa ∧ TornFrom e.dev (kvs e.cache).gaCap0 0 (kvs e.cache).layers

/-! ### Layers -/

/-- What holds of every layer of a cache with sliding window `w`. -/
structure Sound (w : ℕ) (l : LayerKv) : Prop extends l.Fits where
  window : l.kind = .swa → l.window = w ∧ w - 1 ≤ l.cap
  rowK_pos : 0 < l.rowK

variable {w : ℕ} {l : LayerKv} {dev : Device} {i : ℕ}

theorem Sound.setRows (h : Sound w l) {rows : ℕ} (hrows : rows ≤ l.cap) :
    Sound w { l with rows := rows } :=
  ⟨⟨h.k, h.v, h.pos, hrows⟩, h.window, h.rowK_pos⟩

theorem Sound.resize (h : Sound w l) {cap : ℕ} (hrows : l.rows ≤ cap)
    (hw : l.kind = .swa → w - 1 ≤ cap) : Sound w (l.resize cap) :=
  ⟨⟨le_rfl, le_rfl, le_rfl, hrows⟩, fun hk => ⟨(h.window hk).1, hw hk⟩, h.rowK_pos⟩

theorem calls_triple {σ : Type} {P : σ → Prop} (cs : List DeviceCall) :
    Triple P (calls dev cs) (fun _ => P) P :=
  .forM fun _ _ => .check (fun _ _ h => h) fun _ _ h => h

theorem grow_triple (cap : ℕ) :
    Triple (fun s => s = l) (grow dev i cap) (fun _ s => s = l.resize cap) (fun s => s = l) :=
  .bind (calls_triple _) fun _ => .bind (calls_triple _) fun _ => .modify fun s hs => by rw [hs]

/-- **Room.** After it the rows fit; when it fails the layer is sound. -/
theorem prepare_triple (t : ℕ) :
    Triple (Sound w) (prepare dev i t) (fun _ s => Sound w s ∧ s.rows + t ≤ s.cap) (Sound w) := by
  refine .get_bind fun a h => ?_
  refine .ite (fun hfits => .pure fun s hs => ?_) fun hfull => ?_
  · rw [hs]
    exact ⟨h, hfits⟩
  cases hkind : a.kind with
  | swa =>
    obtain ⟨hwindow, hcap⟩ := h.window hkind
    refine .bind (Q := fun _ s => s = a) ((calls_triple _).weaken (fun _ h => h) (fun _ _ h => h)
      fun s hs => by rw [hs]; exact h) fun _ => ?_
    have hkeep : min a.rows (a.window - 1) ≤ a.cap := le_trans (Nat.min_le_left _ _) h.rows
    have hkept := h.setRows hkeep
    refine .bind (Q := fun _ s => s = { a with rows := min a.rows (a.window - 1) })
      (.modify fun s hs => by rw [hs]) fun _ => ?_
    refine .ite (fun hgrow => ?_) fun hroom => .pure fun s hs => ?_
    · have hround := le_roundUp (min a.rows (a.window - 1) + t) (m := 64) (by decide)
      refine (grow_triple _).weaken (fun _ h => h) (fun _ s hs => ?_) fun s hs => ?_
      · rw [hs]
        refine ⟨hkept.resize (by show min _ _ ≤ _; omega) fun _ => by omega, ?_⟩
        exact hround
      · rw [hs]
        exact hkept
    · rw [hs]
      exact ⟨hkept, Nat.not_lt.mp hroom⟩
  | ga =>
    refine (grow_triple _).weaken (fun _ h => h) (fun _ s hs => ?_) fun s hs => ?_
    · rw [hs]
      have hmax := Nat.le_max_right (a.cap + max (a.cap / 8) 4096) (a.rows + t)
      refine ⟨h.resize (by omega) fun hk => ?_, hmax⟩
      rw [hkind] at hk
      exact absurd hk (by decide)
    · rw [hs]
      exact h

theorem append_triple (t : ℕ) :
    Triple (Sound w) (append dev i t) (fun _ => Sound w) (Sound w) := by
  refine .bind (prepare_triple t) fun _ => ?_
  refine .bind (Q := fun _ s => Sound w s ∧ s.rows + t ≤ s.cap)
    (.check (fun _ _ h => h) fun _ _ h => h.1) fun _ => .modify fun s hs => hs.1.setRows hs.2

/-- **An append writes inside its buffers**: the rows it writes end before the buffers do. -/
theorem append_fits (h : Sound w l) (t : ℕ) {l' : LayerKv} (happ : append dev i t l = .ok () l') :
    l'.rows * l'.rowK ≤ l'.k ∧ l'.rows * l'.rowV ≤ l'.v ∧ l'.rows * 8 ≤ l'.pos := by
  have hs := @append_triple w dev i t l h
  rw [happ] at hs
  have hs : Sound w l' := hs
  exact ⟨le_trans (Nat.mul_le_mul_right _ hs.rows) hs.k,
    le_trans (Nat.mul_le_mul_right _ hs.rows) hs.v,
      le_trans (Nat.mul_le_mul_right _ hs.rows) hs.pos⟩

/-! ### Caches -/

/-- What holds of every cache of a run. -/
structure DeviceKv.Sound (w : ℕ) (kv : DeviceKv) : Prop where
  layers : ∀ l ∈ kv.layers, KvBuffers.Sound w l
  swaCap0 : kv.swaCap0 = w - 1 + swaSlackRows

theorem forLayers_triple {C : LayerKv → Prop} {body : ℕ → Layer Unit} {K : DeviceKv → Prop}
    (hbody : ∀ i, Triple C (body i) (fun _ => C) C)
    (hK : ∀ kv ls, K kv → K { kv with layers := ls }) :
    Triple (fun kv => K kv ∧ ∀ l ∈ kv.layers, C l) (forLayers body)
      (fun _ kv => K kv ∧ ∀ l ∈ kv.layers, C l) (fun kv => K kv ∧ ∀ l ∈ kv.layers, C l) := by
  have hnext (i : ℕ) : Triple (fun x : LayerKv × Unit => C x.1 ∧ True) (onNext body i)
      (fun _ x => C x.1 ∧ True) (fun x => True ∧ C x.1) := by
    rintro ⟨l, u⟩ ⟨hl, -⟩
    have hpost := hbody i l hl
    rw [onNext]
    cases hres : body i l with
    | ok u' l' =>
      rw [hres] at hpost
      exact ⟨hpost, trivial⟩
    | error e l' =>
      rw [hres] at hpost
      exact ⟨trivial, hpost⟩
  rintro kv ⟨hkv, hls⟩
  have hloop := each_triple (I := fun _ => True) (D := C) hnext (fun _ _ h => h) (fun _ _ h => h)
    (i := 0) (t := ()) hls trivial
  rw [forLayers]
  cases hres : each (onNext body) 0 kv.layers () with
  | ok u x =>
    rw [hres] at hloop
    exact ⟨hK _ _ hkv, hloop.1⟩
  | error e x =>
    rw [hres] at hloop
    exact ⟨hK _ _ hkv, hloop.2⟩

/-- A loop whose body keeps every layer sound. -/
theorem forLayers_sound {body : ℕ → Layer Unit}
    (hbody : ∀ i, Triple (Sound w) (body i) (fun _ => Sound w) (Sound w)) :
    Triple (DeviceKv.Sound w) (forLayers body) (fun _ => DeviceKv.Sound w) (DeviceKv.Sound w) :=
  (forLayers_triple (K := fun kv => kv.swaCap0 = w - 1 + swaSlackRows) hbody
    fun _ _ h => h).weaken (fun _ h => ⟨h.swaCap0, h.layers⟩) (fun _ _ h => ⟨h.2, h.1⟩)
    fun _ h => ⟨h.2, h.1⟩

theorem DeviceKv.Sound.reset {kv : DeviceKv} (h : kv.Sound w) : kv.reset.Sound w := by
  refine ⟨fun l hl => ?_, h.swaCap0⟩
  obtain ⟨l', hl', rfl⟩ := List.mem_map.mp hl
  exact (h.layers l' hl').setRows (Nat.zero_le _)

theorem DeviceKv.Sound.swaKeepMax_le {kv : DeviceKv} (h : kv.Sound w) : kv.swaKeepMax ≤ w - 1 := by
  rw [swaKeepMax]
  split
  · next l hfind =>
    have hkind : l.kind = .swa := by simpa using List.find?_some hfind
    rw [((h.layers l (List.mem_of_find?_eq_some hfind)).window hkind).1]
  · exact Nat.zero_le _

/-- A layer of a kind grows, the others are left alone. -/
theorem growIf_triple {p : LayerKv → Prop} [DecidablePred p] (cap : ℕ)
    (hp : ∀ l, p l → l.cap ≤ cap) :
    Triple (Sound w) (do
      let l ← get
      if p l then grow dev i cap) (fun _ => Sound w) (Sound w) := by
  refine .get_bind fun a h => ?_
  refine .ite (fun hpa => ?_) fun _ => .pure fun s hs => by rw [hs]; exact h
  refine (grow_triple _).weaken (fun _ h => h) (fun _ s hs => ?_) fun s hs => by rw [hs]; exact h
  rw [hs]
  exact h.resize (le_trans h.rows (hp a hpa)) fun hk => le_trans (h.window hk).2 (hp a hpa)

theorem reserveGa_sound (rows : ℕ) :
    Triple (DeviceKv.Sound w) (reserveGa dev rows) (fun _ => DeviceKv.Sound w)
        (DeviceKv.Sound w) := by
  refine forLayers_sound fun i => growIf_triple _ fun l hl => ?_
  exact le_trans hl.2.le (le_roundUp rows (by decide))

theorem reserveSwa_sound :
    Triple (DeviceKv.Sound w) (reserveSwa dev) (fun _ => DeviceKv.Sound w) (DeviceKv.Sound w) := by
  refine .bind (Q := fun _ => DeviceKv.Sound w) (.get fun _ h => h) fun kv => ?_
  exact forLayers_sound fun i => growIf_triple _ fun l hl => hl.2.le

theorem shrinkSwa_sound :
    Triple (DeviceKv.Sound w) (shrinkSwa dev) (fun _ => DeviceKv.Sound w) (DeviceKv.Sound w) := by
  refine .bind (Q := fun a s => a.swaCap0 = w - 1 + swaSlackRows ∧ DeviceKv.Sound w s)
    (.get fun _ h => ⟨h.swaCap0, h⟩) fun kv => .of_pure fun hcap => forLayers_sound fun i => ?_
  refine .get_bind fun a h => ?_
  refine .ite (fun hgrown => ?_) fun _ => .pure fun s hs => by rw [hs]; exact h
  have herr : ∀ s, s = a → Sound w s := fun s hs => by rw [hs]; exact h
  refine .bind (Q := fun _ s => s = a)
    ((calls_triple _).weaken (fun _ h => h) (fun _ _ h => h) herr)
    fun _ => ?_
  refine .bind (Q := fun _ s => s = a)
    ((calls_triple _).weaken (fun _ h => h) (fun _ _ h => h) herr)
    fun _ => .modify fun s hs => ?_
  obtain ⟨hwindow, hle⟩ := h.window hgrown.1
  have hkeep : min a.rows (a.window - 1) ≤ kv.swaCap0 := by omega
  rw [hs]
  have hkept := h.setRows (le_trans hkeep hgrown.2.le)
  have hcap : w - 1 ≤ kv.swaCap0 := by omega
  exact hkept.resize hkeep fun _ => hcap

theorem importGaPage_sound (n : ℕ) :
    Triple (DeviceKv.Sound w) (importGaPage dev n) (fun _ => DeviceKv.Sound w)
        (DeviceKv.Sound w) := by
  refine .bind (Q := fun _ => DeviceKv.Sound w) (.check (fun _ _ h => h) fun _ _ h => h) fun _ =>
    forLayers_sound fun i => ?_
  refine .get_bind fun a h => ?_
  refine .ite (fun _ => ?_) fun _ => .pure fun s hs => by rw [hs]; exact h
  refine .bind ((prepare_triple n).pre fun s hs => by rw [hs]; exact h) fun _ => ?_
  refine .bind (Q := fun _ s => Sound w s ∧ s.rows + n ≤ s.cap)
    (.check (fun _ _ h => h) fun _ _ h => h.1) fun _ => ?_
  exact .bind (Q := fun _ s => Sound w s ∧ s.rows + n ≤ s.cap)
    (.check (fun _ _ h => h) fun _ _ h => h.1) fun _ => .modify fun s hs => hs.1.setRows hs.2

theorem importSwa_sound (rows : ℕ) :
    Triple (DeviceKv.Sound w) (importSwa dev rows) (fun _ => DeviceKv.Sound w)
        (DeviceKv.Sound w) := by
  refine .bind (Q := fun a s => a.swaKeepMax ≤ w - 1 ∧ DeviceKv.Sound w s)
    (.get fun _ h => ⟨h.swaKeepMax_le, h⟩) fun kv => .of_pure fun hkeep => ?_
  refine .bind (.guard fun _ h => h) fun _ => .of_pure fun hrows => forLayers_sound fun i => ?_
  refine .get_bind fun a h => ?_
  refine .ite (fun hkind => ?_) fun _ => .pure fun s hs => by rw [hs]; exact h
  refine .bind (Q := fun _ s => s = a) ((calls_triple _).weaken (fun _ h => h) (fun _ _ h => h)
    fun s hs => by rw [hs]; exact h) fun _ => .modify fun s hs => ?_
  rw [hs]
  exact h.setRows (le_trans hrows (le_trans hkeep (h.window hkind).2))

theorem truncate_sound (to' : ℕ) :
    Triple (DeviceKv.Sound w) (truncate to') (fun _ => DeviceKv.Sound w) (DeviceKv.Sound w) := by
  refine .bind (Q := fun _ => DeviceKv.Sound w) (.get fun _ h => h) fun kv => ?_
  refine .bind (Q := fun _ => DeviceKv.Sound w) (.check (fun _ _ h => h) fun _ _ h => h) fun _ => ?_
  refine .bind (forLayers_sound fun i => ?_) fun _ => .modify fun s hs => ⟨hs.layers, hs.swaCap0⟩
  refine .bind (Q := fun _ => Sound w) (.get fun _ h => h) fun l => ?_
  refine .bind (Q := fun _ => Sound w) (.check (fun _ _ h => h) fun _ _ h => h) fun _ =>
    .modify fun s hs => hs.setRows (le_trans (Nat.sub_le _ _) hs.rows)

theorem rewindGa_sound (p : ℕ) :
    Triple (DeviceKv.Sound w) (rewindGa p) (fun _ => DeviceKv.Sound w) (DeviceKv.Sound w) := by
  refine .bind (forLayers_sound fun i => ?_) fun _ => .modify fun s hs => ⟨hs.layers, hs.swaCap0⟩
  refine .get_bind fun a h => ?_
  refine .ite (fun _ => ?_) fun _ => .pure fun s hs => by rw [hs]; exact h
  refine .bind (Q := fun _ s => p ≤ a.rows ∧ s = a)
    (.guard fun s hs => by rw [hs]; exact h) fun _ =>
    .modify fun s hs => ?_
  rw [hs.2]
  exact h.setRows (le_trans hs.1 h.rows)

theorem forkGa_sound (src : DeviceKv) (n : ℕ) :
    Triple (DeviceKv.Sound w) (forkGa dev src n) (fun _ => DeviceKv.Sound w)
        (DeviceKv.Sound w) := by
  refine .bind (reserveGa_sound n) fun _ => ?_
  refine .bind (forLayers_sound fun i => ?_) fun _ => .modify fun s hs => ⟨hs.layers, hs.swaCap0⟩
  refine .get_bind fun a h => ?_
  have herr : ∀ s, s = a → Sound w s := fun s hs => by rw [hs]; exact h
  split
  · exact .pure herr
  · next src' hsrc =>
    refine .ite (fun _ => ?_) fun _ => .pure herr
    refine .bind (.guard herr) fun _ => .of_pure fun hn => ?_
    refine .bind (Q := fun _ s => s = a)
      ((calls_triple _).weaken (fun _ h => h) (fun _ _ h => h) herr)
      fun _ => .modify fun s hs => ?_
    rw [hs]
    exact h.setRows hn.2

theorem onLayer_sound {m : Layer Unit} (hm : Triple (Sound w) m (fun _ => Sound w) (Sound w)) :
    Triple (DeviceKv.Sound w) (onLayer i m) (fun _ => DeviceKv.Sound w) (DeviceKv.Sound w) := by
  intro kv h
  have hset {l' : LayerKv} (hl' : Sound w l') :
      DeviceKv.Sound w { kv with layers := kv.layers.set i l' } := by
    refine ⟨fun l hl => ?_, h.swaCap0⟩
    obtain hl | rfl := List.mem_or_eq_of_mem_set hl
    · exact h.layers l hl
    · exact hl'
  rw [onLayer]
  cases hi : kv.layers[i]? with
  | none => exact h
  | some l =>
    have hpost := hm l (h.layers l (List.mem_of_getElem? hi))
    dsimp only
    cases hres : m l with
    | ok u l' =>
      rw [hres] at hpost
      exact hset hpost
    | error e l' =>
      rw [hres] at hpost
      exact hset hpost

/-! ### A shrink of the global layers -/

theorem shrinkLayer_eq (dev : Device) (gaCap0 i : ℕ) (l : LayerKv) :
    shrinkLayer dev gaCap0 i l =
      if l.kind = .ga ∧ gaCap0 < l.cap then
        if dev (.alloc i .k) then .error (.cuda (.alloc i .k)) l
        else if dev (.alloc i .v) then .error (.cuda (.alloc i .v)) { l with k := gaCap0 * l.rowK }
        else if dev (.alloc i .pos) then
          .error (.cuda (.alloc i .pos)) { l with k := gaCap0 * l.rowK, v := gaCap0 * l.rowV }
        else .ok () (l.resize gaCap0)
      else .ok () l := by
  show (if l.kind = .ga ∧ gaCap0 < l.cap then _ else _ : Layer Unit) l = _
  split
  · cases hk : dev (.alloc i .k) <;> cases hv : dev (.alloc i .v) <;>
      cases hp : dev (.alloc i .pos) <;> simp [call, check, hk, hv, hp] <;> rfl
  · rfl

/-- A shrink that is not torn passes a layer with all three buffers replaced, or stops before the
first. -/
theorem shrinkEach_sound {gaCap0 : ℕ} (i : ℕ) {ls : List LayerKv}
    (hls : ∀ l ∈ ls, Sound w l ∧ l.rows = 0) (hwhole : ¬ TornFrom dev gaCap0 i ls) :
    Outcome (fun _ x => ∀ l ∈ x.1, Sound w l) (fun x => ∀ l ∈ x.1, Sound w l)
      (each (onNext (shrinkLayer dev gaCap0)) i ls ()) := by
  induction ls generalizing i with
  | nil =>
    intro l hl
    cases hl
  | cons l ls ih =>
    obtain ⟨⟨hl, hrows⟩, hrest⟩ := List.forall_mem_cons.mp hls
    have hsound : ∀ l ∈ ls, Sound w l := fun l' hl' => (hrest l' hl').1
    -- The rest of the loop, when layer `i` is passed and left as `l'`.
    have hnext {l' : LayerKv} (hl' : Sound w l') (hwhole' : ¬ TornFrom dev gaCap0 (i + 1) ls)
        (hpass : shrinkLayer dev gaCap0 i l = .ok () l') :
        Outcome (fun _ x => ∀ l ∈ x.1, Sound w l) (fun x => ∀ l ∈ x.1, Sound w l)
          (each (onNext (shrinkLayer dev gaCap0)) i (l :: ls) ()) := by
      have htail := ih (i + 1) hrest hwhole'
      rw [each, onNext, hpass]
      dsimp only
      cases hres : each (onNext (shrinkLayer dev gaCap0)) (i + 1) ls () with
      | ok u x =>
        rw [hres] at htail
        exact List.forall_mem_cons.mpr ⟨hl', htail⟩
      | error e x =>
        rw [hres] at htail
        exact List.forall_mem_cons.mpr ⟨hl', htail⟩
    rw [TornFrom] at hwhole
    have heq := shrinkLayer_eq dev gaCap0 i l
    split at hwhole
    · next hgrown =>
      rw [if_pos hgrown] at heq
      cases hk : dev (.alloc i .k) with
      | true =>
        rw [if_pos hk] at heq
        rw [each, onNext, heq]
        exact List.forall_mem_cons.mpr ⟨hl, hsound⟩
      | false =>
        obtain ⟨hv, hp, hwhole'⟩ : dev (.alloc i .v) = false ∧ dev (.alloc i .pos) = false ∧
            ¬ TornFrom dev gaCap0 (i + 1) ls := by
          simpa [hk] using hwhole
        rw [hk, hv, hp] at heq
        refine hnext (hl.resize (by omega) fun hkind => ?_) hwhole' heq
        rw [hgrown.1] at hkind
        exact absurd hkind (by decide)
    · next hfits =>
      rw [if_neg hfits] at heq
      exact hnext hl hwhole heq

/-- A torn shrink leaves a global layer with a key buffer smaller than its capacity. -/
theorem shrinkEach_torn {gaCap0 : ℕ} (i : ℕ) {ls : List LayerKv} (hls : ∀ l ∈ ls, Sound w l)
    (htorn : TornFrom dev gaCap0 i ls) :
    Outcome (fun _ _ => False) (fun x => ∃ l ∈ x.1, ¬ l.Fits)
      (each (onNext (shrinkLayer dev gaCap0)) i ls ()) := by
  induction ls generalizing i with
  | nil => exact htorn.elim
  | cons l ls ih =>
    obtain ⟨hl, hrest⟩ := List.forall_mem_cons.mp hls
    have hnext {l' : LayerKv} (htorn' : TornFrom dev gaCap0 (i + 1) ls)
        (hpass : shrinkLayer dev gaCap0 i l = .ok () l') :
        Outcome (fun _ _ => False) (fun x => ∃ l ∈ x.1, ¬ l.Fits)
          (each (onNext (shrinkLayer dev gaCap0)) i (l :: ls) ()) := by
      have htail := ih (i + 1) hrest htorn'
      rw [each, onNext, hpass]
      dsimp only
      cases hres : each (onNext (shrinkLayer dev gaCap0)) (i + 1) ls () with
      | ok u x =>
        rw [hres] at htail
        exact htail.elim
      | error e x =>
        rw [hres] at htail
        obtain ⟨l'', hl'', hfits⟩ := htail
        exact ⟨l'', List.mem_cons_of_mem _ hl'', hfits⟩
    rw [TornFrom] at htorn
    have heq := shrinkLayer_eq dev gaCap0 i l
    split at htorn
    · next hgrown =>
      -- The new key buffer holds fewer rows than the capacity that stands.
      have hshort (v : ℕ) : ¬ ({ l with k := gaCap0 * l.rowK, v := v } : LayerKv).Fits :=
          fun hfits =>
        absurd hfits.k (Nat.not_le.mpr (Nat.mul_lt_mul_of_pos_right hgrown.2 hl.rowK_pos))
      obtain ⟨hk, htorn⟩ := htorn
      rw [if_pos hgrown, hk, if_neg Bool.false_ne_true] at heq
      cases hv : dev (.alloc i .v) with
      | true =>
        rw [if_pos hv] at heq
        rw [each, onNext, heq]
        exact ⟨_, List.mem_cons_self, hshort _⟩
      | false =>
        rw [hv, if_neg Bool.false_ne_true] at heq
        cases hp : dev (.alloc i .pos) with
        | true =>
          rw [if_pos hp] at heq
          rw [each, onNext, heq]
          exact ⟨_, List.mem_cons_self, hshort _⟩
        | false =>
          rw [hp, if_neg Bool.false_ne_true] at heq
          rw [hv, hp] at htorn
          exact hnext (by simpa using htorn) heq
    · next hfits =>
      rw [if_neg hfits] at heq
      exact hnext htorn heq

/-- Dropping the rows changes nothing a shrink looks at. -/
theorem tornFrom_reset (dev : Device) (gaCap0 : ℕ) (ls : List LayerKv) (i : ℕ) :
    TornFrom dev gaCap0 i (ls.map fun l => { l with rows := 0 }) ↔ TornFrom dev gaCap0 i ls := by
  induction ls generalizing i with
  | nil => exact Iff.rfl
  | cons l ls ih =>
    rw [List.map_cons, TornFrom, TornFrom, ih]

/-- The state a shrink of the global layers leaves. -/
theorem shrinkGa_eq (dev : Device) (kv : DeviceKv) :
    shrinkGa dev kv = forLayers (shrinkLayer dev kv.gaCap0) kv.reset := rfl

theorem shrinkGa_sound {kv : DeviceKv} (h : kv.Sound w)
    (hwhole : ¬ TornFrom dev kv.gaCap0 0 kv.layers) :
    Outcome (fun _ => DeviceKv.Sound w) (DeviceKv.Sound w) (shrinkGa dev kv) := by
  rw [← tornFrom_reset] at hwhole
  have hrows : ∀ l ∈ kv.reset.layers, Sound w l ∧ l.rows = 0 := by
    intro l hl
    obtain ⟨l', -, rfl⟩ := List.mem_map.mp hl
    exact ⟨h.reset.layers _ hl, rfl⟩
  have hloop := shrinkEach_sound 0 hrows hwhole
  rw [shrinkGa_eq, forLayers]
  cases hres : each (onNext (shrinkLayer dev kv.gaCap0)) 0 kv.reset.layers () with
  | ok u x =>
    rw [hres] at hloop
    exact ⟨hloop, h.swaCap0⟩
  | error e x =>
    rw [hres] at hloop
    exact ⟨hloop, h.swaCap0⟩

theorem shrinkGa_torn {kv : DeviceKv} (h : kv.Sound w)
    (htorn : TornFrom dev kv.gaCap0 0 kv.layers) :
    Outcome (fun _ _ => False) (fun kv' => ∃ l ∈ kv'.layers, ¬ l.Fits) (shrinkGa dev kv) := by
  rw [← tornFrom_reset] at htorn
  have hloop := shrinkEach_torn 0 h.reset.layers htorn
  rw [shrinkGa_eq, forLayers]
  cases hres : each (onNext (shrinkLayer dev kv.gaCap0)) 0 kv.reset.layers () with
  | ok u x =>
    rw [hres] at hloop
    exact hloop
  | error e x =>
    rw [hres] at hloop
    exact hloop

/-! ### Runs -/

theorem LayerKv.new_sound (cfg : Config) (gaCap : ℕ) {x : LayerKind × ℕ × ℕ} (hx : x ∈ cfg.layers) :
    KvBuffers.Sound cfg.slidingWindow (LayerKv.new cfg gaCap x) := by
  obtain ⟨kind, rowK, rowV⟩ := x
  refine ⟨⟨le_rfl, le_rfl, le_rfl, Nat.zero_le _⟩, fun hkind => ?_, cfg.rowK_pos _ hx⟩
  have hkind : kind = .swa := hkind
  subst hkind
  exact ⟨rfl, Nat.le_add_right _ _⟩

theorem DeviceKv.new_sound (cfg : Config) (gaCap maxChunk : ℕ) :
    (DeviceKv.new cfg gaCap maxChunk).Sound cfg.slidingWindow := by
  refine ⟨fun l hl => ?_, rfl⟩
  obtain ⟨x, hx, rfl⟩ := List.mem_map.mp hl
  exact LayerKv.new_sound cfg gaCap hx

/-- **Step.** An operation that is not a torn shrink keeps a cache sound, also where it fails. -/
theorem KvOp.run_sound {kvs : ℕ → DeviceKv} {op : KvOp} {kv : DeviceKv} (h : kv.Sound w)
    (hwhole : ¬ (op = .shrinkGa ∧ TornFrom dev kv.gaCap0 0 kv.layers)) :
    Outcome (fun _ => DeviceKv.Sound w) (DeviceKv.Sound w) (op.run kvs dev kv) := by
  cases op with
  | reset => exact h.reset
  | setTokens n => exact ⟨h.layers, h.swaCap0⟩
  | truncate to' => exact truncate_sound to' kv h
  | shrinkGa => exact shrinkGa_sound h fun htorn => hwhole ⟨rfl, htorn⟩
  | shrinkSwa => exact shrinkSwa_sound kv h
  | reserveGa rows => exact reserveGa_sound rows kv h
  | reserveSwa => exact reserveSwa_sound kv h
  | prepare i t => exact onLayer_sound ((prepare_triple t).post fun _ _ hs => hs.1) kv h
  | append i t => exact onLayer_sound (append_triple t) kv h
  | importGaPage n => exact importGaPage_sound n kv h
  | importSwa rows => exact importSwa_sound rows kv h
  | rewindGa p => exact rewindGa_sound p kv h
  | forkGa src n => exact forkGa_sound (kvs src) n kv h

/-- Every cache is sound. -/
def AllSound (w : ℕ) (kvs : ℕ → DeviceKv) : Prop := ∀ j, (kvs j).Sound w

/-- Every layer of every cache fits its buffers. -/
def AllFit (kvs : ℕ → DeviceKv) : Prop := ∀ j, ∀ l ∈ (kvs j).layers, l.Fits

theorem AllSound.allFit {kvs : ℕ → DeviceKv} (h : AllSound w kvs) : AllFit kvs :=
  fun j l hl => ((h j).layers l hl).toFits

theorem AllSound.step {kvs : ℕ → DeviceKv} {e : KvEvent} (h : AllSound w kvs)
    (hwhole : ¬ Torn kvs e) :
    AllSound w (kvStep kvs e) := by
  intro j
  rw [kvStep, Function.update_apply]
  split
  · have hrun : Outcome (fun _ => DeviceKv.Sound w) (DeviceKv.Sound w)
        (e.op.run kvs e.dev (kvs e.cache)) := KvOp.run_sound (h e.cache) hwhole
    cases hres : e.op.run kvs e.dev (kvs e.cache) with
    | ok u kv =>
      rw [hres] at hrun
      exact hrun
    | error err kv =>
      rw [hres] at hrun
      exact hrun
  · exact h j

/-- **A torn shrink breaks the promise.** -/
theorem AllSound.not_allFit_torn {kvs : ℕ → DeviceKv} {e : KvEvent} (h : AllSound w kvs)
    (htorn : Torn kvs e) : ¬ AllFit (kvStep kvs e) := by
  obtain ⟨hop, htorn⟩ := htorn
  intro hfit
  have hlayers := hfit e.cache
  rw [kvStep, Function.update_self, hop] at hlayers
  have hshrink := shrinkGa_torn (h e.cache) htorn
  rw [KvOp.run] at hlayers
  cases hres : shrinkGa e.dev (kvs e.cache) with
  | ok u kv =>
    rw [hres] at hshrink
    exact hshrink.elim
  | error err kv =>
    rw [hres] at hshrink hlayers
    obtain ⟨l, hl, hfits⟩ := hshrink
    exact hfits (hlayers l hl)

/-- Caches built together. -/
def boot (cfg : Config) (gaCap maxChunk : ℕ) : ℕ → DeviceKv := fun _ =>
  DeviceKv.new cfg gaCap maxChunk

theorem allSound_boot (cfg : Config) (gaCap maxChunk : ℕ) :
    AllSound cfg.slidingWindow (boot cfg gaCap maxChunk) := fun _ =>
  DeviceKv.new_sound cfg gaCap maxChunk

/-- **Buffers hold their capacity.** Over any run of operations, with any device calls failing,
every layer of every cache fits its buffers throughout exactly when no shrink of the global layers
fails between two buffers of one layer. -/
theorem fits_run_iff (cfg : Config) (gaCap maxChunk : ℕ) (es : List KvEvent) :
    (∀ n, AllFit (run kvStep (boot cfg gaCap maxChunk) (es.take n))) ↔
      Along kvStep (fun kvs e => ¬ Torn kvs e) (boot cfg gaCap maxChunk) es :=
  forall_take_iff_along (fun _ _ h hwhole => h.step hwhole) (fun _ h => h.allFit)
    (fun _ _ h htorn => h.not_allFit_torn (not_not.mp htorn)) (allSound_boot cfg gaCap maxChunk)

/-! ### A torn shrink -/

/-- One global layer, a byte for a key row and for a value row. -/
def tornConfig : Config where
  layers := [(.ga, 1, 1)]
  slidingWindow := 0
  rowK_pos := by decide

/-- The cache grows to a page, and is shrunk while the value buffer cannot be allocated. -/
def tornEvents : List KvEvent :=
  [⟨0, .reserveGa 2, fun _ => false⟩, ⟨0, .shrinkGa, fun c => c = .alloc 0 .v⟩]

/-- The layer it leaves: one row of keys under a capacity of 4096. -/
theorem layers_tornEvents :
    (run kvStep (boot tornConfig 1 1) tornEvents 0).layers =
      [{ kind := .ga, rowK := 1, rowV := 1, window := 0, cap := 4096, rows := 0
         k := 1, v := 4096, pos := 32768 }] := by
  decide

theorem not_fits_tornShrink :
    ¬ ∀ n, AllFit (run kvStep (boot tornConfig 1 1) (tornEvents.take n)) := by
  intro hall
  have hfit := hall 2 0
  rw [show tornEvents.take 2 = tornEvents from rfl, layers_tornEvents] at hfit
  exact absurd (hfit _ List.mem_cons_self).k (by decide)

end KvBuffers

end Coordinator

end Mimo26

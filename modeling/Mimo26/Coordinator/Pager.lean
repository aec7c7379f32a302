import Mathlib.Algebra.BigOperators.Group.List.Basic
import Mathlib.Data.List.AList
import Mimo26.Coordinator.KvPool
import Mimo26.Coordinator.Phase
import Mimo26.Library.Runs

/-!
# The pager

A page table over the KV pool (`paging.rs`): allocating a page reserves its bytes, evicting it
releases them. A page that is allocated under a key that is held takes the place of the one there,
whose bytes stay reserved.

## Main definitions

* `Pager`, `allocate`, `lookup`, `get`, `evict` — the page table
* `Ledger` — the table with the pages that were allocated and not evicted since
* `Kept` — the bytes are those of the pages held, and every page of the ledger is there
* `Admissible` — the allocations that keep it

## Main results

* `kept_run_iff` — a run keeps it exactly when its allocations are admissible
-/

namespace Mimo26

namespace Coordinator

namespace A4

open Runs

inductive PagerError where
  | poolRejected
  | notFound
  | phase (e : PhaseError)
  deriving DecidableEq, Repr

/-- The pool, and the pages with the bytes reserved for them. -/
structure Pager where
  pool : KvPool
  pages : AList fun _ : PageKey => KvPage × ℕ := ∅

namespace Pager

/-- Reserve the bytes of a page and insert it. -/
def allocate (s : Pager) (page : KvPage) (bytes : ℕ) : Except PagerError Pager :=
  match s.pool.reserveBytes bytes with
  | none => .error .poolRejected
  | some pool => .ok { pool := pool, pages := s.pages.insert page.key (page, bytes) }

/-- Find a page and validate it. -/
def lookup (s : Pager) (key : PageKey) (requestedPhase : Phase) (registry : ArmRegistry) :
    Except PagerError HitVerdict :=
  match s.pages.lookup key with
  | none => .error .notFound
  | some (page, _) => (validateCacheHit page requestedPhase registry).mapError .phase

def get (s : Pager) (key : PageKey) : Option KvPage := (s.pages.lookup key).map (·.1)

/-- The page without its digest, and its bytes released. -/
def evict (s : Pager) (key : PageKey) : Option (KvPage × Pager) :=
  match s.pages.lookup key with
  | none => none
  | some (page, bytes) =>
    some ({ page with state := .invalid, payloadDigest := clearedDigest },
      { pool := s.pool.release bytes, pages := s.pages.erase key })

/-- The bytes of some pages. -/
def bytesOf (pages : AList fun _ : PageKey => KvPage × ℕ) : ℕ := (pages.entries.map (·.2.2)).sum

/-- The bytes of the pages held. -/
def heldBytes (s : Pager) : ℕ := bytesOf s.pages

end Pager

open Pager

/-- An operation on the pager. -/
inductive PageOp where
  | allocate (page : KvPage) (bytes : ℕ)
  | evict (key : PageKey)

/-- The pager, and the pages that were allocated and not evicted since. -/
structure Ledger where
  pager : Pager
  live : List KvPage := []

namespace Ledger

def step (l : Ledger) : PageOp → Ledger
  | .allocate page bytes => match l.pager.allocate page bytes with
    | .error _ => l
    | .ok pager => { pager := pager, live := page :: l.live }
  | .evict key => {
      pager := ((l.pager.evict key).map (·.2)).getD l.pager
      live := l.live.filter (·.key ≠ key) }

/-- A pager with no pages. -/
def new (total : ℕ) : Ledger := { pager := { pool := { total := total } } }

/-- The bytes in use are those of the pages held, within the total, and every live page is found. -/
structure Kept (l : Ledger) : Prop where
  used : l.pager.pool.used = l.pager.heldBytes
  le : l.pager.pool.used ≤ l.pager.pool.total
  found : ∀ page ∈ l.live, l.pager.get page.key = some page

/-- An allocation that the pool accepts does not wrap around, and its key is not held, or by the
same page with no bytes. -/
def Admissible (l : Ledger) : PageOp → Prop
  | .allocate page bytes => (l.pager.pool.reserveBytes bytes).isSome →
      l.pager.pool.used + bytes < 2 ^ 64 ∧
      ∀ old, l.pager.pages.lookup page.key = some old → old = (page, 0)
  | .evict _ => True

/-- The pages held are live. -/
def AllLive (l : Ledger) : Prop :=
  ∀ key page, l.pager.get key = some page → page.key = key ∧ page ∈ l.live

/-! ### The bytes held -/

/-- A page is taken out. -/
theorem bytesOf_erase {pages : AList fun _ : PageKey => KvPage × ℕ} {key : PageKey}
    {old : KvPage × ℕ} (h : pages.lookup key = some old) :
    bytesOf pages = old.2 + bytesOf (pages.erase key) := by
  have hkey : key ∈ pages.entries.keys :=
      AList.mem_keys.mp (AList.lookup_isSome.mp (by rw [h]; rfl))
  obtain ⟨b, before, after, hnot, hpages, herase⟩ := List.exists_of_kerase hkey
  have hb : b = old := by
    have hmem : Sigma.mk key b ∈ pages.entries := by
      rw [hpages]
      exact List.mem_append_right _ List.mem_cons_self
    have hlookup : pages.lookup key = some b := List.mem_dlookup pages.nodupKeys hmem
    exact Option.some.inj (hlookup.symm.trans h)
  show (pages.entries.map _).sum = _ + ((pages.entries.kerase key).map _).sum
  rw [herase, hpages, hb, List.map_append, List.map_append, List.map_cons, List.sum_append,
    List.sum_append, List.sum_cons]
  exact Nat.add_left_comm _ _ _

/-- A page is put in, over the one there. -/
theorem bytesOf_insert (pages : AList fun _ : PageKey => KvPage × ℕ) (key : PageKey)
    (new : KvPage × ℕ) :
    bytesOf (pages.insert key new) + (pages.lookup key).elim 0 (·.2) = bytesOf pages + new.2 := by
  have hinsert : bytesOf (pages.insert key new) = new.2 + bytesOf (pages.erase key) := by
    rw [bytesOf, AList.entries_insert, List.map_cons, List.sum_cons]
    rfl
  cases h : pages.lookup key with
  | none =>
    have hnot : key ∉ pages.entries.keys := by
      rw [← AList.keys, ← AList.mem_keys]
      exact AList.lookup_eq_none.mp h
    have herase : bytesOf (pages.erase key) = bytesOf pages := by
      show ((pages.entries.kerase key).map _).sum = (pages.entries.map _).sum
      rw [List.kerase_of_notMem_keys hnot]
    rw [hinsert, herase]
    exact Nat.add_comm new.2 (bytesOf pages)
  | some old =>
    have herase := bytesOf_erase h
    dsimp only [Option.elim]
    omega

/-! ### Allocating and evicting -/

variable {l : Ledger}

/-- **Allocate.** -/
theorem step_allocate (l : Ledger) (page : KvPage) (bytes : ℕ) :
    (l.pager.pool.reserveBytes bytes).isSome = false ∧ l.step (.allocate page bytes) = l ∨
    (l.pager.pool.reserveBytes bytes).isSome ∧
      wrap (l.pager.pool.used + bytes) ≤ l.pager.pool.total ∧
      l.step (.allocate page bytes) = {
        pager := {
          pool := { l.pager.pool with used := wrap (l.pager.pool.used + bytes) }
          pages := l.pager.pages.insert page.key (page, bytes) }
        live := page :: l.live } := by
  rw [step, Pager.allocate, KvPool.reserveBytes]
  split
  · exact Or.inl ⟨rfl, rfl⟩
  · next h => exact Or.inr ⟨rfl, Nat.not_lt.mp h, rfl⟩

/-- **Evict.** -/
theorem step_evict (l : Ledger) (key : PageKey) :
    l.pager.pages.lookup key = none ∧
      l.step (.evict key) = { l with live := l.live.filter (·.key ≠ key) } ∨
    ∃ old, l.pager.pages.lookup key = some old ∧ l.step (.evict key) = {
      pager := { pool := l.pager.pool.release old.2, pages := l.pager.pages.erase key }
      live := l.live.filter (·.key ≠ key) } := by
  rw [step, Pager.evict]
  cases h : l.pager.pages.lookup key with
  | none => exact Or.inl ⟨rfl, rfl⟩
  | some old => exact Or.inr ⟨old, rfl, rfl⟩

theorem total_step (l : Ledger) (op : PageOp) :
    (l.step op).pager.pool.total = l.pager.pool.total := by
  cases op with
  | allocate page bytes =>
    rcases step_allocate l page bytes with ⟨-, h⟩ | ⟨-, -, h⟩
    · rw [h]
    · rw [h]
  | evict key =>
    rcases step_evict l key with ⟨-, h⟩ | ⟨old, -, h⟩
    · rw [h]
    · rw [h]
      rfl

/-- What is found after an allocation. -/
theorem get_insert (pages : AList fun _ : PageKey => KvPage × ℕ) (page : KvPage) (bytes : ℕ)
    (pool pool' : KvPool) (key : PageKey) :
    Pager.get ⟨pool', pages.insert page.key (page, bytes)⟩ key =
      if key = page.key then some page else Pager.get ⟨pool, pages⟩ key := by
  split
  · next h =>
    subst h
    rw [Pager.get, AList.lookup_insert]
    rfl
  · next h => rw [Pager.get, AList.lookup_insert_ne h, Pager.get]

/-- **Step.** -/
theorem Kept.step (hl : Kept l ∧ AllLive l) {op : PageOp} (hop : Admissible l op) :
    Kept (l.step op) ∧ AllLive (l.step op) := by
  obtain ⟨⟨hused, hle, hfound⟩, hlive⟩ := hl
  cases op with
  | allocate page bytes =>
    rcases step_allocate l page bytes with ⟨-, h⟩ | ⟨hsome, hfits, h⟩
    · rw [h]
      exact ⟨⟨hused, hle, hfound⟩, hlive⟩
    · obtain ⟨hsmall, hsame⟩ := hop hsome
      have hheld := bytesOf_insert l.pager.pages page.key (page, bytes)
      have hnone : (l.pager.pages.lookup page.key).elim 0 (·.2) = 0 := by
        cases hold : l.pager.pages.lookup page.key with
        | none => rfl
        | some old => rw [hsame old hold]; rfl
      rw [h]
      refine ⟨⟨?_, hfits, ?_⟩, ?_⟩
      · show wrap (l.pager.pool.used + bytes) = bytesOf _
        rw [hnone, Nat.add_zero] at hheld
        rw [wrap, Nat.mod_eq_of_lt hsmall, hheld, hused]
        rfl
      · intro page' hpage'
        show Pager.get ⟨_, _⟩ _ = _
        rw [get_insert _ _ _ l.pager.pool]
        rcases List.mem_cons.mp hpage' with rfl | hmem
        · rw [if_pos rfl]
        · have hget := hfound page' hmem
          split
          · next hkey =>
            -- the same page was there, with no bytes
            rw [hkey, Pager.get] at hget
            obtain ⟨old, hold, hpage⟩ := Option.map_eq_some_iff.mp hget
            rw [hsame old hold] at hpage
            rw [← hpage]
          · exact hget
      · intro key page' hget
        have hget' : Pager.get ⟨_, l.pager.pages.insert page.key (page, bytes)⟩ key = some page' :=
          hget
        rw [get_insert _ _ _ l.pager.pool] at hget'
        split at hget'
        · next hkey =>
          obtain rfl := Option.some.inj hget'
          exact ⟨hkey.symm, List.mem_cons_self⟩
        · obtain ⟨hkey, hmem⟩ := hlive key page' hget'
          exact ⟨hkey, List.mem_cons_of_mem _ hmem⟩
  | evict key =>
    rcases step_evict l key with ⟨hnone, h⟩ | ⟨old, hold, h⟩
    · rw [h]
      refine ⟨⟨hused, hle, fun page hpage => hfound page (List.mem_of_mem_filter hpage)⟩, ?_⟩
      intro key' page hget
      obtain ⟨hkey, hmem⟩ := hlive key' page hget
      refine ⟨hkey, List.mem_filter.mpr ⟨hmem, decide_eq_true fun heq => ?_⟩⟩
      rw [← hkey, heq, Pager.get, hnone] at hget
      exact absurd hget (by simp)
    · rw [h]
      have hheld := bytesOf_erase hold
      refine ⟨⟨?_, Nat.le_trans (Nat.sub_le _ _) hle, ?_⟩, ?_⟩
      · show l.pager.pool.used - old.2 = bytesOf (l.pager.pages.erase key)
        rw [hused, Pager.heldBytes, hheld, Nat.add_sub_cancel_left]
      · intro page hpage
        obtain ⟨hmem, hne⟩ := List.mem_filter.mp hpage
        show Option.map _ ((l.pager.pages.erase key).lookup page.key) = _
        rw [AList.lookup_erase_ne (of_decide_eq_true hne)]
        exact hfound page hmem
      · intro key' page hget
        have hget' : ((l.pager.pages.erase key).lookup key').map (·.1) = some page := hget
        have hne : key' ≠ key := by
          rintro rfl
          rw [AList.lookup_erase] at hget'
          exact absurd hget' (by simp)
        rw [AList.lookup_erase_ne hne] at hget'
        obtain ⟨hkey, hmem⟩ := hlive key' page hget'
        exact ⟨hkey, List.mem_filter.mpr ⟨hmem, decide_eq_true (by rw [hkey]; exact hne)⟩⟩

/-- An allocation that is not admissible breaks the bytes, or a page that was there. -/
theorem not_kept_step (hl : Kept l ∧ AllLive l) (htotal : l.pager.pool.total < 2 ^ 64)
    {op : PageOp} (hop : ¬ Admissible l op) : ¬ Kept (l.step op) := by
  obtain ⟨⟨hused, hle, -⟩, hlive⟩ := hl
  intro hkept
  cases op with
  | evict key => exact hop trivial
  | allocate page bytes =>
    rcases step_allocate l page bytes with ⟨hnone, h⟩ | ⟨hsome, hfits, h⟩
    · exact hop fun hsome => absurd hsome (by rw [hnone]; exact Bool.false_ne_true)
    · refine hop fun _ => ?_
      rw [h] at hkept
      have hheld := bytesOf_insert l.pager.pages page.key (page, bytes)
      have hbytes : wrap (l.pager.pool.used + bytes) =
          bytesOf (l.pager.pages.insert page.key (page, bytes)) := hkept.used
      -- the bytes of the page that was there are below `2 ^ 64`
      have hold : (l.pager.pages.lookup page.key).elim 0 (·.2) ≤ l.pager.pool.used := by
        cases hlookup : l.pager.pages.lookup page.key with
        | none => exact Nat.zero_le _
        | some old =>
          rw [hused, Pager.heldBytes, bytesOf_erase hlookup]
          exact Nat.le_add_right _ _
      have heq : (l.pager.pool.used + bytes) % 2 ^ 64 +
          (l.pager.pages.lookup page.key).elim 0 (·.2) = l.pager.pool.used + bytes := by
        rw [← hbytes, wrap] at hheld
        rw [hheld, hused]
        rfl
      have hsmall : l.pager.pool.used + bytes < 2 ^ 64 := by omega
      refine ⟨hsmall, fun old hlookup => ?_⟩
      rw [Nat.mod_eq_of_lt hsmall, hlookup] at heq
      have hzero : old.2 = 0 := Nat.add_left_cancel (heq.trans (Nat.add_zero _).symm)
      -- the page that was there is still found
      obtain ⟨hkey, hmem⟩ := hlive page.key old.1 (by rw [Pager.get, hlookup]; rfl)
      have hfound := hkept.found old.1 (List.mem_cons_of_mem _ hmem)
      have hget : Pager.get ⟨_, l.pager.pages.insert page.key (page, bytes)⟩ old.1.key =
          some old.1 := hfound
      rw [get_insert _ _ _ l.pager.pool, if_pos hkey] at hget
      rw [Option.some.inj hget, ← hzero]

/-- **Accounting.** In every state of a run the bytes in use are those of the pages held, within the
total, and every page is found until it is evicted, exactly when the allocations are admissible. -/
theorem kept_run_iff {total : ℕ} (htotal : total < 2 ^ 64) (ops : List PageOp) :
    (∀ n, Kept (run step (new total) (ops.take n))) ↔ Along step Admissible (new total) ops := by
  have hstep (l : Ledger) (op : PageOp)
      (hl : (Kept l ∧ AllLive l) ∧ l.pager.pool.total = total) (hop : Admissible l op) :
      (Kept (l.step op) ∧ AllLive (l.step op)) ∧ (l.step op).pager.pool.total = total :=
    ⟨Kept.step hl.1 hop, (total_step l op).trans hl.2⟩
  refine forall_take_iff_along hstep (fun l hl => hl.1.1) (fun l op hl hop => ?_) ?_
  · exact not_kept_step hl.1 (by rw [hl.2]; exact htotal) hop
  · exact ⟨⟨⟨rfl, Nat.zero_le _, nofun⟩, nofun⟩, rfl⟩

/-- A page of the first positions of a prefix. -/
def page (layerKind : LayerKind) (prefixKey : ℕ) : KvPage where
  prefixKey := prefixKey
  positionRange := (0, 4)
  layerKind := layerKind
  phaseTag := .context
  armId := singleArm
  armVersion := 1
  phiVersion := 1
  derivationPath := .initialPrefill
  payloadDigest := Vector.replicate 32 7
  state := .valid

theorem kept_run_reused : (new 1000).pager.pool.total < 2 ^ 64 ∧ ∀ n, Kept (run step (new 1000)
    ([.allocate (page .ga 1) 400, .evict (page .ga 1).key, .allocate (page .swa 1) 400].take n)) :=
  ⟨by decide, (kept_run_iff (by decide) _).mpr ⟨fun _ => ⟨by decide, nofun⟩, trivial,
    fun _ => ⟨by decide, nofun⟩, trivial⟩⟩

/-- **A sliding-window page** of the positions of a full-attention page takes its place. -/
theorem not_kept_sameRange :
    let l := run step (new 1000) [.allocate (page .ga 1) 400, .allocate (page .swa 1) 400]
    l.live = [page .swa 1, page .ga 1] ∧ l.pager.pool.used = 800 ∧ l.pager.heldBytes = 400 ∧
      l.pager.get (page .ga 1).key = some (page .swa 1) ∧ ¬ Kept l := by
  refine ⟨by decide, by decide, by decide, by decide, fun hkept => ?_⟩
  exact absurd hkept.used (by decide)

end Ledger

end A4

end Coordinator

end Mimo26

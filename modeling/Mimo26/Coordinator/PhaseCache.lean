import Mimo26.Coordinator.Pager

/-!
# Hits of the phase cache

A pager and a registry of arms over a run: arms are registered and assigned to phases, epochs
begin, pages are allocated and evicted. A page that is answered as a hit is of the phase asked for,
of the arm that was registered for it last, and of the current epoch. What else is known of it is
what it was allocated with: a validation compares neither its state nor the version of its arm, and
an evicted page is not found.

## Main definitions

* `PhaseMachine`, `PhaseOp` — the pager and the registry, and what happens to them
* `Registered` — the arm of a phase, read off the operations
* `Stored` — a page is in the pager, read off the operations

## Main results

* `hits_current` — what is a hit, in every state of a run
* `not_valid_current` — a page that was evicted and one of an older version of its arm are hits
-/

namespace Mimo26

namespace Coordinator

namespace A4

open Runs

structure PhaseMachine where
  registry : ArmRegistry
  pager : Pager

/-- An operation on the registry or on the pager. -/
inductive PhaseOp where
  | register (arm : Arm)
  | setPhi (phase : Phase) (arm : ArmId)
  | allowPath (phase : Phase) (arm : ArmId) (path : DerivationPath)
  | bump
  | allocate (page : KvPage) (bytes : ℕ)
  | evict (key : PageKey)

namespace PhaseMachine

def step (m : PhaseMachine) : PhaseOp → PhaseMachine
  | .register arm => { m with registry := m.registry.register arm }
  | .setPhi phase arm => { m with registry := m.registry.setPhi phase arm }
  | .allowPath phase arm path => { m with registry := m.registry.allowPath phase arm path }
  | .bump => { m with registry := m.registry.bumpPhiVersion }
  | .allocate page bytes => match m.pager.allocate page bytes with
    | .error _ => m
    | .ok pager => { m with pager := pager }
  | .evict key => { m with pager := ((m.pager.evict key).map (·.2)).getD m.pager }

/-- No arms, and no pages in a pool of `total` bytes. -/
def new (total : ℕ) : PhaseMachine := ⟨{}, { pool := { total := total } }⟩

/-- The arm was the last one registered under its id, and the phase was assigned it last. -/
structure Registered (ops : List PhaseOp) (phase : Phase) (arm : Arm) : Prop where
  assigned : ∃ before after, ops = before ++ .setPhi phase arm.id :: after ∧
    ∀ id, .setPhi phase id ∉ after
  registered : ∃ before after, ops = before ++ .register arm :: after ∧
    ∀ arm', arm'.id = arm.id → .register arm' ∉ after

/-- The page was allocated under the key, which was not evicted since. -/
def Stored (ops : List PhaseOp) (key : PageKey) (page : KvPage) : Prop :=
  ∃ before bytes after, ops = before ++ .allocate page bytes :: after ∧ page.key = key ∧
    .evict key ∉ after

/-! ### What the operations leave -/

theorem registry_allocate (m : PhaseMachine) (page : KvPage) (bytes : ℕ) :
    (m.step (.allocate page bytes)).registry = m.registry := by
  rw [step]
  split
  · rfl
  · rfl

/-- A step assigns an arm to a phase, or leaves the phase its arm. -/
theorem phi_step {m : PhaseMachine} {op : PhaseOp} {phase : Phase} {id : ArmId}
    (h : (m.step op).registry.phi.lookup phase = some id) :
    op = .setPhi phase id ∨ (∀ id', op ≠ .setPhi phase id') ∧
      m.registry.phi.lookup phase = some id := by
  cases op with
  | register arm => exact .inr ⟨by simp, h⟩
  | setPhi phase' id' =>
    by_cases hphase : phase = phase'
    · subst hphase
      obtain rfl := Option.some.inj ((AList.lookup_insert _).symm.trans h)
      exact .inl rfl
    · refine .inr ⟨?_, (AList.lookup_insert_ne hphase).symm.trans h⟩
      rintro id ⟨⟩
      exact hphase rfl
  | allowPath phase' arm path => exact .inr ⟨by simp, h⟩
  | bump => exact .inr ⟨by simp, h⟩
  | allocate page bytes =>
    rw [registry_allocate] at h
    exact .inr ⟨by simp, h⟩
  | evict key => exact .inr ⟨by simp, h⟩

/-- A step files an arm, or leaves the id its arm. -/
theorem arms_step {m : PhaseMachine} {op : PhaseOp} {id : ArmId} {arm : Arm}
    (h : (m.step op).registry.arms.lookup id = some arm) :
    op = .register arm ∨ (∀ arm', arm'.id = id → op ≠ .register arm') ∧
      m.registry.arms.lookup id = some arm := by
  cases op with
  | register arm' =>
    by_cases hid : id = arm'.id
    · subst hid
      obtain rfl := Option.some.inj ((AList.lookup_insert _).symm.trans h)
      exact .inl rfl
    · refine .inr ⟨?_, (AList.lookup_insert_ne hid).symm.trans h⟩
      rintro arm₂ rfl ⟨⟩
      exact hid rfl
  | setPhi phase id' => exact .inr ⟨by simp, h⟩
  | allowPath phase arm' path => exact .inr ⟨by simp, h⟩
  | bump => exact .inr ⟨by simp, h⟩
  | allocate page bytes =>
    rw [registry_allocate] at h
    exact .inr ⟨by simp, h⟩
  | evict key => exact .inr ⟨by simp, h⟩

theorem get_evict (s : Pager) (key' key : PageKey) :
    (((s.evict key').map (·.2)).getD s).get key = if key = key' then none else s.get key := by
  rw [Pager.evict]
  cases hold : s.pages.lookup key' with
  | none =>
    rw [Option.map_none, Option.getD_none]
    split
    · next hkey => rw [Pager.get, hkey, hold, Option.map_none]
    · rfl
  | some old =>
    rw [Option.map_some, Option.getD_some, Pager.get]
    split
    · next hkey => rw [hkey, AList.lookup_erase, Option.map_none]
    · next hkey => rw [AList.lookup_erase_ne hkey, Pager.get]

/-- A step puts a page under a key, or does not evict the one that is there. -/
theorem get_step {m : PhaseMachine} {op : PhaseOp} {key : PageKey} {page : KvPage}
    (h : (m.step op).pager.get key = some page) :
    (∃ bytes, op = .allocate page bytes ∧ page.key = key) ∨
      op ≠ .evict key ∧ m.pager.get key = some page := by
  cases op with
  | register arm => exact .inr ⟨by simp, h⟩
  | setPhi phase id => exact .inr ⟨by simp, h⟩
  | allowPath phase arm path => exact .inr ⟨by simp, h⟩
  | bump => exact .inr ⟨by simp, h⟩
  | allocate page' bytes =>
    have hne : PhaseOp.allocate page' bytes ≠ .evict key := fun h => by cases h
    rw [step, Pager.allocate] at h
    cases hpool : m.pager.pool.reserveBytes bytes with
    | none =>
      rw [hpool] at h
      exact .inr ⟨hne, h⟩
    | some pool =>
      rw [hpool] at h
      have hget := (Ledger.get_insert m.pager.pages page' bytes m.pager.pool pool key).symm.trans h
      split_ifs at hget with hkey
      · obtain rfl := Option.some.inj hget
        exact .inl ⟨bytes, rfl, hkey.symm⟩
      · exact .inr ⟨hne, hget⟩
  | evict key' =>
    have hget := h.symm.trans (get_evict m.pager key' key)
    split_ifs at hget with hkey
    exact .inr ⟨fun heq => hkey (PhaseOp.evict.inj heq).symm, hget.symm⟩

/-- **The arm of a phase** is read off the operations. -/
theorem registered_run {total : ℕ} {ops : List PhaseOp} {phase : Phase} {arm : Arm}
    (h : (run step (new total) ops).registry.armFor phase = .ok arm) :
    Registered ops phase arm := by
  obtain ⟨hphi, harms⟩ := ArmRegistry.armFor_eq_ok_iff.mp h
  constructor
  · obtain ⟨before, op, after, rfl, rfl, hafter⟩ :=
      @since_run _ _ step (fun m => m.registry.phi.lookup phase = some arm.id) _ _
        (fun _ _ hm => phi_step hm) (new total) (fun hnew => by cases hnew) ops hphi
    exact ⟨before, after, rfl, fun id hid => hafter _ hid id rfl⟩
  · obtain ⟨before, op, after, rfl, rfl, hafter⟩ :=
      @since_run _ _ step (fun m => m.registry.arms.lookup arm.id = some arm) _ _
        (fun _ _ hm => arms_step hm) (new total) (fun hnew => by cases hnew) ops harms
    exact ⟨before, after, rfl, fun arm' hid harm => hafter _ harm arm' hid rfl⟩

/-- **A page that is found** was allocated and not evicted since. -/
theorem stored_run {total : ℕ} {ops : List PhaseOp} {key : PageKey} {page : KvPage}
    (h : (run step (new total) ops).pager.get key = some page) : Stored ops key page := by
  obtain ⟨before, op, after, rfl, ⟨bytes, rfl, hkey⟩, hafter⟩ :=
    @since_run _ _ step (fun m => m.pager.get key = some page) _ _
      (fun _ _ hm => get_step hm) (new total) (fun hnew => by cases hnew) ops h
  exact ⟨before, bytes, after, rfl, hkey, fun hmem => hafter _ hmem rfl⟩

/-! ### Hits -/

theorem lookup_eq_valid_iff {s : Pager} {key : PageKey} {phase : Phase} {registry : ArmRegistry} :
    s.lookup key phase registry = .ok .valid ↔
      ∃ page, s.get key = some page ∧ Current registry phase page := by
  rw [Pager.lookup, Pager.get]
  cases hold : s.pages.lookup key with
  | none =>
    refine iff_of_false (fun h => by cases h) ?_
    rintro ⟨page, hpage, -⟩
    cases hpage
  | some old =>
    have hmap (x : Except PhaseError HitVerdict) :
        x.mapError PagerError.phase = .ok .valid ↔ x = .ok .valid := by
      cases x with
      | error e => exact iff_of_false (fun h => by cases h) fun h => by cases h
      | ok v => exact ⟨fun h => congrArg _ (Except.ok.inj h), fun h => congrArg _ (Except.ok.inj h)⟩
    dsimp only
    rw [hmap, validateCacheHit_eq_valid_iff, Option.map_some]
    refine ⟨fun h => ⟨old.1, rfl, h⟩, ?_⟩
    rintro ⟨page, hpage, h⟩
    exact Option.some.inj hpage ▸ h

/-- **Hits.** In every state of a run a page is a hit exactly if it is of the phase asked for, of
the epoch of the registry and of the arm that the registry has for the phase, which was registered
last under its id; a page found by its key was allocated under it and not evicted since. -/
theorem hits_current (total : ℕ) (ops : List PhaseOp) :
    let m := run step (new total) ops
    (∀ page phase, validateCacheHit page phase m.registry = .ok .valid ↔
      Current m.registry phase page) ∧
    (∀ key phase, m.pager.lookup key phase m.registry = .ok .valid ↔
      ∃ page, m.pager.get key = some page ∧ Stored ops key page ∧ Current m.registry phase page) ∧
    ∀ phase arm, m.registry.armFor phase = .ok arm → Registered ops phase arm := by
  refine ⟨fun page phase => validateCacheHit_eq_valid_iff, fun key phase => ?_,
    fun phase arm h => registered_run h⟩
  rw [lookup_eq_valid_iff]
  refine exists_congr fun page => and_congr_right fun hget => ?_
  rw [and_iff_right (stored_run hget)]

/-- A page of the first positions of a prefix, of version 1 of the single arm. -/
def firstPage (state : PageState) : KvPage where
  prefixKey := 7
  positionRange := (0, 4)
  layerKind := .ga
  phaseTag := .context
  armId := singleArm
  armVersion := 1
  phiVersion := 1
  derivationPath := .initialPrefill
  payloadDigest := clearedDigest
  state := state

/-- **A poisoned page** is a hit, and so is a page of a version that was replaced. -/
theorem not_valid_current :
    (¬ ∀ (total : ℕ) (ops : List PhaseOp) (page : KvPage) (phase : Phase),
      validateCacheHit page phase (run step (new total) ops).registry = .ok .valid →
      page.state = .valid) ∧
    ¬ ∀ (total : ℕ) (ops : List PhaseOp) (key : PageKey) (phase : Phase),
      let m := run step (new total) ops
      m.pager.lookup key phase m.registry = .ok .valid →
      ∀ page arm, m.pager.get key = some page → m.registry.armFor phase = .ok arm →
        page.armVersion = arm.version := by
  constructor
  · intro h
    have hstate := h 1000 [.register ⟨singleArm, 1, .eFp32⟩, .setPhi .context singleArm]
      (firstPage .invalid) .context (by decide)
    cases hstate
  · intro h
    have hversion := h 1000 [.register ⟨singleArm, 1, .eFp32⟩, .setPhi .context singleArm,
      .allocate (firstPage .valid) 100, .register ⟨singleArm, 2, .eFp32⟩] (firstPage .valid).key
      .context (by decide) (firstPage .valid) ⟨singleArm, 2, .eFp32⟩ (by decide) (by decide)
    cases hversion

end PhaseMachine

end A4

end Coordinator

end Mimo26

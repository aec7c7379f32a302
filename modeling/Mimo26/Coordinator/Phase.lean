import Mathlib.Algebra.Ring.Nat
import Mathlib.Data.List.AList

/-!
# KV pages

The schema of a page and the key it is looked up by, the registry of arms, and the validation of a
page that was found (`phase.rs`). The layer kind is not part of the key, and a validation reads
neither the state of the page nor the version of its arm.

A registry's arms are filed under their own ids (`keyed`), as `register` is all that files them.
-/

namespace Mimo26

namespace Coordinator

namespace A4

inductive Phase where
  | context
  | generated
  deriving DecidableEq, Repr

inductive LayerKind where
  | ga
  | swa
  deriving DecidableEq, Repr

inductive DerivationPath where
  | initialPrefill
  | chunkedPrefillContinuation
  | prefixCacheHit
  | evictionRebuild
  | prefixResend
  | preemptionResume
  | continueRequest
  | rejectedDraftRederivation
  | historyDivergence
  deriving DecidableEq, Repr

structure ArmId where
  name : String
  deriving DecidableEq, Repr

def singleArm : ArmId := ⟨"e-fp32-v1"⟩

inductive Lattice where
  | eFp32
  | eBf16
  | eW4A8V1
  deriving DecidableEq, Repr

/-- A qualified arithmetic. -/
structure Arm where
  id : ArmId
  version : ℕ
  lattice : Lattice
  deriving DecidableEq, Repr

inductive PageState where
  | valid
  | invalid
  | stale
  deriving DecidableEq, Repr

/-- The digest of a page, 32 bytes. -/
abbrev Digest := Vector UInt8 32

/-- The digest of a page that was truncated. -/
def clearedDigest : Digest := Vector.replicate 32 0

structure PageKey where
  prefixKey : ℕ
  /-- The positions from the first up to the second. -/
  positionRange : ℕ × ℕ
  phaseTag : Phase
  deriving DecidableEq, Repr

structure KvPage where
  prefixKey : ℕ
  positionRange : ℕ × ℕ
  layerKind : LayerKind
  phaseTag : Phase
  armId : ArmId
  armVersion : ℕ
  phiVersion : ℕ
  derivationPath : DerivationPath
  payloadDigest : Digest
  state : PageState
  deriving DecidableEq, Repr

def KvPage.key (page : KvPage) : PageKey where
  prefixKey := page.prefixKey
  positionRange := page.positionRange
  phaseTag := page.phaseTag

/-! ### The registry -/

inductive PhaseError where
  | unregisteredPhase (phase : Phase)
  | unregisteredArm (arm : ArmId)
  | unregisteredQuad (phiVersion : ℕ) (phase : Phase) (arm : ArmId) (path : DerivationPath)
  | phaseTagMismatch (stored requested : Phase)
  | armMismatch (stored expected : ArmId)
  deriving DecidableEq, Repr

inductive HitVerdict where
  | valid
  | stale
  deriving DecidableEq, Repr

/-- The arm of each phase under an epoch, and the paths that may run it. -/
structure ArmRegistry where
  phiVersion : ℕ := 1
  phi : AList fun _ : Phase => ArmId := ∅
  arms : AList fun _ : ArmId => Arm := ∅
  legal : List (ℕ × Phase × ArmId × DerivationPath) := []
  keyed : ∀ id arm, arms.lookup id = some arm → arm.id = id := by intro id arm h; cases h

namespace ArmRegistry

/-- The next epoch; the number is of 32 bits. -/
def bumpPhiVersion (r : ArmRegistry) : ArmRegistry :=
  { r with phiVersion := (r.phiVersion + 1) % 2 ^ 32 }

def register (r : ArmRegistry) (arm : Arm) : ArmRegistry where
  phiVersion := r.phiVersion
  phi := r.phi
  arms := r.arms.insert arm.id arm
  legal := r.legal
  keyed := by
    intro id arm' h
    by_cases hid : id = arm.id
    · subst hid
      rw [AList.lookup_insert] at h
      rw [← Option.some.inj h]
    · rw [AList.lookup_insert_ne hid] at h
      exact r.keyed id arm' h

def setPhi (r : ArmRegistry) (phase : Phase) (arm : ArmId) : ArmRegistry :=
  { r with phi := r.phi.insert phase arm }

def allowPath (r : ArmRegistry) (phase : Phase) (arm : ArmId) (path : DerivationPath) :
    ArmRegistry :=
  { r with legal := r.legal.insert (r.phiVersion, phase, arm, path) }

/-- The arm of a phase. -/
def armFor (r : ArmRegistry) (phase : Phase) : Except PhaseError Arm :=
  match r.phi.lookup phase with
  | none => .error (.unregisteredPhase phase)
  | some id =>
    match r.arms.lookup id with
    | none => .error (.unregisteredArm id)
    | some arm => .ok arm

/-- The arm of a phase, for a path that may run it. -/
def resolve (r : ArmRegistry) (phase : Phase) (path : DerivationPath) : Except PhaseError Arm :=
  match r.armFor phase with
  | .error e => .error e
  | .ok arm =>
    if (r.phiVersion, phase, arm.id, path) ∈ r.legal then .ok arm
    else .error (.unregisteredQuad r.phiVersion phase arm.id path)

theorem armFor_eq_ok_iff {r : ArmRegistry} {phase : Phase} {arm : Arm} :
    r.armFor phase = .ok arm ↔
      r.phi.lookup phase = some arm.id ∧ r.arms.lookup arm.id = some arm := by
  rw [armFor]
  constructor
  · intro h
    split at h
    · cases h
    · next id hid =>
      split at h
      · cases h
      · next arm' harm =>
        obtain rfl := Except.ok.inj h
        obtain rfl := r.keyed id arm' harm
        exact ⟨hid, harm⟩
  · rintro ⟨hid, harm⟩
    rw [hid]
    dsimp only
    rw [harm]

end ArmRegistry

/-- Whether a page that was found is a hit for a phase. -/
def validateCacheHit (stored : KvPage) (requestedPhase : Phase) (registry : ArmRegistry) :
    Except PhaseError HitVerdict :=
  if stored.phiVersion ≠ registry.phiVersion then .ok .stale
  else if stored.phaseTag ≠ requestedPhase then
    .error (.phaseTagMismatch stored.phaseTag requestedPhase)
  else
    match registry.armFor stored.phaseTag with
    | .error e => .error e
    | .ok arm =>
      if stored.armId ≠ arm.id then .error (.armMismatch stored.armId arm.id) else .ok .valid

/-- What a hit has. -/
structure Current (registry : ArmRegistry) (phase : Phase) (page : KvPage) : Prop where
  tag : page.phaseTag = phase
  arm : ∃ arm, registry.armFor phase = .ok arm ∧ page.armId = arm.id
  epoch : page.phiVersion = registry.phiVersion

theorem validateCacheHit_eq_valid_iff {page : KvPage} {phase : Phase} {registry : ArmRegistry} :
    validateCacheHit page phase registry = .ok .valid ↔ Current registry phase page := by
  rw [validateCacheHit]
  split
  · next hepoch => exact iff_of_false (fun h => by cases h) fun h => hepoch h.epoch
  · next hepoch =>
    split
    · next htag => exact iff_of_false (fun h => by cases h) fun h => htag h.tag
    · next htag =>
      rw [not_not] at hepoch htag
      subst htag
      cases harm : registry.armFor page.phaseTag with
      | error e =>
        refine iff_of_false (fun h => by cases h) fun h => ?_
        obtain ⟨arm, hok, -⟩ := h.arm
        cases harm.symm.trans hok
      | ok arm =>
        dsimp only
        split
        · next hid =>
          refine iff_of_false (fun h => by cases h) fun h => ?_
          obtain ⟨arm', hok, hid'⟩ := h.arm
          rw [Except.ok.inj (harm.symm.trans hok)] at hid
          exact hid hid'
        · next hid => exact iff_of_true rfl ⟨rfl, ⟨arm, harm, not_not.mp hid⟩, hepoch⟩

end A4

end Coordinator

end Mimo26

import Mathlib.Data.List.Perm.Basic
import Mathlib.Data.Nat.Bitwise
import Mimo26.Library.Runs
import Mimo26.Wire.Layout

/-!
# The buffers of the RDMA transport

The Spark builds each return in one of two halves of a registered buffer and posts it without
waiting; requests land in a ring of two slots, of which one is lent out at a time (`RdmaTransport`
of `transport.rs`). The network card reads a half from its post to its completion, and may write
into a slot while it is posted.

A completion carries no half. The one reaped is that of the oldest post, which is the half to be
lent next as long as halves are posted in turn, and a post puts the current half in turn only when
it was lent before: a post of a half that was not lent leaves the card with more posts than halves.

## Main definitions

* `Endpoint` — the queues of the card, and `RdmaTransport` — the transport over it
* `Call`, `Session.step` — the calls of a run, and requests that land in between
* `InTurn` — a half is posted in place only after it was lent

## Main results

* `Alternating.step`, `Placed.step` — the invariants
* `buffers_run` — a lent half is not being read, and a lent slot is not posted
* `not_buffers_unlent` — three posts of halves that were not lent break it
-/

namespace Mimo26

namespace Spark

namespace Rdma

open Runs

/-- What a wait for a send completion ends with. -/
inductive SendWait where
  | completed
  /-- A completion with an error status. -/
  | failed
  /-- No completion in time, or the queue could not be polled. -/
  | timedOut
  deriving DecidableEq, Repr

/-- What waiting for a request ends with; a time-out with the peer still there waits again. -/
inductive RecvWait where
  | completed
  /-- A completion with an error status. -/
  | failed
  /-- The peer closed, or the queue could not be polled. -/
  | gone
  deriving DecidableEq, Repr

/-- The queues of the card. -/
structure Endpoint where
  /-- The halves of the posted sends whose completion has not been reaped, the oldest first. -/
  sends : List ℕ
  /-- The slots a request may land in. -/
  posted : List ℕ
  /-- The requests that have landed, slot and length, whose completion has not been reaped. -/
  landed : List (ℕ × ℕ)
  deriving DecidableEq, Repr

namespace Endpoint

def recvSlots : ℕ := 2

/-- The error of an argument out of range. -/
def einval : ℕ := 22

/-- Reap the oldest send completion. -/
def waitSend (ep : Endpoint) : SendWait → Except String Unit × Endpoint
  | .completed =>
    match ep.sends with
    | _ :: sends => (.ok (), { ep with sends })
    | [] => (.error "rdma send completion timed out", ep)
  | .failed => (.error "rdma send completion status", { ep with sends := ep.sends.tail })
  | .timedOut => (.error "rdma send completion timed out", ep)

/-- Post `len` bytes of a half; `rc` is what the card answers. -/
def postSend (ep : Endpoint) (half len rc : ℕ) : Except String Unit × Endpoint :=
  let rc := if len = 0 then einval else rc
  if rc = 0 then (.ok (), { ep with sends := ep.sends ++ [half] })
  else (.error s!"ibv_post_send: errno {rc}", ep)

/-- Reap the oldest receive completion. -/
def waitRecv (ep : Endpoint) : RecvWait → Option (ℕ × ℕ) × Endpoint
  | .completed => (ep.landed.head?, { ep with landed := ep.landed.tail })
  | .failed => (none, { ep with landed := ep.landed.tail })
  | .gone => (none, ep)

def postRecv (ep : Endpoint) (slot rc : ℕ) : Except String Unit × Endpoint :=
  let rc := if recvSlots ≤ slot then einval else rc
  if rc = 0 then (.ok (), { ep with posted := ep.posted ++ [slot] })
  else (.error s!"ibv_post_recv slot {slot}: errno {rc}", ep)

end Endpoint

structure RdmaTransport where
  ep : Endpoint
  /-- The bytes of the slots. -/
  ring : List (List UInt8)
  sendCur : ℕ
  sendPending : List Bool
  /-- The slot lent out. -/
  held : Option ℕ
  deriving DecidableEq, Repr

/-- The largest return frame. -/
def retMax : ℕ :=
  (Wire.headerLen + 4096 * Wire.returnRowBytesCanonical + 4095) / 4096 * 4096

namespace RdmaTransport

/-- After the handshake both slots are posted. -/
def accept : RdmaTransport :=
  { ep := { sends := [], posted := [0, 1], landed := [] }, ring := [[], []], sendCur := 0,
    sendPending := [false, false], held := none }

variable (t : RdmaTransport)

/-- The half the next return goes in. -/
def sendBuffer (wait : SendWait) : Option ℕ × RdmaTransport :=
  if t.sendPending.getD t.sendCur false then
    match t.ep.waitSend wait with
    | (.error _, ep) => (none, { t with ep })
    | (.ok (), ep) =>
      (some t.sendCur, { t with ep, sendPending := t.sendPending.set t.sendCur false })
  else (some t.sendCur, t)

/-- Post the first `len` bytes of the current half. -/
def sendInPlace (len rc : ℕ) : Except String Unit × RdmaTransport :=
  if retMax < len then (.error "rdma: in-place frame exceeds the send buffer", t)
  else
    match t.ep.postSend t.sendCur len rc with
    | (.error e, ep) => (.error e, { t with ep })
    | (.ok (), ep) =>
      (.ok (), { t with
        ep, sendPending := t.sendPending.set t.sendCur true, sendCur := t.sendCur ^^^ 1 })

def send (bytes : List UInt8) (wait : SendWait) (rc : ℕ) : Except String Unit × RdmaTransport :=
  match t.sendBuffer wait with
  | (none, t) => (.error "rdma: no send buffer", t)
  | (some _, t) =>
    if retMax < bytes.length then (.error "rdma: return frame exceeds the send buffer", t)
    else t.sendInPlace bytes.length rc

/-- The request that landed first, copied, and its slot posted again. -/
def recv (wait : RecvWait) (rc : ℕ) : Option (List UInt8) × RdmaTransport :=
  match t.ep.waitRecv wait with
  | (none, ep) => (none, { t with ep })
  | (some (slot, len), ep) =>
    match ep.postRecv slot rc with
    | (.error _, ep) => (none, { t with ep })
    | (.ok (), ep) => (some ((t.ring.getD slot []).take len), { t with ep })

/-- The slot of the request that landed first, and its length. -/
def recvSlot (wait : RecvWait) : Option (ℕ × ℕ) × RdmaTransport :=
  if t.held.isSome then (none, t)
  else
    match t.ep.waitRecv wait with
    | (none, ep) => (none, { t with ep })
    | (some (slot, len), ep) => (some (slot, len), { t with ep, held := some slot })

def releaseSlot (rc : ℕ) : Except String Unit × RdmaTransport :=
  match t.held with
  | none => (.ok (), t)
  | some slot =>
    let r := t.ep.postRecv slot rc
    (r.1, { t with ep := r.2, held := none })

/-- A request lands in a posted slot. -/
def land (slot : ℕ) (bytes : List UInt8) : RdmaTransport :=
  if slot ∈ t.ep.posted then
    { t with
      ep := { t.ep with
        posted := t.ep.posted.erase slot
        landed := t.ep.landed ++ [(slot, bytes.length)] }
      ring := t.ring.set slot bytes }
  else t

end RdmaTransport

/-- A call of the transport, or a request that lands in between. -/
inductive Call where
  | sendBuffer (wait : SendWait)
  | send (bytes : List UInt8) (wait : SendWait) (rc : ℕ)
  | sendInPlace (len rc : ℕ)
  | recv (wait : RecvWait) (rc : ℕ)
  | recvSlot (wait : RecvWait)
  | releaseSlot (rc : ℕ)
  | land (slot : ℕ) (bytes : List UInt8)
  deriving DecidableEq, Repr

/-- The transport, and the half lent to its caller and not posted since. -/
structure Session where
  transport : RdmaTransport
  lent : Option ℕ
  deriving DecidableEq, Repr

namespace Session

/-- A half is the caller's from where it is lent to its post. -/
def lentAfter (lent : Option ℕ) (r : Except String Unit) : Option ℕ :=
  match r with
  | .ok () => none
  | .error _ => lent

def step (s : Session) : Call → Session
  | .sendBuffer wait =>
    let r := s.transport.sendBuffer wait
    ⟨r.2, r.1 <|> s.lent⟩
  | .send bytes wait rc =>
    let r := s.transport.send bytes wait rc
    ⟨r.2, lentAfter ((s.transport.sendBuffer wait).1 <|> s.lent) r.1⟩
  | .sendInPlace len rc =>
    let r := s.transport.sendInPlace len rc
    ⟨r.2, lentAfter s.lent r.1⟩
  | .recv wait rc => ⟨(s.transport.recv wait rc).2, s.lent⟩
  | .recvSlot wait => ⟨(s.transport.recvSlot wait).2, s.lent⟩
  | .releaseSlot rc => ⟨(s.transport.releaseSlot rc).2, s.lent⟩
  | .land slot bytes => ⟨s.transport.land slot bytes, s.lent⟩

def accept : Session := ⟨.accept, none⟩

end Session

/-- A half is posted in place only after it was lent. -/
def InTurn (s : Session) : Call → Prop
  | .sendInPlace _ _ => s.lent.isSome
  | _ => True

/-! ### Halves -/

/-- The sends that are not reaped are at most one of each half, the current half's the older, and a
half that is read is flagged. -/
structure Turn (t : RdmaTransport) : Prop where
  cur_lt : t.sendCur < 2
  flags : t.sendPending.length = 2
  order : t.ep.sends.Sublist [t.sendCur, t.sendCur ^^^ 1]
  flagged : ∀ i ∈ t.ep.sends, t.sendPending.getD i false = true

theorem xor_one {i : ℕ} (hi : i < 2) : i ^^^ 1 < 2 ∧ i ^^^ 1 ≠ i ∧ i ^^^ 1 ^^^ 1 = i := by
  rcases i with _ | _ | i
  · decide
  · decide
  · omega

/-- A flag is kept where it is not set. -/
theorem getD_set_of_ne {l : List Bool} {i j : ℕ} (h : i ≠ j) (b : Bool) :
    (l.set i b).getD j false = l.getD j false := by
  rw [List.getD_eq_getElem?_getD, List.getElem?_set_ne h, ← List.getD_eq_getElem?_getD]

theorem getD_set_self {l : List Bool} {i : ℕ} (hi : i < l.length) (b : Bool) :
    (l.set i b).getD i false = b := by
  rw [List.getD_eq_getElem?_getD, List.getElem?_set_self hi]
  rfl

variable {t : RdmaTransport}

/-- Behind the oldest send the current half is not read. -/
theorem cur_notMem_tail (h : Turn t) : t.sendCur ∉ t.ep.sends.tail := by
  intro hmem
  have htail := h.order.tail.subset hmem
  rw [List.tail_cons, List.mem_singleton] at htail
  exact (xor_one h.cur_lt).2.1 htail.symm

theorem waitSend_sends (ep : Endpoint) (wait : SendWait) :
    (ep.waitSend wait).2 = { ep with sends := (ep.waitSend wait).2.sends } ∧
      ((ep.waitSend wait).1 = .ok () → (ep.waitSend wait).2.sends = ep.sends.tail) ∧
        (ep.waitSend wait).2.sends.Sublist ep.sends := by
  cases wait with
  | completed =>
    rw [Endpoint.waitSend]
    cases hsends : ep.sends with
    | nil =>
      refine ⟨rfl, fun h => (by cases h), ?_⟩
      rw [hsends]
    | cons a sends => exact ⟨rfl, fun _ => rfl, List.sublist_cons_self a sends⟩
  | failed => exact ⟨rfl, fun h => (by cases h), List.tail_sublist _⟩
  | timedOut => exact ⟨rfl, fun h => (by cases h), List.Sublist.refl _⟩

/-- **Lending** a half: it is the current one and is not read any more. -/
theorem sendBuffer_spec (h : Turn t) (wait : SendWait) :
    Turn (t.sendBuffer wait).2 ∧ (t.sendBuffer wait).2.sendCur = t.sendCur ∧
      (t.sendBuffer wait).2.ep.sends.Sublist t.ep.sends ∧
        ∀ i, (t.sendBuffer wait).1 = some i →
          i = t.sendCur ∧ i ∉ (t.sendBuffer wait).2.ep.sends := by
  rw [RdmaTransport.sendBuffer]
  split
  · obtain ⟨-, htail, hsub⟩ := waitSend_sends t.ep wait
    generalize t.ep.waitSend wait = r at htail hsub ⊢
    obtain ⟨res, ep⟩ := r
    cases res with
    | error e =>
      exact ⟨⟨h.cur_lt, h.flags, hsub.trans h.order, fun i hi => h.flagged i (hsub.subset hi)⟩,
        rfl, hsub, fun i hi => (by cases hi)⟩
    | ok u =>
      have hnot : t.sendCur ∉ ep.sends := by
        rw [show ep.sends = t.ep.sends.tail from htail rfl]
        exact cur_notMem_tail h
      refine ⟨⟨h.cur_lt, by rw [List.length_set, h.flags], hsub.trans h.order, fun i hi => ?_⟩,
        rfl, hsub, fun i hi => ?_⟩
      · have hne : t.sendCur ≠ i := by
          intro heq
          rw [heq] at hnot
          exact hnot hi
        rw [getD_set_of_ne hne]
        exact h.flagged i (hsub.subset hi)
      · obtain rfl := Option.some.inj hi
        exact ⟨rfl, hnot⟩
  · next hflag =>
    refine ⟨h, rfl, List.Sublist.refl _, fun i hi => ?_⟩
    obtain rfl := Option.some.inj hi
    exact ⟨rfl, fun hmem => hflag (h.flagged _ hmem)⟩

/-- A post enters the half, or nothing. -/
theorem postSend_cases (ep : Endpoint) (half len rc : ℕ) :
    ep.postSend half len rc = (.ok (), { ep with sends := ep.sends ++ [half] }) ∨
      ∃ e, ep.postSend half len rc = (.error e, ep) := by
  unfold Endpoint.postSend
  generalize (if len = 0 then Endpoint.einval else rc) = answer
  dsimp only
  split
  · exact .inl rfl
  · exact .inr ⟨_, rfl⟩

theorem postRecv_cases (ep : Endpoint) (slot rc : ℕ) :
    ep.postRecv slot rc = (.ok (), { ep with posted := ep.posted ++ [slot] }) ∨
      ∃ e, ep.postRecv slot rc = (.error e, ep) := by
  unfold Endpoint.postRecv
  generalize (if Endpoint.recvSlots ≤ slot then Endpoint.einval else rc) = answer
  dsimp only
  split
  · exact .inl rfl
  · exact .inr ⟨_, rfl⟩

/-- **Posting** a half that is not read makes it the newest, and the other one current. -/
theorem sendInPlace_spec (h : Turn t) (hcur : t.sendCur ∉ t.ep.sends) (len rc : ℕ) :
    Turn (t.sendInPlace len rc).2 ∧ ((t.sendInPlace len rc).1 ≠ .ok () →
      (t.sendInPlace len rc).2.sendCur = t.sendCur ∧
        (t.sendInPlace len rc).2.ep.sends = t.ep.sends) := by
  rw [RdmaTransport.sendInPlace]
  split
  · exact ⟨h, fun _ => ⟨rfl, rfl⟩⟩
  · rcases postSend_cases t.ep t.sendCur len rc with hpost | ⟨e, hpost⟩
    · rw [hpost]
      refine ⟨?_, fun hne => absurd rfl hne⟩
      obtain ⟨hlt, -, hback⟩ := xor_one h.cur_lt
      refine ⟨hlt, by rw [List.length_set, h.flags], ?_, fun i hi => ?_⟩
      · -- only the other half is still read, and it is the current one now
        have hother : t.ep.sends.Sublist [t.sendCur ^^^ 1] := by
          rcases List.sublist_cons_iff.mp h.order with hsub | ⟨sends, heq, -⟩
          · exact hsub
          · exact absurd (heq ▸ List.mem_cons_self) hcur
        rw [hback]
        exact hother.append (List.Sublist.refl [t.sendCur])
      · rcases List.mem_append.mp hi with hmem | hmem
        · have hne : t.sendCur ≠ i := by
            intro heq
            rw [heq] at hcur
            exact hcur hmem
          rw [getD_set_of_ne hne]
          exact h.flagged i hmem
        · obtain rfl := List.mem_singleton.mp hmem
          exact getD_set_self (by rw [h.flags]; exact h.cur_lt) true
    · rw [hpost]
      exact ⟨h, fun _ => ⟨rfl, rfl⟩⟩

/-! ### Slots -/

/-- A slot is lent, posted or landed in once. -/
def Placed (t : RdmaTransport) : Prop :=
  (t.held.toList ++ (t.ep.posted ++ t.ep.landed.map Prod.fst)).Nodup

/-- What the calls that send leave alone. -/
structure SameSlots (t t' : RdmaTransport) : Prop where
  held : t'.held = t.held
  posted : t'.ep.posted = t.ep.posted
  landed : t'.ep.landed = t.ep.landed
  ring : t'.ring = t.ring

theorem SameSlots.trans {t t' t'' : RdmaTransport} (h : SameSlots t t') (h' : SameSlots t' t'') :
    SameSlots t t'' :=
  ⟨h'.held.trans h.held, h'.posted.trans h.posted, h'.landed.trans h.landed, h'.ring.trans h.ring⟩

theorem SameSlots.placed {t' : RdmaTransport} (h : SameSlots t t') (hplaced : Placed t) :
    Placed t' := by
  rw [Placed, h.held, h.posted, h.landed]
  exact hplaced

theorem sendBuffer_slots (t : RdmaTransport) (wait : SendWait) :
    SameSlots t (t.sendBuffer wait).2 := by
  rw [RdmaTransport.sendBuffer]
  split
  · obtain ⟨hep, -, -⟩ := waitSend_sends t.ep wait
    generalize t.ep.waitSend wait = r at hep ⊢
    obtain ⟨res, ep⟩ := r
    dsimp only at hep
    cases res with
    | error e => exact ⟨rfl, by rw [hep], by rw [hep], rfl⟩
    | ok u => exact ⟨rfl, by rw [hep], by rw [hep], rfl⟩
  · exact ⟨rfl, rfl, rfl, rfl⟩

theorem sendInPlace_slots (t : RdmaTransport) (len rc : ℕ) :
    SameSlots t (t.sendInPlace len rc).2 := by
  rw [RdmaTransport.sendInPlace]
  split
  · exact ⟨rfl, rfl, rfl, rfl⟩
  · rcases postSend_cases t.ep t.sendCur len rc with hpost | ⟨e, hpost⟩
    · rw [hpost]
      exact ⟨rfl, rfl, rfl, rfl⟩
    · rw [hpost]
      exact ⟨rfl, rfl, rfl, rfl⟩

theorem send_slots (t : RdmaTransport) (bytes : List UInt8) (wait : SendWait) (rc : ℕ) :
    SameSlots t (t.send bytes wait rc).2 := by
  have h := sendBuffer_slots t wait
  rw [RdmaTransport.send]
  generalize t.sendBuffer wait = r at h ⊢
  obtain ⟨half, t'⟩ := r
  cases half with
  | none => exact h
  | some i =>
    dsimp only
    split
    · exact h
    · exact h.trans (sendInPlace_slots t' bytes.length rc)

/-- What waiting for a request leaves alone, and what it takes. -/
theorem waitRecv_landed (ep : Endpoint) (wait : RecvWait) :
    (ep.waitRecv wait).2.sends = ep.sends ∧ (ep.waitRecv wait).2.posted = ep.posted ∧
      (ep.waitRecv wait).2.landed.Sublist ep.landed ∧
        ∀ x, (ep.waitRecv wait).1 = some x → ep.landed = x :: (ep.waitRecv wait).2.landed := by
  cases wait with
  | completed =>
    refine ⟨rfl, rfl, List.tail_sublist _, fun x hx => ?_⟩
    exact List.eq_cons_of_mem_head? hx
  | failed => exact ⟨rfl, rfl, List.tail_sublist _, fun x hx => (by cases hx)⟩
  | gone => exact ⟨rfl, rfl, List.Sublist.refl _, fun x hx => (by cases hx)⟩

/-- Fewer requests landed. -/
theorem Placed.landed {landed : List (ℕ × ℕ)} (h : Placed t) (hsub : landed.Sublist t.ep.landed) :
    (t.held.toList ++ (t.ep.posted ++ landed.map Prod.fst)).Nodup :=
  h.sublist ((List.Sublist.refl _).append ((List.Sublist.refl _).append (hsub.map Prod.fst)))

theorem recv_placed (h : Placed t) (wait : RecvWait) (rc : ℕ) :
    Placed (t.recv wait rc).2 ∧ (t.recv wait rc).2.held = t.held ∧
      (t.recv wait rc).2.ring = t.ring ∧
        (t.recv wait rc).2.ep.sends = t.ep.sends ∧ (t.recv wait rc).2.sendCur = t.sendCur ∧
          (t.recv wait rc).2.sendPending = t.sendPending := by
  obtain ⟨hsends, hposted, hsub, htaken⟩ := waitRecv_landed t.ep wait
  rw [RdmaTransport.recv]
  generalize t.ep.waitRecv wait = r at hsends hposted hsub htaken ⊢
  obtain ⟨taken, ep⟩ := r
  have hrest : (t.held.toList ++ (ep.posted ++ ep.landed.map Prod.fst)).Nodup := by
    rw [hposted]
    exact h.landed hsub
  cases taken with
  | none => exact ⟨hrest, rfl, rfl, hsends, rfl, rfl⟩
  | some x =>
    obtain ⟨slot, len⟩ := x
    dsimp only
    rcases postRecv_cases ep slot rc with hpost | ⟨e, hpost⟩
    · rw [hpost]
      refine ⟨?_, rfl, rfl, hsends, rfl, rfl⟩
      rw [Placed, htaken (slot, len) rfl, ← hposted, List.map_cons] at h
      show (t.held.toList ++ ((ep.posted ++ [slot]) ++ ep.landed.map Prod.fst)).Nodup
      rwa [List.append_assoc, List.singleton_append]
    · rw [hpost]
      exact ⟨hrest, rfl, rfl, hsends, rfl, rfl⟩

theorem recvSlot_placed (h : Placed t) (wait : RecvWait) :
    Placed (t.recvSlot wait).2 ∧ (∀ slot, t.held = some slot → (t.recvSlot wait).2.held = some slot) ∧
      (t.recvSlot wait).2.ring = t.ring ∧
        (t.recvSlot wait).2.ep.sends = t.ep.sends ∧ (t.recvSlot wait).2.sendCur = t.sendCur ∧
          (t.recvSlot wait).2.sendPending = t.sendPending := by
  rw [RdmaTransport.recvSlot]
  split
  · exact ⟨h, fun slot hslot => hslot, rfl, rfl, rfl, rfl⟩
  · next hfree =>
    have hnone : t.held = none := by simpa using hfree
    obtain ⟨hsends, hposted, hsub, htaken⟩ := waitRecv_landed t.ep wait
    generalize t.ep.waitRecv wait = r at hsends hposted hsub htaken ⊢
    obtain ⟨taken, ep⟩ := r
    cases taken with
    | none =>
      refine ⟨?_, fun slot hslot => hslot, rfl, hsends, rfl, rfl⟩
      show (t.held.toList ++ (ep.posted ++ ep.landed.map Prod.fst)).Nodup
      rw [hposted]
      exact h.landed hsub
    | some x =>
      obtain ⟨slot, len⟩ := x
      refine ⟨?_, fun s hs => absurd (hnone.symm.trans hs) (by simp), rfl, hsends, rfl, rfl⟩
      rw [Placed, hnone, htaken (slot, len) rfl, ← hposted, List.map_cons] at h
      have hnodup : (ep.posted ++ slot :: ep.landed.map Prod.fst).Nodup := h
      show (slot :: (ep.posted ++ ep.landed.map Prod.fst)).Nodup
      exact List.perm_middle.nodup_iff.mp hnodup

theorem releaseSlot_placed (h : Placed t) (rc : ℕ) :
    Placed (t.releaseSlot rc).2 ∧ (t.releaseSlot rc).2.ring = t.ring ∧
      (t.releaseSlot rc).2.ep.sends = t.ep.sends ∧ (t.releaseSlot rc).2.sendCur = t.sendCur ∧
        (t.releaseSlot rc).2.sendPending = t.sendPending := by
  rw [RdmaTransport.releaseSlot]
  cases hheld : t.held with
  | none => exact ⟨h, rfl, rfl, rfl, rfl⟩
  | some slot =>
    rw [Placed, hheld] at h
    dsimp only
    rcases postRecv_cases t.ep slot rc with hpost | ⟨e, hpost⟩
    · rw [hpost]
      refine ⟨?_, rfl, rfl, rfl, rfl⟩
      show ([] ++ ((t.ep.posted ++ [slot]) ++ t.ep.landed.map Prod.fst)).Nodup
      rw [List.append_assoc, List.singleton_append]
      exact List.perm_middle.nodup_iff.mpr h
    · rw [hpost]
      refine ⟨h.sublist ?_, rfl, rfl, rfl, rfl⟩
      exact List.sublist_append_right [slot] (t.ep.posted ++ t.ep.landed.map Prod.fst)

/-- A request lands in a slot that is not lent. -/
theorem land_placed (h : Placed t) (slot : ℕ) (bytes : List UInt8) :
    Placed (t.land slot bytes) ∧ (t.land slot bytes).held = t.held ∧
      (∀ held, t.held = some held → (t.land slot bytes).ring.getD held [] = t.ring.getD held []) ∧
        (t.land slot bytes).ep.sends = t.ep.sends ∧ (t.land slot bytes).sendCur = t.sendCur ∧
          (t.land slot bytes).sendPending = t.sendPending := by
  rw [RdmaTransport.land]
  split
  · next hmem =>
    refine ⟨?_, rfl, fun held hheld => ?_, rfl, rfl, rfl⟩
    · show (t.held.toList ++ (t.ep.posted.erase slot ++
        (t.ep.landed ++ [(slot, bytes.length)]).map Prod.fst)).Nodup
      refine (List.Perm.nodup_iff ?_).mp h
      refine List.Perm.append_left _ ?_
      rw [List.map_append, ← List.append_assoc]
      refine ((List.perm_cons_erase hmem).append_right _).trans ?_
      exact (List.perm_append_singleton slot _).symm
    · have hne : slot ≠ held := by
        intro heq
        rw [Placed, hheld, ← heq] at h
        have hnodup : (slot :: (t.ep.posted ++ t.ep.landed.map Prod.fst)).Nodup := h
        exact (List.nodup_cons.mp hnodup).1 (List.mem_append_left _ hmem)
      rw [List.getD_eq_getElem?_getD, List.getElem?_set_ne hne, ← List.getD_eq_getElem?_getD]
  · exact ⟨h, rfl, fun held _ => rfl, rfl, rfl, rfl⟩

/-! ### Runs -/

/-- The halves are used in turn, and the one lent is the current one and not read. -/
structure Alternating (s : Session) : Prop where
  turn : Turn s.transport
  lent : ∀ i, s.lent = some i → i = s.transport.sendCur ∧ i ∉ s.transport.ep.sends

theorem alternating_accept : Alternating .accept :=
  ⟨⟨by decide, rfl, List.nil_sublist _, List.forall_mem_nil _⟩, fun i hi => (by cases hi)⟩

/-- What does not touch the halves keeps their use. -/
theorem Alternating.same {s : Session} {t : RdmaTransport} (h : Alternating s)
    (hsends : t.ep.sends = s.transport.ep.sends) (hcur : t.sendCur = s.transport.sendCur)
    (hflags : t.sendPending = s.transport.sendPending) : Alternating ⟨t, s.lent⟩ := by
  refine ⟨⟨?_, ?_, ?_, ?_⟩, ?_⟩
  · exact hcur ▸ h.turn.cur_lt
  · exact hflags ▸ h.turn.flags
  · rw [hsends, hcur]
    exact h.turn.order
  · rw [hsends, hflags]
    exact h.turn.flagged
  · rw [hsends, hcur]
    exact h.lent

/-- Lending. -/
theorem Alternating.sendBuffer {s : Session} (h : Alternating s) (wait : SendWait) :
    Alternating ⟨(s.transport.sendBuffer wait).2,
      (s.transport.sendBuffer wait).1 <|> s.lent⟩ := by
  obtain ⟨hturn, hcur, hsub, hlent⟩ := sendBuffer_spec h.turn wait
  refine ⟨hturn, fun i hi => ?_⟩
  dsimp only at hi ⊢
  cases hres : (s.transport.sendBuffer wait).1 with
  | none =>
    rw [hres] at hi
    obtain ⟨heq, hnot⟩ := h.lent i hi
    exact ⟨hcur ▸ heq, fun hmem => hnot (hsub.subset hmem)⟩
  | some j =>
    rw [hres] at hi
    obtain rfl := Option.some.inj hi
    rw [hcur]
    exact hlent _ hres

/-- Posting what was lent. -/
theorem Alternating.sendInPlace {s : Session} (h : Alternating s) (hlent : s.lent.isSome)
    (len rc : ℕ) : Alternating ⟨(s.transport.sendInPlace len rc).2,
      Session.lentAfter s.lent (s.transport.sendInPlace len rc).1⟩ := by
  obtain ⟨i, hi⟩ := Option.isSome_iff_exists.mp hlent
  obtain ⟨rfl, hnot⟩ := h.lent i hi
  obtain ⟨hturn, hfail⟩ := sendInPlace_spec h.turn hnot len rc
  refine ⟨hturn, ?_⟩
  generalize s.transport.sendInPlace len rc = r at hfail ⊢
  obtain ⟨res, t⟩ := r
  cases res with
  | ok u => exact fun i hi => (by cases hi)
  | error e =>
    obtain ⟨hcur, hsends⟩ := hfail (fun h => (by cases h))
    dsimp only at hcur hsends ⊢
    rw [hcur, hsends]
    exact h.lent

/-- **The step.** -/
theorem Alternating.step {s : Session} (h : Alternating s) {call : Call} (hin : InTurn s call)
    (hplaced : Placed s.transport) : Alternating (s.step call) := by
  cases call with
  | sendBuffer wait => exact h.sendBuffer wait
  | send bytes wait rc =>
    have hlend := h.sendBuffer wait
    rw [Session.step, RdmaTransport.send]
    generalize s.transport.sendBuffer wait = r at hlend ⊢
    obtain ⟨half, t⟩ := r
    cases half with
    | none => exact hlend
    | some i =>
      dsimp only
      split
      · exact hlend
      · exact hlend.sendInPlace rfl bytes.length rc
  | sendInPlace len rc => exact h.sendInPlace hin len rc
  | recv wait rc =>
    obtain ⟨-, -, -, hsends, hcur, hflags⟩ := recv_placed hplaced wait rc
    exact h.same hsends hcur hflags
  | recvSlot wait =>
    obtain ⟨-, -, -, hsends, hcur, hflags⟩ := recvSlot_placed hplaced wait
    exact h.same hsends hcur hflags
  | releaseSlot rc =>
    obtain ⟨-, -, hsends, hcur, hflags⟩ := releaseSlot_placed hplaced rc
    exact h.same hsends hcur hflags
  | land slot bytes =>
    obtain ⟨-, -, -, hsends, hcur, hflags⟩ := land_placed hplaced slot bytes
    exact h.same hsends hcur hflags

/-- **The step** of the slots: one that is lent stays so, with its bytes, until it is released. -/
theorem Placed.step {s : Session} (h : Placed s.transport) (call : Call) :
    Placed (s.step call).transport ∧ ((∀ rc, call ≠ .releaseSlot rc) →
      ∀ slot, s.transport.held = some slot → (s.step call).transport.held = some slot ∧
        (s.step call).transport.ring.getD slot [] = s.transport.ring.getD slot []) := by
  have hsame {t' : RdmaTransport} (hslots : SameSlots s.transport t') : Placed t' ∧
      ((∀ rc, call ≠ .releaseSlot rc) → ∀ slot, s.transport.held = some slot →
        t'.held = some slot ∧ t'.ring.getD slot [] = s.transport.ring.getD slot []) :=
    ⟨hslots.placed h, fun _ slot hslot => ⟨hslots.held.trans hslot, by rw [hslots.ring]⟩⟩
  cases call with
  | sendBuffer wait => exact hsame (sendBuffer_slots s.transport wait)
  | send bytes wait rc => exact hsame (send_slots s.transport bytes wait rc)
  | sendInPlace len rc => exact hsame (sendInPlace_slots s.transport len rc)
  | recv wait rc =>
    obtain ⟨hplaced, hheld, hring, -, -, -⟩ := recv_placed h wait rc
    exact ⟨hplaced, fun _ slot hslot => ⟨hheld.trans hslot, congrArg (·.getD slot []) hring⟩⟩
  | recvSlot wait =>
    obtain ⟨hplaced, hheld, hring, -, -, -⟩ := recvSlot_placed h wait
    exact ⟨hplaced, fun _ slot hslot => ⟨hheld slot hslot, congrArg (·.getD slot []) hring⟩⟩
  | releaseSlot rc =>
    exact ⟨(releaseSlot_placed h rc).1, fun hnot => absurd rfl (hnot rc)⟩
  | land slot bytes =>
    obtain ⟨hplaced, hheld, hring, -, -, -⟩ := land_placed h slot bytes
    exact ⟨hplaced, fun _ slot' hslot => ⟨hheld.trans hslot, hring slot' hslot⟩⟩

theorem placed_accept : Placed .accept := by
  show [0, 1].Nodup
  decide

theorem placed_run (calls : List Call) : Placed (run Session.step .accept calls).transport :=
  @inv_run _ _ Session.step (fun _ _ => True) (fun s => Placed s.transport)
    (fun _ call h _ => (h.step call).1) _ placed_accept _
    (along_of_forall fun _ _ => trivial)

theorem alternating_run {calls : List Call} (hcalls : Along Session.step InTurn .accept calls) :
    Alternating (run Session.step .accept calls) :=
  (@inv_run _ _ Session.step InTurn (fun s => Alternating s ∧ Placed s.transport)
    (fun _ call h hin => ⟨h.1.step hin h.2, (h.2.step call).1⟩) _
    ⟨alternating_accept, placed_accept⟩ _ hcalls).1

/-- **The buffers.** However posts and waits end, a half lent by `send_buffer` is not that of a send
that is not reaped, up to its own post, as long as halves are posted in place after they were lent;
and a slot lent by `recv_slot` is not posted, and keeps its bytes, until it is released. -/
theorem buffers_run (calls : List Call) :
    (Along Session.step InTurn .accept calls → ∀ n,
      (∀ i, (run Session.step .accept (calls.take n)).lent = some i →
        i ∉ (run Session.step .accept (calls.take n)).transport.ep.sends) ∧
        ∀ wait i,
          ((run Session.step .accept (calls.take n)).transport.sendBuffer wait).1 = some i →
            i ∉ ((run Session.step .accept (calls.take n)).transport.sendBuffer wait).2.ep.sends) ∧
      ∀ n,
        (∀ wait slot len,
          ((run Session.step .accept (calls.take n)).transport.recvSlot wait).1 = some (slot, len) →
            ((run Session.step .accept (calls.take n)).transport.recvSlot wait).2.held =
              some slot) ∧
          ∀ slot, (run Session.step .accept (calls.take n)).transport.held = some slot →
            slot ∉ (run Session.step .accept (calls.take n)).transport.ep.posted ∧
              ∀ call, (∀ rc, call ≠ .releaseSlot rc) →
                ((run Session.step .accept (calls.take n)).step call).transport.held = some slot ∧
                  ((run Session.step .accept (calls.take n)).step call).transport.ring.getD slot [] =
                    (run Session.step .accept (calls.take n)).transport.ring.getD slot [] := by
  refine ⟨fun hcalls n => ?_, fun n => ?_⟩
  · rw [← List.take_append_drop n calls] at hcalls
    have h := alternating_run hcalls.of_append
    exact ⟨fun i hi => (h.lent i hi).2, fun wait i hi => ((sendBuffer_spec h.turn wait).2.2.2 i hi).2⟩
  · have h := placed_run (calls.take n)
    generalize run Session.step .accept (calls.take n) = s at h
    refine ⟨fun wait slot len hlent => ?_, fun slot hheld => ⟨fun hmem => ?_, fun call hcall => ?_⟩⟩
    · rw [RdmaTransport.recvSlot] at hlent ⊢
      split at hlent
      · cases hlent
      · next hfree =>
        rw [if_neg hfree]
        generalize s.transport.ep.waitRecv wait = r at hlent ⊢
        obtain ⟨taken, ep⟩ := r
        cases taken with
        | none => cases hlent
        | some x =>
          obtain ⟨slot', len'⟩ := x
          cases hlent
          rfl
    · rw [Placed, hheld] at h
      have hnodup :
          (slot :: (s.transport.ep.posted ++ s.transport.ep.landed.map Prod.fst)).Nodup := h
      exact (List.nodup_cons.mp hnodup).1 (List.mem_append_left _ hmem)
    · exact (h.step call).2 hcall slot hheld

/-- Two returns, and a third whose first wait fails: the half it is lent has been reaped. -/
theorem buffers_run_thirdReturn :
    0 ∉ ((run Session.step .accept
      [.sendBuffer .completed, .sendInPlace 8192 0, .sendBuffer .completed, .sendInPlace 8192 0,
        .sendBuffer .timedOut]).transport.sendBuffer .completed).2.ep.sends :=
  ((buffers_run [.sendBuffer .completed, .sendInPlace 8192 0, .sendBuffer .completed,
    .sendInPlace 8192 0, .sendBuffer .timedOut]).1
      ⟨trivial, rfl, trivial, rfl, trivial, trivial⟩ 5).2 .completed 0 rfl

/-- Three posts of halves that were not lent: the next half lent is still read. -/
theorem not_buffers_unlent : ¬ ∀ (calls : List Call) (wait : SendWait) (i : ℕ),
    ((run Session.step .accept calls).transport.sendBuffer wait).1 = some i →
      i ∉ ((run Session.step .accept calls).transport.sendBuffer wait).2.ep.sends := by
  intro h
  exact h [.sendInPlace 8192 0, .sendInPlace 8192 0, .sendInPlace 8192 0] .completed 1 (by decide)
    (by decide)

end Rdma

end Spark

end Mimo26

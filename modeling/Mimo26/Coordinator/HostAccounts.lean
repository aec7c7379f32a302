import Mimo26.Coordinator.HostCache
import Mimo26.Library.Runs

/-!
# The accounts of the host cache

The page slots are free, hold a shared page or are the tail of one snapshot, the state slots are
free or hold the state of one snapshot, and a page has as many references as there are snapshots
that hold it. A capture that gives up because no slot is left, or whose state copy fails, returns
what it took. One that returns from a failed export or synchronization does not: the references it
took and the slots it holds are lost.

## Main definitions

* `Accounts` — the accounts, with the references and slots that a capture holds or that are lost
* `ArenasOk` — the accounts with nothing lost

## Main results

* `captures_capture`, `accounts_capture` — what a capture does, and what it loses
* `accounts_capturePages`, `accounts_captureTail` — what it writes, and where
* `arenasOk_run` — nothing is lost in a run whose exports and synchronizations succeed
* `not_arenasOk_failedExport` — a failed export loses a slot
-/

namespace Mimo26

namespace Coordinator

open RefPool Vec Runs

variable {ι R σ : Type} [DecidableEq ι] {z : HostSizes}

/-- The accounts, with the references `held`, the page slots `used` and the state slots `states`
that no snapshot has. -/
structure Accounts (sz : HostSizes) (c : HostCache ι R σ) (held : List ι)
    (used states : List Slot) :
    Prop where
  pages : Balanced (arenaSlots sz.pageBytes sz.pages) c.pages
    (c.snaps.flatMap (·.pages) ++ held) (c.snaps.filterMap (·.tail) ++ used)
  states : ∀ x, c.states.count x + (c.snaps.map (·.state)).count x + states.count x =
    (arenaSlots sz.stateBytes sz.states).count x

namespace HostCache

variable {c c' : HostCache ι R σ} {held : List ι} {used states : List Slot}

theorem nodup_arenaSlots {slotBytes : ℕ} (h : 0 < slotBytes) (slots : ℕ) :
    (arenaSlots slotBytes slots).Nodup := by
  rw [arenaSlots, List.nodup_reverse, List.nodup_flatMap]
  constructor
  · intro s _
    refine (List.nodup_reverse.mpr List.nodup_range).map fun i j hij => ?_
    exact Nat.eq_of_mul_eq_mul_right h (Prod.mk.inj hij).2
  · refine List.nodup_range.imp fun {s s'} hne => ?_
    intro x hx hx'
    obtain ⟨i, -, rfl⟩ := List.mem_map.mp hx
    obtain ⟨j, -, heq⟩ := List.mem_map.mp hx'
    exact hne (Prod.mk.inj heq).1.symm

/-! ### Evictions -/

/-- Some snapshots are gone; the data stay, and so do the slots of the pages left. -/
structure Evicts (c c' : HostCache ι R σ) : Prop where
  pageData : c'.pageData = c.pageData
  stateData : c'.stateData = c.stateData
  clock : c'.clock = c.clock
  snaps : ∀ s ∈ c'.snaps, s ∈ c.snaps
  slot : ∀ id e, c'.pages.find id = some e → ∃ e', c.pages.find id = some e' ∧ e'.slot = e.slot

theorem Evicts.refl (c : HostCache ι R σ) : Evicts c c :=
  ⟨rfl, rfl, rfl, fun _ h => h, fun _ e h => ⟨e, h, rfl⟩⟩

theorem Evicts.trans {c₁ c₂ c₃ : HostCache ι R σ} (h : Evicts c₁ c₂) (h' : Evicts c₂ c₃) :
    Evicts c₁ c₃ where
  pageData := h'.pageData.trans h.pageData
  stateData := h'.stateData.trans h.stateData
  clock := h'.clock.trans h.clock
  snaps s hs := h.snaps s (h'.snaps s hs)
  slot id e he := by
    obtain ⟨e', he', hslot'⟩ := h'.slot id e he
    obtain ⟨e'', he'', hslot''⟩ := h.slot id e' he'
    exact ⟨e'', he'', hslot''.trans hslot'⟩

/-- A page that is not held stays so. -/
theorem Evicts.find_eq_none (h : Evicts c c') {id : ι} (hid : c.pages.find id = none) :
    c'.pages.find id = none := by
  cases hfind : c'.pages.find id with
  | none => rfl
  | some e =>
    obtain ⟨e', he', -⟩ := h.slot id e hfind
    exact absurd (hid.symm.trans he') (by simp)

/-- Releasing a snapshot returns its slots and its references. -/
theorem accounts_release {s : Snapshot ι}
    (h : Accounts z c (s.pages ++ held) (s.tail.toList ++ used) (s.state :: states)) :
    Accounts z (c.release s) held used states := by
  refine ⟨?_, fun x => ?_⟩
  · have hpages := h.pages.perm (List.perm_append_comm_assoc _ s.pages _)
      (List.perm_append_comm_assoc _ s.tail.toList _)
    show Balanced _ (Pool.dropAll _ s.pages) _ _
    cases htail : s.tail with
    | none =>
      rw [htail] at hpages
      exact hpages.dropAll
    | some t =>
      rw [htail] at hpages
      exact Balanced.dropAll hpages.push
  · have hstates := h.states x
    rw [List.count_cons] at hstates
    show (s.state :: c.states).count x + (c.snaps.map (·.state)).count x + _ = _
    rw [List.count_cons]
    omega

theorem evicts_release (c : HostCache ι R σ) (s : Snapshot ι) : Evicts c (c.release s) := by
  refine ⟨rfl, rfl, rfl, fun _ h => h, fun id e he => ?_⟩
  rw [release] at he
  obtain ⟨e', he', hslot⟩ := Pool.find_dropAll he
  refine ⟨e', ?_, hslot⟩
  cases htail : s.tail with
  | none =>
    rw [htail] at he'
    exact he'
  | some t =>
    rw [htail] at he'
    exact he'

/-- What an eviction does. -/
theorem evictOne_some (h : c.evictOne = some c') :
    Evicts c c' ∧ c'.snaps.length < c.snaps.length ∧
      ∀ {held : List ι} {used states : List Slot}, Accounts z c held used states →
        Accounts z c' held used states := by
  rw [evictOne] at h
  split at h
  · exact absurd h (by simp)
  · next i hi =>
    split at h
    · exact absurd h (by simp)
    · next s hs =>
      obtain rfl := Option.some.inj h
      have hperm := perm_swapRemove hs
      have hlen := hperm.length_eq
      rw [List.length_cons] at hlen
      refine ⟨?_, ?_, fun {held used states} hacc => ?_⟩
      · have hev := evicts_release { c with snaps := swapRemove c.snaps i } s
        exact ⟨hev.pageData, hev.stateData, hev.clock,
          fun x hx => mem_swapRemove (hev.snaps x hx), hev.slot⟩
      · show (swapRemove c.snaps i).length < _
        omega
      · refine accounts_release ⟨?_, fun x => ?_⟩
        · refine hacc.pages.perm ?_ ?_
          · show List.Perm _ ((swapRemove c.snaps i).flatMap (·.pages) ++ (s.pages ++ held))
            rw [← List.append_assoc]
            refine List.Perm.append_right held ?_
            refine (hperm.flatMap_right _).trans ?_
            rw [List.flatMap_cons]
            exact List.perm_append_comm
          · show List.Perm _ ((swapRemove c.snaps i).filterMap (·.tail) ++ (s.tail.toList ++ used))
            rw [← List.append_assoc]
            refine List.Perm.append_right used ?_
            refine (hperm.filterMap _).trans ?_
            rw [List.filterMap_cons]
            cases s.tail with
            | none => simp
            | some t => exact (List.perm_append_singleton t _).symm
        · have hcount := (hperm.map (·.state)).count_eq x
          have hstates := hacc.states x
          rw [List.map_cons, List.count_cons] at hcount
          show c.states.count x + ((swapRemove c.snaps i).map (·.state)).count x + _ = _
          rw [List.count_cons]
          omega

theorem evictOne_none (h : c.evictOne = none) : c.snaps = [] := by
  rw [evictOne] at h
  split at h
  · next hi => exact minIdx_eq_none hi
  · next i hi =>
    split at h
    · next hs =>
      have hlt := minIdx_lt hi
      rw [List.getElem?_eq_none_iff] at hs
      omega
    · exact absurd h (by simp)

/-! ### Allocation -/

/-- What an allocation of a page slot does. -/
theorem allocPageLoop_spec {n : ℕ} {o : Option Slot} (h : allocPageLoop n c = (o, c')) :
    Evicts c c' ∧ ∀ {held : List ι} {used states : List Slot},
      Accounts z c held used states → Accounts z c' held (o.toList ++ used) states := by
  induction n generalizing c with
  | zero =>
    rw [allocPageLoop] at h
    split at h
    · next slot free hfree =>
      obtain ⟨rfl, rfl⟩ := Prod.mk.inj h
      refine ⟨⟨rfl, rfl, rfl, fun _ hs => hs, fun _ e he => ⟨e, he, rfl⟩⟩, fun hacc => ?_⟩
      exact ⟨(hacc.pages.pop hfree).perm (List.Perm.refl _) List.perm_middle.symm, hacc.states⟩
    · obtain ⟨rfl, rfl⟩ := Prod.mk.inj h
      exact ⟨Evicts.refl c, fun hacc => hacc⟩
  | succ n ih =>
    rw [allocPageLoop] at h
    split at h
    · next slot free hfree =>
      obtain ⟨rfl, rfl⟩ := Prod.mk.inj h
      refine ⟨⟨rfl, rfl, rfl, fun _ hs => hs, fun _ e he => ⟨e, he, rfl⟩⟩, fun hacc => ?_⟩
      exact ⟨(hacc.pages.pop hfree).perm (List.Perm.refl _) List.perm_middle.symm, hacc.states⟩
    · split at h
      · obtain ⟨rfl, rfl⟩ := Prod.mk.inj h
        exact ⟨Evicts.refl c, fun hacc => hacc⟩
      · next c₁ hev =>
        obtain ⟨hevicts, -, hkeep⟩ := evictOne_some (z := z) hev
        obtain ⟨hevicts', hacc'⟩ := ih h
        exact ⟨hevicts.trans hevicts', fun hacc => hacc' (hkeep hacc)⟩

theorem popState_spec {slot : Slot} {free : List Slot} (hfree : c.states = slot :: free) :
    Evicts c { c with states := free } ∧ ∀ {held : List ι} {used states : List Slot},
      Accounts z c held used states →
        Accounts z { c with states := free } held used (slot :: states) := by
  refine ⟨⟨rfl, rfl, rfl, fun _ hs => hs, fun _ e he => ⟨e, he, rfl⟩⟩, fun hacc => ?_⟩
  refine ⟨hacc.pages, fun x => ?_⟩
  have hstates := hacc.states x
  rw [hfree, List.count_cons] at hstates
  show free.count x + (c.snaps.map (·.state)).count x + _ = _
  rw [List.count_cons]
  omega

/-- What an allocation of a state slot does. -/
theorem allocStateLoop_spec {n : ℕ} {o : Option Slot} (h : allocStateLoop n c = (o, c')) :
    Evicts c c' ∧ ∀ {held : List ι} {used states : List Slot},
      Accounts z c held used states → Accounts z c' held used (o.toList ++ states) := by
  induction n generalizing c with
  | zero =>
    rw [allocStateLoop] at h
    split at h
    · next slot free hfree =>
      obtain ⟨rfl, rfl⟩ := Prod.mk.inj h
      exact popState_spec hfree
    · obtain ⟨rfl, rfl⟩ := Prod.mk.inj h
      exact ⟨Evicts.refl c, fun hacc => hacc⟩
  | succ n ih =>
    rw [allocStateLoop] at h
    split at h
    · next slot free hfree =>
      obtain ⟨rfl, rfl⟩ := Prod.mk.inj h
      exact popState_spec hfree
    · split at h
      · obtain ⟨rfl, rfl⟩ := Prod.mk.inj h
        exact ⟨Evicts.refl c, fun hacc => hacc⟩
      · next c₁ hev =>
        obtain ⟨hevicts, -, hkeep⟩ := evictOne_some (z := z) hev
        obtain ⟨hevicts', hacc'⟩ := ih h
        exact ⟨hevicts.trans hevicts', fun hacc => hacc' (hkeep hacc)⟩

/-- An allocation gives up only when every snapshot is gone. -/
theorem allocPage_none (h : c.allocPage = (none, c')) : c'.pages.free = [] ∧ c'.snaps = [] := by
  rw [allocPage] at h
  generalize hn : c.snaps.length = n at h
  have hle : c.snaps.length ≤ n := Nat.le_of_eq hn
  clear hn
  induction n generalizing c with
  | zero =>
    rw [allocPageLoop] at h
    split at h
    · exact absurd (Prod.mk.inj h).1 (by simp)
    · next hfree =>
      obtain ⟨-, rfl⟩ := Prod.mk.inj h
      exact ⟨hfree, List.eq_nil_of_length_eq_zero (Nat.le_zero.mp hle)⟩
  | succ n ih =>
    rw [allocPageLoop] at h
    split at h
    · exact absurd (Prod.mk.inj h).1 (by simp)
    · next hfree =>
      split at h
      · next hev =>
        obtain ⟨-, rfl⟩ := Prod.mk.inj h
        exact ⟨hfree, evictOne_none hev⟩
      · next c₁ hev =>
        have hlt : c₁.snaps.length < c.snaps.length := by
          have sizes : HostSizes := ⟨1, 1, 0, 0, Nat.one_pos, Nat.one_pos⟩
          exact (evictOne_some (z := sizes) hev).2.1
        exact ih h (by omega)

/-! ### Contents -/

omit [DecidableEq ι] in
@[simp] theorem length_chainFrom (h : Hasher ι) (prev : ι) (tokens : List ℕ) (n : ℕ) :
    (chainFrom h prev tokens n).length = n := by
  induction n generalizing prev tokens with
  | zero => rfl
  | succ n ih => rw [chainFrom, List.length_cons, ih]

omit [DecidableEq ι] in
@[simp] theorem length_pageChain (h : Hasher ι) (tokens : List ℕ) :
    (pageChain h tokens).length = tokens.length / kvPageRows :=
  length_chainFrom _ _ _ _

/-- A page id names the tokens up to its page's end. -/
def Identifies (h : Hasher ι) : Prop :=
  ∀ {tokens tokens' : List ℕ} {i j : ℕ} {id : ι}, (pageChain h tokens)[i]? = some id →
    (pageChain h tokens')[j]? = some id →
    tokens.take ((i + 1) * kvPageRows) = tokens'.take ((j + 1) * kvPageRows)

omit [DecidableEq ι] in
theorem page_le {h : Hasher ι} {tokens : List ℕ} {i : ℕ} {id : ι}
    (hid : (pageChain h tokens)[i]? = some id) : (i + 1) * kvPageRows ≤ tokens.length := by
  have hlt := (List.getElem?_eq_some_iff.mp hid).1
  rw [length_pageChain] at hlt
  exact Nat.le_trans (Nat.mul_le_mul_right _ hlt) (Nat.div_mul_le_self _ _)

omit [DecidableEq ι] in
theorem Identifies.index_eq {h : Hasher ι} (hids : Identifies h) {tokens tokens' : List ℕ}
    {i j : ℕ} {id : ι} (hid : (pageChain h tokens)[i]? = some id)
    (hid' : (pageChain h tokens')[j]? = some id) : i = j := by
  have hboth := congrArg List.length (hids hid hid')
  rw [List.length_take, List.length_take, Nat.min_eq_left (page_le hid),
    Nat.min_eq_left (page_le hid')] at hboth
  exact Nat.succ.inj (Nat.eq_of_mul_eq_mul_right (by decide) hboth)

omit [DecidableEq ι] in
theorem Identifies.nodup {h : Hasher ι} (hids : Identifies h) (tokens : List ℕ) :
    (pageChain h tokens).Nodup := by
  rw [List.nodup_iff_getElem?_ne_getElem?]
  intro i j hij hj heq
  have hi := List.getElem?_eq_getElem (Nat.lt_trans hij hj)
  exact absurd (hids.index_eq hi (heq ▸ hi)) (Nat.ne_of_lt hij)

/-- The rows past the last full page of a prompt, if it has some. -/
def TailHolds (row : List ℕ → R) (c : HostCache ι R σ) (tokens : List ℕ) : Option Slot → Prop
  | none => tokens.length % kvPageRows = 0
  | some slot => ∀ j < tokens.length % kvPageRows, c.pageData slot j =
    row (tokens.take (tokens.length / kvPageRows * kvPageRows + j + 1))

/-- The pages and the tails of the snapshots hold the rows of their tokens, where `row` gives the
row of the last of some tokens. -/
structure Contents (row : List ℕ → R) (h : Hasher ι) (c : HostCache ι R σ) : Prop where
  chain : ∀ s ∈ c.snaps, s.pages = pageChain h s.tokens
  page : ∀ id e, c.pages.find id = some e → ∀ tokens i, (pageChain h tokens)[i]? = some id →
    ∀ j < kvPageRows, c.pageData e.slot j = row (tokens.take (i * kvPageRows + j + 1))
  tail : ∀ s ∈ c.snaps, TailHolds row c s.tokens s.tail

variable {row : List ℕ → R} {h : Hasher ι}

omit [DecidableEq ι] in
theorem TailHolds.congr {tokens : List ℕ} {tail : Option Slot} (ht : TailHolds row c tokens tail)
    (hdata : ∀ slot, tail = some slot → c'.pageData slot = c.pageData slot) :
    TailHolds row c' tokens tail := by
  cases tail with
  | none => exact ht
  | some slot =>
    intro j hj
    rw [hdata slot rfl]
    exact ht j hj

theorem Contents.evicts (hc : Contents row h c) (hev : Evicts c c') : Contents row h c' where
  chain s hs := hc.chain s (hev.snaps s hs)
  page id e he tokens i hid j hj := by
    obtain ⟨e', he', hslot⟩ := hev.slot id e he
    rw [hev.pageData, ← hslot]
    exact hc.page id e' he' tokens i hid j hj
  tail s hs := (hc.tail s (hev.snaps s hs)).congr fun _ _ => by rw [hev.pageData]

theorem evicts_share {id : ι} : Evicts c { c with pages := c.pages.share id } := by
  refine ⟨rfl, rfl, rfl, fun _ hs => hs, fun i e he => ?_⟩
  rw [Pool.share, Pool.find_setRefs] at he
  split at he
  · obtain ⟨e', he', rfl⟩ := Option.map_eq_some_iff.mp he
    exact ⟨e', he', rfl⟩
  · exact ⟨e, he, rfl⟩

/-- A slot that is taken is not a page's, nor a tail. -/
theorem apart_of_accounts {slot : Slot} (hacc : Accounts z c held (slot :: used) states) :
    slot ∉ c.pages.slots ∧ slot ∉ c.snaps.filterMap (·.tail) := by
  have hall := nodup_arenaSlots z.pageBytes_pos z.pages
  constructor
  · exact hacc.pages.apart hall (List.mem_append_right _ List.mem_cons_self)
  · obtain ⟨-, hused, -⟩ := List.nodup_append.mp (hacc.pages.perm_all.nodup_iff.mpr hall)
    obtain ⟨-, -, hapart⟩ := List.nodup_append.mp hused
    intro hmem
    exact hapart slot hmem slot List.mem_cons_self rfl

theorem perm_states (hacc : Accounts z c held used states) :
    (c.states ++ c.snaps.map (·.state) ++ states).Perm (arenaSlots z.stateBytes z.states) := by
  refine List.perm_iff_count.mpr fun x => ?_
  rw [List.count_append, List.count_append]
  exact hacc.states x

theorem apart_state_of_accounts {slot : Slot} (hacc : Accounts z c held used (slot :: states)) :
    slot ∉ c.snaps.map (·.state) := by
  have hnodup := (perm_states hacc).nodup_iff.mpr (nodup_arenaSlots z.stateBytes_pos z.states)
  obtain ⟨-, -, hapart⟩ := List.nodup_append.mp hnodup
  intro hmem
  exact hapart slot (List.mem_append_right _ hmem) slot List.mem_cons_self rfl

/-- A slot that is taken may be written. -/
theorem Contents.write {slot : Slot} {data : Slot → ℕ → R} (hc : Contents row h c)
    (hacc : Accounts z c held (slot :: used) states)
    (hdata : ∀ slot', slot' ≠ slot → data slot' = c.pageData slot') :
    Contents row h { c with pageData := data } := by
  obtain ⟨hpage, htail⟩ := apart_of_accounts hacc
  constructor
  · exact hc.chain
  · intro id e he tokens i hid j hj
    have hne : e.slot ≠ slot := fun heq => hpage (heq ▸ List.mem_map_of_mem (Pool.mem_of_find he))
    show data e.slot j = _
    rw [hdata _ hne]
    exact hc.page id e he tokens i hid j hj
  · intro s hs
    refine (hc.tail s hs).congr fun slot' hslot' => hdata _ fun heq => htail ?_
    exact List.mem_filterMap.mpr ⟨s, hs, hslot'.trans (congrArg some heq)⟩

/-- The device's rows are those of the tokens. -/
def HoldsRows (row : List ℕ → R) (kv : DeviceRows R) (tokens : List ℕ) : Prop :=
  ∀ j < tokens.length, kv.ga[j]? = some (row (tokens.take (j + 1)))

/-! ### A capture -/

theorem accounts_abort {ids : List ι} (h : Accounts z c (ids ++ held) used states) :
    Accounts z (c.abort ids) held used states := by
  refine ⟨Balanced.dropAll (h.pages.perm ?_ (List.Perm.refl _)), h.states⟩
  exact List.perm_append_comm_assoc _ _ _

theorem accounts_freeTail {tail : Option Slot}
    (h : Accounts z c held (tail.toList ++ used) states) :
    Accounts z (c.freeTail tail) held used states := by
  cases tail with
  | none => exact h
  | some t =>
    refine ⟨Balanced.push (h.pages.perm (List.Perm.refl _) ?_), h.states⟩
    exact List.perm_middle

/-- The data have no part in the accounts. -/
theorem accounts_congr (hpages : c'.pages = c.pages) (hstates : c'.states = c.states)
    (hsnaps : c'.snaps = c.snaps) (h : Accounts z c held used states) :
    Accounts z c' held used states := by
  refine ⟨?_, ?_⟩
  · rw [hpages, hsnaps]
    exact h.pages
  · rw [hstates, hsnaps]
    exact h.states

/-- A page of the prompt is written and shared from now on. -/
theorem Contents.insert {slot : Slot} {kv : DeviceRows R} {tokens : List ℕ} {i : ℕ} {id : ι}
    (hc : Contents row h c) (hacc : Accounts z c held (slot :: used) states) (hids : Identifies h)
    (hrows : HoldsRows row kv tokens) (hid : (pageChain h tokens)[i]? = some id) :
    Contents row h { c.exportPage kv (i * kvPageRows) kvPageRows slot with
      pages := c.pages.insert id slot } := by
  have hwrite : Contents row h (c.exportPage kv (i * kvPageRows) kvPageRows slot) := by
    refine hc.write hacc fun slot' hne => ?_
    funext j
    exact if_neg fun hand => hne hand.1
  refine ⟨hwrite.chain, fun id' e he tokens' i' hid' j hj => ?_, hwrite.tail⟩
  change (c.pages.insert id slot).find id' = some e at he
  rw [Pool.find_insert] at he
  split at he
  · next heq =>
    subst heq
    obtain rfl := Option.some.inj he
    show (if slot = slot ∧ j < kvPageRows then (kv.ga[i * kvPageRows + j]?).getD _ else _) = _
    -- the two prompts agree up to the page's end
    have htake := hids hid hid'
    obtain rfl := hids.index_eq hid hid'
    have hfull := page_le hid
    have hpage : i * kvPageRows + j < (i + 1) * kvPageRows := by
      rw [Nat.succ_mul]
      omega
    rw [if_pos ⟨rfl, hj⟩, hrows _ (by omega), Option.getD_some]
    have hcut := congrArg (List.take (i * kvPageRows + j + 1)) htake
    rw [List.take_take, List.take_take, Nat.min_eq_left hpage] at hcut
    rw [hcut]
  · exact hwrite.page id' e he tokens' i' hid' j hj

/-- The full pages: the references taken, and the slot lost by a failed export. -/
theorem accounts_capturePages {env : CaptureEnv R} {kv : DeviceRows R} {ids : List ι} {i : ℕ}
    {t t' : Taken ι R σ} {stop : Option Stop} (hrun : capturePages env kv i ids t = (t', stop))
    (hacc : Accounts z t.cache (t.held ++ held) used states) :
    (∃ lost, Accounts z t'.cache (t'.held ++ held) (lost ++ used) states ∧
      (lost = [] ∨ stop = some .failed)) ∧
    (stop = none → t'.held = t.held ++ ids) ∧
    ∀ {row : List ℕ → R} {h : Hasher ι} {tokens : List ℕ}, Identifies h → HoldsRows row kv tokens →
      (∀ k id, ids[k]? = some id → (pageChain h tokens)[i + k]? = some id) →
      Contents row h t.cache → Contents row h t'.cache := by
  have hpush (t : Taken ι R σ) (id : ι) (hacc : Accounts z t.cache (id :: (t.held ++ held)) used
      states) : Accounts z t.cache (t.held ++ [id] ++ held) used states := by
    refine ⟨hacc.pages.perm ?_ (List.Perm.refl _), hacc.states⟩
    refine List.Perm.append_left _ ?_
    rw [List.append_assoc, List.singleton_append]
    exact List.perm_middle.symm
  have hnext {id : ι} {ids : List ι} {i : ℕ} {h : Hasher ι} {tokens : List ℕ}
      (hids : ∀ k id', (id :: ids)[k]? = some id' → (pageChain h tokens)[i + k]? = some id') :
      ∀ k id', ids[k]? = some id' → (pageChain h tokens)[i + 1 + k]? = some id' := by
    intro k id' hk
    rw [Nat.add_assoc, Nat.add_comm 1 k]
    exact hids (k + 1) id' hk
  induction ids generalizing i t with
  | nil =>
    obtain ⟨rfl, rfl⟩ := Prod.mk.inj hrun
    exact ⟨⟨[], hacc, Or.inl rfl⟩, fun _ => (List.append_nil _).symm, fun _ _ _ hc => hc⟩
  | cons id ids ih =>
    rw [capturePages] at hrun
    split at hrun
    · next e he =>
      have hshare : Accounts z { t.cache with pages := t.cache.pages.share id }
          (id :: (t.held ++ held)) used states := by
        refine ⟨(hacc.pages.share he).perm ?_ (List.Perm.refl _), hacc.states⟩
        exact List.perm_middle.symm
      obtain ⟨hlost, hheld, hcontents⟩ := ih hrun
        (hpush { t with cache := { t.cache with pages := t.cache.pages.share id } } id hshare)
      refine ⟨hlost, fun hs => by rw [hheld hs, List.append_assoc]; rfl, fun hh hrows hids hc => ?_⟩
      exact hcontents hh hrows (hnext hids) (hc.evicts evicts_share)
    · next hnone =>
      split at hrun
      · next c hc =>
        obtain ⟨rfl, rfl⟩ := Prod.mk.inj hrun
        obtain ⟨hevicts, hkeep⟩ := allocPageLoop_spec (z := z) hc
        exact ⟨⟨[], hkeep hacc, Or.inl rfl⟩, fun hs => absurd hs (by simp),
          fun _ _ _ hc => hc.evicts hevicts⟩
      · next slot c hc =>
        obtain ⟨hevicts, hkeep⟩ := allocPageLoop_spec (z := z) hc
        have hslot : Accounts z c (t.held ++ held) (slot :: used) states := hkeep hacc
        split at hrun
        · have hinsert : Accounts z
              { c.exportPage kv (i * kvPageRows) kvPageRows slot with
                pages := c.pages.insert id slot } (id :: (t.held ++ held)) used states := by
            refine ⟨(Balanced.insert (hslot.pages.perm (List.Perm.refl _) List.perm_middle)
              (hevicts.find_eq_none hnone)).perm ?_ (List.Perm.refl _), hslot.states⟩
            exact List.perm_middle.symm
          obtain ⟨hlost, hheld, hcontents⟩ := ih hrun (hpush
            { cache := { c.exportPage kv (i * kvPageRows) kvPageRows slot with
                pages := c.pages.insert id slot }
              held := t.held
              written := slot :: t.written } id hinsert)
          refine ⟨hlost, fun hs => by rw [hheld hs, List.append_assoc]; rfl,
            fun hh hrows hids hc => ?_⟩
          refine hcontents hh hrows (hnext hids) ?_
          exact (hc.evicts hevicts).insert hslot hh hrows (hids 0 id rfl)
        · obtain ⟨rfl, rfl⟩ := Prod.mk.inj hrun
          exact ⟨⟨[slot], hslot, Or.inr rfl⟩, fun hs => absurd hs (by simp),
            fun _ _ _ hc => hc.evicts hevicts⟩

/-- The rows past the last full page: the slot taken, and the one lost by a failed export. -/
theorem accounts_captureTail {env : CaptureEnv R} {kv : DeviceRows R} {n : ℕ} {t t' : Taken ι R σ}
    {tail : Option Slot} {stop : Option Stop} (hrun : captureTail env kv n t = (t', tail, stop))
    (hacc : Accounts z t.cache (t.held ++ held) used states) :
    (∃ lost, Accounts z t'.cache (t'.held ++ held) (tail.toList ++ (lost ++ used)) states ∧
      (lost = [] ∨ stop = some .failed)) ∧ t'.held = t.held ∧ (stop = none ∨ tail = none) ∧
    ∀ {row : List ℕ → R} {h : Hasher ι} {tokens : List ℕ}, n = tokens.length →
      HoldsRows row kv tokens → Contents row h t.cache →
        Contents row h t'.cache ∧ (stop = none → TailHolds row t'.cache tokens tail) := by
  rw [captureTail] at hrun
  dsimp only at hrun
  split at hrun
  · next hrem =>
    obtain ⟨rfl, hrest⟩ := Prod.mk.inj hrun
    obtain ⟨rfl, rfl⟩ := Prod.mk.inj hrest
    refine ⟨⟨[], hacc, Or.inl rfl⟩, rfl, Or.inl rfl, fun hn _ hc => ⟨hc, fun _ => ?_⟩⟩
    rwa [hn] at hrem
  · split at hrun
    · next c hc =>
      obtain ⟨rfl, hrest⟩ := Prod.mk.inj hrun
      obtain ⟨rfl, rfl⟩ := Prod.mk.inj hrest
      obtain ⟨hevicts, hkeep⟩ := allocPageLoop_spec (z := z) hc
      exact ⟨⟨[], hkeep hacc, Or.inl rfl⟩, rfl, Or.inr rfl,
        fun _ _ hc => ⟨hc.evicts hevicts, fun hs => absurd hs (by simp)⟩⟩
    · next slot c hc =>
      obtain ⟨hevicts, hkeep⟩ := allocPageLoop_spec (z := z) hc
      have hslot : Accounts z c (t.held ++ held) (slot :: used) states := hkeep hacc
      split at hrun
      · obtain ⟨rfl, hrest⟩ := Prod.mk.inj hrun
        obtain ⟨rfl, rfl⟩ := Prod.mk.inj hrest
        refine ⟨⟨[], accounts_congr (c := c) rfl rfl rfl hslot, Or.inl rfl⟩, rfl, Or.inl rfl,
          fun {_ _ tokens} hn hrows hc => ⟨?_, fun _ j hj => ?_⟩⟩
        · refine (hc.evicts hevicts).write hslot fun slot' hne => ?_
          funext j
          exact if_neg fun hand => hne hand.1
        · subst hn
          have hdiv := Nat.div_add_mod' tokens.length kvPageRows
          show (if slot = slot ∧ j < tokens.length % kvPageRows then
            (kv.ga[tokens.length - tokens.length % kvPageRows + j]?).getD _ else _) = _
          rw [if_pos ⟨rfl, hj⟩,
            show tokens.length - tokens.length % kvPageRows = tokens.length / kvPageRows * kvPageRows
              by omega, hrows _ (by omega), Option.getD_some]
      · obtain ⟨rfl, hrest⟩ := Prod.mk.inj hrun
        obtain ⟨rfl, rfl⟩ := Prod.mk.inj hrest
        exact ⟨⟨[slot], hslot, Or.inr rfl⟩, rfl, Or.inr rfl,
          fun _ _ hc => ⟨hc.evicts hevicts, fun hs => absurd hs (by simp)⟩⟩

/-- What stays of a snapshot while it is held. -/
def kept (s : Snapshot ι) : List ℕ × ℕ × List ι × Option Slot × Slot :=
  (s.tokens, s.swaRows, s.pages, s.tail, s.state)

theorem accounts_snaps {snaps : List (Snapshot ι)} {clock : ℕ}
    (hsnaps : snaps.map kept = c.snaps.map kept) (h : Accounts z c held used states) :
    Accounts z { c with snaps := snaps, clock := clock } held used states := by
  have hpages : snaps.flatMap (·.pages) = c.snaps.flatMap (·.pages) := by
    have hof (l : List (Snapshot ι)) : l.flatMap (·.pages) = (l.map kept).flatMap (·.2.2.1) := by
      rw [List.flatMap_map]
      rfl
    rw [hof, hsnaps, ← hof]
  have htails : snaps.filterMap (·.tail) = c.snaps.filterMap (·.tail) := by
    have hof (l : List (Snapshot ι)) : l.filterMap (·.tail) = (l.map kept).filterMap (·.2.2.2.1) := by
      rw [List.filterMap_map]
      rfl
    rw [hof, hsnaps, ← hof]
  have hstates : snaps.map (·.state) = c.snaps.map (·.state) := by
    have hof (l : List (Snapshot ι)) : l.map (·.state) = (l.map kept).map (·.2.2.2.2) := by
      rw [List.map_map]
      rfl
    rw [hof, hsnaps, ← hof]
  constructor
  · show Balanced _ c.pages (snaps.flatMap (·.pages) ++ held) (snaps.filterMap (·.tail) ++ used)
    rw [hpages, htails]
    exact h.pages
  · intro x
    show c.states.count x + (snaps.map (·.state)).count x + states.count x = _
    rw [hstates]
    exact h.states x

omit [DecidableEq ι] in
theorem kept_refresh (after : After) (clock : ℕ) (tokens : List ℕ) (snaps : List (Snapshot ι)) :
    (refresh after clock tokens snaps).map kept = snaps.map kept := by
  induction snaps with
  | nil => rfl
  | cons s snaps ih =>
    rw [refresh]
    split
    · rfl
    · rw [List.map_cons, List.map_cons, ih]

theorem accounts_pushState {slot : Slot} (h : Accounts z c held used (slot :: states)) :
    Accounts z { c with states := slot :: c.states } held used states := by
  refine ⟨h.pages, fun x => ?_⟩
  have hstates := h.states x
  rw [List.count_cons] at hstates
  show (slot :: c.states).count x + (c.snaps.map (·.state)).count x + _ = _
  rw [List.count_cons]
  omega

/-- The snapshot of a capture. -/
theorem accounts_push {s : Snapshot ι}
    (h : Accounts z c (s.pages ++ held) (s.tail.toList ++ used) (s.state :: states))
    (stateData : Slot → σ) :
    Accounts z { c with stateData := stateData, snaps := c.snaps ++ [s] } held used states := by
  constructor
  · refine h.pages.perm ?_ ?_
    · show List.Perm _ ((c.snaps ++ [s]).flatMap (·.pages) ++ held)
      rw [List.flatMap_append, List.flatMap_singleton, List.append_assoc]
    · show List.Perm _ ((c.snaps ++ [s]).filterMap (·.tail) ++ used)
      rw [List.filterMap_append, List.append_assoc]
      refine List.Perm.append_left _ ?_
      cases htail : s.tail with
      | none => simp [htail]
      | some t => simp [htail]
  · intro x
    have hstates := h.states x
    rw [List.count_cons] at hstates
    show c.states.count x + ((c.snaps ++ [s]).map (·.state)).count x + states.count x = _
    rw [List.map_append, List.count_append, List.map_singleton, List.count_singleton]
    omega

/-- The exports and the synchronization of a capture succeed, or it returns before the first. -/
def Exports (c : HostCache ι R σ) : HostEvent R σ → Prop
  | .capture env a =>
    a.tokens.length < minTokens ∨ a.kv.tokens < a.tokens.length ∨
      (∃ s ∈ c.snaps, s.tokens = a.tokens) ∨
      (∀ i, i * kvPageRows < a.tokens.length → env.export' i) ∧ env.sync
  | .restore _ _ => True

theorem capturePages_ne_failed {env : CaptureEnv R} {kv : DeviceRows R} {ids : List ι} {i : ℕ}
    {t t' : Taken ι R σ} {stop : Option Stop} (h : capturePages env kv i ids t = (t', stop))
    (hexport : ∀ j < i + ids.length, env.export' j)
    (hrows : (i + ids.length) * kvPageRows ≤ kv.ga.length) : stop ≠ some .failed := by
  induction ids generalizing i t with
  | nil =>
    obtain ⟨-, rfl⟩ := Prod.mk.inj h
    simp
  | cons id ids ih =>
    have hlen : i + (id :: ids).length = i + 1 + ids.length := by
      rw [List.length_cons]
      omega
    rw [hlen] at hexport hrows
    rw [capturePages] at h
    split at h
    · exact ih h hexport hrows
    · split at h
      · obtain ⟨-, rfl⟩ := Prod.mk.inj h
        simp
      · split at h
        · exact ih h hexport hrows
        · next hnot =>
          have hpage : i * kvPageRows + kvPageRows ≤ (i + 1 + ids.length) * kvPageRows := by
            rw [← Nat.succ_mul]
            exact Nat.mul_le_mul_right _ (Nat.le_add_right _ _)
          exact absurd ⟨hexport i (by omega), Nat.le_trans hpage hrows⟩ hnot

theorem captureTail_ne_failed {env : CaptureEnv R} {kv : DeviceRows R} {n : ℕ} {t t' : Taken ι R σ}
    {tail : Option Slot} {stop : Option Stop} (h : captureTail env kv n t = (t', tail, stop))
    (hexport : n / kvPageRows * kvPageRows < n → env.export' (n / kvPageRows))
    (hrows : n ≤ kv.ga.length) : stop ≠ some .failed := by
  rw [captureTail] at h
  dsimp only at h
  split at h
  · obtain ⟨-, hrest⟩ := Prod.mk.inj h
    obtain ⟨-, rfl⟩ := Prod.mk.inj hrest
    simp
  · next hrem =>
    split at h
    · obtain ⟨-, hrest⟩ := Prod.mk.inj h
      obtain ⟨-, rfl⟩ := Prod.mk.inj hrest
      simp
    · split at h
      · obtain ⟨-, hrest⟩ := Prod.mk.inj h
        obtain ⟨-, rfl⟩ := Prod.mk.inj hrest
        simp
      · next hnot =>
        have hdiv := Nat.div_add_mod' n kvPageRows
        exact absurd ⟨hexport (by omega), hrows⟩ hnot

/-- A prompt to capture: long enough, its rows there, and not held yet. -/
structure Fresh (c : HostCache ι R σ) (a : CaptureArgs R σ) : Prop where
  long : minTokens ≤ a.tokens.length
  rows : a.tokens.length ≤ a.kv.tokens
  unheld : ∀ s ∈ c.snaps, s.tokens ≠ a.tokens

/-- What a capture can do. -/
inductive Captures (h : Hasher ι) (env : CaptureEnv R) (a : CaptureArgs R σ)
    (c : HostCache ι R σ) : HostCache ι R σ → Prop where
  | short (hshort : a.tokens.length < minTokens ∨ a.kv.tokens < a.tokens.length) :
    Captures h env a c c
  | held (s : Snapshot ι) (hs : s ∈ c.snaps) (htokens : s.tokens = a.tokens) :
    Captures h env a c
      { c with clock := c.clock + 1, snaps := refresh a.after (c.clock + 1) a.tokens c.snaps }
  | pages (hfresh : Fresh c a) {t : Taken ι R σ} {stop : Stop}
    (hpages : capturePages env a.kv 0 (pageChain h a.tokens)
      { cache := { c with clock := c.clock + 1 } } = (t, some stop)) :
    Captures h env a c (if stop = .full then t.cache.abort t.held else t.cache.garble env t.written)
  | tail (hfresh : Fresh c a) {t t' : Taken ι R σ} {tail : Option Slot} {stop : Stop}
    (hpages : capturePages env a.kv 0 (pageChain h a.tokens)
      { cache := { c with clock := c.clock + 1 } } = (t, none))
    (htail : captureTail env a.kv a.tokens.length t = (t', tail, some stop)) :
    Captures h env a c
      (if stop = .full then t'.cache.abort t'.held else t'.cache.garble env t'.written)
  | sync (hfresh : Fresh c a) {t t' : Taken ι R σ} {tail : Option Slot}
    (hpages : capturePages env a.kv 0 (pageChain h a.tokens)
      { cache := { c with clock := c.clock + 1 } } = (t, none))
    (htail : captureTail env a.kv a.tokens.length t = (t', tail, none))
    (hsync : env.sync = false) :
    Captures h env a c (t'.cache.garble env t'.written)
  | state (hfresh : Fresh c a) {t t' : Taken ι R σ} {tail : Option Slot} {c' : HostCache ι R σ}
    (hpages : capturePages env a.kv 0 (pageChain h a.tokens)
      { cache := { c with clock := c.clock + 1 } } = (t, none))
    (htail : captureTail env a.kv a.tokens.length t = (t', tail, none))
    (hstate : t'.cache.allocState = (none, c')) :
    Captures h env a c ((c'.freeTail tail).abort t'.held)
  | copy (hfresh : Fresh c a) {t t' : Taken ι R σ} {tail : Option Slot} {slot : Slot}
    {c' : HostCache ι R σ}
    (hpages : capturePages env a.kv 0 (pageChain h a.tokens)
      { cache := { c with clock := c.clock + 1 } } = (t, none))
    (htail : captureTail env a.kv a.tokens.length t = (t', tail, none))
    (hstate : t'.cache.allocState = (some slot, c')) :
    Captures h env a c
      ((({ c' with states := slot :: c'.states } : HostCache ι R σ).freeTail tail).abort t'.held)
  | stored (hfresh : Fresh c a) {t t' : Taken ι R σ} {tail : Option Slot} {slot : Slot}
    {c' : HostCache ι R σ}
    (hpages : capturePages env a.kv 0 (pageChain h a.tokens)
      { cache := { c with clock := c.clock + 1 } } = (t, none))
    (htail : captureTail env a.kv a.tokens.length t = (t', tail, none))
    (hstate : t'.cache.allocState = (some slot, c')) :
    Captures h env a c
      { c' with
        stateData := Function.update c'.stateData slot a.state
        snaps := c'.snaps ++ [{
          tokens := a.tokens, pages := t'.held, tail := tail, state := slot, swaRows := a.swaRows
          after := a.after, kind := a.kind, lastUse := c'.clock }] }

theorem captures_capture (h : Hasher ι) (env : CaptureEnv R) (a : CaptureArgs R σ)
    (c : HostCache ι R σ) : Captures h env a c (c.capture h env a).1 := by
  rw [capture]
  dsimp only
  split
  · next hshort => exact .short hshort
  next hlong =>
  rw [not_or, Nat.not_lt, Nat.not_lt] at hlong
  split
  · next hheld =>
    obtain ⟨s, hs, htokens⟩ := List.any_eq_true.mp hheld
    exact .held s hs (of_decide_eq_true htokens)
  next hnew =>
  have hfresh : Fresh c a := by
    refine ⟨hlong.1, hlong.2, fun s hs heq => hnew ?_⟩
    exact List.any_eq_true.mpr ⟨s, hs, decide_eq_true heq⟩
  split
  · next t hpages => exact .pages hfresh hpages
  · next t hpages => exact .pages hfresh hpages
  · next t hpages =>
    split
    · next t' tail htail => exact .tail hfresh hpages htail
    · next t' tail htail => exact .tail hfresh hpages htail
    · next t' tail htail =>
      split
      · next hsync => exact .sync hfresh hpages htail (by simpa using hsync)
      · split
        · next c' hstate => exact .state hfresh hpages htail hstate
        · next slot c' hstate =>
          split
          · exact .copy hfresh hpages htail hstate
          · exact .stored hfresh hpages htail hstate

omit [DecidableEq ι] in
/-- The calls of a capture that is not short and not held. -/
theorem Exports.calls {env : CaptureEnv R} {a : CaptureArgs R σ} (h : Exports c (.capture env a))
    (hfresh : Fresh c a) : (∀ i, i * kvPageRows < a.tokens.length → env.export' i) ∧ env.sync := by
  rcases h with hshort | hrows | ⟨s, hs, htokens⟩ | hok
  · exact absurd hshort (Nat.not_lt.mpr hfresh.long)
  · exact absurd hrows (Nat.not_lt.mpr hfresh.rows)
  · exact absurd htokens (hfresh.unheld s hs)
  · exact hok

theorem Exports.pages {h : Hasher ι} {env : CaptureEnv R} {a : CaptureArgs R σ}
    {t t' : Taken ι R σ} {stop : Option Stop} (hok : Exports c (.capture env a))
    (hfresh : Fresh c a)
    (hpages : capturePages env a.kv 0 (pageChain h a.tokens) t = (t', stop)) :
    stop ≠ some .failed := by
  refine capturePages_ne_failed hpages (fun i hi => (hok.calls hfresh).1 i ?_) ?_
  · rw [length_pageChain, Nat.zero_add] at hi
    exact Nat.lt_of_lt_of_le (Nat.mul_lt_mul_of_pos_right hi (by decide))
      (Nat.div_mul_le_self _ _)
  · rw [length_pageChain, Nat.zero_add]
    exact Nat.le_trans (Nat.div_mul_le_self _ _) (Nat.le_trans hfresh.rows a.kv.le)

theorem Exports.tail {env : CaptureEnv R} {a : CaptureArgs R σ} {t t' : Taken ι R σ}
    {tail : Option Slot} {stop : Option Stop} (hok : Exports c (.capture env a))
    (hfresh : Fresh c a) (htail : captureTail env a.kv a.tokens.length t = (t', tail, stop)) :
    stop ≠ some .failed :=
  captureTail_ne_failed htail ((hok.calls hfresh).1 _) (Nat.le_trans hfresh.rows a.kv.le)

/-- **What a capture loses**: nothing, unless an export or the synchronization fails. -/
theorem accounts_capture {h : Hasher ι} {env : CaptureEnv R} {a : CaptureArgs R σ}
    (hacc : Accounts z c held used states) :
    ∃ refs slots, Accounts z (c.capture h env a).1 (refs ++ held) (slots ++ used) states ∧
      (Exports c (.capture env a) → refs = [] ∧ slots = []) := by
  have hclock : Accounts z { c with clock := c.clock + 1 } ([] ++ held) used states :=
    accounts_snaps rfl hacc
  have hcaptures := captures_capture h env a c
  generalize (c.capture h env a).1 = after at hcaptures ⊢
  cases hcaptures with
  | short => exact ⟨[], [], hacc, fun _ => ⟨rfl, rfl⟩⟩
  | held => exact ⟨[], [], accounts_snaps (kept_refresh _ _ _ _) hacc, fun _ => ⟨rfl, rfl⟩⟩
  | @pages hfresh t stop hpages =>
    obtain ⟨⟨lost, hlost, hstop⟩, -, -⟩ := accounts_capturePages hpages hclock
    cases stop with
    | full =>
      obtain rfl := hstop.resolve_right (by simp)
      exact ⟨[], [], accounts_abort hlost, fun _ => ⟨rfl, rfl⟩⟩
    | failed =>
      exact ⟨t.held, lost, accounts_congr (c := t.cache) rfl rfl rfl hlost,
        fun hok => absurd rfl (hok.pages hfresh hpages)⟩
  | @tail hfresh t t' tail stop hpages htail =>
    obtain ⟨⟨lost, hlost, hstop⟩, -, -⟩ := accounts_capturePages hpages hclock
    obtain rfl := hstop.resolve_right (by simp)
    obtain ⟨⟨lost, hlost, hstop⟩, -, hnone, -⟩ := accounts_captureTail htail hlost
    obtain rfl := hnone.resolve_left (by simp)
    cases stop with
    | full =>
      obtain rfl := hstop.resolve_right (by simp)
      exact ⟨[], [], accounts_abort hlost, fun _ => ⟨rfl, rfl⟩⟩
    | failed =>
      exact ⟨t'.held, lost, accounts_congr (c := t'.cache) rfl rfl rfl hlost,
        fun hok => absurd rfl (hok.tail hfresh htail)⟩
  | @sync hfresh t t' tail hpages htail hsync =>
    obtain ⟨⟨lost, hlost, hstop⟩, -, -⟩ := accounts_capturePages hpages hclock
    obtain rfl := hstop.resolve_right (by simp)
    obtain ⟨⟨lost, hlost, hstop⟩, -, -, -⟩ := accounts_captureTail htail hlost
    obtain rfl := hstop.resolve_right (by simp)
    refine ⟨t'.held, tail.toList, accounts_congr (c := t'.cache) rfl rfl rfl hlost, fun hok => ?_⟩
    exact absurd (hok.calls hfresh).2 (by simp [hsync])
  | @state hfresh t t' tail c' hpages htail hstate =>
    obtain ⟨⟨lost, hlost, hstop⟩, -, -⟩ := accounts_capturePages hpages hclock
    obtain rfl := hstop.resolve_right (by simp)
    obtain ⟨⟨lost, hlost, hstop⟩, -, -, -⟩ := accounts_captureTail htail hlost
    obtain rfl := hstop.resolve_right (by simp)
    obtain ⟨-, hkeep⟩ := allocStateLoop_spec (z := z) hstate
    exact ⟨[], [], accounts_abort (accounts_freeTail (hkeep hlost)), fun _ => ⟨rfl, rfl⟩⟩
  | @copy hfresh t t' tail slot c' hpages htail hstate =>
    obtain ⟨⟨lost, hlost, hstop⟩, -, -⟩ := accounts_capturePages hpages hclock
    obtain rfl := hstop.resolve_right (by simp)
    obtain ⟨⟨lost, hlost, hstop⟩, -, -, -⟩ := accounts_captureTail htail hlost
    obtain rfl := hstop.resolve_right (by simp)
    obtain ⟨-, hkeep⟩ := allocStateLoop_spec (z := z) hstate
    exact ⟨[], [], accounts_abort (accounts_freeTail (accounts_pushState (hkeep hlost))),
      fun _ => ⟨rfl, rfl⟩⟩
  | @stored hfresh t t' tail slot c' hpages htail hstate =>
    obtain ⟨⟨lost, hlost, hstop⟩, -, -⟩ := accounts_capturePages hpages hclock
    obtain rfl := hstop.resolve_right (by simp)
    obtain ⟨⟨lost, hlost, hstop⟩, -, -, -⟩ := accounts_captureTail htail hlost
    obtain rfl := hstop.resolve_right (by simp)
    obtain ⟨-, hkeep⟩ := allocStateLoop_spec (z := z) hstate
    exact ⟨[], [], accounts_push (hkeep hlost) _, fun _ => ⟨rfl, rfl⟩⟩

/-! ### The snapshots -/

/-- Some snapshots are gone; the position states stay. -/
structure Keeps (c c' : HostCache ι R σ) : Prop where
  stateData : c'.stateData = c.stateData
  snaps : ∀ s ∈ c'.snaps, s ∈ c.snaps

omit [DecidableEq ι] in
theorem Keeps.trans {c₁ c₂ c₃ : HostCache ι R σ} (h : Keeps c₁ c₂) (h' : Keeps c₂ c₃) :
    Keeps c₁ c₃ where
  stateData := h'.stateData.trans h.stateData
  snaps s hs := h.snaps s (h'.snaps s hs)

theorem Evicts.keeps (h : Evicts c c') : Keeps c c' := ⟨h.stateData, h.snaps⟩

theorem keeps_capturePages {env : CaptureEnv R} {kv : DeviceRows R} {ids : List ι} {i : ℕ}
    {t t' : Taken ι R σ} {stop : Option Stop}
    (hrun : capturePages env kv i ids t = (t', stop)) : Keeps t.cache t'.cache := by
  have sizes : HostSizes := ⟨1, 1, 0, 0, Nat.one_pos, Nat.one_pos⟩
  induction ids generalizing i t with
  | nil =>
    obtain ⟨rfl, -⟩ := Prod.mk.inj hrun
    exact ⟨rfl, fun _ hs => hs⟩
  | cons id ids ih =>
    rw [capturePages] at hrun
    split at hrun
    · have hrest := ih hrun
      exact ⟨hrest.stateData, hrest.snaps⟩
    · split at hrun
      · next c hc =>
        obtain ⟨rfl, -⟩ := Prod.mk.inj hrun
        exact (allocPageLoop_spec (z := sizes) hc).1.keeps
      · next slot c hc =>
        have hkeeps := (allocPageLoop_spec (z := sizes) hc).1.keeps
        split at hrun
        · have hrest := ih hrun
          exact hkeeps.trans ⟨hrest.stateData, hrest.snaps⟩
        · obtain ⟨rfl, -⟩ := Prod.mk.inj hrun
          exact hkeeps

theorem keeps_captureTail {env : CaptureEnv R} {kv : DeviceRows R} {n : ℕ} {t t' : Taken ι R σ}
    {tail : Option Slot} {stop : Option Stop}
    (hrun : captureTail env kv n t = (t', tail, stop)) : Keeps t.cache t'.cache := by
  have sizes : HostSizes := ⟨1, 1, 0, 0, Nat.one_pos, Nat.one_pos⟩
  rw [captureTail] at hrun
  dsimp only at hrun
  split at hrun
  · obtain ⟨rfl, -⟩ := Prod.mk.inj hrun
    exact ⟨rfl, fun _ hs => hs⟩
  · split at hrun
    · next c hc =>
      obtain ⟨rfl, -⟩ := Prod.mk.inj hrun
      exact (allocPageLoop_spec (z := sizes) hc).1.keeps
    · next slot c hc =>
      have hkeeps := (allocPageLoop_spec (z := sizes) hc).1.keeps
      split at hrun
      · obtain ⟨rfl, -⟩ := Prod.mk.inj hrun
        exact hkeeps.trans ⟨rfl, fun _ hs => hs⟩
      · obtain ⟨rfl, -⟩ := Prod.mk.inj hrun
        exact hkeeps

theorem keeps_abort (ids : List ι) : Keeps c (c.abort ids) := ⟨rfl, fun _ hs => hs⟩

omit [DecidableEq ι] in
theorem keeps_freeTail (tail : Option Slot) : Keeps c (c.freeTail tail) := by
  cases tail with
  | none => exact ⟨rfl, fun _ hs => hs⟩
  | some t => exact ⟨rfl, fun _ hs => hs⟩

/-- A snapshot that was held already, with the state it had. -/
def WasHeld (c c' : HostCache ι R σ) (s : Snapshot ι) : Prop :=
  ∃ s₀ ∈ c.snaps, kept s₀ = kept s ∧ c'.stateData s.state = c.stateData s.state

omit [DecidableEq ι] in
theorem Keeps.wasHeld (h : Keeps c c') {s : Snapshot ι} (hs : s ∈ c'.snaps) : WasHeld c c' s :=
  ⟨s, h.snaps s hs, rfl, by rw [h.stateData]⟩

omit [DecidableEq ι] in
theorem wasHeld_of_map {c : HostCache ι R σ} {snaps : List (Snapshot ι)} {clock : ℕ}
    (hsnaps : snaps.map kept = c.snaps.map kept) {s : Snapshot ι} (hs : s ∈ snaps) :
    WasHeld c { c with clock := clock, snaps := snaps } s := by
  have hmem : kept s ∈ c.snaps.map kept := hsnaps ▸ List.mem_map_of_mem hs
  obtain ⟨s₀, hs₀, heq⟩ := List.mem_map.mp hmem
  exact ⟨s₀, hs₀, heq, rfl⟩

/-- **The snapshots after a capture** were held before, but for the one it stores. -/
theorem snaps_capture {h : Hasher ι} {env : CaptureEnv R} {a : CaptureArgs R σ}
    (hacc : Accounts z c held used states) {s : Snapshot ι}
    (hs : s ∈ (c.capture h env a).1.snaps) :
    WasHeld c (c.capture h env a).1 s ∨
      (Fresh c a ∧ s.tokens = a.tokens ∧ s.swaRows = a.swaRows ∧ s.pages = pageChain h a.tokens ∧
        (c.capture h env a).1.stateData s.state = a.state) := by
  have hclock : Accounts z { c with clock := c.clock + 1 } ([] ++ held) used states :=
    accounts_snaps rfl hacc
  have hstart : Keeps c { c with clock := c.clock + 1 } := ⟨rfl, fun _ hs => hs⟩
  have hcaptures := captures_capture h env a c
  generalize (c.capture h env a).1 = c₁ at hcaptures hs ⊢
  cases hcaptures with
  | short => exact Or.inl ⟨s, hs, rfl, rfl⟩
  | held => exact Or.inl (wasHeld_of_map (kept_refresh _ _ _ _) hs)
  | @pages hfresh t stop hpages =>
    have hkeeps := hstart.trans (keeps_capturePages hpages)
    left
    cases stop with
    | full =>
      have hend := hkeeps.trans (keeps_abort t.held)
      exact hend.wasHeld hs
    | failed =>
      have hend : Keeps c (t.cache.garble env t.written) := ⟨hkeeps.stateData, hkeeps.snaps⟩
      exact hend.wasHeld hs
  | @tail hfresh t t' tail stop hpages htail =>
    have hkeeps := (hstart.trans (keeps_capturePages hpages)).trans (keeps_captureTail htail)
    left
    cases stop with
    | full =>
      have hend := hkeeps.trans (keeps_abort t'.held)
      exact hend.wasHeld hs
    | failed =>
      have hend : Keeps c (t'.cache.garble env t'.written) := ⟨hkeeps.stateData, hkeeps.snaps⟩
      exact hend.wasHeld hs
  | @sync hfresh t t' tail hpages htail hsync =>
    have hkeeps := (hstart.trans (keeps_capturePages hpages)).trans (keeps_captureTail htail)
    exact Or.inl (Keeps.wasHeld ⟨hkeeps.stateData, hkeeps.snaps⟩ hs)
  | @state hfresh t t' tail c' hpages htail hstate =>
    have hkeeps := (hstart.trans (keeps_capturePages hpages)).trans (keeps_captureTail htail)
    have hstate' := (allocStateLoop_spec (z := z) hstate).1.keeps
    left
    exact (((hkeeps.trans hstate').trans (keeps_freeTail tail)).trans (keeps_abort _)).wasHeld hs
  | @copy hfresh t t' tail slot c' hpages htail hstate =>
    have hkeeps := (hstart.trans (keeps_capturePages hpages)).trans (keeps_captureTail htail)
    have hstate' := (allocStateLoop_spec (z := z) hstate).1.keeps
    have hback : Keeps c { c' with states := slot :: c'.states } :=
      ⟨(hkeeps.trans hstate').stateData, (hkeeps.trans hstate').snaps⟩
    exact Or.inl (((hback.trans (keeps_freeTail tail)).trans (keeps_abort _)).wasHeld hs)
  | @stored hfresh t t' tail slot c' hpages htail hstate =>
    have hkeeps := (hstart.trans (keeps_capturePages hpages)).trans (keeps_captureTail htail)
    obtain ⟨hevicts, hkeep⟩ := allocStateLoop_spec (z := z) hstate
    obtain ⟨⟨lost, hlost, hstop⟩, hheld, -⟩ := accounts_capturePages hpages hclock
    obtain ⟨⟨lost', hlost', -⟩, hheld', -, -⟩ := accounts_captureTail htail hlost
    rcases List.mem_append.mp hs with hold | hnew
    · left
      -- the slot taken for the new state is not the old snapshot's
      have hne : s.state ≠ slot := fun heq =>
        apart_state_of_accounts (hkeep hlost') (heq ▸ List.mem_map_of_mem hold)
      obtain ⟨s₀, hs₀, heq, hdata⟩ := (hkeeps.trans hevicts.keeps).wasHeld hold
      refine ⟨s₀, hs₀, heq, ?_⟩
      show Function.update c'.stateData slot a.state s.state = _
      rw [Function.update_of_ne hne]
      exact hdata
    · right
      obtain rfl := List.mem_singleton.mp hnew
      refine ⟨hfresh, rfl, rfl, ?_, Function.update_self _ _ _⟩
      show t'.held = _
      rw [hheld', hheld rfl]
      rfl

/-- A restore touches a snapshot's use only. -/
theorem restore_fst (c : HostCache ι R σ) (i : ℕ) (device : Bool) :
    ∃ snaps clock, snaps.map kept = c.snaps.map kept ∧
      (c.restore i device).1 = { c with clock := clock, snaps := snaps } := by
  rw [restore]
  cases hs : c.snaps[i]? with
  | none => exact ⟨c.snaps, c.clock, rfl, rfl⟩
  | some s =>
    refine ⟨c.snaps.set i { s with lastUse := c.clock + 1 }, c.clock + 1, ?_, ?_⟩
    · obtain ⟨hlt, rfl⟩ := List.getElem?_eq_some_iff.mp hs
      rw [List.map_set]
      refine List.ext_getElem? fun j => ?_
      rw [List.getElem?_set]
      split
      · next heq =>
        subst heq
        rw [if_pos (by rwa [List.length_map]), List.getElem?_map, hs]
        rfl
      · rfl
    · dsimp only
      split
      · rfl
      · split
        · rfl
        · rfl

end HostCache

open HostCache

/-! ### Runs -/

/-- The page slots are free, of a page or of a tail, the state slots free or of a snapshot, and a
page has a reference for each snapshot that holds it. -/
structure ArenasOk (sz : HostSizes) (c : HostCache ι R σ) : Prop where
  pages : (c.pages.free ++ c.pages.slots ++ c.snaps.filterMap (·.tail)).Perm
    (arenaSlots sz.pageBytes sz.pages)
  pagesApart : (c.pages.free ++ c.pages.slots ++ c.snaps.filterMap (·.tail)).Nodup
  states : (c.states ++ c.snaps.map (·.state)).Perm (arenaSlots sz.stateBytes sz.states)
  statesApart : (c.states ++ c.snaps.map (·.state)).Nodup
  refs : ∀ id, c.pages.refs id = c.snaps.countP (id ∈ ·.pages)

/-- The accounts of a cache between two operations, nothing lost. -/
structure ArenasSettled (sz : HostSizes) (h : Hasher ι) (c : HostCache ι R σ) : Prop where
  accounts : Accounts sz c [] [] []
  chain : ∀ s ∈ c.snaps, s.pages = pageChain h s.tokens

variable {h : Hasher ι} {sz : HostSizes} {c : HostCache ι R σ}

theorem ArenasSettled.arenasOk (hids : Identifies h) (hc : ArenasSettled sz h c) : ArenasOk sz c := by
  have hpages := hc.accounts.pages.perm_all
  rw [List.append_nil] at hpages
  have hstates := perm_states hc.accounts
  rw [List.append_nil] at hstates
  constructor
  · exact hpages
  · exact hpages.nodup_iff.mpr (nodup_arenaSlots sz.pageBytes_pos sz.pages)
  · exact hstates
  · exact hstates.nodup_iff.mpr (nodup_arenaSlots sz.stateBytes_pos sz.states)
  · intro id
    rw [hc.accounts.pages.refs, List.append_nil]
    refine count_flatMap_of_nodup fun s hs => ?_
    rw [hc.chain s hs]
    exact hids.nodup s.tokens

/-- **Step.** -/
theorem ArenasSettled.step (hc : ArenasSettled sz h c) {e : HostEvent R σ} (he : Exports c e) :
    ArenasSettled sz h (hostStep h c e) := by
  cases e with
  | capture env a =>
    obtain ⟨refs, slots, hacc, hlost⟩ := accounts_capture (h := h) hc.accounts
    obtain ⟨rfl, rfl⟩ := hlost he
    refine ⟨hacc, fun s hs => ?_⟩
    rcases snaps_capture hc.accounts hs with ⟨s₀, hs₀, heq, -⟩ | ⟨-, htokens, -, hpages, -⟩
    · obtain ⟨htokens, -, hpages, -⟩ : s₀.tokens = s.tokens ∧ _ ∧ s₀.pages = s.pages ∧ _ := by
        simpa [kept] using heq
      rw [← hpages, ← htokens]
      exact hc.chain s₀ hs₀
    · rw [hpages, htokens]
  | restore i device =>
    obtain ⟨snaps, clock, hsnaps, heq⟩ := restore_fst c i device
    rw [hostStep, heq]
    refine ⟨accounts_snaps hsnaps hc.accounts, fun s hs => ?_⟩
    have hwas : WasHeld c { c with clock := clock, snaps := snaps } s := wasHeld_of_map hsnaps hs
    obtain ⟨s₀, hs₀, heq, -⟩ := hwas
    obtain ⟨htokens, -, hpages, -⟩ : s₀.tokens = s.tokens ∧ _ ∧ s₀.pages = s.pages ∧ _ := by
      simpa [kept] using heq
    rw [← hpages, ← htokens]
    exact hc.chain s₀ hs₀

theorem arenasSettled_new (pageData : Slot → ℕ → R) (stateData : Slot → σ) :
    ArenasSettled sz h (HostCache.new sz pageData stateData) := by
  exact ⟨⟨⟨List.nodup_nil, nofun, fun _ => rfl, fun _ => rfl⟩, fun _ => rfl⟩, nofun⟩

/-- **The arenas.** In every state of a run whose exports and synchronizations succeed nothing is
lost, whatever is evicted and whichever allocations and state copies fail. -/
theorem arenasOk_run (hids : Identifies h) (sz : HostSizes) (pageData : Slot → ℕ → R)
    (stateData : Slot → σ) {events : List (HostEvent R σ)}
    (hevents : Along (hostStep h) Exports (HostCache.new sz pageData stateData) events) :
    ArenasOk sz (run (hostStep h) (HostCache.new sz pageData stateData) events) := by
  have hstep (c : HostCache ι R σ) (e : HostEvent R σ) (hc : ArenasSettled sz h c) (he : Exports c e) :
      ArenasSettled sz h (hostStep h c e) := hc.step he
  exact (inv_run hstep (arenasSettled_new pageData stateData) hevents).arenasOk hids

/-! ### A failed export -/

/-- A hash that keeps the tokens. -/
def prefixHasher : Hasher (List ℕ) where
  zero := []
  block prev tokens := prev ++ tokens

theorem getElem?_chainFrom_prefixHasher (prev tokens : List ℕ) {n i : ℕ} (hi : i < n) :
    (chainFrom prefixHasher prev tokens n)[i]? =
      some (prev ++ tokens.take ((i + 1) * kvPageRows)) := by
  induction n generalizing prev tokens i with
  | zero => exact absurd hi (Nat.not_lt_zero i)
  | succ n ih =>
    rw [chainFrom]
    cases i with
    | zero =>
      rw [Nat.zero_add, Nat.one_mul]
      rfl
    | succ i =>
      rw [List.getElem?_cons_succ, ih _ _ (Nat.lt_of_succ_lt_succ hi)]
      show some (prev ++ tokens.take kvPageRows ++ _) = _
      rw [List.append_assoc, Nat.succ_mul (i + 1), Nat.add_comm _ kvPageRows, List.take_add]

theorem identifies_prefixHasher : Identifies prefixHasher := by
  intro tokens tokens' i j id hi hj
  have hof {tokens : List ℕ} {i : ℕ} (hi : (pageChain prefixHasher tokens)[i]? = some id) :
      id = tokens.take ((i + 1) * kvPageRows) := by
    have hlt := (List.getElem?_eq_some_iff.mp hi).1
    rw [length_pageChain] at hlt
    rw [pageChain, getElem?_chainFrom_prefixHasher _ _ hlt] at hi
    exact (Option.some.inj hi).symm
  rw [← hof hi, ← hof hj]

/-- Arenas of sixteen pages and four states. -/
def smallSizes : HostSizes := ⟨1, 1, 16, 4, Nat.one_pos, Nat.one_pos⟩

/-- A prompt of two full pages. -/
def twoPages : CaptureArgs ℕ Unit where
  kv := ⟨512, List.replicate 512 0, Nat.le_of_eq List.length_replicate.symm⟩
  tokens := List.replicate 512 7
  after := ⟨some 7, none⟩
  kind := .prompt
  state := ()
  swaRows := 0

/-- A device on which the exports of the first `n` pages succeed. -/
def exportsFirst (n : ℕ) : CaptureEnv ℕ := ⟨fun i => i < n, true, true, fun _ _ => 0⟩

theorem arenasOk_run_twoPages :
    let c := run (hostStep prefixHasher) (HostCache.new smallSizes (fun _ _ => 0) fun _ => ())
      [.capture (exportsFirst 2) twoPages, .restore 0 true]
    c.snaps.map (·.tokens) = [twoPages.tokens] ∧ ArenasOk smallSizes c := by
  refine ⟨by decide +kernel, arenasOk_run identifies_prefixHasher smallSizes _ _ ?_⟩
  refine ⟨Or.inr (Or.inr (Or.inr ⟨fun i hi => decide_eq_true ?_, rfl⟩)), trivial, trivial⟩
  have hlen : twoPages.tokens.length = 2 * kvPageRows := List.length_replicate
  rw [hlen] at hi
  exact Nat.lt_of_mul_lt_mul_right hi

/-- **A failed export** loses the reference to the page before it, and the slot of its own. -/
theorem not_arenasOk_failedExport :
    ¬ ArenasOk smallSizes (run (hostStep prefixHasher)
      (HostCache.new smallSizes (fun _ _ => 0) fun _ => ())
      [.capture (exportsFirst 1) twoPages]) := by
  intro hok
  exact absurd (hok.refs (List.replicate 256 7)) (by decide +kernel)

end Coordinator

end Mimo26

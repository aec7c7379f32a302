import Mathlib.Data.List.Induction
import Mimo26.Coordinator.HostAccounts

/-!
# What the host cache restores

A restore loads the rows of the snapshot's tokens, from the pages that it shares with other
snapshots and from its tail, and the position state that its capture was given. As in the accounts,
this holds while the exports and synchronizations of captures succeed: a capture that a failed
synchronization ends leaves the pages it wrote behind, and a later capture shares them, whatever
they hold.

## Main definitions

* `Faithful` — a capture whose exports succeed, from a device that holds the rows of its tokens
* `CapturedIn` — a snapshot of these tokens, with this state, was made in a run and is still held

## Main results

* `contents_capture` — captures keep the contents
* `restore_exact` — what a restore loads in any state of a run
* `not_restore_exact_failedSync` — a page left by a failed synchronization is restored
-/

namespace Mimo26

namespace Coordinator

open RefPool Runs

variable {ι R σ : Type} [DecidableEq ι] {z : HostSizes}

namespace HostCache

variable {c c' : HostCache ι R σ} {held : List ι} {used states : List Slot} {row : List ℕ → R}
  {h : Hasher ι}

theorem evicts_abort (c : HostCache ι R σ) (ids : List ι) : Evicts c (c.abort ids) :=
  ⟨rfl, rfl, rfl, fun _ hs => hs, fun _ _ he => Pool.find_dropAll he⟩

theorem evicts_freeTail (c : HostCache ι R σ) (tail : Option Slot) : Evicts c (c.freeTail tail) := by
  cases tail with
  | none => exact Evicts.refl c
  | some t => exact ⟨rfl, rfl, rfl, fun _ hs => hs, fun _ e he => ⟨e, he, rfl⟩⟩

/-- Contents depend on what stays of a snapshot only. -/
theorem Contents.of_map (hc : Contents row h c) {snaps : List (Snapshot ι)} {clock : ℕ}
    (hsnaps : snaps.map kept = c.snaps.map kept) :
    Contents row h { c with clock := clock, snaps := snaps } := by
  have hof {s : Snapshot ι} (hs : s ∈ snaps) :
      ∃ s₀ ∈ c.snaps, s₀.tokens = s.tokens ∧ s₀.pages = s.pages ∧ s₀.tail = s.tail := by
    have hwas : WasHeld c { c with clock := clock, snaps := snaps } s := wasHeld_of_map hsnaps hs
    obtain ⟨s₀, hs₀, heq, -⟩ := hwas
    simp only [kept, Prod.mk.injEq] at heq
    exact ⟨s₀, hs₀, heq.1, heq.2.2.1, heq.2.2.2.1⟩
  constructor
  · intro s hs
    obtain ⟨s₀, hs₀, htokens, hpages, -⟩ := hof hs
    rw [← hpages, ← htokens]
    exact hc.chain s₀ hs₀
  · exact hc.page
  · intro s hs
    obtain ⟨s₀, hs₀, htokens, -, htail⟩ := hof hs
    rw [← htail, ← htokens]
    exact (hc.tail s₀ hs₀).congr fun _ _ => rfl

/-- **A capture keeps the contents**, if its exports succeed and copy the rows of its tokens. -/
theorem contents_capture {env : CaptureEnv R} {a : CaptureArgs R σ}
    (hacc : Accounts z c held used states) (hids : Identifies h)
    (hrows : a.tokens.length ≤ a.kv.tokens → HoldsRows row a.kv a.tokens)
    (hok : Exports c (.capture env a)) (hc : Contents row h c) : Contents row h (c.capture h env a).1 := by
  have hclock : Accounts z { c with clock := c.clock + 1 } ([] ++ held) used states :=
    accounts_snaps rfl hacc
  have hstart : Contents row h { c with clock := c.clock + 1 } := hc.of_map rfl
  have hpage (k : ℕ) (id : ι) (hk : (pageChain h a.tokens)[k]? = some id) :
      (pageChain h a.tokens)[0 + k]? = some id := by
    rwa [Nat.zero_add]
  have hcaptures := captures_capture h env a c
  generalize (c.capture h env a).1 = c₁ at hcaptures ⊢
  cases hcaptures with
  | short => exact hc
  | held => exact hc.of_map (kept_refresh _ _ _ _)
  | @pages hfresh t stop hpages =>
    cases stop with
    | full =>
      obtain ⟨-, -, hcontents⟩ := accounts_capturePages hpages hclock
      exact (hcontents hids (hrows hfresh.rows) hpage hstart).evicts (evicts_abort _ _)
    | failed => exact absurd rfl (hok.pages hfresh hpages)
  | @tail hfresh t t' tail stop hpages htail =>
    obtain ⟨⟨lost, hlost, -⟩, -, hcontents⟩ := accounts_capturePages hpages hclock
    cases stop with
    | full =>
      obtain ⟨-, -, -, hcontents'⟩ := accounts_captureTail htail hlost
      obtain ⟨hend, -⟩ := hcontents' rfl (hrows hfresh.rows) (hcontents hids (hrows hfresh.rows) hpage hstart)
      exact hend.evicts (evicts_abort _ _)
    | failed => exact absurd rfl (hok.tail hfresh htail)
  | @sync hfresh t t' tail hpages htail hsync =>
    exact absurd (hok.calls hfresh).2 (by simp [hsync])
  | @state hfresh t t' tail c' hpages htail hstate =>
    obtain ⟨⟨lost, hlost, -⟩, -, hcontents⟩ := accounts_capturePages hpages hclock
    obtain ⟨-, -, -, hcontents'⟩ := accounts_captureTail htail hlost
    obtain ⟨hend, -⟩ := hcontents' rfl (hrows hfresh.rows) (hcontents hids (hrows hfresh.rows) hpage hstart)
    have hstate' := (allocStateLoop_spec (z := z) hstate).1
    exact ((hend.evicts hstate').evicts (evicts_freeTail _ _)).evicts (evicts_abort _ _)
  | @copy hfresh t t' tail slot c' hpages htail hstate =>
    obtain ⟨⟨lost, hlost, -⟩, -, hcontents⟩ := accounts_capturePages hpages hclock
    obtain ⟨-, -, -, hcontents'⟩ := accounts_captureTail htail hlost
    obtain ⟨hend, -⟩ := hcontents' rfl (hrows hfresh.rows) (hcontents hids (hrows hfresh.rows) hpage hstart)
    have hstate' := hend.evicts (allocStateLoop_spec (z := z) hstate).1
    have hback : Contents row h { c' with states := slot :: c'.states } :=
      ⟨hstate'.chain, hstate'.page, hstate'.tail⟩
    exact (hback.evicts (evicts_freeTail _ _)).evicts (evicts_abort _ _)
  | @stored hfresh t t' tail slot c' hpages htail hstate =>
    obtain ⟨⟨lost, hlost, -⟩, hheld, hcontents⟩ := accounts_capturePages hpages hclock
    obtain ⟨-, hheld', -, hcontents'⟩ := accounts_captureTail htail hlost
    obtain ⟨hend, htailHolds⟩ := hcontents' rfl (hrows hfresh.rows) (hcontents hids (hrows hfresh.rows) hpage hstart)
    have hev := (allocStateLoop_spec (z := z) hstate).1
    have hstate' := hend.evicts hev
    constructor
    · intro s hs
      rcases List.mem_append.mp hs with hold | hnew
      · exact hstate'.chain s hold
      · obtain rfl := List.mem_singleton.mp hnew
        show t'.held = _
        rw [hheld', hheld rfl]
        rfl
    · exact hstate'.page
    · intro s hs
      rcases List.mem_append.mp hs with hold | hnew
      · exact hstate'.tail s hold
      · obtain rfl := List.mem_singleton.mp hnew
        exact (htailHolds rfl).congr fun _ _ => by
          show c'.pageData _ = _
          rw [hev.pageData]

/-! ### Restores -/

theorem exists_mapM {α β : Type*} {f : α → Option β} {l : List α} (hf : ∀ a ∈ l, ∃ b, f a = some b) :
    ∃ bs, l.mapM f = some bs ∧ bs.map some = l.map f := by
  induction l with
  | nil => exact ⟨[], rfl, rfl⟩
  | cons a l ih =>
    obtain ⟨b, hb⟩ := hf a List.mem_cons_self
    obtain ⟨bs, hbs, hmap⟩ := ih fun a' ha' => hf a' (List.mem_cons_of_mem a ha')
    refine ⟨b :: bs, ?_, by rw [List.map_cons, List.map_cons, hb, hmap]⟩
    rw [List.mapM_cons, hb, hbs]
    rfl

/-- The rows `[0, n)`, page by page. -/
theorem flatMap_pages (f : ℕ → R) (n w : ℕ) :
    ((List.range n).flatMap fun i => (List.range w).map fun j => f (i * w + j)) =
      (List.range (n * w)).map f := by
  induction n with
  | zero =>
    rw [Nat.zero_mul]
    rfl
  | succ n ih =>
    rw [List.range_succ, List.flatMap_append, ih, List.flatMap_singleton, Nat.succ_mul,
      List.range_add, List.map_append, List.map_map]
    rfl

/-- **A restore** loads the rows of the snapshot's tokens. -/
theorem restore_contents (hacc : Accounts z c held used states) (hc : Contents row h c) {i : ℕ}
    {s : Snapshot ι} (hs : c.snaps[i]? = some s) :
    (c.restore i true).2 = some {
      tokens := s.tokens.length
      ga := (List.range s.tokens.length).map fun j => row (s.tokens.take (j + 1))
      state := c.stateData s.state, swaRows := s.swaRows, after := s.after, kind := s.kind } := by
  have hmem := List.mem_of_getElem? hs
  have hfind : ∀ id ∈ s.pages, ∃ e, c.pages.find id = some e := by
    intro id hid
    obtain ⟨e, he, -⟩ := hacc.pages.find_of_mem
      (List.mem_append_left held (List.mem_flatMap.mpr ⟨s, hmem, hid⟩))
    exact ⟨e, he⟩
  obtain ⟨pages, hpages, hmap⟩ := exists_mapM hfind
  have hlen : pages.length = s.tokens.length / kvPageRows := by
    have hlen := congrArg List.length hmap
    rwa [List.length_map, List.length_map, hc.chain s hmem, length_pageChain] at hlen
  -- the rows of the full pages
  have hfull : (pages.flatMap fun p => c.pageRows p.slot kvPageRows) =
      (List.range (s.tokens.length / kvPageRows * kvPageRows)).map
        fun j => row (s.tokens.take (j + 1)) := by
    rw [← flatMap_pages, List.flatMap_def, List.flatMap_def]
    refine congrArg List.flatten (List.ext_getElem? fun i => ?_)
    rw [List.getElem?_map, List.getElem?_map]
    rcases Nat.lt_or_ge i pages.length with hi | hi
    · have hentry := congrArg (·[i]?) hmap
      simp only [List.getElem?_map, List.getElem?_eq_getElem hi] at hentry
      obtain ⟨id, hid, hpage⟩ := Option.map_eq_some_iff.mp hentry.symm
      rw [hc.chain s hmem] at hid
      rw [List.getElem?_eq_getElem hi, List.getElem?_range (hlen ▸ hi)]
      refine congrArg some (List.map_congr_left fun j hj => ?_)
      exact hc.page id _ hpage s.tokens i hid j (List.mem_range.mp hj)
    · rw [List.getElem?_eq_none hi, List.getElem?_eq_none (by rwa [List.length_range, ← hlen])]
      rfl
  have hsplit : List.range s.tokens.length =
      List.range (s.tokens.length / kvPageRows * kvPageRows) ++
        (List.range (s.tokens.length % kvPageRows)).map
          (s.tokens.length / kvPageRows * kvPageRows + ·) := by
    rw [← List.range_add, Nat.div_add_mod']
  have hga : (pages.flatMap fun p => c.pageRows p.slot kvPageRows) ++
      s.tail.elim [] (fun t => c.pageRows t (s.tokens.length % kvPageRows)) =
      (List.range s.tokens.length).map fun j => row (s.tokens.take (j + 1)) := by
    rw [hfull, hsplit, List.map_append, List.map_map]
    refine congrArg _ ?_
    have htail := hc.tail s hmem
    cases hslot : s.tail with
    | none =>
      rw [hslot] at htail
      change s.tokens.length % kvPageRows = 0 at htail
      rw [htail]
      rfl
    | some slot =>
      rw [hslot] at htail
      exact List.map_congr_left fun j hj => htail j (List.mem_range.mp hj)
  rw [restore, hs]
  dsimp only
  rw [hpages]
  refine congrArg (fun ga => some ({
    tokens := s.tokens.length, ga := ga, state := c.stateData s.state, swaRows := s.swaRows
    after := s.after, kind := s.kind } : Restored R σ)) (Eq.trans ?_ hga)
  cases s.tail <;> rfl

end HostCache

open HostCache

/-! ### Runs -/

/-- A capture whose exports succeed, from a device that holds the rows of its tokens. -/
def Faithful (row : List ℕ → R) (c : HostCache ι R σ) : HostEvent R σ → Prop
  | .capture env a => Exports c (.capture env a) ∧
    (a.tokens.length ≤ a.kv.tokens → HoldsRows row a.kv a.tokens)
  | .restore _ _ => True

/-- A capture of the run, of tokens that no snapshot had, was given this state, and a snapshot has
had these tokens since. -/
def CapturedIn (h : Hasher ι) (c₀ : HostCache ι R σ) (events : List (HostEvent R σ))
    (tokens : List ℕ) (swaRows : ℕ) (state : σ) : Prop :=
  ∃ before env a after, events = before ++ .capture env a :: after ∧
    a.tokens = tokens ∧ a.swaRows = swaRows ∧ a.state = state ∧
    (∀ s ∈ (run (hostStep h) c₀ before).snaps, s.tokens ≠ tokens) ∧
    ∀ more, more <+: after →
      ∃ s ∈ (run (hostStep h) c₀ (before ++ .capture env a :: more)).snaps, s.tokens = tokens

/-- The accounts, the contents and the origins of the snapshots. -/
structure Stored (sz : HostSizes) (h : Hasher ι) (row : List ℕ → R) (c₀ : HostCache ι R σ)
    (events : List (HostEvent R σ)) (c : HostCache ι R σ) : Prop where
  accounts : Accounts sz c [] [] []
  contents : Contents row h c
  origin : ∀ s ∈ c.snaps, CapturedIn h c₀ events s.tokens s.swaRows (c.stateData s.state)

variable {h : Hasher ι} {sz : HostSizes} {row : List ℕ → R} {c₀ : HostCache ι R σ}
  {events : List (HostEvent R σ)}

/-- A snapshot that is still held after one more step. -/
theorem CapturedIn.concat {tokens : List ℕ} {swaRows : ℕ} {state : σ}
    (hcap : CapturedIn h c₀ events tokens swaRows state) {e : HostEvent R σ}
    (hheld : ∃ s ∈ (run (hostStep h) c₀ (events ++ [e])).snaps, s.tokens = tokens) :
    CapturedIn h c₀ (events ++ [e]) tokens swaRows state := by
  obtain ⟨before, env, a, after, rfl, htokens, hrows, hstate, hnew, hsince⟩ := hcap
  refine ⟨before, env, a, after ++ [e], ?_, htokens, hrows, hstate, hnew, fun more hmore => ?_⟩
  · rw [List.append_assoc, List.cons_append]
  · rcases List.prefix_concat_iff.mp hmore with rfl | hmore
    · rwa [List.append_assoc, List.cons_append] at hheld
    · exact hsince more hmore

/-- **Step.** -/
theorem Stored.step (hids : Identifies h)
    (hc : Stored sz h row c₀ events (run (hostStep h) c₀ events)) {e : HostEvent R σ}
    (he : Faithful row (run (hostStep h) c₀ events) e) :
    Stored sz h row c₀ (events ++ [e]) (run (hostStep h) c₀ (events ++ [e])) := by
  have hrun : run (hostStep h) c₀ (events ++ [e]) = hostStep h (run (hostStep h) c₀ events) e :=
    run_append _ _ _ _
  -- a snapshot that was held before
  have hheld {s : Snapshot ι} (hs : s ∈ (run (hostStep h) c₀ (events ++ [e])).snaps)
      (hwas : WasHeld (run (hostStep h) c₀ events) (run (hostStep h) c₀ (events ++ [e])) s) :
      CapturedIn h c₀ (events ++ [e]) s.tokens s.swaRows
        ((run (hostStep h) c₀ (events ++ [e])).stateData s.state) := by
    obtain ⟨s₀, hs₀, heq, hdata⟩ := hwas
    simp only [kept, Prod.mk.injEq] at heq
    obtain ⟨htokens, hrows, -, -, hstate⟩ := heq
    have hcap := hc.origin s₀ hs₀
    rw [htokens, hrows, hstate, ← hdata] at hcap
    exact hcap.concat ⟨s, hs, rfl⟩
  cases e with
  | capture env a =>
    obtain ⟨hok, hrows⟩ := he
    obtain ⟨refs, slots, hacc, hlost⟩ := accounts_capture (h := h) (a := a) hc.accounts
    obtain ⟨rfl, rfl⟩ := hlost hok
    have hcontents := contents_capture hc.accounts hids hrows hok hc.contents
    refine ⟨hrun ▸ hacc, hrun ▸ hcontents, fun s hs => ?_⟩
    have hmem := hs
    rw [hrun] at hmem
    rcases snaps_capture hc.accounts hmem with hwas | ⟨hfresh, htokens, hswa, -, hstate⟩
    · exact hheld hs (hrun ▸ hwas)
    · refine ⟨events, env, a, [], rfl, htokens.symm, hswa.symm, ?_, ?_, fun more hmore => ?_⟩
      · rw [hrun]
        exact hstate.symm
      · rw [htokens]
        exact hfresh.unheld
      · rw [List.prefix_nil.mp hmore]
        exact ⟨s, hs, rfl⟩
  | restore i device =>
    obtain ⟨snaps, clock, hsnaps, heq⟩ := restore_fst (run (hostStep h) c₀ events) i device
    have hstep : run (hostStep h) c₀ (events ++ [.restore i device]) =
        { run (hostStep h) c₀ events with clock := clock, snaps := snaps } := hrun.trans heq
    refine ⟨hstep ▸ accounts_snaps hsnaps hc.accounts, hstep ▸ hc.contents.of_map hsnaps, ?_⟩
    intro s hs
    refine hheld hs ?_
    rw [hstep] at hs ⊢
    exact wasHeld_of_map hsnaps hs

/-- **Run.** -/
theorem stored_run (hids : Identifies h) (pageData : Slot → ℕ → R) (stateData : Slot → σ)
    (hevents : Along (hostStep h) (Faithful row) (HostCache.new sz pageData stateData) events) :
    Stored sz h row (HostCache.new sz pageData stateData) events
      (run (hostStep h) (HostCache.new sz pageData stateData) events) := by
  induction events using List.reverseRecOn with
  | nil =>
    refine ⟨(arenasSettled_new (h := h) pageData stateData).accounts, ⟨nofun, ?_, nofun⟩, nofun⟩
    intro id e he
    exact absurd he (by simp [HostCache.new, Pool.find])
  | append_singleton events e ih =>
    obtain ⟨hbefore, hlast⟩ := (along_append _).mp hevents
    exact (ih hbefore).step hids hlast.1

/-- **A restore is exact.** In every state of a run whose captures are faithful, restoring a
snapshot loads the rows of all its tokens, each a function of the tokens up to it, and the position
state that the snapshot was captured with. -/
theorem restore_exact (hids : Identifies h) (row : List ℕ → R) (sz : HostSizes)
    (pageData : Slot → ℕ → R) (stateData : Slot → σ) {events : List (HostEvent R σ)}
    (hevents : Along (hostStep h) (Faithful row) (HostCache.new sz pageData stateData) events)
    {i : ℕ} {s : Snapshot ι}
    (hs : (run (hostStep h) (HostCache.new sz pageData stateData) events).snaps[i]? = some s) :
    ∃ r, ((run (hostStep h) (HostCache.new sz pageData stateData) events).restore i true).2 =
        some r ∧
      r.tokens = s.tokens.length ∧
      r.ga = (List.range s.tokens.length).map (fun j => row (s.tokens.take (j + 1))) ∧
      CapturedIn h (HostCache.new sz pageData stateData) events s.tokens r.swaRows r.state := by
  have hstored := stored_run hids pageData stateData hevents
  exact ⟨_, restore_contents hstored.accounts hstored.contents hs, rfl, rfl,
    hstored.origin s (List.mem_of_getElem? hs)⟩

theorem restore_exact_twoPages :
    let c := run (hostStep prefixHasher) (HostCache.new smallSizes (fun _ _ => 9) fun _ => ())
      [.capture (exportsFirst 2) twoPages]
    ∃ s r, c.snaps[0]? = some s ∧ (c.restore 0 true).2 = some r ∧ s.tokens = twoPages.tokens ∧
      r.ga = (List.range s.tokens.length).map fun _ => 0 := by
  have hlen : twoPages.tokens.length = 2 * kvPageRows := List.length_replicate
  have hevents : Along (hostStep prefixHasher) (Faithful fun _ => 0)
      (HostCache.new smallSizes (fun _ _ => 9) fun _ => ())
      [.capture (exportsFirst 2) twoPages] := by
    refine ⟨⟨Or.inr (Or.inr (Or.inr ⟨fun i hi => decide_eq_true ?_, rfl⟩)), ?_⟩, trivial⟩
    · rw [hlen] at hi
      exact Nat.lt_of_mul_lt_mul_right hi
    · intro _ j hj
      rw [hlen] at hj
      exact List.getElem?_replicate.trans (if_pos hj)
  have hsnaps : (run (hostStep prefixHasher)
      (HostCache.new smallSizes (fun _ _ => 9) fun _ => ())
      [.capture (exportsFirst 2) twoPages]).snaps.map (·.tokens) = [twoPages.tokens] := by
    decide +kernel
  obtain ⟨s, hs, htokens⟩ := List.map_eq_singleton_iff.mp hsnaps
  have hfirst := congrArg (·[0]?) hs
  obtain ⟨r, hr, -, hga, -⟩ :=
    restore_exact identifies_prefixHasher (fun _ => 0) smallSizes _ _ hevents hfirst
  exact ⟨s, r, hfirst, hr, htokens, hga⟩

/-- **A failed synchronization** leaves its pages in the table, whatever they hold. The next capture
of the prompt shares them. -/
theorem not_restore_exact_failedSync :
    HoldsRows (fun _ => 0) twoPages.kv twoPages.tokens ∧
    ∃ r, ((run (hostStep prefixHasher) (HostCache.new smallSizes (fun _ _ => 0) fun _ => ())
        [.capture ⟨fun _ => true, false, true, fun _ _ => 9⟩ twoPages,
          .capture (exportsFirst 2) twoPages]).restore 0 true).2 = some r ∧
      r.ga ≠ (List.range twoPages.tokens.length).map fun _ => 0 := by
  refine ⟨fun j hj => ?_, ?_⟩
  · have hlen : twoPages.tokens.length = 2 * kvPageRows := List.length_replicate
    rw [hlen] at hj
    exact List.getElem?_replicate.trans (if_pos hj)
  · have hfirst : (((run (hostStep prefixHasher)
        (HostCache.new smallSizes (fun _ _ => 0) fun _ => ())
        [.capture ⟨fun _ => true, false, true, fun _ _ => 9⟩ twoPages,
          .capture (exportsFirst 2) twoPages]).restore 0 true).2.map (·.ga.head?)) =
        some (some 9) := by
      decide +kernel
    obtain ⟨r, hr, hhead⟩ := Option.map_eq_some_iff.mp hfirst
    refine ⟨r, hr, fun heq => ?_⟩
    rw [heq] at hhead
    exact absurd hhead (by decide +kernel)

end Coordinator

end Mimo26

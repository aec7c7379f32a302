import Mathlib.Data.List.Induction
import Mimo26.Coordinator.HostAccounts

/-!
# What a lookup finds

A lookup compares the page ids of a snapshot with those of the prompt and the tokens past the last
full page one by one. With ids that identify tokens this is the plain comparison of prefixes, so a
lookup finds a longest snapshot that starts the prompt. Of a list of tokens a cache holds one
snapshot at most, as a capture refreshes the one that is there and an eviction only removes; so the
one retry of `lookup_for` is enough.

## Main definitions

* `Listed` — what the snapshots of every reachable cache have
* `Eligible` — the snapshots a request can start from
* `Finds` — an answer is a longest eligible snapshot, or there is none

## Main results

* `Listed.step` — captures and restores keep the list, whatever fails
* `lookup_finds` — a lookup finds a longest prefix
* `lookupFor_finds` — in every state of a run
-/

namespace Mimo26

namespace Coordinator

open Runs RefPool Vec

namespace HostCache

variable {ι R σ : Type}

/-! ### Page ids of prefixes -/

theorem take_chainFrom (h : Hasher ι) (prev : ι) (tokens : List ℕ) {m n : ℕ} (hle : m ≤ n) :
    (chainFrom h prev tokens n).take m = chainFrom h prev tokens m := by
  induction n generalizing prev tokens m with
  | zero => rw [Nat.le_zero.mp hle, List.take_zero, chainFrom]
  | succ n ih =>
    cases m with
    | zero => rw [List.take_zero, chainFrom]
    | succ m => rw [chainFrom, chainFrom, List.take_succ_cons, ih _ _ (Nat.le_of_succ_le_succ hle)]

/-- The ids of pages are those of the tokens in them. -/
theorem chainFrom_append (h : Hasher ι) (prev : ι) {tokens : List ℕ} (more : List ℕ) {n : ℕ}
    (hn : n * kvPageRows ≤ tokens.length) :
    chainFrom h prev (tokens ++ more) n = chainFrom h prev tokens n := by
  induction n generalizing prev tokens with
  | zero => rw [chainFrom, chainFrom]
  | succ n ih =>
    rw [Nat.succ_mul] at hn
    rw [chainFrom, chainFrom, List.take_append_of_le_length (by omega),
      List.drop_append_of_le_length (by omega), ih _ (by rw [List.length_drop]; omega)]

/-- The page ids of a prefix are leading page ids. -/
theorem pageChain_prefix (h : Hasher ι) {tokens prompt : List ℕ} (hpre : tokens <+: prompt) :
    pageChain h tokens = (pageChain h prompt).take (tokens.length / kvPageRows) := by
  obtain ⟨more, rfl⟩ := hpre
  have hle : tokens.length / kvPageRows ≤ (tokens ++ more).length / kvPageRows := by
    refine Nat.div_le_div_right ?_
    rw [List.length_append]
    omega
  rw [pageChain, pageChain, take_chainFrom h _ _ hle,
    chainFrom_append h _ more (Nat.div_mul_le_self _ _)]

/-- Equal leading page ids are equal leading pages. -/
theorem Identifies.take_eq {h : Hasher ι} (hids : Identifies h) {tokens prompt : List ℕ} {n : ℕ}
    (hn : n = tokens.length / kvPageRows) (hpages : pageChain h tokens = (pageChain h prompt).take n) :
    tokens.take (n * kvPageRows) = prompt.take (n * kvPageRows) := by
  cases n with
  | zero => rw [Nat.zero_mul, List.take_zero, List.take_zero]
  | succ n =>
    obtain ⟨id, hid⟩ : ∃ id, (pageChain h tokens)[n]? = some id := by
      refine ⟨_, List.getElem?_eq_getElem ?_⟩
      rw [length_pageChain]
      omega
    have hid' := hid
    rw [hpages, List.getElem?_take_of_lt (Nat.lt_succ_self n)] at hid'
    exact hids hid hid'

/-! ### The list of snapshots -/

/-- The snapshots of a cache: each has the page ids of its tokens and at least the least tokens, and
no two have the same. -/
structure Listed (h : Hasher ι) (snaps : List (Snapshot ι)) : Prop where
  chain : ∀ s ∈ snaps, s.pages = pageChain h s.tokens
  long : ∀ s ∈ snaps, minTokens ≤ s.tokens.length
  distinct : (snaps.map (·.tokens)).Nodup

variable {h : Hasher ι} {snaps snaps' : List (Snapshot ι)}

/-- Evictions keep the list. -/
theorem Listed.subperm (hl : Listed h snaps) (hsub : snaps'.Subperm snaps) : Listed h snaps' := by
  refine ⟨fun s hs => hl.chain s (hsub.subset hs), fun s hs => hl.long s (hsub.subset hs), ?_⟩
  obtain ⟨kept, hperm, hsublist⟩ := hsub
  exact (hperm.map _).nodup_iff.mp ((hsublist.map _).nodup hl.distinct)

/-- The list depends on what stays of a snapshot only. -/
theorem Listed.of_map (hl : Listed h snaps) (hkept : snaps'.map kept = snaps.map kept) :
    Listed h snaps' := by
  have hof {s : Snapshot ι} (hs : s ∈ snaps') :
      ∃ s₀ ∈ snaps, s₀.tokens = s.tokens ∧ s₀.pages = s.pages := by
    have hmem : kept s ∈ snaps.map kept := hkept ▸ List.mem_map_of_mem hs
    obtain ⟨s₀, hs₀, heq⟩ := List.mem_map.mp hmem
    simp only [kept, Prod.mk.injEq] at heq
    exact ⟨s₀, hs₀, heq.1, heq.2.2.1⟩
  have htokens (l : List (Snapshot ι)) : l.map (·.tokens) = (l.map kept).map (·.1) := by
    rw [List.map_map]
    rfl
  refine ⟨fun s hs => ?_, fun s hs => ?_, ?_⟩
  · obtain ⟨s₀, hs₀, htok, hpages⟩ := hof hs
    rw [← hpages, ← htok]
    exact hl.chain s₀ hs₀
  · obtain ⟨s₀, hs₀, htok, -⟩ := hof hs
    rw [← htok]
    exact hl.long s₀ hs₀
  · rw [htokens, hkept, ← htokens]
    exact hl.distinct

/-- A snapshot of tokens that no other has. -/
theorem Listed.push (hl : Listed h snaps) {s : Snapshot ι} (hchain : s.pages = pageChain h s.tokens)
    (hlong : minTokens ≤ s.tokens.length) (hnew : ∀ s' ∈ snaps, s'.tokens ≠ s.tokens) :
    Listed h (snaps ++ [s]) := by
  refine ⟨fun s' hs' => ?_, fun s' hs' => ?_, ?_⟩
  · rcases List.mem_append.mp hs' with hold | hmem
    · exact hl.chain s' hold
    · rwa [List.mem_singleton.mp hmem]
  · rcases List.mem_append.mp hs' with hold | hmem
    · exact hl.long s' hold
    · rwa [List.mem_singleton.mp hmem]
  · rw [List.map_append, List.nodup_append]
    refine ⟨hl.distinct, List.nodup_singleton _, ?_⟩
    rintro tokens hold tokens' htokens' rfl
    obtain ⟨s', hs', heq⟩ := List.mem_map.mp hold
    exact hnew s' hs' (heq.trans (List.mem_singleton.mp htokens'))

variable [DecidableEq ι] {c c' : HostCache ι R σ}

theorem subperm_evictOne (hev : c.evictOne = some c') : c'.snaps.Subperm c.snaps := by
  rw [evictOne] at hev
  split at hev
  · cases hev
  · next i hi =>
    split at hev
    · cases hev
    · next s hs =>
      obtain rfl := Option.some.inj hev
      have hsnaps : ((release { c with snaps := swapRemove c.snaps i } s)).snaps =
          swapRemove c.snaps i := by
        rw [release]
      rw [hsnaps]
      exact subperm_swapRemove (List.getElem?_eq_some_iff.mp hs).1

theorem subperm_allocPageLoop {n : ℕ} {o : Option Slot} (halloc : allocPageLoop n c = (o, c')) :
    c'.snaps.Subperm c.snaps := by
  induction n generalizing c with
  | zero =>
    rw [allocPageLoop] at halloc
    split at halloc
    · obtain ⟨-, rfl⟩ := Prod.mk.inj halloc
      exact List.Subperm.refl _
    · obtain ⟨-, rfl⟩ := Prod.mk.inj halloc
      exact List.Subperm.refl _
  | succ n ih =>
    rw [allocPageLoop] at halloc
    split at halloc
    · obtain ⟨-, rfl⟩ := Prod.mk.inj halloc
      exact List.Subperm.refl _
    · split at halloc
      · obtain ⟨-, rfl⟩ := Prod.mk.inj halloc
        exact List.Subperm.refl _
      · next c₁ hev => exact (ih halloc).trans (subperm_evictOne hev)

theorem subperm_allocStateLoop {n : ℕ} {o : Option Slot} (halloc : allocStateLoop n c = (o, c')) :
    c'.snaps.Subperm c.snaps := by
  induction n generalizing c with
  | zero =>
    rw [allocStateLoop] at halloc
    split at halloc
    · obtain ⟨-, rfl⟩ := Prod.mk.inj halloc
      exact List.Subperm.refl _
    · obtain ⟨-, rfl⟩ := Prod.mk.inj halloc
      exact List.Subperm.refl _
  | succ n ih =>
    rw [allocStateLoop] at halloc
    split at halloc
    · obtain ⟨-, rfl⟩ := Prod.mk.inj halloc
      exact List.Subperm.refl _
    · split at halloc
      · obtain ⟨-, rfl⟩ := Prod.mk.inj halloc
        exact List.Subperm.refl _
      · next c₁ hev => exact (ih halloc).trans (subperm_evictOne hev)

/-- The full pages: snapshots are evicted at most, and the references taken are those asked for. -/
theorem subperm_capturePages {env : CaptureEnv R} {kv : DeviceRows R} {ids : List ι} {i : ℕ}
    {t t' : Taken ι R σ} {stop : Option Stop} (hpages : capturePages env kv i ids t = (t', stop)) :
    t'.cache.snaps.Subperm t.cache.snaps ∧ (stop = none → t'.held = t.held ++ ids) := by
  induction ids generalizing i t with
  | nil =>
    obtain ⟨rfl, -⟩ := Prod.mk.inj hpages
    exact ⟨List.Subperm.refl _, fun _ => (List.append_nil _).symm⟩
  | cons id ids ih =>
    rw [capturePages] at hpages
    split at hpages
    · obtain ⟨hsub, hheld⟩ := ih hpages
      refine ⟨hsub, fun hstop => ?_⟩
      rw [hheld hstop]
      exact List.append_assoc _ _ _
    · split at hpages
      · next c₁ halloc =>
        obtain ⟨rfl, rfl⟩ := Prod.mk.inj hpages
        exact ⟨subperm_allocPageLoop halloc, fun h => by cases h⟩
      · next slot c₁ halloc =>
        have hsub₁ : c₁.snaps.Subperm t.cache.snaps := subperm_allocPageLoop halloc
        split at hpages
        · obtain ⟨hsub, hheld⟩ := ih hpages
          refine ⟨hsub.trans hsub₁, fun hstop => ?_⟩
          rw [hheld hstop]
          exact List.append_assoc _ _ _
        · obtain ⟨rfl, rfl⟩ := Prod.mk.inj hpages
          exact ⟨hsub₁, fun h => by cases h⟩

theorem subperm_captureTail {env : CaptureEnv R} {kv : DeviceRows R} {n : ℕ} {t t' : Taken ι R σ}
    {tail : Option Slot} {stop : Option Stop} (htail : captureTail env kv n t = (t', tail, stop)) :
    t'.cache.snaps.Subperm t.cache.snaps ∧ t'.held = t.held := by
  rw [captureTail] at htail
  dsimp only at htail
  split at htail
  · obtain ⟨rfl, -⟩ := Prod.mk.inj htail
    exact ⟨List.Subperm.refl _, rfl⟩
  · split at htail
    · next c₁ halloc =>
      obtain ⟨rfl, -⟩ := Prod.mk.inj htail
      exact ⟨subperm_allocPageLoop halloc, rfl⟩
    · next slot c₁ halloc =>
      have hsub₁ : c₁.snaps.Subperm t.cache.snaps := subperm_allocPageLoop halloc
      split at htail
      · obtain ⟨rfl, -⟩ := Prod.mk.inj htail
        exact ⟨hsub₁, rfl⟩
      · obtain ⟨rfl, -⟩ := Prod.mk.inj htail
        exact ⟨hsub₁, rfl⟩

omit [DecidableEq ι] in
theorem snaps_freeTail (c : HostCache ι R σ) (tail : Option Slot) :
    (c.freeTail tail).snaps = c.snaps := by
  cases tail <;> rfl

/-- **A capture keeps the list**, whatever fails. -/
theorem listed_capture (env : CaptureEnv R) (a : CaptureArgs R σ) (hl : Listed h c.snaps) :
    Listed h (c.capture h env a).1.snaps := by
  have hcaptures := captures_capture h env a c
  generalize (c.capture h env a).1 = c₁ at hcaptures ⊢
  cases hcaptures with
  | short => exact hl
  | held => exact hl.of_map (kept_refresh _ _ _ _)
  | @pages hfresh t stop hpages =>
    have hsub : t.cache.snaps.Subperm c.snaps := (subperm_capturePages hpages).1
    split
    · exact hl.subperm hsub
    · exact hl.subperm hsub
  | @tail hfresh t t' tail stop hpages htail =>
    have hsub : t'.cache.snaps.Subperm c.snaps :=
      (subperm_captureTail htail).1.trans (subperm_capturePages hpages).1
    split
    · exact hl.subperm hsub
    · exact hl.subperm hsub
  | sync hfresh hpages htail =>
    exact hl.subperm ((subperm_captureTail htail).1.trans (subperm_capturePages hpages).1)
  | @state hfresh t t' tail c' hpages htail hstate =>
    have hsub := (subperm_allocStateLoop hstate).trans
      ((subperm_captureTail htail).1.trans (subperm_capturePages hpages).1)
    refine hl.subperm ?_
    show (c'.freeTail tail).snaps.Subperm _
    rw [snaps_freeTail]
    exact hsub
  | @copy hfresh t t' tail slot c' hpages htail hstate =>
    have hsub := (subperm_allocStateLoop hstate).trans
      ((subperm_captureTail htail).1.trans (subperm_capturePages hpages).1)
    refine hl.subperm ?_
    show (HostCache.freeTail _ tail).snaps.Subperm _
    rw [snaps_freeTail]
    exact hsub
  | @stored hfresh t t' tail slot c' hpages htail hstate =>
    have hsub : c'.snaps.Subperm c.snaps := (subperm_allocStateLoop hstate).trans
      ((subperm_captureTail htail).1.trans (subperm_capturePages hpages).1)
    refine (hl.subperm hsub).push ?_ hfresh.long fun s hs => hfresh.unheld s (hsub.subset hs)
    show t'.held = _
    rw [(subperm_captureTail htail).2, (subperm_capturePages hpages).2 rfl]
    rfl

/-- **Step.** -/
theorem Listed.step (hl : Listed h c.snaps) (e : HostEvent R σ) :
    Listed h (hostStep h c e).snaps := by
  cases e with
  | capture env a => exact listed_capture env a hl
  | restore i device =>
    obtain ⟨snaps, clock, hsnaps, heq⟩ := restore_fst c i device
    rw [hostStep, heq]
    exact hl.of_map hsnaps

/-- **Run.** -/
theorem listed_run (sz : HostSizes) (pageData : Slot → ℕ → R) (stateData : Slot → σ)
    (events : List (HostEvent R σ)) :
    Listed h (run (hostStep h) (HostCache.new sz pageData stateData) events).snaps := by
  have hstep (c : HostCache ι R σ) (e : HostEvent R σ) (hl : Listed h c.snaps) (_ : True) :
      Listed h (hostStep h c e).snaps := hl.step e
  have hnew : Listed h (HostCache.new sz pageData stateData : HostCache ι R σ).snaps :=
    ⟨nofun, nofun, List.nodup_nil⟩
  exact inv_run hstep hnew (along_of_forall fun _ _ => trivial)

/-! ### Lookups -/

/-- A snapshot that a request for `prompt` can start from. -/
structure Eligible (prompt : List ℕ) (sampled : Bool) (s : Snapshot ι) : Prop where
  starts : s.tokens <+: prompt
  serves : s.tokens.length < prompt.length ∨ s.after.serves sampled = true

/-- The answer is the place and the length of a longest snapshot that is good, none if there is
no such snapshot. -/
structure Finds (snaps : List (Snapshot ι)) (good : Snapshot ι → Prop)
    (answer : Option (ℕ × ℕ)) : Prop where
  found : ∀ i n, answer = some (i, n) → ∃ s, snaps[i]? = some s ∧ n = s.tokens.length ∧ good s ∧
    ∀ s' ∈ snaps, good s' → s'.tokens.length ≤ n
  missing : answer = none → ∀ s ∈ snaps, ¬ good s

omit [DecidableEq ι] in
theorem Finds.congr {good good' : Snapshot ι → Prop} (hgood : ∀ s ∈ snaps, good s ↔ good' s)
    {answer : Option (ℕ × ℕ)} (hf : Finds snaps good answer) : Finds snaps good' answer := by
  refine ⟨fun i n hanswer => ?_, fun hanswer s hs hs' => ?_⟩
  · obtain ⟨s, hs, hn, hsgood, hmax⟩ := hf.found i n hanswer
    exact ⟨s, hs, hn, (hgood s (List.mem_of_getElem? hs)).mp hsgood,
      fun s' hs' hs'good => hmax s' hs' ((hgood s' hs').mpr hs'good)⟩
  · exact hf.missing hanswer s hs ((hgood s hs).mpr hs')

omit [DecidableEq ι] in
/-- The scan keeps the first of the longest matches. -/
theorem finds_scan (p : Snapshot ι → Bool) (snaps : List (Snapshot ι)) :
    Finds snaps (fun s => p s = true) (snaps.zipIdx.foldl (fun best (s, i) =>
      if p s && best.all (·.2 < s.tokens.length) then some (i, s.tokens.length) else best) none) := by
  induction snaps using List.reverseRecOn with
  | nil => exact ⟨nofun, fun _ => nofun⟩
  | append_singleton snaps s ih =>
    rw [List.zipIdx_append, List.foldl_append]
    generalize List.foldl _ _ snaps.zipIdx = best at ih ⊢
    rw [Nat.zero_add, List.zipIdx_singleton, List.foldl_cons, List.foldl_nil]
    have hlast : (snaps ++ [s])[snaps.length]? = some s := List.getElem?_concat_length
    have hkeep {i : ℕ} {s' : Snapshot ι} (hi : snaps[i]? = some s') :
        (snaps ++ [s])[i]? = some s' := by
      rwa [List.getElem?_append_left (List.getElem?_eq_some_iff.mp hi).1]
    have hmem {q : Snapshot ι → Prop} (hold : ∀ s' ∈ snaps, q s') (hnew : q s) :
        ∀ s' ∈ snaps ++ [s], q s' := by
      intro s' hs'
      rcases List.mem_append.mp hs' with hs' | hs'
      · exact hold s' hs'
      · rwa [List.mem_singleton.mp hs']
    dsimp only
    split
    · next htaken =>
      rw [Bool.and_eq_true] at htaken
      refine ⟨fun i n hanswer => ?_, nofun⟩
      obtain ⟨rfl, rfl⟩ := Prod.mk.inj (Option.some.inj hanswer)
      refine ⟨s, hlast, rfl, htaken.1, hmem (fun s' hs' hs'p => ?_) fun _ => Nat.le_refl _⟩
      cases best with
      | none => exact absurd hs'p (ih.missing rfl s' hs')
      | some best =>
        obtain ⟨-, -, -, -, hmax⟩ := ih.found best.1 best.2 rfl
        have hlt : best.2 < s.tokens.length := by simpa using htaken.2
        exact Nat.le_trans (hmax s' hs' hs'p) (Nat.le_of_lt hlt)
    · next hleft =>
      refine ⟨fun i n hanswer => ?_, fun hanswer => ?_⟩
      · obtain ⟨s₀, hs₀, hn, hs₀p, hmax⟩ := ih.found i n hanswer
        refine ⟨s₀, hkeep hs₀, hn, hs₀p, hmem hmax fun hsp => ?_⟩
        rw [hsp, hanswer] at hleft
        simpa using hleft
      · refine hmem (ih.missing hanswer) fun hsp => hleft ?_
        rw [hsp, hanswer]
        rfl

variable {prompt : List ℕ}

omit [DecidableEq ι] in
/-- What a lookup compares is a comparison of prefixes. -/
theorem prefix_iff_pages (hids : Identifies h) {s : Snapshot ι}
    (hchain : s.pages = pageChain h s.tokens) :
    (s.tokens.length ≤ prompt.length ∧
      s.pages = (pageChain h prompt).take (s.tokens.length / kvPageRows) ∧
      s.tokens.drop (s.tokens.length / kvPageRows * kvPageRows) =
        (prompt.take s.tokens.length).drop (s.tokens.length / kvPageRows * kvPageRows)) ↔
      s.tokens <+: prompt := by
  have hle : s.tokens.length / kvPageRows * kvPageRows ≤ s.tokens.length := Nat.div_mul_le_self _ _
  rw [hchain]
  constructor
  · rintro ⟨-, hpages, hdrop⟩
    have htake := hids.take_eq rfl hpages
    rw [List.prefix_iff_eq_take]
    calc s.tokens
        = s.tokens.take (s.tokens.length / kvPageRows * kvPageRows) ++
            s.tokens.drop (s.tokens.length / kvPageRows * kvPageRows) :=
          (List.take_append_drop _ _).symm
      _ = (prompt.take s.tokens.length).take (s.tokens.length / kvPageRows * kvPageRows) ++
            (prompt.take s.tokens.length).drop (s.tokens.length / kvPageRows * kvPageRows) := by
          rw [htake, hdrop, List.take_take, Nat.min_eq_left hle]
      _ = prompt.take s.tokens.length := List.take_append_drop _ _
  · intro hpre
    refine ⟨hpre.length_le, pageChain_prefix h hpre, ?_⟩
    rw [← List.prefix_iff_eq_take.mp hpre]

/-- **A lookup** finds a longest snapshot that starts the prompt. -/
theorem lookup_finds (hids : Identifies h) (hl : Listed h c.snaps) (prompt : List ℕ) :
    Finds c.snaps (fun s => s.tokens <+: prompt) (c.lookup h prompt) := by
  have hscan := finds_scan (fun s : Snapshot ι =>
    s.tokens.length ≤ prompt.length &&
      s.pages = (pageChain h prompt).take (s.tokens.length / kvPageRows) &&
      s.tokens.drop (s.tokens.length / kvPageRows * kvPageRows) =
        (prompt.take s.tokens.length).drop (s.tokens.length / kvPageRows * kvPageRows)) c.snaps
  refine Finds.congr (fun s hs => ?_) hscan
  rw [← prefix_iff_pages hids (hl.chain s hs)]
  simp [and_assoc]

omit [DecidableEq ι] in
/-- The snapshot of a whole prompt that does not serve it leaves the shorter ones. -/
theorem eligible_iff_of_not (hl : Listed h c.snaps) {sampled : Bool} {i : ℕ} {s : Snapshot ι}
    (hs : c.snaps[i]? = some s) (hwhole : s.tokens = prompt)
    (hnot : s.after.serves sampled = false) {s' : Snapshot ι} (hs' : s' ∈ c.snaps) :
    s'.tokens <+: prompt.take (prompt.length - 1) ↔ Eligible prompt sampled s' := by
  have hpos : 0 < prompt.length := by
    rw [← hwhole]
    exact Nat.lt_of_lt_of_le (show 0 < minTokens by decide) (hl.long s (List.mem_of_getElem? hs))
  have hshort : s'.tokens <+: prompt.take (prompt.length - 1) ↔
      s'.tokens <+: prompt ∧ s'.tokens.length < prompt.length := by
    rw [List.prefix_take_iff]
    exact and_congr_right fun _ => by omega
  rw [hshort]
  constructor
  · rintro ⟨hstarts, hlt⟩
    exact ⟨hstarts, Or.inl hlt⟩
  · rintro ⟨hstarts, hlt | hserves⟩
    · exact ⟨hstarts, hlt⟩
    · refine ⟨hstarts, Nat.lt_of_le_of_ne hstarts.length_le fun hlen => ?_⟩
      -- it would be the snapshot of the whole prompt
      have htokens : s'.tokens = s.tokens := (hstarts.eq_of_length hlen).trans hwhole.symm
      have hsame : s' = s := List.inj_on_of_nodup_map hl.distinct hs' (List.mem_of_getElem? hs) htokens
      rw [hsame, hnot] at hserves
      exact nomatch hserves

/-- **A lookup for a request** finds a longest snapshot it can start from, in every state of a run,
whatever failed before. -/
theorem lookupFor_finds (hids : Identifies h) (sz : HostSizes) (pageData : Slot → ℕ → R)
    (stateData : Slot → σ) (events : List (HostEvent R σ)) (prompt : List ℕ) (sampled : Bool) :
    let c := run (hostStep h) (HostCache.new sz pageData stateData) events
    Finds c.snaps (Eligible prompt sampled) (c.lookupFor h prompt sampled) := by
  intro c
  have hl : Listed h c.snaps := listed_run sz pageData stateData events
  have hfound := lookup_finds hids hl prompt
  rw [lookupFor]
  cases hlook : c.lookup h prompt with
  | none => exact ⟨nofun, fun _ s hs heligible => hfound.missing hlook s hs heligible.starts⟩
  | some best =>
    obtain ⟨i, n⟩ := best
    obtain ⟨s, hs, hn, hstarts, hmax⟩ := hfound.found i n hlook
    dsimp only
    split
    · next hretry =>
      rw [hs] at hretry
      have hwhole : s.tokens = prompt := hstarts.eq_of_length (hn.symm.trans hretry.1)
      have hnot : s.after.serves sampled = false := by simpa using hretry.2
      exact (lookup_finds hids hl _).congr fun s' hs' => eligible_iff_of_not hl hs hwhole hnot hs'
    · next hkeep =>
      rw [hs] at hkeep
      refine ⟨fun i' n' hanswer => ?_, nofun⟩
      obtain ⟨rfl, rfl⟩ := Prod.mk.inj (Option.some.inj hanswer)
      refine ⟨s, hs, hn, ⟨hstarts, ?_⟩, fun s' hs' heligible => hmax s' hs' heligible.starts⟩
      by_cases hlen : n = prompt.length
      · have hserves : s.after.serves sampled = true := by simpa [hlen] using hkeep
        exact Or.inr hserves
      · exact Or.inl (Nat.lt_of_le_of_ne hstarts.length_le (hn ▸ hlen))

theorem lookupFor_finds_twoPages :
    let c := run (hostStep prefixHasher) (HostCache.new smallSizes (fun _ _ => 0) fun _ => ())
      [.capture (exportsFirst 2) twoPages]
    c.lookupFor prefixHasher (twoPages.tokens ++ [7]) true = some (0, 512) ∧
      c.lookupFor prefixHasher twoPages.tokens true = none ∧
      Finds c.snaps (Eligible twoPages.tokens true)
        (c.lookupFor prefixHasher twoPages.tokens true) :=
  ⟨by decide +kernel, by decide +kernel,
    lookupFor_finds identifies_prefixHasher smallSizes _ _ _ twoPages.tokens true⟩

end HostCache

end Coordinator

end Mimo26

import Mathlib.Data.List.Basic
import Mathlib.Data.List.MinMax
import Mathlib.Logic.Function.Basic

/-!
# Hash chains

Positions `0, 1, …` of a growing sequence, some of which carry a key. `head` maps a key to the last
position that carries it and `prev` each position to the one before it with the same key, so the
chain from `head k` runs through the positions of `k`, newest first. `scan` picks from such a list a
position of the largest score, and of several the first.

## Main definitions

* `positions` — the positions of a key, newest first
* `Chained` — `head` and `prev` describe the first `m` positions
* `follow` — the chain from a position
* `scan`, `IsFirstMax` — the search, and what it finds

## Main results

* `Chained.push` — one more position
* `Chained.follow_head` — the chain from the head of a key is the positions of the key
* `scan_isFirstMax` — the search finds the first position of the largest score
-/

namespace Mimo26

namespace HashChain

variable {κ : Type*} [DecidableEq κ]

/-- The positions below `m` that carry `k`, newest first. -/
def positions (key : ℕ → Option κ) (k : κ) : ℕ → List ℕ
  | 0 => []
  | m + 1 => if key m = some k then m :: positions key k m else positions key k m

variable {key : ℕ → Option κ} {k : κ} {m : ℕ}

theorem mem_positions {p : ℕ} : p ∈ positions key k m ↔ p < m ∧ key p = some k := by
  induction m with
  | zero => simp [positions]
  | succ m ih =>
    rw [positions]
    split
    · next hkey =>
      rw [List.mem_cons, ih]
      constructor
      · rintro (rfl | ⟨hlt, hp⟩)
        · exact ⟨Nat.lt_succ_self _, hkey⟩
        · exact ⟨Nat.lt_succ_of_lt hlt, hp⟩
      · rintro ⟨hlt, hp⟩
        exact (Nat.lt_succ_iff_lt_or_eq.mp hlt).symm.imp id fun h => ⟨h, hp⟩
    · next hkey =>
      rw [ih]
      refine ⟨fun h => ⟨Nat.lt_succ_of_lt h.1, h.2⟩, fun h => ⟨?_, h.2⟩⟩
      exact (Nat.lt_succ_iff_lt_or_eq.mp h.1).resolve_right fun heq => hkey (heq ▸ h.2)

theorem positions_pairwise : (positions key k m).Pairwise fun p q => q < p := by
  induction m with
  | zero => exact List.Pairwise.nil
  | succ m ih =>
    rw [positions]
    split
    · exact List.pairwise_cons.mpr ⟨fun p hp => (mem_positions.mp hp).1, ih⟩
    · exact ih

/-- After the newest position come the positions below it. -/
theorem positions_eq_cons {p : ℕ} {ps : List ℕ} (h : positions key k m = p :: ps) :
    p < m ∧ key p = some k ∧ ps = positions key k p := by
  induction m with
  | zero => exact absurd h (by simp [positions])
  | succ m ih =>
    rw [positions] at h
    split at h
    · next hkey =>
      obtain ⟨rfl, rfl⟩ := List.cons.inj h
      exact ⟨Nat.lt_succ_self _, hkey, rfl⟩
    · obtain ⟨hlt, hp, hps⟩ := ih h
      exact ⟨Nat.lt_succ_of_lt hlt, hp, hps⟩

/-- They are the positions the key is at, in falling order. -/
theorem positions_eq_filter :
    positions key k m = ((List.range m).filter fun p => key p = some k).reverse := by
  induction m with
  | zero => rfl
  | succ m ih =>
    rw [positions, List.range_succ, List.filter_append, List.reverse_append, ih]
    by_cases hkey : key m = some k
    · rw [if_pos hkey, List.filter_cons_of_pos (by simpa using hkey)]
      rfl
    · rw [if_neg hkey, List.filter_cons_of_neg (by simpa using hkey)]
      rfl

theorem positions_congr {key' : ℕ → Option κ} (h : ∀ p < m, key p = key' p) :
    positions key k m = positions key' k m := by
  induction m with
  | zero => rfl
  | succ m ih =>
    rw [positions, positions, h m (Nat.lt_succ_self m),
      ih fun p hp => h p (Nat.lt_succ_of_lt hp)]

/-- `head` and `prev` describe the first `m` positions. -/
structure Chained (key : ℕ → Option κ) (m : ℕ) (head : κ → Option ℕ) (prev : List (Option ℕ)) :
    Prop where
  length : prev.length = m
  head : ∀ k, head k = (positions key k m).head?
  prev : ∀ p < m, ∀ k, key p = some k → prev[p]? = some (positions key k p).head?

theorem chained_zero : Chained key 0 (fun _ => none) [] :=
  ⟨rfl, fun _ => rfl, fun _ hp => absurd hp (Nat.not_lt_zero _)⟩

variable {head : κ → Option ℕ} {prev : List (Option ℕ)}

/-- **One more position,** which carries a key. -/
theorem Chained.push (h : Chained key m head prev) (hk : key m = some k) :
    Chained key (m + 1) (Function.update head k (some m)) (prev ++ [head k]) := by
  refine ⟨by rw [List.length_append, h.length]; rfl, fun k' => ?_, fun p hp k' hk' => ?_⟩
  · rw [positions, hk]
    by_cases heq : k' = k
    · subst heq
      rw [Function.update_self, if_pos rfl]
      rfl
    · rw [Function.update_of_ne heq, if_neg fun h' => heq (Option.some.inj h').symm, h.head]
  · rcases Nat.lt_succ_iff_lt_or_eq.mp hp with hlt | rfl
    · rw [List.getElem?_append_left (by rwa [h.length]), h.prev p hlt k' hk']
    · obtain rfl := Option.some.inj (hk.symm.trans hk')
      rw [List.getElem?_append_right (Nat.le_of_eq h.length), h.length, Nat.sub_self, h.head]
      rfl

/-- **One more position,** which carries none. -/
theorem Chained.skip (h : Chained key m head prev) (hk : key m = none) (x : Option ℕ) :
    Chained key (m + 1) head (prev ++ [x]) := by
  refine ⟨by rw [List.length_append, h.length]; rfl, fun k' => ?_, fun p hp k' hk' => ?_⟩
  · rw [positions, hk, if_neg (by simp), h.head]
  · rcases Nat.lt_succ_iff_lt_or_eq.mp hp with hlt | rfl
    · rw [List.getElem?_append_left (by rwa [h.length]), h.prev p hlt k' hk']
    · rw [hk] at hk'
      exact absurd hk' (by simp)

/-- The chain is the same for a sequence that agrees on the positions it describes. -/
theorem Chained.congr {key' : ℕ → Option κ} (h : Chained key m head prev)
    (hkey : ∀ p < m, key p = key' p) : Chained key' m head prev := by
  refine ⟨h.length, fun k => ?_, fun p hp k hk => ?_⟩
  · rw [h.head, positions_congr hkey]
  · rw [h.prev p hp k ((hkey p hp).trans hk),
      positions_congr fun q hq => hkey q (Nat.lt_trans hq hp)]

/-- At most `n` positions of the chain from `p`. -/
def follow (prev : List (Option ℕ)) : ℕ → Option ℕ → List ℕ
  | 0, _ => []
  | _ + 1, none => []
  | n + 1, some p => p :: follow prev n (prev.getD p none)

/-- **The chain of a key** is the positions of the key. -/
theorem Chained.follow_positions (h : Chained key m head prev) (n : ℕ) {m' : ℕ} (hm : m' ≤ m) :
    follow prev n (positions key k m').head? = (positions key k m').take n := by
  induction n generalizing m' with
  | zero => rfl
  | succ n ih =>
    cases hps : positions key k m' with
    | nil => rfl
    | cons p ps =>
      obtain ⟨hlt, hp, rfl⟩ := positions_eq_cons hps
      have hprev := h.prev p (by omega) k hp
      rw [List.head?_cons, follow, List.getD_eq_getElem?_getD, hprev, Option.getD_some,
        ih (by omega), List.take_succ_cons]

theorem Chained.follow_head (h : Chained key m head prev) (n : ℕ) (k : κ) :
    follow prev n (head k) = (positions key k m).take n := by
  rw [h.head, h.follow_positions n (Nat.le_refl m)]

/-! ### The best of a chain -/

variable {score : ℕ → ℕ} {top : ℕ}

/-- The best so far through a list: a strictly larger score replaces it, and the search stops at a
score of `top`. -/
def scan (score : ℕ → ℕ) (top : ℕ) : List ℕ → Option ℕ × ℕ → Option ℕ × ℕ
  | [], best => best
  | p :: ps, best =>
    if best.2 < score p then
      if score p = top then (some p, score p) else scan score top ps (some p, score p)
    else scan score top ps best

/-- `p` is an element of the list of the largest score, and the first of them. -/
def IsFirstMax (score : ℕ → ℕ) (l : List ℕ) (p : ℕ) : Prop :=
  ∃ before after, l = before ++ p :: after ∧ (∀ q ∈ before, score q < score p) ∧
    ∀ q ∈ after, score q ≤ score p

theorem IsFirstMax.unique {l : List ℕ} {p q : ℕ} (hp : IsFirstMax score l p)
    (hq : IsFirstMax score l q) : p = q := by
  obtain ⟨b, a, rfl, hb, ha⟩ := hp
  obtain ⟨b', a', heq, hb', ha'⟩ := hq
  rcases List.append_eq_append_iff.mp heq with ⟨c, rfl, hc⟩ | ⟨c, rfl, hc⟩
  · cases c with
    | nil => exact (List.cons.inj hc).1
    | cons x c =>
      obtain ⟨rfl, rfl⟩ := List.cons.inj hc
      have hlt := hb' p (by simp)
      have hle := ha q (by simp)
      omega
  · cases c with
    | nil => exact (List.cons.inj hc).1.symm
    | cons x c =>
      obtain ⟨rfl, rfl⟩ := List.cons.inj hc
      have hlt := hb q (by simp)
      have hle := ha' p (by simp)
      omega

/-- The score matters only on the list. -/
theorem IsFirstMax.congr {score' : ℕ → ℕ} {l : List ℕ} {p : ℕ} (h : IsFirstMax score l p)
    (hscore : ∀ q ∈ l, score q = score' q) : IsFirstMax score' l p := by
  obtain ⟨before, after, rfl, hbefore, hafter⟩ := h
  have hp : score p = score' p := hscore p (by simp)
  refine ⟨before, after, rfl, fun q hq => ?_, fun q hq => ?_⟩
  · rw [← hp, ← hscore q (List.mem_append_left _ hq)]
    exact hbefore q hq
  · rw [← hp, ← hscore q (by simp [hq])]
    exact hafter q hq

/-- It is the `argmax` of the list. -/
theorem isFirstMax_iff_argmax {l : List ℕ} {p : ℕ} :
    IsFirstMax score l p ↔ l.argmax score = some p := by
  rw [List.argmax_eq_some_iff]
  constructor
  · rintro ⟨before, after, rfl, hbefore, hafter⟩
    have hmem : p ∉ before := fun hp => Nat.lt_irrefl _ (hbefore p hp)
    refine ⟨by simp, fun q hq => ?_, fun q hq hle => ?_⟩
    · rcases List.mem_append.mp hq with hq | hq
      · exact Nat.le_of_lt (hbefore q hq)
      · rcases List.mem_cons.mp hq with rfl | hq
        · exact Nat.le_refl _
        · exact hafter q hq
    · have hq' : q ∉ before := fun hb => Nat.not_lt.mpr hle (hbefore q hb)
      rw [List.idxOf_append_of_notMem hmem, List.idxOf_append_of_notMem hq', List.idxOf_cons_self]
      exact Nat.add_le_add_left (Nat.zero_le _) _
  · rintro ⟨hmem, hmax, hfirst⟩
    obtain ⟨before, after, rfl, hnot⟩ := List.eq_append_cons_of_mem hmem
    refine ⟨before, after, rfl, fun q hq => ?_, fun q hq => hmax q (by simp [hq])⟩
    refine Nat.lt_of_not_le fun hle => ?_
    have hidx := hfirst q (List.mem_append_left _ hq) hle
    rw [List.idxOf_append_of_notMem hnot, List.idxOf_append_of_mem hq, List.idxOf_cons_self] at hidx
    have hlt := List.idxOf_lt_length_of_mem hq
    omega

/-- The search from a best so far that is the first best of what came before. -/
theorem scan_spec (htop : ∀ p, score p ≤ top) {seen ps : List ℕ} {b : ℕ}
    (hb : IsFirstMax score seen b) :
    ∃ p, scan score top ps (some b, score b) = (some p, score p) ∧
      IsFirstMax score (seen ++ ps) p := by
  induction ps generalizing seen b with
  | nil => exact ⟨b, rfl, by rwa [List.append_nil]⟩
  | cons p ps ih =>
    obtain ⟨before, after, rfl, hbefore, hafter⟩ := hb
    rw [scan]
    by_cases hlt : score b < score p
    · have hall : ∀ q ∈ before ++ b :: after, score q < score p := by
        intro q hq
        rcases List.mem_append.mp hq with hq | hq
        · exact Nat.lt_trans (hbefore q hq) hlt
        · rcases List.mem_cons.mp hq with rfl | hq
          · exact hlt
          · exact Nat.lt_of_le_of_lt (hafter q hq) hlt
      rw [if_pos hlt]
      split
      · next heq => exact ⟨p, rfl, _, ps, rfl, hall, fun q _ => heq ▸ htop q⟩
      · obtain ⟨r, hr, hmax⟩ := @ih (before ++ b :: after ++ [p]) p
          ⟨_, [], rfl, hall, by simp⟩
        exact ⟨r, hr, by rwa [List.append_assoc, List.singleton_append] at hmax⟩
    · rw [if_neg hlt]
      obtain ⟨r, hr, hmax⟩ := @ih (before ++ b :: after ++ [p]) b
        ⟨before, after ++ [p], by simp, hbefore, fun q hq => by
          rcases List.mem_append.mp hq with hq | hq
          · exact hafter q hq
          · rw [List.mem_singleton.mp hq]
            omega⟩
      exact ⟨r, hr, by rwa [List.append_assoc, List.singleton_append] at hmax⟩

/-- **The search** over a list of positive scores finds its first best. -/
theorem scan_isFirstMax (htop : ∀ p, score p ≤ top) (hpos : ∀ p, 0 < score p) (p : ℕ)
    (ps : List ℕ) :
    ∃ q, scan score top (p :: ps) (none, 0) = (some q, score q) ∧
      IsFirstMax score (p :: ps) q := by
  rw [scan, if_pos (hpos p)]
  split
  · next heq => exact ⟨p, rfl, [], ps, rfl, by simp, fun q _ => heq ▸ htop q⟩
  · obtain ⟨q, hq, hmax⟩ := @scan_spec _ _ htop [p] ps p
      ⟨[], [], rfl, by simp, by simp⟩
    exact ⟨q, hq, hmax⟩

end HashChain

end Mimo26

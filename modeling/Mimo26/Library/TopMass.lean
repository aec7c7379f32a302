import Mathlib.Algebra.BigOperators.Group.List.Basic
import Mathlib.Algebra.Ring.Nat
import Mathlib.Data.List.TakeWhile
import Mathlib.Order.Lattice

/-!
# Cuts by weight from the top

Entries have a key and a weight. The mass of a key is the weight of the entries with that key or a
larger one, and a cut is the largest key whose mass reaches a target. Scanning the entries from the
largest key down, a class of equal keys at a time, finds it.

## Main definitions

* `mass` — the weight from a key up
* `IsCut` — the largest key whose mass reaches the target, or the smallest key when none does
* `scan` — the scan

## Main results

* `isCut_scan` — the scan of the entries from the top finds the cut
* `IsCut.count` — with unit weights, a cut keeps the target, and without its lowest class fewer
-/

namespace Mimo26

namespace TopMass

variable {κ : Type*} [LinearOrder κ] {kw kw' above rest : List (κ × ℕ)} {target : ℕ} {k t : κ}

/-- The weight of the entries whose key is `t` or larger. -/
def mass (kw : List (κ × ℕ)) (t : κ) : ℕ := ((kw.filter fun e => t ≤ e.1).map Prod.snd).sum

/-- `k` is the largest key whose mass reaches the target, or the smallest when none does. -/
structure IsCut (kw : List (κ × ℕ)) (target : ℕ) (k : κ) : Prop where
  mem : k ∈ kw.map Prod.fst
  reaches : target ≤ mass kw k ∨ ∀ e ∈ kw, mass kw e.1 < target ∧ k ≤ e.1
  largest : ∀ e ∈ kw, target ≤ mass kw e.1 → e.1 ≤ k

/-- From the top down, a class of equal keys at a time; `cum` is the weight so far. -/
def scan (target : ℕ) : ℕ → List (κ × ℕ) → Option κ
  | _, [] => none
  | cum, e :: rest =>
    let cum := cum + (((e :: rest).takeWhile fun e' => e'.1 = e.1).map Prod.snd).sum
    if target ≤ cum then some e.1
    else scan target cum (rest.dropWhile fun e' => e'.1 = e.1)
termination_by _ rest => rest.length
decreasing_by
  exact Nat.lt_succ_of_le (List.dropWhile_sublist _).length_le

theorem mass_append (kw kw' : List (κ × ℕ)) (t : κ) :
    mass (kw ++ kw') t = mass kw t + mass kw' t := by
  rw [mass, List.filter_append, List.map_append, List.sum_append]
  rfl

theorem mass_perm (h : kw.Perm kw') (t : κ) : mass kw t = mass kw' t :=
  ((h.filter _).map _).sum_eq

theorem mass_eq_sum (h : ∀ e ∈ kw, t ≤ e.1) : mass kw t = (kw.map Prod.snd).sum := by
  rw [mass, List.filter_eq_self.mpr fun e he => decide_eq_true (h e he)]

theorem mass_eq_zero (h : ∀ e ∈ kw, e.1 < t) : mass kw t = 0 := by
  rw [mass, List.filter_eq_nil_iff.mpr fun e he => by simpa using h e he]
  rfl

theorem IsCut.perm (h : IsCut kw target k) (hperm : kw.Perm kw') : IsCut kw' target k where
  mem := (hperm.map Prod.fst).mem_iff.mp h.mem
  reaches := by
    refine h.reaches.imp (fun hk => mass_perm hperm k ▸ hk) fun hall e he => ?_
    rw [← mass_perm hperm]
    exact hall e (hperm.mem_iff.mpr he)
  largest := by
    intro e he hreach
    rw [← mass_perm hperm] at hreach
    exact h.largest e (hperm.mem_iff.mpr he) hreach

/-- In a list from the top down, the first class is the entries with the first key. -/
theorem class_eq {e : κ × ℕ} (hsorted : (e :: rest).Pairwise fun e e' => e'.1 ≤ e.1) :
    ∀ e' ∈ rest.dropWhile fun e' => e'.1 = e.1, e'.1 < e.1 := by
  obtain ⟨hhead, hrest⟩ := List.pairwise_cons.mp hsorted
  induction rest with
  | nil => exact List.forall_mem_nil _
  | cons a rest ih =>
    obtain ⟨ha, hrest'⟩ := List.pairwise_cons.mp hrest
    rw [List.dropWhile_cons]
    split
    · exact ih (List.pairwise_cons.mpr ⟨fun b hb => hhead b (List.mem_cons_of_mem a hb), hrest'⟩)
        (fun b hb => hhead b (List.mem_cons_of_mem a hb)) hrest'
    · next hne =>
      have hlt : a.1 < e.1 := lt_of_le_of_ne (hhead a List.mem_cons_self) (by simpa using hne)
      exact List.forall_mem_cons.mpr ⟨hlt, fun b hb => lt_of_le_of_lt (ha b hb) hlt⟩

/-- What the scan finds in the entries below those whose mass does not reach the target. -/
theorem scan_spec (hsorted : rest.Pairwise fun e e' => e'.1 ≤ e.1)
    (hgap : ∀ e ∈ above, ∀ e' ∈ rest, e'.1 < e.1)
    (habove : ∀ e ∈ above, mass (above ++ rest) e.1 < target) :
    (∃ k, scan target (above.map Prod.snd).sum rest = some k ∧ IsCut (above ++ rest) target k) ∨
      scan target (above.map Prod.snd).sum rest = none ∧
        ∀ e ∈ above ++ rest, mass (above ++ rest) e.1 < target := by
  obtain ⟨n, hn⟩ : ∃ n, rest.length = n := ⟨_, rfl⟩
  induction n using Nat.strong_induction_on generalizing above rest with
  | h n ih =>
    cases rest with
    | nil =>
      rw [List.append_nil] at habove ⊢
      exact .inr ⟨by rw [scan], habove⟩
    | cons e rest =>
      generalize hclass : (e :: rest).takeWhile (fun e' => e'.1 = e.1) = cls
      generalize hbelow : rest.dropWhile (fun e' => e'.1 = e.1) = below
      have hsplit : e :: rest = cls ++ below := by
        rw [← hclass, ← hbelow, List.takeWhile_cons_of_pos (by simp), List.cons_append,
          List.takeWhile_append_dropWhile]
      have hkey : ∀ e' ∈ cls, e'.1 = e.1 := by
        intro e' he'
        rw [← hclass] at he'
        simpa using List.mem_takeWhile_imp he'
      have hlt : ∀ e' ∈ below, e'.1 < e.1 := by
        rw [← hbelow]
        exact class_eq hsorted
      have hup : ∀ e' ∈ above ++ cls, e.1 ≤ e'.1 := by
        refine List.forall_mem_append.mpr ⟨fun e' he' => ?_, fun e' he' => (hkey e' he').ge⟩
        exact le_of_lt (hgap e' he' e List.mem_cons_self)
      have hmass : mass (above ++ (e :: rest)) e.1 = ((above ++ cls).map Prod.snd).sum := by
        rw [hsplit, ← List.append_assoc, mass_append, mass_eq_sum hup, mass_eq_zero hlt,
          Nat.add_zero]
      have hcum : (above.map Prod.snd).sum + (cls.map Prod.snd).sum =
          ((above ++ cls).map Prod.snd).sum := by
        rw [List.map_append, List.sum_append]
      rw [scan, hclass, hbelow, hcum, ← hmass]
      split
      · next hreach =>
        refine .inl ⟨e.1, rfl, ?_, .inl hreach, fun e' he' hreach' => ?_⟩
        · exact List.mem_map_of_mem (List.mem_append_right above List.mem_cons_self)
        · rcases List.mem_append.mp he' with he' | he'
          · exact absurd (habove e' he') (not_lt.mpr hreach')
          · rw [hsplit] at he'
            rcases List.mem_append.mp he' with he' | he'
            · exact (hkey e' he').le
            · exact le_of_lt (hlt e' he')
      · next hnot =>
        have hsmaller : below.length < n := by
          rw [← hn, ← hbelow]
          exact Nat.lt_succ_of_le (List.dropWhile_sublist _).length_le
        have hsub : below.Pairwise fun e e' => e'.1 ≤ e.1 := by
          rw [hsplit] at hsorted
          exact (List.pairwise_append.mp hsorted).2.1
        rw [hsplit, ← List.append_assoc] at habove hnot ⊢
        rw [hsplit, ← List.append_assoc] at hmass
        have hnext := @ih below.length hsmaller (above ++ cls) below hsub
          (fun e' he' e'' he'' => lt_of_lt_of_le (hlt e'' he'') (hup e' he')) (by
            refine List.forall_mem_append.mpr ⟨habove, fun e' he' => ?_⟩
            rw [hkey e' he']
            exact Nat.not_le.mp hnot) rfl
        rwa [← hmass] at hnext

theorem exists_least {keys : List κ} (h : keys ≠ []) : ∃ m ∈ keys, ∀ b ∈ keys, m ≤ b := by
  induction keys with
  | nil => exact absurd rfl h
  | cons a keys ih =>
    cases keys with
    | nil => exact ⟨a, List.mem_cons_self, List.forall_mem_singleton.mpr (le_refl a)⟩
    | cons b keys =>
      obtain ⟨m, hm, hmin⟩ := ih (List.cons_ne_nil b keys)
      rcases le_total a m with ham | hma
      · exact ⟨a, List.mem_cons_self, List.forall_mem_cons.mpr
          ⟨le_refl a, fun c hc => le_trans ham (hmin c hc)⟩⟩
      · exact ⟨m, List.mem_cons_of_mem a hm, List.forall_mem_cons.mpr ⟨hma, hmin⟩⟩

/-- With unit weights the mass counts. -/
theorem mass_unit (keys : List κ) (t : κ) :
    mass (keys.map fun k => (k, 1)) t = (keys.filter fun k => t ≤ k).length := by
  induction keys with
  | nil => rfl
  | cons k keys ih =>
    have hone : mass [(k, 1)] t = if t ≤ k then 1 else 0 := by
      by_cases h : t ≤ k
      · rw [mass_eq_sum (by simpa using h), if_pos h]
        rfl
      · rw [mass_eq_zero (by simpa using h), if_neg h]
    have hsplit : (k :: keys).map (fun k => (k, 1)) = [(k, 1)] ++ keys.map fun k => (k, 1) := rfl
    rw [hsplit, mass_append, hone, ih, List.filter_cons]
    by_cases h : t ≤ k
    · rw [if_pos h, if_pos (decide_eq_true h), List.length_cons, Nat.add_comm]
    · rw [if_neg h, if_neg (by simpa using h), Nat.zero_add]

/-- With unit weights and enough entries a cut keeps as many as the target, and fewer without its
lowest class. -/
theorem IsCut.count {keys : List κ} (h : IsCut (keys.map fun k => (k, 1)) target k)
    (henough : target ≤ keys.length) (hpos : 0 < target) :
    target ≤ (keys.filter fun k' => k ≤ k').length ∧
      (keys.filter fun k' => k < k').length < target := by
  have hreach : target ≤ mass (keys.map fun k => (k, 1)) k := by
    refine h.reaches.resolve_right fun hall => ?_
    obtain ⟨e, he, hek⟩ := List.mem_map.mp h.mem
    have hsmall : ∀ e' ∈ keys.map fun k => (k, 1), k ≤ e'.1 := fun e' he' => (hall e' he').2
    have hlt := (hall e he).1
    rw [hek, mass_eq_sum hsmall, List.map_map] at hlt
    have hsum : (keys.map (Prod.snd ∘ fun k => (k, 1))).sum = keys.length := by
      show (keys.map fun _ => 1).sum = keys.length
      rw [List.map_const', List.sum_replicate_nat, Nat.mul_one]
    omega
  refine ⟨by rwa [mass_unit] at hreach, ?_⟩
  cases hup : keys.filter fun k' => k < k' with
  | nil => exact hpos
  | cons a as =>
    -- the smallest key above the cut does not reach the target
    obtain ⟨m, hm, hmin⟩ := exists_least (List.cons_ne_nil a as)
    rw [← hup] at hm hmin ⊢
    obtain ⟨hmem, hkm⟩ := List.mem_filter.mp hm
    have hkm : k < m := of_decide_eq_true hkm
    have hnot : ¬ target ≤ (keys.filter fun k' => m ≤ k').length := by
      intro hreach'
      rw [← mass_unit] at hreach'
      exact absurd (h.largest (m, 1) (List.mem_map_of_mem hmem) hreach') (not_le.mpr hkm)
    have hle : (keys.filter fun k' => k < k').length ≤ (keys.filter fun k' => m ≤ k').length := by
      rw [← List.countP_eq_length_filter, ← List.countP_eq_length_filter]
      refine List.countP_mono_left fun b hb hlt => decide_eq_true ?_
      exact hmin b (List.mem_filter.mpr ⟨hb, hlt⟩)
    exact lt_of_le_of_lt hle (Nat.not_le.mp hnot)

end TopMass

end Mimo26

import Mathlib.Data.List.Perm.Basic
import Mathlib.Data.List.Nodup

/-!
# Reference-counted slots

A pool of slots in which entries are shared: each id has one slot and a count of the references to
it, and the slot is free again when the last reference goes. `Balanced all p held used` says that
the counts are those of the references `held`, and that the free slots, the entries' slots and the
slots `used` without an entry are together the slots `all`.

## Main definitions

* `Pool`, `share`, `insert`, `drop`, `dropAll` — the pool
* `Balanced` — its accounts

## Main results

* `Balanced.share`, `Balanced.insert`, `Balanced.drop`, `Balanced.dropAll`, `Balanced.pop`,
  `Balanced.push` — how the operations change the accounts
-/

namespace Mimo26

namespace RefPool

variable {ι σ : Type*}

/-- A slot and the references to it. -/
structure Entry (σ : Type*) where
  slot : σ
  refs : ℕ

structure Pool (ι σ : Type*) where
  /-- The slots with no entry, the next one to be taken first. -/
  free : List σ
  table : List (ι × Entry σ) := []

namespace Pool

/-- The slots of the entries. -/
def slots (p : Pool ι σ) : List σ := p.table.map (·.2.slot)

variable [DecidableEq ι]

def find (p : Pool ι σ) (id : ι) : Option (Entry σ) := (p.table.find? (·.1 = id)).map (·.2)

/-- The references to an id. -/
def refs (p : Pool ι σ) (id : ι) : ℕ := ((p.find id).map (·.refs)).getD 0

def setRefs (p : Pool ι σ) (id : ι) (refs : ℕ) : Pool ι σ :=
  { p with table := p.table.map fun e => if e.1 = id then (e.1, { e.2 with refs := refs }) else e }

/-- One more reference. -/
def share (p : Pool ι σ) (id : ι) : Pool ι σ := p.setRefs id (p.refs id + 1)

/-- A new entry, with one reference. -/
def insert (p : Pool ι σ) (id : ι) (slot : σ) : Pool ι σ :=
  { p with table := (id, { slot := slot, refs := 1 }) :: p.table.filter (·.1 ≠ id) }

/-- One reference less; the last one frees the slot. -/
def drop (p : Pool ι σ) (id : ι) : Pool ι σ :=
  match p.find id with
  | none => p
  | some e =>
    if e.refs - 1 = 0 then
      { free := e.slot :: p.free, table := p.table.filter (·.1 ≠ id) }
    else p.setRefs id (e.refs - 1)

def dropAll (p : Pool ι σ) (ids : List ι) : Pool ι σ := ids.foldl drop p

/-! ### Lookups -/

theorem find_filter (p : Pool ι σ) (free : List σ) (id i : ι) :
    find { free := free, table := p.table.filter (·.1 ≠ id) } i =
      if i = id then none else p.find i := by
  rw [find, find]
  induction p.table with
  | nil => split <;> rfl
  | cons e t ih =>
    rw [List.filter_cons]
    by_cases he : e.1 = id
    · rw [if_neg (by simp [he])]
      rw [ih]
      split
      · rfl
      · next hi => rw [List.find?_cons_of_neg (by simpa [he] using Ne.symm hi)]
    · rw [if_pos (by simp [he]), List.find?_cons, List.find?_cons]
      by_cases hei : e.1 = i
      · have hne : ¬ i = id := fun h => he (hei.trans h)
        simp [hei, hne]
      · simp only [hei, decide_false]
        exact ih

theorem find_insert (p : Pool ι σ) (id i : ι) (slot : σ) :
    (p.insert id slot).find i = if i = id then some { slot := slot, refs := 1 } else p.find i := by
  rw [find, insert]
  dsimp only
  rw [List.find?_cons]
  by_cases hi : id = i
  · simp [hi]
  · have hrest := find_filter p p.free id i
    rw [find] at hrest
    simp only [hi, decide_false]
    rw [hrest, if_neg (Ne.symm hi), if_neg (Ne.symm hi)]

theorem find_setRefs (p : Pool ι σ) (id i : ι) (refs : ℕ) :
    (p.setRefs id refs).find i =
      if i = id then (p.find i).map fun e => { e with refs := refs } else p.find i := by
  rw [find, find, setRefs]
  dsimp only
  induction p.table with
  | nil => split <;> rfl
  | cons e t ih =>
    rw [List.map_cons, List.find?_cons, List.find?_cons]
    by_cases he : e.1 = id
    · by_cases hei : e.1 = i
      · have hid : i = id := hei.symm.trans he
        simp [he, hid]
      · have hid : ¬ id = i := fun h => hei (he.trans h)
        simp only [he, if_true, hid, decide_false]
        exact ih
    · by_cases hei : e.1 = i
      · have hid : ¬ i = id := fun h => he (hei.trans h)
        simp [hei, hid]
      · simp only [he, if_false, hei, decide_false]
        exact ih

theorem mem_of_find {p : Pool ι σ} {id : ι} {e : Entry σ} (h : p.find id = some e) :
    (id, e) ∈ p.table := by
  rw [find, Option.map_eq_some_iff] at h
  obtain ⟨x, hx, rfl⟩ := h
  obtain rfl : x.1 = id := by simpa using List.find?_some hx
  exact List.mem_of_find?_eq_some hx

theorem find_of_mem {p : Pool ι σ} (hkeys : (p.table.map Prod.fst).Nodup) {id : ι} {e : Entry σ}
    (h : (id, e) ∈ p.table) : p.find id = some e := by
  cases hfind : p.find id with
  | none =>
    rw [find, Option.map_eq_none_iff, List.find?_eq_none] at hfind
    exact absurd (hfind _ h) (by simp)
  | some e' =>
    have heq := List.inj_on_of_nodup_map hkeys (mem_of_find hfind) h rfl
    rw [(Prod.mk.inj heq).2]

theorem find_of_refs_pos {p : Pool ι σ} {id : ι} (h : 0 < p.refs id) :
    ∃ e, p.find id = some e ∧ e.refs = p.refs id := by
  rw [refs] at h ⊢
  cases hfind : p.find id with
  | none => exact absurd h (by simp [hfind])
  | some e => exact ⟨e, rfl, rfl⟩

/-- The entry of an id, apart from the others. -/
theorem perm_filter {p : Pool ι σ} (hkeys : (p.table.map Prod.fst).Nodup) {id : ι} {e : Entry σ}
    (h : p.find id = some e) : p.table.Perm ((id, e) :: p.table.filter (·.1 ≠ id)) := by
  have hmem := mem_of_find h
  clear h
  obtain ⟨free, t⟩ := p
  induction t with
  | nil => exact absurd hmem List.not_mem_nil
  | cons x t ih =>
    obtain ⟨hx, ht⟩ := List.nodup_cons.mp hkeys
    rw [List.filter_cons]
    rcases List.mem_cons.mp hmem with rfl | hmem
    · have hall : t.filter (·.1 ≠ id) = t := by
        rw [List.filter_eq_self]
        intro y hy
        refine decide_eq_true fun heq => hx ?_
        show id ∈ t.map Prod.fst
        rw [← heq]
        exact List.mem_map_of_mem hy
      rw [if_neg (by simp), hall]
    · have hne : x.1 ≠ id := fun heq => hx (by
        rw [heq]
        exact List.mem_map_of_mem hmem)
      rw [if_pos (by simpa using hne)]
      exact ((ih ht hmem).cons x).trans (List.Perm.swap _ _ _)

theorem slots_setRefs (p : Pool ι σ) (id : ι) (refs : ℕ) : (p.setRefs id refs).slots = p.slots := by
  rw [slots, slots, setRefs, List.map_map]
  refine List.map_congr_left fun e _ => ?_
  rw [Function.comp_apply]
  split
  · rfl
  · rfl

theorem keys_setRefs (p : Pool ι σ) (id : ι) (refs : ℕ) :
    (p.setRefs id refs).table.map Prod.fst = p.table.map Prod.fst := by
  rw [setRefs, List.map_map]
  refine List.map_congr_left fun e _ => ?_
  rw [Function.comp_apply]
  split
  · rfl
  · rfl

theorem mem_setRefs {p : Pool ι σ} {id : ι} {refs : ℕ} {e : ι × Entry σ}
    (h : e ∈ (p.setRefs id refs).table) : e ∈ p.table ∨ e.2.refs = refs := by
  rw [setRefs] at h
  obtain ⟨x, hx, rfl⟩ := List.mem_map.mp h
  split
  · exact Or.inr rfl
  · exact Or.inl hx

theorem refs_setRefs {p : Pool ι σ} {id : ι} {e : Entry σ} (h : p.find id = some e) (n : ℕ)
    (i : ι) : (p.setRefs id n).refs i = if i = id then n else p.refs i := by
  rw [refs, find_setRefs]
  split
  · next hi =>
    rw [hi, h]
    rfl
  · rfl

/-- An entry keeps its slot while others go. -/
theorem find_drop {p : Pool ι σ} {id i : ι} {e : Entry σ} (h : (p.drop id).find i = some e) :
    ∃ e', p.find i = some e' ∧ e'.slot = e.slot := by
  rw [drop] at h
  split at h
  · exact ⟨e, h, rfl⟩
  · split at h
    · rw [find_filter] at h
      split at h
      · exact absurd h (by simp)
      · exact ⟨e, h, rfl⟩
    · rw [find_setRefs] at h
      split at h
      · obtain ⟨e', he', rfl⟩ := Option.map_eq_some_iff.mp h
        exact ⟨e', he', rfl⟩
      · exact ⟨e, h, rfl⟩

theorem find_dropAll {p : Pool ι σ} {ids : List ι} {i : ι} {e : Entry σ}
    (h : (p.dropAll ids).find i = some e) : ∃ e', p.find i = some e' ∧ e'.slot = e.slot := by
  induction ids generalizing p with
  | nil => exact ⟨e, h, rfl⟩
  | cons id ids ih =>
    obtain ⟨e₁, h₁, hslot₁⟩ := ih h
    obtain ⟨e₂, h₂, hslot₂⟩ := find_drop h₁
    exact ⟨e₂, h₂, hslot₂.trans hslot₁⟩

end Pool

/-! ### The accounts -/

/-- References of several holders, each with at most one to an id. -/
theorem count_flatMap_of_nodup {α : Type*} [DecidableEq ι] {f : α → List ι} {l : List α}
    (h : ∀ a ∈ l, (f a).Nodup) {id : ι} : (l.flatMap f).count id = l.countP (id ∈ f ·) := by
  induction l with
  | nil => rfl
  | cons a l ih =>
    rw [List.flatMap_cons, List.count_append, List.countP_cons,
      ih fun b hb => h b (List.mem_cons_of_mem a hb), (h a List.mem_cons_self).count]
    simp only [decide_eq_true_eq]
    exact Nat.add_comm _ _

variable [DecidableEq ι] [DecidableEq σ]

open Pool

structure Balanced (all : List σ) (p : Pool ι σ) (held : List ι) (used : List σ) : Prop where
  keys : (p.table.map Prod.fst).Nodup
  pos : ∀ e ∈ p.table, 0 < e.2.refs
  refs : ∀ id, p.refs id = held.count id
  slots : ∀ x, p.free.count x + p.slots.count x + used.count x = all.count x

variable {all : List σ} {p : Pool ι σ} {held : List ι} {used : List σ}

theorem Balanced.perm (h : Balanced all p held used) {held' : List ι} {used' : List σ}
    (hheld : held.Perm held') (hused : used.Perm used') : Balanced all p held' used' where
  keys := h.keys
  pos := h.pos
  refs id := (h.refs id).trans (hheld.count_eq id)
  slots x := by rw [← hused.count_eq x]; exact h.slots x

/-- An id that is held has an entry. -/
theorem Balanced.find_of_mem (h : Balanced all p held used) {id : ι} (hid : id ∈ held) :
    ∃ e, p.find id = some e ∧ e.refs = held.count id := by
  have hpos : 0 < p.refs id := by
    rw [h.refs]
    exact List.count_pos_iff.mpr hid
  obtain ⟨e, he, hrefs⟩ := find_of_refs_pos hpos
  exact ⟨e, he, hrefs.trans (h.refs id)⟩

theorem Balanced.share (h : Balanced all p held used) {id : ι} {e : Entry σ}
    (he : p.find id = some e) : Balanced all (p.share id) (id :: held) used where
  keys := by rw [Pool.share, keys_setRefs]; exact h.keys
  pos x hx := by
    rcases mem_setRefs hx with hx | hx
    · exact h.pos x hx
    · omega
  refs i := by
    rw [Pool.share, refs_setRefs he, List.count_cons]
    by_cases hi : i = id
    · rw [if_pos hi, if_pos (by simp [hi]), hi, h.refs]
    · rw [if_neg hi, if_neg (by simpa using Ne.symm hi), h.refs, Nat.add_zero]
  slots x := by
    rw [Pool.share, slots_setRefs]
    exact h.slots x

theorem Balanced.insert {id : ι} {slot : σ} (h : Balanced all p held (slot :: used))
    (hid : p.find id = none) : Balanced all (p.insert id slot) (id :: held) used := by
  have hall : p.table.filter (·.1 ≠ id) = p.table := by
    rw [List.filter_eq_self]
    intro x hx
    rw [find, Option.map_eq_none_iff, List.find?_eq_none] at hid
    exact decide_eq_true (by simpa using hid x hx)
  have hzero : held.count id = 0 := by
    rw [← h.refs, Pool.refs, hid]
    rfl
  refine ⟨?_, fun x hx => ?_, fun i => ?_, fun x => ?_⟩
  · show (id :: (p.table.filter (·.1 ≠ id)).map Prod.fst).Nodup
    rw [hall]
    refine List.nodup_cons.mpr ⟨fun hmem => ?_, h.keys⟩
    obtain ⟨x, hx, hxid⟩ := List.mem_map.mp hmem
    rw [find, Option.map_eq_none_iff, List.find?_eq_none] at hid
    exact absurd hxid (by simpa using hid x hx)
  · rcases List.mem_cons.mp hx with rfl | hx
    · exact Nat.zero_lt_one
    · exact h.pos x (List.mem_of_mem_filter hx)
  · rw [Pool.refs, find_insert, List.count_cons]
    by_cases hi : i = id
    · rw [if_pos hi, if_pos (by simp [hi]), hi, hzero]
      rfl
    · rw [if_neg hi, if_neg (by simpa using Ne.symm hi), Nat.add_zero]
      exact h.refs i
  · have hslots := h.slots x
    show p.free.count x + (slot :: (p.table.filter (·.1 ≠ id)).map (·.2.slot)).count x + _ = _
    rw [hall, List.count_cons, ← hslots, List.count_cons]
    show _ + (p.slots.count x + _) + _ = _
    omega

theorem Balanced.drop {id : ι} (h : Balanced all p (id :: held) used) :
    Balanced all (p.drop id) held used := by
  obtain ⟨e, he, hrefs⟩ := h.find_of_mem List.mem_cons_self
  rw [List.count_cons_self] at hrefs
  rw [Pool.drop, he]
  dsimp only
  have hothers (i : ι) (hi : i ≠ id) : p.refs i = held.count i := by
    rw [h.refs, List.count_cons_of_ne (Ne.symm hi)]
  split
  · next hlast =>
    have hperm := perm_filter h.keys he
    refine ⟨?_, fun x hx => h.pos x (List.mem_of_mem_filter hx), fun i => ?_, fun x => ?_⟩
    · exact (h.keys.sublist (List.filter_sublist.map _))
    · rw [Pool.refs, find_filter]
      by_cases hi : i = id
      · rw [if_pos hi, hi]
        show 0 = held.count id
        omega
      · rw [if_neg hi]
        exact hothers i hi
    · have hslots := h.slots x
      have hcount := (hperm.map (·.2.slot)).count_eq x
      rw [List.map_cons, List.count_cons] at hcount
      dsimp only at hcount
      show (e.slot :: p.free).count x + ((p.table.filter (·.1 ≠ id)).map (·.2.slot)).count x + _ = _
      rw [List.count_cons]
      rw [Pool.slots] at hslots
      omega
  · next hmore =>
    refine ⟨by rw [keys_setRefs]; exact h.keys, fun x hx => ?_, fun i => ?_, fun x => ?_⟩
    · rcases mem_setRefs hx with hx | hx
      · exact h.pos x hx
      · omega
    · rw [refs_setRefs he]
      split
      · next hi =>
        rw [hi]
        omega
      · next hi => exact hothers i hi
    · rw [slots_setRefs]
      exact h.slots x

theorem Balanced.dropAll {ids : List ι} (h : Balanced all p (ids ++ held) used) :
    Balanced all (p.dropAll ids) held used := by
  induction ids generalizing p with
  | nil => exact h
  | cons id ids ih => exact ih h.drop

theorem Balanced.pop {x : σ} {rest : List σ} (h : Balanced all p held used)
    (hfree : p.free = x :: rest) : Balanced all { p with free := rest } held (x :: used) where
  keys := h.keys
  pos := h.pos
  refs := h.refs
  slots y := by
    have hslots := h.slots y
    rw [hfree, List.count_cons] at hslots
    show rest.count y + p.slots.count y + _ = _
    rw [List.count_cons]
    omega

theorem Balanced.push {x : σ} (h : Balanced all p held (x :: used)) :
    Balanced all { p with free := x :: p.free } held used where
  keys := h.keys
  pos := h.pos
  refs := h.refs
  slots y := by
    have hslots := h.slots y
    rw [List.count_cons] at hslots
    show (x :: p.free).count y + p.slots.count y + _ = _
    rw [List.count_cons]
    omega

/-- The free slots, the entries' slots and the slots `used` are the slots. -/
theorem Balanced.perm_all (h : Balanced all p held used) :
    (p.free ++ p.slots ++ used).Perm all := by
  refine List.perm_iff_count.mpr fun x => ?_
  rw [List.count_append, List.count_append]
  exact h.slots x

/-- A slot of an entry is not used without one. -/
theorem Balanced.apart (h : Balanced all p held used) (hall : all.Nodup) {x : σ} (hx : x ∈ used) :
    x ∉ p.slots := by
  have hnodup := h.perm_all.nodup_iff.mpr hall
  rw [List.nodup_append] at hnodup
  intro hmem
  exact hnodup.2.2 x (List.mem_append_right _ hmem) x hx rfl

end RefPool

end Mimo26

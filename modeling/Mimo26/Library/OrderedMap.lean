import Mathlib.Data.Finmap
import Mathlib.Data.Finset.Sort

/-!
# Maps with ordered keys

A finite map from the entries it was given, and its entries by key.

## Main definitions

* `ofList` — the map of entries, of which a later one replaces an earlier one
* `inOrder` — the entries by key

## Main results

* `lookup_ofList` — what is found of entries that do not repeat a key
* `ofList_inOrder` — a map is that of its entries
-/

namespace Mimo26

namespace OrderedMap

variable {α ν : Type} [LinearOrder α]

/-- A later entry replaces an earlier one of its key. -/
def ofList (l : List (α × ν)) : Finmap fun _ : α => ν := l.foldl (fun m x => m.insert x.1 x.2) ∅

/-- The entries by key. -/
def inOrder (m : Finmap fun _ : α => ν) : List (α × ν) :=
  m.keys.sort.filterMap fun k => (m.lookup k).map (Prod.mk k)

variable {m : Finmap fun _ : α => ν} {l : List (α × ν)} {k : α} {v : ν}

theorem mem_inOrder : (k, v) ∈ inOrder m ↔ m.lookup k = some v := by
  simp only [inOrder, List.mem_filterMap, Finset.mem_sort, Finmap.mem_keys, Option.map_eq_some_iff,
    Prod.mk.injEq]
  constructor
  · rintro ⟨k', -, v', hv', rfl, rfl⟩
    exact hv'
  · exact fun h => ⟨k, Finmap.mem_of_lookup_eq_some h, v, h, rfl, rfl⟩

theorem keys_inOrder (m : Finmap fun _ : α => ν) : (inOrder m).map Prod.fst = m.keys.sort := by
  have hall : ∀ k ∈ m.keys.sort, k ∈ m := fun k hk =>
    Finmap.mem_keys.mp ((Finset.mem_sort _).mp hk)
  rw [inOrder]
  generalize m.keys.sort = ks at hall ⊢
  induction ks with
  | nil => rfl
  | cons k ks ih =>
    obtain ⟨v, hv⟩ := Finmap.mem_iff.mp (hall k List.mem_cons_self)
    have hrest := ih fun k' hk' => hall k' (List.mem_cons_of_mem k hk')
    simp [hv, hrest]

theorem nodup_inOrder (m : Finmap fun _ : α => ν) : ((inOrder m).map Prod.fst).Nodup := by
  rw [keys_inOrder]
  exact Finset.sort_nodup _ _

/-- Entries that leave a key alone keep what the map has of it. -/
theorem lookup_foldl_of_notMem (hk : k ∉ l.map Prod.fst) :
    (l.foldl (fun m x => m.insert x.1 x.2) m).lookup k = m.lookup k := by
  induction l generalizing m with
  | nil => rfl
  | cons x l ih =>
    rw [List.map_cons, List.mem_cons, not_or] at hk
    rw [List.foldl_cons, ih hk.2, Finmap.lookup_insert_of_ne _ hk.1]

theorem lookup_foldl_of_mem (hl : (l.map Prod.fst).Nodup) (hkv : (k, v) ∈ l) :
    (l.foldl (fun m x => m.insert x.1 x.2) m).lookup k = some v := by
  induction l generalizing m with
  | nil => exact absurd hkv List.not_mem_nil
  | cons x l ih =>
    rw [List.map_cons, List.nodup_cons] at hl
    rcases List.mem_cons.mp hkv with rfl | hmem
    · rw [List.foldl_cons, lookup_foldl_of_notMem hl.1, Finmap.lookup_insert]
    · exact ih hl.2 hmem

/-- **What is found** of entries that do not repeat a key. -/
theorem lookup_ofList (hl : (l.map Prod.fst).Nodup) : (ofList l).lookup k = some v ↔ (k, v) ∈ l := by
  constructor
  · intro h
    by_contra hkv
    by_cases hk : k ∈ l.map Prod.fst
    · obtain ⟨⟨k', v'⟩, hmem, rfl⟩ := List.mem_map.mp hk
      rw [ofList, lookup_foldl_of_mem hl hmem, Option.some.injEq] at h
      exact hkv (h ▸ hmem)
    · rw [ofList, lookup_foldl_of_notMem hk, Finmap.lookup_empty] at h
      exact absurd h nofun
  · exact lookup_foldl_of_mem hl

/-- The order of entries that do not repeat a key is of no account. -/
theorem ofList_perm {l' : List (α × ν)} (hperm : l.Perm l') (hl : (l.map Prod.fst).Nodup) :
    ofList l = ofList l' := by
  have hl' := (hperm.map Prod.fst).nodup_iff.mp hl
  refine Finmap.ext_lookup fun k => Option.ext fun v => ?_
  rw [lookup_ofList hl, lookup_ofList hl', hperm.mem_iff]

/-- **A map is that of its entries.** -/
theorem ofList_inOrder (m : Finmap fun _ : α => ν) : ofList (inOrder m) = m := by
  refine Finmap.ext_lookup fun k => Option.ext fun v => ?_
  rw [lookup_ofList (nodup_inOrder m), mem_inOrder]

/-- Something found is one of the entries. -/
theorem mem_of_lookup_ofList (h : (ofList l).lookup k = some v) : (k, v) ∈ l := by
  induction l using List.reverseRecOn with
  | nil => exact absurd h (by rw [ofList, List.foldl_nil, Finmap.lookup_empty]; exact nofun)
  | append_singleton l x ih =>
    rw [ofList, List.foldl_append, List.foldl_cons, List.foldl_nil] at h
    by_cases hx : k = x.1
    · obtain rfl := hx
      rw [Finmap.lookup_insert, Option.some.injEq] at h
      exact List.mem_append_right l (List.mem_singleton.mpr (by rw [← h]))
    · rw [Finmap.lookup_insert_of_ne _ hx] at h
      exact List.mem_append_left [x] (ih h)

end OrderedMap

end Mimo26

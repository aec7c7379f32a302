import Mathlib.Data.List.Find
import Mathlib.Data.Prod.Lex
import Mathlib.Order.BooleanAlgebra.Basic
import Mimo26.Coordinator.HostCache
import Mimo26.Library.Pick

/-!
# Snapshots on the device

A finished request's slot stays on the device for its points, the positions of its history whose
state was saved (`Pool::device_hit` and `device_hit_for` of `api.rs`). A request resumes at the
longest point that starts its prompt; among equally long ones, at one with nothing after it in its
slot. A point at the prompt's full length must also know the token after it.

`device_hit_for` looks at one full-length point only. Where that one does not give the request its
first token, it turns to the shorter points, also when another slot has a full-length point that
does: points of equal length are the rule once a prompt was prefilled again.

## Main definitions

* `deviceHit`, `deviceHitFor` — the longest point, and the longest for a request
* `Eligible`, `FindsPoint` — the points a request can resume at, and a longest one
* `ServedFirst` — the full-length point that is looked at is not passed over for nothing

## Main results

* `deviceHitFor_iff` — the longest eligible point is found exactly then
* `not_finds_twoTurns` — a prompt that was sampled, then sent greedily, then sent again
-/

namespace Mimo26

namespace Coordinator

namespace DevicePool

open Pick

/-- A retained snapshot: how many tokens of its slot's history it is of, and what follows them. -/
structure Point where
  len : ℕ
  after : After

/-- A finished request's slot. -/
structure Retained where
  hist : List ℕ
  points : List Point

/-- The length of the slot's last point. -/
def Retained.top (r : Retained) : ℕ := (r.points.map Point.len).max?.getD 0

/-- How many tokens a history and a prompt share. -/
def common (hist ids : List ℕ) : ℕ := ((hist.zip ids).takeWhile fun x => x.1 == x.2).length

/-- What points are compared by: the length, then whether nothing follows in the slot. -/
def pointKey (r : Retained) (p : Point) : ℕ ×ₗ Bool := toLex (p.len, p.len == r.top)

/-- The longest retained point that starts a prompt: its slot and its place there. -/
def deviceHit (retained : List Retained) (ids : List ℕ) : Option (ℕ × ℕ) :=
  (retained.zipIdx.foldl (fun best r => r.1.points.zipIdx.foldl (fun best p =>
    if p.1.len ≤ common r.1.hist ids ∧ best.all fun b => decide (b.1 < pointKey r.1 p.1) then
      some (pointKey r.1 p.1, r.2, p.2)
    else best) best) (none : Option ((ℕ ×ₗ Bool) × ℕ × ℕ))).map Prod.snd

/-- The point at a place. -/
def pointAt (retained : List Retained) (at' : ℕ × ℕ) : Option Point :=
  (retained[at'.1]?).bind fun r => r.points[at'.2]?

/-- The longest one for a request; none is a panic. -/
def deviceHitFor (retained : List Retained) (ids : List ℕ) (sampled : Bool) :
    Option (Option (ℕ × ℕ)) :=
  match deviceHit retained ids with
  | none => some none
  | some at' => (pointAt retained at').bind fun p =>
    if p.len = ids.length ∧ p.after.serves sampled = false then
      if ids = [] then none else some (deviceHit retained (ids.take (ids.length - 1)))
    else some (some at')

/-! ### Longest points -/

/-- The point's tokens start the prompt. -/
def Starts (ids : List ℕ) (r : Retained) (p : Point) : Prop :=
  p.len ≤ r.hist.length ∧ r.hist.take p.len <+: ids

/-- A point that a request for the prompt can resume at. -/
structure Eligible (ids : List ℕ) (sampled : Bool) (r : Retained) (p : Point) : Prop where
  starts : Starts ids r p
  serves : p.len < ids.length ∨ p.after.serves sampled = true

/-- The answer is the place of a longest good point, none if there is no good point. -/
structure FindsPoint (retained : List Retained) (good : Retained → Point → Prop)
    (answer : Option (ℕ × ℕ)) : Prop where
  found : ∀ si pi, answer = some (si, pi) → ∃ r p, retained[si]? = some r ∧
    r.points[pi]? = some p ∧ good r p ∧ ∀ r' ∈ retained, ∀ p' ∈ r'.points, good r' p' → p'.len ≤ p.len
  missing : answer = none → ∀ r ∈ retained, ∀ p ∈ r.points, ¬ good r p

theorem le_common_iff {n : ℕ} {hist ids : List ℕ} :
    n ≤ common hist ids ↔ n ≤ hist.length ∧ hist.take n <+: ids := by
  rw [common]
  induction hist generalizing n ids with
  | nil => cases n with
    | zero => simp
    | succ n => simp
  | cons a hist ih =>
    cases n with
    | zero => simp
    | succ n =>
      cases ids with
      | nil => simp
      | cons b ids =>
        rw [List.zip_cons_cons, List.takeWhile_cons, List.take_succ_cons, List.cons_prefix_cons,
          List.length_cons, Nat.add_le_add_iff_right]
        split
        · next hab =>
          rw [List.length_cons, Nat.add_le_add_iff_right, ih, and_iff_right (beq_iff_eq.mp hab)]
        · next hab =>
          refine iff_of_false (Nat.not_succ_le_zero n) fun h => hab (beq_iff_eq.mpr h.2.1)

/-! ### The points one after the other -/

/-- A point with its place. -/
structure Place where
  slot : Retained
  si : ℕ
  point : Point
  pi : ℕ

/-- The points in the order in which they are looked at. -/
def places (retained : List Retained) : List Place :=
  retained.zipIdx.flatMap fun r => r.1.points.zipIdx.map fun p => ⟨r.1, r.2, p.1, p.2⟩

theorem mem_places {retained : List Retained} {x : Place} : x ∈ places retained ↔
    retained[x.si]? = some x.slot ∧ x.slot.points[x.pi]? = some x.point := by
  rw [places, List.mem_flatMap]
  constructor
  · rintro ⟨r, hr, hx⟩
    obtain ⟨p, hp, rfl⟩ := List.mem_map.mp hx
    exact ⟨List.mem_zipIdx_iff_getElem?.mp hr, List.mem_zipIdx_iff_getElem?.mp hp⟩
  · rintro ⟨hr, hp⟩
    exact ⟨(x.slot, x.si), List.mem_zipIdx_iff_getElem?.mpr hr,
      List.mem_map.mpr ⟨(x.point, x.pi), List.mem_zipIdx_iff_getElem?.mpr hp, rfl⟩⟩

theorem exists_place {retained : List Retained} {r : Retained} {p : Point} (hr : r ∈ retained)
    (hp : p ∈ r.points) : ∃ x ∈ places retained, x.slot = r ∧ x.point = p := by
  obtain ⟨si, hsi⟩ := List.mem_iff_getElem?.mp hr
  obtain ⟨pi, hpi⟩ := List.mem_iff_getElem?.mp hp
  exact ⟨⟨r, si, p, pi⟩, mem_places.mpr ⟨hsi, hpi⟩, rfl, rfl⟩

/-- The points that start a prompt. -/
def starting (retained : List Retained) (ids : List ℕ) : List Place :=
  (places retained).filter fun x => x.point.len ≤ common x.slot.hist ids

theorem mem_starting {retained : List Retained} {ids : List ℕ} {x : Place} :
    x ∈ starting retained ids ↔ x ∈ places retained ∧ Starts ids x.slot x.point := by
  rw [starting, List.mem_filter, decide_eq_true_iff, le_common_iff, Starts]

def Place.key (x : Place) : ℕ ×ₗ Bool := pointKey x.slot x.point

/-- A turn of the inner loop. -/
def turn (ids : List ℕ) (best : Option ((ℕ ×ₗ Bool) × ℕ × ℕ)) (x : Place) :
    Option ((ℕ ×ₗ Bool) × ℕ × ℕ) :=
  if x.point.len ≤ common x.slot.hist ids ∧ best.all fun b => decide (b.1 < x.key) then
    some (x.key, x.si, x.pi)
  else best

theorem turn_map (ids : List ℕ) (best : Option Place) (x : Place) :
    turn ids (best.map fun y => (y.key, y.si, y.pi)) x =
      (if x.point.len ≤ common x.slot.hist ids then keep Place.key best x else best).map
        fun y => (y.key, y.si, y.pi) := by
  have hall : (best.map fun y => (y.key, y.si, y.pi)).all (fun b => decide (b.1 < x.key)) =
      best.all fun y => decide (y.key < x.key) := by
    cases best <;> rfl
  rw [turn, hall]
  by_cases hlen : x.point.len ≤ common x.slot.hist ids
  · rw [if_pos hlen, keep]
    by_cases hbest : best.all (fun y => decide (y.key < x.key)) = true
    · rw [if_pos ⟨hlen, hbest⟩, if_pos hbest, Option.map_some]
    · rw [if_neg fun h => hbest h.2, if_neg hbest]
  · rw [if_neg fun h => hlen h.1, if_neg hlen]

/-- **The loops** pick the first greatest. -/
theorem deviceHit_eq (retained : List Retained) (ids : List ℕ) : deviceHit retained ids =
    (pick Place.key (starting retained ids)).map fun x => (x.si, x.pi) := by
  have hloops : deviceHit retained ids =
      ((places retained).foldl (turn ids) none).map Prod.snd := by
    rw [places, List.foldl_flatMap, deviceHit]
    simp only [List.foldl_map]
    rfl
  have hpick : (places retained).foldl (turn ids) none =
      (pick Place.key (starting retained ids)).map fun x => (x.key, x.si, x.pi) := by
    rw [pick, starting, List.foldl_filter]
    simp only [decide_eq_true_eq]
    exact @List.foldl_hom _ _ _ (Option.map fun x : Place => (x.key, x.si, x.pi)) _ _
      (places retained) none (turn_map ids)
  rw [hloops, hpick, Option.map_map]
  rfl

theorem pointAt_of_mem {retained : List Retained} {x : Place} (hx : x ∈ places retained) :
    pointAt retained (x.si, x.pi) = some x.point := by
  obtain ⟨hr, hp⟩ := mem_places.mp hx
  rw [pointAt, hr, Option.bind_some, hp]

theorem len_le_of_starts {ids : List ℕ} {r : Retained} {p : Point} (h : Starts ids r p) :
    p.len ≤ ids.length := by
  have hlen := h.2.length_le
  rwa [List.length_take, Nat.min_eq_left h.1] at hlen

/-- The greatest key is of the greatest length. -/
theorem len_le_of_key_le {x y : Place} (h : x.key ≤ y.key) : x.point.len ≤ y.point.len :=
  Prod.Lex.monotone_fst _ _ h

/-- **A longest point that starts the prompt**. -/
theorem deviceHit_finds (retained : List Retained) (ids : List ℕ) :
    FindsPoint retained (Starts ids) (deviceHit retained ids) := by
  rw [deviceHit_eq]
  refine ⟨fun si pi hhit => ?_, fun hhit r hr p hp hstarts => ?_⟩
  · obtain ⟨x, hx, hat⟩ := Option.map_eq_some_iff.mp hhit
    obtain ⟨rfl, rfl⟩ := Prod.mk.inj hat
    obtain ⟨hplace, hstarts⟩ := mem_starting.mp (mem_of_pick hx)
    obtain ⟨hslot, hpoint⟩ := mem_places.mp hplace
    refine ⟨x.slot, x.point, hslot, hpoint, hstarts, fun r hr p hp hgood => ?_⟩
    obtain ⟨y, hy, rfl, rfl⟩ := exists_place hr hp
    exact len_le_of_key_le (le_of_pick hx (mem_starting.mpr ⟨hy, hgood⟩))
  · obtain ⟨y, hy, rfl, rfl⟩ := exists_place hr hp
    have hnil := pick_eq_none.mp (Option.map_eq_none_iff.mp hhit)
    exact absurd (mem_starting.mpr ⟨hy, hstarts⟩) (hnil ▸ List.not_mem_nil)

/-! ### Points at the prompt's full length -/

/-- The points that the whole prompt is the tokens of. -/
def fulls (retained : List Retained) (ids : List ℕ) : List Place :=
  (starting retained ids).filter fun x => x.point.len = ids.length

/-- The first of them with nothing after it in its slot, else the first. -/
def firstFull (retained : List Retained) (ids : List ℕ) : Option Place :=
  ((fulls retained ids).find? fun x => x.point.len = x.slot.top).or (fulls retained ids).head?

/-- The full-length point that is looked at serves the request, or none does and there are
shorter prompts. -/
def ServedFirst (retained : List Retained) (ids : List ℕ) (sampled : Bool) : Prop :=
  ∀ x, firstFull retained ids = some x → x.point.after.serves sampled = true ∨
    ids ≠ [] ∧ ∀ y ∈ fulls retained ids, y.point.after.serves sampled = false

theorem mem_fulls {retained : List Retained} {ids : List ℕ} {x : Place} :
    x ∈ fulls retained ids ↔
      (x ∈ places retained ∧ Starts ids x.slot x.point) ∧ x.point.len = ids.length := by
  rw [fulls, List.mem_filter, mem_starting, decide_eq_true_iff]

theorem key_eq_iff {x : Place} {n : ℕ} {b : Bool} :
    x.key = toLex (n, b) ↔ x.point.len = n ∧ (x.point.len == x.slot.top) = b := by
  rw [Place.key, pointKey, toLex_inj, Prod.mk.injEq]

/-- The pick is of the full length exactly if there is a point of the full length, and then it is
the first. -/
theorem pick_filter (retained : List Retained) (ids : List ℕ) :
    (pick Place.key (starting retained ids)).filter (fun x => x.point.len = ids.length) =
      firstFull retained ids := by
  have hlen : ∀ x ∈ starting retained ids, x.point.len ≤ ids.length := fun x hx =>
    len_le_of_starts (mem_starting.mp hx).2
  have hlast : (fulls retained ids).find? (fun x => x.point.len = x.slot.top) =
      (starting retained ids).find? fun x => x.key = toLex (ids.length, true) := by
    rw [fulls, List.find?_filter]
    refine congrArg (List.find? · _) (funext fun x => ?_)
    simp only [decide_eq_true_eq, key_eq_iff, beq_iff_eq]
  rw [firstFull, hlast]
  by_cases hex : ∃ x ∈ starting retained ids, x.key = toLex (ids.length, true)
  · have hle : ∀ x ∈ starting retained ids, x.key ≤ toLex (ids.length, true) := by
      intro x hx
      rcases (hlen x hx).lt_or_eq with hlt | heq
      · exact Prod.Lex.toLex_le_toLex.mpr (.inl hlt)
      · exact Prod.Lex.toLex_le_toLex.mpr (.inr ⟨heq, Bool.le_true _⟩)
    rw [pick_eq_find? hle hex]
    cases hfind : (starting retained ids).find? fun x => x.key = toLex (ids.length, true) with
    | none =>
      obtain ⟨x, hx, hkey⟩ := hex
      exact absurd (decide_eq_true hkey) (List.find?_eq_none.mp hfind x hx)
    | some x =>
      have hkey : x.key = toLex (ids.length, true) := by simpa using List.find?_some hfind
      rw [Option.some_or, Option.filter_some, if_pos (decide_eq_true (key_eq_iff.mp hkey).1)]
  · have hnone : ((starting retained ids).find? fun x => x.key = toLex (ids.length, true)) = none :=
      List.find?_eq_none.mpr fun x hx hkey => hex ⟨x, hx, of_decide_eq_true hkey⟩
    rw [hnone, Option.none_or, fulls, List.head?_filter]
    have hkey : ∀ x ∈ starting retained ids,
        x.key = toLex (ids.length, false) ↔ x.point.len = ids.length := by
      refine fun x hx => ⟨fun h => (key_eq_iff.mp h).1, fun hfull => ?_⟩
      refine key_eq_iff.mpr ⟨hfull, Bool.eq_false_iff.mpr fun htop => hex ⟨x, hx, ?_⟩⟩
      exact key_eq_iff.mpr ⟨hfull, htop⟩
    cases hfind : (starting retained ids).find? fun x => x.point.len = ids.length with
    | none =>
      refine Option.filter_eq_none_iff.mpr fun x hx hfull => ?_
      exact List.find?_eq_none.mp hfind x (mem_of_pick hx) hfull
    | some x =>
      have hx := List.mem_of_find?_eq_some hfind
      have hfull : x.point.len = ids.length := by simpa using List.find?_some hfind
      have hle : ∀ y ∈ starting retained ids, y.key ≤ toLex (ids.length, false) := by
        intro y hy
        rcases (hlen y hy).lt_or_eq with hlt | heq
        · exact Prod.Lex.toLex_le_toLex.mpr (.inl hlt)
        · exact ((hkey y hy).mpr heq).le
      rw [pick_eq_find? hle ⟨x, hx, (hkey x hx).mpr hfull⟩,
        List.find?_congr fun y hy => decide_eq_decide.mpr (hkey y hy), hfind, Option.filter_some,
        if_pos (decide_eq_true hfull)]

theorem firstFull_mem {retained : List Retained} {ids : List ℕ} {x : Place}
    (h : firstFull retained ids = some x) : x ∈ fulls retained ids := by
  rw [firstFull] at h
  rcases Option.or_eq_some_iff.mp h with h | ⟨-, h⟩
  · exact List.mem_of_find?_eq_some h
  · exact List.mem_of_mem_head? h

theorem FindsPoint.congr {retained : List Retained} {good good' : Retained → Point → Prop}
    (hgood : ∀ r ∈ retained, ∀ p ∈ r.points, good r p ↔ good' r p) {answer : Option (ℕ × ℕ)}
    (h : FindsPoint retained good answer) : FindsPoint retained good' answer := by
  refine ⟨fun si pi hanswer => ?_, fun hanswer r hr p hp hp' => ?_⟩
  · obtain ⟨r, p, hr, hp, hrp, hmax⟩ := h.found si pi hanswer
    refine ⟨r, p, hr, hp, (hgood r (List.mem_of_getElem? hr) p (List.mem_of_getElem? hp)).mp hrp, ?_⟩
    exact fun r' hr' p' hp' hrp' => hmax r' hr' p' hp' ((hgood r' hr' p' hp').mpr hrp')
  · exact h.missing hanswer r hr p hp ((hgood r hr p hp).mpr hp')

/-- The points that start all but the last token are the shorter ones. -/
theorem starts_take_iff {ids : List ℕ} (hids : ids ≠ []) {r : Retained} {p : Point} :
    Starts (ids.take (ids.length - 1)) r p ↔ Starts ids r p ∧ p.len < ids.length := by
  have hpos := List.length_pos_of_ne_nil hids
  rw [Starts, Starts, List.prefix_take_iff, List.length_take, and_assoc]
  refine and_congr_right fun hlen => and_congr_right fun _ => ?_
  rw [Nat.min_eq_left hlen]
  omega

theorem exists_full {retained : List Retained} {ids : List ℕ} {r : Retained} {p : Point}
    (hr : r ∈ retained) (hp : p ∈ r.points) (hstarts : Starts ids r p) (hlen : p.len = ids.length) :
    ∃ x ∈ fulls retained ids, x.point = p := by
  obtain ⟨x, hx, rfl, rfl⟩ := exists_place hr hp
  exact ⟨x, mem_fulls.mpr ⟨⟨hx, hstarts⟩, hlen⟩, rfl⟩

/-- Without a full-length point that serves, the eligible points are the shorter ones. -/
theorem eligible_iff {retained : List Retained} {ids : List ℕ} {sampled : Bool}
    (hnone : ∀ y ∈ fulls retained ids, y.point.after.serves sampled = false) {r : Retained}
    {p : Point} (hr : r ∈ retained) (hp : p ∈ r.points) :
    Eligible ids sampled r p ↔ Starts ids r p ∧ p.len < ids.length := by
  refine ⟨fun h => ⟨h.starts, (len_le_of_starts h.starts).lt_of_ne fun heq => ?_⟩,
    fun h => ⟨h.1, .inl h.2⟩⟩
  obtain ⟨y, hy, rfl⟩ := exists_full hr hp h.starts heq
  rcases h.serves with hlt | hserves
  · exact hlt.ne heq
  · rw [hnone y hy] at hserves
    cases hserves

/-- **The longest eligible point is found** exactly if a full-length point is not passed over for
nothing. -/
theorem deviceHitFor_iff (retained : List Retained) (ids : List ℕ) (sampled : Bool) :
    (∃ hit, deviceHitFor retained ids sampled = some hit ∧
      FindsPoint retained (Eligible ids sampled) hit) ↔ ServedFirst retained ids sampled := by
  have hfinds := deviceHit_finds retained ids
  have hpick := pick_filter retained ids
  cases hfirst : firstFull retained ids with
  | none =>
    have hnil : fulls retained ids = [] := by
      rw [firstFull, Option.or_eq_none_iff] at hfirst
      exact List.head?_eq_none_iff.mp hfirst.2
    have hshort {r : Retained} {p : Point} (hr : r ∈ retained) (hp : p ∈ r.points)
        (hstarts : Starts ids r p) : p.len < ids.length := by
      refine (len_le_of_starts hstarts).lt_of_ne fun heq => ?_
      obtain ⟨x, hx, -⟩ := exists_full hr hp hstarts heq
      exact absurd (hnil ▸ hx) List.not_mem_nil
    refine iff_of_true ⟨deviceHit retained ids, ?_, hfinds.congr fun r hr p hp => ?_⟩
      fun x hx => ?_
    · rw [deviceHitFor]
      cases hhit : deviceHit retained ids with
      | none => rfl
      | some at' =>
        obtain ⟨r, p, hr, hp, hstarts, -⟩ := hfinds.found _ _ hhit
        dsimp only
        rw [pointAt, hr, Option.bind_some, hp, Option.bind_some]
        have hlt := hshort (List.mem_of_getElem? hr) (List.mem_of_getElem? hp) hstarts
        exact if_neg fun h => hlt.ne h.1
    · rw [eligible_iff (hnil ▸ List.forall_mem_nil _) hr hp, iff_self_and]
      exact hshort hr hp
    · rw [hfirst] at hx
      cases hx
  | some x =>
    have hx := mem_fulls.mp (firstFull_mem hfirst)
    obtain ⟨hx', -⟩ := Option.filter_eq_some_iff.mp (hpick.trans hfirst)
    have hhit : deviceHit retained ids = some (x.si, x.pi) := by
      rw [deviceHit_eq, hx', Option.map_some]
    have hfor : deviceHitFor retained ids sampled =
        if x.point.after.serves sampled = false then
          if ids = [] then none else some (deviceHit retained (ids.take (ids.length - 1)))
        else some (some (x.si, x.pi)) := by
      rw [deviceHitFor, hhit]
      dsimp only
      rw [pointAt_of_mem hx.1.1, Option.bind_some]
      simp only [hx.2, true_and]
    have hserved : ServedFirst retained ids sampled ↔ x.point.after.serves sampled = true ∨
        ids ≠ [] ∧ ∀ y ∈ fulls retained ids, y.point.after.serves sampled = false := by
      rw [ServedFirst, hfirst]
      exact ⟨fun h => h x rfl, fun h y hy => Option.some.inj hy ▸ h⟩
    rw [hserved, hfor]
    by_cases hserves : x.point.after.serves sampled = true
    · rw [if_neg (by rw [hserves]; decide)]
      refine iff_of_true ⟨_, rfl, fun si pi hat => ?_, fun hat => by cases hat⟩ (.inl hserves)
      obtain ⟨rfl, rfl⟩ := Prod.mk.inj (Option.some.inj hat)
      obtain ⟨hr, hp⟩ := mem_places.mp hx.1.1
      refine ⟨x.slot, x.point, hr, hp, ⟨hx.1.2, .inr hserves⟩, fun r hr p hp hgood => ?_⟩
      rw [hx.2]
      exact len_le_of_starts hgood.starts
    · rw [if_pos (Bool.eq_false_iff.mpr hserves), or_iff_right hserves]
      by_cases hids : ids = []
      · rw [if_pos hids]
        exact iff_of_false (fun h => by obtain ⟨_, ⟨⟩, _⟩ := h) fun h => h.1 hids
      · have hrest := deviceHit_finds retained (ids.take (ids.length - 1))
        rw [if_neg hids, and_iff_right hids]
        constructor
        · -- a point of the full length is longer than what is found among the shorter ones
          rintro ⟨hit, hhit, hbest⟩ y hy
          obtain rfl := Option.some.inj hhit
          refine Bool.eq_false_iff.mpr fun hy' => ?_
          obtain ⟨⟨hplace, hstarts⟩, hfull⟩ := mem_fulls.mp hy
          obtain ⟨hr, hp⟩ := mem_places.mp hplace
          have hgood : Eligible ids sampled y.slot y.point := ⟨hstarts, .inr hy'⟩
          cases hres : deviceHit retained (ids.take (ids.length - 1)) with
          | none =>
            exact hbest.missing hres _ (List.mem_of_getElem? hr) _ (List.mem_of_getElem? hp) hgood
          | some at' =>
            obtain ⟨r, p, hr₁, hp₁, -, hmax⟩ := hbest.found _ _ hres
            obtain ⟨r', p', hr', hp', hshort, -⟩ := hrest.found _ _ hres
            obtain rfl := Option.some.inj (hr₁.symm.trans hr')
            obtain rfl := Option.some.inj (hp₁.symm.trans hp')
            have hle := hmax _ (List.mem_of_getElem? hr) _ (List.mem_of_getElem? hp) hgood
            have hlt := ((starts_take_iff hids).mp hshort).2
            omega
        · intro hnone
          refine ⟨_, rfl, hrest.congr fun r hr p hp => ?_⟩
          rw [starts_take_iff hids, eligible_iff hnone hr hp]

/-- The turn of a sampled request, then the same tokens sent greedily as a prompt: two slots hold a
point of the same 512 tokens, and the first one gives nobody a first token. -/
def twoTurns : List Retained :=
  [⟨List.replicate 512 7, [⟨512, ⟨none, none⟩⟩]⟩, ⟨List.replicate 512 7, [⟨512, ⟨some 3, none⟩⟩]⟩]

set_option maxRecDepth 4000 in
/-- **Sent greedily once more**, the prompt is prefilled from the start. -/
theorem not_finds_twoTurns :
    ¬ ∀ (retained : List Retained) (ids : List ℕ) (sampled : Bool),
      ∃ hit, deviceHitFor retained ids sampled = some hit ∧
        FindsPoint retained (Eligible ids sampled) hit := by
  intro h
  obtain ⟨hit, hhit, hfinds⟩ := h twoTurns (List.replicate 512 7) false
  have hnone : deviceHitFor twoTurns (List.replicate 512 7) false = some none := by decide
  obtain rfl := Option.some.inj (hnone.symm.trans hhit)
  refine hfinds.missing rfl ⟨List.replicate 512 7, [⟨512, ⟨some 3, none⟩⟩]⟩
    (List.mem_cons_of_mem _ List.mem_cons_self) _ List.mem_cons_self ⟨⟨?_, List.take_prefix _ _⟩, ?_⟩
  · rw [List.length_replicate]
  · exact .inr rfl

end DevicePool

end Coordinator

end Mimo26

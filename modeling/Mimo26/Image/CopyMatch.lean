import Mimo26.Image.BitBuffer

/-!
# Copies

A copy whose passes grow is the copy of one byte after the other: from `dist` back on, the output
repeats itself every `dist` bytes.

## Main definitions

* `repeated` — an output and so many bytes of its last `d` over and over

## Main results

* `copyMatch_eq` — the copy of the decoder
* `copy_eq` — the copy byte by byte
-/

namespace Mimo26

namespace Image

/-- The output, and `n` bytes of its last `d` over and over. -/
def repeated (out : List UInt8) (d n : ℕ) : List UInt8 :=
  out ++ (List.range n).map fun j => out.getD (out.length - d + j % d) 0

variable {out : List UInt8} {d : ℕ}

theorem length_repeated (n : ℕ) : (repeated out d n).length = out.length + n := by
  rw [repeated, List.length_append, List.length_map, List.length_range]

theorem repeated_zero : repeated out d 0 = out := List.append_nil out

theorem succ_mod (hd : 0 < d) (j : ℕ) :
    j % d + 1 < d ∧ (j + 1) % d = j % d + 1 ∨ j % d + 1 = d ∧ (j + 1) % d = 0 := by
  have hlt := Nat.mod_lt j hd
  have hsucc : (j + 1) % d = (j % d + 1) % d := (Nat.mod_add_mod j d 1).symm
  rcases Nat.lt_or_ge (j % d + 1) d with h | h
  · exact .inl ⟨h, by rw [hsucc, Nat.mod_eq_of_lt h]⟩
  · have heq : j % d + 1 = d := by omega
    exact .inr ⟨heq, by rw [hsucc, heq, Nat.mod_self]⟩

/-- One byte first. -/
theorem repeated_succ (hd : 0 < d) (hle : d ≤ out.length) (n : ℕ) :
    repeated (out ++ [out.getD (out.length - d) 0]) d n = repeated out d (n + 1) := by
  rw [repeated, repeated, List.range_succ_eq_map, List.map_cons, List.map_map, List.append_assoc,
    List.singleton_append, Nat.zero_mod, Nat.add_zero]
  refine congrArg (fun l => out ++ _ :: l) (List.map_congr_left fun j _ => ?_)
  rw [Function.comp_apply, List.length_append, List.length_singleton, Nat.succ_eq_add_one]
  rcases succ_mod hd j with ⟨hlt, hmod⟩ | ⟨heq, hmod⟩
  · rw [hmod, List.getD_eq_getElem?_getD, List.getElem?_append_left (by omega),
      ← List.getD_eq_getElem?_getD]
    exact congrArg (out.getD · 0) (by omega)
  · rw [hmod, List.getD_eq_getElem?_getD, List.getElem?_append_right (by omega),
      show out.length + 1 - d + j % d - out.length = 0 by omega]
    rfl

theorem getElem?_repeated (hle : d ≤ out.length) {n j : ℕ} (hj : j < d + n) :
    (repeated out d n)[out.length - d + j]? = some (out.getD (out.length - d + j % d) 0) := by
  rw [repeated]
  rcases Nat.lt_or_ge j d with hlt | hge
  · rw [List.getElem?_append_left (by omega), Nat.mod_eq_of_lt hlt, List.getD_eq_getElem?_getD,
      List.getElem?_eq_getElem (by omega), Option.getD_some]
  · rw [List.getElem?_append_right (by omega), List.getElem?_map,
      show out.length - d + j - out.length = j - d by omega, List.getElem?_range (by omega),
      Option.map_some, Nat.mod_eq_sub_mod hge]

/-- A pass copies what has been put out since the first byte to copy. -/
theorem repeated_append (hle : d ≤ out.length) {n k : ℕ} (hn : d ∣ n) (hk : k ≤ d + n) :
    repeated out d n ++ ((repeated out d n).drop (out.length - d)).take k =
      repeated out d (n + k) := by
  have hchunk : ((repeated out d n).drop (out.length - d)).take k =
      (List.range k).map fun j => out.getD (out.length - d + (n + j) % d) 0 := by
    refine List.ext_getElem? fun j => ?_
    rcases Nat.lt_or_ge j k with hlt | hge
    · rw [List.getElem?_take_of_lt hlt, List.getElem?_drop, getElem?_repeated hle (by omega),
        List.getElem?_map, List.getElem?_range hlt, Option.map_some]
      obtain ⟨q, rfl⟩ := hn
      rw [Nat.mul_add_mod]
    · rw [List.getElem?_eq_none (by simp; omega), List.getElem?_eq_none (by simpa using hge)]
  rw [hchunk, repeated, repeated, List.range_add, List.map_append, List.map_map, List.append_assoc]
  rfl

theorem copyLoop_eq (hd : 0 < d) (hle : d ≤ out.length) (remaining n : ℕ)
    (hn : d ∣ n ∨ remaining = 0) :
    copyLoop (repeated out d n) (out.length - d) remaining = some (repeated out d (n + remaining)) := by
  induction remaining using Nat.strong_induction_on generalizing n with
  | _ remaining ih =>
    rw [copyLoop]
    by_cases hzero : remaining = 0
    · rw [if_pos hzero, hzero, Nat.add_zero]
    · have hdvd := hn.resolve_right hzero
      rw [if_neg hzero, length_repeated, show out.length + n - (out.length - d) = d + n by omega]
      dsimp only
      rw [if_neg (by omega), repeated_append hle hdvd (Nat.min_le_right _ _),
        ih (remaining - min remaining (d + n)) (by omega) _ ?_]
      · rw [show n + min remaining (d + n) + (remaining - min remaining (d + n)) = n + remaining by
          omega]
      · rcases Nat.le_total remaining (d + n) with h | h
        · exact .inr (by omega)
        · refine .inl ?_
          rw [Nat.min_eq_right h]
          exact (Nat.dvd_add hdvd (Nat.dvd_add (Nat.dvd_refl d) hdvd))

/-- **The copy of the decoder.** -/
theorem copyMatch_eq (hd : 0 < d) (hle : d ≤ out.length) (n : ℕ) :
    copyMatch out d n = some (repeated out d n) := by
  rw [copyMatch, if_neg (Nat.not_lt.mpr hle)]
  dsimp only
  by_cases hone : d = 1
  · subst hone
    rw [if_pos rfl, List.getElem?_eq_getElem (by omega), Option.map_some, repeated]
    refine congrArg (fun l => some (out ++ l)) (List.eq_replicate_iff.mpr ⟨by simp, ?_⟩).symm
    intro b hb
    obtain ⟨j, -, rfl⟩ := List.mem_map.mp hb
    rw [Nat.mod_one, Nat.add_zero, List.getD_eq_getElem?_getD, List.getElem?_eq_getElem (by omega),
      Option.getD_some]
  · have hloop := copyLoop_eq hd hle n 0 (.inl (Nat.dvd_zero d))
    rw [repeated_zero, Nat.zero_add] at hloop
    rw [if_neg hone, hloop]

/-- **The copy byte by byte**, as far as bytes are missing. -/
theorem copy_eq {outLen : ℕ} {t : Rfc1951.State} (hd : 0 < d) (hle : d ≤ t.out.length) (n : ℕ) :
    Rfc1951.copy outLen d n t =
      some ((), { t with out := repeated t.out d (min n (outLen - t.out.length)) }) := by
  induction n generalizing t with
  | zero => rw [Nat.zero_min, repeated_zero]; rfl
  | succ n ih =>
    have hstep : Rfc1951.copy outLen d (n + 1) t = Rfc1951.copy outLen d n
        (if t.out.length < outLen then
          { t with out := t.out ++ [t.out.getD (t.out.length - d) 0] } else t) := by
      have hget : t.out[t.out.length - d]? = some (t.out.getD (t.out.length - d) 0) := by
        rw [List.getD_eq_getElem?_getD, List.getElem?_eq_getElem (by omega), Option.getD_some]
      rw [Rfc1951.copy]
      dsimp only [bind, StateT.bind, get, getThe, MonadStateOf.get, StateT.get, pure,
        Option.bind_some]
      rw [hget]
      show (if t.out.length < outLen then _ else _ : Rfc1951.Decoder Unit) t >>= _ = _
      split <;> rfl
    rw [hstep]
    by_cases hlt : t.out.length < outLen
    · rw [if_pos hlt, ih (by simp; omega)]
      dsimp only
      rw [repeated_succ hd hle, List.length_append, List.length_singleton,
        show min n (outLen - (t.out.length + 1)) + 1 = min (n + 1) (outLen - t.out.length) by omega]
    · rw [if_neg hlt, ih hle, show outLen - t.out.length = 0 by omega, Nat.min_zero, Nat.min_zero]

end Image

end Mimo26

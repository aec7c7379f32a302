import Mathlib.Data.List.Basic
import Mathlib.Data.List.Induction
import Mathlib.Data.Nat.Bitwise
import Mimo26.Image.Error

/-!
# Base64

The payload of a data URL (`base64.rs`): both alphabets, whitespace anywhere, padding optional. The
accumulator of the loop holds at most three sextets, so its shift loses nothing.

## Main definitions

* `table`, `feed`, `decode` — the decoder
* `letter`, `encode` — the encoding, in either alphabet, with padding or without
* `IsSpace`, `IsLetter`, `WellFormed` — the strings it is meant for

## Main results

* `scan_eq_some_iff` — the bytes the loop gets through
* `decode_exact` — an encoding is read back, and the well-formed strings are the ones accepted
-/

namespace Mimo26

namespace Image

namespace Base64

def invalid : UInt8 := 0xFF

def skip : UInt8 := 0xFE

def pad : UInt8 := 0xFD

/-- `TABLE` -/
def table (c : UInt8) : UInt8 :=
  if 65 ≤ c ∧ c ≤ 90 then c - 65
  else if 97 ≤ c ∧ c ≤ 122 then 26 + (c - 97)
  else if 48 ≤ c ∧ c ≤ 57 then 52 + (c - 48)
  else if c = 43 ∨ c = 45 then 62
  else if c = 47 ∨ c = 95 then 63
  else if c = 61 then pad
  else if c = 32 ∨ c = 9 ∨ c = 10 ∨ c = 13 ∨ c = 11 ∨ c = 12 then skip
  else invalid

/-- What the loop carries along. -/
structure State where
  out : List UInt8 := []
  acc : ℕ := 0
  /-- Sextets held in `acc`. -/
  n : ℕ := 0
  pads : ℕ := 0

/-- A byte in hexadecimal. -/
def hex (c : UInt8) : String :=
  String.ofList [Nat.digitChar (c.toNat / 16), Nat.digitChar (c.toNat % 16)]

/-- One more sextet. -/
def push (st : State) (v : UInt8) : State :=
  let acc := (st.acc <<< 6) % 2 ^ 32 ||| v.toNat
  if st.n + 1 = 4 then
    { st with
      out := st.out ++ [UInt8.ofNat (acc >>> 16), UInt8.ofNat (acc >>> 8), UInt8.ofNat acc]
      acc := 0
      n := 0 }
  else { st with acc := acc, n := st.n + 1 }

/-- Byte `c` at offset `i`. -/
def feed (st : State) (i : ℕ) (c : UInt8) : Except ImageError State :=
  let v := table c
  if v < 64 then
    if 0 < st.pads then
      .error ⟨s!"invalid base64 in data URL: data after '=' padding at offset {i}"⟩
    else .ok (push st v)
  else if v = skip then .ok st
  else if v = pad then .ok { st with pads := st.pads + 1 }
  else .error ⟨s!"invalid base64 in data URL: byte 0x{hex c} at offset {i}"⟩

/-- The bytes from offset `i` on. -/
def loop (st : State) (i : ℕ) : List UInt8 → Except ImageError State
  | [] => .ok st
  | c :: input => do loop (← feed st i c) (i + 1) input

/-- The last, unfinished quartet. -/
def finish (st : State) : Except ImageError (List UInt8) :=
  if (st.n, st.pads) = (0, 0) then .ok st.out
  else if (st.n, st.pads) = (2, 0) ∨ (st.n, st.pads) = (2, 2) then
    .ok (st.out ++ [UInt8.ofNat (st.acc >>> 4)])
  else if (st.n, st.pads) = (3, 0) ∨ (st.n, st.pads) = (3, 1) then
    .ok (st.out ++ [UInt8.ofNat (st.acc >>> 10), UInt8.ofNat (st.acc >>> 2)])
  else if st.n = 1 then .error ⟨"invalid base64 in data URL: truncated (length is 1 mod 4)"⟩
  else .error ⟨"invalid base64 in data URL: bad '=' padding"⟩

def decode (input : List UInt8) : Except ImageError (List UInt8) := do
  finish (← loop {} 0 input)

/-! ### What it is meant for -/

/-- The letter of a sextet, in the standard or the URL alphabet. -/
def letter (url : Bool) (v : ℕ) : UInt8 :=
  if v < 26 then UInt8.ofNat (65 + v)
  else if v < 52 then UInt8.ofNat (97 + (v - 26))
  else if v < 62 then UInt8.ofNat (48 + (v - 52))
  else if v = 62 then (if url then 45 else 43)
  else (if url then 95 else 47)

/-- The encoding of a byte string. -/
def encode (url padded : Bool) : List UInt8 → List UInt8
  | [] => []
  | [x] =>
    [letter url (x.toNat / 4), letter url (x.toNat % 4 * 16)] ++ if padded then [61, 61] else []
  | [x, y] =>
    [letter url (x.toNat / 4), letter url (x.toNat % 4 * 16 + y.toNat / 16),
      letter url (y.toNat % 16 * 4)] ++ if padded then [61] else []
  | x :: y :: z :: bytes =>
    [letter url (x.toNat / 4), letter url (x.toNat % 4 * 16 + y.toNat / 16),
      letter url (y.toNat % 16 * 4 + z.toNat / 64), letter url (z.toNat % 64)] ++
      encode url padded bytes

/-- ASCII whitespace. -/
def IsSpace (c : UInt8) : Prop := c = 32 ∨ (9 ≤ c ∧ c ≤ 13)

instance : DecidablePred IsSpace := fun c => inferInstanceAs (Decidable (c = 32 ∨ (9 ≤ c ∧ c ≤ 13)))

/-- A letter of one of the alphabets. -/
def IsLetter (c : UInt8) : Prop := ∃ url, ∃ v < 64, letter url v = c

/-- Letters, not one more than whole quartets, and no padding or what completes the last one. -/
def WellFormed (text : List UInt8) : Prop :=
  ∃ letters pads, text = letters ++ List.replicate pads 61 ∧ (∀ c ∈ letters, IsLetter c) ∧
    letters.length % 4 ≠ 1 ∧ (pads = 0 ∨ pads < 4 ∧ (letters.length + pads) % 4 = 0)

/-! ### The table -/

/-- Facts about bytes are checked for each of them. -/
theorem forall_byte {P : UInt8 → Prop} (h : ∀ n < 256, P (UInt8.ofNat n)) (c : UInt8) : P c := by
  have hc := h c.toNat c.toNat_lt
  rwa [UInt8.ofNat_toNat] at hc

theorem table_letter (url : Bool) : ∀ v < 64, table (letter url v) = UInt8.ofNat v := by
  cases url <;> decide

set_option maxRecDepth 4000 in
theorem letter_table : ∀ c, table c < 64 →
    letter false (table c).toNat = c ∨ letter true (table c).toNat = c :=
  forall_byte (by decide)

set_option maxRecDepth 4000 in
theorem table_of_isSpace : ∀ c, IsSpace c → table c = skip := forall_byte (by decide)

set_option maxRecDepth 4000 in
theorem isSpace_of_table : ∀ c, table c = skip → IsSpace c := forall_byte (by decide)

set_option maxRecDepth 4000 in
theorem eq_of_table_pad : ∀ c, table c = pad → c = 61 := forall_byte (by decide)

theorem table_lt_iff {c : UInt8} : table c < 64 ↔ IsLetter c := by
  constructor
  · intro h
    have hlt : (table c).toNat < 64 := UInt8.lt_iff_toNat_lt.mp h
    rcases letter_table c h with heq | heq
    · exact ⟨false, _, hlt, heq⟩
    · exact ⟨true, _, hlt, heq⟩
  · rintro ⟨url, v, hv, rfl⟩
    rw [table_letter url v hv, UInt8.lt_iff_toNat_lt, UInt8.toNat_ofNat_of_lt' (show v < 256 by omega)]
    exact hv

/-! ### The loop -/

/-- The state after a byte, if it is no failure. -/
def accept (st : State) (c : UInt8) : Option State :=
  if table c < 64 then if 0 < st.pads then none else some (push st (table c))
  else if table c = skip then some st
  else if table c = pad then some { st with pads := st.pads + 1 }
  else none

theorem feed_toOption (st : State) (i : ℕ) (c : UInt8) : (feed st i c).toOption = accept st c := by
  rw [feed, accept]
  split
  · split <;> rfl
  · split
    · rfl
    · split <;> rfl

/-- Offsets only show in messages. -/
theorem loop_toOption (st : State) (i : ℕ) (input : List UInt8) :
    (loop st i input).toOption = input.foldlM accept st := by
  induction input generalizing st i with
  | nil => rfl
  | cons c input ih =>
    rw [loop, List.foldlM_cons, ← feed_toOption st i c]
    cases feed st i c with
    | error e => rfl
    | ok st' => exact ih st' (i + 1)

/-- Whitespace leaves no trace. -/
theorem foldlM_filter (st : State) (input : List UInt8) :
    input.foldlM accept st = (input.filter fun c => ¬ IsSpace c).foldlM accept st := by
  induction input generalizing st with
  | nil => rfl
  | cons c input ih =>
    by_cases hc : IsSpace c
    · have hskip : accept st c = some st := by
        rw [accept, table_of_isSpace c hc]
        rfl
      rw [List.foldlM_cons, hskip, List.filter_cons_of_neg (by simpa using hc)]
      exact ih st
    · rw [List.foldlM_cons, List.filter_cons_of_pos (by simpa using hc), List.foldlM_cons]
      exact congrArg _ (funext ih)

theorem accept_letter {st : State} (hpads : st.pads = 0) {c : UInt8} (hc : IsLetter c) :
    accept st c = some (push st (table c)) := by
  rw [accept, if_pos (table_lt_iff.mpr hc), if_neg (by omega)]

theorem accept_pad (st : State) : accept st 61 = some { st with pads := st.pads + 1 } := rfl

theorem push_pads (st : State) (v : UInt8) : (push st v).pads = st.pads := by
  rw [push]
  split <;> rfl

/-- The state after some letters. -/
def afterLetters (st : State) (letters : List UInt8) : State :=
  letters.foldl (fun st c => push st (table c)) st

theorem afterLetters_concat (st : State) (letters : List UInt8) (c : UInt8) :
    afterLetters st (letters ++ [c]) = push (afterLetters st letters) (table c) := by
  rw [afterLetters, List.foldl_append]
  rfl

theorem afterLetters_pads (st : State) (letters : List UInt8) :
    (afterLetters st letters).pads = st.pads := by
  induction letters generalizing st with
  | nil => rfl
  | cons c letters ih =>
    exact (ih (push st (table c))).trans (push_pads st _)

theorem push_n (st : State) (v : UInt8) (h : st.n < 4) : (push st v).n = (st.n + 1) % 4 := by
  rw [push]
  split
  · next h4 => rw [h4]
  · next h4 => exact (Nat.mod_eq_of_lt (show st.n + 1 < 4 by omega)).symm

/-- Every fourth letter ends a quartet. -/
theorem afterLetters_n (letters : List UInt8) :
    (afterLetters {} letters).n = letters.length % 4 := by
  induction letters using List.reverseRecOn with
  | nil => rfl
  | append_singleton letters c ih =>
    have hlt : (afterLetters {} letters).n < 4 := ih ▸ Nat.mod_lt _ (by decide)
    rw [afterLetters_concat, push_n _ _ hlt, ih, List.length_append, List.length_singleton,
      Nat.mod_add_mod]

theorem foldlM_letters {st : State} (hpads : st.pads = 0) {letters : List UInt8}
    (h : ∀ c ∈ letters, IsLetter c) :
    letters.foldlM accept st = some (afterLetters st letters) := by
  induction letters generalizing st with
  | nil => rfl
  | cons c letters ih =>
    rw [List.foldlM_cons, accept_letter hpads (h c List.mem_cons_self)]
    exact ih ((push_pads _ _).trans hpads) fun c hc => h c (List.mem_cons_of_mem _ hc)

theorem foldlM_pads (st : State) (pads : ℕ) :
    (List.replicate pads 61).foldlM accept st = some { st with pads := st.pads + pads } := by
  induction pads generalizing st with
  | zero => rfl
  | succ pads ih =>
    rw [List.replicate_succ, List.foldlM_cons, accept_pad]
    refine (ih _).trans ?_
    rw [Nat.add_assoc, Nat.add_comm 1 pads]

theorem foldlM_concat (st : State) (text : List UInt8) (c : UInt8) :
    (text ++ [c]).foldlM accept st = (text.foldlM accept st).bind (accept · c) := by
  rw [List.foldlM_append]
  refine congrArg _ (funext fun st' => ?_)
  rw [List.foldlM_cons, funext fun st => List.foldlM_nil, bind_pure]

theorem State.with_pads {st : State} {pads : ℕ} (h : st.pads = pads) :
    { st with pads := pads } = st := by
  subst h
  rfl

/-- **The bytes the loop gets through:** letters, then padding. -/
theorem scan_eq_some_iff {text : List UInt8} (htext : ∀ c ∈ text, ¬ IsSpace c) {st : State} :
    text.foldlM accept {} = some st ↔ ∃ letters pads,
      text = letters ++ List.replicate pads 61 ∧ (∀ c ∈ letters, IsLetter c) ∧
        st = { afterLetters {} letters with pads := pads } := by
  constructor
  · intro h
    induction text using List.reverseRecOn generalizing st with
    | nil => exact ⟨[], 0, rfl, List.forall_mem_nil _, (Option.some.inj h).symm⟩
    | append_singleton text c ih =>
      rw [foldlM_concat] at h
      cases hscan : text.foldlM accept {} with
      | none =>
        rw [hscan] at h
        cases h
      | some st' =>
        rw [hscan, Option.bind_some] at h
        obtain ⟨letters, pads, rfl, hletters, rfl⟩ :=
          ih (fun c hc => htext c (List.mem_append_left _ hc)) hscan
        rw [accept] at h
        split at h
        · next hlt =>
          split at h
          · cases h
          · next hpads =>
            obtain rfl : pads = 0 := Nat.eq_zero_of_not_pos hpads
            refine ⟨letters ++ [c], 0, by simp, fun x hx => ?_, ?_⟩
            · rcases List.mem_append.mp hx with hx | hx
              · exact hletters x hx
              · exact List.mem_singleton.mp hx ▸ table_lt_iff.mp hlt
            · rw [State.with_pads (afterLetters_pads {} letters)] at h
              rw [State.with_pads (afterLetters_pads {} _), afterLetters_concat]
              exact (Option.some.inj h).symm
        · split at h
          · next hskip =>
            exact absurd (isSpace_of_table c hskip) (htext c (by simp))
          · split at h
            · next hpad =>
              obtain rfl := eq_of_table_pad c hpad
              refine ⟨letters, pads + 1, ?_, hletters, (Option.some.inj h).symm⟩
              rw [List.append_assoc, ← List.replicate_succ']
            · cases h
  · rintro ⟨letters, pads, rfl, hletters, rfl⟩
    rw [List.foldlM_append, foldlM_letters rfl hletters]
    refine (foldlM_pads _ pads).trans ?_
    rw [afterLetters_pads]
    exact congrArg (fun k => some { afterLetters {} letters with pads := k }) (Nat.zero_add pads)

/-! ### What is accepted -/

theorem decode_toOption (input : List UInt8) : (decode input).toOption =
    ((input.filter fun c => ¬ IsSpace c).foldlM accept {}).bind fun st => (finish st).toOption := by
  rw [← foldlM_filter, ← loop_toOption {} 0, decode]
  cases loop {} 0 input <;> rfl

theorem finish_isSome_iff {st : State} (hn : st.n < 4) : (finish st).toOption.isSome ↔
    st.n ≠ 1 ∧ (st.pads = 0 ∨ st.pads < 4 ∧ (st.n + st.pads) % 4 = 0) := by
  rw [finish]
  simp only [Prod.mk.injEq]
  split
  · exact ⟨fun _ => by omega, fun _ => rfl⟩
  · split
    · exact ⟨fun _ => by omega, fun _ => rfl⟩
    · split
      · exact ⟨fun _ => by omega, fun _ => rfl⟩
      · have hfail : ∀ e : ImageError, (Except.error e : Except _ (List UInt8)).toOption.isSome ↔
            st.n ≠ 1 ∧ (st.pads = 0 ∨ st.pads < 4 ∧ (st.n + st.pads) % 4 = 0) := by
          intro e
          refine ⟨fun h => (by cases h), fun h => ?_⟩
          omega
        split
        · exact hfail _
        · exact hfail _

/-- After letters and padding. -/
theorem finish_afterLetters (letters : List UInt8) (pads : ℕ) :
    (finish { afterLetters {} letters with pads := pads }).toOption.isSome ↔
      letters.length % 4 ≠ 1 ∧ (pads = 0 ∨ pads < 4 ∧ (letters.length + pads) % 4 = 0) := by
  have hn := afterLetters_n letters
  have hlt : (afterLetters {} letters).n < 4 := hn ▸ Nat.mod_lt _ (by decide)
  rw [← Nat.mod_add_mod letters.length, ← hn]
  exact @finish_isSome_iff { afterLetters {} letters with pads := pads } hlt

/-- **The strings accepted.** -/
theorem decode_isSome_iff (input : List UInt8) : (decode input).toOption.isSome ↔
    WellFormed (input.filter fun c => ¬ IsSpace c) := by
  have hspace : ∀ c ∈ input.filter fun c => ¬ IsSpace c, ¬ IsSpace c := fun c hc =>
    of_decide_eq_true (List.mem_filter.mp hc).2
  rw [decode_toOption]
  constructor
  · intro h
    obtain ⟨out, hout⟩ := Option.isSome_iff_exists.mp h
    obtain ⟨st, hscan, hfinish⟩ := Option.bind_eq_some_iff.mp hout
    obtain ⟨letters, pads, htext, hletters, rfl⟩ := (scan_eq_some_iff hspace).mp hscan
    exact ⟨letters, pads, htext, hletters,
      (finish_afterLetters letters pads).mp (Option.isSome_iff_exists.mpr ⟨out, hfinish⟩)⟩
  · rintro ⟨letters, pads, htext, hletters, hok⟩
    rw [(scan_eq_some_iff hspace).mpr ⟨letters, pads, htext, hletters, rfl⟩]
    exact (finish_afterLetters letters pads).mpr hok

/-! ### Reading an encoding back -/

theorem push_acc {acc v : ℕ} (hacc : acc < 2 ^ 18) (hv : v < 64) :
    (acc <<< 6) % 2 ^ 32 ||| v = acc * 64 + v := by
  have hshift : acc <<< 6 = acc * 64 := Nat.shiftLeft_eq acc 6
  rw [hshift, Nat.mod_eq_of_lt (by omega), ← hshift, ← Nat.shiftLeft_add_eq_or_of_lt (by omega)]

/-- A letter in the middle of a quartet. -/
theorem accept_middle (url : Bool) (out : List UInt8) {acc n v : ℕ} (hacc : acc < 2 ^ 18)
    (hv : v < 64) (hn : n < 3) :
    accept ⟨out, acc, n, 0⟩ (letter url v) = some ⟨out, acc * 64 + v, n + 1, 0⟩ := by
  rw [accept_letter rfl ⟨url, v, hv, rfl⟩, table_letter url v hv, push]
  dsimp only
  rw [if_neg (by omega), UInt8.toNat_ofNat_of_lt' (show v < 256 by omega), push_acc hacc hv]

/-- The letter that ends one. -/
theorem accept_last (url : Bool) (out : List UInt8) {acc v : ℕ} (hacc : acc < 2 ^ 18)
    (hv : v < 64) :
    accept ⟨out, acc, 3, 0⟩ (letter url v) = some ⟨out ++ [UInt8.ofNat ((acc * 64 + v) / 65536),
      UInt8.ofNat ((acc * 64 + v) / 256), UInt8.ofNat (acc * 64 + v)], 0, 0, 0⟩ := by
  rw [accept_letter rfl ⟨url, v, hv, rfl⟩, table_letter url v hv, push]
  dsimp only
  rw [if_pos rfl, UInt8.toNat_ofNat_of_lt' (show v < 256 by omega), push_acc hacc hv,
    Nat.shiftRight_eq_div_pow, Nat.shiftRight_eq_div_pow]

theorem ofNat_eq {n : ℕ} {x : UInt8} (h : n % 256 = x.toNat) : UInt8.ofNat n = x := by
  refine UInt8.toNat_inj.mp ?_
  rw [UInt8.toNat_ofNat']
  exact h

theorem scan_two (url : Bool) (out : List UInt8) {a b : ℕ} (ha : a < 64) (hb : b < 64)
    (rest : List UInt8) :
    (letter url a :: letter url b :: rest).foldlM accept ⟨out, 0, 0, 0⟩ =
      rest.foldlM accept ⟨out, a * 64 + b, 2, 0⟩ := by
  rw [List.foldlM_cons, accept_middle url out (by decide) ha (by decide), Option.bind_eq_bind,
    Option.bind_some, List.foldlM_cons, accept_middle url out (by omega) hb (by decide),
    Option.bind_eq_bind, Option.bind_some, Nat.zero_mul, Nat.zero_add]

theorem scan_three (url : Bool) (out : List UInt8) {a b c : ℕ} (ha : a < 64) (hb : b < 64)
    (hc : c < 64) (rest : List UInt8) :
    (letter url a :: letter url b :: letter url c :: rest).foldlM accept ⟨out, 0, 0, 0⟩ =
      rest.foldlM accept ⟨out, (a * 64 + b) * 64 + c, 3, 0⟩ := by
  rw [scan_two url out ha hb, List.foldlM_cons, accept_middle url out (by omega) hc (by decide),
    Option.bind_eq_bind, Option.bind_some]

/-- **From a whole quartet on** an encoding yields its bytes. -/
theorem scan_encode (url padded : Bool) (bytes out : List UInt8) :
    ∃ st, (encode url padded bytes).foldlM accept ⟨out, 0, 0, 0⟩ = some st ∧
      finish st = .ok (out ++ bytes) := by
  induction bytes using encode.induct generalizing out with
  | case1 => exact ⟨_, rfl, by rw [List.append_nil]; rfl⟩
  | case2 x =>
    have hx := x.toNat_lt
    rw [encode, List.cons_append, List.cons_append, List.nil_append,
      scan_two url out (by omega) (by omega)]
    have hlast : UInt8.ofNat ((x.toNat / 4 * 64 + x.toNat % 4 * 16) >>> 4) = x :=
      ofNat_eq (by rw [Nat.shiftRight_eq_div_pow]; omega)
    cases padded with
    | false => exact ⟨_, rfl, congrArg (fun x => Except.ok (out ++ [x])) hlast⟩
    | true => exact ⟨_, rfl, congrArg (fun x => Except.ok (out ++ [x])) hlast⟩
  | case3 x y =>
    have hx := x.toNat_lt
    have hy := y.toNat_lt
    rw [encode, List.cons_append, List.cons_append, List.cons_append, List.nil_append,
      scan_three url out (by omega) (by omega) (by omega)]
    have hfirst : UInt8.ofNat (((x.toNat / 4 * 64 + (x.toNat % 4 * 16 + y.toNat / 16)) * 64 +
        y.toNat % 16 * 4) >>> 10) = x := ofNat_eq (by rw [Nat.shiftRight_eq_div_pow]; omega)
    have hlast : UInt8.ofNat (((x.toNat / 4 * 64 + (x.toNat % 4 * 16 + y.toNat / 16)) * 64 +
        y.toNat % 16 * 4) >>> 2) = y := ofNat_eq (by rw [Nat.shiftRight_eq_div_pow]; omega)
    cases padded with
    | false => exact ⟨_, rfl, congrArg₂ (fun x y => Except.ok (out ++ [x, y])) hfirst hlast⟩
    | true => exact ⟨_, rfl, congrArg₂ (fun x y => Except.ok (out ++ [x, y])) hfirst hlast⟩
  | case4 x y z bytes ih =>
    have hx := x.toNat_lt
    have hy := y.toNat_lt
    have hz := z.toNat_lt
    obtain ⟨st, hscan, hfinish⟩ := ih (out ++ [x, y, z])
    refine ⟨st, ?_, by rw [hfinish, List.append_assoc]; rfl⟩
    rw [encode, List.cons_append, List.cons_append, List.cons_append, List.cons_append,
      List.nil_append, scan_three url out (by omega) (by omega) (by omega), List.foldlM_cons,
      accept_last url out (by omega) (by omega), Option.bind_eq_bind, Option.bind_some]
    have hfirst := @ofNat_eq ((((x.toNat / 4 * 64 + (x.toNat % 4 * 16 + y.toNat / 16)) * 64 +
      (y.toNat % 16 * 4 + z.toNat / 64)) * 64 + z.toNat % 64) / 65536) x (by omega)
    have hmiddle := @ofNat_eq ((((x.toNat / 4 * 64 + (x.toNat % 4 * 16 + y.toNat / 16)) * 64 +
      (y.toNat % 16 * 4 + z.toNat / 64)) * 64 + z.toNat % 64) / 256) y (by omega)
    have hlast := @ofNat_eq (((x.toNat / 4 * 64 + (x.toNat % 4 * 16 + y.toNat / 16)) * 64 +
      (y.toNat % 16 * 4 + z.toNat / 64)) * 64 + z.toNat % 64) z (by omega)
    rw [hfirst, hmiddle, hlast]
    exact hscan

/-- **Reading back:** an encoding in either alphabet, with padding or without and with whitespace
anywhere, decodes to its bytes; and the strings accepted are, whitespace aside, letters that are
not one more than whole quartets, with no padding or what completes the last quartet. -/
theorem decode_exact :
    (∀ url padded bytes input, input.filter (fun c => ¬ IsSpace c) = encode url padded bytes →
      decode input = .ok bytes) ∧
    ∀ input, (decode input).toOption.isSome ↔ WellFormed (input.filter fun c => ¬ IsSpace c) := by
  refine ⟨fun url padded bytes input hinput => ?_, decode_isSome_iff⟩
  obtain ⟨st, hscan, hfinish⟩ := scan_encode url padded bytes []
  have hdecode := decode_toOption input
  rw [hinput, hscan, Option.bind_some, hfinish] at hdecode
  cases hd : decode input with
  | error e =>
    rw [hd] at hdecode
    cases hdecode
  | ok out =>
    rw [hd] at hdecode
    exact congrArg _ (Option.some.inj hdecode)

/-- Four bytes in the URL alphabet, without padding and over two lines. -/
theorem decode_exact_lines :
    decode [45, 95, 56, 10, 65, 13, 10, 65, 65] = .ok [251, 255, 0, 0] :=
  decode_exact.1 true false [251, 255, 0, 0] _ (by decide)

end Base64

end Image

end Mimo26

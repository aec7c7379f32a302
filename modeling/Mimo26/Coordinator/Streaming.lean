import Mimo26.Coordinator.Tokenizer
import Mimo26.Library.Search

/-!
# The streamed text

`generate_inner` sends the text of the tokens it draws as it comes, up to the first stop string
(`streaming.rs`, and the loop in `api.rs`). Text that may still become a stop string waits in
`pending`. Offsets count characters; keep-alive deltas carry no text and are left out.

What is sent is described by `IsCut`, which names no token: a text up to the first place where a
stop string begins.

## Main definitions

* `flushPending`, `generate` — one token, and a whole generation
* `Holds`, `IsCut` — a text with a stop string in it, and the text before the first
* `Sent` — what has been sent while no stop string is complete

## Main results

* `Sent.push` — one more token
* `generate_text` — the text sent in a generation
-/

namespace Mimo26

namespace Coordinator

open Api Search

/-- Where the earliest stop string begins. -/
def stopAt (stop : List Text) (text : Text) : Option ℕ :=
  stop.foldl (fun first s =>
    if s = [] then first
    else match find s text with
      | some pos => if first.all (pos < ·) then some pos else first
      | none => first) none

/-- Whether the text begins a stop string, or ends with a proper part of one. -/
def mayStop (stop : List Text) (text : Text) : Bool :=
  stop.any fun s => !s.isEmpty && ((decide (text.length < s.length) && text.isPrefixOf s) ||
    (List.range (s.length - 1)).any fun i => (s.take (i + 1)).isSuffixOf text)

/-- What to send of the pending tokens, whether a stop string was hit, and the tokens still pending.
-/
def flushPending (tok : BpeTokenizer) (stop : List Text) (pending : List UInt32) :
    Text × Bool × List UInt32 :=
  if pending = [] then ([], false, [])
  else
    let bytes := tok.decodeBytes pending
    match Utf8.fromUtf8 bytes with
    -- the end cuts a character off
    | .error none => ([], false, pending)
    | _ =>
      let text := Utf8.fromUtf8Lossy bytes
      match stopAt stop text with
      | some pos => (text.take pos, true, [])
      | none => if mayStop stop text then ([], false, pending) else (text, false, [])

inductive FinishReason where
  | stop
  | length
  deriving DecidableEq, Repr

/-- What the client was sent, and the tokens whose text waits. -/
structure StreamState where
  deltas : List Text
  pending : List UInt32
  deriving DecidableEq, Repr

structure GenerateOutcome where
  deltas : List Text
  finishReason : FinishReason
  completionTokens : ℕ
  deriving DecidableEq, Repr

/-- Send a text, if it has any characters. -/
def emitDelta (deltas : List Text) (text : Text) : List Text :=
  if text = [] then deltas else deltas ++ [text]

/-- One token that is no end token. -/
def StreamState.push (tok : BpeTokenizer) (stop : List Text) (st : StreamState) (next : UInt32) :
    StreamState × Bool :=
  let (emit, stopped, pending) := flushPending tok stop (st.pending ++ [next])
  (⟨emitDelta st.deltas emit, pending⟩, stopped)

/-- The loop of a generation: `n` tokens with the next one. Where the tokens end early, the source
failed or the client left. -/
def generateLoop (tok : BpeTokenizer) (stop : List Text) (eos : List ℕ) (max : ℕ) :
    ℕ → StreamState → List ℕ → Option (StreamState × FinishReason × ℕ)
  | _, _, [] => none
  | n, st, next :: draws =>
    if next ∈ eos then some (st, .stop, n)
    else
      let (st, stopped) := st.push tok stop (UInt32.ofNat next)
      if stopped then some (st, .stop, n)
      else if max ≤ n then some (st, .length, n)
      else generateLoop tok stop eos max (n + 1) st draws

/-- `params.max_tokens.min(65536).max(1)`. -/
def tokenLimit (maxTokens : ℕ) : ℕ := max (min maxTokens 65536) 1

/-- A generation from the tokens drawn. -/
def generate (tok : BpeTokenizer) (stop : List Text) (eos : List ℕ) (maxTokens : ℕ)
    (draws : List ℕ) :
    Option GenerateOutcome := do
  let (st, reason, n) ← generateLoop tok stop eos (tokenLimit maxTokens) 1 ⟨[], []⟩ draws
  let tail := tok.decode st.pending
  return ⟨emitDelta st.deltas tail, reason, n⟩

/-! ### Cut texts -/

/-- A stop string occurs in the text. -/
def Holds (stop : List Text) (text : Text) : Prop := ∃ s ∈ stop, s ≠ [] ∧ s <:+: text

/-- `cut` is `text` up to the first place where a stop string begins. -/
structure IsCut (stop : List Text) (text cut : Text) : Prop where
  isPrefix : cut <+: text
  clear : ∀ i < cut.length, ∀ s ∈ stop, s ≠ [] → ¬ s <+: text.drop i
  stops : (∃ s ∈ stop, s ≠ [] ∧ s <+: text.drop cut.length) ∨ cut = text ∧ ¬ Holds stop text

/-- No part of a stop string that may still grow ends the text. -/
def Settled (stop : List Text) (text : Text) : Prop :=
  ∀ s ∈ stop, ∀ q, q ≠ [] → q <+: s → q.length < s.length → ¬ q <:+ text

/-- The earliest stop string begins where one does, and none begins before. -/
theorem stopAt_spec (stop : List Text) (text : Text) :
    (∀ pos, stopAt stop text = some pos → (∃ s ∈ stop, s ≠ [] ∧ find s text = some pos) ∧
      ∀ s ∈ stop, s ≠ [] → ∀ j ∈ find s text, pos ≤ j) ∧
    (stopAt stop text = none → ∀ s ∈ stop, s ≠ [] → find s text = none) := by
  induction stop using List.reverseRecOn with
  | nil => exact ⟨fun _ h => (by cases h), fun _ s hs => absurd hs List.not_mem_nil⟩
  | append_singleton stop s ih =>
    obtain ⟨hsome, hnone⟩ := ih
    have hold : (∀ j ∈ find s text, s ≠ [] → ∃ pos, stopAt stop text = some pos ∧ pos ≤ j) →
        (∀ pos, stopAt stop text = some pos → (∃ r ∈ stop ++ [s], r ≠ [] ∧ find r text = some pos) ∧
          ∀ r ∈ stop ++ [s], r ≠ [] → ∀ j ∈ find r text, pos ≤ j) ∧
        (stopAt stop text = none → ∀ r ∈ stop ++ [s], r ≠ [] → find r text = none) := by
      intro hs
      refine ⟨fun pos hpos => ?_, fun hpos r hr hne => ?_⟩
      · obtain ⟨⟨r, hr, hne, hfind⟩, hmin⟩ := hsome pos hpos
        refine ⟨⟨r, List.mem_append_left _ hr, hne, hfind⟩, fun r' hr' hne' j hj => ?_⟩
        rcases List.mem_append.mp hr' with hmem | hmem
        · exact hmin r' hmem hne' j hj
        · obtain rfl := List.mem_singleton.mp hmem
          obtain ⟨pos', hpos', hle⟩ := hs j hj hne'
          obtain rfl := Option.some.inj (hpos.symm.trans hpos')
          exact hle
      · rcases List.mem_append.mp hr with hmem | hmem
        · exact hnone hpos r hmem hne
        · obtain rfl := List.mem_singleton.mp hmem
          refine Option.eq_none_iff_forall_not_mem.mpr fun j hj => ?_
          obtain ⟨pos, hpos', -⟩ := hs j hj hne
          exact absurd (hpos.symm.trans hpos') (by simp)
    rw [stopAt, List.foldl_append, ← stopAt, List.foldl_cons, List.foldl_nil]
    split
    · next hempty => exact hold fun j _ hne => absurd hempty hne
    · next hne =>
      cases hfind : find s text with
      | none => exact hold fun j hj => absurd (hfind ▸ hj) (by simp)
      | some at' =>
        dsimp only
        split
        · next hless =>
          refine ⟨fun pos hpos => ?_, fun h => by cases h⟩
          obtain rfl := Option.some.inj hpos
          refine ⟨⟨s, by simp, hne, hfind⟩, fun r hr hne' j hj => ?_⟩
          rcases List.mem_append.mp hr with hmem | hmem
          · cases hbest : stopAt stop text with
            | none => exact absurd ((hnone hbest r hmem hne') ▸ hj) (by simp)
            | some pos' =>
              rw [hbest] at hless
              exact (of_decide_eq_true hless).le.trans ((hsome pos' hbest).2 r hmem hne' j hj)
          · rw [List.mem_singleton.mp hmem, hfind] at hj
            exact (Option.some.inj hj).le
        · next hless =>
          refine hold fun j hj _ => ?_
          rw [hfind] at hj
          obtain rfl := Option.some.inj hj
          cases hbest : stopAt stop text with
          | none => simp [hbest] at hless
          | some pos' =>
            rw [hbest] at hless
            exact ⟨pos', rfl, by simpa using hless⟩

theorem not_holds_of_stopAt {stop : List Text} {text : Text} (h : stopAt stop text = none) :
    ¬ Holds stop text := by
  rintro ⟨s, hs, hne, hin⟩
  exact (find_eq_none hne).mp ((stopAt_spec stop text).2 h s hs hne) hin

theorem isCut_of_stopAt {stop : List Text} {text : Text} {pos : ℕ}
    (h : stopAt stop text = some pos) :
    IsCut stop text (text.take pos) ∧ Holds stop text := by
  obtain ⟨⟨s, hs, hne, hfind⟩, hmin⟩ := (stopAt_spec stop text).1 pos h
  have hle := find_le hne hfind
  have hlen : (text.take pos).length = pos := by
    rw [List.length_take]
    omega
  have hat : s <+: text.drop pos := by
    obtain ⟨head, t, rfl, rfl, -⟩ := exists_of_find hne hfind
    rw [List.drop_left]
    exact List.prefix_append s t
  refine ⟨⟨List.take_prefix pos text, fun i hi r hr hner hbegin =>
    ?_, .inl ⟨s, hs, hne, by rwa [hlen]⟩⟩,
    s, hs, hne, hat.isInfix.trans (List.drop_suffix pos text).isInfix⟩
  rw [hlen] at hi
  obtain ⟨j, hj, hji⟩ := exists_find_le hbegin
  exact absurd (hmin r hr hner j hj) (Nat.not_le.mpr (Nat.lt_of_le_of_lt hji hi))

/-- A text in which `mayStop` finds no part of a stop string is settled. -/
theorem settled_of_mayStop {stop : List Text} {text : Text} (h : mayStop stop text = false) :
    Settled stop text := by
  intro s hs q hq hbegin hlt hsuffix
  have hpos := List.length_pos_of_ne_nil hq
  have hnot := List.any_eq_false.mp h s hs
  have hs' : s ≠ [] := by
    rintro rfl
    exact absurd hlt (Nat.not_lt_zero _)
  have hany : (List.range (s.length - 1)).any (fun i => (s.take (i + 1)).isSuffixOf text) =
      true := by
    refine List.any_eq_true.mpr ⟨q.length - 1, List.mem_range.mpr (by omega), ?_⟩
    rw [show q.length - 1 + 1 = q.length by omega, ← List.prefix_iff_eq_take.mp hbegin]
    exact List.isSuffixOf_iff_suffix.mpr hsuffix
  simp [hs', hany] at hnot

/-! ### Growing texts -/

section grow

variable {stop : List Text} {sent text : Text} (hclear : ¬ Holds stop sent)
  (hsettled : Settled stop sent)
include hclear hsettled

/-- A stop string that begins in what was sent ends there. -/
theorem not_begins_sent {i : ℕ} (hi : i < sent.length) {s : Text} (hs : s ∈ stop) (hne : s ≠ []) :
    ¬ s <+: (sent ++ text).drop i := by
  intro h
  obtain ⟨q, hq, hbegin, hlt, hsuffix⟩ :=
    exists_part_of_begins (fun hin => hclear ⟨s, hs, hne, hin⟩) h hi
  exact hsettled s hs q hq hbegin hlt hsuffix

theorem not_holds_append (h : ¬ Holds stop text) : ¬ Holds stop (sent ++ text) := by
  rintro ⟨s, hs, hne, hin⟩
  refine not_infix_append (fun i hi => ?_) (fun hin => h ⟨s, hs, hne, hin⟩) hin
  exact not_begins_sent hclear hsettled hi hs hne

theorem isCut_append {cut : Text} (h : IsCut stop text cut) (hholds : Holds stop text) :
    IsCut stop (sent ++ text) (sent ++ cut) := by
  refine ⟨(List.prefix_append_right_inj sent).mpr h.isPrefix, fun i hi s hs hne => ?_, ?_⟩
  · by_cases hin : i < sent.length
    · exact not_begins_sent hclear hsettled hin hs hne
    · rw [List.drop_append, List.drop_eq_nil_of_le (Nat.not_lt.mp hin), List.nil_append]
      refine h.clear _ ?_ s hs hne
      rw [List.length_append] at hi
      omega
  · rcases h.stops with ⟨s, hs, hne, hat⟩ | ⟨-, hnot⟩
    · refine .inl ⟨s, hs, hne, ?_⟩
      rwa [List.length_append, List.drop_length_add_append]
    · exact absurd hholds hnot

omit hclear in
theorem settled_append (h : Settled stop text) : Settled stop (sent ++ text) := by
  rintro s hs q hq hbegin hlt ⟨pre, hpre⟩
  rcases List.append_eq_append_iff.mp hpre with ⟨r, hsent, hqr⟩ | ⟨c, -, htext⟩
  · by_cases hr : r = []
    · rw [hr, List.nil_append] at hqr
      exact h s hs q hq hbegin hlt (hqr ▸ List.suffix_rfl)
    · -- the part begins in what was sent
      have hrq : r <+: q := ⟨text, hqr.symm⟩
      exact hsettled s hs r hr (hrq.trans hbegin) (hrq.length_le.trans_lt hlt) ⟨pre, hsent.symm⟩
  · exact h s hs q hq hbegin hlt ⟨c, htext.symm⟩

end grow

/-! ### Tokens of whole characters -/

/-- Every token is decoded to whole characters. -/
def WholeChars (tok : BpeTokenizer) (ids : List UInt32) : Prop :=
  ∀ id ∈ ids, ∃ text, tok.decodeBytes [id] = Utf8.encode text

section whole

variable {tok : BpeTokenizer} {ids ids' : List UInt32}

theorem WholeChars.decodeBytes (h : WholeChars tok ids) :
    tok.decodeBytes ids = Utf8.encode (tok.decode ids) := by
  have hsome : ∃ text, tok.decodeBytes ids = Utf8.encode text := by
    induction ids with
    | nil => exact ⟨[], rfl⟩
    | cons id ids ih =>
      obtain ⟨text, htext⟩ := h id List.mem_cons_self
      obtain ⟨rest, hrest⟩ := ih fun id' hid' => h id' (List.mem_cons_of_mem id hid')
      refine ⟨text ++ rest, ?_⟩
      rw [Utf8.encode_append, ← htext, ← hrest]
      simp [BpeTokenizer.decodeBytes]
  obtain ⟨text, htext⟩ := hsome
  rw [BpeTokenizer.decode, htext, Utf8.fromUtf8Lossy_encode]

theorem WholeChars.append (h : WholeChars tok ids) (h' : WholeChars tok ids') :
    WholeChars tok (ids ++ ids') := by
  intro id hid
  rcases List.mem_append.mp hid with hmem | hmem
  · exact h id hmem
  · exact h' id hmem

theorem WholeChars.decode_append (h : WholeChars tok ids) (h' : WholeChars tok ids') :
    tok.decode (ids ++ ids') = tok.decode ids ++ tok.decode ids' := by
  rw [BpeTokenizer.decode, BpeTokenizer.decodeBytes, List.flatMap_append,
    ← BpeTokenizer.decodeBytes,
    ← BpeTokenizer.decodeBytes, h.decodeBytes, h'.decodeBytes, ← Utf8.encode_append,
      Utf8.fromUtf8Lossy_encode]

theorem decode_nil (tok : BpeTokenizer) : tok.decode [] = [] := Utf8.fromUtf8Lossy_encode []

/-- One flush, in terms of the text. -/
theorem flushPending_eq (stop : List Text) {text : Text} (h : tok.decodeBytes ids =
    Utf8.encode text)
    (hne : ids ≠ []) : flushPending tok stop ids = match stopAt stop text with
      | some pos => (text.take pos, true, [])
      | none => if mayStop stop text then ([], false, ids) else (text, false, []) := by
  rw [flushPending, if_neg hne]
  simp only [h, Utf8.fromUtf8_encode, Utf8.fromUtf8Lossy_encode]

end whole

/-! ### A generation -/

theorem flatten_emitDelta (deltas : List Text) (text : Text) :
    (emitDelta deltas text).flatten = deltas.flatten ++ text := by
  rw [emitDelta]
  split
  · next h => rw [h, List.append_nil]
  · rw [List.flatten_append, List.flatten_singleton]

/-- While no stop string is complete: what was sent and what is pending make up the text of the
tokens, and what was sent ends with no part of a stop string. -/
structure Sent (tok : BpeTokenizer) (stop : List Text) (st : StreamState) (ids : List UInt32) :
    Prop where
  whole : WholeChars tok st.pending
  text : tok.decode ids = st.deltas.flatten ++ tok.decode st.pending
  clear : ¬ Holds stop (tok.decode ids)
  settled : Settled stop st.deltas.flatten

theorem sent_nil (tok : BpeTokenizer) (stop : List Text) : Sent tok stop ⟨[], []⟩ [] where
  whole := nofun
  text := rfl
  clear := by
    rintro ⟨s, -, hne, hin⟩
    rw [decode_nil] at hin
    exact hne (List.infix_nil.mp hin)
  settled := by
    intro s _ q hq _ _ hsuffix
    exact hq (List.suffix_nil.mp hsuffix)

section push

variable {tok : BpeTokenizer} {stop : List Text} {st : StreamState} {ids : List UInt32}

/-- **One more token**: either no stop string is complete, or what was sent is cut at the first. -/
theorem Sent.push (h : Sent tok stop st ids) (hids : WholeChars tok ids) {next : UInt32}
    (hnext : WholeChars tok [next]) :
    ((st.push tok stop next).2 = false → Sent tok stop (st.push tok stop next).1 (ids ++ [next])) ∧
    ((st.push tok stop next).2 = true → (st.push tok stop next).1.pending = [] ∧
      Holds stop (tok.decode (ids ++ [next])) ∧
      IsCut stop (tok.decode (ids ++ [next])) (st.push tok stop next).1.deltas.flatten) := by
  have hwhole := h.whole.append hnext
  have hclear : ¬ Holds stop st.deltas.flatten := by
    rintro ⟨s, hs, hne, hin⟩
    refine h.clear ⟨s, hs, hne, ?_⟩
    rw [h.text]
    exact hin.trans (List.prefix_append _ _).isInfix
  have htext : tok.decode (ids ++ [next]) = st.deltas.flatten ++
      tok.decode (st.pending ++ [next]) := by
    rw [hids.decode_append hnext, h.text, h.whole.decode_append hnext, List.append_assoc]
  rw [StreamState.push, flushPending_eq stop hwhole.decodeBytes (by simp)]
  cases hstop : stopAt stop (tok.decode (st.pending ++ [next])) with
  | some pos =>
    obtain ⟨hcut, hholds⟩ := isCut_of_stopAt hstop
    refine ⟨nofun, fun _ => ⟨rfl, ?_, ?_⟩⟩
    · obtain ⟨s, hs, hne, hin⟩ := hholds
      rw [htext]
      exact ⟨s, hs, hne, hin.trans (List.suffix_append _ _).isInfix⟩
    · dsimp only
      rw [htext, flatten_emitDelta]
      exact isCut_append hclear h.settled hcut hholds
  | none =>
    have hnot := not_holds_append hclear h.settled (not_holds_of_stopAt hstop)
    rw [← htext] at hnot
    dsimp only
    split
    · exact ⟨fun _ => ⟨hwhole, htext, hnot, h.settled⟩, nofun⟩
    · next hmay =>
      refine ⟨fun _ => ⟨nofun, ?_, hnot, ?_⟩, nofun⟩
      · dsimp only
        rw [htext, flatten_emitDelta, decode_nil, List.append_nil]
      · dsimp only
        rw [flatten_emitDelta]
        exact settled_append h.settled (settled_of_mayStop (by simpa using hmay))

end push

/-- The tokens up to the end point: an end token, or the limit. -/
def tokensTo (eos : List ℕ) (max : ℕ) (draws : List ℕ) : List UInt32 :=
  ((draws.take max).takeWhile fun next => decide (next ∉ eos)).map UInt32.ofNat

/-- The tokens streamed: all up to the end point, or those up to the first that completes a stop
string. -/
structure UpToStop (tok : BpeTokenizer) (stop : List Text) (ids ids' : List UInt32) : Prop where
  isPrefix : ids' <+: ids
  clear : ∀ j < ids'.length, ¬ Holds stop (tok.decode (ids'.take j))
  stops : ids' = ids ∨ Holds stop (tok.decode ids')

section loop

variable {tok : BpeTokenizer} {stop : List Text} {eos : List ℕ} {max n : ℕ} {st st' : StreamState}
  {ids : List UInt32} {draws : List ℕ} {reason : FinishReason} {m : ℕ}

theorem tokensTo_cons_eos {next : ℕ} (hnext : next ∈ eos) :
    tokensTo eos max (next :: draws) = [] := by
  cases max with
  | zero => rfl
  | succ max => simp [tokensTo, hnext]

theorem tokensTo_cons {next : ℕ} (hnext : next ∉ eos) :
    tokensTo eos (max + 1) (next :: draws) = UInt32.ofNat next :: tokensTo eos max draws := by
  simp [tokensTo, hnext]

/-- **The loop**, after the tokens `ids`. -/
theorem generateLoop_spec (h : Sent tok stop st ids) (hids : WholeChars tok ids)
    (hdraws : ∀ next ∈ draws, next ∉ eos → WholeChars tok [UInt32.ofNat next]) (hn : n ≤ max)
    (hloop : generateLoop tok stop eos max n st draws = some (st', reason, m)) :
    ∃ new, new <+: tokensTo eos (max + 1 - n) draws ∧
      (∀ j < new.length, ¬ Holds stop (tok.decode (ids ++ new.take j))) ∧
      (new = tokensTo eos (max + 1 - n) draws ∧ Sent tok stop st' (ids ++ new) ∨
        st'.pending = [] ∧ Holds stop (tok.decode (ids ++ new)) ∧
          IsCut stop (tok.decode (ids ++ new)) st'.deltas.flatten) := by
  induction draws generalizing n st ids with
  | nil => exact absurd hloop (by simp [generateLoop])
  | cons next draws ih =>
    obtain ⟨left, hleft⟩ : ∃ left, max + 1 - n = left + 1 := ⟨max - n, by omega⟩
    rw [generateLoop] at hloop
    split at hloop
    · next hmem =>
      obtain ⟨rfl, -⟩ := Prod.mk.inj (Option.some.inj hloop)
      refine ⟨[], List.nil_prefix, nofun, .inl ⟨(tokensTo_cons_eos hmem).symm, ?_⟩⟩
      rwa [List.append_nil]
    · next hmem =>
      have hnext := hdraws next List.mem_cons_self hmem
      obtain ⟨hgo, hstop⟩ := h.push hids hnext
      have hone : ∀ j < [UInt32.ofNat next].length,
          ¬ Holds stop (tok.decode (ids ++ [UInt32.ofNat next].take j)) := by
        intro j hj
        obtain rfl : j = 0 := Nat.lt_one_iff.mp hj
        rw [List.take_zero, List.append_nil]
        exact h.clear
      rw [hleft, tokensTo_cons hmem]
      dsimp only at hloop
      split at hloop
      · next hstopped =>
        obtain ⟨rfl, -⟩ := Prod.mk.inj (Option.some.inj hloop)
        refine ⟨[UInt32.ofNat next], ?_, hone, .inr (hstop hstopped)⟩
        exact List.cons_prefix_cons.mpr ⟨rfl, List.nil_prefix⟩
      · next hstopped =>
        have hsent := hgo (by simpa using hstopped)
        split at hloop
        · next hmax =>
          obtain ⟨rfl, -⟩ := Prod.mk.inj (Option.some.inj hloop)
          have hrest : tokensTo eos left draws = [] := by
            obtain rfl : left = 0 := by omega
            rfl
          rw [hrest]
          exact ⟨[UInt32.ofNat next], List.prefix_rfl, hone, .inl ⟨rfl, hsent⟩⟩
        · next hmax =>
          obtain ⟨new, hpre, hclear, hend⟩ := ih hsent (hids.append hnext)
            (fun t ht => hdraws t (List.mem_cons_of_mem next ht)) (by omega) hloop
          rw [show max + 1 - (n + 1) = left by omega] at hpre hend
          simp only [List.append_assoc, List.singleton_append] at hclear hend
          refine ⟨UInt32.ofNat next :: new, List.cons_prefix_cons.mpr ⟨rfl, hpre⟩, fun j hj =>
            ?_, ?_⟩
          · cases j with
            | zero => exact hone 0 (by simp)
            | succ j => exact hclear j (Nat.lt_of_succ_lt_succ hj)
          · rcases hend with ⟨heq, hsent⟩ | hcut
            · exact .inl ⟨by rw [heq], hsent⟩
            · exact .inr hcut

/-- The loop ends with the limit's or an end token. -/
theorem isSome_generateLoop (h : max + 1 ≤ n + draws.length ∨ ∃ next ∈ draws, next ∈ eos)
    (hn : n ≤ max) :
    (generateLoop tok stop eos max n st draws).isSome := by
  induction draws generalizing n st with
  | nil =>
    rcases h with hlen | ⟨next, hmem, -⟩
    · rw [List.length_nil] at hlen
      omega
    · exact absurd hmem List.not_mem_nil
  | cons next draws ih =>
    rw [generateLoop]
    split
    · rfl
    · next hnext =>
      dsimp only
      split
      · rfl
      · split
        · rfl
        · refine ih ?_ (by omega)
          rcases h with hlen | ⟨next', hmem, heos⟩
          · rw [List.length_cons] at hlen
            exact .inl (by omega)
          · rcases List.mem_cons.mp hmem with rfl | hmem
            · exact absurd heos hnext
            · exact .inr ⟨next', hmem, heos⟩

end loop

/-- **The text sent.** In a generation whose tokens are decoded to whole characters, the text of the
tokens up to the end point or to the first that completes a stop string is sent, cut at the first
stop string in it. With tokens up to the limit, or to an end token, a generation ends. -/
theorem generate_text (tok : BpeTokenizer) (stop : List Text) (eos : List ℕ) (maxTokens : ℕ)
    (draws : List ℕ)
    (hdraws : ∀ next ∈ draws, next ∉ eos → WholeChars tok [UInt32.ofNat next]) :
    (tokenLimit maxTokens ≤ draws.length ∨ (∃ next ∈ draws, next ∈ eos) →
      ∃ out, generate tok stop eos maxTokens draws = some out) ∧
    ∀ out, generate tok stop eos maxTokens draws = some out →
      ∃ ids, UpToStop tok stop (tokensTo eos (tokenLimit maxTokens) draws) ids ∧
        IsCut stop (tok.decode ids) out.deltas.flatten := by
  have hlimit : 1 ≤ tokenLimit maxTokens := le_max_right _ _
  constructor
  · intro h
    have hsome : (generateLoop tok stop eos (tokenLimit maxTokens) 1 ⟨[], []⟩ draws).isSome :=
      isSome_generateLoop (h.imp_left fun hlen => by omega) hlimit
    obtain ⟨r, hr⟩ := Option.isSome_iff_exists.mp hsome
    exact ⟨_, by rw [generate, hr]; rfl⟩
  · intro out hout
    rw [generate, Option.bind_eq_bind, Option.bind_eq_some_iff] at hout
    obtain ⟨⟨st, reason, m⟩, hloop, hout⟩ := hout
    obtain rfl := Option.some.inj hout
    obtain ⟨new, hpre, hclear, hend⟩ :=
      generateLoop_spec (sent_nil tok stop) nofun hdraws hlimit hloop
    rw [Nat.add_sub_cancel] at hpre hend
    simp only [List.nil_append] at hclear hend
    refine ⟨new, ⟨hpre, hclear, ?_⟩, ?_⟩
    · rcases hend with ⟨heq, -⟩ | ⟨-, hholds, -⟩
      · exact .inl heq
      · exact .inr hholds
    · dsimp only
      rw [flatten_emitDelta]
      rcases hend with ⟨-, hsent⟩ | ⟨hpending, -, hcut⟩
      · rw [← hsent.text]
        exact ⟨List.prefix_rfl, fun i _ s hs hne hat => hsent.clear
          ⟨s, hs, hne, hat.isInfix.trans (List.drop_suffix i _).isInfix⟩, .inr ⟨rfl, hsent.clear⟩⟩
      · rwa [hpending, decode_nil, List.append_nil]

/-- A tokenizer of four letters. -/
def abcTok : BpeTokenizer :=
  .fromParts [] [] [⟨['a'], 0, false⟩, ⟨['b'], 1, false⟩, ⟨['c'], 2, false⟩, ⟨['d'], 3, false⟩]

theorem wholeChars_abcTok : ∀ next ∈ [0, 1, 2, 3], WholeChars abcTok [UInt32.ofNat next] := by
  intro next hnext id hid
  obtain rfl := List.mem_singleton.mp hid
  simp only [List.mem_cons, List.not_mem_nil, or_false] at hnext
  rcases hnext with rfl | rfl | rfl | rfl
  · exact ⟨['a'], rfl⟩
  · exact ⟨['b'], rfl⟩
  · exact ⟨['c'], rfl⟩
  · exact ⟨['d'], rfl⟩

theorem generate_text_abc :
    (∃ out, generate abcTok ["bd".toList, "cd".toList] [7] 9 [0, 1, 2, 3, 7] = some out) ∧
    ∀ out, generate abcTok ["bd".toList, "cd".toList] [7] 9 [0, 1, 2, 3, 7] = some out →
      ∃ ids, UpToStop abcTok ["bd".toList, "cd".toList]
        (tokensTo [7] (tokenLimit 9) [0, 1, 2, 3, 7]) ids ∧
        IsCut ["bd".toList, "cd".toList] (abcTok.decode ids) out.deltas.flatten := by
  have htext := generate_text abcTok ["bd".toList, "cd".toList] [7] 9 [0, 1, 2, 3, 7] (by
    intro next hnext heos
    refine wholeChars_abcTok next ?_
    simp only [List.mem_cons, List.not_mem_nil, or_false] at hnext heos ⊢
    tauto)
  exact ⟨htext.1 (.inr ⟨7, by simp, by simp⟩), htext.2⟩

/-- A stop string that is complete hides one that began before it and is not; and the empty string
stops nothing. -/
theorem not_generate_text_overlap :
    (∃ out, generate abcTok [['b', 'c'], ['a', 'b', 'c', 'd']] [] 4 [0, 1, 2, 3] = some out ∧
      ¬ IsCut [['b', 'c'], ['a', 'b', 'c', 'd']]
        (abcTok.decode (tokensTo [] (tokenLimit 4) [0, 1, 2, 3]))
        out.deltas.flatten) ∧
    ∃ out, generate abcTok [[]] [] 1 [0] = some out ∧ out.deltas.flatten ≠ [] := by
  have ha : flushPending abcTok [['b', 'c'], ['a', 'b', 'c', 'd']] [0] = ([], false, [0]) := by
    rw [flushPending_eq _ (show abcTok.decodeBytes [0] = Utf8.encode ['a'] from rfl) (by simp)]
    decide
  have hab : flushPending abcTok [['b', 'c'], ['a', 'b', 'c', 'd']] [0, 1] =
      ([], false, [0, 1]) := by
    rw [flushPending_eq _ (show abcTok.decodeBytes [0, 1] = Utf8.encode ['a', 'b'] from rfl)
      (by simp)]
    decide
  have habc : flushPending abcTok [['b', 'c'], ['a', 'b', 'c', 'd']] [0, 1, 2] =
      (['a'], true, []) := by
    rw [flushPending_eq _ (show abcTok.decodeBytes [0, 1, 2] = Utf8.encode ['a', 'b', 'c'] from rfl)
      (by simp)]
    decide
  have hempty : flushPending abcTok [[]] [0] = (['a'], false, []) := by
    rw [flushPending_eq _ (show abcTok.decodeBytes [0] = Utf8.encode ['a'] from rfl) (by simp)]
    decide
  have hall : abcTok.decode (tokensTo [] (tokenLimit 4) [0, 1, 2, 3]) = ['a', 'b', 'c', 'd'] :=
    Utf8.fromUtf8Lossy_encode ['a', 'b', 'c', 'd']
  constructor
  · refine ⟨⟨[['a']], .stop, 3⟩, ?_, fun hcut => ?_⟩
    · simp [generate, generateLoop, StreamState.push, ha, hab, habc, emitDelta, decode_nil,
        tokenLimit]
    · rw [hall] at hcut
      exact hcut.clear 0 (by decide) ['a', 'b', 'c', 'd'] (by simp) (by decide) (by decide)
  · refine ⟨⟨[['a']], .length, 1⟩, ?_, by decide⟩
    simp [generate, generateLoop, StreamState.push, hempty, emitDelta, decode_nil, tokenLimit]

end Coordinator

end Mimo26

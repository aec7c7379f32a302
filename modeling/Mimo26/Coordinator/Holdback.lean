import Mimo26.Coordinator.Streaming
import Mimo26.Library.Utf8Tail

/-!
# Characters across tokens

A token's bytes may end inside a character. `flush_pending` waits for the rest where the pending
bytes are whole characters up to there, and only there: bytes with an error are sent as they are,
and if they also end inside a character, it comes apart.

## Main definitions

* `Severs` — a character comes apart
* `streamText` — the text sent of tokens, if there are no stop strings

## Main results

* `streamText_eq_iff` — it is the text of all tokens exactly if no character comes apart
* `generate_holdback` — so is the text of a generation
-/

namespace Mimo26

namespace Coordinator

open Api Utf8

variable (tok : BpeTokenizer)

/-- The bytes are whole characters up to one that is not complete. -/
def Held (bytes : List UInt8) : Prop := fromUtf8 bytes = .error none

instance (bytes : List UInt8) : Decidable (Held bytes) :=
  match h : fromUtf8 bytes with
  | .error none => .isTrue h
  | .error (some n) => .isFalse fun h' => by cases h.symm.trans h'
  | .ok cs => .isFalse fun h' => by cases h.symm.trans h'

/-- Tokens are sent whose bytes end inside a character that the next byte goes on with. -/
def Severs : List UInt32 → List UInt32 → Prop
  | _, [] => False
  | pending, next :: ids =>
    let bytes := tok.decodeBytes (pending ++ [next])
    if Held bytes then Severs (pending ++ [next]) ids
    else (∃ x, (tok.decodeBytes ids).head? = some x ∧ follows (cutTail bytes) x) ∨ Severs [] ids

/-- The text sent of the tokens, after those pending. -/
def streamText : List UInt32 → List UInt32 → Text
  | pending, [] => tok.decode pending
  | pending, next :: ids =>
    if Held (tok.decodeBytes (pending ++ [next])) then streamText (pending ++ [next]) ids
    else tok.decode (pending ++ [next]) ++ streamText [] ids

variable {tok} {pending ids : List UInt32}

theorem decodeBytes_append' (a b : List UInt32) :
    tok.decodeBytes (a ++ b) = tok.decodeBytes a ++ tok.decodeBytes b :=
  List.flatMap_append

theorem streamText_of_not_severs (h : ¬ Severs tok pending ids) :
    streamText tok pending ids = tok.decode (pending ++ ids) := by
  induction ids generalizing pending with
  | nil => rw [streamText, List.append_nil]
  | cons next ids ih =>
    have hids : pending ++ next :: ids = pending ++ [next] ++ ids := by simp
    rw [Severs] at h
    rw [streamText, hids]
    split
    · next hheld =>
      rw [if_pos hheld] at h
      exact ih h
    · next hheld =>
      rw [if_neg hheld, not_or, not_exists] at h
      rw [ih h.2, List.nil_append, BpeTokenizer.decode, BpeTokenizer.decode, BpeTokenizer.decode,
        decodeBytes_append' _ ids, fromUtf8Lossy_append]
      intro x hx
      exact Bool.eq_false_iff.mpr fun hfollows => h.1 x ⟨hx, hfollows⟩

/-- What is sent is no shorter than the text, and longer if a character comes apart. -/
theorem length_streamText :
    (tok.decode (pending ++ ids)).length ≤ (streamText tok pending ids).length ∧
      (Severs tok pending ids →
        (tok.decode (pending ++ ids)).length < (streamText tok pending ids).length) := by
  induction ids generalizing pending with
  | nil =>
    rw [streamText, List.append_nil]
    exact ⟨Nat.le_refl _, fun h => by cases h⟩
  | cons next ids ih =>
    have hids : pending ++ next :: ids = pending ++ [next] ++ ids := by simp
    rw [Severs, streamText, hids]
    split
    · exact ih
    · obtain ⟨hle, hlt⟩ := @ih []
      rw [List.nil_append] at hle hlt
      have hpieces := length_fromUtf8Lossy_append_le (tok.decodeBytes (pending ++ [next]))
        (tok.decodeBytes ids)
      rw [List.length_append, BpeTokenizer.decode, decodeBytes_append' _ ids]
      refine ⟨hpieces.trans (Nat.add_le_add_left hle _), ?_⟩
      rintro (⟨x, hx, hfollows⟩ | hsevers)
      · obtain ⟨rest, hrest⟩ := List.head?_eq_some_iff.mp hx
        have hless := length_fromUtf8Lossy_append_lt (b := rest) hfollows
        rw [← hrest] at hless
        exact Nat.lt_of_lt_of_le hless (Nat.add_le_add_left hle _)
      · exact Nat.lt_of_le_of_lt hpieces (Nat.add_lt_add_left (hlt hsevers) _)

/-- **The text sent is that of all tokens** exactly if no character comes apart. -/
theorem streamText_eq_iff :
    streamText tok pending ids = tok.decode (pending ++ ids) ↔ ¬ Severs tok pending ids := by
  refine ⟨fun heq hsevers => ?_, streamText_of_not_severs⟩
  have hlt := length_streamText.2 hsevers
  rw [heq] at hlt
  exact Nat.lt_irrefl _ hlt

/-- No character comes apart of tokens that make up whole characters, the last one perhaps not
complete. -/
theorem not_severs_of_whole
    (h : ∀ n, fromUtf8 (tok.decodeBytes (pending ++ ids)) ≠ .error (some n)) :
    ¬ Severs tok pending ids := by
  induction ids generalizing pending with
  | nil => exact id
  | cons next ids ih =>
    have hids : pending ++ next :: ids = pending ++ [next] ++ ids := by simp
    rw [hids] at h
    rw [Severs]
    split
    · exact ih h
    · next hheld =>
      rw [decodeBytes_append'] at h
      cases hbytes : fromUtf8 (tok.decodeBytes (pending ++ [next])) with
      | error e =>
        cases e with
        | none => exact absurd hbytes hheld
        | some n => exact absurd (fromUtf8_append_of_error hbytes _) (h n)
      | ok cs =>
        obtain ⟨htail, hrest⟩ := fromUtf8_append_of_ok hbytes (tok.decodeBytes ids)
        rw [hrest] at h
        rintro (⟨x, -, hfollows⟩ | hsevers)
        · rw [htail] at hfollows
          cases hfollows
        · refine @ih [] (fun n hn => h n ?_) hsevers
          rw [List.nil_append] at hn
          rw [hn]
          rfl

/-! ### Generations -/

theorem push_nil (st : StreamState) (next : UInt32) :
    st.push tok [] next =
      if Held (tok.decodeBytes (st.pending ++ [next])) then
        (⟨st.deltas, st.pending ++ [next]⟩, false)
      else (⟨emitDelta st.deltas (tok.decode (st.pending ++ [next])), []⟩, false) := by
  have hne : st.pending ++ [next] ≠ [] :=
      List.append_ne_nil_of_right_ne_nil _ (List.cons_ne_nil _ _)
  have hstop (text : Text) : stopAt [] text = none := rfl
  have hmay (text : Text) : mayStop [] text = false := rfl
  rw [StreamState.push, flushPending, if_neg hne]
  cases hbytes : fromUtf8 (tok.decodeBytes (st.pending ++ [next])) with
  | ok cs =>
    rw [if_neg fun h => by cases hbytes.symm.trans h]
    simp only [hbytes, hstop, hmay]
    rfl
  | error e =>
    cases e with
    | none =>
      have hheld : Held (tok.decodeBytes (st.pending ++ [next])) := hbytes
      rw [if_pos hheld]
      simp only [hbytes]
      rfl
    | some n =>
      rw [if_neg fun h => by cases hbytes.symm.trans h]
      simp only [hbytes, hstop, hmay]
      rfl

section loop

variable {eos : List ℕ} {max n m : ℕ} {st st' : StreamState} {draws : List ℕ}
  {reason : FinishReason}

/-- **The loop** without stop strings: what was sent and is pending make up the streamed text. -/
theorem generateLoop_streamText (hn : n ≤ max)
    (hloop : generateLoop tok [] eos max n st draws = some (st', reason, m)) :
    st'.deltas.flatten ++ tok.decode st'.pending =
      st.deltas.flatten ++ streamText tok st.pending (tokensTo eos (max + 1 - n) draws) := by
  induction draws generalizing n st with
  | nil => exact absurd hloop (by simp [generateLoop])
  | cons next draws ih =>
    obtain ⟨left, hleft⟩ : ∃ left, max + 1 - n = left + 1 := ⟨max - n, by omega⟩
    rw [generateLoop] at hloop
    split at hloop
    · next hmem =>
      obtain ⟨rfl, -⟩ := Prod.mk.inj (Option.some.inj hloop)
      rw [tokensTo_cons_eos hmem, streamText]
    · next hmem =>
      rw [hleft, tokensTo_cons hmem, streamText]
      rw [push_nil] at hloop
      have hgo (stNext : StreamState)
          (hloop : (if max ≤ n then some (stNext, FinishReason.length, n)
          else generateLoop tok [] eos max (n + 1) stNext draws) = some (st', reason, m)) :
          st'.deltas.flatten ++ tok.decode st'.pending =
            stNext.deltas.flatten ++ streamText tok stNext.pending (tokensTo eos left draws) := by
        split at hloop
        · next hmax =>
          obtain ⟨rfl, -⟩ := Prod.mk.inj (Option.some.inj hloop)
          obtain rfl : left = 0 := by omega
          rfl
        · next hmax =>
          rw [ih (by omega) hloop, show max + 1 - (n + 1) = left by omega]
      by_cases hheld : Held (tok.decodeBytes (st.pending ++ [UInt32.ofNat next]))
      · rw [if_pos hheld] at hloop ⊢
        exact hgo _ hloop
      · rw [if_neg hheld] at hloop ⊢
        rw [hgo _ hloop, flatten_emitDelta, List.append_assoc]

end loop

/-- **The holdback.** Without stop strings, the text sent in a generation is that of all its tokens
exactly if no character comes apart; it is never shorter; and tokens that make up whole characters
have none that comes apart. -/
theorem generate_holdback {eos : List ℕ} {maxTokens : ℕ} {draws : List ℕ} {out : GenerateOutcome}
    (hout : generate tok [] eos maxTokens draws = some out) :
    (out.deltas.flatten = tok.decode (tokensTo eos (tokenLimit maxTokens) draws) ↔
      ¬ Severs tok [] (tokensTo eos (tokenLimit maxTokens) draws)) ∧
    (tok.decode (tokensTo eos (tokenLimit maxTokens) draws)).length ≤ out.deltas.flatten.length ∧
    ((∀ n, fromUtf8 (tok.decodeBytes (tokensTo eos (tokenLimit maxTokens) draws)) ≠
      .error (some n)) → ¬ Severs tok [] (tokensTo eos (tokenLimit maxTokens) draws)) := by
  have hlimit : 1 ≤ tokenLimit maxTokens := le_max_right _ _
  rw [generate, Option.bind_eq_bind, Option.bind_eq_some_iff] at hout
  obtain ⟨⟨st, reason, m⟩, hloop, hout⟩ := hout
  obtain rfl := Option.some.inj hout
  have htext := generateLoop_streamText hlimit hloop
  rw [Nat.add_sub_cancel, List.flatten_nil, List.nil_append] at htext
  dsimp only
  rw [flatten_emitDelta, htext]
  exact ⟨streamText_eq_iff, (@length_streamText tok [] _).1, fun h =>
    @not_severs_of_whole tok [] _ h⟩

/-- A tokenizer that has a sign of three bytes in two tokens: `E2`, and `82 AC`. -/
def euroTok : BpeTokenizer := .fromParts [(['â'], 0), (['Ĥ', '¬'], 1)] [] []

theorem generate_holdback_euro : ∃ out, generate euroTok [] [7] 9 [0, 1, 7] = some out ∧
    (out.deltas.flatten = euroTok.decode (tokensTo [7] (tokenLimit 9) [0, 1, 7]) ↔
      ¬ Severs euroTok [] (tokensTo [7] (tokenLimit 9) [0, 1, 7])) := by
  have hsome : (generateLoop euroTok [] [7] (tokenLimit 9) 1 ⟨[], []⟩ [0, 1, 7]).isSome :=
    isSome_generateLoop (.inr ⟨7, by decide, by decide⟩) (by decide)
  obtain ⟨r, hr⟩ := Option.isSome_iff_exists.mp hsome
  have hout : generate euroTok [] [7] 9 [0, 1, 7] =
      some ⟨emitDelta r.1.deltas (euroTok.decode r.1.pending), r.2.1, r.2.2⟩ := by
    rw [generate, hr]
    rfl
  exact ⟨_, hout, (generate_holdback hout).1⟩

end Coordinator

end Mimo26

import Mimo26.Api.Markup

/-!
# The streamed completion

`StreamSplit` splits a completion that arrives in deltas the way `parse` splits the whole text:
content outside the blocks, reasoning inside a think block, and everything from a tool call on held
back. A tag may be cut anywhere, so a suffix that may still become one is held. What is left to come
is described by `Out`: each turn sends on a part of it.

## Main definitions

* `StreamSplit`, `push`, `finish`, `streamed` — the split, and what a client is sent
* `Before` — the content and the think blocks before the first tool call of a text

## Main results

* `StreamSplit.gives_pushAll` — the deltas sent and what is left are those of the whole text
* `streamed_agrees` — the stream agrees with the parse, and sends no tag of its own
-/

namespace Mimo26

namespace Api

open Search Loop

/-- What a client is sent. -/
inductive Delta where
  | reasoning (r : Text)
  | content (d : Text)
  deriving DecidableEq

def Delta.text : Delta → Text
  | .reasoning r => r
  | .content d => d

/-- Where the streamed completion currently is. -/
inductive Span where
  | content
  | think
  | tool
  deriving DecidableEq

structure StreamSplit where
  hold : Text
  span : Span
  /-- Think blocks already streamed; the pass after the parse sends the rest. -/
  thinkBlocks : ℕ
  deriving DecidableEq

/-- The longest suffix of `hold` that may still become one of `tags`. -/
def heldSuffix (hold : Text) (tags : List Text) : ℕ :=
  tags.foldl (fun keep tag =>
    (List.range' 1 (min tag.length hold.length)).foldl (fun keep k =>
      if hold.drop (hold.length - k) <+: tag then max keep k else keep) keep) 0

namespace StreamSplit

def new : StreamSplit := ⟨[], .content, 0⟩

/-- The first `k` characters held, sent on if there are any. -/
def emit (f : Text → Delta) (hold : Text) (k : ℕ) : List Delta :=
  if 0 < k then [f (hold.take k)] else []

/-- The turns left: none in a tool call. -/
def measure (st : StreamSplit) : ℕ := 2 * st.hold.length + if st.span = .tool then 0 else 1

/-- A turn of the loop of `push`, and whether the loop goes on. -/
def turn (st : StreamSplit) : List Delta × StreamSplit × Bool :=
  let openThink (p : ℕ) : List Delta × StreamSplit × Bool :=
    (emit .content st.hold p, ⟨st.hold.drop (p + th.length), .think, st.thinkBlocks + 1⟩, true)
  let openTool (p : ℕ) : List Delta × StreamSplit × Bool :=
    (emit .content st.hold p, ⟨st.hold.drop p, .tool, st.thinkBlocks⟩, true)
  match st.span with
  | .tool => ([], st, false)
  | .think =>
    match find thEnd st.hold with
    | some p =>
      (emit .reasoning st.hold p, ⟨st.hold.drop (p + thEnd.length), .content, st.thinkBlocks⟩, true)
    | none =>
      let flush := st.hold.length - heldSuffix st.hold [thEnd]
      (emit .reasoning st.hold flush, ⟨st.hold.drop flush, .think, st.thinkBlocks⟩, false)
  | .content =>
    match find th st.hold, find tc st.hold with
    | some p, none => openThink p
    | some p, some t => if p < t then openThink p else openTool t
    | none, some t => openTool t
    | none, none =>
      let flush := st.hold.length - heldSuffix st.hold [th, tc]
      (emit .content st.hold flush, ⟨st.hold.drop flush, .content, st.thinkBlocks⟩, false)

theorem measure_drop {hold pat : Text} (hpat : pat ≠ []) {p : ℕ} (h : find pat hold = some p)
    (span span' : Span) (n n' : ℕ) :
    measure ⟨hold.drop (p + pat.length), span', n'⟩ < measure ⟨hold, span, n⟩ := by
  have hle := find_le hpat h
  have hpos := List.length_pos_of_ne_nil hpat
  simp only [measure, List.length_drop]
  split_ifs <;> omega

theorem measure_tool (hold : Text) (p n n' : ℕ) :
    measure ⟨hold.drop p, .tool, n'⟩ < measure ⟨hold, .content, n⟩ := by
  have hcontent : Span.content ≠ .tool := by decide
  simp only [measure, List.length_drop, if_neg hcontent, if_true]
  omega

/-- What a turn can be. -/
inductive Turns (st : StreamSplit) : List Delta × StreamSplit × Bool → Prop
  | tool : st.span = .tool → Turns st ([], st, false)
  | closeThink {p : ℕ} : st.span = .think → find thEnd st.hold = some p →
    Turns st (emit .reasoning st.hold p,
      ⟨st.hold.drop (p + thEnd.length), .content, st.thinkBlocks⟩, true)
  | flushThink {k : ℕ} : st.span = .think → find thEnd st.hold = none →
    k = st.hold.length - heldSuffix st.hold [thEnd] →
    Turns st (emit .reasoning st.hold k, ⟨st.hold.drop k, .think, st.thinkBlocks⟩, false)
  | openThink {p : ℕ} : st.span = .content → find th st.hold = some p →
    (∀ t ∈ find tc st.hold, p ≤ t) →
    Turns st (emit .content st.hold p,
      ⟨st.hold.drop (p + th.length), .think, st.thinkBlocks + 1⟩, true)
  | openTool {t : ℕ} : st.span = .content → find tc st.hold = some t →
    (∀ p ∈ find th st.hold, t ≤ p) →
    Turns st (emit .content st.hold t, ⟨st.hold.drop t, .tool, st.thinkBlocks⟩, true)
  | flushContent {k : ℕ} : st.span = .content → find th st.hold = none → find tc st.hold = none →
    k = st.hold.length - heldSuffix st.hold [th, tc] →
    Turns st (emit .content st.hold k, ⟨st.hold.drop k, .content, st.thinkBlocks⟩, false)

theorem turns (st : StreamSplit) : Turns st (turn st) := by
  rw [turn]
  dsimp only
  cases hspan : st.span with
  | tool => exact .tool hspan
  | think =>
    dsimp only
    cases hp : find thEnd st.hold with
    | some p => exact .closeThink hspan hp
    | none => exact .flushThink hspan hp rfl
  | content =>
    dsimp only
    cases hp : find th st.hold with
    | some p =>
      cases ht : find tc st.hold with
      | some t =>
        dsimp only
        by_cases hlt : p < t
        · rw [if_pos hlt]
          refine .openThink hspan hp fun t' ht' => ?_
          obtain rfl := Option.some.inj (ht.symm.trans ht')
          exact hlt.le
        · rw [if_neg hlt]
          refine .openTool hspan ht fun p' hp' => ?_
          obtain rfl := Option.some.inj (hp.symm.trans hp')
          exact Nat.not_lt.mp hlt
      | none => exact .openThink hspan hp fun t ht' => nomatch ht.symm.trans ht'
    | none =>
      cases ht : find tc st.hold with
      | some t => exact .openTool hspan ht fun p hp' => nomatch hp.symm.trans hp'
      | none => exact .flushContent hspan hp ht rfl

/-- A turn after which the loop goes on takes a tag, or ends in a tool call. -/
theorem measure_turn {st : StreamSplit} (h : (turn st).2.2 = true) :
    measure (turn st).2.1 < measure st := by
  have hturns := turns st
  generalize turn st = x at h hturns ⊢
  cases hturns with
  | tool _ => exact nomatch h
  | closeThink _ hp => exact measure_drop headOnce_thEnd.ne_nil hp _ _ _ _
  | flushThink _ _ _ => exact nomatch h
  | openThink _ hp _ => exact measure_drop headOnce_th.ne_nil hp _ _ _ _
  | @openTool t hspan _ _ =>
    have hmeasure := measure_tool st.hold t st.thinkBlocks st.thinkBlocks
    rwa [← hspan] at hmeasure
  | flushContent _ _ _ _ => exact nomatch h

/-- The loop of `push`: what is sent, and what is held after it. -/
def drain (st : StreamSplit) : List Delta × StreamSplit :=
  if _h : (turn st).2.2 = true then
    ((turn st).1 ++ (drain (turn st).2.1).1, (drain (turn st).2.1).2)
  else ((turn st).1, (turn st).2.1)
termination_by st.measure
decreasing_by all_goals exact measure_turn _h

def push (st : StreamSplit) (delta : Text) : List Delta × StreamSplit :=
  drain { st with hold := st.hold ++ delta }

/-- What is still held when the generation ends. -/
def finish (st : StreamSplit) : List Delta :=
  if st.hold = [] then []
  else
    match st.span with
    | .content => [.content st.hold]
    | .think => [.reasoning st.hold]
    | .tool => []

/-- The deltas of a generation; an empty one is a keepalive. -/
def pushAll (st : StreamSplit) : List Text → List Delta × StreamSplit
  | [] => ([], st)
  | d :: deltas =>
    if d = [] then pushAll st deltas
    else
      let (ds, st') := push st d
      let (ds', st'') := pushAll st' deltas
      (ds ++ ds', st'')

end StreamSplit

/-- What a client is sent of a completion that is parsed without an error: its deltas, what is held
at the end, and the think blocks that were not streamed. -/
def streamed {F : Type} (deltas : List Text) (parsed : ParseResult F) : List Delta :=
  let (ds, st) := StreamSplit.new.pushAll deltas
  ds ++ st.finish ++ (parsed.reasoning.drop st.thinkBlocks).map .reasoning

/-! ### What is left to come -/

/-- The content and the think blocks of a text before its first tool call. -/
inductive Before : Text → Text → List Text → Prop
  | nil : Before [] [] []
  | tool (t : Text) : Before (tc ++ t) [] []
  | think {r t x : Text} {rs : List Text} : ¬ thEnd <:+: r → Before t x rs →
    Before (th ++ (r ++ (thEnd ++ t))) x (r :: rs)
  | openThink {r : Text} : ¬ thEnd <:+: r → Before (th ++ r) [] [r]
  | char {c : Char} {t x : Text} {rs : List Text} : ¬ th <+: c :: t → ¬ tc <+: c :: t →
    Before t x rs →
    Before (c :: t) (c :: x) rs

/-- Every text has a beginning without a tool call. -/
theorem exists_before (t : Text) : ∃ x rs, Before t x rs := by
  induction hlen : t.length using Nat.strong_induction_on generalizing t with
  | _ len ih =>
    subst hlen
    cases ahead t with
    | nil => exact ⟨[], [], .nil⟩
    | @think r t hr =>
      have hlt : t.length < (th ++ (r ++ (thEnd ++ t))).length := by
        have hne : th ++ (r ++ thEnd) ≠ [] := List.append_ne_nil_of_left_ne_nil (by decide) _
        have hlt := length_lt_append _ hne t
        rwa [List.append_assoc, List.append_assoc] at hlt
      obtain ⟨x, rs, h⟩ := ih _ hlt t rfl
      exact ⟨x, r :: rs, .think hr h⟩
    | openThink hr => exact ⟨_, _, .openThink hr⟩
    | tool t => exact ⟨[], [], .tool t⟩
    | @char c t hth htc =>
      obtain ⟨x, rs, h⟩ := ih _ (Nat.lt_succ_self _) t rfl
      exact ⟨c :: x, rs, .char hth htc h⟩

/-- What a text still gives where the split stands: the content, the reasoning, and the think blocks
that open in it. -/
def Out : Span → Text → Text → Text → ℕ → Prop
  | .content, t, x, y, n => ∃ rs, Before t x rs ∧ rs.flatten = y ∧ rs.length = n
  | .think, t, x, y, n =>
    (∃ r t' rs, t = r ++ (thEnd ++ t') ∧ ¬ thEnd <:+: r ∧ Before t' x rs ∧ r ++ rs.flatten = y ∧
      rs.length = n) ∨ (¬ thEnd <:+: t ∧ x = [] ∧ y = t ∧ n = 0)
  | .tool, t, x, y, n => tc <+: t ∧ x = [] ∧ y = [] ∧ n = 0

/-- No tag that opens a block begins in `a`, where `t` follows. -/
def Plain (a t : Text) : Prop := ∀ i < a.length, ¬ th <+: (a ++ t).drop i ∧ ¬ tc <+: (a ++ t).drop i

theorem Before.plain {a t x : Text} {rs : List Text} (ha : Plain a t) (h : Before t x rs) :
    Before (a ++ t) (a ++ x) rs := by
  induction a with
  | nil => exact h
  | cons c a ih =>
    obtain ⟨hth, htc⟩ := ha 0 (Nat.succ_pos _)
    refine .char hth htc (ih fun i hi => ?_)
    exact ha (i + 1) (Nat.succ_lt_succ hi)

/-- What is plain before a tag holds none itself. -/
theorem plain_of_notIn {a t : Text} (hth : ¬ th <:+: a) (htc : ¬ tc <:+: a) :
    Plain a ('<' :: t) := by
  intro i hi
  have hsplit : (a ++ '<' :: t).drop i = a.drop i ++ '<' :: t := List.drop_append_of_le_length hi.le
  have hnot {p : Text} (hp : '<' ∉ p) (hin : ¬ '<' :: p <:+: a) :
      ¬ '<' :: p <+: (a ++ '<' :: t).drop i := by
    intro hpre
    rw [hsplit] at hpre
    refine hin ?_
    cases hdrop : a.drop i with
    | nil => exact absurd (List.drop_eq_nil_iff.mp hdrop) (Nat.not_le.mpr hi)
    | cons c a' =>
      rw [hdrop] at hpre
      obtain ⟨rfl, htail⟩ := List.cons_prefix_cons.mp hpre
      have hpre' : '<' :: p <+: a.drop i := by
        rw [hdrop]
        exact List.cons_prefix_cons.mpr ⟨rfl, prefix_append_cons hp htail⟩
      exact hpre'.isInfix.trans (List.drop_suffix i a).isInfix
  exact ⟨hnot (p := "think>".toList) (by decide) hth, hnot (p := "tool_call>".toList)
    (by decide) htc⟩

/-! ### The text held -/

/-- A fold that never goes down ends no lower than it comes out at one item. -/
theorem le_foldl {α : Type} {f : ℕ → α → ℕ} (hf : ∀ n a, n ≤ f n a) {l : List α} {a : α}
    (ha : a ∈ l)
    {k : ℕ} (hk : ∀ n, k ≤ f n a) (n : ℕ) : k ≤ l.foldl f n := by
  have hup (l : List α) (n : ℕ) : n ≤ l.foldl f n := by
    induction l generalizing n with
    | nil => exact le_rfl
    | cons b l ih => exact le_trans (hf n b) (ih (f n b))
  induction l generalizing n with
  | nil => exact absurd ha List.not_mem_nil
  | cons b l ih =>
    rw [List.foldl_cons]
    rcases List.mem_cons.mp ha with rfl | ha
    · exact le_trans (hk n) (hup l _)
    · exact ih ha _

/-- Every suffix that may still become a tag is held. -/
theorem le_heldSuffix {hold tag : Text} {tags : List Text} (htag : tag ∈ tags) {k : ℕ} (hk : 0 < k)
    (hle : k ≤ hold.length) (hpre : hold.drop (hold.length - k) <+: tag) :
    k ≤ heldSuffix hold tags := by
  have hmem : k ∈ List.range' 1 (min tag.length hold.length) := by
    have hlen := hpre.length_le
    rw [List.length_drop] at hlen
    rw [List.mem_range'_1]
    omega
  have hstep (tag : Text) (keep k : ℕ) :
      keep ≤ if hold.drop (hold.length - k) <+: tag then max keep k else keep := by
    split
    · exact le_max_left keep k
    · exact le_rfl
  have hinner (n : ℕ) (tag : Text) : n ≤ (List.range' 1 (min tag.length hold.length)).foldl
      (fun keep k => if hold.drop (hold.length - k) <+: tag then max keep k else keep) n := by
    generalize List.range' 1 (min tag.length hold.length) = ks
    induction ks generalizing n with
    | nil => exact le_rfl
    | cons k ks ih => exact le_trans (hstep tag n k) (ih _)
  refine le_foldl hinner htag (fun n => le_foldl (hstep tag) hmem (fun n => ?_) n) 0
  rw [if_pos hpre]
  exact le_max_right n k

/-- **No tag that the text held may still complete begins before what stays held.** -/
theorem not_begins_of_flush {hold tag f : Text} {tags : List Text} (htag : tag ∈ tags)
    (hnot : ¬ tag <:+: hold) {i : ℕ} (hi : i < hold.length - heldSuffix hold tags) :
    ¬ tag <+: (hold ++ f).drop i := by
  intro hpre
  have hdrop := drop_begins_of_begins hnot hpre (by omega)
  have hheld : hold.length - i ≤ heldSuffix hold tags := by
    refine le_heldSuffix htag (by omega) (Nat.sub_le _ _) ?_
    rwa [Nat.sub_sub_self (by omega)]
  omega

/-! ### Turns -/

def contentOf (ds : List Delta) : Text :=
  ds.flatMap fun d =>
    match d with
    | .content d => d
    | .reasoning _ => []

def reasoningOf (ds : List Delta) : Text :=
  ds.flatMap fun d =>
    match d with
    | .content _ => []
    | .reasoning r => r

@[simp] theorem contentOf_append (ds ds' : List Delta) :
    contentOf (ds ++ ds') = contentOf ds ++ contentOf ds' := List.flatMap_append

@[simp] theorem reasoningOf_append (ds ds' : List Delta) :
    reasoningOf (ds ++ ds') = reasoningOf ds ++ reasoningOf ds' := List.flatMap_append

namespace StreamSplit

@[simp] theorem contentOf_emit_content (hold : Text) (k : ℕ) :
    contentOf (emit .content hold k) = hold.take k := by
  cases k with
  | zero => rfl
  | succ k => simp [emit, contentOf]

@[simp] theorem contentOf_emit_reasoning (hold : Text) (k : ℕ) :
    contentOf (emit .reasoning hold k) = [] := by
  cases k with
  | zero => rfl
  | succ k => rfl

@[simp] theorem reasoningOf_emit_content (hold : Text) (k : ℕ) :
    reasoningOf (emit .content hold k) = [] := by
  cases k with
  | zero => rfl
  | succ k => rfl

@[simp] theorem reasoningOf_emit_reasoning (hold : Text) (k : ℕ) :
    reasoningOf (emit .reasoning hold k) = hold.take k := by
  cases k with
  | zero => rfl
  | succ k => simp [emit, reasoningOf]

/-- What `st` still gives, `f` being what has not arrived, with the think blocks counted. -/
def Gives (st : StreamSplit) (f x y : Text) (n : ℕ) : Prop :=
  ∃ k, Out st.span (st.hold ++ f) x y k ∧ st.thinkBlocks + k = n

variable {hold f x y : Text} {k n : ℕ}

theorem out_openThink {p : ℕ} (hp : find th hold = some p) (ht : ∀ t ∈ find tc hold, p ≤ t)
    (h : Out .think (hold.drop (p + th.length) ++ f) x y k) :
    Out .content (hold ++ f) (hold.take p ++ x) y (k + 1) := by
  have hplain : Plain (hold.take p) (th ++ (hold.drop (p + th.length) ++ f)) :=
    plain_of_notIn (t := "think>".toList ++ (hold.drop (p + th.length) ++ f))
      (not_infix_take headOnce_th.ne_nil fun j hj =>
        Nat.le_of_eq (Option.some.inj (hp.symm.trans hj)))
      (not_infix_take headOnce_tc.ne_nil ht)
  have hsplit : hold ++ f = hold.take p ++ (th ++ (hold.drop (p + th.length) ++ f)) := by
    conv_lhs => rw [eq_of_find headOnce_th.ne_nil hp]
    simp
  rw [hsplit]
  rcases h with ⟨r, t, rs, ht, hr, hbefore, rfl, rfl⟩ | ⟨hr, rfl, rfl, rfl⟩
  · refine ⟨r :: rs, Before.plain hplain ?_, rfl, rfl⟩
    rw [ht]
    exact .think hr hbefore
  · exact ⟨[_], Before.plain hplain (.openThink hr), List.append_nil _, rfl⟩

theorem out_openTool {t : ℕ} (ht : find tc hold = some t) (hp : ∀ p ∈ find th hold, t ≤ p)
    (h : Out .tool (hold.drop t ++ f) x y k) : Out .content (hold ++ f) (hold.take t ++ x) y k := by
  have hplain : Plain (hold.take t) (tc ++ (hold.drop (t + tc.length) ++ f)) :=
    plain_of_notIn (t := "tool_call>".toList ++ (hold.drop (t + tc.length) ++ f))
      (not_infix_take headOnce_th.ne_nil hp)
      (not_infix_take headOnce_tc.ne_nil fun j hj =>
        Nat.le_of_eq (Option.some.inj (ht.symm.trans hj)))
  have hsplit : hold ++ f = hold.take t ++ (tc ++ (hold.drop (t + tc.length) ++ f)) := by
    conv_lhs => rw [eq_of_find headOnce_tc.ne_nil ht]
    simp
  obtain ⟨-, rfl, rfl, rfl⟩ := h
  rw [hsplit]
  exact ⟨[], Before.plain hplain (.tool _), rfl, rfl⟩

theorem out_closeThink {p : ℕ} (hp : find thEnd hold = some p)
    (h : Out .content (hold.drop (p + thEnd.length) ++ f) x y k) :
    Out .think (hold ++ f) x (hold.take p ++ y) k := by
  obtain ⟨rs, hbefore, rfl, rfl⟩ := h
  refine .inl ⟨hold.take p, hold.drop (p + thEnd.length) ++ f, rs, ?_,
    not_infix_take headOnce_thEnd.ne_nil fun j hj => ?_, hbefore, rfl, rfl⟩
  · conv_lhs => rw [eq_of_find headOnce_thEnd.ne_nil hp]
    simp
  · exact Nat.le_of_eq (Option.some.inj (hp.symm.trans hj))

theorem out_flushContent (hth : ¬ th <:+: hold) (htc : ¬ tc <:+: hold) {flush : ℕ}
    (hflush : flush = hold.length - heldSuffix hold [th, tc])
    (h : Out .content (hold.drop flush ++ f) x y k) :
    Out .content (hold ++ f) (hold.take flush ++ x) y k := by
  have hsplit : hold ++ f = hold.take flush ++ (hold.drop flush ++ f) := by
    rw [← List.append_assoc, List.take_append_drop]
  have hplain : Plain (hold.take flush) (hold.drop flush ++ f) := by
    intro i hi
    have hlt : i < hold.length - heldSuffix hold [th, tc] := by
      rw [List.length_take] at hi
      omega
    rw [← hsplit]
    exact ⟨not_begins_of_flush (by simp) hth hlt, not_begins_of_flush (by simp) htc hlt⟩
  obtain ⟨rs, hbefore, hy, hk⟩ := h
  rw [hsplit]
  exact ⟨rs, hbefore.plain hplain, hy, hk⟩

theorem out_flushThink (hthEnd : ¬ thEnd <:+: hold) {flush : ℕ}
    (hflush : flush = hold.length - heldSuffix hold [thEnd])
    (h : Out .think (hold.drop flush ++ f) x y k) :
    Out .think (hold ++ f) x (hold.take flush ++ y) k := by
  have hsplit : hold ++ f = hold.take flush ++ (hold.drop flush ++ f) := by
    rw [← List.append_assoc, List.take_append_drop]
  have hbegins (i : ℕ) (hi : i < (hold.take flush).length) :
      ¬ thEnd <+: (hold.take flush ++ (hold.drop flush ++ f)).drop i := by
    have hlt : i < hold.length - heldSuffix hold [thEnd] := by
      rw [List.length_take] at hi
      omega
    rw [← hsplit]
    exact not_begins_of_flush (by simp) hthEnd hlt
  rw [hsplit]
  rcases h with ⟨r, t, rs, ht, hr, hbefore, rfl, hk⟩ | ⟨hr, rfl, rfl, rfl⟩
  · refine .inl ⟨hold.take flush ++ r, t, rs, ?_, not_infix_append (fun i hi hpre => ?_) hr,
      hbefore,
      List.append_assoc _ _ _, hk⟩
    · rw [ht, List.append_assoc]
    · refine hbegins i hi (hpre.trans ?_)
      have hle : i ≤ (hold.take flush ++ r).length := by
        rw [List.length_append]
        omega
      rw [ht, ← List.append_assoc, List.drop_append_of_le_length hle]
      exact List.prefix_append _ _
  · exact .inr ⟨not_infix_append hbegins hr, rfl, rfl, rfl⟩

/-- **A turn sends on part of what was left**, and leaves the rest. -/
theorem gives_turn {st : StreamSplit} (h : Gives (turn st).2.1 f x y n) :
    Gives st f (contentOf (turn st).1 ++ x) (reasoningOf (turn st).1 ++ y) n := by
  have hturns := turns st
  generalize turn st = out at h hturns ⊢
  obtain ⟨k, hout, rfl⟩ := h
  cases hturns with
  | tool _ => exact ⟨k, hout, rfl⟩
  | closeThink hspan hp =>
    refine ⟨k, ?_, rfl⟩
    rw [contentOf_emit_reasoning, reasoningOf_emit_reasoning, hspan]
    exact out_closeThink hp hout
  | flushThink hspan hp hk =>
    refine ⟨k, ?_, rfl⟩
    rw [contentOf_emit_reasoning, reasoningOf_emit_reasoning, hspan]
    exact out_flushThink ((find_eq_none headOnce_thEnd.ne_nil).mp hp) hk hout
  | openThink hspan hp ht =>
    refine ⟨k + 1, ?_, by dsimp only; omega⟩
    rw [contentOf_emit_content, reasoningOf_emit_content, hspan]
    exact out_openThink hp ht hout
  | openTool hspan ht hp =>
    refine ⟨k, ?_, rfl⟩
    rw [contentOf_emit_content, reasoningOf_emit_content, hspan]
    exact out_openTool ht hp hout
  | flushContent hspan hp ht hk =>
    refine ⟨k, ?_, rfl⟩
    rw [contentOf_emit_content, reasoningOf_emit_content, hspan]
    exact out_flushContent ((find_eq_none headOnce_th.ne_nil).mp hp)
      ((find_eq_none headOnce_tc.ne_nil).mp ht) hk hout

theorem gives_drain {st : StreamSplit} (h : Gives (drain st).2 f x y n) :
    Gives st f (contentOf (drain st).1 ++ x) (reasoningOf (drain st).1 ++ y) n := by
  induction st using drain.induct with
  | case1 st hgo ih =>
    rw [drain, dif_pos hgo] at h ⊢
    have hturn := gives_turn (ih h)
    rwa [contentOf_append, reasoningOf_append, List.append_assoc, List.append_assoc]
  | case2 st hstop =>
    rw [drain, dif_neg hstop] at h ⊢
    exact gives_turn h

/-- **What is sent and what is left** make up the whole text, however it is cut. -/
theorem gives_pushAll {st : StreamSplit} (deltas : List Text)
    (h : Gives (st.pushAll deltas).2 f x y n) :
    Gives st (deltas.flatten ++ f) (contentOf (st.pushAll deltas).1 ++ x)
      (reasoningOf (st.pushAll deltas).1 ++ y) n := by
  induction deltas generalizing st with
  | nil => exact h
  | cons d deltas ih =>
    rw [pushAll] at h ⊢
    by_cases hd : d = []
    · rw [if_pos hd] at h ⊢
      rw [hd]
      exact ih h
    · rw [if_neg hd] at h ⊢
      have hdrain := gives_drain (ih h)
      obtain ⟨k, hout, hn⟩ := hdrain
      refine ⟨k, ?_, hn⟩
      dsimp only
      rw [contentOf_append, reasoningOf_append, List.append_assoc, List.append_assoc,
        List.flatten_cons, List.append_assoc, ← List.append_assoc st.hold]
      exact hout

end StreamSplit

/-! ### The tags that are not sent on -/

/-- The delta holds no tag that would have ended it. -/
def Delta.Clean : Delta → Prop
  | .content d => ¬ th <:+: d ∧ ¬ tc <:+: d
  | .reasoning r => ¬ thEnd <:+: r

namespace StreamSplit

/-- In a tool call the text held begins with its opening tag. -/
def Ready (st : StreamSplit) : Prop := st.span = .tool → tc <+: st.hold

/-- Nothing held can be sent on. -/
def Settled (st : StreamSplit) : Prop :=
  match st.span with
  | .content => ¬ th <:+: st.hold ∧ ¬ tc <:+: st.hold
  | .think => ¬ thEnd <:+: st.hold
  | .tool => tc <+: st.hold

theorem Settled.ready {st : StreamSplit} (h : st.Settled) : st.Ready := by
  intro hspan
  rwa [Settled, hspan] at h

theorem clean_emit_content {hold : Text} {k : ℕ} (hth : ∀ j ∈ find th hold, k ≤ j)
    (htc : ∀ j ∈ find tc hold, k ≤ j) : ∀ d ∈ emit .content hold k, d.Clean := by
  intro d hd
  rw [emit] at hd
  split at hd
  · obtain rfl := List.mem_singleton.mp hd
    exact ⟨not_infix_take headOnce_th.ne_nil hth, not_infix_take headOnce_tc.ne_nil htc⟩
  · exact absurd hd List.not_mem_nil

theorem clean_emit_reasoning {hold : Text} {k : ℕ} (h : ∀ j ∈ find thEnd hold, k ≤ j) :
    ∀ d ∈ emit .reasoning hold k, d.Clean := by
  intro d hd
  rw [emit] at hd
  split at hd
  · obtain rfl := List.mem_singleton.mp hd
    exact not_infix_take headOnce_thEnd.ne_nil h
  · exact absurd hd List.not_mem_nil

/-- **A turn** sends no tag on; the loop goes on from a state that is ready, and stops in one that
is settled. -/
theorem clean_turn {st : StreamSplit} (h : st.Ready) : (∀ d ∈ (turn st).1, d.Clean) ∧
    (turn st).2.1.Ready ∧ ((turn st).2.2 = false → (turn st).2.1.Settled) := by
  have hsuffix {pat : Text} (hpat : pat ≠ []) (hnone : find pat st.hold = none) (k : ℕ) :
      ¬ pat <:+: st.hold.drop k := fun hin =>
    (find_eq_none hpat).mp hnone (hin.trans (List.drop_suffix k st.hold).isInfix)
  have hfound {pat : Text} {p : ℕ} (hp : find pat st.hold = some p) :
      ∀ j ∈ find pat st.hold, p ≤ j := fun j hj => (Option.some.inj (hp.symm.trans hj)).le
  have hnone {pat : Text} (hp : find pat st.hold = none) (k : ℕ) :
      ∀ j ∈ find pat st.hold, k ≤ j := fun j hj => nomatch hp.symm.trans hj
  have hturns := turns st
  generalize turn st = out at hturns ⊢
  cases hturns with
  | tool hspan =>
    refine ⟨fun d hd => absurd hd List.not_mem_nil, h, fun _ => ?_⟩
    have htool := h hspan
    rwa [Settled, hspan]
  | closeThink _ hp =>
    exact ⟨clean_emit_reasoning (hfound hp), nofun, nofun⟩
  | flushThink _ hp _ =>
    exact ⟨clean_emit_reasoning (hnone hp _), nofun,
      fun _ => hsuffix headOnce_thEnd.ne_nil hp _⟩
  | openThink _ hp ht =>
    exact ⟨clean_emit_content (hfound hp) ht, nofun, nofun⟩
  | openTool _ ht hp =>
    refine ⟨clean_emit_content hp (hfound ht), fun _ => ?_, nofun⟩
    obtain ⟨head, rest, hsplit, rfl, -⟩ := exists_of_find headOnce_tc.ne_nil ht
    rw [hsplit, List.drop_left]
    exact List.prefix_append tc rest
  | flushContent _ hp ht _ =>
    exact ⟨clean_emit_content (hnone hp _) (hnone ht _), nofun,
      fun _ => ⟨hsuffix headOnce_th.ne_nil hp _, hsuffix headOnce_tc.ne_nil ht _⟩⟩

theorem clean_drain {st : StreamSplit} (h : st.Ready) :
    (∀ d ∈ (drain st).1, d.Clean) ∧ (drain st).2.Settled := by
  induction st using drain.induct with
  | case1 st hgo ih =>
    obtain ⟨hclean, hready, -⟩ := clean_turn h
    obtain ⟨hclean', hsettled⟩ := ih hready
    rw [drain, dif_pos hgo]
    exact ⟨List.forall_mem_append.mpr ⟨hclean, hclean'⟩, hsettled⟩
  | case2 st hstop =>
    obtain ⟨hclean, -, hsettled⟩ := clean_turn h
    rw [drain, dif_neg hstop]
    exact ⟨hclean, hsettled (Bool.not_eq_true _ ▸ hstop)⟩

theorem clean_pushAll {st : StreamSplit} (h : st.Settled) (deltas : List Text) :
    (∀ d ∈ (st.pushAll deltas).1, d.Clean) ∧ (st.pushAll deltas).2.Settled := by
  induction deltas generalizing st with
  | nil => exact ⟨fun d hd => absurd hd List.not_mem_nil, h⟩
  | cons delta deltas ih =>
    rw [pushAll]
    by_cases hd : delta = []
    · rw [if_pos hd]
      exact ih h
    · rw [if_neg hd]
      have hready : Ready { st with hold := st.hold ++ delta } := fun hspan =>
        (h.ready hspan).trans (List.prefix_append _ _)
      obtain ⟨hclean, hsettled⟩ := clean_drain hready
      obtain ⟨hclean', hsettled'⟩ := ih hsettled
      exact ⟨List.forall_mem_append.mpr ⟨hclean, hclean'⟩, hsettled'⟩

/-- **What is held at the end** is what was left to come. -/
theorem gives_finish {st : StreamSplit} (h : st.Settled) :
    Gives st [] (contentOf st.finish) (reasoningOf st.finish) st.thinkBlocks ∧
      ∀ d ∈ st.finish, d.Clean := by
  obtain ⟨hold, span, blocks⟩ := st
  refine ⟨⟨0, ?_, Nat.add_zero _⟩, ?_⟩
  · rw [List.append_nil]
    cases span with
    | content =>
      obtain ⟨hth, htc⟩ := h
      refine ⟨[], ?_, ?_, rfl⟩
      · have hplain : Plain hold [] := by
          intro i _
          rw [List.append_nil]
          exact ⟨fun hpre => hth (hpre.isInfix.trans (List.drop_suffix i hold).isInfix),
            fun hpre => htc (hpre.isInfix.trans (List.drop_suffix i hold).isInfix)⟩
        have hbefore := Before.nil.plain hplain
        rw [List.append_nil] at hbefore
        cases hold with
        | nil => exact hbefore
        | cons c hold => simpa [finish, contentOf] using hbefore
      · cases hold with
        | nil => rfl
        | cons c hold => rfl
    | think =>
      refine .inr ⟨h, ?_, ?_, rfl⟩
      · cases hold with
        | nil => rfl
        | cons c hold => rfl
      · cases hold with
        | nil => rfl
        | cons c hold => simp [finish, reasoningOf]
    | tool =>
      cases hold with
      | nil => exact ⟨h, rfl, rfl, rfl⟩
      | cons c hold => exact ⟨h, rfl, rfl, rfl⟩
  · intro d hd
    cases hold with
    | nil => exact absurd hd List.not_mem_nil
    | cons c hold =>
      cases span with
      | content =>
        obtain rfl := List.mem_singleton.mp hd
        exact h
      | think =>
        obtain rfl := List.mem_singleton.mp hd
        exact h
      | tool => exact absurd hd List.not_mem_nil

end StreamSplit

/-! ### The parse -/

variable {F : Type} [Fp64 F] {text : Text} {tools : List (Tool F)} {sc : Scan F} {r : ParseResult F}

theorem not_infix_reasoning_step {cap n : ℕ} {out : Scan F ⊕ ParseResult F}
    (h : ∀ b ∈ sc.r.reasoning, ¬ thEnd <:+: b) (hout : parseStep text tools cap n sc = some out) :
    Sum.elim (fun sc' : Scan F => ∀ b ∈ sc'.r.reasoning, ¬ thEnd <:+: b)
      (fun r => ∀ b ∈ r.reasoning, ¬ thEnd <:+: b) out := by
  have hadd {b : Text} (hb : ¬ thEnd <:+: b) : ∀ b' ∈ sc.r.reasoning ++ [b], ¬ thEnd <:+: b' :=
    List.forall_mem_append.mpr ⟨h, List.forall_mem_singleton.mpr hb⟩
  generalize hrest : text.drop sc.i = rest
  cases ahead rest with
  | nil =>
    rw [parseStep_nil hrest] at hout
    cases hout
    exact h
  | think hr =>
    rw [parseStep_think hr hrest] at hout
    cases hout
    exact hadd hr
  | openThink hr =>
    rw [parseStep_openThink hr hrest] at hout
    cases hout
    exact hadd hr
  | tool t =>
    by_cases hcap : Uncapped cap sc.r.calls.length
    · rw [parseStep_tool hcap hrest] at hout
      obtain ⟨o, -, rfl⟩ := Option.map_eq_some_iff.mp hout
      cases o.error with
      | none => exact h
      | some e => exact h
    · rw [parseStep_capped hcap hrest] at hout
      cases hout
      exact h
  | char hth htc =>
    rw [parseStep_char hth htc hrest] at hout
    cases hout
    exact h

/-- **No think block holds its closing tag.** -/
theorem not_infix_reasoning {cap : ℕ} (hends : Ends (parseStep text tools cap) sc r)
    (h : ∀ b ∈ sc.r.reasoning, ¬ thEnd <:+: b) : ∀ b ∈ r.reasoning, ¬ thEnd <:+: b := by
  have hstep : ∀ n (sc : Scan F) out, (∀ b ∈ sc.r.reasoning, ¬ thEnd <:+: b) →
      parseStep text tools cap n sc = some out →
      Sum.elim (fun sc' : Scan F => ∀ b ∈ sc'.r.reasoning, ¬ thEnd <:+: b)
        (fun r => ∀ b ∈ r.reasoning, ¬ thEnd <:+: b) out :=
    fun _ _ _ h hout => not_infix_reasoning_step h hout
  exact hends.inv hstep h

/-- **What the parse finds before the first tool call**: its think blocks come first, and without a
call it is all the content there is. -/
theorem ends_before {t x : Text} {rs : List Text} (h : Before t x rs)
    (hends : Ends (parseStep text tools 0) sc r) (hdrop : text.drop sc.i = t)
    (hcalls : sc.r.calls = []) (herror : r.error = none) :
    sc.r.reasoning ++ rs <+: r.reasoning ∧ (r.calls = [] → r.content = sc.content ++ x) := by
  have hdone {sc : Scan F} (hends : Ends (parseStep text tools 0) sc r)
      (hdrop : text.drop sc.i = []) : r = { sc.r with content := sc.content } :=
    hends.unique steady_parseStep (ends_exit (parseStep_nil hdrop 0))
  induction h generalizing sc with
  | nil =>
    rw [hdone hends hdrop, List.append_nil, List.append_nil]
    exact ⟨List.prefix_refl _, fun _ => rfl⟩
  | tool t =>
    have hcap : Uncapped 0 sc.r.calls.length := .inl rfl
    refine ⟨?_, fun hnone => ?_⟩
    · rw [List.append_nil]
      exact (grows_of_ends hends).reasoning
    rcases block_cases t tools with hhangs | ⟨rest, hrest⟩ | ⟨o, ho, hlost⟩
    · refine absurd hends (not_ends_of_meets (.here hcap hhangs) hdrop rfl r)
    · obtain ⟨o, c, ho, hoerror, hcall, -⟩ := hrest.gives tools
      have hgrows := grows_of_ends ((ends_block hcap hdrop ho hoerror).mp hends)
      have hpre := (hgrows.calls herror).2
      have hblock : (sc.block o).r.calls = [c] := by
        rw [Scan.block, hcall, hcalls]
        rfl
      rw [hblock, hnone] at hpre
      exact absurd (List.prefix_nil.mp hpre) (List.cons_ne_nil c [])
    · cases hoerror : o.error with
      | none =>
        have hnext := (ends_block hcap hdrop ho hoerror).mp hends
        have hdrop' : text.drop (sc.block o).i = [] := by
          rw [drop_block o hdrop, hlost.2.1, List.drop_length]
        rw [hdone hnext hdrop', List.append_nil]
        rfl
      | some e =>
        obtain ⟨n, hn⟩ := ho
        have hexit : parseStep text tools 0 n sc = _ := parseStep_tool hcap hdrop n
        rw [hn, Option.map_some, hoerror] at hexit
        rw [hends.unique steady_parseStep (ends_exit hexit)] at herror
        cases herror
  | @think b t x rs hb _ ih =>
    have hnext := (ends_scan (parseStep_think hb hdrop)).mp hends
    have hdrop' : text.drop (sc.i + (th ++ (b ++ thEnd)).length) = t :=
      drop_cursor (by rw [hdrop]; simp)
    have hrest := ih hnext hdrop' hcalls
    rwa [List.append_assoc] at hrest
  | @openThink b hb =>
    have hnext := (ends_scan (parseStep_openThink hb hdrop)).mp hends
    rw [hdone hnext (List.drop_length), List.append_nil]
    exact ⟨List.prefix_refl _, fun _ => rfl⟩
  | @char c t x rs hth htc _ ih =>
    have hnext := (ends_scan (parseStep_char hth htc hdrop)).mp hends
    have hdrop' : text.drop (sc.i + 1) = t := by
      rw [← List.tail_drop, hdrop, List.tail_cons]
    have hrest := ih hnext hdrop' hcalls
    rwa [List.append_assoc] at hrest

theorem contentOf_map_reasoning (rs : List Text) : contentOf (rs.map .reasoning) = [] := by
  induction rs with
  | nil => rfl
  | cons r rs ih => exact ih

theorem reasoningOf_map_reasoning (rs : List Text) :
    reasoningOf (rs.map .reasoning) = rs.flatten := by
  induction rs with
  | nil => rfl
  | cons r rs ih =>
    rw [List.map_cons, List.flatten_cons, ← ih]
    rfl

/-- **The stream agrees with the parse.** However the text is cut, the reasoning sent is the
parse's, the content sent is what comes before the first tool call and so, where none is parsed, the
parse's; and no delta holds a tag that would have ended it. -/
theorem streamed_agrees (deltas : List Text) (hparse : Parses deltas.flatten tools 0 r)
    (herror : r.error = none) :
    reasoningOf (streamed deltas r) = r.reasoning.flatten ∧
      (r.calls = [] → contentOf (streamed deltas r) = r.content) ∧
      (∃ rs, Before deltas.flatten (contentOf (streamed deltas r)) rs) ∧
      ∀ d ∈ streamed deltas r, d.Clean := by
  have hsettled : StreamSplit.new.Settled := ⟨by decide, by decide⟩
  obtain ⟨hclean, hend⟩ := StreamSplit.clean_pushAll hsettled deltas
  obtain ⟨hgives, hfinish⟩ := StreamSplit.gives_finish hend
  obtain ⟨k, ⟨rs, hbefore, hreasoning, hlen⟩, hblocks⟩ := StreamSplit.gives_pushAll deltas hgives
  have hk : rs.length = (StreamSplit.new.pushAll deltas).2.thinkBlocks := by
    rw [hlen, ← hblocks]
    exact (Nat.zero_add k).symm
  have htext : StreamSplit.new.hold ++ (deltas.flatten ++ []) = deltas.flatten :=
    List.append_nil _
  rw [htext] at hbefore
  obtain ⟨⟨more, hmore⟩, hcontent⟩ := ends_before hbefore hparse rfl rfl herror
  have hmore : rs ++ more = r.reasoning := hmore
  have hrest : r.reasoning.drop (StreamSplit.new.pushAll deltas).2.thinkBlocks = more := by
    rw [← hmore, ← hk, List.drop_left]
  have hsent : contentOf (streamed deltas r) = contentOf (StreamSplit.new.pushAll deltas).1 ++
      contentOf (StreamSplit.new.pushAll deltas).2.finish := by
    rw [streamed]
    dsimp only
    rw [contentOf_append, contentOf_append, contentOf_map_reasoning, List.append_nil]
  refine ⟨?_, fun hnone => ?_, ⟨rs, ?_⟩, ?_⟩
  · rw [streamed]
    dsimp only
    rw [reasoningOf_append, reasoningOf_append, reasoningOf_map_reasoning, hrest, ← hreasoning,
      ← List.flatten_append, hmore]
  · rw [hsent]
    exact (hcontent hnone).symm
  · rwa [hsent]
  · have hblocks := not_infix_reasoning hparse (fun b hb => absurd hb List.not_mem_nil)
    rw [streamed]
    dsimp only
    refine List.forall_mem_append.mpr ⟨List.forall_mem_append.mpr ⟨hclean, hfinish⟩, ?_⟩
    intro d hd
    obtain ⟨b, hb, rfl⟩ := List.mem_map.mp hd
    exact hblocks b (List.mem_of_mem_drop hb)

theorem streamed_agrees_cutTag :
    let deltas := ["a<th".toList, "ink>r</think>b".toList]
    let r : ParseResult ℤ := ⟨"ab".toList, ["r".toList], [], [], none, false⟩
    reasoningOf (streamed deltas r) = r.reasoning.flatten ∧
      (r.calls = [] → contentOf (streamed deltas r) = r.content) ∧
      (∃ rs, Before deltas.flatten (contentOf (streamed deltas r)) rs) ∧
      ∀ d ∈ streamed deltas r, d.Clean := by
  intro deltas r
  have hparses : Parses deltas.flatten [] 0 r := ⟨5, rfl⟩
  exact streamed_agrees deltas hparses rfl

/-- **A closing tag outside a block is content**, to the parse and to the stream. -/
theorem not_streamed_clean_strayTag :
    ¬ ∀ (deltas : List Text) (tools : List (Tool ℤ)) (r : ParseResult ℤ),
      (∀ d ∈ deltas, d ≠ []) → Parses deltas.flatten tools 0 r → r.error = none →
      reasoningOf (streamed deltas r) = r.reasoning.flatten ∧
        (r.calls = [] → contentOf (streamed deltas r) = r.content) ∧
        (∃ rs, Before deltas.flatten (contentOf (streamed deltas r)) rs) ∧
        ∀ d ∈ streamed deltas r, ∀ tag ∈ [th, thEnd, tc, tcEnd], ¬ tag <:+: d.text := by
  intro h
  let r : ParseResult ℤ := ⟨thEnd, [], [], [], none, false⟩
  have hparses : Parses [thEnd].flatten [] 0 r := ⟨9, rfl⟩
  have hdrain : StreamSplit.drain ⟨thEnd, .content, 0⟩ = ([.content thEnd], ⟨[], .content, 0⟩) := by
    rw [StreamSplit.drain, dif_neg (by decide)]
    decide
  have hsent : streamed [thEnd] r = [.content thEnd] := by
    have hpush : StreamSplit.new.pushAll [thEnd] = ([.content thEnd], ⟨[], .content, 0⟩) := by
      rw [StreamSplit.pushAll, if_neg (by decide), show StreamSplit.new.push thEnd = _ from hdrain]
      rfl
    rw [streamed, hpush]
    rfl
  obtain ⟨-, -, -, hclean⟩ := h [thEnd] [] r (by decide) hparses rfl
  refine hclean (.content thEnd) ?_ thEnd (by decide) (List.infix_refl thEnd)
  rw [hsent]
  exact List.mem_singleton_self _

end Api

end Mimo26

import Mimo26.Api.Markup

/-!
# Losslessness of the parser

Each turn of the scan passes a piece of the text and may add to the content or to the reasoning. A
piece is kept when it is what it adds to the content, a think block around what it adds to the
reasoning, or made of complete tool-call blocks. `Lossless` says that every piece is kept: nothing
outside the blocks is dropped.

## Main definitions

* `Block`, `Blocks` — a complete tool-call block after its opening tag, and a run of whole blocks
* `Reading`, `Piece.Kept`, `Lossless` — the pieces of a parse, and that none is dropped
* `Drops` — the text up to the function tag that the search finds is not made of blocks

## Main results

* `blocks_iff_empties`, `blocks_iff_closed` — when what the parser consumes is a run of blocks
* `lossless_iff` — a parse without a report loses nothing exactly when its scan meets no block that
  drops text
-/

namespace Mimo26

namespace Api

open Search Loop

/-! ### Blocks -/

/-- A tool-call block, from after its opening tag through its closing tag. Before a function tag the
block ends at the first closing tag, after one where the call's parameters do. -/
inductive Block : Text → Prop
  | empty {b : Text} : ¬ fn <:+: b → ¬ tcEnd <:+: b → Block (b ++ tcEnd)
  | call {head name w : Text} {ps : List (Text × Text)} {n : ℕ} {fin : Text} : Named head name →
    ¬ tcEnd <:+: head → Items w ps n → fin = [] ∨ fin = fnEnd →
    Block (openCall head name ++ (w ++ (fin ++ tcEnd)))

inductive Blocks : Text → Prop
  | nil : Blocks []
  | cons {b t : Text} : Block b → Blocks t → Blocks (tc ++ (b ++ t))

/-- Blocks without a function tag, the first without its opening tag, and the opening of another. -/
inductive Empties : Text → Prop
  | last {head : Text} : ¬ tcEnd <:+: head → Empties head
  | more {b head : Text} : ¬ tcEnd <:+: b → Empties head → Empties (b ++ (tcEnd ++ (tc ++ head)))

/-- Blocks without a function tag to the end of the text, the first without its opening tag. -/
inductive Closed : Text → Prop
  | last {b : Text} : ¬ tcEnd <:+: b → Closed (b ++ tcEnd)
  | more {b t : Text} : ¬ tcEnd <:+: b → Closed t → Closed (b ++ (tcEnd ++ (tc ++ t)))

theorem find_fn_tcEnd {b : Text} (hb : ¬ fn <:+: b) (t : Text) :
    find fn (b ++ (tcEnd ++ t)) = (find fn t).map (· + (b ++ tcEnd).length) := by
  have hskip : find fn (b ++ (tcEnd ++ t)) = (find fn (tcEnd ++ t)).map (· + b.length) :=
    find_append_cons (c := '<') (p := "function=".toList) (y := "/tool_call>".toList ++ t)
      (by decide) hb
  have htag : find fn (tcEnd ++ t) = (find fn t).map (· + tcEnd.length) :=
    find_pattern_append (c := '<') (p := "function=".toList) (q := "/tool_call>".toList)
      (by decide) (by decide) (by decide) t
  rw [hskip, htag, Option.map_map, List.length_append]
  congr 1
  funext n
  exact Nat.add_assoc n _ _ |>.trans (by rw [Nat.add_comm tcEnd.length])

theorem find_fn_tc (t : Text) : find fn (tc ++ t) = (find fn t).map (· + tc.length) :=
  find_pattern_append (c := '<') (p := "function=".toList) (q := "tool_call>".toList)
    (by decide) (by decide) (by decide) t

/-- A text before the first function tag begins with whatever the search goes past. -/
theorem split_of_find {head v x t : Text} (hhead : ¬ fn <:+: head)
    (heq : x ++ t = head ++ (fn ++ v)) (hskip : find fn (x ++ t) = (find fn t).map (· + x.length)) :
    ∃ head', head = x ++ head' ∧ t = head' ++ (fn ++ v) := by
  rw [heq, find_append headOnce_fn hhead] at hskip
  obtain ⟨k, -, hk⟩ := Option.map_eq_some_iff.mp hskip.symm
  have hlen : x.length ≤ head.length := by omega
  obtain ⟨head', rfl⟩ : x <+: head := List.prefix_of_prefix_length_le (List.prefix_append x t)
    (heq ▸ List.prefix_append head _) hlen
  exact ⟨head', rfl, List.append_cancel_left (heq.trans (List.append_assoc x head' _))⟩

/-- The blocks before a call. -/
theorem Empties.blocks {head w fin : Text} {name : Text} {ps : List (Text × Text)} {n : ℕ}
    (h : Empties head) (hnamed : Named head name) (hw : Items w ps n)
    (hfin : fin = [] ∨ fin = fnEnd) :
    Blocks (tc ++ (openCall head name ++ (w ++ (fin ++ tcEnd)))) := by
  induction h with
  | @last head hhead =>
    have hblocks := Blocks.cons (.call hnamed hhead hw hfin) .nil
    rwa [List.append_nil] at hblocks
  | @more b head hb _ ih =>
    have hfn (part : Text) (hpart : part <:+: b ++ (tcEnd ++ (tc ++ head))) : ¬ fn <:+: part :=
      fun hin => hnamed.1 (hin.trans hpart)
    have hrest : Named head name := ⟨hfn head ⟨b ++ (tcEnd ++ tc), [], by simp⟩, hnamed.2⟩
    have hblock : Block (b ++ tcEnd) := .empty (hfn b ⟨[], _, rfl⟩) hb
    have hsplit : tc ++ (openCall (b ++ (tcEnd ++ (tc ++ head))) name ++ (w ++ (fin ++ tcEnd))) =
        tc ++ ((b ++ tcEnd) ++ (tc ++ (openCall head name ++ (w ++ (fin ++ tcEnd))))) := by
      simp [openCall]
    rw [hsplit]
    exact .cons hblock (ih hrest)

/-- What stands before the function tag of a run of blocks is blocks. -/
theorem Blocks.empties {T head v : Text} (h : Blocks T) (hT : T = tc ++ (head ++ (fn ++ v)))
    (hhead : ¬ fn <:+: head) : Empties head := by
  induction h generalizing head with
  | nil => exact absurd hT.symm (List.append_ne_nil_of_left_ne_nil (by decide) _)
  | @cons b t hb ht ih =>
    have heq : b ++ t = head ++ (fn ++ v) := List.append_cancel_left hT
    cases hb with
    | @empty b hfn htc =>
      rw [List.append_assoc] at heq
      obtain ⟨head', rfl, ht'⟩ := split_of_find hhead ((List.append_assoc _ _ _).trans heq)
        (by rw [List.append_assoc, find_fn_tcEnd hfn])
      have hhead' : ¬ fn <:+: head' := fun hin => hhead (hin.trans ⟨b ++ tcEnd, [], by simp⟩)
      cases ht with
      | nil =>
        have hne : fn ++ v ≠ [] := List.append_ne_nil_of_left_ne_nil (by decide) v
        exact absurd ht'.symm (List.append_ne_nil_of_right_ne_nil head' hne)
      | @cons b' t' hb' ht =>
        obtain ⟨head'', rfl, ht''⟩ := split_of_find hhead' ht' (find_fn_tc _)
        rw [List.append_assoc]
        refine .more htc (ih (by rw [ht'']) fun hin => hhead' (hin.trans ⟨tc, [], by simp⟩))
    | @call head₀ name w ps n fin hnamed htc hw hfin =>
      have hfirst : head₀ ++ (fn ++ (name ++ '>' :: (w ++ (fin ++ tcEnd) ++ t))) =
          head ++ (fn ++ v) := by
        rw [← heq]
        simp [openCall]
      obtain ⟨rfl, -⟩ := append_inj_of_first headOnce_fn hnamed.1 hhead hfirst
      exact .last htc

/-- The blocks at the end of a text without a function tag. -/
theorem Closed.blocks {s : Text} (h : Closed s) (hfn : ¬ fn <:+: s) : Blocks (tc ++ s) := by
  induction h with
  | @last b hb =>
    have hblock : Block (b ++ tcEnd) := .empty (fun hin => hfn (hin.trans ⟨[], tcEnd, rfl⟩)) hb
    have hblocks := Blocks.cons hblock .nil
    rwa [List.append_nil] at hblocks
  | @more b t hb _ ih =>
    have hblock : Block (b ++ tcEnd) := .empty (fun hin => hfn (hin.trans ⟨[], _, rfl⟩)) hb
    have hrest : ¬ fn <:+: t := fun hin => hfn (hin.trans ⟨b ++ (tcEnd ++ tc), [], by simp⟩)
    have hblocks := Blocks.cons hblock (ih hrest)
    rwa [List.append_assoc] at hblocks

theorem Blocks.closed {T s : Text} (h : Blocks T) (hT : T = tc ++ s) (hfn : ¬ fn <:+: s) :
    Closed s := by
  induction h generalizing s with
  | nil => exact absurd hT.symm (List.append_ne_nil_of_left_ne_nil (by decide) _)
  | @cons b t hb ht ih =>
    obtain rfl : b ++ t = s := List.append_cancel_left hT
    cases hb with
    | @empty b hb htc =>
      cases ht with
      | nil =>
        rw [List.append_nil]
        exact .last htc
      | @cons b' t' hb' ht =>
        rw [List.append_assoc]
        exact .more htc (ih rfl fun hin => hfn (hin.trans ⟨b ++ tcEnd ++ tc, [], by simp⟩))
    | @call head name w ps n fin hnamed htc hw hfin =>
      exact absurd ⟨head, name ++ '>' :: (w ++ (fin ++ tcEnd) ++ t), by simp [openCall]⟩ hfn

/-! ### Pieces -/

variable {F : Type} [Fp64 F]

/-- What a turn of the scan passes, and what it adds to the content and to the reasoning. -/
structure Piece where
  text : Text
  content : Text
  reasoning : List Text

/-- Nothing of the piece is dropped. -/
inductive Piece.Kept : Piece → Prop
  | content (x : Text) : Kept ⟨x, x, []⟩
  | think (r : Text) : Kept ⟨th ++ (r ++ thEnd), [], [r]⟩
  /-- A block that the text does not close. -/
  | openThink (r : Text) : Kept ⟨th ++ r, [], [r]⟩
  | blocks {x : Text} : Blocks x → Kept ⟨x, [], []⟩

/-- The piece of the turn from `sc` to `sc'`. -/
def pieceOf (text : Text) (sc sc' : Scan F) : Piece where
  text := (text.drop sc.i).take (sc'.i - sc.i)
  content := sc'.content.drop sc.content.length
  reasoning := sc'.r.reasoning.drop sc.r.reasoning.length

/-- The pieces of the turns from `sc` to the result. -/
inductive Reading (text : Text) (tools : List (Tool F)) (cap : ℕ) :
    Scan F → ParseResult F → List Piece → Prop
  | done {n sc r} : parseStep text tools cap n sc = some (.inr r) → Reading text tools cap sc r []
  | turn {n sc sc' r ps} : parseStep text tools cap n sc = some (.inl sc') →
    Reading text tools cap sc' r ps → Reading text tools cap sc r (pieceOf text sc sc' :: ps)

/-- From `sc` on, the text is the pieces, which are kept, and the result is what they add. -/
def KeptFrom (text : Text) (tools : List (Tool F)) (cap : ℕ) (sc : Scan F) (r : ParseResult F) :
    Prop :=
  ∃ ps, Reading text tools cap sc r ps ∧ (∀ p ∈ ps, p.Kept) ∧
    text.drop sc.i = ps.flatMap Piece.text ∧
    r.content = sc.content ++ ps.flatMap Piece.content ∧
    r.reasoning = sc.r.reasoning ++ ps.flatMap Piece.reasoning

/-- **The text is the interleaving** of the content, the think blocks and complete tool-call blocks,
as the parse passes them. -/
def Lossless (text : Text) (tools : List (Tool F)) (cap : ℕ) (r : ParseResult F) : Prop :=
  KeptFrom text tools cap ⟨0, [], ⟨[], [], [], [], none, false⟩⟩ r

/-- The text up to the function tag that the search finds, or to the end if there is none, is not
made of blocks. -/
def Drops (s : Text) : Prop :=
  (∀ head t, s = head ++ (fn ++ t) → ¬ fn <:+: head → ¬ Empties head) ∧ (¬ fn <:+: s → ¬ Closed s)

/-! ### Turns -/

variable {text : Text} {tools : List (Tool F)} {cap : ℕ} {sc sc' : Scan F} {r : ParseResult F}
  {n : ℕ}

theorem Piece.Kept.to_blocks {p : Piece} (h : p.Kept) (hcontent : p.content = [])
    (hreasoning : p.reasoning = []) : Blocks p.text := by
  cases h with
  | content x =>
    obtain rfl : x = [] := hcontent
    exact .nil
  | think r => exact absurd hreasoning (List.cons_ne_nil r [])
  | openThink r => exact absurd hreasoning (List.cons_ne_nil r [])
  | blocks hx => exact hx

/-- **A turn** that passes `w` and adds `x` and `rs`. -/
theorem keptFrom_turn {w rest x : Text} {rs : List Text}
    (hstep : parseStep text tools cap n sc = some (.inl sc')) (hdrop : text.drop sc.i = w ++ rest)
    (hi : sc'.i = sc.i + w.length) (hx : sc'.content = sc.content ++ x)
    (hrs : sc'.r.reasoning = sc.r.reasoning ++ rs) :
    KeptFrom text tools cap sc r ↔ (⟨w, x, rs⟩ : Piece).Kept ∧ KeptFrom text tools cap sc' r := by
  have hpiece : pieceOf text sc sc' = ⟨w, x, rs⟩ := by
    rw [pieceOf, hdrop, hi, Nat.add_sub_cancel_left, List.take_left, hx, List.drop_left, hrs,
      List.drop_left]
  have hnext : text.drop sc'.i = rest := by
    rw [hi]
    exact drop_cursor hdrop
  constructor
  · rintro ⟨ps, hread, hkept, htext, hcontent, hreasoning⟩
    cases hread with
    | @done m _ _ hdone =>
      have hone := steady_parseStep (Nat.le_max_left n m) hstep
      rw [steady_parseStep (Nat.le_max_right n m) hdone] at hone
      cases hone
    | @turn m _ sc'' _ ps hturn hread =>
      have hone := steady_parseStep (Nat.le_max_left n m) hstep
      rw [steady_parseStep (Nat.le_max_right n m) hturn] at hone
      obtain rfl : sc'' = sc' := Sum.inl.inj (Option.some.inj hone)
      rw [hpiece] at hkept htext hcontent hreasoning
      rw [List.flatMap_cons] at htext hcontent hreasoning
      refine ⟨hkept _ List.mem_cons_self, ps, hread, fun p hp =>
        hkept p (List.mem_cons_of_mem _ hp),
        ?_, ?_, ?_⟩
      · rw [hnext]
        exact List.append_cancel_left (hdrop.symm.trans htext)
      · rw [hcontent, hx, List.append_assoc]
      · rw [hreasoning, hrs, List.append_assoc]
  · rintro ⟨hw, ps, hread, hkept, htext, hcontent, hreasoning⟩
    refine ⟨_, .turn hstep hread, ?_, ?_, ?_, ?_⟩
    · rw [hpiece]
      exact List.forall_mem_cons.mpr ⟨hw, hkept⟩
    · rw [hpiece, List.flatMap_cons, ← htext, hnext, hdrop]
    · rw [hpiece, List.flatMap_cons, hcontent, hx, List.append_assoc]
    · rw [hpiece, List.flatMap_cons, hreasoning, hrs, List.append_assoc]

/-- The tool-call block of a parse without a report or an error passes blocks, unless it drops text.
-/
theorem tool_turn {t : Text} (hcap : Uncapped cap sc.r.calls.length) (h : text.drop sc.i = tc ++ t)
    (hends : Ends (parseStep text tools cap) sc r) (hreports : r.reports = [])
    (herror : r.error = none) :
    ∃ w rest o, Gives t tools o ∧ o.error = none ∧ t = w ++ rest ∧ o.consumed = w.length ∧
      (Blocks (tc ++ w) ↔ ¬ Drops t) ∧ (Calls t rest ∧ (∃ c, o.call = some c) ∨ rest = []) := by
  rcases block_cases t tools with hhangs | ⟨rest, hcalls⟩ | ⟨o, ho, hnone, hall, -, hclean⟩
  · exact absurd hends (not_ends_of_meets (.here hcap hhangs) h rfl r)
  · have hcalls' := hcalls
    obtain ⟨head, name, w, ps, k, fin, rfl, hnamed, hw, hfin⟩ := hcalls
    have hsplit : openCall head name ++ (w ++ (fin ++ (tcEnd ++ rest))) =
        openCall head name ++ (w ++ (fin ++ tcEnd)) ++ rest := by
      simp
    have hfn : openCall head name ++ (w ++ (fin ++ (tcEnd ++ rest))) =
        head ++ (fn ++ (name ++ '>' :: (w ++ (fin ++ (tcEnd ++ rest))))) := by
      simp [openCall]
    refine ⟨_, rest, _, gives_call hnamed hw hfin, rfl, hsplit, rfl, ⟨fun hblocks hdrops => ?_,
      fun hdrops => ?_⟩, .inl ⟨hcalls', _, rfl⟩⟩
    · have hblock : tc ++ (openCall head name ++ (w ++ (fin ++ tcEnd))) =
          tc ++ (head ++ (fn ++ (name ++ '>' :: (w ++ (fin ++ tcEnd))))) := by
        simp [openCall]
      exact hdrops.1 head _ hfn hnamed.1 (hblocks.empties hblock hnamed.1)
    · have hempties : Empties head := by
        by_contra hnot
        refine hdrops ⟨fun head' t' heq hhead' hempties => hnot ?_, fun hno => absurd ?_ hno⟩
        · obtain ⟨rfl, -⟩ := append_inj_of_first headOnce_fn hnamed.1 hhead' (hfn.symm.trans heq)
          exact hempties
        · rw [hfn]
          exact ⟨head, _, List.append_assoc _ _ _⟩
      exact hempties.blocks hnamed hw hfin
  · have herr : o.error = none := by
      cases herr : o.error with
      | none => rfl
      | some e =>
        obtain ⟨n, hn⟩ := ho
        have hstep : parseStep text tools cap n sc = some (.inr { sc.r with
            reports := sc.r.reports ++ o.reports, error := some e, calls := [] }) := by
          rw [parseStep_tool hcap h, hn, Option.map_some, herr]
        rw [hends.unique steady_parseStep (ends_exit hstep)] at herror
        cases herror
    have hrep : o.reports = [] := by
      by_contra hne
      have hgrows := (grows_of_ends ((ends_block hcap h ho herr).mp hends)).reports
      rw [hreports] at hgrows
      exact hne (List.append_eq_nil_iff.mp (List.prefix_nil.mp hgrows)).2
    obtain ⟨hfn, -⟩ := hclean hrep herr
    refine ⟨t, [], o, ho, herr, (List.append_nil t).symm, hall, ⟨fun hblocks hdrops => ?_,
      fun hdrops => ?_⟩, .inr rfl⟩
    · exact hdrops.2 hfn (hblocks.closed rfl hfn)
    · refine Closed.blocks ?_ hfn
      by_contra hnot
      refine hdrops ⟨fun head t' heq _ _ => hfn ?_, fun _ => hnot⟩
      exact ⟨head, t', by rw [heq, List.append_assoc]⟩

/-- The turn over a tool-call block without an error. -/
theorem keptFrom_block {w rest : Text} {o : CallOutcome F} (hcap : Uncapped cap sc.r.calls.length)
    (h : text.drop sc.i = tc ++ (w ++ rest)) (ho : Gives (w ++ rest) tools o)
    (herror : o.error = none) (hw : o.consumed = w.length) :
    KeptFrom text tools cap sc r ↔ Blocks (tc ++ w) ∧ KeptFrom text tools cap (sc.block o) r := by
  obtain ⟨n, hn⟩ := ho
  have hstep : parseStep text tools cap n sc = some (.inl (sc.block o)) := by
    rw [parseStep_tool hcap h, hn, Option.map_some, herror]
  have hi : (sc.block o).i = sc.i + (tc ++ w).length := by
    rw [Scan.block, List.length_append, hw]
  rw [keptFrom_turn hstep (h.trans (List.append_assoc _ _ _).symm) hi (List.append_nil _).symm
    (List.append_nil _).symm]
  exact and_congr_left fun _ => ⟨fun hkept => hkept.to_blocks rfl rfl, .blocks⟩

/-- **A scan that meets no block that drops text** keeps every piece. -/
theorem keptFrom_of_not_meets (hends : Ends (parseStep text tools cap) sc r)
    (hreports : r.reports = []) (herror : r.error = none) (hcapped : r.capped = false)
    (h : ¬ Meets cap Drops sc.r.calls.length (text.drop sc.i)) : KeptFrom text tools cap sc r := by
  induction hlen : (text.drop sc.i).length using Nat.strong_induction_on generalizing sc with
  | _ len ih =>
    subst hlen
    generalize hrest : text.drop sc.i = rest at h ih
    cases ahead rest with
    | nil =>
      have hstep (n : ℕ) : parseStep text tools cap n sc = _ := parseStep_nil hrest n
      obtain rfl := hends.unique steady_parseStep (ends_exit (hstep 0))
      exact ⟨[], .done (hstep 0), fun p hp => absurd hp List.not_mem_nil, hrest,
        (List.append_nil _).symm, (List.append_nil _).symm⟩
    | @think x t hx =>
      have hsplit : text.drop sc.i = th ++ (x ++ thEnd) ++ t := by
        rw [hrest]
        simp
      have hdrop : text.drop (sc.i + (th ++ (x ++ thEnd)).length) = t := drop_cursor hsplit
      refine (keptFrom_turn (parseStep_think hx hrest 0) hsplit rfl (List.append_nil _).symm
        rfl).mpr ⟨.think x, ih _ ?_ ((ends_scan (parseStep_think hx hrest)).mp hends) ?_ rfl⟩
      · rw [hdrop, ← hrest, hsplit]
        exact length_lt_append _ (List.append_ne_nil_of_left_ne_nil (by decide) _) t
      · rw [hdrop]
        exact fun hmeets => h (.think hx hmeets)
    | @openThink x hx =>
      have hpos : 0 < (th ++ x).length :=
        List.length_pos_of_ne_nil (List.append_ne_nil_of_left_ne_nil (by decide) x)
      have hi : text.length = sc.i + (th ++ x).length := by
        have hlen := congrArg List.length hrest
        rw [List.length_drop] at hlen
        omega
      refine (keptFrom_turn (parseStep_openThink hx hrest 0)
        (hrest.trans (List.append_nil _).symm) hi (List.append_nil _).symm rfl).mpr
        ⟨.openThink x, ih _ ?_ ((ends_scan (parseStep_openThink hx hrest)).mp hends) ?_ rfl⟩
      · rw [List.drop_length]
        exact hpos
      · rw [List.drop_length]
        exact fun hmeets => by cases hmeets
    | tool t =>
      by_cases hcap : Uncapped cap sc.r.calls.length
      · obtain ⟨w, rest, o, ho, herr, rfl, hw, hblocks, hnext⟩ :=
          tool_turn hcap hrest hends hreports herror
        have hdrop : text.drop (sc.block o).i = rest := by
          rw [drop_block o hrest, hw, List.drop_left]
        refine (keptFrom_block hcap hrest ho herr hw).mpr ⟨hblocks.mpr fun hdrops => ?_,
          ih _ ?_ ((ends_block hcap hrest ho herr).mp hends) ?_ rfl⟩
        · exact h (.here hcap hdrops)
        · rw [hdrop, ← List.append_assoc]
          exact length_lt_append _ (List.append_ne_nil_of_left_ne_nil (by decide) w) rest
        · rw [hdrop]
          rcases hnext with ⟨hcalls, c, hc⟩ | rfl
          · have hk : (sc.block o).r.calls.length = sc.r.calls.length + 1 := by
              rw [Scan.block, hc, List.length_append]
              rfl
            rw [hk]
            exact fun hmeets => h (.call hcap hcalls hmeets)
          · exact fun hmeets => by cases hmeets
      · obtain rfl := hends.unique steady_parseStep (ends_exit (parseStep_capped hcap hrest 0))
        cases hcapped
    | @char c t hth htc =>
      have hdrop : text.drop (sc.i + 1) = t := drop_cursor (w := [c]) hrest
      refine (keptFrom_turn (parseStep_char hth htc hrest 0) (w := [c]) hrest rfl rfl
        (List.append_nil _).symm).mpr
        ⟨.content [c], ih _ ?_ ((ends_scan (parseStep_char hth htc hrest)).mp hends) ?_ rfl⟩
      · rw [hdrop]
        exact Nat.lt_succ_self _
      · rw [hdrop]
        exact fun hmeets => h (.char hth htc hmeets)

/-- A scan that meets a block that drops text does not. -/
theorem not_keptFrom_of_meets {k : ℕ} {rest : Text} (h : Meets cap Drops k rest)
    (hdrop : text.drop sc.i = rest) (hk : sc.r.calls.length = k)
    (hends : Ends (parseStep text tools cap) sc r) (hreports : r.reports = [])
    (herror : r.error = none) : ¬ KeptFrom text tools cap sc r := by
  induction h generalizing sc with
  | @here k t hcap hdrops =>
    obtain ⟨w, rest, o, ho, herr, rfl, hw, hblocks, -⟩ :=
      tool_turn (hk ▸ hcap) hdrop hends hreports herror
    rw [keptFrom_block (hk ▸ hcap) hdrop ho herr hw]
    exact fun hkept => hblocks.mp hkept.1 hdrops
  | @char k c t hth htc _ ih =>
    rw [keptFrom_turn (parseStep_char hth htc hdrop 0) (w := [c]) hdrop rfl rfl
      (List.append_nil _).symm]
    rintro ⟨-, hkept⟩
    refine ih ?_ ?_ ((ends_scan (parseStep_char hth htc hdrop)).mp hends) hkept
    · exact drop_cursor (w := [c]) hdrop
    · exact hk
  | @think k x t hx _ ih =>
    have hsplit : text.drop sc.i = th ++ (x ++ thEnd) ++ t := by
      rw [hdrop]
      simp
    rw [keptFrom_turn (parseStep_think hx hdrop 0) hsplit rfl (List.append_nil _).symm rfl]
    rintro ⟨-, hkept⟩
    refine ih ?_ ?_ ((ends_scan (parseStep_think hx hdrop)).mp hends) hkept
    · exact drop_cursor hsplit
    · exact hk
  | @call k t rest hcap hcalls _ ih =>
    obtain ⟨o, c, ho, herr, hc, hrest, hlen, -⟩ := hcalls.gives tools
    have hsplit : t = t.take o.consumed ++ rest := by
      rw [← hrest, List.take_append_drop]
    have hw : o.consumed = (t.take o.consumed).length := by
      rw [List.length_take]
      omega
    have hcalls : (sc.block o).r.calls.length = k + 1 := by
      rw [Scan.block, hc, List.length_append, hk]
      rfl
    have hends' := (ends_block (hk ▸ hcap) hdrop ho herr).mp hends
    have hdrop' : text.drop (sc.block o).i = rest := by
      rw [drop_block o hdrop, hrest]
    rw [hsplit] at hdrop ho
    rw [keptFrom_block (hk ▸ hcap) hdrop ho herr hw]
    exact fun hkept => ih hdrop' hcalls hends' hkept.2

/-- **A parse that reports nothing loses nothing** exactly when its scan meets no block that drops
text. -/
theorem lossless_iff (hr : Parses text tools cap r) (hreports : r.reports = [])
    (herror : r.error = none) (hcapped : r.capped = false) :
    Lossless text tools cap r ↔ ¬ Meets cap Drops 0 text :=
  ⟨fun hkept hmeets => not_keptFrom_of_meets hmeets rfl rfl hr hreports herror hkept,
    fun hnot => keptFrom_of_not_meets hr hreports herror hcapped hnot⟩

theorem lossless_thinkThenText : Lossless "<think>r</think>ok".toList ([] : List (Tool ℤ)) 0
    ⟨"ok".toList, ["r".toList], [], [], none, false⟩ := by
  have hparses : Parses "<think>r</think>ok".toList ([] : List (Tool ℤ)) 0
      ⟨"ok".toList, ["r".toList], [], [], none, false⟩ := ⟨4, rfl⟩
  exact (lossless_iff hparses rfl rfl rfl).mpr fun hmeets => absurd hmeets.has_tc (by decide)

theorem Closed.ends_tcEnd {s : Text} (h : Closed s) : tcEnd <:+ s := by
  induction h with
  | last _ => exact List.suffix_append _ _
  | @more b t _ _ ih => exact ih.trans ⟨b ++ (tcEnd ++ tc), by simp⟩

/-- **Text after an empty tool-call block is dropped** without a report. -/
theorem not_lossless_emptyBlock :
    ¬ ∀ (text : Text) (tools : List (Tool ℤ)) (cap : ℕ) (r : ParseResult ℤ),
      Parses text tools cap r →
      r.reports = [] → r.error = none → r.capped = false → Lossless text tools cap r := by
  intro h
  let start : Scan ℤ := ⟨0, [], ⟨[], [], [], [], none, false⟩⟩
  have hparses : Parses "<tool_call></tool_call>hello".toList [] 0 start.r := ⟨3, rfl⟩
  have hdrops : Drops "</tool_call>hello".toList := by
    refine ⟨fun head t heq _ _ => ?_, fun _ hclosed => ?_⟩
    · have hfn : fn <:+: "</tool_call>hello".toList := ⟨head, t, by rw [heq, List.append_assoc]⟩
      exact absurd hfn (by decide)
    · exact absurd hclosed.ends_tcEnd (by decide)
  have hmeets : Meets 0 Drops 0 ("<tool_call></tool_call>hello".toList.drop start.i) :=
    .here (.inl rfl) hdrops
  exact not_keptFrom_of_meets hmeets rfl rfl hparses rfl rfl (h _ _ _ _ hparses rfl rfl rfl)

end Api

end Mimo26

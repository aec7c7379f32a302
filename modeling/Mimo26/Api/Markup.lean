import Mathlib.Data.List.TakeWhile
import Mimo26.Api.Parser

/-!
# The grammar of the markup

What the parser's loops make of a text is read off from how the text is put together. `Items` are
the parameters of a call and what the loop skips between them; every text is items followed by a
place where the loop stops or, at a `<` that opens no tag it knows, turns without moving (`Stuck`).

## Main definitions

* `Items`, `Terminal`, `Stuck` — the body of a call, what ends it, and where the loop never ends
* `Calls`, `Hangs` — the text after an opening tag that is a whole call, or on which the loop hangs
* `Meets` — the scan of a text meets a block with a property

## Main results

* `exists_items` — every text is items and a terminal
* `parse_bounded_iff` — a parse returns, with no more items than the text has characters, exactly
  when its scan meets no block on which the loop hangs -/

namespace Mimo26

namespace Api

open Search Loop

/-! ### Tags -/

theorem headOnce_gt : HeadOnce gt := ⟨'>', [], rfl, List.not_mem_nil⟩
theorem headOnce_lt : HeadOnce ['<'] := ⟨'<', [], rfl, List.not_mem_nil⟩
theorem headOnce_tc : HeadOnce tc := ⟨'<', "tool_call>".toList, by decide, by decide⟩
theorem headOnce_tcEnd : HeadOnce tcEnd := ⟨'<', "/tool_call>".toList, by decide, by decide⟩
theorem headOnce_fn : HeadOnce fn := ⟨'<', "function=".toList, by decide, by decide⟩
theorem headOnce_paEnd : HeadOnce paEnd := ⟨'<', "/parameter>".toList, by decide, by decide⟩
theorem headOnce_th : HeadOnce th := ⟨'<', "think>".toList, by decide, by decide⟩
theorem headOnce_thEnd : HeadOnce thEnd := ⟨'<', "/think>".toList, by decide, by decide⟩

/-- The text is at its end or at a `<`. -/
def AtTag (s : Text) : Prop := ∀ c ∈ s.head?, c = '<'

theorem AtTag.append {w s : Text} (hw : AtTag w) (hs : AtTag s) : AtTag (w ++ s) := by
  cases w with
  | nil => exact hs
  | cons c w => exact hw

theorem AtTag.of_append {w s : Text} (h : AtTag (w ++ s)) : AtTag w := by
  cases w with
  | nil => intro c hc; cases hc
  | cons c w => exact h

/-! ### The body of a call -/

/-- The loop knows no tag that opens here: it turns without moving. -/
def Stuck (s : Text) : Prop :=
  s.head? = some '<' ∧ ¬ fnEnd <+: s ∧ ¬ tcEnd <+: s ∧ ¬ pa <+: s ∧ ¬ paEnd <+: s

/-- Parameters, with the text and the closing tags that the loop skips; the parameters' keys and raw
values, and the number of texts skipped. -/
inductive Items : Text → List (Text × Text) → ℕ → Prop
  | nil : Items [] [] 0
  | stray {junk w ps n} : junk ≠ [] → '<' ∉ junk → AtTag w → Items w ps n →
    Items (junk ++ w) ps (n + 1)
  | close {w ps n} : Items w ps n → Items (paEnd ++ w) ps n
  | param {key value w ps n} : '>' ∉ key → ¬ paEnd <:+: value → Items w ps n →
    Items (pa ++ (key ++ '>' :: (value ++ (paEnd ++ w)))) ((key, value) :: ps) n

/-- Where the items of a body end. -/
inductive Terminal : Text → Prop
  | fnEnd (t : Text) : Terminal (fnEnd ++ t)
  | tcEnd (t : Text) : Terminal (tcEnd ++ t)
  | nil : Terminal []
  | openKey {key} : '>' ∉ key → Terminal (pa ++ key)
  | openValue {key value} : '>' ∉ key → ¬ paEnd <:+: value → Terminal (pa ++ (key ++ '>' :: value))
  | stuck {s} : Stuck s → Terminal s

theorem Terminal.atTag {s : Text} (h : Terminal s) : AtTag s := by
  cases h with
  | fnEnd t => exact fun c hc => (Option.some.inj hc).symm
  | tcEnd t => exact fun c hc => (Option.some.inj hc).symm
  | nil => exact fun c hc => nomatch hc
  | openKey h => exact fun c hc => (Option.some.inj hc).symm
  | openValue h h' => exact fun c hc => (Option.some.inj hc).symm
  | stuck h => exact fun c hc => Option.some.inj (hc.symm.trans h.1)

theorem length_lt_append (pat : Text) (hpat : pat ≠ []) (t : Text) :
    t.length < (pat ++ t).length := by
  have hpos := List.length_pos_of_ne_nil hpat
  rw [List.length_append]
  omega

/-- **Every text is items and a terminal.** -/
theorem exists_items (s : Text) : ∃ w ps n e, s = w ++ e ∧ Items w ps n ∧ Terminal e := by
  induction hlen : s.length using Nat.strong_induction_on generalizing s with
  | _ len ih =>
    subst hlen
    by_cases hfn : fnEnd <+: s
    · obtain ⟨t, rfl⟩ := hfn
      exact ⟨[], [], 0, _, rfl, .nil, .fnEnd t⟩
    by_cases htc : tcEnd <+: s
    · obtain ⟨t, rfl⟩ := htc
      exact ⟨[], [], 0, _, rfl, .nil, .tcEnd t⟩
    by_cases hpa : pa <+: s
    · obtain ⟨t, rfl⟩ := hpa
      by_cases hgt : '>' ∈ t
      · obtain ⟨key, t, rfl, hkey⟩ := List.eq_append_cons_of_mem hgt
        by_cases hend : paEnd <:+: t
        · obtain ⟨value, t, rfl, hvalue⟩ := exists_first headOnce_paEnd.ne_nil hend
          obtain ⟨w, ps, n, e, rfl, hw, he⟩ := ih t.length (by simp; omega) t rfl
          refine ⟨_, _, n, e, ?_, .param hkey hvalue hw, he⟩
          simp
        · exact ⟨[], [], 0, _, rfl, .nil, .openValue hkey hend⟩
      · exact ⟨[], [], 0, _, rfl, .nil, .openKey hgt⟩
    by_cases hpaEnd : paEnd <+: s
    · obtain ⟨t, rfl⟩ := hpaEnd
      obtain ⟨w, ps, n, e, rfl, hw, he⟩ := ih t.length (length_lt_append paEnd (by decide) t) t rfl
      exact ⟨_, ps, n, e, (List.append_assoc _ _ _).symm, .close hw, he⟩
    cases s with
    | nil => exact ⟨[], [], 0, [], rfl, .nil, .nil⟩
    | cons c t =>
      by_cases hc : c = '<'
      · exact ⟨[], [], 0, _, rfl, .nil, .stuck ⟨by rw [hc]; rfl, hfn, htc, hpa, hpaEnd⟩⟩
      · -- Stray text, up to the next `<`.
        let junk := (c :: t).takeWhile (· ≠ '<')
        let more := (c :: t).dropWhile (· ≠ '<')
        have hjunk : junk = c :: t.takeWhile (· ≠ '<') :=
            List.takeWhile_cons_of_pos (by simpa using hc)
        have hmore : more = t.dropWhile (· ≠ '<') := List.dropWhile_cons_of_pos (by simpa using hc)
        have hlt : more.length < (c :: t).length := by
          rw [hmore, List.length_cons]
          exact Nat.lt_succ_of_le (List.dropWhile_sublist _).length_le
        obtain ⟨w, ps, n, e, hsplit, hw, he⟩ := ih _ hlt more rfl
        have hat : AtTag more := by
          intro d hd
          have hnot := List.head?_dropWhile_not (fun c => decide (c ≠ '<')) (c :: t)
          rw [show (c :: t).dropWhile (fun c => decide (c ≠ '<')) = more from rfl, hd] at hnot
          simpa using hnot
        refine ⟨junk ++ w, ps, n + 1, e, ?_, .stray ?_ ?_ (hsplit ▸ hat).of_append hw, he⟩
        · rw [List.append_assoc, ← hsplit, List.takeWhile_append_dropWhile]
        · rw [hjunk]
          exact List.cons_ne_nil _ _
        · intro hmem
          simpa using List.mem_takeWhile_imp hmem

/-! ### The loop over a body -/

variable {F : Type} [Fp64 F] {s : Text} {tool : Option (Tool F)} {b : Body F}

/-- The turns of the loop, as the loop runs them. -/
def bodyTurn (s : Text) (tool : Option (Tool F)) : ℕ → Body F → Option (Body F ⊕ BodyEnd F) :=
  fun _ b => some (bodyStep s tool b)

theorem steady_bodyTurn : Steady (bodyTurn s tool) := steady_some (bodyStep s tool)

theorem bodyStep_fnEnd {t : Text} (h : s.drop b.cursor = fnEnd ++ t) :
    bodyStep s tool b = .inr (.break { b with cursor := b.cursor + fnEnd.length }) := by
  rw [bodyStep, h]
  exact if_pos (List.prefix_append fnEnd t)

theorem bodyStep_tcEnd {t : Text} (h : s.drop b.cursor = tcEnd ++ t) :
    bodyStep s tool b = .inr (.break b) := by
  rw [bodyStep, h]
  exact (if_neg (not_prefix_append (by decide) (by decide) t)).trans
    (if_pos (.inl (List.prefix_append tcEnd t)))

theorem bodyStep_nil (h : s.drop b.cursor = []) : bodyStep s tool b = .inr (.break b) := by
  rw [bodyStep, h]
  exact (if_neg (by decide)).trans (if_pos (.inr rfl))

theorem bodyStep_pa {t : Text} (h : s.drop b.cursor = pa ++ t) :
    bodyStep s tool b =
      match find gt t with
      | none =>
        .inr (.break { b with
          cursor := b.cursor + (pa ++ t).length
          reports := b.reports ++ [unparsedTail] })
      | some q =>
        match find paEnd (t.drop (q + 1)) with
        | some q' =>
          .inl { b with
            cursor := b.cursor + (pa.length + q + gt.length + q' + paEnd.length)
            args := b.args ++ [(t.take q, coerce ((t.drop (q + 1)).take q') tool (t.take q))] }
        | none => .inr (.lost (b.reports ++ [lostCall])) := by
  have hne : pa ++ t ≠ [] := List.append_ne_nil_of_left_ne_nil (by decide) t
  rw [bodyStep, h]
  refine (if_neg (not_prefix_append (by decide) (by decide) t)).trans ?_
  refine (if_neg (not_or_intro (not_prefix_append (by decide) (by decide) t) hne)).trans ?_
  refine (if_pos (List.prefix_append pa t)).trans ?_
  rw [List.drop_left]
  cases find gt t with
  | none => rfl
  | some q =>
    have hkey : ((pa ++ t).take (pa.length + q)).drop pa.length = t.take q := by
      rw [List.take_length_add_append, List.drop_left]
    have htail : (pa ++ t).drop (pa.length + q + gt.length) = t.drop (q + 1) := by
      rw [Nat.add_assoc, List.drop_length_add_append]
      rfl
    dsimp only
    rw [hkey, htail] <;> rfl

/-- A parameter: the value runs to the first closing tag. -/
theorem bodyStep_param {key value t : Text} (hkey : '>' ∉ key) (hvalue : ¬ paEnd <:+: value)
    (h : s.drop b.cursor = pa ++ (key ++ '>' :: (value ++ (paEnd ++ t)))) :
    bodyStep s tool b = .inl { b with
      cursor := b.cursor + (pa ++ (key ++ '>' :: (value ++ paEnd))).length
      args := b.args ++ [(key, coerce value tool key)] } := by
  have hdrop : (key ++ '>' :: (value ++ (paEnd ++ t))).drop (key.length + 1) =
      value ++ (paEnd ++ t) := by
    rw [List.drop_length_add_append, List.drop_one, List.tail_cons]
  have hlen : pa.length + key.length + gt.length + value.length + paEnd.length =
      (pa ++ (key ++ '>' :: (value ++ paEnd))).length := by
    simp only [List.length_append, List.length_cons, gt]
    rw [show ">".toList.length = 1 from rfl]
    omega
  have hgt : find gt (key ++ '>' :: (value ++ (paEnd ++ t))) = some key.length := find_char hkey _
  have hend : find paEnd (value ++ (paEnd ++ t)) = some value.length :=
    find_append headOnce_paEnd hvalue t
  rw [bodyStep_pa h, hgt]
  dsimp only
  rw [hdrop, hend]
  dsimp only
  rw [List.take_left, List.take_left, hlen]

theorem bodyStep_paEnd {t : Text} (h : s.drop b.cursor = paEnd ++ t) :
    bodyStep s tool b = .inl { b with cursor := b.cursor + paEnd.length } := by
  have hne : paEnd ++ t ≠ [] := List.append_ne_nil_of_left_ne_nil (by decide) t
  rw [bodyStep, h]
  refine (if_neg (not_prefix_append (by decide) (by decide) t)).trans ?_
  refine (if_neg (not_or_intro (not_prefix_append (by decide) (by decide) t) hne)).trans ?_
  exact (if_neg (not_prefix_append (by decide) (by decide) t)).trans
    (if_pos (List.prefix_append paEnd t))

/-- Where no tag opens, the loop goes to the next `<`. -/
theorem bodyStep_stray {rest : Text} (h : s.drop b.cursor = rest) (hne : rest ≠ [])
    (hfn : ¬ fnEnd <+: rest) (htc : ¬ tcEnd <+: rest) (hpa : ¬ pa <+: rest)
    (hpaEnd : ¬ paEnd <+: rest) :
    bodyStep s tool b = .inl { b with
      cursor := b.cursor + (find ['<'] rest).getD rest.length
      reports := b.reports ++ [unparsedTail] } := by
  rw [bodyStep, h]
  refine (if_neg hfn).trans ((if_neg (not_or_intro htc hne)).trans ?_)
  exact (if_neg hpa).trans (if_neg hpaEnd)

theorem not_begins_of_ne {pat t : Text} {c : Char} (hpat : pat.head? = some '<') (hc : c ≠ '<') :
    ¬ pat <+: c :: t := by
  rintro ⟨u, hu⟩
  have hhead := congrArg List.head? hu
  rw [List.head?_append, hpat] at hhead
  exact hc (Option.some.inj hhead).symm

theorem bodyStep_junk {junk t : Text} (hne : junk ≠ []) (hjunk : '<' ∉ junk) (ht : AtTag t)
    (h : s.drop b.cursor = junk ++ t) :
    bodyStep s tool b = .inl { b with
      cursor := b.cursor + junk.length
      reports := b.reports ++ [unparsedTail] } := by
  obtain ⟨c, junk', rfl⟩ := List.exists_cons_of_ne_nil hne
  have hc : c ≠ '<' := fun heq => hjunk (heq ▸ List.mem_cons_self)
  have hfind : (find ['<'] (c :: junk' ++ t)).getD (c :: junk' ++ t).length =
      (c :: junk').length := by
    cases t with
    | nil => rw [List.append_nil, find_char_none hjunk, Option.getD_none]
    | cons d t =>
      obtain rfl := ht d rfl
      rw [find_char hjunk, Option.getD_some]
  rw [bodyStep_stray h (List.cons_ne_nil c _) (not_begins_of_ne (by decide) hc)
    (not_begins_of_ne (by decide) hc) (not_begins_of_ne (by decide) hc)
      (not_begins_of_ne (by decide) hc),
    hfind]

/-- **A stuck loop turns without moving**, and reports at every turn. -/
theorem bodyStep_stuck (h : Stuck (s.drop b.cursor)) :
    bodyStep s tool b = .inl { b with reports := b.reports ++ [unparsedTail] } := by
  obtain ⟨hhead, hfn, htc, hpa, hpaEnd⟩ := h
  obtain ⟨t, ht⟩ : ∃ t, s.drop b.cursor = '<' :: t := List.head?_eq_some_iff.mp hhead
  have hfind : find ['<'] ('<' :: t) = some 0 := find_of_begins ⟨t, rfl⟩
  rw [bodyStep_stray rfl (by rw [ht]; exact List.cons_ne_nil _ _) hfn htc hpa hpaEnd, ht, hfind]
  rfl

theorem ends_body {b' : Body F} (h : bodyStep s tool b = .inl b') {x : BodyEnd F} :
    Ends (bodyTurn s tool) b x ↔ Ends (bodyTurn s tool) b' x :=
  ends_next steady_bodyTurn (n := 0) (congrArg some h)

/-- The loop's locals after items. -/
def Body.after (b : Body F) (tool : Option (Tool F)) (w : Text) (ps : List (Text × Text)) (n : ℕ) :
    Body F where
  cursor := b.cursor + w.length
  args := b.args ++ ps.map fun p => (p.1, coerce p.2 tool p.1)
  reports := b.reports ++ List.replicate n unparsedTail

theorem drop_cursor {k : ℕ} {w t : Text} (h : s.drop k = w ++ t) : s.drop (k + w.length) = t := by
  rw [← List.drop_drop, h, List.drop_left]

/-- **The loop over items** goes on after them, with their arguments and a report for each stray
text. -/
theorem ends_items {w e : Text} {ps : List (Text × Text)} {n : ℕ} (hw : Items w ps n) (he : AtTag e)
    (h : s.drop b.cursor = w ++ e) (x : BodyEnd F) :
    Ends (bodyTurn s tool) b x ↔ Ends (bodyTurn s tool) (b.after tool w ps n) x := by
  induction hw generalizing b with
  | nil => simp [Body.after]
  | @stray junk w ps n hne hjunk hat hw ih =>
    rw [List.append_assoc] at h
    rw [ends_body (bodyStep_junk hne hjunk (hat.append he) h), ih (drop_cursor h)]
    simp [Body.after, Nat.add_assoc, List.replicate_succ]
  | @close w ps n hw ih =>
    rw [List.append_assoc] at h
    rw [ends_body (bodyStep_paEnd h), ih (drop_cursor h)]
    simp [Body.after, Nat.add_assoc]
  | @param key value w ps n hkey hvalue hw ih =>
    have hparam : s.drop b.cursor = pa ++ (key ++ '>' :: (value ++ (paEnd ++ (w ++ e)))) := by
      rw [h]
      simp
    have hmore : s.drop b.cursor = pa ++ (key ++ '>' :: (value ++ paEnd)) ++ (w ++ e) := by
      rw [h]
      simp
    have hlen : b.cursor + (pa ++ (key ++ '>' :: (value ++ paEnd))).length + w.length =
        b.cursor + (pa ++ (key ++ '>' :: (value ++ (paEnd ++ w)))).length := by
      simp only [List.length_append, List.length_cons]
      omega
    rw [ends_body (bodyStep_param hkey hvalue hparam), ih (drop_cursor hmore)]
    simp only [Body.after, hlen, List.map_cons, List.append_assoc, List.cons_append,
      List.nil_append]

/-- What the loop says of a body, by its terminal. -/
theorem ends_exit_items {w e : Text} {ps : List (Text × Text)} {n : ℕ} (hw : Items w ps n)
    (he : AtTag e) (h : s.drop b.cursor = w ++ e) {x : BodyEnd F}
    (hx : bodyStep s tool (b.after tool w ps n) = .inr x) : Ends (bodyTurn s tool) b x :=
  (ends_items hw he h x).mpr (ends_exit (n := 0) (congrArg some hx))

theorem not_ends_stuck (h : Stuck (s.drop b.cursor)) (x : BodyEnd F) :
    ¬ Ends (bodyTurn s tool) b x := by
  have hinv : ∀ b : Body F, Stuck (s.drop b.cursor) → ∀ n y, bodyTurn s tool n b = some y →
      ∃ b', y = .inl b' ∧ Stuck (s.drop b'.cursor) := by
    intro b hb n y hy
    rw [bodyTurn, bodyStep_stuck hb] at hy
    exact ⟨_, (Option.some.inj hy).symm, hb⟩
  exact not_ends_of_inv hinv h x

theorem Items.strays_le {w : Text} {ps : List (Text × Text)} {n : ℕ} (h : Items w ps n) :
    n ≤ w.length := by
  induction h with
  | nil => exact Nat.le_refl 0
  | @stray junk w ps n hne hjunk hat hw ih =>
    have hpos := List.length_pos_of_ne_nil hne
    rw [List.length_append]
    omega
  | close hw ih =>
    rw [List.length_append]
    omega
  | param hkey hvalue hw ih =>
    simp only [List.length_append, List.length_cons]
    omega

/-! ### A tool-call block -/

/-- The text up to the parameters of a call. -/
def openCall (head name : Text) : Text := head ++ (fn ++ (name ++ ['>']))

/-- The call is the one that the parser reads: the first function tag, with a name. -/
def Named (head name : Text) : Prop := ¬ fn <:+: head ∧ '>' ∉ name ∧ name ≠ []

/-- The text after an opening tag is a whole call and `rest`. -/
def Calls (s rest : Text) : Prop :=
  ∃ head name w ps n fin, s = openCall head name ++ (w ++ (fin ++ (tcEnd ++ rest))) ∧
    Named head name ∧ Items w ps n ∧ (fin = [] ∨ fin = fnEnd)

/-- After the parameters of the call stands a `<` that opens no tag the loop knows. -/
def Hangs (s : Text) : Prop :=
  ∃ head name w ps n e, s = openCall head name ++ (w ++ e) ∧ Named head name ∧ Items w ps n ∧
    Stuck e

variable {tools : List (Tool F)}

/-- `parseCall` returns `o`. -/
def Gives (s : Text) (tools : List (Tool F)) (o : CallOutcome F) : Prop :=
  ∃ fuel, parseCall fuel s tools = some o

theorem parseCall_mono {n m : ℕ} (hnm : n ≤ m) {o : CallOutcome F}
    (h : parseCall n s tools = some o) : parseCall m s tools = some o := by
  unfold parseCall at h ⊢
  split
  · next hfn => rwa [hfn] at h
  · next p hfn =>
    rw [hfn] at h
    dsimp only at h ⊢
    split
    · next hgt => rwa [hgt] at h
    · next q hgt =>
      rw [hgt] at h
      dsimp only at h
      split_ifs at h ⊢
      · exact h
      · obtain ⟨x, hx, rfl⟩ := Option.map_eq_some_iff.mp h
        exact Option.map_eq_some_iff.mpr ⟨x, loop_mono steady_bodyTurn hnm hx, rfl⟩

theorem Gives.unique {o o' : CallOutcome F} (h : Gives s tools o) (h' : Gives s tools o') :
    o = o' := by
  obtain ⟨n, hn⟩ := h
  obtain ⟨m, hm⟩ := h'
  have hn := parseCall_mono (Nat.le_max_left n m) hn
  have hm := parseCall_mono (Nat.le_max_right n m) hm
  exact Option.some.inj (hn.symm.trans hm)

/-- The first locals of the loop over a call's parameters. -/
def Body.start (head name : Text) : Body F := ⟨(openCall head name).length, [], []⟩

theorem parseCall_named {head name : Text} (h : Named head name) (body : Text) (fuel : ℕ) :
    parseCall fuel (openCall head name ++ body) tools =
      (loop (bodyTurn (openCall head name ++ body)
        (tools.find? fun t => t.function.name = name)) fuel (Body.start head name)).map
        (closeCall (openCall head name ++ body) name) := by
  obtain ⟨hhead, hname, hne⟩ := h
  have hsplit : openCall head name ++ body = head ++ (fn ++ (name ++ '>' :: body)) := by
    simp [openCall]
  have hfn : find fn (openCall head name ++ body) = some head.length := by
    rw [hsplit]
    exact find_append headOnce_fn hhead _
  have hdrop : (openCall head name ++ body).drop (head.length + fn.length) = name ++
      '>' :: body := by
    rw [hsplit, List.drop_length_add_append, List.drop_left]
  have hgt : find gt (name ++ '>' :: body) = some name.length := find_char hname body
  have htake : ((openCall head name ++ body).take (head.length + fn.length + name.length)).drop
      (head.length + fn.length) = name := by
    rw [List.drop_take, hdrop, Nat.add_sub_cancel_left, List.take_left]
  have hlen : head.length + fn.length + name.length + gt.length = (openCall head name).length := by
    simp only [openCall, List.length_append, gt]
    rw [show ">".toList.length = 1 from rfl, List.length_singleton]
    omega
  rw [parseCall, hfn]
  dsimp only
  rw [hdrop, hgt]
  dsimp only
  rw [htake, if_neg hne, hlen]
  rfl

omit [Fp64 F] in
theorem drop_start {head name body : Text} :
    (openCall head name ++ body).drop (Body.start head name : Body F).cursor = body :=
  List.drop_left

theorem gives_of_ends {head name body : Text} (h : Named head name) {x : BodyEnd F}
    (hx : Ends (bodyTurn (openCall head name ++ body)
      (tools.find? fun t => t.function.name = name)) (Body.start head name) x) :
    Gives (openCall head name ++ body) tools (closeCall (openCall head name ++ body) name x) := by
  obtain ⟨fuel, hfuel⟩ := hx
  exact ⟨fuel, by rw [parseCall_named h, hfuel]; rfl⟩

/-- **A block on which the loop hangs.** -/
theorem Hangs.parseCall_eq_none (h : Hangs s) (fuel : ℕ) : parseCall fuel s tools = none := by
  obtain ⟨head, name, w, ps, n, e, rfl, hnamed, hw, he⟩ := h
  rw [parseCall_named hnamed, Option.map_eq_none_iff, ← Option.not_isSome_iff_eq_none,
    Option.isSome_iff_exists]
  rintro ⟨x, hx⟩
  have hends := (ends_items hw (Terminal.stuck he).atTag drop_start x).mp ⟨fuel, hx⟩
  refine not_ends_stuck ?_ x hends
  rwa [Body.after, drop_cursor drop_start]

/-- The arguments of a call. -/
def callArgs (tools : List (Tool F)) (name : Text) (ps : List (Text × Text)) : Json F :=
  .object (ps.map fun p => (p.1, coerce p.2 (tools.find? fun t => t.function.name = name) p.1))

/-- **A whole call**: its name, its parameters, a report for each stray text, and the characters up
to its closing tag. -/
theorem gives_call {head name w rest fin : Text} {ps : List (Text × Text)} {n : ℕ}
    (h : Named head name) (hw : Items w ps n) (hfin : fin = [] ∨ fin = fnEnd) :
    Gives (openCall head name ++ (w ++ (fin ++ (tcEnd ++ rest)))) tools
      ⟨some ⟨name, callArgs tools name ps⟩, (openCall head name ++ (w ++ (fin ++ tcEnd))).length,
        List.replicate n unparsedTail, none⟩ := by
  let s := openCall head name ++ (w ++ (fin ++ (tcEnd ++ rest)))
  let tool := tools.find? fun t => t.function.name = name
  have hstart : s.drop (Body.start head name : Body F).cursor = w ++ (fin ++ (tcEnd ++ rest)) :=
    drop_start
  have hafter := drop_cursor hstart
  have hat : AtTag (fin ++ (tcEnd ++ rest)) := by
    rcases hfin with rfl | rfl
    · exact (Terminal.tcEnd rest).atTag
    · exact (Terminal.fnEnd _).atTag
  -- Past the closing tag of the function, if it is there.
  let b : Body F := { (Body.start head name : Body F).after tool w ps n with
    cursor := (openCall head name).length + w.length + fin.length }
  have hends : Ends (bodyTurn s tool) (Body.start head name) (.break b) := by
    refine ends_exit_items hw hat hstart ?_
    rcases hfin with rfl | rfl
    · exact bodyStep_tcEnd hafter
    · exact bodyStep_fnEnd hafter
  have hclose : closeCall s name (.break b) =
      ⟨some ⟨name, .object b.args⟩, b.cursor + tcEnd.length, b.reports, none⟩ := by
    refine if_pos ?_
    rw [show s.drop b.cursor = tcEnd ++ rest from drop_cursor hafter]
    exact List.prefix_append tcEnd rest
  have hgives := gives_of_ends h hends
  rw [hclose] at hgives
  have hlen : b.cursor + tcEnd.length = (openCall head name ++ (w ++ (fin ++ tcEnd))).length := by
    simp only [List.length_append, b]
    omega
  rwa [hlen] at hgives

/-- What a block without a call gives: nothing, and all of the text consumed. -/
def Lost (s : Text) (o : CallOutcome F) : Prop :=
  o.call = none ∧ o.consumed = s.length ∧ o.reports.length ≤ s.length + 2 ∧
    (o.reports = [] → o.error = none → ¬ fn <:+: s ∧ ¬ pa <:+: s)

omit [Fp64 F] in
theorem lost_closeCall {name : Text} {b : Body F} (hreports : b.reports.length ≤ s.length + 1)
    (hnot : ¬ tcEnd <+: s.drop b.cursor) : Lost s (closeCall s name (.break b)) := by
  have hclose : closeCall s name (.break b) = ⟨none, s.length, b.reports ++ [lostCall], none⟩ :=
    if_neg hnot
  rw [hclose]
  refine ⟨rfl, rfl, ?_, fun hnil => absurd hnil (by simp)⟩
  rw [List.length_append, List.length_singleton]
  omega

/-- **A block with a function tag** hangs, is a whole call or is lost. -/
theorem block_cases_named {head name body : Text} (h : Named head name) :
    Hangs (openCall head name ++ body) ∨ (∃ rest, Calls (openCall head name ++ body) rest) ∨
      ∃ o, Gives (openCall head name ++ body) tools o ∧ Lost (openCall head name ++ body) o := by
  obtain ⟨w, ps, n, e, rfl, hw, he⟩ := exists_items body
  let s := openCall head name ++ (w ++ e)
  let tool := tools.find? fun t => t.function.name = name
  let after : Body F := (Body.start head name).after tool w ps n
  have hafter : s.drop after.cursor = e := drop_cursor drop_start
  have hn : after.reports.length ≤ s.length := by
    have hn := hw.strays_le
    simp only [after, s, Body.after, Body.start, List.nil_append, List.length_replicate,
      List.length_append]
    omega
  have hlost {x : BodyEnd F} (hx : bodyStep s tool after = .inr x)
      (h' : Lost s (closeCall s name x)) : ∃ o, Gives s tools o ∧ Lost s o :=
    ⟨_, gives_of_ends h (ends_exit_items hw he.atTag drop_start hx), h'⟩
  cases he with
  | fnEnd t =>
    by_cases htc : tcEnd <+: t
    · obtain ⟨rest, rfl⟩ := htc
      exact .inr (.inl ⟨rest, head, name, w, ps, n, fnEnd, rfl, h, hw, .inr rfl⟩)
    · refine .inr (.inr (hlost (bodyStep_fnEnd hafter) (lost_closeCall (Nat.le_succ_of_le hn) ?_)))
      rwa [drop_cursor hafter]
  | tcEnd rest => exact .inr (.inl ⟨rest, head, name, w, ps, n, [], rfl, h, hw, .inl rfl⟩)
  | nil =>
    refine .inr (.inr (hlost (bodyStep_nil hafter) (lost_closeCall (Nat.le_succ_of_le hn) ?_)))
    rw [hafter]
    decide
  | @openKey key hkey =>
    have hstep : bodyStep s tool after = _ := bodyStep_pa hafter
    rw [show find gt key = none from find_char_none hkey] at hstep
    refine .inr (.inr (hlost hstep (lost_closeCall ?_ ?_)))
    · rw [List.length_append, List.length_singleton]
      exact Nat.succ_le_succ hn
    · rw [drop_cursor (hafter.trans (List.append_nil _).symm)]
      decide
  | @openValue key value hkey hvalue =>
    have hstep : bodyStep s tool after = _ := bodyStep_pa hafter
    have hdrop : (key ++ '>' :: value).drop (key.length + 1) = value := by
      rw [List.drop_length_add_append, List.drop_one, List.tail_cons]
    rw [show find gt (key ++ '>' :: value) = some key.length from find_char hkey value] at hstep
    dsimp only at hstep
    rw [hdrop, (find_eq_none headOnce_paEnd.ne_nil).mpr hvalue] at hstep
    refine .inr (.inr (hlost hstep ⟨rfl, rfl, ?_, fun hnil => ?_⟩))
    swap
    · exact absurd hnil (List.append_ne_nil_of_right_ne_nil _ (List.cons_ne_nil _ _))
    show (after.reports ++ [lostCall]).length ≤ s.length + 2
    rw [List.length_append, List.length_singleton]
    omega
  | stuck hstuck => exact .inl ⟨head, name, w, ps, n, e, rfl, h, hw, hstuck⟩

/-- **What a block can be**: the loop hangs on it, it is a whole call, or it is lost. -/
theorem block_cases (s : Text) (tools : List (Tool F)) :
    Hangs s ∨ (∃ rest, Calls s rest) ∨ ∃ o, Gives s tools o ∧ Lost s o := by
  by_cases hfn : fn <:+: s
  · obtain ⟨head, t, rfl, hhead⟩ := exists_first headOnce_fn.ne_nil hfn
    have hfind : find fn (head ++ (fn ++ t)) = some head.length := find_append headOnce_fn hhead t
    have hdrop : (head ++ (fn ++ t)).drop (head.length + fn.length) = t := by
      rw [List.drop_length_add_append, List.drop_left]
    by_cases hgt : '>' ∈ t
    · obtain ⟨name, body, rfl, hname⟩ := List.eq_append_cons_of_mem hgt
      by_cases hne : name = []
      · have htake : ((head ++ (fn ++ (name ++ '>' :: body))).take
            (head.length + fn.length + name.length)).drop (head.length + fn.length) = name := by
          rw [List.drop_take, hdrop, Nat.add_sub_cancel_left, List.take_left]
        refine .inr (.inr ⟨⟨none, _, [], some namelessCall⟩, ⟨0, ?_⟩, rfl, rfl, Nat.zero_le _,
          fun _ h => nomatch h⟩)
        rw [parseCall, hfind]
        dsimp only
        rw [hdrop, show find gt (name ++ '>' :: body) = some name.length from find_char hname body]
        dsimp only
        rw [htake, if_pos hne]
      · have hsplit : head ++ (fn ++ (name ++ '>' :: body)) = openCall head name ++ body := by
          simp [openCall]
        rw [hsplit]
        exact block_cases_named ⟨hhead, hname, hne⟩
    · refine .inr (.inr ⟨⟨none, _, [lostCall], none⟩, ⟨0, ?_⟩, rfl, rfl, ?_, fun h => nomatch h⟩)
      · rw [parseCall, hfind]
        dsimp only
        rw [hdrop, show find gt t = none from find_char_none hgt]
      · exact Nat.le_add_left 1 _
  · have hfind : find fn s = none := (find_eq_none headOnce_fn.ne_nil).mpr hfn
    by_cases hpa : pa <:+: s
    · refine .inr (.inr ⟨⟨none, s.length, [], some namelessCall⟩, ⟨0, ?_⟩, rfl, rfl, Nat.zero_le _,
        fun _ h => nomatch h⟩)
      rw [parseCall, hfind]
      exact if_pos hpa
    · refine .inr (.inr ⟨⟨none, s.length, [], none⟩, ⟨0, ?_⟩, rfl, rfl, Nat.zero_le _,
        fun _ _ => ⟨hfn, hpa⟩⟩)
      rw [parseCall, hfind]
      exact if_neg hpa

/-! ### The scan of a text -/

/-- A tool-call block is still read after `k` calls. -/
def Uncapped (cap k : ℕ) : Prop := cap = 0 ∨ k < cap

/-- The scan of a text, with `k` calls made, meets an opening tag after which `Q` holds of the text.
-/
inductive Meets (cap : ℕ) (Q : Text → Prop) : ℕ → Text → Prop
  | here {k s} : Uncapped cap k → Q s → Meets cap Q k (tc ++ s)
  | char {k c t} : ¬ th <+: c :: t → ¬ tc <+: c :: t → Meets cap Q k t → Meets cap Q k (c :: t)
  | think {k r t} : ¬ thEnd <:+: r → Meets cap Q k t → Meets cap Q k (th ++ (r ++ (thEnd ++ t)))
  | call {k s rest} : Uncapped cap k → Calls s rest → Meets cap Q (k + 1) rest →
    Meets cap Q k (tc ++ s)

theorem Meets.has_tc {cap k : ℕ} {Q : Text → Prop} {t : Text} (h : Meets cap Q k t) :
    tc <:+: t := by
  induction h with
  | here _ _ => exact List.infix_append_left
  | @char k c t _ _ _ ih => exact List.infix_cons ih
  | @think k r t _ _ ih =>
    exact ih.trans ⟨th ++ (r ++ thEnd), [], by simp⟩
  | call _ _ _ _ => exact List.infix_append_left

/-- What stands at a place of a text, to the scan. -/
inductive Ahead : Text → Prop
  | nil : Ahead []
  | think {r t} : ¬ thEnd <:+: r → Ahead (th ++ (r ++ (thEnd ++ t)))
  | openThink {r} : ¬ thEnd <:+: r → Ahead (th ++ r)
  | tool (t : Text) : Ahead (tc ++ t)
  | char {c t} : ¬ th <+: c :: t → ¬ tc <+: c :: t → Ahead (c :: t)

theorem ahead (s : Text) : Ahead s := by
  by_cases hth : th <+: s
  · obtain ⟨t, rfl⟩ := hth
    by_cases hend : thEnd <:+: t
    · obtain ⟨r, t, rfl, hr⟩ := exists_first headOnce_thEnd.ne_nil hend
      exact .think hr
    · exact .openThink hend
  by_cases htc : tc <+: s
  · obtain ⟨t, rfl⟩ := htc
    exact .tool t
  cases s with
  | nil => exact .nil
  | cons c t => exact .char hth htc

/-- No closing tag of a think block begins in its opening tag. -/
theorem thEnd_notIn_th {r : Text} (h : ¬ thEnd <:+: r) : ¬ thEnd <:+: th ++ r := by
  intro hin
  have hcons : thEnd <:+: '<' :: ("think>".toList ++ r) := hin
  rcases List.infix_cons_iff.mp hcons with hpre | hin
  · exact not_prefix_append (by decide) (by decide) r (show thEnd <+: th ++ r from hpre)
  · exact h (infix_of_notMem (by decide) hin)

variable {text : Text} {cap : ℕ} {sc : Scan F}

theorem steady_parseStep : Steady (parseStep text tools cap) := by
  intro n m sc x hnm h
  unfold parseStep at h ⊢
  dsimp only at h ⊢
  split_ifs at h ⊢
  · exact h
  · exact h
  · exact h
  · obtain ⟨o, ho, rfl⟩ := Option.map_eq_some_iff.mp h
    exact Option.map_eq_some_iff.mpr ⟨o, parseCall_mono hnm ho, rfl⟩
  · exact h

theorem parseStep_nil (h : text.drop sc.i = []) (n : ℕ) :
    parseStep text tools cap n sc = some (.inr { sc.r with content := sc.content }) := by
  rw [parseStep]
  exact if_pos h

theorem parseStep_think {r t : Text} (hr : ¬ thEnd <:+: r)
    (h : text.drop sc.i = th ++ (r ++ (thEnd ++ t))) (n : ℕ) :
    parseStep text tools cap n sc = some (.inl { sc with
      i := sc.i + (th ++ (r ++ thEnd)).length
      r := { sc.r with reasoning := sc.r.reasoning ++ [r] } }) := by
  have hfind : find thEnd (th ++ (r ++ (thEnd ++ t))) = some (th ++ r).length := by
    rw [← List.append_assoc]
    exact find_append headOnce_thEnd (thEnd_notIn_th hr) t
  have hr' : ((th ++ (r ++ (thEnd ++ t))).take (th ++ r).length).drop th.length = r := by
    rw [← List.append_assoc, List.take_left, List.drop_left]
  rw [parseStep, h]
  refine (if_neg (List.append_ne_nil_of_left_ne_nil (by decide) _)).trans ?_
  refine (if_pos (List.prefix_append th _)).trans ?_
  rw [hfind]
  dsimp only
  rw [hr', ← List.length_append, List.append_assoc]

theorem parseStep_openThink {r : Text} (hr : ¬ thEnd <:+: r) (h : text.drop sc.i = th ++ r)
    (n : ℕ) :
    parseStep text tools cap n sc = some (.inl { sc with
      i := text.length
      r := { sc.r with reasoning := sc.r.reasoning ++ [r] } }) := by
  rw [parseStep, h]
  refine (if_neg (List.append_ne_nil_of_left_ne_nil (by decide) _)).trans ?_
  refine (if_pos (List.prefix_append th _)).trans ?_
  rw [(find_eq_none headOnce_thEnd.ne_nil).mpr (thEnd_notIn_th hr)]
  dsimp only
  rw [List.drop_left]

theorem parseStep_char {c : Char} {t : Text} (hth : ¬ th <+: c :: t) (htc : ¬ tc <+: c :: t)
    (h : text.drop sc.i = c :: t) (n : ℕ) :
    parseStep text tools cap n sc =
      some (.inl { sc with i := sc.i + 1, content := sc.content ++ [c] }) := by
  rw [parseStep, h]
  exact (if_neg (List.cons_ne_nil c t)).trans ((if_neg hth).trans (if_neg htc))

theorem parseStep_capped {s : Text} (hcap : ¬ Uncapped cap sc.r.calls.length)
    (h : text.drop sc.i = tc ++ s) (n : ℕ) :
    parseStep text tools cap n sc =
      some (.inr { sc.r with content := sc.content, capped := true }) := by
  rw [Uncapped, not_or, Nat.not_lt] at hcap
  rw [parseStep, h]
  refine (if_neg (List.append_ne_nil_of_left_ne_nil (by decide) _)).trans ?_
  refine (if_neg (not_prefix_append (by decide) (by decide) s)).trans ?_
  exact (if_pos (List.prefix_append tc s)).trans (if_pos hcap)

/-- The scan's locals after a tool-call block without an error. -/
def Scan.block (sc : Scan F) (o : CallOutcome F) : Scan F :=
  { sc with
    i := sc.i + (tc.length + o.consumed)
    r := { sc.r with
      reports := sc.r.reports ++ o.reports
      calls := sc.r.calls ++ o.call.toList } }

theorem parseStep_tool {s : Text} (hcap : Uncapped cap sc.r.calls.length)
    (h : text.drop sc.i = tc ++ s) (n : ℕ) :
    parseStep text tools cap n sc = (parseCall n s tools).map fun o =>
      match o.error with
      | some e => .inr { sc.r with
          reports := sc.r.reports ++ o.reports, error := some e, calls := [] }
      | none => .inl (sc.block o) := by
  have hopen : ¬ (cap ≠ 0 ∧ cap ≤ sc.r.calls.length) := by
    rintro ⟨hne, hle⟩
    rcases hcap with hzero | hlt
    · exact hne hzero
    · exact absurd hlt (Nat.not_lt.mpr hle)
  rw [parseStep, h]
  refine (if_neg (List.append_ne_nil_of_left_ne_nil (by decide) _)).trans ?_
  refine (if_neg (not_prefix_append (by decide) (by decide) s)).trans ?_
  refine (if_pos (List.prefix_append tc s)).trans ((if_neg hopen).trans ?_)
  rw [List.drop_left]
  rfl

/-- What a scan has found it keeps: reports and reasoning always, calls unless it ends in an error.
-/
structure ParseResult.Grows (r r' : ParseResult F) : Prop where
  reports : r.reports <+: r'.reports
  reasoning : r.reasoning <+: r'.reasoning
  calls : r'.error = none → r.error = none ∧ r.calls <+: r'.calls

omit [Fp64 F] in
theorem ParseResult.Grows.trans {r r' r'' : ParseResult F} (h : r.Grows r') (h' : r'.Grows r'') :
    r.Grows r'' where
  reports := h.reports.trans h'.reports
  reasoning := h.reasoning.trans h'.reasoning
  calls herror :=
    have hmid := h'.calls herror
    have hstart := h.calls hmid.1
    ⟨hstart.1, hstart.2.trans hmid.2⟩

theorem grows_parseStep {n : ℕ} {x : Scan F ⊕ ParseResult F}
    (hx : parseStep text tools cap n sc = some x) :
    Sum.elim (fun sc' : Scan F => sc.r.Grows sc'.r) (fun r => sc.r.Grows r) x := by
  have hsame {reports : List String} {reasoning : List Text} {calls : List (ParsedCall F)}
      {content : Text} {capped : Bool} (hreports : sc.r.reports <+: reports)
      (hreasoning : sc.r.reasoning <+: reasoning) (hcalls : sc.r.calls <+: calls) :
      sc.r.Grows ⟨content, reasoning, calls, reports, sc.r.error, capped⟩ :=
    ⟨hreports, hreasoning, fun herror => ⟨herror, hcalls⟩⟩
  generalize hrest : text.drop sc.i = rest
  cases ahead rest with
  | nil =>
    rw [parseStep_nil hrest] at hx
    cases hx
    exact hsame (List.prefix_refl _) (List.prefix_refl _) (List.prefix_refl _)
  | think hr =>
    rw [parseStep_think hr hrest] at hx
    cases hx
    exact hsame (List.prefix_refl _) (List.prefix_append _ _) (List.prefix_refl _)
  | openThink hr =>
    rw [parseStep_openThink hr hrest] at hx
    cases hx
    exact hsame (List.prefix_refl _) (List.prefix_append _ _) (List.prefix_refl _)
  | tool t =>
    by_cases hcap : Uncapped cap sc.r.calls.length
    · rw [parseStep_tool hcap hrest] at hx
      obtain ⟨o, -, rfl⟩ := Option.map_eq_some_iff.mp hx
      cases o.error with
      | none => exact hsame (List.prefix_append _ _) (List.prefix_refl _) (List.prefix_append _ _)
      | some e => exact ⟨List.prefix_append _ _, List.prefix_refl _, fun herror => nomatch herror⟩
    · rw [parseStep_capped hcap hrest] at hx
      cases hx
      exact hsame (List.prefix_refl _) (List.prefix_refl _) (List.prefix_refl _)
  | char hth htc =>
    rw [parseStep_char hth htc hrest] at hx
    cases hx
    exact hsame (List.prefix_refl _) (List.prefix_refl _) (List.prefix_refl _)

theorem grows_of_ends {r : ParseResult F} (hends : Ends (parseStep text tools cap) sc r) :
    sc.r.Grows r := by
  have hstep : ∀ n (sc' : Scan F) x, sc.r.Grows sc'.r → parseStep text tools cap n sc' = some x →
      Sum.elim (fun sc' : Scan F => sc.r.Grows sc'.r) (fun r => sc.r.Grows r) x := by
    intro n sc' x hgrows hx
    have hturn := grows_parseStep hx
    cases x with
    | inl sc'' => exact hgrows.trans hturn
    | inr r => exact hgrows.trans hturn
  exact hends.inv hstep ⟨List.prefix_refl _, List.prefix_refl _, fun herror =>
    ⟨herror, List.prefix_refl _⟩⟩

/-! ### Termination -/

/-- What a parse reports to its caller besides the content. -/
def ParseResult.items (r : ParseResult F) : ℕ :=
  r.reports.length + r.reasoning.length + r.calls.length

theorem ends_scan {sc' : Scan F} (h : ∀ n, parseStep text tools cap n sc = some (.inl sc'))
    {r : ParseResult F} :
    Ends (parseStep text tools cap) sc r ↔ Ends (parseStep text tools cap) sc' r :=
  ends_next steady_parseStep (h 0)

theorem ends_block {t : Text} {o : CallOutcome F} (hcap : Uncapped cap sc.r.calls.length)
    (h : text.drop sc.i = tc ++ t) (ho : Gives t tools o) (herror : o.error = none)
    {r : ParseResult F} :
    Ends (parseStep text tools cap) sc r ↔ Ends (parseStep text tools cap) (sc.block o) r := by
  obtain ⟨n, hn⟩ := ho
  refine ends_next steady_parseStep (n := n) ?_
  rw [parseStep_tool hcap h, hn, Option.map_some, herror]

omit [Fp64 F] in
theorem drop_block {t : Text} (o : CallOutcome F) (h : text.drop sc.i = tc ++ t) :
    text.drop (sc.block o).i = t.drop o.consumed := by
  rw [Scan.block, ← Nat.add_assoc, ← List.drop_drop, drop_cursor h]

/-- What a whole call gives. -/
theorem Calls.gives {t rest : Text} (h : Calls t rest) (tools : List (Tool F)) :
    ∃ (o : CallOutcome F) (c : ParsedCall F),
    Gives t tools o ∧ o.error = none ∧ o.call = some c ∧ t.drop o.consumed = rest ∧
      o.consumed + rest.length = t.length ∧ o.reports.length < o.consumed := by
  obtain ⟨head, name, w, ps, n, fin, rfl, hnamed, hw, hfin⟩ := h
  have hsplit : openCall head name ++ (w ++ (fin ++ (tcEnd ++ rest))) =
      openCall head name ++ (w ++ (fin ++ tcEnd)) ++ rest := by
    simp
  refine ⟨_, _, gives_call hnamed hw hfin, rfl, rfl, ?_, ?_, ?_⟩
  · rw [hsplit, List.drop_left]
  · rw [hsplit]
    exact List.length_append.symm
  · have hn := hw.strays_le
    have hlen : tcEnd.length = 12 := by decide
    simp only [List.length_append, List.length_replicate, hlen]
    omega

/-- **A block on which the loop hangs** keeps the parse from returning. -/
theorem not_ends_of_meets {k : ℕ} {rest : Text} (h : Meets cap Hangs k rest)
    (hdrop : text.drop sc.i = rest) (hk : sc.r.calls.length = k) (r : ParseResult F) :
    ¬ Ends (parseStep text tools cap) sc r := by
  induction h generalizing sc with
  | here hcap hhangs =>
    refine not_ends_of_none (fun n => ?_) r
    rw [parseStep_tool (hk ▸ hcap) hdrop, hhangs.parseCall_eq_none]
    rfl
  | @char k c t hth htc _ ih =>
    rw [ends_scan (parseStep_char hth htc hdrop)]
    exact ih (drop_cursor (w := [c]) hdrop) hk
  | @think k r t hr _ ih =>
    rw [ends_scan (parseStep_think hr hdrop)]
    refine ih (drop_cursor ?_) hk
    rw [hdrop, List.append_assoc, List.append_assoc]
  | call hcap hcall _ ih =>
    obtain ⟨o, c, ho, herror, hc, hrest, -⟩ := hcall.gives tools
    rw [ends_block (hk ▸ hcap) hdrop ho herror]
    refine ih (by rw [drop_block o hdrop, hrest]) ?_
    rw [Scan.block, hc, List.length_append, hk]
    rfl

/-- Without such a block the parse returns. -/
theorem ends_of_not_meets (h : ¬ Meets cap Hangs sc.r.calls.length (text.drop sc.i)) :
    ∃ r, Ends (parseStep text tools cap) sc r ∧
      r.items ≤ sc.r.items + (text.drop sc.i).length := by
  induction hlen : (text.drop sc.i).length using Nat.strong_induction_on generalizing sc with
  | _ len ih =>
    subst hlen
    generalize hrest : text.drop sc.i = rest at h ih ⊢
    -- A turn that takes some text and reports no more than it takes.
    have turn (sc' : Scan F) (hlt : (text.drop sc'.i).length < rest.length)
        (hnot : ¬ Meets cap Hangs sc'.r.calls.length (text.drop sc'.i))
        (hitems : sc'.r.items + (text.drop sc'.i).length ≤ sc.r.items + rest.length)
        (hends : ∀ r, Ends (parseStep text tools cap) sc r ↔
          Ends (parseStep text tools cap) sc' r) :
        ∃ r, Ends (parseStep text tools cap) sc r ∧ r.items ≤ sc.r.items + rest.length := by
      obtain ⟨r, hr, hle⟩ := ih _ hlt hnot rfl
      exact ⟨r, (hends r).mpr hr, le_trans hle hitems⟩
    cases ahead rest with
    | nil => exact ⟨_, ends_exit (parseStep_nil hrest 0), Nat.le_add_right _ _⟩
    | @think r t hr =>
      have hdrop : text.drop (sc.i + (th ++ (r ++ thEnd)).length) = t :=
        drop_cursor (by rw [hrest]; simp)
      refine turn _ ?_ ?_ ?_ fun _ => ends_scan (parseStep_think hr hrest)
      · rw [hdrop, List.length_append, List.length_append, List.length_append]
        exact Nat.lt_of_lt_of_le (Nat.lt_add_of_pos_left (by decide : 0 < th.length)) (by omega)
      · rw [hdrop]
        exact fun hmeets => h (.think hr hmeets)
      · have hlen : th.length = 7 := by decide
        rw [hdrop]
        simp only [ParseResult.items, List.length_append, List.length_singleton, hlen]
        omega
    | @openThink r hr =>
      have hlen : th.length = 7 := by decide
      refine turn _ ?_ ?_ ?_ fun _ => ends_scan (parseStep_openThink hr hrest)
      · rw [List.drop_length, List.length_append, hlen]
        exact Nat.lt_of_lt_of_le (Nat.succ_pos 6) (Nat.le_add_right 7 _)
      · rw [List.drop_length]
        exact fun hmeets => nomatch hmeets
      · rw [List.drop_length]
        simp only [ParseResult.items, List.length_append, List.length_singleton, List.length_nil,
          hlen]
        omega
    | tool t =>
      have hlen : tc.length = 11 := by decide
      by_cases hcap : Uncapped cap sc.r.calls.length
      · rcases block_cases t tools with hhangs | ⟨rest, hcall⟩ | ⟨o, ho, hnone, hall, hreports, -⟩
        · exact absurd (.here hcap hhangs) h
        · obtain ⟨o, c, ho, herror, hc, hdrop, hconsumed, hreports⟩ := hcall.gives tools
          have hcalls : (sc.block o).r.calls.length = sc.r.calls.length + 1 := by
            rw [Scan.block, hc, List.length_append]
            rfl
          refine turn (sc.block o) ?_ ?_ ?_ fun _ => ends_block hcap hrest ho herror
          · rw [drop_block o hrest, hdrop, List.length_append]
            omega
          · rw [drop_block o hrest, hdrop, hcalls]
            exact fun hmeets => h (.call hcap hcall hmeets)
          · rw [drop_block o hrest, hdrop, ParseResult.items, ParseResult.items, hcalls]
            simp only [Scan.block, List.length_append, hlen]
            omega
        · cases herror : o.error with
          | none =>
            have hdrop : text.drop (sc.block o).i = [] := by
              rw [drop_block o hrest, hall, List.drop_length]
            refine turn (sc.block o) ?_ ?_ ?_ fun _ => ends_block hcap hrest ho herror
            · rw [hdrop, List.length_append, hlen]
              exact Nat.lt_of_lt_of_le (Nat.succ_pos 10) (Nat.le_add_right 11 _)
            · rw [hdrop]
              exact fun hmeets => nomatch hmeets
            · rw [hdrop]
              simp only [Scan.block, ParseResult.items, hnone, Option.toList_none, List.append_nil,
                List.length_append, List.length_nil, hlen]
              omega
          | some e =>
            obtain ⟨n, hn⟩ := ho
            have hstep : parseStep text tools cap n sc = some (.inr { sc.r with
                reports := sc.r.reports ++ o.reports, error := some e, calls := [] }) := by
              rw [parseStep_tool hcap hrest, hn, Option.map_some, herror]
            refine ⟨_, ends_exit hstep, ?_⟩
            simp only [ParseResult.items, List.length_append, List.length_nil, hlen]
            omega
      · exact ⟨_, ends_exit (parseStep_capped hcap hrest 0), Nat.le_add_right _ _⟩
    | @char c t hth htc =>
      have hdrop : text.drop (sc.i + 1) = t := drop_cursor (w := [c]) hrest
      refine turn _ ?_ ?_ ?_ fun _ => ends_scan (parseStep_char hth htc hrest)
      · rw [hdrop]
        exact Nat.lt_succ_self _
      · rw [hdrop]
        exact fun hmeets => h (.char hth htc hmeets)
      · rw [hdrop, List.length_cons]
        exact Nat.add_le_add_left (Nat.le_succ _) _

/-- **A parse returns**, and reports no more items than its text has characters, exactly when its
scan meets no block on which the loop hangs. -/
theorem parse_bounded_iff (text : Text) (tools : List (Tool F)) (cap : ℕ) :
    (∃ r : ParseResult F, Parses text tools cap r ∧ r.items ≤ text.length) ↔
      ¬ Meets cap Hangs 0 text := by
  constructor
  · rintro ⟨r, hr, -⟩ hmeets
    exact not_ends_of_meets hmeets rfl rfl r hr
  · intro hnot
    let start : Scan F := ⟨0, [], ⟨[], [], [], [], none, false⟩⟩
    obtain ⟨r, hr, hle⟩ : ∃ r, Ends (parseStep text tools cap) start r ∧
        r.items ≤ start.r.items + (text.drop start.i).length := ends_of_not_meets hnot
    exact ⟨r, hr, le_trans hle (Nat.le_of_eq (Nat.zero_add _))⟩

/-- **A tag the parser does not know keeps it from returning**: `<b>` after a function tag. -/
theorem not_parse_bounded_unknownTag :
    ¬ ∀ (text : Text) (tools : List (Tool ℤ)) (cap : ℕ),
      ∃ r, Parses text tools cap r ∧ r.items ≤ text.length := by
  intro h
  have hnamed : Named [] "a".toList := by
    unfold Named
    decide
  have hstuck : Stuck "<b>".toList := by
    unfold Stuck
    decide
  have hhangs : Hangs "<function=a><b>".toList :=
    ⟨[], "a".toList, [], [], 0, "<b>".toList, by decide, hnamed, .nil, hstuck⟩
  obtain ⟨r, hr, -⟩ := h "<tool_call><function=a><b>".toList [] 0
  exact not_ends_of_meets (.here (k := 0) (.inl rfl) hhangs) rfl rfl r hr

end Api

end Mimo26

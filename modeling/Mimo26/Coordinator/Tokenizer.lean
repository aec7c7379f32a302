import Mathlib.Data.List.DropRight
import Mathlib.Data.List.GetD
import Mimo26.Api.Json
import Mimo26.Library.Result
import Mimo26.Library.Utf8

/-!
# The tokenizer

Byte-level BPE (`tokenizer.rs`). Added tokens are cut out of a text first, the rest is cut into
pieces by a hand-written scanner, the bytes of a piece are spelt with the characters of the
vocabulary, and adjacent symbols are merged by rank. Maps are association lists, an entry inserted
later in front.

The classes of `char` are those of the standard library's Unicode tables; of them only that a space
is whitespace is used. `assert`s aside, a piece of no characters would stop the scanner: it has
none.

## Main definitions

* `BpeTokenizer`, `fromParts`, `encode`, `decodeBytes` — the tokenizer
* `matchAlternative`, `gpt2Pretokenize` — the scanner
* `bpeMerge` — the merges

## Main results

* `matchAlternative_pos`, `matchAlternative_le` — the scanner advances, within the text
* `gpt2Pretokenize_spec` — the pieces of a text
* `bpeMerge_spec` — the symbols of a word
* `decodeBytes_encode` — what is encoded is decoded as it was
-/

namespace Mimo26

namespace Coordinator

open Api Result

/-! ### The spelling of bytes -/

/-- `bytes_to_unicode`: printable bytes stand for themselves, the others for the code points from
256 on. -/
def byteCodes : List ℕ :=
  ((List.range 256).foldl (fun (map, n) b =>
    if (33 ≤ b ∧ b ≤ 126) ∨ (161 ≤ b ∧ b ≤ 172) ∨ (174 ≤ b ∧ b ≤ 255) then (map ++ [b], n)
    else (map ++ [256 + n], n + 1)) ([], 0)).1

def bytesToUnicode : List Char := byteCodes.map Char.ofNat

def byteChar (b : UInt8) : Char := bytesToUnicode.getD b.toNat '\x00'

def unicodeToBytes (c : Char) : Option UInt8 := (bytesToUnicode.idxOf? c).map UInt8.ofNat

/-- The bytes of a piece, spelt with the characters of the vocabulary. -/
def byteEncode (s : Text) : Text := (Utf8.encode s).map byteChar

/-! ### The scanner -/

/-- The classes of a `char`. -/
structure CharClasses where
  isWhitespace : Char → Bool
  isAlphabetic : Char → Bool
  isNumeric : Char → Bool
  space : isWhitespace ' ' = true

/-- How many characters in a row satisfy `p`. -/
def runLength (p : Char → Bool) (chars : Text) : ℕ := (chars.takeWhile p).length

def isNewline (c : Char) : Bool := c = '\r' ∨ c = '\n'

def contractions : List Text :=
  ["'s".toList, "'t".toList, "'re".toList, "'ve".toList, "'m".toList, "'ll".toList, "'d".toList]

def eqIgnoreAsciiCase (s t : Text) : Bool := s.map Char.toLower = t.map Char.toLower

namespace CharClasses

variable (k : CharClasses)

/-- `(?i:'s|'t|'re|'ve|'m|'ll|'d)`. -/
def contraction (chars : Text) : Option ℕ :=
  (contractions.find? fun c =>
    decide (c.length ≤ chars.length) && eqIgnoreAsciiCase (chars.take c.length) c).map List.length

/-- `[^\r\n\p{L}\p{N}]?\p{L}+`. -/
def letters : Text → Option ℕ
  | [] => none
  | c :: rest =>
    if k.isAlphabetic c then some (runLength k.isAlphabetic (c :: rest))
    else if c ≠ '\r' ∧ c ≠ '\n' ∧ k.isNumeric c = false ∧ 0 < runLength k.isAlphabetic rest then
      some (1 + runLength k.isAlphabetic rest)
    else none

/-- `\p{N}`. -/
def digit : Text → Option ℕ
  | [] => none
  | c :: _ => if k.isNumeric c then some 1 else none

def isPunctuation (c : Char) : Bool := !k.isWhitespace c && !k.isAlphabetic c && !k.isNumeric c

/-- ` ?[^\s\p{L}\p{N}]+[\r\n]*`. -/
def punctuation (chars : Text) : Option ℕ :=
  let i := if chars.head? = some ' ' then 1 else 0
  let n := runLength k.isPunctuation (chars.drop i)
  if 0 < n then some (i + n + runLength isNewline (chars.drop (i + n))) else none

/-- `\s*[\r\n]+`: up to the last newline of the run. -/
def newlines (chars : Text) : Option ℕ :=
  let n := ((chars.takeWhile k.isWhitespace).rdropWhile fun c => !isNewline c).length
  if 0 < n then some n else none

/-- The longest part of at most `i` characters that no visible one follows. -/
def backtrack (chars : Text) : ℕ → Option ℕ
  | 0 => none
  | i + 1 =>
    match chars[i + 1]? with
    | none => some (i + 1)
    | some c => if k.isWhitespace c then some (i + 1) else backtrack chars i

/-- `\s+(?!\S)`. -/
def trailing (chars : Text) : Option ℕ := k.backtrack chars (runLength k.isWhitespace chars)

/-- `\s+`. -/
def whitespace (chars : Text) : Option ℕ :=
  if 0 < runLength k.isWhitespace chars then some (runLength k.isWhitespace chars) else none

/-- The length of the first alternative that matches. -/
def matchAlternative (chars : Text) : ℕ :=
  ((contraction chars).or <| (k.letters chars).or <| (k.digit chars).or <|
    (k.punctuation chars).or <|
    (k.newlines chars).or <| (k.trailing chars).or <| k.whitespace chars).getD 0

/-! ### The scanner advances -/

variable {k} {chars : Text} {n : ℕ}

theorem runLength_le (p : Char → Bool) (chars : Text) : runLength p chars ≤ chars.length :=
    List.takeWhile_prefix p |>.length_le

theorem runLength_cons_pos {p : Char → Bool} {c : Char} (h : p c = true) (rest : Text) :
    0 < runLength p (c :: rest) := by
  rw [runLength, List.takeWhile_cons_of_pos h]
  exact Nat.succ_pos _

theorem contraction_spec (h : contraction chars = some n) : 0 < n ∧ n ≤ chars.length := by
  obtain ⟨c, hc, rfl⟩ := Option.map_eq_some_iff.mp h
  have hlen : ∀ c ∈ contractions, 0 < c.length := by decide
  have hfits := List.find?_some hc
  rw [Bool.and_eq_true, decide_eq_true_eq] at hfits
  exact ⟨hlen c (List.mem_of_find?_eq_some hc), hfits.1⟩

theorem letters_spec (h : k.letters chars = some n) : 0 < n ∧ n ≤ chars.length := by
  cases chars with
  | nil => exact absurd h (by simp [letters])
  | cons c rest =>
    rw [letters] at h
    split_ifs at h with halpha hother
    · obtain rfl := Option.some.inj h
      exact ⟨runLength_cons_pos halpha rest, runLength_le _ _⟩
    · obtain rfl := Option.some.inj h
      have hle := runLength_le k.isAlphabetic rest
      rw [List.length_cons]
      omega

theorem digit_spec (h : k.digit chars = some n) : 0 < n ∧ n ≤ chars.length := by
  cases chars with
  | nil => exact absurd h (by simp [digit])
  | cons c rest =>
    rw [digit] at h
    split_ifs at h
    obtain rfl := Option.some.inj h
    simp

theorem punctuation_spec (h : k.punctuation chars = some n) : 0 < n ∧ n ≤ chars.length := by
  simp only [punctuation] at h
  generalize (if chars.head? = some ' ' then 1 else 0) = i at h
  split at h
  · next hpos =>
    obtain rfl := Option.some.inj h
    have hpunct := runLength_le k.isPunctuation (chars.drop i)
    have hlines :=
        runLength_le isNewline (chars.drop (i + runLength k.isPunctuation (chars.drop i)))
    rw [List.length_drop] at hpunct hlines
    omega
  · exact absurd h (by simp)

theorem newlines_spec (h : k.newlines chars = some n) : 0 < n ∧ n ≤ chars.length := by
  simp only [newlines] at h
  split at h
  · next hpos =>
    obtain rfl := Option.some.inj h
    exact ⟨hpos, ((List.rdropWhile_prefix _ _).trans (List.takeWhile_prefix _)).length_le⟩
  · exact absurd h (by simp)

theorem backtrack_spec {i : ℕ} (h : k.backtrack chars i = some n) : 0 < n ∧ n ≤ i := by
  induction i with
  | zero => exact absurd h (by simp [backtrack])
  | succ i ih =>
    rw [backtrack] at h
    split at h
    · obtain rfl := Option.some.inj h
      exact ⟨Nat.succ_pos i, le_rfl⟩
    · split at h
      · obtain rfl := Option.some.inj h
        exact ⟨Nat.succ_pos i, le_rfl⟩
      · exact ⟨(ih h).1, Nat.le_succ_of_le (ih h).2⟩

theorem trailing_spec (h : k.trailing chars = some n) : 0 < n ∧ n ≤ chars.length :=
  ⟨(backtrack_spec h).1, (backtrack_spec h).2.trans (runLength_le _ _)⟩

theorem whitespace_spec (h : k.whitespace chars = some n) : 0 < n ∧ n ≤ chars.length := by
  rw [whitespace] at h
  split_ifs at h with hpos
  obtain rfl := Option.some.inj h
  exact ⟨hpos, runLength_le _ _⟩

/-- Some alternative matches: a letter, a digit, whitespace, or what is none of them. -/
theorem isSome_alternative {c : Char} (rest : Text) : (k.letters (c :: rest)).isSome ∨
    (k.digit (c :: rest)).isSome ∨ (k.punctuation (c :: rest)).isSome ∨
        (k.whitespace (c :: rest)).isSome := by
  cases halpha : k.isAlphabetic c with
  | true => exact .inl (by simp [letters, halpha])
  | false =>
    cases hnum : k.isNumeric c with
    | true => exact .inr (.inl (by simp [digit, hnum]))
    | false =>
      cases hws : k.isWhitespace c with
      | true =>
        refine .inr (.inr (.inr ?_))
        rw [whitespace, if_pos (runLength_cons_pos hws rest)]
        rfl
      | false =>
        refine .inr (.inr (.inl ?_))
        have hspace : c ≠ ' ' := by
          rintro rfl
          rw [k.space] at hws
          exact absurd hws (by decide)
        have hpunct : 0 < runLength k.isPunctuation (c :: rest) :=
          runLength_cons_pos (by simp [isPunctuation, halpha, hnum, hws]) rest
        simp [punctuation, hspace, hpunct]

/-- **The scanner advances**, and stays in the text. -/
theorem matchAlternative_spec (hne : chars ≠ []) :
    0 < k.matchAlternative chars ∧ k.matchAlternative chars ≤ chars.length := by
  obtain ⟨c, rest, rfl⟩ := List.exists_cons_of_ne_nil hne
  have hall : ∀ n, ((contraction (c :: rest)).or <| (k.letters (c :: rest)).or <|
      (k.digit (c :: rest)).or <|
      (k.punctuation (c :: rest)).or <| (k.newlines (c :: rest)).or <|
        (k.trailing (c :: rest)).or <|
        k.whitespace (c :: rest)) = some n → 0 < n ∧ n ≤ (c :: rest).length := by
    intro n h
    simp only [Option.or_eq_some_iff] at h
    rcases h with h | ⟨-, h | ⟨-, h | ⟨-, h | ⟨-, h | ⟨-, h | ⟨-, h⟩⟩⟩⟩⟩⟩
    · exact contraction_spec h
    · exact letters_spec h
    · exact digit_spec h
    · exact punctuation_spec h
    · exact newlines_spec h
    · exact trailing_spec h
    · exact whitespace_spec h
  have hsome : ((contraction (c :: rest)).or <| (k.letters (c :: rest)).or <|
      (k.digit (c :: rest)).or <|
      (k.punctuation (c :: rest)).or <| (k.newlines (c :: rest)).or <|
        (k.trailing (c :: rest)).or <|
        k.whitespace (c :: rest)).isSome := by
    simp only [Option.isSome_or, Bool.or_eq_true]
    have hcases := k.isSome_alternative (c := c) rest
    tauto
  obtain ⟨n, hn⟩ := Option.isSome_iff_exists.mp hsome
  rw [matchAlternative, hn]
  exact hall n hn

/-- Cut a text into pieces. -/
def gpt2Pretokenize (k : CharClasses) (chars : Text) : List Text :=
  if chars = [] then []
  else chars.take (k.matchAlternative chars) :: gpt2Pretokenize k
    (chars.drop (k.matchAlternative chars))
termination_by chars.length
decreasing_by
  have hspec := k.matchAlternative_spec ‹chars ≠ []›
  rw [List.length_drop]
  omega

/-- **The pieces** are the text, cut up. -/
theorem gpt2Pretokenize_spec (k : CharClasses) (chars : Text) :
    (k.gpt2Pretokenize chars).flatten = chars ∧ ∀ raw ∈ k.gpt2Pretokenize chars, raw ≠ [] := by
  induction chars using gpt2Pretokenize.induct (k := k) with
  | case1 => simp [gpt2Pretokenize]
  | case2 chars hne ih =>
    obtain ⟨hflatten, hpieces⟩ := ih
    obtain ⟨hpos, hle⟩ := k.matchAlternative_spec hne
    rw [gpt2Pretokenize, if_neg hne, List.flatten_cons, hflatten, List.take_append_drop]
    refine ⟨rfl, fun raw hraw => ?_⟩
    rcases List.mem_cons.mp hraw with rfl | hmem
    · refine List.ne_nil_of_length_pos ?_
      rw [List.length_take]
      omega
    · exact hpieces raw hmem

end CharClasses

/-! ### Merges -/

/-- The better of the best pair so far and pair `i`. -/
def pickPair (merges : List ((Text × Text) × UInt32)) (tokens : List Text)
    (best : Option (ℕ × UInt32)) (i : ℕ) :
    Option (ℕ × UInt32) :=
  match merges.lookup (tokens.getD i [], tokens.getD (i + 1) []) with
  | some rank => if best.all (rank < ·.2) then some (i, rank) else best
  | none => best

/-- The leftmost adjacent pair of the lowest rank. -/
def bestPair (merges : List ((Text × Text) × UInt32)) (tokens : List Text) : Option (ℕ × UInt32) :=
  (List.range (tokens.length - 1)).foldl (pickPair merges tokens) none

/-- No two adjacent symbols are a pair of `merges`. -/
def Unmergeable (merges : List ((Text × Text) × UInt32)) (tokens : List Text) : Prop :=
  ∀ i, i + 1 < tokens.length → merges.lookup (tokens.getD i [], tokens.getD (i + 1) []) = none

section merges

variable {merges : List ((Text × Text) × UInt32)} {tokens : List Text}

/-- What the search for a pair has found among the first `n`. -/
theorem foldl_pickPair (n : ℕ) :
    (∀ i rank, (List.range n).foldl (pickPair merges tokens) none = some (i, rank) →
      i < n ∧ merges.lookup (tokens.getD i [], tokens.getD (i + 1) []) = some rank) ∧
    ((List.range n).foldl (pickPair merges tokens) none = none →
      ∀ i < n, merges.lookup (tokens.getD i [], tokens.getD (i + 1) []) = none) := by
  induction n with
  | zero => exact ⟨nofun, fun _ i hi => absurd hi (Nat.not_lt_zero i)⟩
  | succ n ih =>
    obtain ⟨hsome, hnone⟩ := ih
    rw [List.range_succ, List.foldl_append, List.foldl_cons, List.foldl_nil, pickPair]
    cases hlookup : merges.lookup (tokens.getD n [], tokens.getD (n + 1) []) with
    | none =>
      dsimp only
      refine ⟨fun i rank h => ⟨Nat.lt_succ_of_lt (hsome i rank h).1, (hsome i rank h).2⟩,
        fun h i hi => ?_⟩
      rcases Nat.lt_succ_iff_lt_or_eq.mp hi with hlt | rfl
      · exact hnone h i hlt
      · exact hlookup
    | some rank =>
      dsimp only
      split
      · refine ⟨fun i rank' h => ?_, nofun⟩
        obtain ⟨rfl, rfl⟩ := Prod.mk.inj (Option.some.inj h)
        exact ⟨Nat.lt_succ_self _, hlookup⟩
      · next hbest =>
        refine ⟨fun i rank' h => ⟨Nat.lt_succ_of_lt (hsome i rank' h).1, (hsome i rank' h).2⟩,
          fun h => ?_⟩
        rw [h] at hbest
        exact absurd rfl hbest

theorem bestPair_eq_some {i : ℕ} {rank : UInt32} (h : bestPair merges tokens = some (i, rank)) :
    i + 1 < tokens.length ∧ merges.lookup (tokens.getD i [], tokens.getD (i + 1) []) =
        some rank := by
  obtain ⟨hlt, hlookup⟩ := (foldl_pickPair _).1 i rank h
  exact ⟨by omega, hlookup⟩

theorem bestPair_eq_none (h : bestPair merges tokens = none) : Unmergeable merges tokens :=
  fun i hi => (foldl_pickPair _).2 h i (by omega)

end merges

/-- Merge symbol `i` with the next. -/
def mergeAt (tokens : List Text) (i : ℕ) : List Text :=
  (tokens.set i (tokens.getD i [] ++ tokens.getD (i + 1) [])).eraseIdx (i + 1)

/-- Two adjacent symbols. -/
theorem exists_pair {tokens : List Text} {i : ℕ} (hi : i + 1 < tokens.length) : ∃ pre a b post,
    tokens = pre ++ a :: b :: post ∧ pre.length = i ∧ tokens.getD i [] = a ∧
        tokens.getD (i + 1) [] = b := by
  refine ⟨tokens.take i, tokens.getD i [], tokens.getD (i + 1) [], tokens.drop (i + 2), ?_, ?_, rfl,
    rfl⟩
  · rw [List.getD_eq_getElem _ _ (by omega), List.getD_eq_getElem _ _ hi,
      ← List.drop_eq_getElem_cons,
      ← List.drop_eq_getElem_cons, List.take_append_drop]
  · rw [List.length_take]
    omega

/-- The two symbols become one. -/
theorem mergeAt_append (pre : List Text) (a b : Text) (post : List Text) :
    mergeAt (pre ++ a :: b :: post) pre.length = pre ++ (a ++ b) :: post := by
  rw [mergeAt, List.set_append_right _ _ le_rfl, List.eraseIdx_append_of_length_le (Nat.le_succ _)]
  simp

theorem length_mergeAt {tokens : List Text} {i : ℕ} (hi : i + 1 < tokens.length) :
    (mergeAt tokens i).length + 1 = tokens.length := by
  obtain ⟨pre, a, b, post, rfl, rfl, -⟩ := exists_pair hi
  rw [mergeAt_append]
  simp
  omega

theorem flatten_mergeAt {tokens : List Text} {i : ℕ} (hi : i + 1 < tokens.length) :
    (mergeAt tokens i).flatten = tokens.flatten := by
  obtain ⟨pre, a, b, post, rfl, rfl, -⟩ := exists_pair hi
  rw [mergeAt_append]
  simp

/-- Merge until no pair is left. -/
def bpeLoop (merges : List ((Text × Text) × UInt32)) (tokens : List Text) : List Text :=
  match _h : bestPair merges tokens with
  | some (i, _) => bpeLoop merges (mergeAt tokens i)
  | none => tokens
termination_by tokens.length
decreasing_by
  have hlen := length_mergeAt (bestPair_eq_some ‹_›).1
  omega

def bpeMerge (merges : List ((Text × Text) × UInt32)) (word : Text) : List Text :=
  bpeLoop merges (word.map fun c => [c])

section loop

variable {merges : List ((Text × Text) × UInt32)} {tokens : List Text}

theorem bpeLoop_of_some {i : ℕ} {rank : UInt32} (h : bestPair merges tokens = some (i, rank)) :
    bpeLoop merges tokens = bpeLoop merges (mergeAt tokens i) := by
  rw [bpeLoop]
  split
  · next i' rank' h' =>
    obtain ⟨rfl, -⟩ := Prod.mk.inj (Option.some.inj (h.symm.trans h'))
    rfl
  · next h' => exact absurd (h.symm.trans h') (by simp)

theorem bpeLoop_of_none (h : bestPair merges tokens = none) : bpeLoop merges tokens = tokens := by
  rw [bpeLoop]
  split
  · next i rank h' => exact absurd (h.symm.trans h') (by simp)
  · rfl

variable (merges) (tokens)

/-- **The symbols** keep the text, and no two of them can be merged. -/
theorem bpeLoop_spec :
    (bpeLoop merges tokens).flatten = tokens.flatten ∧
        Unmergeable merges (bpeLoop merges tokens) := by
  induction tokens using bpeLoop.induct merges with
  | case1 tokens i rank h ih =>
    rw [bpeLoop_of_some h, ih.1, flatten_mergeAt (bestPair_eq_some h).1]
    exact ⟨rfl, ih.2⟩
  | case2 tokens h =>
    rw [bpeLoop_of_none h]
    exact ⟨rfl, bestPair_eq_none h⟩

/-- What holds of the first symbols and of a merged pair holds of the last symbols. -/
theorem bpeLoop_forall {P : Text → Prop} (htokens : ∀ token ∈ tokens, P token)
    (hmerge : ∀ a b rank, merges.lookup (a, b) = some rank → P (a ++ b)) :
        ∀ token ∈ bpeLoop merges tokens, P token := by
  induction tokens using bpeLoop.induct merges with
  | case1 tokens i rank h ih =>
    rw [bpeLoop_of_some h]
    obtain ⟨hi, hlookup⟩ := bestPair_eq_some h
    obtain ⟨pre, a, b, post, rfl, rfl, ha, hb⟩ := exists_pair hi
    rw [ha, hb] at hlookup
    refine ih fun token htoken => ?_
    rw [mergeAt_append] at htoken
    simp only [List.mem_append, List.mem_cons] at htoken htokens
    rcases htoken with hmem | rfl | hmem
    · exact htokens token (.inl hmem)
    · exact hmerge a b rank hlookup
    · exact htokens token (.inr (.inr (.inr hmem)))
  | case2 tokens h =>
    rw [bpeLoop_of_none h]
    exact htokens

end loop

theorem bpeMerge_spec (merges : List ((Text × Text) × UInt32)) (word : Text) :
    (bpeMerge merges word).flatten = word ∧ Unmergeable merges (bpeMerge merges word) := by
  obtain ⟨hflatten, hstuck⟩ := bpeLoop_spec merges (word.map fun c => [c])
  refine ⟨hflatten.trans ?_, hstuck⟩
  rw [← List.flatMap_def]
  exact List.flatMap_singleton' word

/-! ### The tokenizer -/

/-- A token matched whole, before the merges; a special one is decoded to nothing. -/
structure AddedToken where
  content : Text
  id : UInt32
  special : Bool
  deriving DecidableEq, Repr

structure BpeTokenizer where
  vocab : List (Text × UInt32)
  idToToken : List (UInt32 × Text)
  merges : List ((Text × Text) × UInt32)
  addedTokens : List AddedToken

/-- Where encoding ends without a result. -/
inductive EncodeError where
  | notInVocab (token raw word : Text)
  /-- An added token without content matches for ever. -/
  | diverges
  deriving DecidableEq, Repr

namespace BpeTokenizer

/-- The tokenizer of a vocabulary, its entries in the order a loop over the map meets them. -/
def fromParts (vocab : List (Text × UInt32)) (merges : List (Text × Text))
    (addedTokens : List AddedToken) :
    BpeTokenizer where
  vocab := vocab
  idToToken := (vocab.map fun (token, id) => (id, token)).reverse
  merges := (merges.zipIdx.map fun (p, i) => (p, UInt32.ofNat i)).reverse
  addedTokens := addedTokens

variable (tok : BpeTokenizer) (k : CharClasses)

/-- The longer of the longest token so far and the next, which it is if they are as long. -/
def longer (best : Option AddedToken) (t : AddedToken) : Option AddedToken :=
  if best.any fun b => decide ((Utf8.encode t.content).length < (Utf8.encode b.content).length) then
    best else some t

/-- The longest added token the text begins with. -/
def matchAdded (text : Text) : Option AddedToken :=
  (tok.addedTokens.filter fun t => t.content.isPrefixOf text).foldl longer none

def encodeSegment (segment : Text) : Except EncodeError (List UInt32) := do
  let ids ← (k.gpt2Pretokenize segment).mapM fun raw => do
    let word := byteEncode raw
    (bpeMerge tok.merges word).mapM fun token =>
      match tok.vocab.lookup token with
      | some id => .ok id
      | none => .error (.notInVocab token raw word)
  return ids.flatten

/-- The ids of what is pending. -/
def flush (pending : Text) : Except EncodeError (List UInt32) :=
  if pending = [] then .ok [] else tok.encodeSegment k pending

def encodeLoop : ℕ → Text → Text → Except EncodeError (List UInt32)
  | _, [], pending => tok.flush k pending
  | 0, _ :: _, _ => .error .diverges
  | n + 1, c :: rest, pending =>
    match tok.matchAdded (c :: rest) with
    | some t => do
      let before ← tok.flush k pending
      let after ← encodeLoop n ((c :: rest).drop t.content.length) []
      return before ++ t.id :: after
    | none => encodeLoop n rest (pending ++ [c])

/-- Each turn takes a character at least, unless an added token is empty. -/
def encode (text : Text) : Except EncodeError (List UInt32) := tok.encodeLoop k text.length text []

/-- The bytes a token of the vocabulary stands for. -/
def tokenBytes (token : Text) : List UInt8 :=
  token.flatMap fun c =>
    match unicodeToBytes c with
    | some b => [b]
    | none => String.utf8EncodeChar c

/-- The bytes of one id. -/
def decodeId (id : UInt32) : List UInt8 :=
  match tok.addedTokens.find? (·.id = id) with
  | some t => if t.special then [] else Utf8.encode t.content
  | none =>
    match tok.idToToken.lookup id with
    | some token => tokenBytes token
    | none => []

def decodeBytes (ids : List UInt32) : List UInt8 := ids.flatMap tok.decodeId

def decode (ids : List UInt32) : Text := Utf8.fromUtf8Lossy (tok.decodeBytes ids)

end BpeTokenizer

end Coordinator

end Mimo26

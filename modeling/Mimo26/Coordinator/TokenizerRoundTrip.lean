import Mathlib.Data.List.Nodup
import Mimo26.Coordinator.Tokenizer

/-!
# Texts through the tokenizer

Encoding a text and decoding its ids gives the bytes of the text back, for a vocabulary that spells
every byte, holds every merge result and tells its tokens apart by their ids.

## Main definitions

* `Complete` — what the vocabulary and the added tokens have to satisfy

## Main results

* `decodeBytes_encode` — the round trip
* `tokenizer_roundTrip` — with what the scanner and the merges keep
-/

namespace Mimo26

namespace Coordinator

open Api Result

/-! ### Bytes and their characters -/

/-- The code points, run by run. -/
theorem byteCodes_eq : byteCodes = List.range' 256 33 ++
    (List.range' 33 94 ++ (List.range' 289 34 ++
    (List.range' 161 12 ++ ([323] ++ List.range' 174 82)))) := by decide +kernel

theorem nodup_byteCodes : byteCodes.Nodup := by
  have hrun : ∀ s n, (List.range' s n).Nodup := fun s n => List.nodup_range'
  rw [byteCodes_eq]
  simp only [List.nodup_append, hrun, List.nodup_singleton, List.mem_append, List.mem_range'_1,
    List.mem_singleton,
    true_and]
  grind

theorem lt_of_mem_byteCodes {n : ℕ} (h : n ∈ byteCodes) : n < 324 := by
  rw [byteCodes_eq] at h
  simp only [List.mem_append, List.mem_range'_1, List.mem_singleton] at h
  omega

theorem length_byteCodes : byteCodes.length = 256 := by
  rw [byteCodes_eq]
  simp

theorem nodup_bytesToUnicode : bytesToUnicode.Nodup := by
  have hcode : ∀ n ∈ byteCodes, (Char.ofNat n).toNat = n := by
    intro n hn
    have hvalid : n.isValidChar := .inl (Nat.lt_trans (lt_of_mem_byteCodes hn) (by decide))
    rw [Char.ofNat, dif_pos hvalid]
    rfl
  refine nodup_byteCodes.map_on fun m hm n hn heq => ?_
  rw [← hcode m hm, heq, hcode n hn]

@[simp] theorem unicodeToBytes_byteChar (b : UInt8) : unicodeToBytes (byteChar b) = some b := by
  have hlt : b.toNat < bytesToUnicode.length := by
    rw [bytesToUnicode, List.length_map, length_byteCodes]
    exact b.toNat_lt
  have hidx : bytesToUnicode.idxOf? (byteChar b) = some b.toNat := by
    rw [byteChar, List.getD_eq_getElem _ _ hlt, List.idxOf?_eq_some_iff]
    refine ⟨hlt, rfl, fun j hj heq => ?_⟩
    exact hj.ne ((nodup_bytesToUnicode.getElem_inj_iff).mp heq)
  rw [unicodeToBytes, hidx, Option.map_some, UInt8.ofNat_toNat]

open BpeTokenizer in
theorem tokenBytes_map_byteChar (bs : List UInt8) : tokenBytes (bs.map byteChar) = bs := by
  induction bs with
  | nil => rfl
  | cons b bs ih =>
    rw [List.map_cons, tokenBytes, List.flatMap_cons, unicodeToBytes_byteChar, ← tokenBytes, ih]
    rfl

open BpeTokenizer in
theorem tokenBytes_flatten (tokens : List Text) :
    tokenBytes tokens.flatten = tokens.flatMap tokenBytes := by
  induction tokens with
  | nil => rfl
  | cons token tokens ih =>
    rw [List.flatten_cons, List.flatMap_cons, ← ih, tokenBytes, List.flatMap_append]
    rfl

/-- Every byte and every merge result is a token, and the ids tell the tokens apart. -/
structure Complete (vocab : List (Text × UInt32)) (merges : List (Text × Text))
    (added : List AddedToken) :
    Prop where
  bytes : ∀ b : UInt8, ∃ id, ([byteChar b], id) ∈ vocab
  merged : ∀ p ∈ merges, ∃ id, (p.1 ++ p.2, id) ∈ vocab
  distinct : ∀ e ∈ vocab, ∀ e' ∈ vocab, e.2 = e'.2 → e.1 = e'.1
  nonempty : ∀ t ∈ added, t.content ≠ []
  visible : ∀ t ∈ added, t.special = false
  ids : (added.map (·.id)).Nodup
  apart : ∀ t ∈ added, ∀ e ∈ vocab, t.id ≠ e.2

theorem mem_of_lookup {α β : Type} [BEq α] [LawfulBEq α] {l : List (α × β)} {a : α} {b : β}
    (h : l.lookup a = some b) : (a, b) ∈ l := by
  obtain ⟨pre, post, rfl, -⟩ := List.lookup_eq_some_iff.mp h
  simp

theorem exists_lookup {α β : Type} [BEq α] [LawfulBEq α] {l : List (α × β)} {a : α} {b : β}
    (h : (a, b) ∈ l) :
    ∃ b', l.lookup a = some b' :=
  Option.isSome_iff_exists.mp (List.lookup_isSome_iff.mpr ⟨_, h, by simp⟩)

namespace BpeTokenizer

variable {vocab : List (Text × UInt32)} {merges : List (Text × Text)} {added : List AddedToken}
  (hc : Complete vocab merges added) (k : CharClasses)
include hc

/-- A token of the vocabulary is decoded to its bytes. -/
theorem decodeId_vocab {token : Text} {id : UInt32} (h : (token, id) ∈ vocab) :
    (fromParts vocab merges added).decodeId id = tokenBytes token := by
  have hadded : added.find? (·.id = id) = none := by
    refine List.find?_eq_none.mpr fun t ht => ?_
    simpa using hc.apart t ht _ h
  obtain ⟨token', htoken'⟩ : ∃ token', (fromParts vocab merges added).idToToken.lookup id =
      some token' :=
    exists_lookup (List.mem_reverse.mpr (List.mem_map.mpr ⟨_, h, rfl⟩))
  obtain ⟨e, he, heq⟩ := List.mem_map.mp (List.mem_reverse.mp (mem_of_lookup htoken'))
  obtain ⟨rfl, rfl⟩ := Prod.mk.inj heq
  have hsame : token = e.1 := hc.distinct _ h _ he rfl
  rw [decodeId, show (fromParts vocab merges added).addedTokens = added from rfl, hadded, htoken',
    hsame]

/-- An added token is decoded to its content. -/
theorem decodeId_added {t : AddedToken} (h : t ∈ added) :
    (fromParts vocab merges added).decodeId t.id = Utf8.encode t.content := by
  obtain ⟨t', ht'⟩ : ∃ t', added.find? (·.id = t.id) = some t' :=
    Option.isSome_iff_exists.mp (List.find?_isSome.mpr ⟨t, h, by simp⟩)
  have hid : decide (t'.id = t.id) = true :=
      List.find?_some (p := fun x : AddedToken => x.id = t.id) ht'
  have hsame : t' = t :=
      List.inj_on_of_nodup_map hc.ids (List.mem_of_find?_eq_some ht') h (of_decide_eq_true hid)
  have hfind : added.find? (·.id = t.id) = some t := by rw [ht', hsame]
  rw [decodeId, show (fromParts vocab merges added).addedTokens = added from rfl, hfind]
  simp [hc.visible t h]

/-- Every symbol of a word is in the vocabulary. -/
theorem bpeMerge_mem (s : Text) :
    ∀ token ∈ bpeMerge (fromParts vocab merges added).merges (byteEncode s),
    ∃ id, (token, id) ∈ vocab := by
  refine bpeLoop_forall _ _ (fun token htoken => ?_) fun a b rank hlookup => ?_
  · obtain ⟨c, hmem, rfl⟩ := List.mem_map.mp htoken
    obtain ⟨b, -, rfl⟩ := List.mem_map.mp hmem
    exact hc.bytes b
  · obtain ⟨⟨p, i⟩, hp, heq⟩ := List.mem_map.mp (List.mem_reverse.mp (mem_of_lookup hlookup))
    obtain ⟨rfl, -⟩ := Prod.mk.inj heq
    exact hc.merged _ (List.mem_of_getElem? (List.mem_zipIdx_iff_getElem?.mp hp))

/-- The ids of a word are decoded to the bytes it spells. -/
theorem encodeWord_spec (raw : Text) :
    ∃ ids, (bpeMerge (fromParts vocab merges added).merges (byteEncode raw)).mapM
      (fun token => match vocab.lookup token with
        | some id => (.ok id : Except EncodeError UInt32)
        | none => .error (.notInVocab token raw (byteEncode raw))) = .ok ids ∧
    (fromParts vocab merges added).decodeBytes ids = Utf8.encode raw := by
  have hsymbols : ∀ token ∈ bpeMerge (fromParts vocab merges added).merges (byteEncode raw), ∃ id,
      (match vocab.lookup token with
        | some id => (.ok id : Except EncodeError UInt32)
        | none => .error (.notInVocab token raw (byteEncode raw))) = .ok id ∧
      (fromParts vocab merges added).decodeId id = tokenBytes token := by
    intro token htoken
    obtain ⟨_, hmem⟩ := bpeMerge_mem hc raw token htoken
    obtain ⟨id, hid⟩ := exists_lookup hmem
    exact ⟨id, by rw [hid], decodeId_vocab hc (mem_of_lookup hid)⟩
  obtain ⟨ids, hids, hbytes⟩ := exists_mapM_flatMap hsymbols
  refine ⟨ids, hids, hbytes.trans ?_⟩
  rw [← tokenBytes_flatten, (bpeMerge_spec _ _).1, byteEncode, tokenBytes_map_byteChar]

/-- The ids of a segment are decoded to its bytes. -/
theorem encodeSegment_spec (segment : Text) : ∃ ids,
    (fromParts vocab merges added).encodeSegment k segment = .ok ids ∧
      (fromParts vocab merges added).decodeBytes ids = Utf8.encode segment := by
  obtain ⟨ids, hids, hbytes⟩ := exists_mapM_flatMap (l := k.gpt2Pretokenize segment) fun raw _ =>
    encodeWord_spec hc raw
  refine ⟨ids.flatten, bind_eq_ok.mpr ⟨ids, hids, rfl⟩, ?_⟩
  have hflatten : (fromParts vocab merges added).decodeBytes ids.flatten =
      ids.flatMap (fromParts vocab merges added).decodeBytes := by
    simp only [decodeBytes, List.flatMap_def, List.map_flatten, List.flatten_flatten, List.map_map]
    rfl
  have hpieces : Utf8.encode segment = (k.gpt2Pretokenize segment).flatMap Utf8.encode := by
    conv_lhs => rw [← (k.gpt2Pretokenize_spec segment).1]
    exact Utf8.encode_flatten _
  rw [hflatten, hbytes, hpieces]

theorem flush_spec (pending : Text) : ∃ ids, (fromParts vocab merges added).flush k pending =
    .ok ids ∧
    (fromParts vocab merges added).decodeBytes ids = Utf8.encode pending := by
  rw [flush]
  split
  · next h => exact ⟨[], rfl, by rw [h]; rfl⟩
  · exact encodeSegment_spec hc k pending

omit hc in
/-- The token matched is one of the added ones, and the text begins with it. -/
theorem matchAdded_spec {tok : BpeTokenizer} {text : Text} {t : AddedToken}
    (h : tok.matchAdded text = some t) :
    t ∈ tok.addedTokens ∧ t.content <+: text := by
  have hmem : ∀ (ts : List AddedToken) (best : Option AddedToken), ts.foldl longer best = some t →
      best = some t ∨ t ∈ ts := by
    intro ts
    induction ts with
    | nil => exact fun best h => .inl h
    | cons t' ts ih =>
      intro best h
      rcases ih _ h with hbest | hmem
      · rw [longer] at hbest
        split at hbest
        · exact .inl hbest
        · obtain rfl := Option.some.inj hbest
          exact .inr List.mem_cons_self
      · exact .inr (List.mem_cons_of_mem t' hmem)
  rcases hmem _ _ h with hnone | ht
  · exact absurd hnone (by simp)
  · obtain ⟨hadded, hprefix⟩ := List.mem_filter.mp ht
    exact ⟨hadded, List.isPrefixOf_iff_prefix.mp hprefix⟩

/-- **The loop.** -/
theorem encodeLoop_spec {n : ℕ} {text : Text} (hn : text.length ≤ n) (pending : Text) : ∃ ids,
    (fromParts vocab merges added).encodeLoop k n text pending = .ok ids ∧
      (fromParts vocab merges added).decodeBytes ids = Utf8.encode (pending ++ text) := by
  induction n generalizing text pending with
  | zero =>
    obtain rfl := List.eq_nil_of_length_eq_zero (Nat.le_zero.mp hn)
    rw [encodeLoop, List.append_nil]
    exact flush_spec hc k pending
  | succ n ih =>
    cases text with
    | nil =>
      rw [encodeLoop, List.append_nil]
      exact flush_spec hc k pending
    | cons c rest =>
      rw [List.length_cons] at hn
      rw [encodeLoop]
      split
      · next t ht =>
        obtain ⟨hadded, hprefix⟩ := matchAdded_spec ht
        obtain ⟨before, hbefore, hbytes⟩ := flush_spec hc k pending
        have hlen := List.length_pos_of_ne_nil (hc.nonempty t hadded)
        have hrest : ((c :: rest).drop t.content.length).length ≤ n := by
          rw [List.length_drop, List.length_cons]
          omega
        obtain ⟨after, hafter, hbytes'⟩ := ih hrest []
        refine ⟨before ++ t.id :: after, ?_, ?_⟩
        · exact bind_eq_ok.mpr ⟨before, hbefore, bind_eq_ok.mpr ⟨after, hafter, rfl⟩⟩
        · have hcut : t.content ++ (c :: rest).drop t.content.length = c :: rest :=
            List.prefix_iff_eq_append.mp hprefix
          rw [decodeBytes, List.flatMap_append, List.flatMap_cons, decodeId_added hc hadded,
            ← decodeBytes, hbytes,
            ← decodeBytes, hbytes', List.nil_append, ← Utf8.encode_append, hcut,
              ← Utf8.encode_append]
      · obtain ⟨ids, hids, hbytes⟩ := ih (Nat.le_of_succ_le_succ hn) (pending ++ [c])
        refine ⟨ids, hids, hbytes.trans ?_⟩
        rw [List.append_assoc, List.singleton_append]

/-- **Round trip.** -/
theorem decodeBytes_encode (text : Text) : ∃ ids, (fromParts vocab merges added).encode k text =
    .ok ids ∧
    (fromParts vocab merges added).decodeBytes ids = Utf8.encode text :=
  encodeLoop_spec hc k le_rfl []

end BpeTokenizer

open BpeTokenizer

/-- The scanner cuts every text into pieces that have characters, the merges keep a word and leave
no pair, and what is encoded is decoded to the bytes of the text if the vocabulary is complete. -/
theorem tokenizer_roundTrip (k : CharClasses) (vocab : List (Text × UInt32))
    (merges : List (Text × Text))
    (added : List AddedToken) (text : Text) :
    ((∀ chars ≠ [], 0 < k.matchAlternative chars ∧ k.matchAlternative chars ≤ chars.length) ∧
      (k.gpt2Pretokenize text).flatten = text ∧ ∀ raw ∈ k.gpt2Pretokenize text, raw ≠ []) ∧
    (∀ word, (bpeMerge (fromParts vocab merges added).merges word).flatten = word ∧
      Unmergeable (fromParts vocab merges added).merges
        (bpeMerge (fromParts vocab merges added).merges word)) ∧
    (Complete vocab merges added → ∃ ids, (fromParts vocab merges added).encode k text = .ok ids ∧
      (fromParts vocab merges added).decodeBytes ids = Utf8.encode text) :=
  ⟨⟨fun _ h => k.matchAlternative_spec h, k.gpt2Pretokenize_spec text⟩, bpeMerge_spec _,
    fun hc => decodeBytes_encode hc k text⟩

/-- The classes of ASCII. -/
def asciiClasses : CharClasses where
  isWhitespace c := c.isWhitespace
  isAlphabetic c := c.isAlpha
  isNumeric c := c.isDigit
  space := rfl

/-- A token for each byte. -/
def byteVocab : List (Text × UInt32) :=
  (List.range 256).map fun b => ([byteChar (UInt8.ofNat b)], UInt32.ofNat b)

theorem mem_byteVocab (b : UInt8) : ([byteChar b], b.toUInt32) ∈ byteVocab :=
  List.mem_map.mpr ⟨b.toNat, List.mem_range.mpr b.toNat_lt, by simp⟩

theorem exists_of_mem_byteVocab {e : Text × UInt32} (h : e ∈ byteVocab) :
    ∃ b < 256, e.1 = [byteChar (UInt8.ofNat b)] ∧ e.2.toNat = b := by
  obtain ⟨b, hb, rfl⟩ := List.mem_map.mp h
  rw [List.mem_range] at hb
  exact ⟨b, hb, rfl, UInt32.toNat_ofNat_of_lt' (Nat.lt_trans hb (by decide))⟩

/-- One merge and one added token. -/
theorem complete_byteVocab : Complete (byteVocab ++ [(['h', 'i'], 256)]) [(['h'], ['i'])]
    [⟨"<|end|>".toList, 300, false⟩] where
  bytes b := ⟨b.toUInt32, List.mem_append_left _ (mem_byteVocab b)⟩
  merged := by simp
  distinct := by
    intro e he e' he' heq
    have hid := congrArg UInt32.toNat heq
    rcases List.mem_append.mp he with hmem | hmem <;> rcases List.mem_append.mp he' with hmem'
      | hmem'
    · obtain ⟨b, -, htoken, hb⟩ := exists_of_mem_byteVocab hmem
      obtain ⟨b', -, htoken', hb'⟩ := exists_of_mem_byteVocab hmem'
      rw [htoken, htoken', ← hb, ← hb', hid]
    · obtain ⟨b, hlt, -, hb⟩ := exists_of_mem_byteVocab hmem
      rw [List.mem_singleton.mp hmem'] at hid
      exact absurd (hb.symm.trans hid) (Nat.ne_of_lt hlt)
    · obtain ⟨b, hlt, -, hb⟩ := exists_of_mem_byteVocab hmem'
      rw [List.mem_singleton.mp hmem] at hid
      exact absurd (hb.symm.trans hid.symm) (Nat.ne_of_lt hlt)
    · rw [List.mem_singleton.mp hmem, List.mem_singleton.mp hmem']
  nonempty := by simp
  visible := by simp
  ids := by simp
  apart := by
    intro t ht e he heq
    rw [List.mem_singleton.mp ht] at heq
    rcases List.mem_append.mp he with hmem | hmem
    · obtain ⟨b, hlt, -, hb⟩ := exists_of_mem_byteVocab hmem
      have hid : 300 = b := (congrArg UInt32.toNat heq).trans hb
      omega
    · rw [List.mem_singleton.mp hmem] at heq
      exact absurd heq (by decide)

theorem tokenizer_roundTrip_hi : ∃ ids,
    (fromParts (byteVocab ++ [(['h', 'i'], 256)]) [(['h'], ['i'])]
      [⟨"<|end|>".toList, 300, false⟩]).encode
      asciiClasses "hi 東<|end|>\n".toList = .ok ids ∧
    (fromParts (byteVocab ++ [(['h', 'i'], 256)]) [(['h'], ['i'])]
      [⟨"<|end|>".toList, 300, false⟩]).decodeBytes
      ids = Utf8.encode "hi 東<|end|>\n".toList :=
  (tokenizer_roundTrip asciiClasses _ _ _ _).2.2 complete_byteVocab

/-! ### Ids that name two tokens -/

/-- A token for each byte, all of one id. -/
def sharedVocab : List (Text × UInt32) := (List.range 256).map fun b =>
    ([byteChar (UInt8.ofNat b)], 0)

/-- Where tokens share an id, a text is not decoded to its bytes. -/
theorem not_roundTrip_sharedVocab : (∀ b : UInt8, ∃ id, ([byteChar b], id) ∈ sharedVocab) ∧
    ∀ ids, (fromParts sharedVocab [] []).decodeBytes ids ≠ Utf8.encode ['a'] := by
  constructor
  · intro b
    exact ⟨0, List.mem_map.mpr ⟨b.toNat, List.mem_range.mpr b.toNat_lt, by simp⟩⟩
  · intro ids heq
    have hbytes : ∀ id, ∀ b ∈ (fromParts sharedVocab [] []).decodeId id, b = 255 := by
      intro id b hb
      have hlast : (fromParts sharedVocab [] []).idToToken =
          (0, [byteChar 255]) ::
            (((List.range 255).map fun b => ([byteChar (UInt8.ofNat b)], (0 : UInt32))).map
            fun (token, id) => (id, token)).reverse := by
        rw [fromParts, sharedVocab, List.range_succ]
        simp
      have hlookup : ∀ token, (fromParts sharedVocab [] []).idToToken.lookup id = some token →
          token = [byteChar 255] := by
        intro token htoken
        rw [hlast, List.lookup_cons] at htoken
        split at htoken
        · exact (Option.some.inj htoken).symm
        · next hne =>
          obtain ⟨e, he, heq⟩ := List.mem_map.mp (List.mem_reverse.mp (mem_of_lookup htoken))
          obtain ⟨b, -, rfl⟩ := List.mem_map.mp he
          obtain ⟨rfl, -⟩ := Prod.mk.inj heq
          exact absurd hne (by decide)
      rw [decodeId] at hb
      simp only [show (fromParts sharedVocab [] []).addedTokens = [] from rfl, List.find?_nil] at hb
      split at hb
      · next token htoken =>
        rw [hlookup token htoken, show [byteChar 255] = [(255 : UInt8)].map byteChar from rfl,
          tokenBytes_map_byteChar] at hb
        exact List.mem_singleton.mp hb
      · exact absurd hb List.not_mem_nil
    have hmem : (97 : UInt8) ∈ (fromParts sharedVocab [] []).decodeBytes ids := by
      rw [heq]
      decide
    obtain ⟨id, -, hb⟩ := List.mem_flatMap.mp hmem
    exact absurd (hbytes id 97 hb) (by decide)

end Coordinator

end Mimo26

import Mimo26.Library.Softmax
import Mathlib.Data.List.ReduceOption

/-!
# Attention

The two-pass reference and its decompositions (`attn.rs`) in exact arithmetic: split-KV decode,
chunked prefill, and paged reading, which fold keys into one-pass accumulators. Rows lie in flat
lists; `none` is a panic, an index out of range or a division by zero. The known-wrong variants that
the tests select are left out.

## Main definitions

* `AttnSpec`, `isVisible` — the layer, and which keys a query sees
* `attention` — the two-pass reference
* `Partial`, `foldRangeKvh`, `reducePartials` — the accumulators
* `decodeSplitKv`, `attentionChunked`, `attentionPaged` — the decompositions
-/

namespace Mimo26

namespace Attn

open Softmax

inductive Family where
  | ga
  | swa
  deriving DecidableEq, Repr

structure AttnSpec where
  family : Family
  nQ : ℕ
  nKv : ℕ
  dQk : ℕ
  dV : ℕ
  window : ℕ
  sinkEnabled : Bool
  deriving DecidableEq, Repr

namespace AttnSpec

def windowGated (spec : AttnSpec) : Option ℕ :=
  match spec.family with
  | .ga => none
  | .swa => some spec.window

def sinkAllowed (spec : AttnSpec) : Bool := spec.family = .swa && spec.sinkEnabled

end AttnSpec

inductive AttnError where
  | shapeMismatch (what : String)
  | sinkLength (got expected : ℕ)
  | kvLayout (what : String)
  deriving DecidableEq, Repr

/-- A division of `usize`s, which panics on zero. -/
def div? (a b : ℕ) : Option ℕ := if b = 0 then none else some (a / b)

/-- The heads that a KV head serves. -/
def AttnSpec.nRep (spec : AttnSpec) : Option ℕ := div? spec.nQ spec.nKv

/-- `&xs[lo..hi]` -/
def slice {α : Type*} (xs : List α) (lo hi : ℕ) : Option (List α) :=
  if lo ≤ hi ∧ hi ≤ xs.length then some ((xs.drop lo).take (hi - lo)) else none

/-- A sum or product as a `usize`. -/
def wrap (n : ℕ) : ℕ := n % 2 ^ 64

/-- A difference or cast as an `i64`. -/
def i64 (n : ℤ) : ℤ := n.bmod (2 ^ 64)

/-- Exact arithmetic, with any exponential and any root. -/
structure Arith (K : Type) [Field K] [LinearOrder K] extends ExpHom K where
  sqrt : K → K

/-- Causal and, when windowed, near enough. -/
def isVisible (qPos kPos : ℤ) (window : Option ℕ) : Bool :=
  if qPos < kPos then false
  else match window with
    | none => true
    | some w => i64 (qPos - kPos) < i64 w

variable {K : Type} [Field K] [LinearOrder K] (A : Arith K)

def attnScale (dQk : ℕ) : K := 1 / A.sqrt dQk

def sinkActive (spec : AttnSpec) (sink : Option (List K)) : Bool :=
  match sink with
  | none => false
  | some _ => spec.sinkAllowed

/-- The sink logit of a head, when the sink is live. -/
def sinkLogit (spec : AttnSpec) (sink : Option (List K)) (h : ℕ) : Option (Option K) :=
  match sink with
  | none => some none
  | some s => if sinkActive spec (some s) then s[h]?.map some else some none

def checkSink (spec : AttnSpec) (sink : Option (List K)) : Except AttnError Unit :=
  match sink with
  | none => .ok ()
  | some s => if s.length ≠ spec.nQ then .error (.sinkLength s.length spec.nQ) else .ok ()

/-- The logit of key `j` and the query at `qoff`. -/
def logit (spec : AttnSpec) (q k : List K) (qoff kvh j : ℕ) : Option K := do
  let s ← (List.range spec.dQk).foldlM (fun s i => do
    let x ← q[qoff + i]?
    let y ← k[(j * spec.nKv + kvh) * spec.dQk + i]?
    pure (s + x * y)) 0
  pure (s * attnScale A spec.dQk)

/-- The value row of key `j`. -/
def values (spec : AttnSpec) (v : List K) (kvh j : ℕ) : Option (List K) :=
  (List.range spec.dV).mapM fun i => v[(j * spec.nKv + kvh) * spec.dV + i]?

/-- A row of the output, which is left zero without a denominator. -/
def outRow (spec : AttnSpec) (l : K) (o : List K) : List K :=
  if 0 < l then o.map (· / l) else List.replicate spec.dV 0

/-- The rows of all queries and heads, in order. -/
def eachHead (spec : AttnSpec) (tLen : ℕ) (row : ℕ → ℕ → Option (List K)) : Option (List K) := do
  let rows ← (List.range tLen).mapM fun t => (List.range spec.nQ).mapM fun h => row t h
  pure rows.flatten.flatten

/-! ### Two passes -/

/-- The row of query `t` and head `h`. -/
def attentionRow (spec : AttnSpec) (q k v : List K) (qPos kPos : List ℤ) (sink : Option (List K))
    (nRep t h : ℕ) : Option (List K) := do
  let qp ← qPos[t]?
  let kvh ← div? h nRep
  let qoff := (t * spec.nQ + h) * spec.dQk
  let visible := kPos.map fun kp => isVisible qp kp spec.windowGated
  -- the largest logit of a visible key
  let m ← (List.range kPos.length).foldlM (fun m j => do
    if ← visible[j]? then
      let s ← logit A spec q k qoff kvh j
      pure (sup m (some s))
    else pure m) none
  if visible.any id then
    let b ← sinkLogit spec sink h
    let m := sup m b
    -- the weights and the values
    let sums ← (List.range kPos.length).foldlM (fun (sums : K × List K) j => do
      if ← visible[j]? then
        let s ← logit A spec q k qoff kvh j
        let val ← values spec v kvh j
        let p := relative A.toExpHom (some s) m
        pure (sums.1 + p, List.zipWith (fun a x => a + p * x) sums.2 val)
      else pure sums) (0, List.replicate spec.dV 0)
    let l := match b with
      | some b => sums.1 + relative A.toExpHom (some b) m
      | none => sums.1
    pure (outRow spec l sums.2)
  else pure (List.replicate spec.dV 0)

def attention (spec : AttnSpec) (q k v : List K) (qPos kPos : List ℤ) (sink : Option (List K)) :
    Except AttnError (Option (List K)) := do
  let tLen := qPos.length
  let sLen := kPos.length
  if q.length ≠ tLen * spec.nQ * spec.dQk then
    throw (.shapeMismatch "q length")
  if k.length ≠ sLen * spec.nKv * spec.dQk then
    throw (.shapeMismatch "k length (T4: QK width is d_qk)")
  if v.length ≠ sLen * spec.nKv * spec.dV then
    throw (.shapeMismatch "v length (T4: V width is d_v, no broadcast)")
  checkSink spec sink
  pure do
    let nRep ← spec.nRep
    eachHead spec tLen (attentionRow A spec q k v qPos kPos sink nRep)

/-! ### One pass -/

/-- The running maximum, the denominator and the numerator of a query and a head. -/
structure Partial (K : Type) where
  m : Option K
  l : K
  o : List K

namespace Partial

def new (dV : ℕ) : Partial K := ⟨none, 0, List.replicate dV 0⟩

/-- Fold in a key, rescaling to the new maximum. -/
def fold (p : Partial K) (s : K) (val : List K) : Partial K :=
  let mNew := sup p.m (some s)
  let rescale := relative A.toExpHom p.m mNew
  let w := relative A.toExpHom (some s) mNew
  ⟨mNew, p.l * rescale + w, List.zipWith (fun x y => x * rescale + w * y) p.o val⟩

end Partial

/-- Fold the keys from `jLo` to `jHi`. -/
def foldRangeKvh (spec : AttnSpec) (kvh : ℕ) (qRow k v : List K) (jLo jHi : ℕ) (qPos : ℤ)
    (kPos : List ℤ) (p : Partial K) : Option (Partial K) :=
  (List.range' jLo (jHi - jLo)).foldlM (fun p j => do
    let kp ← kPos[j]?
    if isVisible qPos kp spec.windowGated then
      let s ← logit A spec qRow k 0 kvh j
      let val ← values spec v kvh j
      pure (p.fold A s val)
    else pure p) p

/-- The denominator and the numerator of all parts, with the sink once. -/
def reducePartials (partials : List (Partial K)) (sink : Option K) : K × List K :=
  let dV := (partials.head?.map (·.o.length)).getD 0
  let m := sup (partials.foldl (fun m p => sup m p.m) none) sink
  let sums := partials.foldl (fun (sums : K × List K) p =>
    if p.m = none ∧ p.l = 0 then sums
    else
      let w := relative A.toExpHom p.m m
      (sums.1 + w * p.l, List.zipWith (fun o x => o + w * x) sums.2 p.o))
    (0, List.replicate dV 0)
  match sink with
  | none => sums
  | some b => (sums.1 + relative A.toExpHom (some b) m, sums.2)

/-- The shapes that a decomposition checks. -/
def checkShapes (spec : AttnSpec) (q k v : List K) (tLen sLen : ℕ) (what : String) :
    Except AttnError Unit :=
  if q.length ≠ tLen * spec.nQ * spec.dQk ∨ k.length ≠ sLen * spec.nKv * spec.dQk ∨
      v.length ≠ sLen * spec.nKv * spec.dV then
    .error (.shapeMismatch what)
  else .ok ()

/-- The bytes of a `Partial`, and the most that a `Vec` holds. -/
def partialBytes : ℕ := 40

def maxBytes : ℕ := 2 ^ 63 - 1

def decodeRow (spec : AttnSpec) (q k v : List K) (qPos kPos : List ℤ) (sink : Option (List K))
    (nSplits nRep t h : ℕ) : Option (List K) := do
  let sLen := kPos.length
  let qp ← qPos[t]?
  let kvh ← div? h nRep
  let qRow ← slice q ((t * spec.nQ + h) * spec.dQk) ((t * spec.nQ + h) * spec.dQk + spec.dQk)
  -- `Vec::with_capacity`
  if maxBytes < nSplits * partialBytes then none
  else
    let partials ← (List.range nSplits).mapM fun sp =>
      foldRangeKvh A spec kvh qRow k v (wrap (sLen * sp) / nSplits)
        (wrap (sLen * (sp + 1)) / nSplits) qp kPos (Partial.new spec.dV)
    let b ← sinkLogit spec sink h
    let (l, o) := reducePartials A partials b
    pure (outRow spec l o)

/-- Flash decoding: the keys in `nSplits` parts. -/
def decodeSplitKv (spec : AttnSpec) (q k v : List K) (qPos kPos : List ℤ)
    (sink : Option (List K)) (nSplits : ℕ) : Except AttnError (Option (List K)) := do
  checkShapes spec q k v qPos.length kPos.length "decode_split_kv shapes (T4)"
  checkSink spec sink
  pure do
    let nRep ← spec.nRep
    eachHead spec qPos.length (decodeRow A spec q k v qPos kPos sink (max nSplits 1) nRep)

/-- `while lo < s_len`, in chunks of `chunk` keys. -/
def chunkLoop (spec : AttnSpec) (kvh : ℕ) (qRow k v : List K) (qPos : ℤ) (kPos : List ℤ)
    {chunk : ℕ} (hchunk : 0 < chunk) (lo : ℕ) (p : Partial K) : Option (Partial K) :=
  if lo < kPos.length then do
    let hi := min (lo + chunk) kPos.length
    let p ← foldRangeKvh A spec kvh qRow k v lo hi qPos kPos p
    chunkLoop spec kvh qRow k v qPos kPos hchunk hi p
  else some p
termination_by kPos.length - lo

def chunkedRow (spec : AttnSpec) (q k v : List K) (qPos kPos : List ℤ) (sink : Option (List K))
    {chunk : ℕ} (hchunk : 0 < chunk) (nRep t h : ℕ) : Option (List K) := do
  let qp ← qPos[t]?
  let kvh ← div? h nRep
  let qRow ← slice q ((t * spec.nQ + h) * spec.dQk) ((t * spec.nQ + h) * spec.dQk + spec.dQk)
  let p ← chunkLoop A spec kvh qRow k v qp kPos hchunk 0 (Partial.new spec.dV)
  let b ← sinkLogit spec sink h
  let (l, o) := reducePartials A [p] b
  pure (outRow spec l o)

/-- Chunked prefill: the keys in chunks, with a running state. -/
def attentionChunked (spec : AttnSpec) (q k v : List K) (qPos kPos : List ℤ)
    (sink : Option (List K)) (keysPerChunk : ℕ) : Except AttnError (Option (List K)) := do
  checkShapes spec q k v qPos.length kPos.length "attention_chunked shapes (T4)"
  checkSink spec sink
  pure do
    let nRep ← spec.nRep
    eachHead spec qPos.length (chunkedRow A spec q k v qPos kPos sink
      (show 0 < max keysPerChunk 1 from Nat.lt_of_lt_of_le Nat.one_pos (Nat.le_max_right _ _)) nRep)

/-! ### Pages -/

/-- A store of rows in pages, as it is read: a panic is `none`. -/
structure GaPaged (K : Type) where
  nTokens : ℕ
  pageTokens : ℕ
  pageTokens_pos : 0 < pageTokens
  rowsRange : ℕ → ℕ → Option (List K × List K)

/-- `while pg < n_pages`, in chunks of `chunk` pages. -/
def pageLoop (spec : AttnSpec) (kvh : ℕ) (qRow : List K) (qPos : ℤ) (kPos : List ℤ)
    (ga : GaPaged K) {chunk : ℕ} (hchunk : 0 < chunk) (nPages pg : ℕ) (p : Partial K) :
    Option (Partial K) :=
  if pg < nPages then do
    let pgHi := min (pg + chunk) nPages
    let lo := pg * ga.pageTokens
    let hi := min (pgHi * ga.pageTokens) ga.nTokens
    let (kRows, vRows) ← ga.rowsRange lo hi
    let kPosRows ← slice kPos lo hi
    let p ← foldRangeKvh A spec kvh qRow kRows vRows 0 (hi - lo) qPos kPosRows p
    pageLoop spec kvh qRow qPos kPos ga hchunk nPages pgHi p
  else some p
termination_by nPages - pg

def pagedRow (spec : AttnSpec) (q : List K) (qPos kPos : List ℤ) (sink : Option (List K))
    (ga : GaPaged K) {chunk : ℕ} (hchunk : 0 < chunk) (nRep t h : ℕ) : Option (List K) := do
  let qp ← qPos[t]?
  let kvh ← div? h nRep
  let qRow ← slice q ((t * spec.nQ + h) * spec.dQk) ((t * spec.nQ + h) * spec.dQk + spec.dQk)
  let nPages := wrap (ga.nTokens + ga.pageTokens - 1) / ga.pageTokens
  let p ← pageLoop A spec kvh qRow qp kPos ga hchunk nPages 0 (Partial.new spec.dV)
  let b ← sinkLogit spec sink h
  let (l, o) := reducePartials A [p] b
  pure (outRow spec l o)

/-- Reading through the page table, in chunks of pages. -/
def attentionPaged (spec : AttnSpec) (q : List K) (qPos kPos : List ℤ) (sink : Option (List K))
    (ga : GaPaged K) (pagesPerChunk : ℕ) : Except AttnError (Option (List K)) := do
  if q.length ≠ qPos.length * spec.nQ * spec.dQk then
    throw (.shapeMismatch "attention_paged q")
  if kPos.length ≠ ga.nTokens then
    throw (.shapeMismatch s!"attention_paged k_pos {kPos.length} != n_tokens {ga.nTokens}")
  checkSink spec sink
  pure do
    let nRep ← spec.nRep
    eachHead spec qPos.length (pagedRow A spec q qPos kPos sink ga
      (show 0 < max pagesPerChunk 1 from Nat.lt_of_lt_of_le Nat.one_pos (Nat.le_max_right _ _))
      nRep)

end Attn

end Mimo26

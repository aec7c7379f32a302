import Mimo26.Coordinator.DeviceKv
import Mimo26.Library.Runs
import Mimo26.Library.Tail

/-!
# Window coverage

The rows a layer stores are the last positions of the sequence, and they reach back over the whole
window: the invariant `Covers`. Appends keep it, and so do shrinks, saves and loads. A verify block
whose rejected rows are dropped keeps it as long as no layer is compacted between the block's two
lanes with rows of the first lane dropped afterwards: the compaction counts those rows among the
last `window - 1`.

## Main definitions

* `LayerKv.Covers` — a layer stores the last positions, back over its window
* `LayerKv.Loses` — a two-lane verify block loses rows of the window
* `Lossless` — an operation that is no such block

## Main results

* `segs_lanes` — the segments of a request in the lanes of a verify pass
* `LayerKv.prepare_fits` — an append fits the buffers
* `DeviceKv.tokens_forward` — a prefill appends all of its tokens, however it is cut
* `LayerKv.Covers.append` — an append keeps the coverage
* `LayerKv.Covers.verify_iff` — a verify block keeps it exactly when it loses no rows
* `covered_iff_lossless` — every state of a run is covered exactly when its operations are lossless
* `not_covered_splitBlock` — a verify block in two lanes loses rows of the window
-/

namespace Mimo26

namespace Coordinator

open Runs Tail

/-! ### The segments of a verify pass -/

/-- The rows of request `i`'s segments in the lanes. -/
def requestSegs (ls : List (List (ℕ × ℕ × ℕ))) (i : ℕ) : List ℕ :=
  (ls.flatten.filter (·.1 = i)).map (·.2.2)

theorem filter_whole {S : Type} (blocks : List (Block S)) {l : List ℕ} (hl : l.Nodup) {i : ℕ}
    (hi : i ∈ l) :
    ((l.map (whole blocks)).filter (·.1 = i)).map (·.2.2) = [(whole blocks i).2.2] := by
  induction l with
  | nil => exact absurd hi List.not_mem_nil
  | cons j l ih =>
    obtain ⟨hj, hl⟩ := List.nodup_cons.mp hl
    rw [List.map_cons, List.filter_cons]
    rcases List.mem_cons.mp hi with rfl | hi
    · have hnone : (l.map (whole blocks)).filter (·.1 = i) = [] := by
        rw [List.filter_eq_nil_iff]
        intro x hx
        obtain ⟨k, hk, rfl⟩ := List.mem_map.mp hx
        simp only [whole]
        intro heq
        exact hj (of_decide_eq_true heq ▸ hk)
      rw [if_pos (by simp [whole]), hnone]
      rfl
    · have hne : j ≠ i := fun h => hj (h ▸ hi)
      rw [if_neg (by simp [whole, hne])]
      exact ih hl hi

/-- **The segments of a request** in the lanes of a verify pass. -/
theorem segs_lanes {S : Type} (t : Forward S) (blocks : List (Block S)) {i : ℕ}
    (hi : i < blocks.length) :
    requestSegs (lanes t blocks) i =
      verifySegs t.pipelined t.verifyLanes blocks.length blocks[i].ids.length := by
  have hlen : (whole blocks i).2.2 = blocks[i].ids.length := by
    rw [whole, List.getElem?_eq_getElem hi]
    rfl
  have hrange : requestSegs [(List.range blocks.length).map (whole blocks)] i =
      [blocks[i].ids.length] := by
    rw [requestSegs, List.flatten_singleton, filter_whole blocks List.nodup_range
      (List.mem_range.mpr hi), hlen]
  rw [lanes, verifySegs]
  dsimp only
  by_cases hone : blocks.length = 1
  · obtain ⟨b, rfl⟩ := List.length_eq_one_iff.mp hone
    obtain rfl : i = 0 := by simpa using hi
    have htotal : totalRows [b] = b.ids.length := by simp [totalRows]
    rw [htotal]
    by_cases hsplit : (!t.pipelined) = true ∨ t.verifyLanes = 1 ∨ b.ids.length < 2
    · rw [if_pos (by simpa using hsplit), if_pos (by simpa using hsplit)]
      exact hrange
    · rw [if_neg (by simpa using hsplit), if_pos hone, if_neg (by simpa using hsplit)]
      rfl
  · rw [if_pos (show _ ∨ _ ∨ blocks.length ≠ 1 ∨ _ from Or.inr (Or.inr (Or.inl hone)))]
    split
    · exact hrange
    · rw [← hrange, requestSegs, requestSegs, List.flatten_singleton, ← range_halves blocks.length,
        List.map_append]
      simp

/-! ### One layer -/

namespace LayerKv

variable {l : LayerKv} {n : ℕ}

/-- The rows a query at position `n` can see, its own apart. -/
def need (l : LayerKv) (n : ℕ) : ℕ :=
  match l.kind with
  | .ga => n
  | .swa => min n (l.window - 1)

/-- The rows are the last of `n` positions, and reach back over the window. -/
structure Covers (l : LayerKv) (n : ℕ) : Prop where
  le : l.rows ≤ n
  pos : l.pos = tail n l.rows
  need : l.need n ≤ l.rows

theorem covers_tail {c : ℕ} (hpos : l.pos = tail n c) (hc : c ≤ n) (hneed : l.need n ≤ c) :
    l.Covers n := by
  have hrows : l.rows = c := by rw [rows, hpos, length_tail]
  exact ⟨hrows ▸ hc, hrows ▸ hpos, hrows ▸ hneed⟩

/-- A layer with the last `c` of the rows. -/
theorem Covers.drop {l' : LayerKv} {c : ℕ} (h : l.Covers n)
    (hpos : l'.pos = l.pos.drop (l.rows - c)) (hc : c ≤ l.rows) (hneed : l'.need n ≤ c) :
    l'.Covers n := by
  refine covers_tail (c := c) ?_ (Nat.le_trans hc h.le) hneed
  rw [hpos, h.pos, drop_tail hc h.le]

theorem rows_compact (l : LayerKv) : l.compact.rows = min l.rows (l.window - 1) := by
  show (l.pos.drop _).length = _
  rw [List.length_drop]
  show l.rows - (l.rows - min l.rows (l.window - 1)) = _
  omega

theorem Covers.compact (h : l.Covers n) (hkind : l.kind = .swa) : l.compact.Covers n := by
  refine h.drop rfl (Nat.min_le_left _ _) ?_
  have hneed := h.need
  rw [LayerKv.need, hkind] at hneed
  show (match l.kind with | .ga => n | .swa => min n (l.window - 1)) ≤ _
  rw [hkind]
  exact Nat.le_min.mpr ⟨hneed, Nat.min_le_right _ _⟩

/-- A layer keeps its rows before an append, or is compacted. -/
theorem prepare_cases (l : LayerKv) (t : ℕ) :
    (∃ cap, l.cap ≤ cap ∧ l.prepare t = { l with cap := cap } ∧
        (l.kind = .swa → l.rows + t ≤ l.cap)) ∨
      (l.kind = .swa ∧ l.cap < l.rows + t ∧
        ∃ cap, l.cap ≤ cap ∧ l.prepare t = { l.compact with cap := cap }) := by
  rw [prepare]
  split
  · next hfits => exact Or.inl ⟨l.cap, Nat.le_refl _, rfl, fun _ => hfits⟩
  · next hfull =>
    split
    · next hkind =>
      refine Or.inr ⟨hkind, Nat.lt_of_not_le hfull, ?_⟩
      dsimp only
      split
      · next hgrow =>
        exact ⟨_, Nat.le_of_lt (Nat.lt_of_lt_of_le hgrow (le_roundUp _ (by decide))), rfl⟩
      · exact ⟨l.cap, Nat.le_refl _, rfl⟩
    · next hkind =>
      refine Or.inl ⟨_, ?_, rfl, fun h => absurd (hkind.symm.trans h) (by decide)⟩
      exact Nat.le_trans (Nat.le_add_right _ _) (Nat.le_max_left _ _)

/-- The append fits the buffers. -/
theorem prepare_fits (l : LayerKv) (t : ℕ) : (l.prepare t).rows + t ≤ (l.prepare t).cap := by
  rw [prepare]
  split
  · next hfits => exact hfits
  · split
    · dsimp only
      split
      · exact le_roundUp _ (by decide)
      · next hroom => exact Nat.not_lt.mp hroom
    · exact Nat.le_max_right _ _

/-- What an operation leaves of a layer's shape. -/
structure Grows (l l' : LayerKv) : Prop where
  kind : l'.kind = l.kind
  window : l'.window = l.window
  cap : l.cap ≤ l'.cap

theorem Grows.need {l l' : LayerKv} (h : Grows l l') (n : ℕ) : l'.need n = l.need n := by
  rw [LayerKv.need, LayerKv.need, h.kind, h.window]

theorem Grows.trans {l₁ l₂ l₃ : LayerKv} (h : Grows l₁ l₂) (h' : Grows l₂ l₃) : Grows l₁ l₃ :=
  ⟨h'.kind.trans h.kind, h'.window.trans h.window, Nat.le_trans h.cap h'.cap⟩

theorem grows_prepare (l : LayerKv) (t : ℕ) : Grows l (l.prepare t) := by
  rcases prepare_cases l t with ⟨cap, hcap, heq, -⟩ | ⟨-, -, cap, hcap, heq⟩
  · rw [heq]
    exact ⟨rfl, rfl, hcap⟩
  · rw [heq]
    exact ⟨rfl, rfl, hcap⟩

theorem grows_append (l : LayerKv) (next t : ℕ) : Grows l (l.append next t) :=
  ⟨(grows_prepare l t).kind, (grows_prepare l t).window, (grows_prepare l t).cap⟩

theorem grows_appendSegs (l : LayerKv) (next : ℕ) (segs : List ℕ) :
    Grows l (l.appendSegs next segs) := by
  induction segs generalizing l next with
  | nil => exact ⟨rfl, rfl, Nat.le_refl _⟩
  | cons t ts ih => exact (grows_append l next t).trans (ih _ _)

theorem Covers.prepare (h : l.Covers n) (t : ℕ) : (l.prepare t).Covers n := by
  rcases prepare_cases l t with ⟨cap, -, heq, -⟩ | ⟨hkind, -, cap, -, heq⟩
  · rw [heq]
    exact ⟨h.le, h.pos, h.need⟩
  · rw [heq]
    have hc := h.compact hkind
    exact ⟨hc.le, hc.pos, hc.need⟩

theorem rows_append (l : LayerKv) (next t : ℕ) :
    (l.append next t).rows = (l.prepare t).rows + t := by
  show (_ ++ List.range' next t).length = _
  rw [List.length_append, List.length_range']
  rfl

/-- **An append** keeps the coverage. -/
theorem Covers.append (h : l.Covers n) (t : ℕ) : (l.append n t).Covers (n + t) := by
  have hp := h.prepare t
  refine covers_tail (c := (l.prepare t).rows + t) ?_ (Nat.add_le_add_right hp.le t) ?_
  · show (l.prepare t).pos ++ List.range' n t = _
    rw [hp.pos, tail_append hp.le, rows, hp.pos, length_tail]
  · have hneed := hp.need
    rw [(grows_append l n t).need]
    rw [(grows_prepare l t).need] at hneed
    cases hkind : l.kind with
    | ga =>
      rw [LayerKv.need, hkind] at hneed ⊢
      exact Nat.add_le_add_right hneed t
    | swa =>
      rw [LayerKv.need, hkind] at hneed ⊢
      dsimp only at hneed ⊢
      omega

theorem Covers.appendSegs (h : l.Covers n) (segs : List ℕ) :
    (l.appendSegs n segs).Covers (n + segs.sum) := by
  induction segs generalizing l n with
  | nil => exact h
  | cons t ts ih =>
    rw [List.sum_cons, ← Nat.add_assoc]
    exact ih (h.append t)

/-! ### A verify block in one layer -/

/-- A block of `len` rows compacts the layer between its two lanes. -/
def CompactsBetween (l : LayerKv) (len : ℕ) : Prop :=
  l.kind = .swa ∧ l.rows + (len + 1) / 2 ≤ l.cap ∧ l.cap < l.rows + len

/-- A compaction between the two lanes of a block, and rows of the first lane dropped after it. -/
def Loses (l : LayerKv) (len acc : ℕ) : Prop :=
  l.CompactsBetween len ∧ acc + 1 < (len + 1) / 2 ∧ (len + 1) / 2 ≤ l.window - 1 + (acc + 1)

/-- The slack of a sliding-window layer. -/
def Roomy (l : LayerKv) : Prop := l.kind = .swa → l.window - 1 + swaSlackRows ≤ l.cap

theorem need_add (l : LayerKv) (n k : ℕ) : l.need (n + k) ≤ l.need n + k := by
  rw [need, need]
  split
  · exact Nat.le_refl _
  · omega

theorem rows_prepare_ga {t : ℕ} (hkind : l.kind = .ga) : (l.prepare t).rows = l.rows := by
  rcases prepare_cases l t with ⟨cap, -, heq, -⟩ | ⟨hswa, -⟩
  · rw [heq]
    rfl
  · exact absurd (hkind.symm.trans hswa) (by decide)

theorem rows_prepare_swa {t : ℕ} (hkind : l.kind = .swa) :
    (l.prepare t).rows =
      if l.rows + t ≤ l.cap then l.rows else min l.rows (l.window - 1) := by
  rcases prepare_cases l t with ⟨cap, -, heq, hfits⟩ | ⟨-, hfull, cap, -, heq⟩
  · rw [if_pos (hfits hkind), heq]
    rfl
  · rw [if_neg (Nat.not_le.mpr hfull), heq]
    exact rows_compact l

theorem cap_prepare_of_fits {t : ℕ} (hfits : l.rows + t ≤ l.cap) : (l.prepare t).cap = l.cap := by
  rw [prepare, if_pos hfits]

/-- The rows of a sliding-window layer after a block in two lanes. -/
theorem rows_twoLanes_swa (hkind : l.kind = .swa) (hroom : l.Roomy) (next : ℕ) {a b : ℕ}
    (hlen : a + b ≤ swaSlackRows) :
    (l.appendSegs next [a, b]).rows =
      if l.rows + (a + b) ≤ l.cap then l.rows + (a + b)
      else if l.rows + a ≤ l.cap then min (l.rows + a) (l.window - 1) + b
      else min l.rows (l.window - 1) + (a + b) := by
  have hgrow := grows_append l next a
  show ((l.append next a).append (next + a) b).rows = _
  rw [rows_append, rows_prepare_swa (hgrow.kind.trans hkind), rows_append,
    rows_prepare_swa hkind, hgrow.window]
  have hroom := hroom hkind
  by_cases hfits : l.rows + a ≤ l.cap
  · have hcap : (l.append next a).cap = l.cap := cap_prepare_of_fits hfits
    rw [if_pos hfits, if_pos hfits, hcap, Nat.add_assoc]
    split
    · exact Nat.add_assoc _ _ _
    · rfl
  · have hcap := hgrow.cap
    rw [if_neg hfits, if_pos (by omega), if_neg (by omega), if_neg hfits, Nat.add_assoc]

/-- Dropping the newest rows keeps the coverage when enough are left. -/
theorem Covers.dropNewest_iff (h : l.Covers n) {d : ℕ} (hd : d ≤ l.rows) :
    (l.dropNewest d).Covers (n - d) ↔ l.need (n - d) + d ≤ l.rows := by
  have hpos : (l.dropNewest d).pos = tail (n - d) (l.rows - d) := by
    show l.pos.take (l.rows - d) = _
    rw [h.pos, take_tail hd h.le]
  have hneed : (l.dropNewest d).need (n - d) = l.need (n - d) := rfl
  constructor
  · intro hc
    have hle := hc.need
    rw [hneed, rows, hpos, length_tail] at hle
    omega
  · intro hle
    exact covers_tail hpos (Nat.sub_le_sub_right h.le d) (by rw [hneed]; omega)

/-- The rows after a block in one lane. -/
theorem Covers.rows_oneLane (h : l.Covers n) (next len : ℕ) :
    l.need n + len ≤ (l.appendSegs next [len]).rows := by
  show _ ≤ (l.append next len).rows
  rw [rows_append]
  have hneed := (h.prepare len).need
  rw [(grows_prepare l len).need] at hneed
  exact Nat.add_le_add_right hneed len

/-- The rows after a block in two lanes. -/
theorem Covers.rows_twoLanes (h : l.Covers n) (hroom : l.Roomy) (next : ℕ) {len : ℕ}
    (hlen : len ≤ dflashBlock) :
    let rows' := (l.appendSegs next [(len + 1) / 2, len - (len + 1) / 2]).rows
    (¬ l.CompactsBetween len → l.need n + len ≤ rows') ∧
      (l.CompactsBetween len → rows' = l.window - 1 + (len - (len + 1) / 2) ∧
          l.window - 1 ≤ n) := by
  intro rows'
  have hsum : (len + 1) / 2 + (len - (len + 1) / 2) = len := by omega
  have hneed := h.need
  have hle := h.le
  have hblock : len ≤ 8 := hlen
  cases hkind : l.kind with
  | ga =>
    have hrows : rows' = l.rows + len := by
      show ((l.append next _).append _ _).rows = _
      rw [rows_append, rows_prepare_ga ((grows_append l next _).kind.trans hkind), rows_append,
        rows_prepare_ga hkind]
      omega
    refine ⟨fun _ => ?_, fun hc => absurd (hkind.symm.trans hc.1) (by decide)⟩
    rw [hrows]
    exact Nat.add_le_add_right hneed len
  | swa =>
    have hrows : rows' = _ := rows_twoLanes_swa hkind hroom next (by
      rw [hsum]
      exact Nat.le_trans hlen (by decide))
    have hslack : l.window - 1 + 64 ≤ l.cap := hroom hkind
    rw [hsum] at hrows
    rw [LayerKv.need, hkind] at hneed ⊢
    dsimp only at hneed ⊢
    rw [CompactsBetween]
    constructor
    · intro hnot
      rw [hrows]
      split
      · omega
      · split
        · next hfull hfits => exact absurd ⟨hkind, hfits, Nat.lt_of_not_le hfull⟩ hnot
        · omega
    · rintro ⟨-, hfits, hfull⟩
      rw [hrows, if_neg (Nat.not_le.mpr hfull), if_pos hfits]
      omega

/-- **A verify block.** Once the rejected rows are dropped a layer is covered exactly when it lost
no rows of its window. -/
theorem Covers.verify_iff (h : l.Covers n) (hroom : l.Roomy) {segs : List ℕ} {len acc : ℕ}
    (hsegs : segs = [len] ∨ segs = [(len + 1) / 2, len - (len + 1) / 2])
    (hlen : len ≤ dflashBlock) (hacc : acc < len)
    (hdrop : len - (acc + 1) ≤ (l.appendSegs n segs).rows) :
    ((l.appendSegs n segs).dropNewest (len - (acc + 1))).Covers (n + acc + 1) ↔
      (segs = [len] ∨ ¬ l.Loses len acc) := by
  have hsum : segs.sum = len := by
    rcases hsegs with rfl | rfl
    · simp
    · simp only [List.sum_cons, List.sum_nil]
      omega
  have hcov : (l.appendSegs n segs).Covers (n + len) := hsum ▸ h.appendSegs segs
  have hneed := (grows_appendSegs l n segs).need (n + acc + 1)
  have hback : n + len - (len - (acc + 1)) = n + acc + 1 := by omega
  have hiff := hcov.dropNewest_iff hdrop
  rw [hback, hneed] at hiff
  rw [hiff]
  have hadd := l.need_add n (acc + 1)
  rw [← Nat.add_assoc] at hadd
  rcases hsegs with rfl | rfl
  · have hrows := h.rows_oneLane n len
    exact ⟨fun _ => Or.inl rfl, fun _ => by omega⟩
  · obtain ⟨henough, hfew⟩ := h.rows_twoLanes hroom n hlen
    by_cases hc : l.CompactsBetween len
    · obtain ⟨hrows, hn⟩ := hfew hc
      have hwin : l.need (n + acc + 1) = l.window - 1 := by
        rw [LayerKv.need, hc.1]
        dsimp only
        omega
      rw [hrows] at hdrop ⊢
      rw [hwin, Loses, and_iff_right hc]
      constructor
      · exact fun hle => Or.inr fun hlost => by omega
      · rintro (hone | hnot)
        · exact absurd (congrArg List.length hone) (by simp)
        · omega
    · have hrows := henough hc
      exact ⟨fun _ => Or.inr fun hlost => hc hlost.1, fun _ => by omega⟩

/-- A layer that keeps its coverage has the rejected rows to drop. -/
theorem Covers.drop_le (h : l.Covers n) (hroom : l.Roomy) {segs : List ℕ} {len acc : ℕ}
    (hsegs : segs = [len] ∨ segs = [(len + 1) / 2, len - (len + 1) / 2])
    (hlen : len ≤ dflashBlock) (hwin : l.kind = .swa → (len + 1) / 2 ≤ l.window - 1 + (acc + 1)) :
    len - (acc + 1) ≤ (l.appendSegs n segs).rows := by
  rcases hsegs with rfl | rfl
  · have hrows := h.rows_oneLane n len
    omega
  · obtain ⟨henough, hfew⟩ := h.rows_twoLanes hroom n hlen
    by_cases hc : l.CompactsBetween len
    · obtain ⟨hrows, -⟩ := hfew hc
      have hwin := hwin hc.1
      omega
    · have hrows := henough hc
      omega

end LayerKv

/-! ### A cache -/

variable {g : Geometry}

namespace DeviceKv

/-- Every layer stores the last of the tokens' rows, back over its window. -/
def Covered (kv : DeviceKv g) : Prop := ∀ i, (kv.layers i).Covers kv.tokens

/-- The layers are those of the model, the sliding-window ones with their slack. -/
structure Shaped (kv : DeviceKv g) : Prop where
  kind : ∀ i, (kv.layers i).kind = g.kind i
  window : ∀ i, (kv.layers i).kind = .swa → (kv.layers i).window = g.window
  cap : ∀ i, (kv.layers i).Roomy
  swaCap0 : kv.swaCap0 = g.window - 1 + swaSlackRows

variable {kv : DeviceKv g}

/-- A cache whose layers are those of a shaped one, grown. -/
theorem Shaped.of_grows (h : kv.Shaped) {kv' : DeviceKv g}
    (hlayers : ∀ i, LayerKv.Grows (kv.layers i) (kv'.layers i)) (hcap : kv'.swaCap0 = kv.swaCap0) :
    kv'.Shaped where
  kind i := (hlayers i).kind.trans (h.kind i)
  window i hi := (hlayers i).window.trans (h.window i ((hlayers i).kind ▸ hi))
  cap i hi := by
    rw [(hlayers i).window]
    exact Nat.le_trans (h.cap i ((hlayers i).kind ▸ hi)) (hlayers i).cap
  swaCap0 := hcap.trans h.swaCap0

theorem shaped_new (g : Geometry) : (new g).Shaped := by
  have hlayer (k : LayerKind) : (LayerKv.new g k).kind = k ∧
      (k = .swa → (LayerKv.new g k).window = g.window) ∧ (LayerKv.new g k).Roomy := by
    cases k with
    | ga => exact ⟨rfl, fun h => absurd h (by decide), fun h => absurd h (by simp [LayerKv.new])⟩
    | swa => exact ⟨rfl, fun _ => rfl, fun _ => Nat.le_refl _⟩
  refine ⟨fun i => (hlayer _).1, fun i hi => (hlayer _).2.1 ?_, fun i => (hlayer _).2.2, rfl⟩
  rw [← (hlayer (g.kind i)).1]
  exact hi

theorem shaped_reset (h : kv.Shaped) : kv.reset.Shaped :=
  h.of_grows (fun _ => ⟨rfl, rfl, Nat.le_refl _⟩) rfl

theorem covered_of_empty (hpos : ∀ i, (kv.layers i).pos = []) (htokens : kv.tokens = 0) :
    kv.Covered := fun i => by
  rw [htokens]
  refine LayerKv.covers_tail (c := 0) (hpos i) (Nat.le_refl 0) ?_
  rw [LayerKv.need]
  split
  · exact Nat.le_refl 0
  · exact Nat.min_le_left _ _

theorem covered_reset (kv : DeviceKv g) : kv.reset.Covered := covered_of_empty (fun _ => rfl) rfl

theorem covered_new (g : Geometry) : (new g).Covered := by
  refine covered_of_empty (fun i => ?_) rfl
  show (LayerKv.new g (g.kind i)).pos = []
  cases g.kind i with
  | ga => rfl
  | swa => rfl

theorem shaped_appendSegs (h : kv.Shaped) (segs : List ℕ) : (kv.appendSegs segs).Shaped :=
  h.of_grows (fun _ => LayerKv.grows_appendSegs _ _ segs) rfl

theorem covered_appendSegs (h : kv.Covered) (segs : List ℕ) : (kv.appendSegs segs).Covered :=
  fun i => (h i).appendSegs segs

/-- **A prefill** keeps the coverage, however it is cut into groups and lanes. -/
theorem forward_ok (hs : kv.Shaped) (hc : kv.Covered) (n : ℕ) (pipelined : Bool) :
    (kv.forward n pipelined).Shaped ∧ (kv.forward n pipelined).Covered := by
  rw [forward]
  generalize groups _ _ = gs
  induction gs generalizing kv with
  | nil => exact ⟨hs, hc⟩
  | cons g gs ih => exact ih (shaped_appendSegs hs g) (covered_appendSegs hc g)

/-- Chunks of at most `m`, one after the other. -/
theorem sum_chunks (n m k : ℕ) :
    ((List.range k).map fun i => min m (n - i * m)).sum = min n (k * m) := by
  induction k with
  | zero => simp
  | succ k ih =>
    rw [List.range_succ, List.map_append, List.sum_append, ih, Nat.succ_mul]
    simp only [List.map_cons, List.map_nil, List.sum_cons, List.sum_nil]
    omega

/-- Chunks of `q` or, the first `r`, of one more. -/
theorem sum_balanced (q r k : ℕ) :
    ((List.range k).map fun i => q + if i < r then 1 else 0).sum = k * q + min k r := by
  induction k with
  | zero => simp
  | succ k ih =>
    rw [List.range_succ, List.map_append, List.sum_append, ih, Nat.succ_mul]
    simp only [List.map_cons, List.map_nil, List.sum_cons, List.sum_nil]
    split
    · omega
    · omega

/-- The chunks cover the tokens. -/
theorem sum_chunkSpans {n maxChunk : ℕ} (hn : 0 < n) (hmax : 0 < maxChunk) (paired : Bool) :
    (chunkSpans n maxChunk paired).sum = n := by
  have hceil : n ≤ (n + maxChunk - 1) / maxChunk * maxChunk := le_roundUp n hmax
  rw [chunkSpans]
  split
  · rw [sum_chunks, Nat.min_eq_left hceil]
  · have hbalanced (c : ℕ) (hc : 0 < c) :
        ((List.range c).map fun i => n / c + if i < n % c then 1 else 0).sum = n := by
      rw [sum_balanced, Nat.min_eq_right (Nat.le_of_lt (Nat.mod_lt n hc)), Nat.div_add_mod]
    have hpos : 0 < (n + maxChunk - 1) / maxChunk := by
      refine Nat.pos_of_ne_zero fun hzero => ?_
      rw [hzero, Nat.zero_mul] at hceil
      omega
    dsimp only
    split
    · exact hbalanced _ (Nat.succ_pos _)
    · exact hbalanced _ hpos

theorem sum_groups (lanes : ℕ) (spans : List ℕ) :
    ((groups lanes spans).map List.sum).sum = spans.sum := by
  fun_induction groups lanes spans with
  | case1 a b spans ih => simp [ih, Nat.add_assoc]
  | case2 a => simp
  | case3 => rfl
  | case4 lanes spans => simp [Function.comp_def]

/-- A prefill appends all of its tokens. -/
theorem tokens_forward {n : ℕ} (hn : 0 < n) (hmax : 0 < g.maxChunk) (pipelined : Bool) :
    (kv.forward n pipelined).tokens = kv.tokens + n := by
  have hfold (gs : List (List ℕ)) (kv : DeviceKv g) :
      (gs.foldl appendSegs kv).tokens = kv.tokens + (gs.map List.sum).sum := by
    induction gs generalizing kv with
    | nil => rfl
    | cons segs gs ih =>
      rw [List.foldl_cons, ih, List.map_cons, List.sum_cons, ← Nat.add_assoc]
      rfl
  rw [forward, hfold, sum_groups, sum_chunkSpans hn hmax]

theorem shaped_shrinkSwa (h : kv.Shaped) (n : ℕ) : (kv.shrinkSwa n).Shaped := by
  have hlayer (i : Fin g.layers) : ((kv.layers i).shrink kv.swaCap0).kind = (kv.layers i).kind ∧
      ((kv.layers i).shrink kv.swaCap0).window = (kv.layers i).window ∧
      ((kv.layers i).shrink kv.swaCap0).Roomy := by
    rw [LayerKv.shrink]
    split
    · refine ⟨rfl, rfl, fun hi => ?_⟩
      show (kv.layers i).window - 1 + swaSlackRows ≤ kv.swaCap0
      rw [h.window i hi, h.swaCap0]
    · exact ⟨rfl, rfl, h.cap i⟩
  refine ⟨fun i => ?_, fun i => ?_, fun i => ?_, h.swaCap0⟩
  all_goals
    simp only [shrinkSwa]
    split
  · rw [(hlayer i).1, h.kind]
  · exact h.kind i
  · rw [(hlayer i).1, (hlayer i).2.1]
    exact h.window i
  · exact h.window i
  · exact (hlayer i).2.2
  · exact h.cap i

theorem covered_shrinkSwa (h : kv.Covered) (n : ℕ) : (kv.shrinkSwa n).Covered := by
  intro i
  simp only [shrinkSwa]
  split
  · rw [LayerKv.shrink]
    split
    · next hswa =>
      have hc := (h i).compact hswa.1
      exact ⟨hc.le, hc.pos, hc.need⟩
    · exact h i
  · exact h i

theorem grows_reserve (l : LayerKv) (cap : ℕ) : LayerKv.Grows l (l.reserve cap) := by
  rw [LayerKv.reserve]
  split
  · next hgrow => exact ⟨rfl, rfl, Nat.le_of_lt hgrow.2⟩
  · exact ⟨rfl, rfl, Nat.le_refl _⟩

theorem reserveSwa_ok (hs : kv.Shaped) (hc : kv.Covered) (n : ℕ) :
    (kv.reserveSwa n).Shaped ∧ (kv.reserveSwa n).Covered := by
  refine ⟨hs.of_grows (fun i => ?_) rfl, fun i => ?_⟩
  · simp only [reserveSwa]
    split
    · exact grows_reserve _ _
    · exact ⟨rfl, rfl, Nat.le_refl _⟩
  · simp only [reserveSwa]
    split
    · rw [LayerKv.reserve]
      split
      · exact ⟨(hc i).le, (hc i).pos, (hc i).need⟩
      · exact hc i
    · exact hc i

/-! ### Saved positions -/

/-- The rows saved of every sliding-window layer are those of the window. -/
def SavedOk (s : Saved g) : Prop :=
  ∀ i, g.kind i = .swa → s.kept i = tail s.tokens (min s.tokens (g.window - 1))

theorem swaKeepMax_eq (h : kv.Shaped) {i : Fin g.layers} (hi : g.kind i = .swa) :
    kv.swaKeepMax = g.window - 1 := by
  rw [swaKeepMax]
  split
  · next j hj =>
    rw [h.window j (by simpa using List.find?_some hj)]
  · next hnone =>
    have hall := List.find?_eq_none.mp hnone i (List.mem_finRange i)
    exact absurd ((h.kind i).trans hi) (by simpa using hall)

/-- **A save** of a covered cache has the rows of the window. -/
theorem save_ok (hs : kv.Shaped) (hc : kv.Covered) {s : Saved g} (h : kv.save = some s) :
    SavedOk s := by
  have hkept (i : Fin g.layers) (hi : g.kind i = .swa) : (kv.layers i).kept kv.swaKeepMax =
      tail kv.tokens (min kv.tokens (g.window - 1)) := by
    have hneed := (hc i).need
    rw [LayerKv.need, hs.kind, hi] at hneed
    dsimp only at hneed
    rw [hs.window i ((hs.kind i).trans hi)] at hneed
    have hle := (hc i).le
    rw [LayerKv.kept, swaKeepMax_eq hs hi, (hc i).pos,
      drop_tail (Nat.min_le_left _ _) hle]
    congr 1
    omega
  rw [save] at h
  split at h
  · obtain rfl := Option.some.inj h
    exact hkept
  · split at h
    · obtain rfl := Option.some.inj h
      exact hkept
    · exact absurd h (by simp)

/-- A cache at a saved position. -/
structure AtSaved (s : Saved g) (kv : DeviceKv g) : Prop where
  shaped : kv.Shaped
  tokens : kv.tokens = s.tokens
  ga : ∀ i, g.kind i = .ga → (kv.layers i).pos = List.range s.tokens
  swa : ∀ i, g.kind i = .swa → (kv.layers i).pos = s.kept i

theorem AtSaved.covered {s : Saved g} (h : AtSaved s kv) (hs : SavedOk s) : kv.Covered := by
  intro i
  rw [h.tokens]
  cases hkind : g.kind i with
  | ga =>
    refine LayerKv.covers_tail (c := s.tokens) ?_ (Nat.le_refl _) ?_
    · rw [h.ga i hkind, tail_self]
    · rw [LayerKv.need, h.shaped.kind, hkind]
  | swa =>
    refine LayerKv.covers_tail (c := min s.tokens (g.window - 1)) ?_ (Nat.min_le_left _ _) ?_
    · rw [h.swa i hkind, hs i hkind]
    · rw [LayerKv.need, h.shaped.kind, hkind, h.shaped.window i ((h.shaped.kind i).trans hkind)]

/-- Loading the sliding-window rows completes a cache whose global rows are there. -/
theorem loadState_ok {s : Saved g} (hs : kv.Shaped) (htokens : kv.tokens = s.tokens)
    (hga : ∀ i, g.kind i = .ga → (kv.layers i).pos = List.range s.tokens) {kv' : DeviceKv g}
    (h : kv.loadState s = some kv') : AtSaved s kv' := by
  rw [loadState] at h
  split at h
  · exact absurd h (by simp)
  · obtain rfl := Option.some.inj h
    refine ⟨hs.of_grows (fun i => ?_) rfl, htokens, fun i hi => ?_, fun i hi => ?_⟩
    · dsimp only
      split
      · exact ⟨rfl, rfl, Nat.le_refl _⟩
      · exact ⟨rfl, rfl, Nat.le_refl _⟩
    · simp only [hs.kind, hi]
      exact hga i hi
    · simp only [hs.kind, hi]

theorem shaped_mapGa (hs : kv.Shaped) {f : Fin g.layers → LayerKv → LayerKv}
    (hf : ∀ i l, LayerKv.Grows l (f i l)) (tokens : ℕ) : (kv.mapGa f tokens).Shaped := by
  refine hs.of_grows (fun i => ?_) rfl
  simp only [mapGa]
  split
  · exact hf i _
  · exact ⟨rfl, rfl, Nat.le_refl _⟩

theorem layers_mapGa (hs : kv.Shaped) (f : Fin g.layers → LayerKv → LayerKv) (tokens : ℕ)
    {i : Fin g.layers} (hi : g.kind i = .ga) :
    (kv.mapGa f tokens).layers i = f i (kv.layers i) := by
  simp only [mapGa, hs.kind, hi]

theorem grows_reserveGa (l : LayerKv) (n : ℕ) (pos : List ℕ) :
    LayerKv.Grows l { l.reserveGa n with pos := pos } := by
  rw [LayerKv.reserveGa]
  split
  · next hgrow =>
    exact ⟨rfl, rfl, Nat.le_trans (Nat.le_of_lt hgrow) (le_roundUp _ (by decide))⟩
  · exact ⟨rfl, rfl, Nat.le_refl _⟩

/-- A covered global layer has every row. -/
theorem pos_ga (hs : kv.Shaped) (hc : kv.Covered) {i : Fin g.layers} (hi : g.kind i = .ga) :
    (kv.layers i).pos = List.range (kv.layers i).rows := by
  have hneed := (hc i).need
  rw [LayerKv.need, hs.kind, hi] at hneed
  have hrows : (kv.layers i).rows = kv.tokens := Nat.le_antisymm (hc i).le hneed
  rw [(hc i).pos, ← hrows, tail_self]

theorem take_range_eq {n p : ℕ} (h : p ≤ n) : (List.range n).take p = List.range p := by
  rw [List.take_range, Nat.min_eq_left h]

/-- **A load** of a saved position, into a cache with its global rows. -/
theorem load_ok (hs : kv.Shaped) {s : Saved g}
    (hga : ∀ i, g.kind i = .ga → (kv.layers i).pos = List.range (kv.layers i).rows)
    {kv' : DeviceKv g} (h : kv.load s = some kv') : AtSaved s kv' := by
  rw [load, Option.bind_eq_some_iff] at h
  obtain ⟨kv₁, hrewind, h⟩ := h
  rw [rewindGa] at hrewind
  split at hrewind
  · next hrows =>
    obtain rfl := Option.some.inj hrewind
    have hgrow (_ : Fin g.layers) (l : LayerKv) :
        LayerKv.Grows l { l with pos := l.pos.take s.tokens } := ⟨rfl, rfl, Nat.le_refl _⟩
    refine loadState_ok (shaped_mapGa hs hgrow _) rfl (fun i hi => ?_) h
    rw [layers_mapGa hs _ _ hi, hga i hi, take_range_eq (hrows i ((hs.kind i).trans hi))]
  · exact absurd hrewind (by simp)

/-- **A fork** of a saved position, from a covered cache. -/
theorem fork_ok (hs : kv.Shaped) {src : DeviceKv g} (hsrc : src.Shaped) (hc : src.Covered)
    {s : Saved g} {kv' : DeviceKv g}
    (h : ((kv.forkGa src s.tokens).bind (·.load s)) = some kv') : AtSaved s kv' := by
  rw [Option.bind_eq_some_iff] at h
  obtain ⟨kv₁, hfork, h⟩ := h
  rw [forkGa] at hfork
  split at hfork
  · next hrows =>
    obtain rfl := Option.some.inj hfork
    refine load_ok (shaped_mapGa hs (fun i l => grows_reserveGa l _ _) _) (fun i hi => ?_) h
    have hpos : (src.layers i).pos.take s.tokens = List.range s.tokens := by
      rw [pos_ga hsrc hc hi, take_range_eq (hrows i ((hs.kind i).trans hi))]
    rw [layers_mapGa hs _ _ hi, LayerKv.rows, hpos, List.length_range]
  · exact absurd hfork (by simp)

/-- **A restore** from the host. -/
theorem restore_ok (hs : kv.Shaped) {s : Saved g} {kv' : DeviceKv g}
    (h : kv.restore s = some kv') : AtSaved s kv' := by
  have hreset := shaped_reset hs
  refine loadState_ok (shaped_mapGa hreset (fun i l => grows_reserveGa l _ _) _) rfl
    (fun i hi => ?_) h
  rw [layers_mapGa hreset _ _ hi]

/-! ### A verify block -/

/-- A verify block that loses no rows of a window. -/
def Lossless (kv : DeviceKv g) : KvOp → Prop
  | .verify pipelined verifyLanes n len acc =>
    verifySegs pipelined verifyLanes n len = [len] ∨ dflashBlock < len ∨
      ∀ i, ¬ (kv.layers i).Loses len acc
  | _ => True

theorem verifySegs_cases (pipelined : Bool) (verifyLanes n len : ℕ) :
    verifySegs pipelined verifyLanes n len = [len] ∨
      verifySegs pipelined verifyLanes n len = [(len + 1) / 2, len - (len + 1) / 2] := by
  rw [verifySegs]
  split
  · exact Or.inl rfl
  · exact Or.inr rfl

theorem sum_verifySegs (pipelined : Bool) (verifyLanes n len : ℕ) :
    (verifySegs pipelined verifyLanes n len).sum = len := by
  rcases verifySegs_cases pipelined verifyLanes n len with h | h
  · simp [h]
  · rw [h]
    simp only [List.sum_cons, List.sum_nil]
    omega

/-- A verify block that succeeds, layer by layer. -/
theorem verify_eq_some {segs : List ℕ} {len acc : ℕ} (hsum : segs.sum = len) {kv' : DeviceKv g} :
    kv.verify segs len acc = some kv' ↔
      (len ≤ dflashBlock ∧ acc < len) ∧
        (∀ i, len - (acc + 1) ≤ ((kv.layers i).appendSegs kv.tokens segs).rows) ∧
        kv' = { kv with
          layers := fun i =>
            ((kv.layers i).appendSegs kv.tokens segs).dropNewest (len - (acc + 1))
          tokens := kv.tokens + acc + 1 } := by
  rw [verify]
  by_cases hshape : len = 0 ∨ dflashBlock < len ∨ len ≤ acc
  · rw [if_pos hshape]
    refine ⟨fun h => absurd h (by simp), fun h => absurd h.1 (by omega)⟩
  · rw [if_neg hshape, truncate]
    have htokens : (kv.appendSegs segs).tokens = kv.tokens + len := by
      rw [← hsum]
      rfl
    have hdrop : kv.tokens + len - (kv.tokens + acc + 1) = len - (acc + 1) := by omega
    rw [htokens, if_neg (by omega)]
    dsimp only
    rw [hdrop]
    have hok : len ≤ dflashBlock ∧ acc < len := by omega
    rw [and_iff_right hok]
    constructor
    · intro h
      split at h
      · next hrows => exact ⟨hrows, (Option.some.inj h).symm⟩
      · exact absurd h (by simp)
    · rintro ⟨hrows, rfl⟩
      exact if_pos hrows

theorem verify_ok (hs : kv.Shaped) (hc : kv.Covered) {pipelined : Bool}
    {verifyLanes n len acc : ℕ} (hgood : kv.Lossless (.verify pipelined verifyLanes n len acc))
    {kv' : DeviceKv g}
    (h : kv.verify (verifySegs pipelined verifyLanes n len) len acc = some kv') :
    kv'.Shaped ∧ kv'.Covered := by
  obtain ⟨⟨hlen, hacc⟩, hrows, rfl⟩ := (verify_eq_some (sum_verifySegs _ _ _ _)).mp h
  refine ⟨hs.of_grows (fun i => ?_) rfl, fun i => ?_⟩
  · have hgrow := LayerKv.grows_appendSegs (kv.layers i) kv.tokens
      (verifySegs pipelined verifyLanes n len)
    exact ⟨hgrow.kind, hgrow.window, hgrow.cap⟩
  · refine ((hc i).verify_iff (hs.cap i) (verifySegs_cases _ _ _ _) hlen hacc (hrows i)).mpr ?_
    rcases hgood with hone | hlong | hnone
    · exact Or.inl hone
    · exact absurd hlen (Nat.not_le.mpr hlong)
    · exact Or.inr (hnone i)

/-- A block that loses rows succeeds, and the cache is no longer covered. -/
theorem not_covered_verify (hs : kv.Shaped) (hc : kv.Covered) {pipelined : Bool}
    {verifyLanes n len acc : ℕ}
    (hbad : ¬ kv.Lossless (.verify pipelined verifyLanes n len acc)) :
    ∃ kv', kv.verify (verifySegs pipelined verifyLanes n len) len acc = some kv' ∧
      ¬ kv'.Covered := by
  rw [Lossless, not_or, not_or, Nat.not_lt, not_forall] at hbad
  obtain ⟨hsplit, hlen, i, hi⟩ := hbad
  have hloses := not_not.mp hi
  obtain ⟨⟨hkind, -, -⟩, hacc, hwin⟩ := hloses
  have hacc : acc < len := by omega
  have hrows (j : Fin g.layers) : len - (acc + 1) ≤ ((kv.layers j).appendSegs kv.tokens
      (verifySegs pipelined verifyLanes n len)).rows := by
    refine (hc j).drop_le (hs.cap j) (verifySegs_cases _ _ _ _) hlen fun hj => ?_
    rw [hs.window j hj, ← hs.window i hkind]
    exact hwin
  refine ⟨_, (verify_eq_some (sum_verifySegs _ _ _ _)).mpr ⟨⟨hlen, hacc⟩, hrows, rfl⟩, ?_⟩
  intro hcov
  rcases ((hc i).verify_iff (hs.cap i) (verifySegs_cases _ _ _ _) hlen hacc (hrows i)).mp (hcov i)
    with hone | hnot
  · exact hsplit hone
  · exact hnot (not_not.mp hi)

end DeviceKv

/-! ### Runs -/

/-- Every cache is covered, and so is every saved position. -/
structure Caches.Inv (s : Caches g) : Prop where
  shaped : ∀ i, (s.kv i).Shaped
  covered : ∀ i, (s.kv i).Covered
  saved : ∀ p ∈ s.saved, DeviceKv.SavedOk p

/-- The operation loses no rows of a window. -/
def LosslessStep (s : Caches g) (e : ℕ × KvOp) : Prop := (s.kv e.1).Lossless e.2

theorem inv_init (g : Geometry) : Caches.Inv ({} : Caches g) :=
  ⟨fun _ => DeviceKv.shaped_new g, fun _ => DeviceKv.covered_new g, by simp⟩

/-- An operation that can fail leaves a cache that is all right. -/
theorem ok_getD {kv : DeviceKv g} (hs : kv.Shaped) {r : Option (DeviceKv g)}
    (hr : ∀ kv', r = some kv' → kv'.Shaped ∧ kv'.Covered) :
    (r.getD kv.reset).Shaped ∧ (r.getD kv.reset).Covered := by
  cases r with
  | none => exact ⟨DeviceKv.shaped_reset hs, DeviceKv.covered_reset kv⟩
  | some kv' => exact hr kv' rfl

/-- **Step** of one cache. -/
theorem Caches.Inv.apply {s : Caches g} (h : s.Inv) {i : ℕ} {op : KvOp}
    (hgood : (s.kv i).Lossless op) :
    ((s.kv i).apply s op).Shaped ∧ ((s.kv i).apply s op).Covered := by
  have hs := h.shaped i
  have hc := h.covered i
  have hsaved {k : ℕ} {f : Saved g → Option (DeviceKv g)}
      (hf : ∀ p kv', DeviceKv.SavedOk p → f p = some kv' → DeviceKv.AtSaved p kv')
      (kv' : DeviceKv g)
      (hk : s.saved[k]?.bind f = some kv') : kv'.Shaped ∧ kv'.Covered := by
    obtain ⟨p, hp, hfp⟩ := Option.bind_eq_some_iff.mp hk
    have hok := h.saved p (List.mem_of_getElem? hp)
    have hat := hf p kv' hok hfp
    exact ⟨hat.shaped, hat.covered hok⟩
  cases op with
  | reset => exact ⟨DeviceKv.shaped_reset hs, DeviceKv.covered_reset _⟩
  | forward n pipelined => exact DeviceKv.forward_ok hs hc n pipelined
  | append t => exact ⟨DeviceKv.shaped_appendSegs hs [t], DeviceKv.covered_appendSegs hc [t]⟩
  | verify pipelined verifyLanes n len acc =>
    exact ok_getD hs fun kv' hkv => DeviceKv.verify_ok hs hc hgood hkv
  | shrinkSwa n => exact ⟨DeviceKv.shaped_shrinkSwa hs n, DeviceKv.covered_shrinkSwa hc n⟩
  | reserveSwa n => exact DeviceKv.reserveSwa_ok hs hc n
  | save => exact ⟨hs, hc⟩
  | load k =>
    exact ok_getD hs (hsaved fun p kv' _ hload =>
      DeviceKv.load_ok hs (fun j hj => DeviceKv.pos_ga hs hc hj) hload)
  | fork src k =>
    exact ok_getD hs (hsaved fun p kv' _ hfork =>
      DeviceKv.fork_ok (DeviceKv.shaped_reset hs) (h.shaped src) (h.covered src) hfork)
  | restore k =>
    exact ok_getD hs (hsaved fun p kv' _ hrestore => DeviceKv.restore_ok hs hrestore)
  | fail => exact ⟨DeviceKv.shaped_reset hs, DeviceKv.covered_reset _⟩

/-- **Step.** -/
theorem Caches.Inv.step {s : Caches g} (h : s.Inv) {e : ℕ × KvOp} (hgood : LosslessStep s e) :
    (cacheStep s e).Inv := by
  have hone := h.apply hgood
  refine ⟨fun i => ?_, fun i => ?_, fun p hp => ?_⟩
  · by_cases hi : i = e.1
    · subst hi
      simpa [cacheStep] using hone.1
    · simpa [cacheStep, hi] using h.shaped i
  · by_cases hi : i = e.1
    · subst hi
      simpa [cacheStep] using hone.2
    · simpa [cacheStep, hi] using h.covered i
  · rw [cacheStep] at hp
    dsimp only at hp
    split at hp
    · rcases List.mem_append.mp hp with hp | hp
      · exact h.saved p hp
      · exact DeviceKv.save_ok (h.shaped e.1) (h.covered e.1) (Option.mem_toList.mp hp)
    · exact h.saved p hp

/-- Every cache of the server is covered. -/
def Caches.Covered (s : Caches g) : Prop := ∀ i, (s.kv i).Covered

/-- **A block that loses rows** leaves a cache that is not covered. -/
theorem Caches.Inv.not_covered {s : Caches g} (h : s.Inv) {e : ℕ × KvOp}
    (hbad : ¬ LosslessStep s e) : ¬ (cacheStep s e).Covered := by
  obtain ⟨i, op⟩ := e
  intro hcov
  have hi := hcov i
  cases op with
  | verify pipelined verifyLanes n len acc =>
    obtain ⟨kv', hverify, hnot⟩ := DeviceKv.not_covered_verify (h.shaped i) (h.covered i) hbad
    have hkv : (cacheStep s (i, .verify pipelined verifyLanes n len acc)).kv i = kv' := by
      simp [cacheStep, DeviceKv.apply, hverify]
    exact hnot (hkv ▸ hi)
  | _ => exact hbad trivial

/-- **Every state of a run** is covered exactly when no operation of the run loses rows of a
window. -/
theorem covered_iff_lossless (g : Geometry) (ops : List (ℕ × KvOp)) :
    (∀ n, (run cacheStep ({} : Caches g) (ops.take n)).Covered) ↔
      Along cacheStep LosslessStep ({} : Caches g) ops :=
  forall_take_iff_along (fun _ _ h => h.step) (fun _ h => h.covered) (fun _ _ h => h.not_covered)
    (inv_init g)

/-! ### A block in two lanes -/

/-- One sliding-window layer. -/
def oneWindow : Geometry where
  layers := 1
  kind := fun _ => .swa
  window := 128
  gaCap := 4096
  maxChunk := 2048

/-- A prompt of 184 tokens, then a block of 8 rows in two lanes with no draft accepted. -/
def splitBlock : List (ℕ × KvOp) := [(0, .forward 184 true), (0, .verify true 2 1 8 0)]

/-- **A block in two lanes** leaves the layer 124 rows where its window has 127. -/
theorem not_covered_splitBlock :
    let kv := (run cacheStep ({} : Caches oneWindow) splitBlock).kv 0
    kv.tokens = 185 ∧ (∀ i, (kv.layers i).rows = 124) ∧ ¬ kv.Covered := by
  have hkv : ((run cacheStep ({} : Caches oneWindow) splitBlock).kv 0).tokens = 185 ∧
      ∀ i, (((run cacheStep ({} : Caches oneWindow) splitBlock).kv 0).layers i).rows = 124 ∧
        (((run cacheStep ({} : Caches oneWindow) splitBlock).kv 0).layers i).need 185 = 127 := by
    decide +kernel
  refine ⟨hkv.1, fun i => (hkv.2 i).1, fun hcov => ?_⟩
  have hneed := (hcov ⟨0, Nat.zero_lt_one⟩).need
  rw [hkv.1, (hkv.2 _).1, (hkv.2 _).2] at hneed
  omega

end Coordinator

end Mimo26

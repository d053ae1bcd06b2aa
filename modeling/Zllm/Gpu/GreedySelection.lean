import Zllm.Engine.GreedyChoice
import Zllm.Gpu.Decoder
import Zllm.Gpu.Kernels
import Zllm.Lib.LaneReduction

/-!
# Greedy selection

The kernels that select a token from a row of logits, and the CPU's samplers after them. A storage
buffer has fewer than `2 ^ 30` floats, so that no index wraps. A lane keeps the lowest of its
largest logits, but the merge of the lanes compares values only: of equal logits in different lanes
it keeps the one whose lane comes first with its bits reversed. The top-k rounds compare indices
too, and start from a value that they take to be above any logit.
-/

namespace Zllm.Gpu

open LaneReduction
open Extended (fin bot nan)

/-! ### The kernels -/

/-- `BARGMAX_WGSL`, workgroup `s` -/
noncomputable def bargmax (vocab : ℕ) (logits : Buf) (s : ℕ) : ℕ :=
  argmax vocab fun k => logits (s * vocab + k)

def hashU32 (x : UInt32) : UInt32 :=
  let h := (x ^^^ (x >>> 16)) * 0x7feb352d
  let h := (h ^^^ (h >>> 15)) * 0x846ca68b
  h ^^^ (h >>> 16)

noncomputable def rand01 (s i : UInt32) : ℝ :=
  ((hashU32 (s ^^^ hashU32 i) >>> 8).toNat + 0.5) / 16777216

/-- `BSAMPLE_WGSL`, workgroup `s`: the scan and the merge are those of `BARGMAX_WGSL`. -/
noncomputable def bsample (vocab : ℕ) (logits : Buf) (temp : ℕ → ℝ) (seed : ℕ → UInt32) (s : ℕ) :
    ℕ :=
  let invT := if temp s ≤ 0 then 1 else 1 / temp s
  argmax vocab fun k =>
    let v := logits (s * vocab + k)
    if temp s ≤ 0 then v
    else v * invT + -Real.log (-Real.log (rand01 (seed s) (UInt32.ofNat k)))

/-- Lane `t` of a round of `BTOPK_WGSL`: the best logit strictly below the last round's. -/
noncomputable def topkLane (vocab : ℕ) (row : Buf) (prev : Best) (t : ℕ) : Best :=
  ((List.range vocab).filter (· % 256 = t)).foldl (fun best c =>
    if (row c < prev.1 ∨ row c = prev.1 ∧ prev.2 < c) ∧
        (best.1 < row c ∨ row c = best.1 ∧ c < best.2) then (row c, c)
    else best) (-3e38, 0xffffffff)

/-- The merge of `BTOPK_WGSL` -/
noncomputable def mergeTopk (lanes : ℕ → Best) (stride t : ℕ) : Best :=
  if t < stride then
    let a := lanes t
    let b := lanes (t + stride)
    if a.1 < b.1 ∨ b.1 = a.1 ∧ b.2 < a.2 then b else a
  else lanes t

noncomputable def topkRound (vocab : ℕ) (row : Buf) (prev : Best) : Best :=
  [128, 64, 32, 16, 8, 4, 2, 1].foldl mergeTopk (topkLane vocab row prev) 0

noncomputable def topkRounds (vocab : ℕ) (row : Buf) : ℕ → Best → List Best
  | 0, _ => []
  | k + 1, prev => topkRound vocab row prev :: topkRounds vocab row k (topkRound vocab row prev)

/-- `BTOPK_WGSL`, workgroup `s` -/
noncomputable def btopk (k vocab : ℕ) (logits : Buf) (s : ℕ) : List Best :=
  topkRounds vocab (fun c => logits (s * vocab + c)) k (3e38, 0xffffffff)

/-! ### The CPU -/

def rng01 (seed : UInt32) : ℚ :=
  let z := seed.toUInt64 * 0x9E3779B97F4A7C15 + 0x9E3779B97F4A7C15
  let z := (z ^^^ (z >>> 30)) * 0xBF58476D1CE4E5B9
  let z := (z ^^^ (z >>> 27)) * 0x94D049BB133111EB
  let z := z ^^^ (z >>> 31)
  ((z >>> 40).toNat + 1 / 2) / 16777216

/-- Where the running sum of the probabilities first reaches the bound. -/
noncomputable def reachedAt (probs : List ℝ) (bound : ℝ) : Option ℕ :=
  (List.range probs.length).find? fun i => bound ≤ (probs.take (i + 1)).sum

noncomputable def sampleTopk (vals : List ℝ) (idxs : List ℕ) (params : SamplingParams)
    (seed : UInt32) : ℕ :=
  let n := min (vals.takeWhile (-3e37 < ·)).length idxs.length
  if n = 0 then idxs.headD 0
  else if params.temp ≤ 0 then idxs.headD 0
  else
    let kk := if params.topK = 0 then n else min params.topK n
    let maxv := vals.headD 0
    let probs := (vals.take kk).map fun v => Real.exp ((v - maxv) / params.temp)
    let z := probs.sum
    let probs := probs.map (· / z)
    let cut := if 0 < params.topP ∧ params.topP < 1 then
        (reachedAt probs params.topP).elim kk (· + 1)
      else kk
    let kept := probs.take cut
    idxs.getD ((reachedAt kept (rng01 seed * kept.sum)).getD (cut - 1)) 0

def TOPK_K : ℕ := 64

/-- What `step_slotted_topk` selects for stream `s`. -/
noncomputable def selectTopk (vocab : ℕ) (logits : Buf) (params : ℕ → SamplingParams)
    (seeds : ℕ → UInt32) (s : ℕ) : ℕ :=
  let pool := btopk TOPK_K vocab logits s
  sampleTopk (pool.map Prod.fst) (pool.map Prod.snd) (params s) (seeds s)

/-- `spec_decode::argmax` on the first `n` logits of a row. -/
noncomputable def cpuArgmax (n : ℕ) (row : ℕ → ℝ) : ℕ :=
  GreedyChoice.argmax ((List.range n).map fun k => fin (row k))

/-! ### The first maximum -/

/-- The lowest index that attains the maximum. -/
structure FirstMaximum (n : ℕ) (row : ℕ → ℝ) (i : ℕ) : Prop where
  lt : i < n
  max : ∀ k < n, row k ≤ row i
  first : ∀ k < i, row k < row i

/-- Every path selects the first maximum of row `s`. -/
structure SelectsFirst (vocab : ℕ) (logits : Buf) (s : ℕ) : Prop where
  argmax : FirstMaximum vocab (fun k => logits (s * vocab + k))
    (argmax vocab fun k => logits (s * vocab + k))
  bargmax : FirstMaximum vocab (fun k => logits (s * vocab + k)) (bargmax vocab logits s)
  bsample : ∀ temp seed, temp s ≤ 0 →
    FirstMaximum vocab (fun k => logits (s * vocab + k)) (bsample vocab logits temp seed s)
  btopk : ∀ k, 0 < k → ∃ best, (btopk k vocab logits s).head? = some best ∧
    FirstMaximum vocab (fun k => logits (s * vocab + k)) best.2
  selectTopk : ∀ params seeds, (params s).temp ≤ 0 →
    FirstMaximum vocab (fun k => logits (s * vocab + k)) (selectTopk vocab logits params seeds s)
  cpuArgmax : FirstMaximum vocab (fun k => logits (s * vocab + k))
    (cpuArgmax vocab fun k => logits (s * vocab + k))

/-- The first maximum's lane comes first among those with a maximum, and all logits are below the
value that the top-k rounds start from. -/
structure InLaneOrder (n : ℕ) (row : ℕ → ℝ) : Prop where
  first : ∀ i, FirstMaximum n row i → ∀ k < n, row k = row i → turn 8 (i % 256) ≤ turn 8 (k % 256)
  below : ∀ k < n, row k < 3e38

variable {n : ℕ} {row : ℕ → ℝ}

theorem FirstMaximum.unique {i j : ℕ} (hi : FirstMaximum n row i) (hj : FirstMaximum n row j) :
    i = j := by
  rcases lt_trichotomy i j with hlt | heq | hlt
  · exact absurd (hj.first i hlt) (hi.max j hj.lt).not_gt
  · exact heq
  · exact absurd (hi.first j hlt) (hj.max i hi.lt).not_gt

theorem FirstMaximum.of_le {i : ℕ} (hlt : i < n) (hmax : ∀ k < n, row k ≤ row i)
    (hfirst : ∀ k < n, row k = row i → i ≤ k) : FirstMaximum n row i where
  lt := hlt
  max := hmax
  first k hk := (hmax k (hk.trans hlt)).lt_of_ne fun heq =>
    (hfirst k (hk.trans hlt) heq).not_gt hk

theorem strides_eq : [128, 64, 32, 16, 8, 4, 2, 1] = (List.range 8).reverse.map (2 ^ ·) := by
  decide

theorem argmax_eq_reduce (n : ℕ) (row : Buf) :
    argmax n row = (reduce Prod.fst 8 (scanLane n row)).2 := by
  have hmerge : reduceLanes = halve Prod.fst := rfl
  rw [argmax, hmerge, strides_eq, foldl_halve]

/-- The merge takes the maximum that comes first in lane order. -/
theorem argmax_spec (hpos : 0 < n) (hreal : ∀ k < n, -1e30 < row k) :
    argmax n row < n ∧ ∀ k < n, row k ≤ row (argmax n row) ∧
      (row k = row (argmax n row) → place 8 (argmax n row) ≤ place 8 k) := by
  have hsorted : (List.range n).Pairwise (· < ·) := List.pairwise_lt_range
  have hlanes (t : ℕ) : scanLane n row t = _ := rfl
  rcases reduce_stripes Prod.fst (fun k => (row k, k)) _ 8 hsorted hlanes with
    ⟨-, hnone⟩ | ⟨i, hi, hreduce, -, hmost⟩
  · exact absurd (hreal 0 hpos) (hnone 0 (List.mem_range.mpr hpos)).not_gt
  · rw [argmax_eq_reduce, hreduce]
    exact ⟨List.mem_range.mp hi, fun k hk => hmost k (List.mem_range.mpr hk)⟩

theorem argmax_lt {n : ℕ} {row : ℕ → ℝ} (hpos : 0 < n) : argmax n row < n := by
  have hsorted : (List.range n).Pairwise (· < ·) := List.pairwise_lt_range
  have hlanes (t : ℕ) : scanLane n row t = _ := rfl
  rcases reduce_stripes Prod.fst (fun k => (row k, k)) _ 8 hsorted hlanes with
    ⟨hreduce, -⟩ | ⟨i, hi, hreduce, -, -⟩
  · rw [argmax_eq_reduce, hreduce]
    exact hpos
  · rw [argmax_eq_reduce, hreduce]
    exact List.mem_range.mp hi

theorem firstMaximum_argmax_iff (hpos : 0 < n) (hreal : ∀ k < n, -1e30 < row k) :
    FirstMaximum n row (argmax n row) ↔ ∀ i, FirstMaximum n row i → ∀ k < n, row k = row i →
      turn 8 (i % 256) ≤ turn 8 (k % 256) := by
  obtain ⟨hlt, hmost⟩ := argmax_spec hpos hreal
  constructor
  · intro hfirst i hi k hk heq
    obtain rfl := hi.unique hfirst
    rcases Prod.Lex.toLex_le_toLex.mp ((hmost k hk).2 heq) with hbefore | ⟨hsame, -⟩
    · exact hbefore.le
    · exact hsame.le
  · intro horder
    have hex : ∃ k, k < n ∧ row k = row (argmax n row) := ⟨_, hlt, rfl⟩
    classical
    have hfound := Nat.find_spec hex
    have hfirst : FirstMaximum n row (Nat.find hex) :=
      .of_le hfound.1 (fun k hk => (hmost k hk).1.trans_eq hfound.2.symm)
        fun k hk heq => Nat.find_min' hex ⟨hk, heq.trans hfound.2⟩
    -- The first maximum is in the lane that the merge took, where the scan found it first.
    have hplace : argmax n row ≤ Nat.find hex := by
      rcases Prod.Lex.toLex_le_toLex.mp ((hmost _ hfound.1).2 hfound.2) with hbefore | ⟨-, hle⟩
      · exact absurd hbefore (horder _ hfirst _ hlt hfound.2.symm).not_gt
      · exact hle
    rwa [le_antisymm hplace (Nat.find_min' hex ⟨hlt, rfl⟩)]

theorem firstMaximum_cpuArgmax (hpos : 0 < n) : FirstMaximum n row (cpuArgmax n row) := by
  rcases GreedyChoice.foldl_larger ((List.range n).map fun k => fin (row k)) with
    ⟨-, hlow⟩ | ⟨left, x, right, hsplit, hbest, -, hleft, hright⟩
  · exact absurd Extended.bot_lt_fin (hlow _ (List.mem_map_of_mem (List.mem_range.mpr hpos)))
  · have hlength : n = left.length + (right.length + 1) := by
      simpa using congrArg List.length hsplit
    have hget {k : ℕ} (hk : k < n) : (left ++ x :: right)[k]? = some (fin (row k)) := by
      rw [← hsplit, List.getElem?_map, List.getElem?_range hk, Option.map_some]
    have hlt : left.length < n := by omega
    have hx : x = fin (row left.length) := by
      have hat := hget hlt
      rw [List.getElem?_append_right le_rfl, Nat.sub_self, List.getElem?_cons_zero] at hat
      exact Option.some.inj hat
    have hfirst : ∀ k < left.length, row k < row left.length := by
      intro k hk
      have hmem : fin (row k) ∈ left := by
        have hat := hget (hk.trans hlt)
        rw [List.getElem?_append_left hk] at hat
        exact List.mem_of_getElem? hat
      rcases hleft _ hmem with hnan | hbelow
      · cases hnan
      · rw [hx] at hbelow
        exact hbelow
    rw [cpuArgmax, GreedyChoice.argmax, hbest]
    refine ⟨hlt, fun k hk => ?_, hfirst⟩
    rcases lt_trichotomy k left.length with hbefore | rfl | hafter
    · exact (hfirst k hbefore).le
    · exact le_rfl
    · have hmem : fin (row k) ∈ right := by
        have hat := hget hk
        obtain ⟨gap, rfl⟩ := Nat.exists_eq_add_of_lt hafter
        rw [List.getElem?_append_right (by omega),
          show left.length + gap + 1 - left.length = gap + 1 by omega,
          List.getElem?_cons_succ] at hat
        exact List.mem_of_getElem? hat
      have hnot := hright _ hmem
      rw [hx] at hnot
      exact not_lt.mp hnot

/-! ### The top-k rounds -/

/-- Larger values first, and lower indices of equal ones. -/
def candidate (best : Best) : ℝ ×ₗ ℕᵒᵈ := toLex (best.1, OrderDual.toDual best.2)

theorem candidate_lt_iff (a b : Best) :
    candidate a < candidate b ↔ a.1 < b.1 ∨ b.1 = a.1 ∧ b.2 < a.2 := by
  rw [candidate, candidate, Prod.Lex.toLex_lt_toLex, OrderDual.toDual_lt_toDual, eq_comm]

theorem keep_candidate (a b : Best) :
    keep candidate a b = if a.1 < b.1 ∨ b.1 = a.1 ∧ b.2 < a.2 then b else a := by
  simp only [keep, candidate_lt_iff]

theorem topkRound_eq_reduce (vocab : ℕ) (row : Buf) (prev : Best) :
    topkRound vocab row prev = reduce candidate 8 (topkLane vocab row prev) := by
  have hmerge : mergeTopk = halve candidate := by
    funext lanes stride t
    rw [mergeTopk, halve, keep_candidate]
  rw [topkRound, hmerge, strides_eq, foldl_halve]

/-- A lane scans what comes after the last round's. -/
theorem topkLane_eq (row : Buf) (prev : Best) (t : ℕ) :
    topkLane n row prev t =
      (((List.range n).filter fun c => candidate (row c, c) < candidate prev).filter
        (· % 2 ^ 8 = t)).foldl (fun best c => keep candidate best (row c, c))
          (-3e38, 0xffffffff) := by
  rw [List.filter_comm, List.foldl_filter, topkLane]
  refine List.foldl_ext _ _ _ fun best c _ => ?_
  have hbelow : candidate (row c, c) < candidate prev ↔
      row c < prev.1 ∨ row c = prev.1 ∧ prev.2 < c := by
    rw [candidate_lt_iff, eq_comm]
  rw [keep_candidate]
  simp only [hbelow, decide_eq_true_eq]
  split
  · next hboth => rw [if_pos hboth.1, if_pos hboth.2]
  · next hnot =>
    split
    · next hless => rw [if_neg fun hbetter => hnot ⟨hless, hbetter⟩]
    · rfl

/-- In the first round only a logit below its start is a candidate. -/
theorem topkLane_first (hvocab : n < 2 ^ 32) (t : ℕ) :
    topkLane n row (3e38, 0xffffffff) t =
      (((List.range n).filter (row · < 3e38)).filter (· % 2 ^ 8 = t)).foldl
        (fun best c => keep candidate best (row c, c)) (-3e38, 0xffffffff) := by
  have hbelow : (List.range n).filter (fun c => candidate (row c, c) < candidate (3e38, 0xffffffff))
      = (List.range n).filter (row · < 3e38) := by
    refine List.filter_congr fun c hc => ?_
    have hlt : c < n := List.mem_range.mp hc
    rw [decide_eq_decide, candidate_lt_iff]
    exact or_iff_left fun hboth => by omega
  rw [topkLane_eq, hbelow]

/-- The first round takes the first of the largest logits below where it starts. -/
theorem topkRound_first (hreal : ∀ k < n, -1e30 < row k) (hvocab : n < 2 ^ 32) :
    (topkRound n row (3e38, 0xffffffff) = (-3e38, 0xffffffff) ∧ ∀ k < n, 3e38 ≤ row k) ∨
    ∃ i < n, topkRound n row (3e38, 0xffffffff) = (row i, i) ∧ row i < 3e38 ∧
      ∀ k < n, row k < 3e38 → row k ≤ row i ∧ (row k = row i → i ≤ k) := by
  have hsorted : ((List.range n).filter (row · < 3e38)).Pairwise (· < ·) :=
    List.pairwise_lt_range.sublist List.filter_sublist
  have hmem {k : ℕ} : k ∈ (List.range n).filter (row · < 3e38) ↔ k < n ∧ row k < 3e38 := by
    rw [List.mem_filter, List.mem_range, decide_eq_true_eq]
  rw [topkRound_eq_reduce]
  rcases reduce_stripes candidate (fun c => (row c, c)) _ 8 hsorted (topkLane_first hvocab) with
    ⟨hnone, hall⟩ | ⟨i, hi, hreduce, -, hmost⟩
  · refine .inl ⟨hnone, fun k hk => not_lt.mp fun hlt => ?_⟩
    have hlow : row k ≤ -3e38 := by
      rcases Prod.Lex.toLex_le_toLex.mp (hall k (hmem.mpr ⟨hk, hlt⟩)) with hlt | ⟨heq, -⟩
      · exact hlt.le
      · exact heq.le
    have hhigh := hreal k hk
    norm_num at hlow hhigh
    linarith
  · obtain ⟨hin, hbelow⟩ := hmem.mp hi
    refine .inr ⟨i, hin, hreduce, hbelow, fun k hk hlt => ?_⟩
    rcases Prod.Lex.toLex_le_toLex.mp (hmost k (hmem.mpr ⟨hk, hlt⟩)).1 with hless | ⟨hsame, hle⟩
    · exact ⟨hless.le, fun heq => absurd heq hless.ne⟩
    · exact ⟨hsame.le, fun _ => OrderDual.toDual_le_toDual.mp hle⟩

theorem head?_btopk {k : ℕ} (hk : 0 < k) (vocab : ℕ) (logits : Buf) (s : ℕ) :
    (btopk k vocab logits s).head? =
      some (topkRound vocab (fun c => logits (s * vocab + c)) (3e38, 0xffffffff)) := by
  obtain ⟨k, rfl⟩ := Nat.exists_eq_add_one.mpr hk
  rfl

/-- The first entry is the first maximum unless a logit reaches the start of the rounds. -/
theorem firstMaximum_topkRound_iff (hpos : 0 < n) (hreal : ∀ k < n, -1e30 < row k)
    (hvocab : n < 2 ^ 32) : FirstMaximum n row (topkRound n row (3e38, 0xffffffff)).2 ↔
      ∀ k < n, row k < 3e38 := by
  rcases topkRound_first hreal hvocab with ⟨hround, hhigh⟩ | ⟨i, hi, hround, hbelow, hmost⟩
  · rw [hround]
    refine iff_of_false (fun hfirst => ?_) fun hlow => (hhigh 0 hpos).not_gt (hlow 0 hpos)
    have hlt : 0xffffffff < n := hfirst.lt
    omega
  · rw [hround]
    constructor
    · exact fun hfirst k hk => (hfirst.max k hk).trans_lt hbelow
    · exact fun hlow => .of_le hi (fun k hk => (hmost k hk (hlow k hk)).1)
        fun k hk => (hmost k hk (hlow k hk)).2

/-- At temperature zero the sampler takes the first candidate. -/
theorem sampleTopk_greedy {params : SamplingParams} (htemp : params.temp ≤ 0) (vals : List ℝ)
    (idxs : List ℕ) (seed : UInt32) : sampleTopk vals idxs params seed = idxs.headD 0 := by
  rw [sampleTopk, if_pos htemp, ite_self]

theorem selectTopk_greedy {params : ℕ → SamplingParams} {s : ℕ} (htemp : (params s).temp ≤ 0)
    (vocab : ℕ) (logits : Buf) (seeds : ℕ → UInt32) : selectTopk vocab logits params seeds s =
      (topkRound vocab (fun c => logits (s * vocab + c)) (3e38, 0xffffffff)).2 := by
  rw [selectTopk, sampleTopk_greedy htemp]
  rfl

theorem bsample_greedy {temp : ℕ → ℝ} {s : ℕ} (htemp : temp s ≤ 0) (vocab : ℕ) (logits : Buf)
    (seed : ℕ → UInt32) :
    bsample vocab logits temp seed s = argmax vocab fun k => logits (s * vocab + k) := by
  simp only [bsample, if_pos htemp]

/-! ### Every path -/

/-- **Greedy selection.** On every row of logits that are above `-1e30`, all selection paths take
the first maximum exactly where no other maximum's lane comes before the first one's, with the bits
of the lanes' numbers reversed, and no logit reaches `3e38`. -/
theorem greedy_selection_first_iff (vocab : ℕ) (hpos : 0 < vocab) (hvocab : vocab < 2 ^ 32)
    (logits : Buf) (s : ℕ) (hreal : ∀ k < vocab, -1e30 < logits (s * vocab + k)) :
    SelectsFirst vocab logits s ↔ InLaneOrder vocab fun k => logits (s * vocab + k) := by
  have hargmax := firstMaximum_argmax_iff hpos hreal
  have htopk := firstMaximum_topkRound_iff hpos hreal hvocab
  constructor
  · intro hfirst
    obtain ⟨best, hhead, hbest⟩ := hfirst.btopk 1 Nat.one_pos
    rw [head?_btopk Nat.one_pos, Option.some.injEq] at hhead
    rw [← hhead] at hbest
    exact ⟨hargmax.mp hfirst.argmax, htopk.mp hbest⟩
  · intro horder
    have hmerged := hargmax.mpr horder.first
    have hround := htopk.mpr horder.below
    refine ⟨hmerged, hmerged, fun temp seed htemp => ?_, fun k hk => ?_,
      fun params seeds htemp => ?_, firstMaximum_cpuArgmax hpos⟩
    · rw [bsample_greedy htemp]
      exact hmerged
    · exact ⟨_, head?_btopk hk vocab logits s, hround⟩
    · rw [selectTopk_greedy htemp]
      exact hround

theorem greedy_selection_first_pair : SelectsFirst 2 (fun k => k) 0 ↔
    InLaneOrder 2 fun k => ((0 * 2 + k : ℕ) : ℝ) := by
  apply greedy_selection_first_iff 2 (by decide) (by decide) (fun k => k) 0
  intro k hk
  have hnonneg : (0 : ℝ) ≤ ((0 * 2 + k : ℕ) : ℝ) := Nat.cast_nonneg _
  norm_num at hnonneg ⊢
  linarith

/-- Of two equal logits in the lanes 1 and 2 the merge takes the second. -/
theorem greedy_selection_takes_later :
    ¬ ∀ (vocab : ℕ) (logits : Buf) (s : ℕ), 0 < vocab → vocab < 2 ^ 32 →
      (∀ k < vocab, -1e30 < logits (s * vocab + k)) → SelectsFirst vocab logits s := by
  intro hall
  have hreal : ∀ k < 3, (-1e30 : ℝ) < min 1 ((0 * 3 + k : ℕ) : ℝ) := by
    intro k hk
    have hnonneg : (0 : ℝ) ≤ min 1 ((0 * 3 + k : ℕ) : ℝ) := by positivity
    linarith
  have hfirst := hall 3 (fun k => min 1 (k : ℝ)) 0 (by decide) (by decide) hreal
  have horder := (firstMaximum_argmax_iff (by decide) hreal).mp hfirst.argmax
  have hone : FirstMaximum 3 (fun k => min 1 ((0 * 3 + k : ℕ) : ℝ)) 1 := by
    refine ⟨by decide, fun k hk => ?_, fun k hk => ?_⟩
    · simp
    · obtain rfl : k = 0 := by omega
      simp
  have hturn := horder 1 hone 2 (by decide) (by norm_num)
  exact absurd hturn (by decide)

end Zllm.Gpu

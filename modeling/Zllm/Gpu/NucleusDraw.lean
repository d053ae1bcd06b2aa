import Zllm.Gpu.GreedySelection
import Zllm.Lib.InverseCdf

/-!
# The draw from the nucleus

`sample_topk` at any uniform draw: it takes the candidate in which the draw falls, scaled to the
nucleus. The parameters are reals; `sampleTopk` is the case of a seed.
-/

namespace Zllm.Gpu

open InverseCdf

/-! ### The sampler at a draw -/

noncomputable def poolProbs (vals : List ℝ) (kk : ℕ) (temp : ℝ) : List ℝ :=
  let maxv := vals.headD 0
  let probs := (vals.take kk).map fun v => Real.exp ((v - maxv) / temp)
  probs.map (· / probs.sum)

/-- The smallest prefix that reaches `top_p`. -/
noncomputable def nucleusCut (probs : List ℝ) (kk : ℕ) (topP : ℝ) : ℕ :=
  if 0 < topP ∧ topP < 1 then (reachedAt probs topP).elim kk (· + 1) else kk

/-- The scan for `u * zc`. It falls through where this is `none`. -/
noncomputable def drawnAt (kept : List ℝ) (u : ℝ) : Option ℕ :=
  reachedAt kept (u * kept.sum)

noncomputable def sampleTopkAt (vals : List ℝ) (idxs : List ℕ) (temp : ℝ) (topK : ℕ) (topP u : ℝ) :
    ℕ :=
  let n := min (vals.takeWhile (-3e37 < ·)).length idxs.length
  if n = 0 then idxs.headD 0
  else if temp ≤ 0 then idxs.headD 0
  else
    let kk := if topK = 0 then n else min topK n
    let probs := poolProbs vals kk temp
    let cut := nucleusCut probs kk topP
    idxs.getD ((drawnAt (probs.take cut) u).getD (cut - 1)) 0

/-- The sampler of a seed is the sampler at that seed's draw. -/
theorem sampleTopk_eq (vals : List ℝ) (idxs : List ℕ) (params : SamplingParams) (seed : UInt32) :
    sampleTopk vals idxs params seed =
      sampleTopkAt vals idxs params.temp params.topK params.topP (rng01 seed) := by
  have htemp : ((params.temp : ℝ) ≤ 0) = (params.temp ≤ 0) := propext Rat.cast_nonpos
  have hcut (probs : List ℝ) (kk : ℕ) : nucleusCut probs kk params.topP =
      if 0 < params.topP ∧ params.topP < 1 then (reachedAt probs params.topP).elim kk (· + 1)
      else kk := by
    have hone : ((params.topP : ℝ) < 1) = (params.topP < 1) := by exact_mod_cast rfl
    simp only [nucleusCut, Rat.cast_pos, hone]
  simp only [sampleTopk, sampleTopkAt, poolProbs, drawnAt, htemp, hcut]

/-- Every draw of a seed is strictly between zero and one. -/
theorem rng01_mem (seed : UInt32) : 0 < rng01 seed ∧ rng01 seed < 1 := by
  have hlt (z : UInt64) : (z >>> 40).toNat < 16777216 := by
    rw [UInt64.toNat_shiftRight, show (40 : UInt64).toNat % 64 = 40 from rfl,
      Nat.shiftRight_eq_div_pow]
    have hz := z.toNat_lt
    omega
  obtain ⟨z, hz⟩ : ∃ z : UInt64, rng01 seed = ((z >>> 40).toNat + 1 / 2) / 16777216 := ⟨_, rfl⟩
  rw [hz]
  constructor
  · positivity
  · rw [div_lt_one (by norm_num)]
    have hle : ((z >>> 40).toNat : ℚ) + 1 ≤ 16777216 := by exact_mod_cast hlt z
    linarith

/-! ### What is drawn from -/

/-- The candidates that are no sentinels. -/
noncomputable def candidates (vals : List ℝ) (idxs : List ℕ) : ℕ :=
  min (vals.countP (-3e37 < ·)) idxs.length

noncomputable def poolSize (vals : List ℝ) (idxs : List ℕ) (topK : ℕ) : ℕ :=
  if topK = 0 then candidates vals idxs else min topK (candidates vals idxs)

/-- The softmax of these values over the temperature. -/
noncomputable def temperedSoftmax (vals : List ℝ) (temp : ℝ) : List ℝ :=
  vals.map fun v => Real.exp (v / temp) / (vals.map fun v => Real.exp (v / temp)).sum

/-- The least prefix whose weight reaches `top_p`, or all if that is off. -/
def IsCut (weights : List ℝ) (topP : ℝ) (cut : ℕ) : Prop :=
  if 0 < topP ∧ topP < 1 then IsLeast {n | topP ≤ cumulative weights n} cut
  else cut = weights.length

variable {vals : List ℝ} {idxs : List ℕ} {weights : List ℝ} {temp topP u : ℝ} {topK kk cut : ℕ}

theorem length_temperedSoftmax (vals : List ℝ) (temp : ℝ) :
    (temperedSoftmax vals temp).length = vals.length :=
  List.length_map _

theorem sum_exp_pos (hne : vals ≠ []) (temp : ℝ) :
    0 < (vals.map fun v => Real.exp (v / temp)).sum := by
  apply List.sum_pos
  · intro x hx
    obtain ⟨v, -, rfl⟩ := List.mem_map.1 hx
    exact Real.exp_pos _
  · simpa using hne

theorem temperedSoftmax_pos (hne : vals ≠ []) (temp : ℝ) :
    ∀ w ∈ temperedSoftmax vals temp, 0 < w := by
  intro w hw
  obtain ⟨v, -, rfl⟩ := List.mem_map.1 hw
  exact div_pos (Real.exp_pos _) (sum_exp_pos hne temp)

theorem sum_temperedSoftmax (hne : vals ≠ []) (temp : ℝ) : (temperedSoftmax vals temp).sum = 1 := by
  simp only [temperedSoftmax, div_eq_mul_inv]
  rw [List.sum_map_mul_right]
  exact mul_inv_cancel₀ (sum_exp_pos hne temp).ne'

/-- The largest value cancels. -/
theorem poolProbs_eq (vals : List ℝ) (kk : ℕ) (temp : ℝ) :
    poolProbs vals kk temp = temperedSoftmax (vals.take kk) temp := by
  have hshift (v : ℝ) : Real.exp ((v - vals.headD 0) / temp) =
      Real.exp (v / temp) * Real.exp (-(vals.headD 0 / temp)) := by
    rw [← Real.exp_add]
    ring_nf
  simp only [poolProbs, temperedSoftmax, List.map_map, hshift, List.sum_map_mul_right]
  apply List.map_congr_left
  intro v _
  exact mul_div_mul_right _ _ (Real.exp_ne_zero _)

/-- In a descending list the sentinels are at the end. -/
theorem length_takeWhile_of_descending (hdesc : vals.Pairwise (· ≥ ·)) (bound : ℝ) :
    (vals.takeWhile (bound < ·)).length = vals.countP (bound < ·) := by
  induction vals with
  | nil => rfl
  | cons v vals ih =>
    obtain ⟨hfirst, hrest⟩ := List.pairwise_cons.1 hdesc
    by_cases hv : bound < v
    · rw [List.takeWhile_cons_of_pos (by simpa using hv),
        List.countP_cons_of_pos (by simpa using hv), List.length_cons, ih hrest]
    · rw [List.takeWhile_cons_of_neg (by simpa using hv), List.length_nil, eq_comm,
        List.countP_eq_zero]
      intro w hw
      have hle : w ≤ v := by
        rcases List.mem_cons.1 hw with rfl | hw
        · exact le_rfl
        · exact hfirst w hw
      simpa using hle.trans (not_lt.1 hv)

theorem poolSize_le (vals : List ℝ) (idxs : List ℕ) (topK : ℕ) :
    poolSize vals idxs topK ≤ vals.length ∧ poolSize vals idxs topK ≤ idxs.length := by
  have hvals : candidates vals idxs ≤ vals.length :=
    (Nat.min_le_left _ _).trans List.countP_le_length
  have hidxs : candidates vals idxs ≤ idxs.length := Nat.min_le_right _ _
  unfold poolSize
  split_ifs <;> omega

theorem length_poolWeights (vals : List ℝ) (idxs : List ℕ) (topK : ℕ) (temp : ℝ) :
    (temperedSoftmax (vals.take (poolSize vals idxs topK)) temp).length =
      poolSize vals idxs topK := by
  rw [length_temperedSoftmax, List.length_take, Nat.min_eq_left (poolSize_le vals idxs topK).1]

theorem sampleTopkAt_eq (hdesc : vals.Pairwise (· ≥ ·)) (hsome : 0 < candidates vals idxs)
    (htemp : 0 < temp) : sampleTopkAt vals idxs temp topK topP u =
      let weights := temperedSoftmax (vals.take (poolSize vals idxs topK)) temp
      let cut := nucleusCut weights weights.length topP
      idxs.getD ((drawnAt (weights.take cut) u).getD (cut - 1)) 0 := by
  have hn : min (vals.takeWhile (-3e37 < ·)).length idxs.length = candidates vals idxs := by
    rw [length_takeWhile_of_descending hdesc, candidates]
  simp only [sampleTopkAt, hn, if_neg hsome.ne', if_neg htemp.not_ge, poolProbs_eq,
    length_poolWeights]
  rfl

theorem reachedAt_eq (weights : List ℝ) (bound : ℝ) :
    reachedAt weights bound =
      (List.range weights.length).find? fun i => bound ≤ cumulative weights (i + 1) := rfl

theorem isCut_nucleusCut (hpos : ∀ w ∈ weights, 0 < w) (hsum : weights.sum = 1)
    (topP : ℝ) : IsCut weights topP (nucleusCut weights weights.length topP) ∧
      0 < nucleusCut weights weights.length topP ∧
      nucleusCut weights weights.length topP ≤ weights.length := by
  have hne : weights ≠ [] := by
    rintro rfl
    simp at hsum
  unfold IsCut nucleusCut
  split_ifs with hon
  · obtain ⟨i, hfind⟩ := exists_find?_of_le_sum hne (hsum ▸ hon.2.le)
    have hfalls := fallsAt_of_find? hon.1 hfind
    rw [reachedAt_eq, hfind]
    exact ⟨hfalls.isLeast hpos, Nat.succ_pos i, hfalls.lt⟩
  · exact ⟨rfl, List.length_pos_iff.2 hne, le_rfl⟩

/-- A draw below one is reached inside what is kept. -/
theorem exists_drawnAt {kept : List ℝ} (hpos : ∀ w ∈ kept, 0 < w) (hne : kept ≠ []) (hu : 0 < u)
    (hu' : u < 1) : ∃ i, drawnAt kept u = some i ∧ FallsAt kept (u * kept.sum) i := by
  have hsum : 0 < kept.sum := List.sum_pos _ hpos hne
  obtain ⟨i, hfind⟩ := exists_find?_of_le_sum hne (mul_le_of_le_one_left hsum.le hu'.le)
  exact ⟨i, hfind, fallsAt_of_find? (mul_pos hu hsum) hfind⟩

/-- What `sample_topk` returns: the candidate in which the draw falls. -/
structure DrawnFrom (weights : List ℝ) (idxs : List ℕ) (topP u : ℝ) (cut i tok : ℕ) : Prop where
  isCut : IsCut weights topP cut
  lt : i < cut
  below : cumulative weights i < u * cumulative weights cut
  reaches : u * cumulative weights cut ≤ cumulative weights (i + 1)
  token : idxs[i]? = some tok

/-- The sampler draws by inverse cumulative weights, and its scan never falls through. -/
theorem sampleTopkAt_drawn (vals : List ℝ) (idxs : List ℕ) (temp : ℝ) (topK : ℕ) (topP u : ℝ)
    (hdesc : vals.Pairwise (· ≥ ·)) (hsome : 0 < candidates vals idxs) (htemp : 0 < temp)
    (hu : 0 < u) (hu' : u < 1) :
    let weights := temperedSoftmax (vals.take (poolSize vals idxs topK)) temp
    ∃ cut i, DrawnFrom weights idxs topP u cut i (sampleTopkAt vals idxs temp topK topP u) ∧
      (∀ j < cut, cumulative weights j < u * cumulative weights cut →
        u * cumulative weights cut ≤ cumulative weights (j + 1) → j = i) ∧
      drawnAt (weights.take cut) u = some i := by
  intro weights
  have hpool : 0 < poolSize vals idxs topK := by
    unfold poolSize
    split_ifs <;> omega
  have hpool_le := poolSize_le vals idxs topK
  have hlen : weights.length = poolSize vals idxs topK := length_poolWeights vals idxs topK temp
  have htaken : vals.take (poolSize vals idxs topK) ≠ [] := by
    rw [← List.length_pos_iff, List.length_take]
    omega
  have hpos : ∀ w ∈ weights, 0 < w := temperedSoftmax_pos htaken temp
  obtain ⟨hcut, hcut_pos, hcut_le⟩ := isCut_nucleusCut hpos (sum_temperedSoftmax htaken temp) topP
  set cut := nucleusCut weights weights.length topP
  have hkept : weights.take cut ≠ [] := by
    rw [← List.length_pos_iff, List.length_take]
    omega
  have hkept_pos : ∀ w ∈ weights.take cut, 0 < w := fun w hw => hpos w (List.mem_of_mem_take hw)
  obtain ⟨i, hdrawn, hfalls⟩ := exists_drawnAt hkept_pos hkept hu hu'
  have hlt : i < cut := by
    have hi := hfalls.lt
    rw [List.length_take] at hi
    omega
  have hsum : (weights.take cut).sum = cumulative weights cut := rfl
  -- What the scan sees of the kept weights is what all weights sum up to.
  have hat {j : ℕ} (hj : j < cut) (hbelow : cumulative weights j < u * cumulative weights cut)
      (hreaches : u * cumulative weights cut ≤ cumulative weights (j + 1)) :
      FallsAt (weights.take cut) (u * (weights.take cut).sum) j := by
    refine ⟨?_, ?_, ?_⟩
    · rw [List.length_take]
      omega
    · rwa [cumulative_take hj.le, hsum]
    · rwa [cumulative_take hj, hsum]
  refine ⟨cut, i, ⟨hcut, hlt, ?_, ?_, ?_⟩, ?_, hdrawn⟩
  · rw [← hsum, ← cumulative_take hlt.le]
    exact hfalls.below
  · rw [← hsum, ← cumulative_take hlt]
    exact hfalls.reaches
  · rw [sampleTopkAt_eq hdesc hsome htemp]
    change idxs[i]? = some (idxs.getD ((drawnAt (weights.take cut) u).getD (cut - 1)) 0)
    rw [hdrawn, Option.getD_some, List.getD_eq_getElem?_getD,
      List.getElem?_eq_getElem (by omega), Option.getD_some]
  · intro j hj hbelow hreaches
    exact (hat hj hbelow hreaches).unique hkept_pos hfalls

/-- The temperature at which one more doubles a weight. -/
theorem exp_div_doubling (n : ℕ) : Real.exp (n / (1 / Real.log 2)) = 2 ^ n := by
  have htwo : (0 : ℝ) < 2 := two_pos
  calc Real.exp (n / (1 / Real.log 2))
      = Real.exp (Real.log 2 * n) := by rw [div_div_eq_mul_div, div_one, mul_comm]
    _ = 2 ^ (n : ℝ) := (Real.rpow_def_of_pos htwo n).symm
    _ = 2 ^ n := Real.rpow_natCast 2 n

/-- Top-k leaves three candidates of four before a sentinel, the nucleus two of them, and a late
draw takes the second. -/
theorem sampleTopkAt_drawn_nucleus :
    DrawnFrom [1 / 2, 1 / 4, 1 / 4] [4, 7, 9, 1, 0] (3 / 5) (3 / 4) 2 1
      (sampleTopkAt [3, 2, 2, 1, -3.4e38] [4, 7, 9, 1, 0] (1 / Real.log 2) 3 (3 / 5) (3 / 4)) := by
  have hcandidates : candidates [3, 2, 2, 1, -3.4e38] [4, 7, 9, 1, 0] = 4 := by
    norm_num [candidates]
  have hpool : poolSize [3, 2, 2, 1, -3.4e38] [4, 7, 9, 1, 0] 3 = 3 := by
    rw [poolSize, hcandidates]
    rfl
  have htwo := exp_div_doubling 2
  have hthree := exp_div_doubling 3
  push_cast at htwo hthree
  have hweights : temperedSoftmax ([3, 2, 2, 1, -3.4e38].take
      (poolSize [3, 2, 2, 1, -3.4e38] [4, 7, 9, 1, 0] 3)) (1 / Real.log 2) =
        [1 / 2, 1 / 4, 1 / 4] := by
    rw [hpool]
    simp only [temperedSoftmax, List.take_succ_cons, List.take_zero, List.map_cons, List.map_nil,
      List.sum_cons, List.sum_nil, htwo, hthree]
    norm_num
  have hdesc : [3, 2, 2, 1, (-3.4e38 : ℝ)].Pairwise (· ≥ ·) := by
    norm_num [List.pairwise_cons]
  have htemp : 0 < 1 / Real.log 2 := one_div_pos.mpr (Real.log_pos one_lt_two)
  obtain ⟨cut, i, hdrawn, hunique, -⟩ := sampleTopkAt_drawn [3, 2, 2, 1, -3.4e38] [4, 7, 9, 1, 0]
    (1 / Real.log 2) 3 (3 / 5) (3 / 4) hdesc (by omega) htemp (by norm_num) (by norm_num)
  rw [hweights] at hdrawn hunique
  obtain rfl : cut = 2 := by
    have hleast : IsLeast {n | 3 / 5 ≤ cumulative [1 / 2, 1 / 4, 1 / 4] n} cut := by
      have hcut := hdrawn.isCut
      rwa [IsCut, if_pos (by norm_num)] at hcut
    apply hleast.unique
    refine ⟨by norm_num [cumulative], fun n hn => ?_⟩
    by_contra hlt
    interval_cases n <;> norm_num [cumulative] at hn
  obtain rfl := hunique 1 (by decide) (by norm_num [cumulative]) (by norm_num [cumulative])
  exact hdrawn

end Zllm.Gpu

import Zllm.Engine.Hallucination

/-!
# Uncertainty is that of the softmax

The scan computes entropy and the two largest probabilities of the softmax distribution. A row of
one logit has no second probability: there the scan's start value is subtracted, and the margin is
infinite.
-/

namespace Zllm.Hallucination

open Extended (fin bot nan exp ln maxNum clamp ofWithBot)
open Logprobs (sum weight sum_weight_pos)
open Entropy (entropy topTwo TwoLargest Distribution)

variable {ws : List (WithBot ℝ)} {w : WithBot ℝ} {x m : ℝ} {logits : List (Extended ℝ)} {chosen : ℕ}

/-! ### The scan -/

theorem exp_sub (w : WithBot ℝ) (m : ℝ) :
    exp (ofWithBot w - fin m) = fin (weight w * Real.exp (-m)) := by
  rw [Extended.ofWithBot_sub_fin, Logprobs.exp_ofWithBot, Logprobs.weight_sub]

theorem sum_exp_sub (ws : List (WithBot ℝ)) (m : ℝ) :
    sum ((ws.map ofWithBot).map fun l => exp (l - fin m)) =
      fin ((ws.map weight).sum * Real.exp (-m)) := by
  have hmap : (ws.map ofWithBot).map (fun l => exp (l - fin m)) =
      (ws.map fun w => weight w * Real.exp (-m)).map fin := by
    simp only [List.map_map, Function.comp_def, exp_sub]
  rw [hmap, Logprobs.sum_map_fin, List.sum_map_mul_right]

/-- The largest logit is a number. -/
theorem exists_max (hx : (x : WithBot ℝ) ∈ ws) :
    ∃ m : ℝ, (ws.map ofWithBot).foldl maxNum bot = fin m := by
  have hle := Logprobs.le_foldl_max (w := ⊥) (.inr hx)
  obtain ⟨m, hm⟩ := WithBot.ne_bot_iff_exists.mp
    (ne_bot_of_le_ne_bot (WithBot.coe_ne_bot (a := x)) hle)
  refine ⟨m, ?_⟩
  rw [← Extended.ofWithBot_bot, Logprobs.foldl_maxNum, ← hm, Extended.ofWithBot_coe]

/-- The exponentials relative to the largest logit are normalized to the probabilities. -/
theorem exp_mul_inv (hx : (x : WithBot ℝ) ∈ ws) (w : WithBot ℝ) (m : ℝ) :
    exp (ofWithBot w - fin m) * fin (1 / ((ws.map weight).sum * Real.exp (-m))) =
      fin (prob ws w) := by
  have hsum := (sum_weight_pos hx).ne'
  have hexp := (Real.exp_pos (-m)).ne'
  rw [exp_sub, Extended.fin_mul_fin, prob]
  congr 1
  field_simp

/-- A probability that is not zero is one of a number, and its logarithm is what the scan takes. -/
theorem log_prob (hx : (x : WithBot ℝ) ∈ ws) (y m : ℝ) :
    fin y - fin m - fin (Real.log ((ws.map weight).sum * Real.exp (-m))) =
      fin (Real.log (prob ws y)) := by
  have hlog : Real.log (prob ws y) = y - Real.log (ws.map weight).sum := by
    have hweight : weight (y : WithBot ℝ) = Real.exp y := rfl
    rw [prob, hweight, Real.log_div (Real.exp_pos y).ne' (sum_weight_pos hx).ne', Real.log_exp]
  rw [hlog, Real.log_mul (sum_weight_pos hx).ne' (Real.exp_pos _).ne', Real.log_exp]
  refine congrArg fin ?_
  ring

theorem entropy_step (hx : (x : WithBot ℝ) ∈ ws) (w : WithBot ℝ) (m e : ℝ) :
    (if (0 : Extended ℝ) < fin (prob ws w) then
        fin e - fin (prob ws w) *
          (ofWithBot w - fin m - fin (Real.log ((ws.map weight).sum * Real.exp (-m))))
      else fin e) = fin (e + Real.negMulLog (prob ws w)) := by
  induction w using WithBot.recBotCoe with
  | bot =>
    have hzero : prob ws ⊥ = 0 := zero_div _
    rw [hzero, Real.negMulLog_zero, add_zero, if_neg]
    exact lt_irrefl (0 : ℝ)
  | coe y =>
    have hpos : 0 < prob ws (y : WithBot ℝ) := div_pos (Real.exp_pos y) (sum_weight_pos hx)
    rw [if_pos (Extended.zero_lt_fin.mpr hpos), Extended.ofWithBot_coe, log_prob hx,
      Extended.fin_mul_fin, Real.negMulLog]
    refine congrArg fin ?_
    ring

/-- The scan's state in the numbers it stands for. -/
noncomputable def stateOf (e : ℝ) (top : WithBot ℝ × WithBot ℝ) : Scan :=
  { entropy := fin e, top1 := ofWithBot top.1, top2 := ofWithBot top.2 }

theorem scanLogit_stateOf (hx : (x : WithBot ℝ) ∈ ws) (w : WithBot ℝ) (m e : ℝ)
    (top : WithBot ℝ × WithBot ℝ) :
    scanLogit (fin m) (fin (1 / ((ws.map weight).sum * Real.exp (-m))))
        (fin (Real.log ((ws.map weight).sum * Real.exp (-m)))) (stateOf e top) (ofWithBot w) =
      stateOf (e + Real.negMulLog (prob ws w)) (topTwo top (prob ws w)) := by
  unfold scanLogit topTwo
  simp only [exp_mul_inv hx, stateOf, entropy_step hx]
  simp only [← Extended.ofWithBot_coe, Extended.ofWithBot_lt]
  split_ifs <;> rfl

theorem foldl_scanLogit (hx : (x : WithBot ℝ) ∈ ws) (m : ℝ) (vs : List (WithBot ℝ)) (e : ℝ)
    (top : WithBot ℝ × WithBot ℝ) :
    (vs.map ofWithBot).foldl (scanLogit (fin m) (fin (1 / ((ws.map weight).sum * Real.exp (-m))))
        (fin (Real.log ((ws.map weight).sum * Real.exp (-m))))) (stateOf e top) =
      stateOf (e + entropy (vs.map (prob ws)))
        (((vs.map (prob ws)).map WithBot.some).foldl topTwo top) := by
  induction vs generalizing e top with
  | nil => simp [entropy]
  | cons v vs ih =>
    rw [List.map_cons, List.foldl_cons, scanLogit_stateOf hx, ih]
    simp only [entropy, List.map_cons, List.sum_cons, List.foldl_cons, add_assoc]

/-- The two largest probabilities, as the scan leaves them. -/
noncomputable def topProbs (ws : List (WithBot ℝ)) : WithBot ℝ × WithBot ℝ :=
  ((ws.map (prob ws)).map WithBot.some).foldl topTwo (⊥, ⊥)

theorem maxNum_zero {r : ℝ} (hr : 0 ≤ r) : maxNum (fin r) 0 = fin r := by
  have hmax := Extended.maxNum_ofWithBot (r : WithBot ℝ) ((0 : ℝ) : WithBot ℝ)
  rw [max_eq_left (WithBot.coe_le_coe.mpr hr)] at hmax
  exact hmax

theorem tokenUncertainty_eq (hx : (x : WithBot ℝ) ∈ ws) (chosen : ℕ) :
    tokenUncertainty (ws.map ofWithBot) chosen =
      { token := chosen
        entropy := fin (entropy (ws.map (prob ws)))
        maxProb := maxNum (ofWithBot (topProbs ws).1) 0
        margin := maxNum (ofWithBot (topProbs ws).1 - ofWithBot (topProbs ws).2) 0
        chosenLogprob := if 0 < ((ws[chosen]?).elim 0 fun w => fin (prob ws w) : Extended ℝ)
          then ln ((ws[chosen]?).elim 0 fun w => fin (prob ws w)) else bot } := by
  obtain ⟨m, hmax⟩ := exists_max hx
  have hpos : 0 < (ws.map weight).sum * Real.exp (-m) :=
    mul_pos (sum_weight_pos hx) (Real.exp_pos _)
  have hne : (ws.map ofWithBot).isEmpty = false := by
    rw [List.isEmpty_eq_false_iff]
    exact List.ne_nil_of_mem (List.mem_map_of_mem hx)
  have hinv : (1 : Extended ℝ) / fin ((ws.map weight).sum * Real.exp (-m)) =
      fin (1 / ((ws.map weight).sum * Real.exp (-m))) := Extended.fin_div_fin hpos.ne'
  have hscan := foldl_scanLogit hx m ws 0 (⊥, ⊥)
  have hchosen : ((ws.map ofWithBot)[chosen]?).elim 0 (fun l => exp (l - fin m) *
      fin (1 / ((ws.map weight).sum * Real.exp (-m)))) =
      (ws[chosen]?).elim 0 fun w => fin (prob ws w) := by
    rw [List.getElem?_map]
    cases ws[chosen]? with
    | none => rfl
    | some w => exact exp_mul_inv hx w m
  rw [zero_add] at hscan
  unfold tokenUncertainty
  simp only [hne, Bool.false_eq_true, if_false, hmax, sum_exp_sub, hinv, Extended.ln_pos hpos,
    hchosen]
  rw [show ({ entropy := 0, top1 := bot, top2 := bot } : Scan) = stateOf 0 (⊥, ⊥) from rfl, hscan]
  simp only [stateOf, maxNum_zero (distribution_prob hx).entropy_nonneg]
  rfl

/-! ### The truth about a token -/

/-- One logit leaves the start value in the second place. -/
theorem topProbs_singleton (w : WithBot ℝ) : topProbs [w] = ((prob [w] w : WithBot ℝ), ⊥) := by
  rw [topProbs]
  simp only [List.map_cons, List.map_nil, List.foldl_cons, List.foldl_nil, topTwo]
  rw [if_pos (WithBot.bot_lt_coe _)]

theorem topProbs_eq {p1 p2 : ℝ} (htop : TwoLargest p1 p2 (ws.map (prob ws))) :
    topProbs ws = ((p1 : WithBot ℝ), (p2 : WithBot ℝ)) := Entropy.foldl_topTwo htop

theorem exists_topProbs (htwo : 2 ≤ ws.length) : ∃ p1 p2, TwoLargest p1 p2 (ws.map (prob ws)) := by
  apply Entropy.exists_twoLargest
  rwa [List.length_map]

/-- The largest probability, whether or not there is another. -/
theorem topProbs_fst (hx : (x : WithBot ℝ) ∈ ws) :
    ∃ p ∈ ws.map (prob ws), (topProbs ws).1 = (p : WithBot ℝ) ∧
      ∀ q ∈ ws.map (prob ws), q ≤ p := by
  rcases Nat.lt_or_ge ws.length 2 with hone | htwo
  · have hlen : ws.length = 1 := by
      have := List.length_pos_of_mem hx
      omega
    obtain ⟨w, rfl⟩ := List.length_eq_one_iff.mp hlen
    exact ⟨prob [w] w, by simp, by rw [topProbs_singleton], by simp⟩
  · obtain ⟨p1, p2, htop⟩ := exists_topProbs htwo
    exact ⟨p1, htop.mem.1, by rw [topProbs_eq htop], fun q hq => htop.le hq⟩

theorem exists_row (hrow : IsRow logits) :
    ∃ (ws : List (WithBot ℝ)) (x : ℝ), logits = ws.map ofWithBot ∧ (x : WithBot ℝ) ∈ ws := by
  obtain ⟨ws, rfl⟩ := Logprobs.exists_map_ofWithBot hrow.nan hrow.top
  obtain ⟨x, hx⟩ := hrow.finite
  obtain ⟨w, hw, hwx⟩ := List.mem_map.mp hx
  obtain rfl : w = (x : WithBot ℝ) := Extended.ofWithBot_injective hwx
  exact ⟨ws, x, rfl, hw⟩

/-- What holds of a row of any length. -/
structure Measured (logits : List (Extended ℝ)) (chosen : ℕ) (u : TokenUncertainty) : Prop where
  entropy_eq : u.entropy = fin (entropy (softmax logits))
  distribution : Distribution (softmax logits)
  maxProb : ∃ p ∈ softmax logits, u.maxProb = fin p ∧ ∀ q ∈ softmax logits, q ≤ p
  chosenLogprob : ∀ p, (softmax logits)[chosen]? = some p → u.chosenLogprob = ln (fin p)

theorem measured (hrow : IsRow logits) (chosen : ℕ) :
    Measured logits chosen (tokenUncertainty logits chosen) := by
  obtain ⟨ws, x, rfl, hx⟩ := exists_row hrow
  have hdist := distribution_prob hx
  rw [tokenUncertainty_eq hx]
  constructor
  · rw [softmax_map]
  · rwa [softmax_map]
  · obtain ⟨p, hp, htop, hmax⟩ := topProbs_fst hx
    rw [softmax_map]
    refine ⟨p, hp, ?_, hmax⟩
    dsimp only
    rw [htop, Extended.ofWithBot_coe, maxNum_zero (hdist.nonneg p hp)]
  · intro p hp
    rw [softmax_map, List.getElem?_map] at hp
    obtain ⟨w, hw, rfl⟩ := Option.map_eq_some_iff.mp hp
    have hmem : prob ws w ∈ ws.map (prob ws) := List.mem_map_of_mem (List.mem_of_getElem? hw)
    simp only [hw, Option.elim_some]
    rcases (hdist.nonneg _ hmem).eq_or_lt with hzero | hpos
    · rw [← hzero, if_neg (mt Extended.zero_lt_fin.mp (lt_irrefl 0)), ln,
        if_neg (lt_irrefl _), if_pos rfl]
    · rw [if_pos (Extended.zero_lt_fin.mpr hpos)]

/-- With a second probability the margin is the difference. -/
theorem margin_eq {p1 p2 : ℝ} (hx : (x : WithBot ℝ) ∈ ws)
    (htop : TwoLargest p1 p2 (ws.map (prob ws))) (chosen : ℕ) :
    (tokenUncertainty (ws.map ofWithBot) chosen).margin = fin (p1 - p2) := by
  have hle : p2 ≤ p1 := htop.le htop.mem.2
  rw [tokenUncertainty_eq hx, topProbs_eq htop]
  show maxNum (fin (p1 + -p2)) 0 = fin (p1 - p2)
  rw [← sub_eq_add_neg, maxNum_zero (sub_nonneg.mpr hle)]

/-- Without one it is infinite. -/
theorem margin_singleton (w : WithBot ℝ) (hx : (x : WithBot ℝ) ∈ [w]) (chosen : ℕ) :
    (tokenUncertainty ([w].map ofWithBot) chosen).margin = Extended.top := by
  rw [tokenUncertainty_eq hx, topProbs_singleton]
  show maxNum (Extended.top : Extended ℝ) 0 = Extended.top
  have htop : (Extended.top : Extended ℝ) ≠ nan := fun heq => by cases heq
  have hzero : (0 : Extended ℝ) ≠ nan := fun heq => by cases heq
  rw [maxNum, if_neg htop, if_neg hzero,
    if_neg (show ¬ (Extended.top : Extended ℝ) < 0 from id)]

theorem ofSoftmax_iff (hrow : IsRow logits) (chosen : ℕ) :
    OfSoftmax logits chosen (tokenUncertainty logits chosen) ↔ 2 ≤ logits.length := by
  have hmeasured := measured hrow chosen
  obtain ⟨ws, x, rfl, hx⟩ := exists_row hrow
  have hpos := List.length_pos_of_mem hx
  constructor
  · intro hsoftmax
    by_contra hshort
    rw [List.length_map] at hshort
    obtain ⟨w, rfl⟩ := List.length_eq_one_iff.mp (show ws.length = 1 by omega)
    obtain ⟨m, hm, -⟩ := hsoftmax.margin_range
    rw [margin_singleton w hx] at hm
    cases hm
  · intro hlen
    rw [List.length_map] at hlen
    obtain ⟨p1, p2, htop⟩ := exists_topProbs hlen
    have hdist := distribution_prob hx
    have hlog : entropy (ws.map (prob ws)) ≤ Real.log (ws.map ofWithBot).length := by
      simpa using hdist.entropy_le_log
    refine ⟨?_, ?_, hmeasured.maxProb, ?_, ?_, hmeasured.chosenLogprob⟩
    · rw [hmeasured.entropy_eq, Entropy.entropy_eq_neg]
    · refine ⟨_, hmeasured.entropy_eq, hmeasured.distribution.entropy_nonneg, ?_⟩
      rwa [softmax_map]
    · intro q1 q2 hq
      rw [softmax_map] at hq
      exact margin_eq hx hq chosen
    · have hle : p2 ≤ p1 := htop.le htop.mem.2
      have hone : p1 ≤ 1 := hdist.le_one htop.mem.1
      have hnonneg : 0 ≤ p2 := hdist.nonneg _ htop.mem.2
      exact ⟨_, margin_eq hx htop chosen, by linarith, by linarith⟩

/-! ### The report -/

theorem fin_lt_zero {r : ℝ} : fin r < 0 ↔ r < 0 := Iff.rfl

theorem one_lt_fin {r : ℝ} : 1 < fin r ↔ 1 < r := Iff.rfl

theorem fin_le_fin {a b : ℝ} : fin a ≤ fin b ↔ a ≤ b :=
  Extended.ofWithBot_le.trans WithBot.coe_le_coe

theorem clamp_inUnit (r : ℝ) : InUnit (clamp (fin r) 0 1) := by
  unfold clamp
  split_ifs with hlow hhigh
  · exact ⟨0, rfl, le_rfl, zero_le_one⟩
  · exact ⟨1, rfl, zero_le_one, le_rfl⟩
  · exact ⟨r, rfl, not_lt.mp (mt fin_lt_zero.mpr hlow), not_lt.mp (mt one_lt_fin.mpr hhigh)⟩

theorem exists_map_fin {us : List (Extended ℝ)} {P : ℝ → Prop} (hus : ∀ u ∈ us, ∃ r, u = fin r ∧ P r) :
    ∃ rs : List ℝ, us = rs.map fin ∧ ∀ r ∈ rs, P r := by
  induction us with
  | nil => exact ⟨[], rfl, by simp⟩
  | cons u us ih =>
    obtain ⟨r, rfl, hr⟩ := hus u List.mem_cons_self
    obtain ⟨rs, rfl, hrs⟩ := ih fun u hu => hus u (List.mem_cons_of_mem _ hu)
    exact ⟨r :: rs, rfl, List.forall_mem_cons.mpr ⟨hr, hrs⟩⟩

theorem exists_sum {us : List (Extended ℝ)} (hus : ∀ u ∈ us, ∃ r, u = fin r) :
    ∃ s, sum us = fin s := by
  obtain ⟨rs, rfl, -⟩ := exists_map_fin (P := fun _ => True)
    fun u hu => (hus u hu).imp fun _ h => ⟨h, trivial⟩
  exact ⟨_, Logprobs.sum_map_fin rs⟩

/-- The mean of numbers between zero and one. -/
theorem mean_inUnit {us : List (Extended ℝ)} (hne : us ≠ []) (hus : ∀ u ∈ us, InUnit u) :
    InUnit (sum us / fin (us.length : ℝ)) := by
  obtain ⟨rs, rfl, hrs⟩ := exists_map_fin hus
  have hn : (0 : ℝ) < rs.length := by
    exact_mod_cast List.length_pos_iff.mpr fun h => hne (by rw [h]; rfl)
  have hsum : rs.sum ≤ rs.length := by
    calc rs.sum ≤ rs.length • (1 : ℝ) := List.sum_le_card_nsmul rs 1 fun r hr => (hrs r hr).2
      _ = rs.length := by rw [nsmul_eq_mul, mul_one]
  rw [Logprobs.sum_map_fin, List.length_map, Extended.fin_div_fin hn.ne']
  exact ⟨_, rfl, div_nonneg (List.sum_nonneg fun r hr => (hrs r hr).1) hn.le,
    (div_le_one hn).mpr hsum⟩

/-- An entropy that is a number, and a risk between zero and one. -/
structure Sound (u : TokenUncertainty) : Prop where
  entropy : ∃ h : ℝ, u.entropy = fin h
  risk : InUnit u.risk

theorem Measured.sound {u : TokenUncertainty} (h : Measured logits chosen u) : Sound u where
  entropy := ⟨_, h.entropy_eq⟩
  risk := by
    obtain ⟨p, -, hp, -⟩ := h.maxProb
    rw [TokenUncertainty.risk, hp]
    exact clamp_inUnit (1 + -p)

/-- The fold keeps an entry that no entry seen is above. -/
theorem foldl_maxByEntropy {best : TokenUncertainty × ℕ} {rest : List (TokenUncertainty × ℕ)}
    (hsound : ∀ y ∈ best :: rest, ∃ h : ℝ, y.1.entropy = fin h) :
    rest.foldl Detector.maxByEntropy best ∈ best :: rest ∧ ∀ y ∈ best :: rest,
      y.1.entropy ≤ (rest.foldl Detector.maxByEntropy best).1.entropy := by
  induction rest generalizing best with
  | nil =>
    obtain ⟨h, hbest⟩ := hsound best List.mem_cons_self
    refine ⟨List.mem_cons_self, fun y hy => ?_⟩
    rw [List.mem_singleton.mp hy, List.foldl_nil, hbest]
    exact fin_le_fin.mpr le_rfl
  | cons x rest ih =>
    obtain ⟨a, ha⟩ := hsound best List.mem_cons_self
    obtain ⟨b, hb⟩ := hsound x (by simp)
    -- The winner of the first two goes on, and neither is above it.
    obtain ⟨c, hc, hwinner, hle⟩ : ∃ c : ℝ, (Detector.maxByEntropy best x).1.entropy = fin c ∧
        (Detector.maxByEntropy best x = best ∨ Detector.maxByEntropy best x = x) ∧
          a ≤ c ∧ b ≤ c := by
      unfold Detector.maxByEntropy
      rw [ha, hb]
      split_ifs with hlt
      · exact ⟨a, ha, .inl rfl, le_rfl, (Extended.fin_lt_fin.mp hlt).le⟩
      · exact ⟨b, hb, .inr rfl, not_lt.mp (mt Extended.fin_lt_fin.mpr hlt), le_rfl⟩
    rw [List.foldl_cons]
    generalize Detector.maxByEntropy best x = winner at hc hwinner ⊢
    have hrest : ∀ y ∈ winner :: rest, ∃ h : ℝ, y.1.entropy = fin h := by
      intro y hy
      rcases List.mem_cons.mp hy with rfl | hy
      · exact ⟨c, hc⟩
      · exact hsound y (by simp [hy])
    obtain ⟨hmem, hmax⟩ := ih hrest
    obtain ⟨e, he⟩ := hrest _ hmem
    have hce : c ≤ e := by
      have hfirst := hmax winner List.mem_cons_self
      rw [hc, he] at hfirst
      exact fin_le_fin.mp hfirst
    refine ⟨?_, fun y hy => ?_⟩
    · rcases List.mem_cons.mp hmem with heq | hmem
      · rw [heq]
        rcases hwinner with rfl | rfl <;> simp
      · simp [hmem]
    · rcases List.mem_cons.mp hy with rfl | hy
      · rw [ha, he]
        exact fin_le_fin.mpr (hle.1.trans hce)
      · rcases List.mem_cons.mp hy with rfl | hy
        · rw [hb, he]
          exact fin_le_fin.mpr (hle.2.trans hce)
        · exact hmax y (List.mem_cons_of_mem _ hy)

theorem peakOf_spec {tokens : List TokenUncertainty} (hsound : ∀ u ∈ tokens, Sound u) :
    (Detector.peakOf tokens = none ↔ tokens = []) ∧ ∀ i, Detector.peakOf tokens = some i →
      ∃ u, tokens[i]? = some u ∧ ∀ v ∈ tokens, v.entropy ≤ u.entropy := by
  have hentries (y : TokenUncertainty × ℕ) (hy : y ∈ tokens.zipIdx) : ∃ h : ℝ, y.1.entropy = fin h :=
    (hsound _ (List.fst_mem_of_mem_zipIdx hy)).entropy
  unfold Detector.peakOf
  cases hzip : tokens.zipIdx with
  | nil =>
    have hnil : tokens = [] := by simpa using congrArg List.length hzip
    exact ⟨iff_of_true rfl hnil, nofun⟩
  | cons x rest =>
    have hne : tokens ≠ [] := by
      rintro rfl
      cases hzip
    rw [hzip] at hentries
    obtain ⟨hmem, hmax⟩ := foldl_maxByEntropy hentries
    refine ⟨iff_of_false nofun hne, fun i hi => ?_⟩
    obtain rfl := Option.some.inj hi
    rw [← hzip] at hmem hmax
    refine ⟨_, List.mem_zipIdx_iff_getElem?.mp hmem, fun v hv => ?_⟩
    obtain ⟨j, hj⟩ := List.mem_iff_getElem?.mp hv
    exact hmax (v, j) (List.mem_zipIdx_iff_getElem?.mpr hj)

theorem observed_spec (cfg : DetectorConfig) (rows : List (List (Extended ℝ) × ℕ)) :
    (Detector.observed cfg rows).tokens = rows.map (fun row => tokenUncertainty row.1 row.2) ∧
      (Detector.observed cfg rows).risky ≤ rows.length := by
  unfold Detector.observed
  induction rows using List.reverseRecOn with
  | nil => exact ⟨rfl, le_rfl⟩
  | append_singleton rows row ih =>
    obtain ⟨htokens, hrisky⟩ := ih
    rw [List.foldl_append, List.foldl_cons, List.foldl_nil, List.map_append, List.length_append]
    refine ⟨congrArg (· ++ _) htokens, ?_⟩
    unfold Detector.observe
    dsimp only
    split_ifs
    · exact Nat.succ_le_succ hrisky
    · exact hrisky.trans (Nat.le_succ _)

theorem report_holds (cfg : DetectorConfig) {rows : List (List (Extended ℝ) × ℕ)}
    (hrows : ∀ row ∈ rows, IsRow row.1) : ReportHolds rows (Detector.observed cfg rows).report := by
  obtain ⟨htokens, hrisky⟩ := observed_spec cfg rows
  have hsound (u : TokenUncertainty) (hu : u ∈ (Detector.observed cfg rows).tokens) : Sound u := by
    rw [htokens] at hu
    obtain ⟨row, hrow, rfl⟩ := List.mem_map.mp hu
    exact (measured (hrows row hrow) row.2).sound
  have hlen : (Detector.observed cfg rows).tokens.length = rows.length := by
    rw [htokens, List.length_map]
  generalize Detector.observed cfg rows = d at *
  have hzero : InUnit 0 := ⟨0, rfl, le_rfl, zero_le_one⟩
  unfold Detector.report
  dsimp only
  split_ifs with hnone
  · obtain rfl : rows = [] := List.length_eq_zero_iff.mp (hlen.symm.trans hnone)
    exact ⟨rfl, hzero, hzero, hzero, nofun, iff_of_true rfl rfl⟩
  · have hne : d.tokens ≠ [] := fun h => hnone (by rw [h]; rfl)
    have hn : (0 : ℝ) < d.tokens.length := by exact_mod_cast Nat.pos_of_ne_zero hnone
    obtain ⟨hpeak, hmax⟩ := peakOf_spec hsound
    refine ⟨htokens, ?_, ?_, ?_, hmax, ?_⟩
    · have hmean : InUnit (sum (d.tokens.map (·.risk)) / fin ((d.tokens.map (·.risk)).length : ℝ)) := by
        refine mean_inUnit (by simpa using hne) fun r hr => ?_
        obtain ⟨u, hu, rfl⟩ := List.mem_map.mp hr
        exact (hsound u hu).risk
      rwa [List.length_map] at hmean
    · obtain ⟨s, hs⟩ : ∃ s : ℝ, sum (d.tokens.map (·.entropy)) = fin s := by
        refine exists_sum fun h hh => ?_
        obtain ⟨u, hu, rfl⟩ := List.mem_map.mp hh
        exact (hsound u hu).entropy
      have hvocab : (1 : ℝ) < (max d.vocab 2 : ℕ) := by
        exact_mod_cast Nat.lt_of_lt_of_le one_lt_two (le_max_right d.vocab 2)
      dsimp only
      rw [hs, Extended.fin_div_fin hn.ne', Extended.ln_pos (one_pos.trans hvocab),
        Extended.fin_div_fin (Real.log_pos hvocab).ne']
      exact clamp_inUnit _
    · dsimp only
      rw [Extended.fin_div_fin hn.ne']
      refine ⟨_, rfl, div_nonneg (Nat.cast_nonneg _) hn.le, (div_le_one hn).mpr ?_⟩
      exact_mod_cast hrisky.trans_eq hlen.symm
    · exact hpeak.trans (by rw [← List.length_eq_zero_iff, hlen, List.length_eq_zero_iff])

/-- The scan tells the truth about the softmax exactly where there are two logits, and a report over
any rows keeps to its ranges and finds a token of maximal entropy. -/
theorem uncertainty_ofSoftmax (hrow : IsRow logits) (chosen : ℕ) (cfg : DetectorConfig)
    {rows : List (List (Extended ℝ) × ℕ)} (hrows : ∀ row ∈ rows, IsRow row.1) :
    (OfSoftmax logits chosen (tokenUncertainty logits chosen) ↔ 2 ≤ logits.length) ∧
      ReportHolds rows (Detector.observed cfg rows).report :=
  ⟨ofSoftmax_iff hrow chosen, report_holds cfg hrows⟩

/-- A masked token, and another one likelier than the chosen one. -/
theorem uncertainty_ofSoftmax_masked :
    (OfSoftmax [fin 1, bot, fin 2] 0 (tokenUncertainty [fin 1, bot, fin 2] 0) ↔
        2 ≤ [fin 1, bot, fin (2 : ℝ)].length) ∧
      ReportHolds [([fin 1, bot, fin 2], 0)]
        (Detector.observed ⟨fin 2, fin (2 / 5)⟩ [([fin 1, bot, fin 2], 0)]).report := by
  have hrow : IsRow [fin 1, bot, fin 2] := ⟨by simp, by simp, 1, by simp⟩
  refine uncertainty_ofSoftmax hrow 0 ⟨fin 2, fin (2 / 5)⟩ fun row hmem => ?_
  rw [List.mem_singleton.mp hmem]
  exact hrow

/-- A row of one logit, chosen: the margin is infinite. -/
theorem uncertainty_single_logit :
    ¬ ∀ (logits : List (Extended ℝ)) (chosen : ℕ), IsRow logits → chosen < logits.length →
      OfSoftmax logits chosen (tokenUncertainty logits chosen) := by
  intro hall
  obtain ⟨m, hm, -⟩ := (hall [fin 0] 0 ⟨by simp, by simp, 0, by simp⟩ (by decide)).margin_range
  have hzero : ((0 : ℝ) : WithBot ℝ) ∈ [((0 : ℝ) : WithBot ℝ)] := List.mem_singleton_self _
  rw [show [fin 0] = [((0 : ℝ) : WithBot ℝ)].map ofWithBot from rfl,
    margin_singleton _ hzero] at hm
  cases hm

end Zllm.Hallucination

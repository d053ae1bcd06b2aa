import Zllm.Engine.Logprobs
import Zllm.Lib.Entropy

/-!
# Token uncertainty

`engine/hallucination.rs`: what a step's distribution says about its token, and the report over a
generation. Floats are exact numbers with the two infinities.
-/

namespace Zllm.Hallucination

open Extended (fin bot nan exp ln maxNum clamp ofWithBot)
open Logprobs (sum weight)
open Entropy (entropy topTwo TwoLargest Distribution)

structure TokenUncertainty where
  token : ℕ
  entropy : Extended ℝ
  maxProb : Extended ℝ
  margin : Extended ℝ
  chosenLogprob : Extended ℝ

noncomputable def TokenUncertainty.risk (u : TokenUncertainty) : Extended ℝ :=
  clamp (1 - u.maxProb) 0 1

structure DetectorConfig where
  entropyThreshold : Extended ℝ
  maxProbThreshold : Extended ℝ

structure HallucinationReport where
  riskScore : Extended ℝ
  meanEntropy : Extended ℝ
  normalizedEntropy : Extended ℝ
  riskyFraction : Extended ℝ
  peakToken : Option ℕ
  nTokens : ℕ
  perToken : List TokenUncertainty

structure Detector where
  cfg : DetectorConfig
  vocab : ℕ
  tokens : List TokenUncertainty
  risky : ℕ

/-! ### One token -/

/-- What the loop over the logits carries. -/
structure Scan where
  entropy : Extended ℝ
  top1 : Extended ℝ
  top2 : Extended ℝ

noncomputable def scanLogit (max inv lnSum : Extended ℝ) (st : Scan) (l : Extended ℝ) : Scan :=
  let p := exp (l - max) * inv
  let entropy := if 0 < p then st.entropy - p * ((l - max) - lnSum) else st.entropy
  if st.top1 < p then { entropy, top1 := p, top2 := st.top1 }
  else if st.top2 < p then { entropy, top1 := st.top1, top2 := p }
  else { st with entropy }

noncomputable def tokenUncertainty (logits : List (Extended ℝ)) (chosen : ℕ) : TokenUncertainty :=
  if logits.isEmpty then
    { token := chosen, entropy := 0, maxProb := 0, margin := 0, chosenLogprob := bot }
  else
    let max := logits.foldl maxNum bot
    let total := sum (logits.map fun l => exp (l - max))
    let inv := 1 / total
    let lnSum := ln total
    let st := logits.foldl (scanLogit max inv lnSum) { entropy := 0, top1 := bot, top2 := bot }
    let chosenP := (logits[chosen]?).elim 0 fun l => exp (l - max) * inv
    { token := chosen
      entropy := maxNum st.entropy 0
      maxProb := maxNum st.top1 0
      margin := maxNum (st.top1 - st.top2) 0
      chosenLogprob := if 0 < chosenP then ln chosenP else bot }

/-! ### A generation -/

namespace Detector

def new (cfg : DetectorConfig) : Detector := { cfg, vocab := 0, tokens := [], risky := 0 }

noncomputable def observe (d : Detector) (logits : List (Extended ℝ)) (chosen : ℕ) : Detector :=
  let u := tokenUncertainty logits chosen
  { d with
    vocab := logits.length
    risky := if d.cfg.entropyThreshold < u.entropy ∨ u.maxProb < d.cfg.maxProbThreshold
      then d.risky + 1 else d.risky
    tokens := d.tokens ++ [u] }

/-- `max_by` over entropies: the later of two that are equal or do not compare. -/
noncomputable def maxByEntropy (best x : TokenUncertainty × ℕ) : TokenUncertainty × ℕ :=
  if x.1.entropy < best.1.entropy then best else x

noncomputable def peakOf (tokens : List TokenUncertainty) : Option ℕ :=
  match tokens.zipIdx with
  | [] => none
  | x :: rest => some (rest.foldl maxByEntropy x).2

noncomputable def report (d : Detector) : HallucinationReport :=
  let n := d.tokens.length
  if n = 0 then
    { riskScore := 0, meanEntropy := 0, normalizedEntropy := 0, riskyFraction := 0,
      peakToken := none, nTokens := 0, perToken := [] }
  else
    let meanEntropy := sum (d.tokens.map (·.entropy)) / fin (n : ℝ)
    let lnVocab := ln (fin ((max d.vocab 2 : ℕ) : ℝ))
    { riskScore := sum (d.tokens.map (·.risk)) / fin (n : ℝ)
      meanEntropy
      normalizedEntropy := clamp (meanEntropy / lnVocab) 0 1
      riskyFraction := fin (d.risky : ℝ) / fin (n : ℝ)
      peakToken := peakOf d.tokens
      nTokens := n
      perToken := d.tokens }

/-- A detector after these observations. -/
noncomputable def observed (cfg : DetectorConfig) (rows : List (List (Extended ℝ) × ℕ)) :
    Detector :=
  rows.foldl (fun d row => d.observe row.1 row.2) (new cfg)

end Detector

/-! ### The softmax distribution -/

/-- `exp`, where the lower infinity counts nothing. -/
noncomputable def mass : Extended ℝ → ℝ
  | fin x => Real.exp x
  | _ => 0

noncomputable def softmax (logits : List (Extended ℝ)) : List ℝ :=
  logits.map fun l => mass l / (logits.map mass).sum

/-- A row of finite logits and lower infinities, not all infinite. -/
structure IsRow (logits : List (Extended ℝ)) : Prop where
  nan : nan ∉ logits
  top : Extended.top ∉ logits
  finite : ∃ x, fin x ∈ logits

/-- `u` tells the truth about the softmax of `logits`. -/
structure OfSoftmax (logits : List (Extended ℝ)) (chosen : ℕ) (u : TokenUncertainty) : Prop where
  entropy_eq : u.entropy = fin (-((softmax logits).map fun p => p * Real.log p).sum)
  entropy_range : ∃ h, u.entropy = fin h ∧ 0 ≤ h ∧ h ≤ Real.log logits.length
  maxProb : ∃ p ∈ softmax logits, u.maxProb = fin p ∧ ∀ q ∈ softmax logits, q ≤ p
  margin_eq : ∀ p1 p2, TwoLargest p1 p2 (softmax logits) → u.margin = fin (p1 - p2)
  margin_range : ∃ m, u.margin = fin m ∧ 0 ≤ m ∧ m ≤ 1
  chosenLogprob : ∀ p, (softmax logits)[chosen]? = some p → u.chosenLogprob = ln (fin p)

/-- A number between zero and one. -/
def InUnit (x : Extended ℝ) : Prop := ∃ r, x = fin r ∧ 0 ≤ r ∧ r ≤ 1

/-- What a report over `rows` keeps to. -/
structure ReportHolds (rows : List (List (Extended ℝ) × ℕ)) (r : HallucinationReport) : Prop where
  perToken : r.perToken = rows.map fun row => tokenUncertainty row.1 row.2
  riskScore : InUnit r.riskScore
  normalizedEntropy : InUnit r.normalizedEntropy
  riskyFraction : InUnit r.riskyFraction
  peakToken : ∀ i, r.peakToken = some i →
    ∃ u, r.perToken[i]? = some u ∧ ∀ v ∈ r.perToken, v.entropy ≤ u.entropy
  peak_none : r.peakToken = none ↔ rows = []

/-! ### The distribution -/

section

variable {ws : List (WithBot ℝ)} {x : ℝ}

theorem mass_ofWithBot (w : WithBot ℝ) : mass (ofWithBot w) = weight w := by
  induction w using WithBot.recBotCoe <;> rfl

/-- A logit's probability. -/
noncomputable def prob (ws : List (WithBot ℝ)) (w : WithBot ℝ) : ℝ := weight w / (ws.map weight).sum

theorem softmax_map (ws : List (WithBot ℝ)) : softmax (ws.map ofWithBot) = ws.map (prob ws) := by
  have hmass : (ws.map ofWithBot).map mass = ws.map weight := by
    simp only [List.map_map, Function.comp_def, mass_ofWithBot]
  simp only [softmax, hmass, List.map_map, Function.comp_def, mass_ofWithBot]
  rfl

theorem distribution_prob (hx : (x : WithBot ℝ) ∈ ws) : Distribution (ws.map (prob ws)) where
  nonneg := by
    intro p hp
    obtain ⟨w, -, rfl⟩ := List.mem_map.mp hp
    exact div_nonneg (Logprobs.weight_nonneg w) (Logprobs.sum_weight_pos hx).le
  sum_eq := by
    have hmap : ws.map (prob ws) = ws.map fun w => weight w * (ws.map weight).sum⁻¹ := by
      refine List.map_congr_left fun w _ => ?_
      rw [prob, div_eq_mul_inv]
    rw [hmap, List.sum_map_mul_right, mul_inv_cancel₀ (Logprobs.sum_weight_pos hx).ne']

end

end Zllm.Hallucination

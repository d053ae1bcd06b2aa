import Zllm.Lib.Rounding

/-!
# The reasoning budget

`engine/reasoning_budget.rs`, and the estimators that the number of reasoning loops comes from, in
rounded arithmetic.
-/

namespace Zllm.Reasoning

open Extended (fin ofRat minNum clamp toUsize)

abbrev Tensor := List (Extended ℝ)

structure ReasoningBudget where
  maxLoops : ℕ
  maxMemoryMb : ℕ
  confidenceThreshold : Extended ℝ
  perTokenAdaptive : Bool

structure ReasoningState where
  loopsUsed : ℕ
  memoryUsedMb : ℕ
  currentConfidence : Extended ℝ
  tokenImportances : List (Extended ℝ)

namespace ReasoningBudget

def shouldContinue (b : ReasoningBudget) (s : ReasoningState) : Prop :=
  ¬ b.maxLoops ≤ s.loopsUsed ∧ ¬ b.maxMemoryMb ≤ s.memoryUsedMb ∧
    ¬ b.confidenceThreshold ≤ s.currentConfidence

noncomputable instance (b : ReasoningBudget) (s : ReasoningState) :
    Decidable (b.shouldContinue s) :=
  inferInstanceAs (Decidable (_ ∧ _ ∧ _))

noncomputable def fromTier (q : Rounding) (tier : String) : ReasoningBudget :=
  match tier with
  | "free" =>
    { maxLoops := 2, maxMemoryMb := 64, confidenceThreshold := q.lit (4 / 5),
      perTokenAdaptive := false }
  | "standard" =>
    { maxLoops := 8, maxMemoryMb := 256, confidenceThreshold := q.lit (9 / 10),
      perTokenAdaptive := true }
  | "premium" =>
    { maxLoops := 16, maxMemoryMb := 512, confidenceThreshold := q.lit (19 / 20),
      perTokenAdaptive := true }
  | _ =>
    { maxLoops := 4, maxMemoryMb := 128, confidenceThreshold := q.lit (9 / 10),
      perTokenAdaptive := false }

/-- In megabytes, of two bytes for each number. -/
def estimateMemoryPerLoop (seqLen dModel reasoningLayers : ℕ) : ℕ :=
  reasoningLayers * seqLen * dModel * 2 / (1024 * 1024)

end ReasoningBudget

namespace ReasoningState

noncomputable def new (seqLen : ℕ) : ReasoningState :=
  { loopsUsed := 0, memoryUsedMb := 0, currentConfidence := 0,
    tokenImportances := List.replicate seqLen (ofRat (1 / 2)) }

def recordLoop (s : ReasoningState) (memoryMb : ℕ) (confidence : Extended ℝ) : ReasoningState :=
  { s with loopsUsed := s.loopsUsed + 1, memoryUsedMb := s.memoryUsedMb + memoryMb,
           currentConfidence := confidence }

end ReasoningState

/-! ### Estimators -/

section

variable (q : Rounding)

/-- `ConfidenceHead::estimate`: how far the energy is concentrated in few dimensions. -/
noncomputable def confidence (hidden : Tensor) : Extended ℝ :=
  if hidden.length < 2 then 0
  else
    let sqSum := q.sum (hidden.map fun v => q.mul v v)
    let quadSum := q.sum (hidden.map fun v => q.mul (q.mul v v) (q.mul v v))
    if quadSum < q.lit (1 / 10 ^ 12) ∨ sqSum < q.lit (1 / 10 ^ 12) then 0
    else
      let ipr := q.div (q.mul sqSum sqSum) quadSum
      let n := q.round (fin (hidden.length : ℝ))
      clamp (q.sub 1 (q.div (q.sub ipr 1) (q.sub n 1))) 0 1

/-- `DifficultyEstimator::estimate` -/
noncomputable def difficulty (hidden : Tensor) : ℕ :=
  if hidden.isEmpty then 0
  else
    let difficulty := clamp (q.sub 1 (confidence q hidden)) 0 1
    min (toUsize (q.mul difficulty (q.lit 5))) 4

/-- `DifficultyEstimator::map_to_loops` -/
def mapToLoops : ℕ → ℕ
  | 0 => 1
  | 1 => 2
  | 2 => 4
  | 3 => 8
  | _ => 16

/-- The first two tokens and the last two are raised. -/
noncomputable def boosted (scores : List (Extended ℝ)) : List (Extended ℝ) :=
  if 4 < scores.length then
    scores.mapIdx fun i s =>
      let s := if i < 2 then minNum (q.add s 1) 1 else s
      if scores.length - 2 ≤ i then minNum (q.add s (q.lit (1 / 2))) 1 else s
  else scores

/-- `TokenImportanceScorer::score` -/
noncomputable def importance (hidden : Tensor) (seqLen : ℕ) : List (Extended ℝ) :=
  if seqLen = 0 ∨ hidden.isEmpty then []
  else
    let dModel := hidden.length / seqLen
    if dModel = 0 then List.replicate seqLen (q.lit (1 / 2))
    else
      boosted q <| (List.range seqLen).map fun t =>
        let tokenHidden := (hidden.drop (t * dModel)).take dModel
        let norm := q.sqrt (q.sum (tokenHidden.map fun x => q.mul x x))
        minNum (q.div norm (q.sqrt (q.round (fin (dModel : ℝ))))) 1

/-- `TokenImportanceScorer::average_importance` -/
noncomputable def averageImportance (scores : List (Extended ℝ)) : Extended ℝ :=
  if scores.isEmpty then 0 else q.div (q.sum scores) (q.round (fin (scores.length : ℝ)))

/-- How many reasoning loops `generate` plans. -/
noncomputable def loopsNeeded (budget : ReasoningBudget) (hidden : Tensor)
    (importances : List (Extended ℝ)) : ℕ :=
  if budget.perTokenAdaptive then
    let high := importances.countP fun s => q.lit (7 / 10) ≤ s
    let ratio := q.div (q.round (fin (high : ℝ)))
      (q.round (fin ((max importances.length 1 : ℕ) : ℝ)))
    let adaptive := toUsize (Extended.ceil (q.mul ratio (q.round (fin (budget.maxLoops : ℝ)))))
    min (max adaptive 1) budget.maxLoops
  else
    max (min (mapToLoops (difficulty q hidden)) budget.maxLoops) 1

end

end Zllm.Reasoning

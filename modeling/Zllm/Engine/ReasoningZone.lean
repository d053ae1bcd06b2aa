import Zllm.Engine.ReasoningBudget
import Zllm.Lib.Loop

/-!
# The reasoning zone

`InferenceRunner::generate` of `engine/runner.rs` over any backend, any hooks and any draws of the
sampler. Hooks are called through shared references, so what they change is the world they share.
Inspection snapshots are left out.
-/

namespace Zllm.Reasoning

/-! ### Backends and hooks -/

structure Backend (B ε : Type) where
  nLayers : B → ℕ
  embedTokens : B → List ℕ → Except ε Tensor
  forwardLayer : B → (layerIdx : ℕ) → Tensor → (seqLen : ℕ) → Except ε (Tensor × B)
  computeLogits : B → Tensor → Except ε Tensor

inductive HookAction
  | continue
  | earlyExit (reason : String)
  | modifyState
  | skipRemaining

structure HookContext where
  requestId : String
  tokensGenerated : ℕ
  currentConfidence : Extended ℝ
  storesRemaining : ℕ

noncomputable def HookContext.new (requestId : String) : HookContext :=
  { requestId, tokensGenerated := 0, currentConfidence := 0, storesRemaining := 4 }

/-- What a hook reads and writes. -/
structure Fired (W : Type) where
  hidden : Tensor
  context : HookContext
  world : W

structure Hook (W : Type) where
  targetLayers : W → List ℕ
  onLayer : (layerIdx loopIdx : ℕ) → Fired W → HookAction × Fired W

/-- `HookRegistry::fire` -/
def fire {W : Type} (layerIdx loopIdx : ℕ) : List (Hook W) → Fired W → HookAction × Fired W
  | [], f => (.continue, f)
  | hook :: hooks, f =>
      if layerIdx ∈ hook.targetLayers f.world then
        match hook.onLayer layerIdx loopIdx f with
        | (.earlyExit reason, f) => (.earlyExit reason, f)
        | (.skipRemaining, f) => (.skipRemaining, f)
        | (_, f) => fire layerIdx loopIdx hooks f
      else fire layerIdx loopIdx hooks f

/-! ### The runner -/

structure InferenceRunner (B W ε : Type) where
  /-- The arithmetic of the estimators. -/
  floats : Rounding
  backend : Backend B ε
  hooks : List (Hook W)
  dModel : ℕ
  reasoningLayers : ℕ
  eosTokens : List ℕ
  /-- What the sampler draws from these logits at this step. -/
  draw : (step : ℕ) → Tensor → ℕ

structure GenerationResult where
  tokens : List ℕ
  reasoningLoopsUsed : ℕ
  reasoningMemoryMb : ℕ
  earlyExit : Bool
  avgTokenImportance : Extended ℝ

/-- What the zones carry on. -/
structure Zone (B W : Type) where
  backend : B
  fired : Fired W

/-- The reasoning zone between two of its loops. -/
structure LoopState (B W : Type) where
  loopIdx : ℕ
  state : ReasoningState
  zone : Zone B W

/-- How the reasoning zone is left. -/
structure Reasoned (B W : Type) where
  state : ReasoningState
  zone : Zone B W
  earlyExit : Bool

namespace InferenceRunner

variable {B W ε : Type} (r : InferenceRunner B W ε)

/-- Layers without hooks. -/
def forwardLayers (seqLen : ℕ) : List ℕ → Tensor × B → Except ε (Tensor × B)
  | [], s => .ok s
  | layerIdx :: layers, s => do
      let s ← r.backend.forwardLayer s.2 layerIdx s.1 seqLen
      forwardLayers seqLen layers s

/-- The layers of one reasoning loop. The flag tells whether a hook left it early. -/
noncomputable def reasoningLayersFrom (seqLen loopIdx : ℕ) :
    List ℕ → Zone B W → Except ε (Zone B W × Bool)
  | [], z => .ok (z, false)
  | layerIdx :: layers, z => do
      let s ← r.backend.forwardLayer z.backend layerIdx z.fired.hidden seqLen
      let context := { z.fired.context with currentConfidence := confidence r.floats s.1 }
      match fire layerIdx loopIdx r.hooks { z.fired with hidden := s.1, context } with
      | (.earlyExit _, fired) => return ({ backend := s.2, fired }, true)
      | (_, fired) => reasoningLayersFrom seqLen loopIdx layers { backend := s.2, fired }

/-- What does not change in the reasoning zone. -/
structure Plan where
  budget : ReasoningBudget
  seqLen : ℕ
  nLayers : ℕ
  reasonEnd : ℕ
  nLoopsNeeded : ℕ
  memoryPerLoop : ℕ
  layers : List ℕ

noncomputable def reasoningStep (p : Plan) (l : LoopState B W) :
    Loop.Step (LoopState B W) (Except ε (Reasoned B W)) :=
  if l.loopIdx < p.nLoopsNeeded ∧ p.budget.shouldContinue l.state then
    match r.reasoningLayersFrom p.seqLen l.loopIdx p.layers l.zone with
    | .error e => .done (.error e)
    | .ok (zone, true) => .done (.ok { state := l.state, zone, earlyExit := true })
    | .ok (zone, false) =>
        .more { loopIdx := l.loopIdx + 1
                state := l.state.recordLoop p.memoryPerLoop (confidence r.floats zone.fired.hidden)
                zone }
  else
    .done (.ok { state := l.state, zone := l.zone, earlyExit := false })

/-- The encoding zone, and where the reasoning zone starts. -/
noncomputable def encode (b : B) (world : W) (promptTokens : List ℕ) (budget : ReasoningBudget)
    (requestId : String) : Except ε (Plan × LoopState B W) := do
  let seqLen := promptTokens.length
  let nLayers := r.backend.nLayers b
  let encodeEnd := min 8 nLayers
  let reasonEnd := min (encodeEnd + r.reasoningLayers) nLayers
  let hidden ← r.backend.embedTokens b promptTokens
  let s ← r.forwardLayers seqLen (List.range encodeEnd) (hidden, b)
  let importances := importance r.floats s.1 seqLen
  return (
    { budget, seqLen, nLayers, reasonEnd
      nLoopsNeeded := loopsNeeded r.floats budget s.1 importances
      memoryPerLoop :=
        ReasoningBudget.estimateMemoryPerLoop seqLen r.dModel r.reasoningLayers
      layers := List.range' encodeEnd (reasonEnd - encodeEnd) },
    { loopIdx := 0
      state := { ReasoningState.new seqLen with tokenImportances := importances }
      zone :=
        { backend := s.2
          fired := { hidden := s.1, context := HookContext.new requestId, world } } })

/-- The decode loop: every token takes a forward pass over all tokens so far. -/
def decode (maxTokens nLayers : ℕ) :
    (remaining : ℕ) → (all output : List ℕ) → (logits : Tensor) → B → Except ε (List ℕ)
  | 0, _, output, _, _ => .ok output
  | remaining + 1, all, output, logits, b => do
      let tokenId := r.draw output.length logits
      let output := output ++ [tokenId]
      if tokenId ∈ r.eosTokens ∨ output.length = maxTokens then
        return output
      else
        let all := all ++ [tokenId]
        let hidden ← r.backend.embedTokens b all
        let s ← r.forwardLayers all.length (List.range nLayers) (hidden, b)
        let logits ← r.backend.computeLogits s.2 s.1
        decode maxTokens nLayers remaining all output logits s.2

/-- After the reasoning zone: the output layers, the tokens and the report. -/
noncomputable def finish (promptTokens : List ℕ) (maxTokens : ℕ) (p : Plan) (l : Reasoned B W) :
    Except ε GenerationResult := do
  let s ← r.forwardLayers p.seqLen (List.range' p.reasonEnd (p.nLayers - p.reasonEnd))
    (l.zone.fired.hidden, l.zone.backend)
  let logits ← r.backend.computeLogits s.2 s.1
  let tokens ← r.decode maxTokens p.nLayers maxTokens promptTokens [] logits s.2
  return { tokens
           reasoningLoopsUsed := l.state.loopsUsed
           reasoningMemoryMb := l.state.memoryUsedMb
           earlyExit := l.earlyExit
           avgTokenImportance := averageImportance r.floats l.state.tokenImportances }

/-- `none` where the reasoning zone would not end. -/
noncomputable def generate (b : B) (world : W) (promptTokens : List ℕ) (maxTokens : ℕ)
    (budget : ReasoningBudget) (requestId : String) : Option (Except ε GenerationResult) :=
  match r.encode b world promptTokens budget requestId with
  | .error e => some (.error e)
  | .ok (p, l) =>
      (Loop.run (r.reasoningStep p) (p.nLoopsNeeded + 1) l).map fun reasoned =>
        reasoned.bind (r.finish promptTokens maxTokens p)

end InferenceRunner

end Zllm.Reasoning

import Zllm.Loader.Gguf
import Zllm.Loader.Rotary

/-!
# The three loaders

The candle loader, the wgpu loader and the raw-Vulkan loader, each reading the GGUF in its own
order with its own defaults. A weight is kept with the shape its engine multiplies by, which is
the tensor's own on candle and is put together from metadata and block counts on the GPU lanes.
-/

namespace Zllm.Loader

/-- A matrix as an engine reads it: a shape, and elements row by row. -/
structure Weight where
  dims : List ℕ
  values : List ℚ
deriving DecidableEq

def QTensor.weight (tensor : QTensor) : Weight := { dims := tensor.dims, values := tensor.values }

/-- `shape().dims()[i]` -/
def QTensor.dim (tensor : QTensor) (i : ℕ) : Except LoadError ℕ :=
  match tensor.dims[i]? with
  | some n => .ok n
  | none => .error .panicked

/-- Quantization blocks of 256 in the stored bytes. -/
def QTensor.superBlocks (tensor : QTensor) : ℕ := tensor.values.length / 256

/-! ### The candle loader -/

/-- `DEFAULT_MAX_SEQ_CAP` or the configured cap is `cap`, after the environment override. -/
def effectiveMaxSeq (hp : HParams) (cap : ℕ) : ℕ := min (hp.contextLength.getD 4096) (max cap 512)

def ropeScalingOf (hp : HParams) : RopeScaling :=
  if hp.ropeScalingType = some "linear" then .linear (hp.ropeScalingFactor.getD 1)
  else if hp.ropeScalingType = some "yarn" then
    .yarn (hp.ropeScalingFactor.getD 1) (hp.ropeOrigCtx.getD (hp.contextLength.getD 4096))
  else .none

structure LayerWeights where
  attentionWq : QTensor
  attentionWk : QTensor
  attentionWv : QTensor
  attentionWo : QTensor
  attentionBq : Option (List ℚ)
  attentionBk : Option (List ℚ)
  attentionBv : Option (List ℚ)
  attentionNorm : List ℚ
  feedForwardW1 : QTensor
  feedForwardW2 : QTensor
  feedForwardW3 : QTensor
  ffnNorm : List ℚ

structure ModelWeights where
  tokEmbeddings : QTensor
  embeddingLength : ℕ
  norm : List ℚ
  rmsNormEps : ℚ
  output : QTensor
  nHead : ℕ
  nKvHead : ℕ
  headDim : ℕ
  ropeNeox : Bool
  rope : RopeArgs
  layers : List LayerWeights

/-- Under a switch, load one more thing. -/
def loadWhen {α : Type} (switch : Bool) (load : Except LoadError α) : Except LoadError (Option α) :=
  if switch then do return some (← load) else .ok none

/-- The bias of a projection, read only for a family that has one. -/
def loadBias (gguf : Gguf) (spec : ArchSpec) (name : TensorName) :
    Except LoadError (Option (List ℚ)) :=
  loadWhen spec.qkvBias (QTensor.values <$> gguf.tensor name)

def loadLayerWeights (gguf : Gguf) (spec : ArchSpec) (i : ℕ) : Except LoadError LayerWeights := do
  let attentionWq ← gguf.tensor (.blk i .attnQ)
  let attentionWk ← gguf.tensor (.blk i .attnK)
  let attentionWv ← gguf.tensor (.blk i .attnV)
  let attentionWo ← gguf.tensor (.blk i .attnOutput)
  let attentionBq ← loadBias gguf spec (.blk i .attnQBias)
  let attentionBk ← loadBias gguf spec (.blk i .attnKBias)
  let attentionBv ← loadBias gguf spec (.blk i .attnVBias)
  let feedForwardW1 ← gguf.tensor (.blk i .ffnGate)
  let feedForwardW2 ← gguf.tensor (.blk i .ffnDown)
  let feedForwardW3 ← gguf.tensor (.blk i .ffnUp)
  let attentionNorm ← gguf.tensor (.blk i .attnNorm)
  let ffnNorm ← gguf.tensor (.blk i .ffnNorm)
  return {
    attentionWq, attentionWk, attentionWv, attentionWo
    attentionBq, attentionBk, attentionBv
    attentionNorm := attentionNorm.values
    feedForwardW1, feedForwardW2, feedForwardW3
    ffnNorm := ffnNorm.values
  }

def rejectMoe (hp : HParams) : Except LoadError Unit :=
  if hp.nExpert > 1 then .error (.mixtureOfExperts hp.nExpert) else .ok ()

def requireRmsEps (hp : HParams) (spec : ArchSpec) : Except LoadError ℚ :=
  match hp.rmsEps with
  | some eps => .ok eps
  | none => .error (.missingKey (.hparam spec.arch .rmsEpsilon))

theorem requireRmsEps_eq_ok {hp : HParams} {spec : ArchSpec} {eps : ℚ} :
    requireRmsEps hp spec = .ok eps ↔ hp.rmsEps = some eps := by
  unfold requireRmsEps
  cases hp.rmsEps <;> simp

/-- `from_gguf_requant` with the server's `|_| None`: every tensor is used as stored. -/
def fromGgufRequant (gguf : Gguf) (cap : ℕ) : Except LoadError ModelWeights := do
  let spec ← detect gguf.metadata
  let hp ← HParams.read gguf.metadata spec
  rejectMoe hp
  let headDim ← hp.headDim
  let ropeDim := hp.ropeDim.getD headDim
  let rmsNormEps ← requireRmsEps hp spec
  let freqFactors := (gguf.tensors .ropeFreqs).map QTensor.values
  let tokEmbeddings ← gguf.tensor .tokenEmbd
  let norm ← gguf.tensor .outputNorm
  let output :=
    match gguf.tensor .output with
    | .ok tensor => tensor
    | .error _ => tokEmbeddings
  let layers ← (List.range hp.nLayers).mapM (loadLayerWeights gguf spec)
  return {
    tokEmbeddings
    embeddingLength := hp.nEmbd
    norm := norm.values
    rmsNormEps
    output
    nHead := hp.nHead
    nKvHead := hp.nHeadKv
    headDim
    ropeNeox := spec.ropeNeox
    rope := {
      headDim := ropeDim
      freqBase := hp.ropeFreqBase
      maxSeq := effectiveMaxSeq hp cap
      freqFactors
      scaling := ropeScalingOf hp
    }
    layers
  }

/-! ### The wgpu loader -/

section Gpu

-- `quantize dtype` stands for `QTensor::quantize` to that format, on the elements.
variable (quantize : GgmlDType → List ℚ → List ℚ)

/-- The environment switches of the wgpu LM head. -/
structure GpuEnv where
  lmQ4 : Bool
  lmF32 : Bool

/-- A resident weight: `rows` rows of `cols` elements, whatever the format. -/
structure ResidentWeight where
  rows : ℕ
  cols : ℕ
  values : List ℚ

def ResidentWeight.weight (w : ResidentWeight) : Weight :=
  { dims := [w.rows, w.cols], values := w.values }

/-- `upload_q4k` and `upload_q6k`, which assert the byte length. -/
def uploadBlocks (tensor : QTensor) (rows nbPerRow : ℕ) : Except LoadError ResidentWeight :=
  if tensor.superBlocks = rows * nbPerRow then
    .ok { rows, cols := 256 * nbPerRow, values := tensor.values }
  else .error .panicked

/-- `load_w` -/
def loadW (gguf : Gguf) (name : TensorName) : Except LoadError ResidentWeight := do
  let qt ← gguf.tensor name
  let rows ← qt.dim 0
  let cols ← qt.dim 1
  if qt.dtype = .q4k ∨ qt.dtype = .q6k then uploadBlocks qt rows (cols / 256)
  else throw (.unsupportedDtype name qt.dtype)

/-- `load_norm` -/
def loadNorm (gguf : Gguf) (name : TensorName) : Except LoadError (List ℚ) := do
  return (← gguf.tensor name).values

structure GpuLayer where
  attnNormW : List ℚ
  ffnNormW : List ℚ
  wq : ResidentWeight
  wk : ResidentWeight
  wv : ResidentWeight
  wo : ResidentWeight
  w1 : ResidentWeight
  w2 : ResidentWeight
  w3 : ResidentWeight

structure GpuModel where
  embed : List ℚ
  lmHead : ResidentWeight
  finalNormW : List ℚ
  ropeBase : ℚ
  maxSeq : ℕ
  nEmbd : ℕ
  nHead : ℕ
  nKvHead : ℕ
  headDim : ℕ
  nInter : ℕ
  vocab : ℕ
  eps : ℚ
  layers : List GpuLayer

/-- The LM head is tied to the embedding. -/
def loadLmHead (env : GpuEnv) (embedQt : QTensor) (vocab nEmbd : ℕ) :
    Except LoadError ResidentWeight :=
  let embed := embedQt.values
  if env.lmQ4 then
    if embed.length = vocab * nEmbd ∧ 256 ∣ nEmbd then
      .ok { rows := vocab, cols := 256 * (nEmbd / 256), values := quantize .q4k embed }
    else .error (.badShape .tokenEmbd)
  else if env.lmF32 then
    if embed.length = vocab * nEmbd then .ok { rows := vocab, cols := nEmbd, values := embed }
    else .error .panicked
  else if embedQt.dtype = .q4k ∨ embedQt.dtype = .q6k then uploadBlocks embedQt vocab (nEmbd / 256)
  else .error (.unsupportedDtype .tokenEmbd embedQt.dtype)

def loadGpuLayer (gguf : Gguf) (i : ℕ) : Except LoadError GpuLayer := do
  let attnNormW ← loadNorm gguf (.blk i .attnNorm)
  let ffnNormW ← loadNorm gguf (.blk i .ffnNorm)
  let wq ← loadW gguf (.blk i .attnQ)
  let wk ← loadW gguf (.blk i .attnK)
  let wv ← loadW gguf (.blk i .attnV)
  let wo ← loadW gguf (.blk i .attnOutput)
  let w1 ← loadW gguf (.blk i .ffnGate)
  let w2 ← loadW gguf (.blk i .ffnDown)
  let w3 ← loadW gguf (.blk i .ffnUp)
  return { attnNormW, ffnNormW, wq, wk, wv, wo, w1, w2, w3 }

/-- The context both GPU lanes hold. -/
def gpuMaxSeq : ℕ := 4096

def GpuModel.load (env : GpuEnv) (gguf : Gguf) : Except LoadError GpuModel := do
  let hp ← HParams.read gguf.metadata ArchSpec.llama
  let eps := hp.rmsEps.getD (1 / 100000)
  let headDim ← hp.headDim
  let embedQt ← gguf.tensor .tokenEmbd
  let vocab ← embedQt.dim 0
  let lmHead ← loadLmHead quantize env embedQt vocab hp.nEmbd
  let finalNormW ← loadNorm gguf .outputNorm
  let gate ← gguf.tensor (.blk 0 .ffnGate)
  let nInter ← gate.dim 0
  let layers ← (List.range hp.nLayers).mapM (loadGpuLayer gguf)
  return {
    embed := embedQt.values
    lmHead
    finalNormW
    ropeBase := hp.ropeFreqBase
    maxSeq := gpuMaxSeq
    nEmbd := hp.nEmbd
    nHead := hp.nHead
    nKvHead := hp.nHeadKv
    headDim
    nInter
    vocab
    eps
    layers
  }

/-! ### The raw-Vulkan loader -/

structure VkEnv where
  q3Gateup : Bool
  fusedQkv : Bool

/-- An uploaded buffer and the blocks a row takes in it. The number of rows is the dispatch's. -/
structure VkWeight where
  dtype : GgmlDType
  nb : ℕ
  values : List ℚ

/-- `rows` rows of a buffer at `nb` blocks a row. -/
def blockRows (rows nb : ℕ) (values : List ℚ) : Weight :=
  { dims := [rows, 256 * nb], values }

/-- `load_w`: only the six-bit repacking asserts the byte length. -/
def loadVkW (gguf : Gguf) (name : TensorName) : Except LoadError VkWeight := do
  let qt ← gguf.tensor name
  let nb := (← qt.dim 1) / 256
  if qt.dtype = .q4k then
    return { dtype := .q4k, nb, values := qt.values }
  else if qt.dtype = .q6k then
    if qt.superBlocks = (← qt.dim 0) * nb then return { dtype := .q6k, nb, values := qt.values }
    else throw .panicked
  else throw (.unsupportedDtype name qt.dtype)

def requireQ4 (dtype : GgmlDType) (name : TensorName) : Except LoadError Unit :=
  if dtype = .q4k then .ok () else .error (.unsupportedDtype name dtype)

/-- `load_gateup`: gate and up in one buffer, as stored or in three bits. -/
def loadGateup (gguf : Gguf) (i : ℕ) (asQ3 : Bool) : Except LoadError VkWeight := do
  let g ← gguf.tensor (.blk i .ffnGate)
  let u ← gguf.tensor (.blk i .ffnUp)
  requireQ4 g.dtype (.blk i .ffnGate)
  requireQ4 u.dtype (.blk i .ffnUp)
  let nb := (← g.dim 1) / 256
  if asQ3 then
    if g.dims.tail = u.dims.tail then
      return { dtype := .q3k, nb, values := quantize .q3k (g.values ++ u.values) }
    else throw (.badShape (.blk i .ffnUp))
  else return { dtype := .q4k, nb, values := g.values ++ u.values }

/-- `load_wqk`: query and key rows in one buffer. -/
def loadWqk (gguf : Gguf) (i : ℕ) : Except LoadError (List ℚ) := do
  let wqt ← gguf.tensor (.blk i .attnQ)
  let wkt ← gguf.tensor (.blk i .attnK)
  requireQ4 wqt.dtype (.blk i .attnQ)
  requireQ4 wkt.dtype (.blk i .attnK)
  return wqt.values ++ wkt.values

/-- `vk_up_f16t`: the leading `n * k` elements, read out of range where there are fewer. -/
def uploadF16t (tensor : QTensor) (n k : ℕ) : Except LoadError Weight :=
  if n * k ≤ tensor.values.length then .ok { dims := [n, k], values := tensor.values.take (n * k) }
  else .error .panicked

structure VkLayer where
  attnNorm : List ℚ
  ffnNorm : List ℚ
  wq : VkWeight
  wk : VkWeight
  wv : VkWeight
  wo : VkWeight
  w13 : VkWeight
  /-- The three-bit copy that decode prefers. -/
  w13Q3 : Option VkWeight
  w2 : VkWeight
  wqk : Option (List ℚ)
  /-- The half-precision copies of prefill and verification. -/
  wvF16 : Weight
  w2F16 : Weight

structure VkModelWeights where
  embed : List ℚ
  lmHead : Weight
  lmQ4 : Bool
  finalNorm : List ℚ
  ropeBase : ℚ
  maxSeq : ℕ
  nEmbd : ℕ
  nHead : ℕ
  nKv : ℕ
  hd : ℕ
  nInter : ℕ
  vocab : ℕ
  eps : ℚ
  layers : List VkLayer

/-- The tied head: the six-bit repacking asserts the byte length, the four-bit upload does not. -/
def loadVkLmHead (embedQt : QTensor) (vocab nEmbd : ℕ) : Except LoadError Weight :=
  let lmNb := nEmbd / 256
  if embedQt.dtype = .q6k then
    if embedQt.superBlocks = vocab * lmNb then .ok (blockRows vocab lmNb embedQt.values)
    else .error .panicked
  else if embedQt.dtype = .q4k then .ok (blockRows vocab lmNb embedQt.values)
  else .error (.unsupportedDtype .tokenEmbd embedQt.dtype)

/-- What becomes of one layer in the three passes the source makes over the layers: uploads, the
decode operations, the prefill resources. -/
def loadVkLayer (env : VkEnv) (gguf : Gguf) (nEmbd kvDim nInter i : ℕ) :
    Except LoadError VkLayer := do
  let attnNorm ← loadNorm gguf (.blk i .attnNorm)
  let ffnNorm ← loadNorm gguf (.blk i .ffnNorm)
  let wq ← loadVkW gguf (.blk i .attnQ)
  let wk ← loadVkW gguf (.blk i .attnK)
  let wv ← loadVkW gguf (.blk i .attnV)
  let wo ← loadVkW gguf (.blk i .attnOutput)
  let w13 ← loadGateup quantize gguf i false
  let w13Q3 ← loadWhen env.q3Gateup (loadGateup quantize gguf i true)
  let w2 ← loadVkW gguf (.blk i .ffnDown)
  let wqk ← loadWhen env.fusedQkv (loadWqk gguf i)
  requireQ4 wq.dtype (.blk i .attnQ)
  requireQ4 wk.dtype (.blk i .attnK)
  let wvDeq ← gguf.tensor (.blk i .attnV)
  let w2Deq ← gguf.tensor (.blk i .ffnDown)
  let wvF16 ← uploadF16t wvDeq kvDim nEmbd
  let w2F16 ← uploadF16t w2Deq nEmbd nInter
  requireQ4 wo.dtype (.blk i .attnOutput)
  return { attnNorm, ffnNorm, wq, wk, wv, wo, w13, w13Q3, w2, wqk, wvF16, w2F16 }

def VkModelWeights.load (env : VkEnv) (gguf : Gguf) : Except LoadError VkModelWeights := do
  let hp ← HParams.read gguf.metadata ArchSpec.llama
  let eps := hp.rmsEps.getD (1 / 100000)
  let hd ← hp.headDim
  let kvDim := hp.nHeadKv * hd
  let embedQt ← gguf.tensor .tokenEmbd
  let vocab ← embedQt.dim 0
  let lmHead ← loadVkLmHead embedQt vocab hp.nEmbd
  let finalNorm ← loadNorm gguf .outputNorm
  let gate ← gguf.tensor (.blk 0 .ffnGate)
  let nInter ← gate.dim 0
  let layers ← (List.range hp.nLayers).mapM (loadVkLayer quantize env gguf hp.nEmbd kvDim nInter)
  return {
    embed := embedQt.values
    lmHead
    lmQ4 := decide (embedQt.dtype = .q4k)
    finalNorm
    ropeBase := hp.ropeFreqBase
    maxSeq := gpuMaxSeq
    nEmbd := hp.nEmbd
    nHead := hp.nHead
    nKv := hp.nHeadKv
    hd
    nInter
    vocab
    eps
    layers
  }

end Gpu

end Zllm.Loader

import Zllm.Lib.Outcome
import Mathlib.Data.Rat.Defs
import Mathlib.Algebra.BigOperators.Group.List.Basic

/-!
# GGUF files and the architecture registry

What the three loaders read of a GGUF: a metadata map, hyperparameters under the key prefix of an
architecture, and named quantized tensors. Numbers are exact, so an `f32` is the rational it denotes
and a tensor is the list of its dequantized elements.
-/

namespace Zllm.Loader

/-! ### Metadata -/

/-- A metadata value. Every variant the loaders' three readers refuse is `other`. -/
inductive Value where
  | u32 (v : ℕ)
  | f32 (v : ℚ)
  | string (s : String)
  | other
deriving DecidableEq

namespace Value

def toU32 : Value → Option ℕ
  | u32 v => some v
  | _ => none

def toF32 : Value → Option ℚ
  | f32 v => some v
  | _ => none

def asString : Value → Option String
  | string s => some s
  | _ => none

end Value

/-- The architecture names that prefix metadata keys. -/
inductive ArchName where
  | llama
  | qwen2
deriving DecidableEq

def ArchName.text : ArchName → String
  | llama => "llama"
  | qwen2 => "qwen2"

/-- What follows the architecture name in a metadata key. -/
inductive Field where
  | headCount
  | blockCount
  | embeddingLength
  | headCountKv
  | ropeDimensionCount
  | keyLength
  | rmsEpsilon
  | ropeFreqBase
  | contextLength
  | ropeScalingType
  | ropeScalingFactor
  | ropeOriginalContextLength
  | expertCount
deriving DecidableEq

def Field.text : Field → String
  | headCount => "attention.head_count"
  | blockCount => "block_count"
  | embeddingLength => "embedding_length"
  | headCountKv => "attention.head_count_kv"
  | ropeDimensionCount => "rope.dimension_count"
  | keyLength => "attention.key_length"
  | rmsEpsilon => "attention.layer_norm_rms_epsilon"
  | ropeFreqBase => "rope.freq_base"
  | contextLength => "context_length"
  | ropeScalingType => "rope.scaling.type"
  | ropeScalingFactor => "rope.scaling.factor"
  | ropeOriginalContextLength => "rope.scaling.original_context_length"
  | expertCount => "expert_count"

inductive MetaKey where
  | architecture
  | hparam (arch : ArchName) (field : Field)
deriving DecidableEq

def MetaKey.text : MetaKey → String
  | architecture => "general.architecture"
  | hparam arch field => arch.text ++ "." ++ field.text

abbrev Metadata := MetaKey → Option Value

/-! ### Tensors -/

inductive GgmlDType where
  | f32 | f16 | bf16
  | q4_0 | q4_1 | q5_0 | q5_1 | q8_0 | q8_1
  | q2k | q3k | q4k | q5k | q6k | q8k
deriving DecidableEq

/-- Elements in one quantization block. -/
def GgmlDType.blockSize : GgmlDType → ℕ
  | f32 | f16 | bf16 => 1
  | q4_0 | q4_1 | q5_0 | q5_1 | q8_0 | q8_1 => 32
  | q2k | q3k | q4k | q5k | q6k | q8k => 256

/-- The tensors of one layer, `blk.{i}.{..}`. -/
inductive BlockTensor where
  | attnNorm | ffnNorm
  | attnQ | attnK | attnV | attnOutput
  | attnQBias | attnKBias | attnVBias
  | ffnGate | ffnDown | ffnUp
deriving DecidableEq

inductive TensorName where
  | tokenEmbd
  | output
  | outputNorm
  | ropeFreqs
  | blk (layer : ℕ) (tensor : BlockTensor)
deriving DecidableEq

/-- A stored tensor: its elements after dequantization, row by row. The reader refuses a shape
whose last dimension is not whole blocks. -/
structure QTensor where
  dtype : GgmlDType
  dims : List ℕ
  values : List ℚ
  length_values : values.length = dims.prod
  blockSize_dvd : dtype.blockSize ∣ dims.getLastD 0

structure Gguf where
  metadata : Metadata
  tensors : TensorName → Option QTensor

/-! ### Errors -/

inductive LoadError where
  /-- `GGUF metadata missing {key}` -/
  | missingKey (key : MetaKey)
  /-- `GGUF metadata {key}: {e}` -/
  | badKey (key : MetaKey)
  /-- `unsupported GGUF architecture {arch}` -/
  | unsupportedArchitecture (arch : String)
  /-- `MoE GGUF (expert_count = {n}) is not supported` -/
  | mixtureOfExperts (experts : ℕ)
  | missingTensor (name : TensorName)
  | unsupportedDtype (name : TensorName) (dtype : GgmlDType)
  /-- `Tensor::from_vec`, `Tensor::cat` or `QTensor::quantize` refused a shape. -/
  | badShape (name : TensorName)
  /-- An assertion, an index out of range or a division by zero. -/
  | panicked

def Gguf.tensor (gguf : Gguf) (name : TensorName) : Except LoadError QTensor :=
  match gguf.tensors name with
  | some tensor => .ok tensor
  | none => .error (.missingTensor name)

/-- The shape a name is stored with, empty for an absent tensor. -/
def Gguf.dims (gguf : Gguf) (name : TensorName) : List ℕ :=
  ((gguf.tensors name).map QTensor.dims).getD []

theorem Gguf.tensor_eq_ok {gguf : Gguf} {name : TensorName} {tensor : QTensor} :
    gguf.tensor name = .ok tensor ↔ gguf.tensors name = some tensor := by
  unfold Gguf.tensor
  cases gguf.tensors name <;> simp

theorem Gguf.dims_of_tensor {gguf : Gguf} {name : TensorName} {tensor : QTensor}
    (htensor : gguf.tensor name = .ok tensor) : gguf.dims name = tensor.dims := by
  simp [Gguf.dims, Gguf.tensor_eq_ok.mp htensor]

/-! ### The architecture registry -/

structure ArchSpec where
  arch : ArchName
  /-- Q/K/V projections carry additive biases. -/
  qkvBias : Bool
  /-- Half-split instead of interleaved rotary pairs. -/
  ropeNeox : Bool
deriving DecidableEq

namespace ArchSpec

def llama : ArchSpec := { arch := .llama, qkvBias := false, ropeNeox := false }

def qwen2 : ArchSpec := { arch := .qwen2, qkvBias := true, ropeNeox := true }

end ArchSpec

def eqIgnoreAsciiCase (a b : String) : Bool :=
  a.toList.map Char.toLower == b.toList.map Char.toLower

def specFor (arch : String) : Option ArchSpec :=
  if eqIgnoreAsciiCase arch ArchSpec.llama.arch.text then some ArchSpec.llama
  else if eqIgnoreAsciiCase arch ArchSpec.qwen2.arch.text then some ArchSpec.qwen2
  else none

/-- A GGUF without `general.architecture` is treated as llama. -/
def detect (md : Metadata) : Except LoadError ArchSpec :=
  let arch := ((md .architecture).bind Value.asString).getD "llama"
  match specFor arch with
  | some spec => .ok spec
  | none => .error (.unsupportedArchitecture arch)

theorem detect_cases {md : Metadata} {spec : ArchSpec} (hdetect : detect md = .ok spec) :
    spec = ArchSpec.llama ∨ spec = ArchSpec.qwen2 := by
  simp only [detect, specFor] at hdetect
  split at hdetect
  next hspec =>
    split_ifs at hspec
    · exact .inl (by rw [← Except.ok.inj hdetect, ← Option.some.inj hspec])
    · exact .inr (by rw [← Except.ok.inj hdetect, ← Option.some.inj hspec])
  next => cases hdetect

/-! ### Hyperparameters -/

structure HParams where
  nLayers : ℕ
  nEmbd : ℕ
  nHead : ℕ
  nHeadKv : ℕ
  ropeDim : Option ℕ
  /-- The explicit `attention.key_length`. -/
  keyLength : Option ℕ
  rmsEps : Option ℚ
  ropeFreqBase : ℚ
  contextLength : Option ℕ
  ropeScalingType : Option String
  ropeScalingFactor : Option ℚ
  ropeOrigCtx : Option ℕ
  /-- `0` is dense. -/
  nExpert : ℕ

namespace HParams

def reqU (md : Metadata) (key : MetaKey) : Except LoadError ℕ :=
  match md key with
  | none => .error (.missingKey key)
  | some value =>
    match value.toU32 with
    | some v => .ok v
    | none => .error (.badKey key)

def optU (md : Metadata) (key : MetaKey) : Option ℕ := (md key).bind Value.toU32

def optF (md : Metadata) (key : MetaKey) : Option ℚ := (md key).bind Value.toF32

def read (md : Metadata) (spec : ArchSpec) : Except LoadError HParams := do
  let key := MetaKey.hparam spec.arch
  let nHead ← reqU md (key .headCount)
  let nLayers ← reqU md (key .blockCount)
  let nEmbd ← reqU md (key .embeddingLength)
  return {
    nLayers
    nEmbd
    nHead
    nHeadKv := (optU md (key .headCountKv)).getD nHead
    ropeDim := optU md (key .ropeDimensionCount)
    keyLength := optU md (key .keyLength)
    rmsEps := optF md (key .rmsEpsilon)
    ropeFreqBase := (optF md (key .ropeFreqBase)).getD 10000
    contextLength := optU md (key .contextLength)
    ropeScalingType := (md (key .ropeScalingType)).bind Value.asString
    ropeScalingFactor := optF md (key .ropeScalingFactor)
    ropeOrigCtx := optU md (key .ropeOriginalContextLength)
    nExpert := (optU md (key .expertCount)).getD 0
  }

/-- The explicit width, else `n_embd / n_head`. The quotient is computed either way. -/
def headDim (hp : HParams) : Except LoadError ℕ :=
  if hp.nHead = 0 then .error .panicked
  else .ok (hp.keyLength.getD (hp.nEmbd / hp.nHead))

end HParams

end Zllm.Loader

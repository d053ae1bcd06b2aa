import Zllm.Loader.Loaders

/-!
# Files of any size

A Llama GGUF of given widths, all of whose tensors are constant and of the shapes its metadata
declare, and what the GPU lanes load from it.
-/

namespace Zllm.Loader

open Outcome

/-- A four-bit matrix with one value everywhere. -/
def constMatrix (value : ℚ) (rows blocks : ℕ) : QTensor where
  dtype := .q4k
  dims := [rows, 256 * blocks]
  values := List.replicate (rows * (256 * blocks)) value
  length_values := by simp
  blockSize_dvd := ⟨blocks, rfl⟩

theorem superBlocks_constMatrix (value : ℚ) (rows blocks : ℕ) :
    (constMatrix value rows blocks).superBlocks = rows * (256 * blocks / 256) := by
  rw [QTensor.superBlocks, QTensor.length_values]
  simp only [constMatrix, List.prod_cons, List.prod_nil, mul_one]
  rw [Nat.mul_div_cancel_left _ (by norm_num), mul_left_comm,
    Nat.mul_div_cancel_left _ (by norm_num)]

def storedExactly (_ : GgmlDType) (values : List ℚ) : List ℚ := values

def defaultGpuEnv : GpuEnv := { lmQ4 := false, lmF32 := false }

def defaultVkEnv : VkEnv := { q3Gateup := false, fusedQkv := false }

/-- Widths of a file. Rows that are multiplied by are whole blocks of 256. -/
structure Dims where
  layers : ℕ
  embdBlocks : ℕ
  heads : ℕ
  kvHeads : ℕ
  headDim : ℕ
  attnBlocks : ℕ
  interBlocks : ℕ
  vocab : ℕ

def constVector (length : ℕ) : QTensor where
  dtype := .f32
  dims := [length]
  values := List.replicate length 1
  length_values := by rw [List.length_replicate, List.prod_singleton]
  blockSize_dvd := one_dvd _

def uniformGguf (d : Dims) : Gguf where
  metadata
    | .hparam .llama .headCount => some (.u32 d.heads)
    | .hparam .llama .headCountKv => some (.u32 d.kvHeads)
    | .hparam .llama .blockCount => some (.u32 d.layers)
    | .hparam .llama .embeddingLength => some (.u32 (256 * d.embdBlocks))
    | .hparam .llama .keyLength => some (.u32 d.headDim)
    | _ => none
  tensors
    | .tokenEmbd => some (constMatrix 1 d.vocab d.embdBlocks)
    | .outputNorm | .blk _ .attnNorm | .blk _ .ffnNorm => some (constVector (256 * d.embdBlocks))
    | .blk _ .attnQ => some (constMatrix 1 (d.heads * d.headDim) d.embdBlocks)
    | .blk _ .attnK | .blk _ .attnV => some (constMatrix 1 (d.kvHeads * d.headDim) d.embdBlocks)
    | .blk _ .attnOutput => some (constMatrix 1 (256 * d.embdBlocks) d.attnBlocks)
    | .blk _ .ffnGate | .blk _ .ffnUp => some (constMatrix 1 (256 * d.interBlocks) d.embdBlocks)
    | .blk _ .ffnDown => some (constMatrix 1 (256 * d.embdBlocks) d.interBlocks)
    | _ => none

def uniformHParams (d : Dims) : HParams where
  nLayers := d.layers
  nEmbd := 256 * d.embdBlocks
  nHead := d.heads
  nHeadKv := d.kvHeads
  ropeDim := none
  keyLength := some d.headDim
  rmsEps := none
  ropeFreqBase := 10000
  contextLength := none
  ropeScalingType := none
  ropeScalingFactor := none
  ropeOrigCtx := none
  nExpert := 0

theorem read_uniform (d : Dims) :
    HParams.read (uniformGguf d).metadata ArchSpec.llama = .ok (uniformHParams d) := rfl

theorem headDim_uniform {d : Dims} (hheads : 0 < d.heads) :
    (uniformHParams d).headDim = .ok d.headDim := by
  rw [HParams.headDim, if_neg (show ¬(uniformHParams d).nHead = 0 from hheads.ne')]
  rfl

/-! ### On the wgpu lane -/

/-- `rows` rows of `blocks` blocks of ones. -/
def constResident (rows blocks : ℕ) : ResidentWeight where
  rows := rows
  cols := 256 * blocks
  values := List.replicate (rows * (256 * blocks)) 1

def uniformGpuLayer (d : Dims) : GpuLayer where
  attnNormW := List.replicate (256 * d.embdBlocks) 1
  ffnNormW := List.replicate (256 * d.embdBlocks) 1
  wq := constResident (d.heads * d.headDim) d.embdBlocks
  wk := constResident (d.kvHeads * d.headDim) d.embdBlocks
  wv := constResident (d.kvHeads * d.headDim) d.embdBlocks
  wo := constResident (256 * d.embdBlocks) d.attnBlocks
  w1 := constResident (256 * d.interBlocks) d.embdBlocks
  w2 := constResident (256 * d.embdBlocks) d.interBlocks
  w3 := constResident (256 * d.interBlocks) d.embdBlocks

def uniformGpuModel (d : Dims) : GpuModel where
  embed := List.replicate (d.vocab * (256 * d.embdBlocks)) 1
  lmHead := constResident d.vocab d.embdBlocks
  finalNormW := List.replicate (256 * d.embdBlocks) 1
  ropeBase := 10000
  maxSeq := gpuMaxSeq
  nEmbd := 256 * d.embdBlocks
  nHead := d.heads
  nKvHead := d.kvHeads
  headDim := d.headDim
  nInter := 256 * d.interBlocks
  vocab := d.vocab
  eps := 1 / 100000
  layers := List.replicate d.layers (uniformGpuLayer d)

theorem uploadBlocks_constMatrix (rows blocks : ℕ) :
    uploadBlocks (constMatrix 1 rows blocks) rows (256 * blocks / 256) =
      .ok (constResident rows blocks) := by
  rw [uploadBlocks, if_pos (superBlocks_constMatrix 1 rows blocks),
    Nat.mul_div_cancel_left _ (by norm_num)]
  rfl

theorem loadW_uniform {gguf : Gguf} {name : TensorName} {rows blocks : ℕ}
    (htensor : gguf.tensor name = .ok (constMatrix 1 rows blocks)) :
    loadW gguf name = .ok (constResident rows blocks) := by
  refine bind_eq_ok.mpr ⟨_, htensor, bind_eq_ok.mpr ⟨rows, rfl, bind_eq_ok.mpr
    ⟨256 * blocks, rfl, ?_⟩⟩⟩
  rw [if_pos (.inl rfl)]
  exact uploadBlocks_constMatrix rows blocks

theorem loadGpuLayer_uniform (d : Dims) (i : ℕ) :
    loadGpuLayer (uniformGguf d) i = .ok (uniformGpuLayer d) :=
  bind_eq_ok.mpr ⟨_, rfl, bind_eq_ok.mpr ⟨_, rfl, bind_eq_ok.mpr ⟨_, loadW_uniform rfl,
    bind_eq_ok.mpr ⟨_, loadW_uniform rfl, bind_eq_ok.mpr ⟨_, loadW_uniform rfl,
      bind_eq_ok.mpr ⟨_, loadW_uniform rfl, bind_eq_ok.mpr ⟨_, loadW_uniform rfl,
        bind_eq_ok.mpr ⟨_, loadW_uniform rfl, bind_eq_ok.mpr ⟨_, loadW_uniform rfl, rfl⟩⟩⟩⟩⟩⟩⟩⟩⟩

theorem mapM_range_const {ε α : Type} {f : ℕ → Except ε α} {a : α} (hf : ∀ i, f i = .ok a) (n : ℕ) :
    (List.range n).mapM f = .ok (List.replicate n a) := by
  rw [mapM_eq_ok, List.forall₂_iff_get]
  refine ⟨by rw [List.length_range, List.length_replicate], fun i hi hi' => ?_⟩
  rw [hf]
  simp

theorem gpu_loads_uniform {d : Dims} (hheads : 0 < d.heads) :
    GpuModel.load storedExactly defaultGpuEnv (uniformGguf d) = .ok (uniformGpuModel d) := by
  have hhead : loadLmHead storedExactly defaultGpuEnv (constMatrix 1 d.vocab d.embdBlocks) d.vocab
      (256 * d.embdBlocks) = .ok (constResident d.vocab d.embdBlocks) := by
    rw [loadLmHead, if_neg (by decide), if_neg (by decide), if_pos (.inl rfl)]
    exact uploadBlocks_constMatrix d.vocab d.embdBlocks
  exact bind_eq_ok.mpr ⟨_, read_uniform d, bind_eq_ok.mpr ⟨_, headDim_uniform hheads,
    bind_eq_ok.mpr ⟨_, rfl, bind_eq_ok.mpr ⟨_, rfl, bind_eq_ok.mpr ⟨_, hhead,
      bind_eq_ok.mpr ⟨_, rfl, bind_eq_ok.mpr ⟨_, rfl, bind_eq_ok.mpr ⟨_, rfl,
        bind_eq_ok.mpr ⟨_, mapM_range_const (loadGpuLayer_uniform d) d.layers, rfl⟩⟩⟩⟩⟩⟩⟩⟩⟩

end Zllm.Loader

import Zllm.Gpu.Decoder
import Zllm.Gpu.PagedKernels
import Zllm.Gpu.SingleStream

/-!
# The batched forward, dispatch by dispatch

`write_inputs`, `record_layers` and the two heads over them, on the buffers of a `BatchedDecoder`.
The stores of the pack and of the attention land in any order, so what a command buffer does once it
is accepted is a relation between the buffers before it and after.
-/

namespace Zllm.Gpu.PagedForward

open Tile Loader Workgroup SingleStream
open Paged (Halves Dispatch recordBkvPack recordBdsdpaPaged)

/-- A model whose heads the shaders of the pool address: pairs of dimensions, at most the length of
a thread's array of them. -/
structure PagedModel where
  gpu : GpuModel
  grouped : gpu.nKvHead ∣ gpu.nHead
  headDim_even : Even gpu.headDim
  headDim_le : gpu.headDim ≤ 128

/-- What the dispatches of a `BatchedDecoder` read and write. -/
structure PagedState (W : Type) where
  xB : Buf
  normedB : Buf
  qB : Buf
  kB : Buf
  vB : Buf
  attnB : Buf
  gateB : Buf
  upB : Buf
  hB : Buf
  cosB : Buf
  sinB : Buf
  logitsB : Buf
  posBuf : ℕ → ℕ
  slotsBuf : ℕ → ℕ
  blockTableBuf : ℕ → ℕ
  kPool : ℕ → ℕ → W
  vPool : ℕ → ℕ → W

variable {W : Type} (halves : Halves W) (model : PagedModel) (cfg : PoolConfig)

def dispatch (m : ℕ) : Dispatch where
  nHead := model.gpu.nHead
  nKvHead := model.gpu.nKvHead
  headDim := model.gpu.headDim
  m := m
  blockSize := cfg.blockSize
  maxBlocks := cfg.maxBlocksPerSeq
  grouped := model.grouped
  headDim_even := model.headDim_even
  headDim_le := model.headDim_le
  blockSize_pos := cfg.blockSize_pos

/-! ### Inputs -/

/-- Row `r` of a batch. -/
def rowAt (rows : List Row) (r : ℕ) : Row := rows.getD r ⟨0, 0, 0⟩

/-- What `write_inputs` and `upload_block_table` leave in the input buffers. -/
noncomputable def writeInputs (blocks : BlockState) (rows : List Row) (st : PagedState W) :
    PagedState W :=
  let m := rows.length
  let pairs := half model.gpu
  let xHost := gatherRows model.gpu (rows.map fun row => tokenRow model.gpu row.tok)
  { st with
    xB := writeAt 0 (m * model.gpu.nEmbd) xHost st.xB
    cosB := writeRows pairs 0 m
      (fun r j => cosTable model.gpu ((rowAt rows r).pos * pairs + j)) st.cosB
    sinB := writeRows pairs 0 m
      (fun r j => sinTable model.gpu ((rowAt rows r).pos * pairs + j)) st.sinB
    posBuf := writeAt 0 m (fun r => (rowAt rows r).pos) st.posBuf
    slotsBuf := writeAt 0 m (fun r => (rowAt rows r).slot) st.slotsBuf
    blockTableBuf := writeAt 0 (cfg.mMax * cfg.maxBlocksPerSeq) blocks.tableHost st.blockTableBuf }

/-! ### A layer -/

/-- The rotated queries and keys, and the values. -/
noncomputable def qkv (m : ℕ) (layer : GpuLayer) (st : PagedState W) : PagedState W :=
  let nEmbd := model.gpu.nEmbd
  let normedB := bnorm nEmbd model.gpu.eps m (normWeight layer.attnNormW) st.xB st.normedB
  let qB := gemm layer.wq layer.wq.rows nEmbd m false normedB st.qB
  let kB := gemm layer.wk layer.wk.rows nEmbd m false normedB st.kB
  let vB := gemm layer.wv layer.wv.rows nEmbd m false normedB st.vB
  let qB := brope model.gpu.nHead model.gpu.headDim m st.cosB st.sinB qB
  let kB := brope model.gpu.nKvHead model.gpu.headDim m st.cosB st.sinB kB
  { st with normedB, qB, kB, vB }

/-- `record_bkv_pack` on the pools of layer `l`. -/
def Packs (m l : ℕ) (st st' : PagedState W) : Prop :=
  let D := dispatch model cfg m
  let stores := recordBkvPack halves D st.posBuf st.slotsBuf st.blockTableBuf
  ∃ k v, Leaves (stores st.kB) (st.kPool l) k ∧ Leaves (stores st.vB) (st.vPool l) v ∧
    st' = { st with
      kPool := Function.update st.kPool l k
      vPool := Function.update st.vPool l v }

/-- `record_bdsdpa_paged` on the pools of layer `l`. -/
def Attends (m l : ℕ) (st st' : PagedState W) : Prop :=
  let D := dispatch model cfg m
  ∃ attnB, Leaves (recordBdsdpaPaged halves D st.posBuf st.slotsBuf st.blockTableBuf st.qB
      (st.kPool l) (st.vPool l)) st.attnB attnB ∧
    st' = { st with attnB }

/-- The output projection and the feed-forward block. -/
noncomputable def mix (m : ℕ) (layer : GpuLayer) (st : PagedState W) : PagedState W :=
  let nEmbd := model.gpu.nEmbd
  let nInter := model.gpu.nInter
  let xB := gemm layer.wo layer.wo.rows (attnDim model.gpu) m true st.attnB st.xB
  let normedB := bnorm nEmbd model.gpu.eps m (normWeight layer.ffnNormW) xB st.normedB
  let gateB := gemm layer.w1 layer.w1.rows nEmbd m false normedB st.gateB
  let upB := gemm layer.w3 layer.w3.rows nEmbd m false normedB st.upB
  let hB := siluMul ((m * nInter) ⌈/⌉ 64) (cfg.rowCap * nInter) gateB upB st.hB
  { st with
    normedB, gateB, upB, hB
    xB := gemm layer.w2 layer.w2.rows nInter m true hB xB }

def RecordLayer (m l : ℕ) (layer : GpuLayer) (st st' : PagedState W) : Prop :=
  ∃ packed attended, Packs halves model cfg m l (qkv model m layer st) packed ∧
    Attends halves model cfg m l packed attended ∧ st' = mix model cfg m layer attended

def RecordLayers (m : ℕ) : ℕ → List GpuLayer → PagedState W → PagedState W → Prop
  | _, [], st, st' => st' = st
  | l, layer :: rest, st, st' =>
    ∃ next, RecordLayer halves model cfg m l layer st next ∧ RecordLayers m (l + 1) rest next st'

/-! ### The two heads -/

noncomputable def finalNorm (m : ℕ) (st : PagedState W) : PagedState W :=
  { st with
    normedB := bnorm model.gpu.nEmbd model.gpu.eps m (normWeight model.gpu.finalNormW) st.xB
      st.normedB }

/-- The logits of every row. -/
noncomputable def decodeHead (m : ℕ) (st : PagedState W) : PagedState W :=
  let st := finalNorm model m st
  let head := model.gpu.lmHead
  { st with logitsB := gemm head head.rows model.gpu.nEmbd m false st.normedB st.logitsB }

/-- The logits of the last row, which is moved to the front of the query buffer. -/
noncomputable def prefillHead (m : ℕ) (st : PagedState W) : PagedState W :=
  let st := finalNorm model m st
  let head := model.gpu.lmHead
  let nEmbd := model.gpu.nEmbd
  let st := if 1 < m then
      { st with qB := writeAt 0 nEmbd (fun j => st.normedB ((m - 1) * nEmbd + j)) st.qB }
    else st
  let src := if 1 < m then st.qB else st.normedB
  { st with logitsB := gemm head head.rows nEmbd 1 false src st.logitsB }

/-- `forward_logits` once it is accepted. -/
def ForwardLogits (blocks : BlockState) (rows : List Row) (st st' : PagedState W) : Prop :=
  ∃ mid, RecordLayers halves model cfg rows.length 0 model.gpu.layers
      (writeInputs model cfg blocks rows st) mid ∧
    st' = decodeHead model rows.length mid

/-- `prefill_chunk` once it is accepted. Only the last chunk of a prompt has a head. -/
def PrefillChunk (blocks : BlockState) (rows : List Row) (isLast : Bool) (st st' : PagedState W) :
    Prop :=
  ∃ mid, RecordLayers halves model cfg rows.length 0 model.gpu.layers
      (writeInputs model cfg blocks rows st) mid ∧
    st' = if isLast then prefillHead model rows.length mid else mid

end Zllm.Gpu.PagedForward

import Zllm.Gpu.Kernels
import Zllm.Lib.Workgroup

/-!
# Attention over a pool of blocks

The shader that packs a dispatch's new rows into the block pool, the attention that gathers its keys
through the block table, and the attention over one contiguous cache a slot, as the stores of their
invocations at the addresses they compute. A word of the pool holds two halves, taken as lossless.
-/

namespace Zllm.Gpu.Paged

open Finset Workgroup
open Softmax (Partial)

/-- `pack2x16float` and `unpack2x16float` on the pool's words. -/
structure Halves (W : Type) where
  pack2x16float : ℝ × ℝ → W
  unpack2x16float : W → ℝ × ℝ
  unpack_pack : ∀ v, unpack2x16float (pack2x16float v) = v

/-- The shapes the host passes to its dispatches. -/
structure Dispatch where
  nHead : ℕ
  nKvHead : ℕ
  headDim : ℕ
  /-- The rows, each of a stream of its own. -/
  m : ℕ
  blockSize : ℕ
  maxBlocks : ℕ
  grouped : nKvHead ∣ nHead
  headDim_even : Even headDim
  headDim_le : headDim ≤ 128
  blockSize_pos : 1 ≤ blockSize

namespace Dispatch

variable (D : Dispatch)

def kvDim : ℕ := D.nKvHead * D.headDim

/-- `kvh`, the key head of a query head. -/
def kvh (h : ℕ) : ℕ := h / (D.nHead / D.nKvHead)

/-- `q_base` -/
def qBase (s h : ℕ) : ℕ := s * (D.nHead * D.headDim) + h * D.headDim

/-- `phys_pos`: the cell of position `t` of `slot`. -/
def physPos (blockTable : ℕ → ℕ) (slot t : ℕ) : ℕ :=
  let physBlock := blockTable (slot * D.maxBlocks + t / D.blockSize)
  physBlock * D.blockSize + t % D.blockSize

end Dispatch

variable {W : Type} (halves : Halves W) (D : Dispatch) (posb slots blockTable : ℕ → ℕ)

/-- The element of a pair that dimension `d` is. -/
def half (v : ℝ × ℝ) (d : ℕ) : ℝ := if d % 2 = 0 then v.1 else v.2

/-! ### Packing -/

/-- Invocation `idx` of `BKV_PACK_WGSL`, on one of the two pools. -/
def bkvPack (src : Buf) (idx : ℕ) : List (ℕ × W) :=
  let kd2 := D.kvDim / 2
  if idx ≥ D.m * kd2 then []
  else
    let s := idx / kd2
    let j := idx % kd2
    let from_ := s * D.kvDim + 2 * j
    let dst := D.physPos blockTable (slots s) (posb s) * kd2 + j
    [(dst, halves.pack2x16float (src from_, src (from_ + 1)))]

/-- `record_bkv_pack`, the stores to one of the two pools. -/
def recordBkvPack (src : Buf) : List (ℕ × W) :=
  line 64 ((D.m * D.kvDim / 2) ⌈/⌉ 64) (bkvPack halves D posb slots blockTable src)

/-! ### Attention -/

/-- One key position in a thread's online softmax, on its array `av` of 128. -/
noncomputable def attendStep (width : ℕ) (s : ℝ) (v : ℕ → ℝ) (st : Partial) : Partial :=
  let mNew := max st.mx s
  let corr := Real.exp (st.mx - mNew)
  let pe := Real.exp (s - mNew)
  { mx := mNew
    l := st.l * corr + pe
    av := fun d => if d < width ∧ d < 128 then st.av d * corr + pe * v d else st.av d }

/-- The thread's loop over positions `0 .. seqLen`. -/
noncomputable def attendLoop (width seqLen : ℕ) (score : ℕ → ℝ) (value : ℕ → ℕ → ℝ) : Partial :=
  (List.range seqLen).foldl (fun st t => attendStep width (score t) (value t) st)
    { mx := -1e30, l := 0, av := fun _ => 0 }

/-- The thread's row of the output. -/
noncomputable def outputRow (s h : ℕ) (st : Partial) : List (ℕ × ℝ) :=
  let inv := 1 / st.l
  (List.range D.headDim).map fun d => (D.qBase s h + d, st.av d * inv)

/-- Invocation `idx` of `BDSDPA_PAGED_WGSL`. -/
noncomputable def bdsdpaPaged (q : Buf) (kc vc : ℕ → W) (idx : ℕ) : List (ℕ × ℝ) :=
  if idx ≥ D.m * D.nHead then []
  else
    let s := idx / D.nHead
    let h := idx % D.nHead
    let hd2 := D.headDim / 2
    let scale := 1 / √D.headDim
    let seqLen := posb s + 1
    let kvBase (t : ℕ) : ℕ := (D.physPos blockTable (slots s) t * D.nKvHead + D.kvh h) * hd2
    let sdot (t : ℕ) : ℝ := ∑ j ∈ range hd2,
      let k2 := halves.unpack2x16float (kc (kvBase t + j))
      (q (D.qBase s h + 2 * j) * k2.1 + q (D.qBase s h + 2 * j + 1) * k2.2)
    -- The loop over pairs fills the dimensions `2 * j` and `2 * j + 1`.
    outputRow D s h (attendLoop (2 * hd2) seqLen (fun t => sdot t * scale) fun t d =>
      half (halves.unpack2x16float (vc (kvBase t + d / 2))) d)

/-- `record_bdsdpa_paged` -/
noncomputable def recordBdsdpaPaged (q : Buf) (kc vc : ℕ → W) : List (ℕ × ℝ) :=
  line 64 ((D.m * D.nHead) ⌈/⌉ 64) (bdsdpaPaged halves D posb slots blockTable q kc vc)

/-- Invocation `idx` of `BDSDPA_WGSL`. -/
noncomputable def bdsdpa (maxSeq : ℕ) (q kc vc : Buf) (idx : ℕ) : List (ℕ × ℝ) :=
  if idx ≥ D.m * D.nHead then []
  else
    let s := idx / D.nHead
    let h := idx % D.nHead
    let scale := 1 / √D.headDim
    let seqLen := posb s + 1
    let streamKv := slots s * maxSeq * D.nKvHead * D.headDim
    let kvBase (t : ℕ) : ℕ := streamKv + (t * D.nKvHead + D.kvh h) * D.headDim
    let sdot (t : ℕ) : ℝ := ∑ d ∈ range D.headDim, q (D.qBase s h + d) * kc (kvBase t + d)
    outputRow D s h (attendLoop D.headDim seqLen (fun t => sdot t * scale) fun t d =>
      vc (kvBase t + d))

/-- `record_bdsdpa` -/
noncomputable def recordBdsdpa (maxSeq : ℕ) (q kc vc : Buf) : List (ℕ × ℝ) :=
  line 64 ((D.m * D.nHead) ⌈/⌉ 64) (bdsdpa D posb slots maxSeq q kc vc)

end Zllm.Gpu.Paged

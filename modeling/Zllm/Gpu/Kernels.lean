import Zllm.Llama.Layer
import Zllm.Loader.Loaders

/-!
# The wgpu kernels

Each compute shader as what one dispatch leaves in the buffers it writes. A workgroup's threads and
its reduction tree only order exact sums, so a dot product is a sum. Where the host rounds the
number of workgroups up, the shader's own bound on the index is the one that counts.
-/

namespace Zllm.Gpu

open Finset Tile Loader

/-- A storage buffer of floats. -/
abbrev Buf := ℕ → ℝ

/-- Element `k` of row `row`, dequantized. -/
noncomputable def weightAt (w : ResidentWeight) (row k : ℕ) : ℝ :=
  (w.values.getD (row * w.cols + k) 0 : ℚ)

/-! ### One row at a time -/

/-- `Q4K_MATVEC_WGSL`, `Q6K_MATVEC_WGSL`, `F32_MATVEC_WGSL` with parameters `acc` and `out_base`. -/
noncomputable def matvec (w : ResidentWeight) (acc : Bool) (outBase : ℕ) (x outp : Buf) : Buf :=
  writeAt outBase w.rows (fun row =>
    let dot := ∑ k ∈ range w.cols, weightAt w row k * x k
    if acc then outp (outBase + row) + dot else dot) outp

/-- `act` of the down-projection shaders. -/
noncomputable def act (gate up : Buf) (i : ℕ) : ℝ := gate i / (1 + Real.exp (-gate i)) * up i

/-- `Q4K_DOWN_WGSL`, `Q6K_DOWN_WGSL`: the matvec on the activation computed inline. -/
noncomputable def down (w : ResidentWeight) (acc : Bool) (outBase : ℕ) (gate up outp : Buf) : Buf :=
  matvec w acc outBase (act gate up) outp

/-- `1 / sqrt(mean(x²) + eps)` over the `n` elements from `base` on. -/
noncomputable def normInv (n : ℕ) (eps : ℝ) (x : Buf) (base : ℕ) : ℝ :=
  1 / √((∑ i ∈ range n, x (base + i) * x (base + i)) / n + eps)

/-- `RMSNORM_WGSL` -/
noncomputable def rmsnorm (n : ℕ) (eps : ℝ) (wgt x y : Buf) : Buf :=
  writeAt 0 n (fun i => x i * normInv n eps x 0 * wgt i) y

/-- What the pair rotation leaves at dimension `i` of a row of heads. An odd last dimension is in no
pair. -/
noncomputable def ropeAt (headDim : ℕ) (c s x : Buf) (i : ℕ) : ℝ :=
  let d := i % headDim
  let j := d / 2
  if d < 2 * (headDim / 2) then
    if d % 2 = 0 then x i * c j - x (i + 1) * s j else x (i - 1) * s j + x i * c j
  else x i

/-- `ROPE_WGSL` -/
noncomputable def rope (nHead headDim base : ℕ) (cosb sinb x : Buf) : Buf :=
  writeAt base (nHead * headDim) (ropeAt headDim cosb sinb fun i => x (base + i)) x

/-- The online softmax of the attention shaders, for dimension `d` of query head `h`. -/
noncomputable def sdpaHead (nHead nKvHead headDim seqLen : ℕ) (q kc vc : Buf) (h d : ℕ) : ℝ :=
  let kvh := h / (nHead / nKvHead)
  let scale := 1 / √headDim
  let p := Softmax.online (-1e30)
    (fun t => (∑ e ∈ range headDim,
      q (h * headDim + e) * kc ((t * nKvHead + kvh) * headDim + e)) * scale)
    (fun t e => vc ((t * nKvHead + kvh) * headDim + e)) seqLen
  p.av d * (1 / p.l)

/-- `SDPA_DECODE_WGSL` -/
noncomputable def sdpaDecode (nHead nKvHead headDim seqLen : ℕ) (q kc vc outp : Buf) : Buf :=
  writeAt 0 (nHead * headDim) (fun i =>
    sdpaHead nHead nKvHead headDim seqLen q kc vc (i / headDim) (i % headDim)) outp

/-! ### A tile of rows -/

/-- `Q4K_GEMM_WGSL`, `Q6K_GEMM_WGSL`: a workgroup for each of the weight's rows, all with the
parameters' `n_rows`, `n_cols`, `m_rows` and `acc`. -/
noncomputable def gemm (w : ResidentWeight) (nRows nCols mRows : ℕ) (acc : Bool) (x outp : Buf) :
    Buf :=
  writeRows nRows 0 mRows (fun m n =>
    let out := outp (m * nRows + n)
    let dot := ∑ k ∈ range nCols, (w.values.getD (n * (256 * (nCols / 256)) + k) 0 : ℚ) *
      x (m * nCols + k)
    if n < w.rows then (if acc then out + dot else dot) else out) outp

/-- `BNORM_WGSL` -/
noncomputable def bnorm (n : ℕ) (eps : ℝ) (mRows : ℕ) (wgt x y : Buf) : Buf :=
  writeRows n 0 mRows (fun m i => x (m * n + i) * normInv n eps x (m * n) * wgt i) y

/-- `BROPE_WGSL` -/
noncomputable def brope (nHead headDim mRows : ℕ) (cosb sinb x : Buf) : Buf :=
  writeRows (nHead * headDim) 0 mRows (fun m =>
    ropeAt headDim (fun j => cosb (m * (headDim / 2) + j)) (fun j => sinb (m * (headDim / 2) + j))
      fun i => x (m * (nHead * headDim) + i)) x

/-- `BSDPA_WGSL` -/
noncomputable def bsdpa (nHead nKvHead headDim mRows pos : ℕ) (q kc vc outp : Buf) : Buf :=
  writeRows (nHead * headDim) 0 mRows (fun m i =>
    sdpaHead nHead nKvHead headDim (pos + m + 1) (fun j => q (m * (nHead * headDim) + j)) kc vc
      (i / headDim) (i % headDim)) outp

/-- `SILU_MUL_WGSL` on `groups` workgroups, over buffers of `len` elements. -/
noncomputable def siluMul (groups len : ℕ) (gate up h : Buf) : Buf := fun i =>
  if i < 64 * groups ∧ i < len then act gate up i else h i

/-! ### Argmax -/

/-- A lane's best value and index. -/
abbrev Best := ℝ × ℕ

noncomputable def Best.update (best : Best) (v : ℝ) (i : ℕ) : Best :=
  if best.1 < v then (v, i) else best

/-- Lane `t` of `ARGMAX_WGSL` scans every 256th logit. -/
noncomputable def scanLane (n : ℕ) (logits : Buf) (t : ℕ) : Best :=
  ((List.range n).filter (· % 256 = t)).foldl (fun best k => best.update (logits k) k) (-1e30, 0)

/-- One round of the reduction in shared memory. -/
noncomputable def reduceLanes (lanes : ℕ → Best) (stride t : ℕ) : Best :=
  if t < stride then (lanes t).update (lanes (t + stride)).1 (lanes (t + stride)).2 else lanes t

/-- `ARGMAX_WGSL` -/
noncomputable def argmax (n : ℕ) (logits : Buf) : ℕ :=
  ([128, 64, 32, 16, 8, 4, 2, 1].foldl reduceLanes (scanLane n logits) 0).2

/-- Only the vocabulary's logits are read. -/
theorem argmax_congr {n : ℕ} {logits logits' : Buf} (hlogits : ∀ k < n, logits k = logits' k) :
    argmax n logits = argmax n logits' := by
  have hscan : scanLane n logits = scanLane n logits' := by
    funext t
    refine List.foldl_ext _ _ _ fun best k hk => ?_
    rw [hlogits k (List.mem_range.mp (List.mem_of_mem_filter hk))]
  rw [argmax, argmax, hscan]

end Zllm.Gpu

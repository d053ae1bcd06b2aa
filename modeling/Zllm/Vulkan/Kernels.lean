import Mathlib.Algebra.Order.Floor.Div
import Zllm.Gpu.Kernels

/-!
# The raw-Vulkan kernels

Each compute shader as what one dispatch leaves in the buffer it writes. The host passes the shapes,
so a kernel knows a weight only as blocks in a buffer. Half-precision copies are lossless, and a
masked score of `-1e30` has weight zero, as its exponential has in floats.
-/

namespace Zllm.Vulkan

open Finset Tile Loader Softmax
open Gpu (Buf Best normInv act ropeAt reduceLanes)

/-- Element `i` of a buffer of dequantized blocks. -/
noncomputable def element (values : List ℚ) (i : ℕ) : ℝ := (values.getD i 0 : ℚ)

/-- Row `row` at `nb` blocks a row. -/
noncomputable def rowDot (values : List ℚ) (nb : ℕ) (x : Buf) (row : ℕ) : ℝ :=
  ∑ k ∈ range (256 * nb), element values (row * (256 * nb) + k) * x k

/-! ### Decoding -/

/-- `decode_matvec_q4k.comp`, `decode_matvec_q6k.comp`: `n` rows, added to the output under `acc`.
-/
noncomputable def matvec (n nb : ℕ) (values : List ℚ) (acc : Bool) (x outp : Buf) : Buf :=
  writeAt 0 n (fun row =>
    if acc then outp row + rowDot values nb x row else rowDot values nb x row) outp

/-- `decode_matvec_q4k_rope.comp`: a workgroup for each pair of rows. -/
noncomputable def matvecRope (n nb hf : ℕ) (values : List ℚ) (cosb sinb x outp : Buf) : Buf :=
  let dot := rowDot values nb x
  writeAt 0 (2 * (n / 2)) (fun row =>
    let j := row / 2 % hf
    if row % 2 = 0 then dot row * cosb j - dot (row + 1) * sinb j
    else dot (row - 1) * sinb j + dot row * cosb j) outp

/-- `kv_write.comp` -/
def kvWrite (n base : ℕ) (src dst : Buf) : Buf := writeAt base n src dst

/-- `silu_mul.comp` -/
noncomputable def siluMul (n : ℕ) (gate up h : Buf) : Buf := writeAt 0 n (act gate up) h

/-! ### Attention over the cache -/

section Attention

variable (nHead nKv hd : ℕ) (q kc vc : Buf)

/-- The scaled score of head `h` against position `t`. -/
noncomputable def score (h t : ℕ) : ℝ :=
  (∑ d ∈ range hd, q (h * hd + d) * kc ((t * nKv + h / (nHead / nKv)) * hd + d)) * (1 / √hd)

def value (h t d : ℕ) : ℝ := vc ((t * nKv + h / (nHead / nKv)) * hd + d)

/-- The largest of some scores, from the shaders' `-1e30`. -/
noncomputable def maxOf (keys : Finset ℕ) (score : ℕ → ℝ) : ℝ :=
  (keys.sort (· ≤ ·)).foldl (fun m t => max m (score t)) (-1e30)

/-- `sdpa_decode.comp`: all scores, then their maximum, then the sums. Each of the 64 threads holds
one dimension of a head. -/
noncomputable def sdpaDecode (seqLen : ℕ) (outp : Buf) : Buf := fun i =>
  let h := i / hd
  let keys := range seqLen
  let p := Partial.gather (maxOf keys (score nHead nKv hd q kc h)) keys (score nHead nKv hd q kc h)
    (value nHead nKv hd vc h)
  if i < nHead * hd ∧ i % hd < 64 then p.av (i % hd) / p.l else outp i

/-- `FLASH_MIN_SEQ` -/
def flashMinSeq : ℕ := 256

/-- `SDPA_FLASH_BLOCK`, and `BLOCK` in the shaders. -/
def flashBlock : ℕ := 32

/-- `SDPA_SUPER` -/
def superBlocks : ℕ := 8

/-- A partial as the shaders store it: `hd` sums, then the maximum, then the denominator. -/
def storePartial (p : Partial) (d : ℕ) : ℝ := if d < hd then p.av d else if d = hd then p.mx else p.l

def loadPartial (buf : Buf) (r : ℕ) : Partial where
  mx := buf (r * (hd + 2) + hd)
  l := buf (r * (hd + 2) + hd + 1)
  av := cut hd fun d => buf (r * (hd + 2) + d)

/-- `sdpa_flash_partial2.comp`: a block's scores first. Two dimensions to each of 32 lanes. -/
noncomputable def blockTwoPass (seqLen h blk : ℕ) : Partial :=
  let keys := block flashBlock seqLen blk
  Partial.gather (maxOf keys (score nHead nKv hd q kc h)) keys (score nHead nKv hd q kc h)
    (value nHead nKv hd vc h)

/-- `sdpa_flash_partial.comp`: a block's positions one after the other. -/
noncomputable def blockOnline (seqLen h blk : ℕ) : Partial :=
  let start := blk * flashBlock
  online (-1e30) (fun i => score nHead nKv hd q kc h (start + i))
    (fun i => value nHead nKv hd vc h (start + i)) (min (start + flashBlock) seqLen - start)

/-- Records of `groups` groups of each head, of which the workgroups write the first `grid`. -/
noncomputable def storeGrid (groups grid : ℕ) (p : ℕ → ℕ → Partial) (outp : Buf) : Buf :=
  writeRows (hd + 2) 0 (nHead * groups) (fun r d =>
    if r % groups < grid then storePartial hd (p (r / groups) (r % groups)) d
    else outp (r * (hd + 2) + d)) outp

/-- The partials of `grid` blocks of each head. The two-pass shader is for heads up to 64 wide. -/
noncomputable def flashPartial (seqLen grid : ℕ) (part : Buf) : Buf :=
  storeGrid nHead hd (seqLen ⌈/⌉ flashBlock) grid (fun h blk =>
    if hd ≤ 64 then blockTwoPass nHead nKv hd q kc vc seqLen h blk
    else blockOnline nHead nKv hd q kc vc seqLen h blk) part

end Attention

section Combine

variable (nHead hd nIn chunk : ℕ) (inp : Buf)

/-- Group `sg` of the partials of head `h`, relative to the largest of their maxima. -/
noncomputable def combineGroup (h sg : ℕ) : Partial :=
  let group := block chunk nIn sg
  Partial.merge (maxOf group fun b => (loadPartial hd inp (h * nIn + b)).mx) group fun b =>
    loadPartial hd inp (h * nIn + b)

/-- `sdpa_flash_combine_h.comp` with `final_norm` unset, on `grid` groups of each head. -/
noncomputable def combineSuper (grid : ℕ) (outp : Buf) : Buf :=
  storeGrid nHead hd (nIn ⌈/⌉ chunk) grid (combineGroup hd nIn chunk inp) outp

/-- `sdpa_flash_combine_h.comp` with `final_norm` set, on one group of each head. -/
noncomputable def combineFinal (outp : Buf) : Buf :=
  writeAt 0 (nHead * hd) (fun i =>
    let p := combineGroup hd nIn chunk inp (i / hd) 0
    p.av (i % hd) * (1 / p.l)) outp

end Combine

/-! ### A few rows -/

/-- `batched_matvec_q4k.comp`; with `k` the width of the blocks, `batched_matvec_q6k.comp` too. -/
noncomputable def batchedMatvec (m n k nb : ℕ) (values : Buf) (x outp : Buf) : Buf :=
  writeRows n 0 m (fun r row =>
    ∑ i ∈ range (256 * nb), values (row * (256 * nb) + i) * x (r * k + i)) outp

/-- What `vk_up_f16t` uploads: the leading `n` rows of `k` elements, transposed. -/
noncomputable def transposed (n k : ℕ) (values : List ℚ) : Buf := fun i =>
  element values (i % n * k + i / n)

/-- `batched_matvec_f16.comp` -/
noncomputable def batchedMatvecF16 (m n k : ℕ) (wf x outp : Buf) : Buf :=
  writeRows n 0 m (fun r row => ∑ i ∈ range k, wf (i * n + row) * x (r * k + i)) outp

/-- `residual_add.comp` -/
def residualAdd (n : ℕ) (y x : Buf) : Buf := writeAt 0 n (fun i => x i + y i) x

/-- `bsilu.comp` -/
noncomputable def bsilu (nInter m : ℕ) (gu h : Buf) : Buf :=
  writeRows nInter 0 m (fun r =>
    act (fun i => gu (r * (2 * nInter) + i)) fun i => gu (r * (2 * nInter) + nInter + i)) h

/-! ### Argmax -/

/-- Lane `t` of `argmax.comp`. -/
noncomputable def scanLane (n : ℕ) (logits : Buf) (t : ℕ) : Best :=
  ((List.range n).filter (· % 256 = t)).foldl (fun best k => best.update (logits k) k) (-3.4e38, 0)

/-- `argmax.comp` -/
noncomputable def argmax (n : ℕ) (logits : Buf) : ℕ :=
  ([128, 64, 32, 16, 8, 4, 2, 1].foldl reduceLanes (scanLane n logits) 0).2

/-- Only the vocabulary's logits are read. -/
theorem argmax_congr {n : ℕ} {logits logits' : Buf} (hlogits : ∀ k < n, logits k = logits' k) :
    argmax n logits = argmax n logits' := by
  have hscan : scanLane n logits = scanLane n logits' := by
    funext t
    refine List.foldl_ext _ _ _ fun best k hk => ?_
    rw [hlogits k (List.mem_range.mp (List.mem_of_mem_filter hk))]
  rw [argmax, argmax, hscan]

end Zllm.Vulkan

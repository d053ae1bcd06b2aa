import Zllm.Lib.Workgroup
import Zllm.Vulkan.ForwardPass
import Zllm.Vulkan.VkModel

/-!
# The prefill pass of the raw-Vulkan lane

`prefill_inner` takes a tile of positions through the layers with cooperative-matrix kernels, in the
default environment: products on whole output tiles of 64 or 128, attention for heads of 64
dimensions. Its commands are recorded for the tile's length and position, which is all they depend
on. `prefill_from` cuts a prompt into tiles.
-/

namespace Zllm.Vulkan

open Finset Tile Loader Softmax CausalTower Outcome
open Gpu (Buf GpuError bnorm brope)
open Gpu.SingleStream (normWeight readBuffer)
open Workgroup (grid perform)

/-! ### The kernels -/

/-- A kernel on the `len` elements of a buffer that a descriptor has from `off` on. -/
def window (off len : ℕ) (f : Buf → Buf) (b : Buf) : Buf := writeAt off len (f fun i => b (off + i)) b

/-- `to_f16.comp` -/
def toF16 (n : ℕ) (src dst : Buf) : Buf := writeAt 0 n src dst

/-- `coopmat_q4k_gemm.comp` on `n / 128` by `m / 128` workgroups, in steps of 32 along a row. -/
noncomputable def coopmatQ4kGemm (m n k nb : ℕ) (values : List ℚ) (a c : Buf) : Buf :=
  writeRows n 0 (m / 128 * 128) (fun r col =>
    if col < n / 128 * 128 then
      ∑ i ∈ range (k ⌈/⌉ 32 * 32), a (r * k + i) * element values (col * (256 * nb) + i)
    else c (r * n + col)) c

/-- `coopmat_gemm.comp` on `n / 64` by `m / 64` workgroups, in steps of 16 along a row. -/
noncomputable def coopmatGemm (m n k : ℕ) (b a c : Buf) : Buf :=
  writeRows n 0 (m / 64 * 64) (fun r col =>
    if col < n / 64 * 64 then ∑ i ∈ range (k ⌈/⌉ 16 * 16), a (r * k + i) * b (i * n + col)
    else c (r * n + col)) c

section FlashAttention

variable (m seq pos gqa lda ldkv ldo : ℕ) (scale : ℝ) (q16 k16 v16 : Buf)

/-- Query row `r` of head `h` against the keys up to its own: a head has 64 dimensions here. -/
noncomputable def flashRow (r h : ℕ) : Partial :=
  let keys := range (min seq (pos + r + 1))
  let score t := (∑ d ∈ range 64, q16 (r * lda + h * 64 + d) * k16 (t * ldkv + h / gqa * 64 + d)) *
    scale
  Partial.gather (maxOf keys score) keys score fun t d => v16 (t * ldkv + h / gqa * 64 + d)

/-- The stores of `coopmat_flash_attn.comp`, workgroup `qb` of head `h`. -/
noncomputable def flashStores (qb h : ℕ) : List (ℕ × ℝ) :=
  (List.range 64).flatMap fun rr => (List.range 64).map fun cc =>
    let p := flashRow seq pos gqa lda ldkv scale q16 k16 v16 (qb * 64 + rr) h
    ((qb * 64 + rr) * ldo + h * 64 + cc, p.av cc / p.l)

/-- `coopmat_flash_attn.comp`, whose stores land in some order. -/
noncomputable def coopmatFlashAttn (land : List (ℕ × ℝ) → List (ℕ × ℝ)) (nHead : ℕ) (outp : Buf) :
    Buf :=
  perform (land (grid (m / 64) nHead
    (flashStores seq pos gqa lda ldkv ldo scale q16 k16 v16))) outp

end FlashAttention

/-! ### A layer -/

namespace VkPass

variable (land : List (ℕ × ℝ) → List (ℕ × ℝ)) (model : VkModelWeights)

/-- Norm, then queries, keys and values; keys and values go to the tile's rows of the caches. -/
noncomputable def prefillProject (pos m l : ℕ) (layer : VkLayer) (s : Resident) : Resident :=
  let nb := embdBlocks model
  let kvDim := kvDim model
  let rows := window (pos * kvDim) (m * kvDim)
  let n32 := bnorm model.nEmbd model.eps m (normWeight layer.attnNorm) s.pf.x32 s.pf.n32
  let n16 := toF16 (m * model.nEmbd) n32 s.pf.n16
  let q := coopmatQ4kGemm m model.nEmbd model.nEmbd nb layer.wq.values n16 s.pf.q
  let k := rows (coopmatQ4kGemm m kvDim model.nEmbd nb layer.wk.values n16) (s.kc l)
  let v := rows (coopmatGemm m kvDim model.nEmbd
    (transposed kvDim model.nEmbd layer.wvF16.values) n16) (s.vc l)
  let q := brope model.nHead model.hd m s.pf.cosb s.pf.sinb q
  let k := rows (brope model.nKv model.hd m s.pf.cosb s.pf.sinb) k
  { s with
    kc := Function.update s.kc l k
    vc := Function.update s.vc l v
    pf := { s.pf with n32, n16, q } }

/-- Attention over all resident rows up to each query's own. -/
noncomputable def prefillAttend (pos m : ℕ) (k v : Buf) (pf : PrefillRes) : PrefillRes :=
  let seq := pos + m
  let kvDim := kvDim model
  let attnDim := model.nHead * model.hd
  let q16 := toF16 (m * attnDim) pf.q pf.q16
  let k16 := toF16 (seq * kvDim) k pf.k16
  let v16 := toF16 (seq * kvDim) v pf.v16
  { pf with
    q16, k16, v16
    attn32 := coopmatFlashAttn m seq pos (model.nHead / model.nKv) attnDim kvDim attnDim
      (1 / √model.hd) q16 k16 v16 land model.nHead pf.attn32 }

noncomputable def prefillFeedForward (m : ℕ) (layer : VkLayer) (pf : PrefillRes) : PrefillRes :=
  let nb := embdBlocks model
  let attn16 := toF16 (m * model.nEmbd) pf.attn32 pf.attn16
  let o32 := coopmatQ4kGemm m model.nEmbd model.nEmbd nb layer.wo.values attn16 pf.o32
  let x32 := residualAdd (m * model.nEmbd) o32 pf.x32
  let n32 := bnorm model.nEmbd model.eps m (normWeight layer.ffnNorm) x32 pf.n32
  let n16 := toF16 (m * model.nEmbd) n32 pf.n16
  let gu := coopmatQ4kGemm m (2 * model.nInter) model.nEmbd nb layer.w13.values n16 pf.gu
  let h32 := bsilu model.nInter m gu pf.h32
  let h16 := toF16 (m * model.nInter) h32 pf.h16
  let ffn32 := coopmatGemm m model.nEmbd model.nInter
    (transposed model.nEmbd model.nInter layer.w2F16.values) h16 pf.ffn32
  { pf with attn16, o32, n32, n16, gu, h32, h16, ffn32
            x32 := residualAdd (m * model.nEmbd) ffn32 x32 }

noncomputable def prefillLayer (pos m l : ℕ) (layer : VkLayer) (s : Resident) : Resident :=
  let s := prefillProject model pos m l layer s
  { s with
    pf := prefillFeedForward model m layer (prefillAttend land model pos m (s.kc l) (s.vc l) s.pf) }

/-! ### A tile -/

/-- The embedding rows, zero where the tile is padding, and the rotation of each row. -/
noncomputable def writeTile (tokens : List ℕ) (pos m : ℕ) (s : Resident) : Resident :=
  let half := half model
  { s with pf := { s.pf with
    x32 := writeAt 0 (m * model.nEmbd) (fun i =>
      if i < tokens.length * model.nEmbd then
        tokenRow model (tokens.getD (i / model.nEmbd) 0) (i % model.nEmbd)
      else 0) s.pf.x32
    cosb := writeAt 0 (m * half) (fun i => cosTable model (pos * half + i)) s.pf.cosb
    sinb := writeAt 0 (m * half) (fun i => sinTable model (pos * half + i)) s.pf.sinb } }

/-- The final norm, and the head on the row of the last token, in the format it is stored in. -/
noncomputable def prefillHead (realM m : ℕ) (pf : PrefillRes) : PrefillRes :=
  let n32 := bnorm model.nEmbd model.eps m (normWeight model.finalNorm) pf.x32 pf.n32
  let last := fun i => n32 ((realM - 1) * model.nEmbd + i)
  let values := model.lmHead.values
  { pf with
    n32
    logits := if model.lmQ4 then
        batchedMatvec 1 model.vocab model.nEmbd (embdBlocks model) (element values) last pf.logits
      else matvec model.vocab (embdBlocks model) values false last pf.logits }

/-- What the recorded command does. -/
noncomputable def runTile (tokens : List ℕ) (pos : ℕ) (s : Resident) : Resident :=
  let m := VkModel.paddedM tokens.length
  let s := sweep (prefillLayer land model pos m) 0 model.layers (writeTile model tokens pos m s)
  { s with pf := prefillHead model tokens.length m s.pf }

/-- `prefill_inner`, on at most a tile's tokens. -/
noncomputable def prefillInner (tokens : List ℕ) (pos : ℕ) (s : Resident) :
    Except GpuError (Resident × List ℝ) := do
  check (pos + VkModel.paddedM tokens.length ≤ model.maxSeq)
  tokens.forM (checkToken model)
  checkGrids [model.vocab]
  let s := runTile land model tokens pos s
  return (s, readBuffer s.pf.logits model.vocab)

/-! ### A prompt -/

/-- The loop of `prefill_from`, with `chunks` tiles to go. -/
noncomputable def prefillChunks :
    ℕ → List ℕ → ℕ → Resident × List ℝ → Except GpuError (Resident × List ℝ)
  | 0, _, _, a => .ok a
  | chunks + 1, tokens, pos, a => do
    let b ← prefillInner land model (tokens.take prefillMaxM) pos a.1
    prefillChunks chunks (tokens.drop prefillMaxM) (pos + prefillMaxM) b

noncomputable def prefillFrom (tokens : List ℕ) (start : ℕ) (s : Resident) :
    Except GpuError (Resident × List ℝ) :=
  prefillChunks land model (tokens.length ⌈/⌉ prefillMaxM) tokens start (s, [])

end VkPass

end Zllm.Vulkan

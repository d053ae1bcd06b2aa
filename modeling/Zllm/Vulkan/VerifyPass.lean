import Zllm.Gpu.KernelRows
import Zllm.Vulkan.TokenPass

/-!
# The verification pass of the raw-Vulkan lane

`verify_inner` re-runs every layer with small-batch kernels of its own, over a few rows at once. For
a model of declared shapes it is a tile of positions through the tower that `forward_inner` takes
one position through.
-/

namespace Zllm.Vulkan.VkPass

open Tile Loader Llama CausalTower Outcome
open Gpu (Buf GpuError bnorm brope bsdpa row_bnorm row_brope row_bsdpa rotate_congr)
open Gpu.SingleStream (normWeight)

/-- `VERIFY_MAX_M` -/
def verifyMaxM : ℕ := 8

/-- The length of `verify_unis`. -/
def verifyUnis : ℕ := 384

/-- The uniforms a verification writes: the norms' one, in every layer those of six projections, two
rotations, the attention, the activation and two residual adds, then the head's and an argmax for
each row. -/
def uniformsOf (layers len : ℕ) : ℕ := 1 + layers * 12 + 1 + len

section Pass

variable (model : VkModelWeights)

/-- The embedding rows of a batch, one after the other. -/
noncomputable def gatherRows (tokens : List ℕ) : Buf := fun i =>
  tokenRow model (tokens.getD (i / model.nEmbd) 0) (i % model.nEmbd)

/-- The rotation of row `i / half` of a batch at `pos`, the last position's past the end. -/
def batchAngle (pos i : ℕ) : ℕ :=
  min (pos + i / half model) (model.maxSeq - 1) * half model + i % half model

noncomputable def writeBatch (tokens : List ℕ) (pos : ℕ) (s : Resident) : Resident :=
  let m := tokens.length
  { s with pf := { s.pf with
    x32 := writeAt 0 (m * model.nEmbd) (gatherRows model tokens) s.pf.x32
    cosb := writeAt 0 (m * half model) (fun i => cosTable model (batchAngle model pos i)) s.pf.cosb
    sinb := writeAt 0 (m * half model) (fun i => sinTable model (batchAngle model pos i))
      s.pf.sinb } }

/-- Queries, keys and values of `m` rows; the keys stay in `o32` and the values in `ffn32`. -/
noncomputable def verifyProject (m : ℕ) (layer : VkLayer) (pf : PrefillRes) : PrefillRes :=
  let nb := embdBlocks model
  let n32 := bnorm model.nEmbd model.eps m (normWeight layer.attnNorm) pf.x32 pf.n32
  let q := batchedMatvec m model.nEmbd model.nEmbd nb (element layer.wq.values) n32 pf.q
  let o32 := batchedMatvec m (kvDim model) model.nEmbd nb (element layer.wk.values) n32 pf.o32
  let ffn32 := batchedMatvecF16 m (kvDim model) model.nEmbd
    (transposed (kvDim model) model.nEmbd layer.wvF16.values) n32 pf.ffn32
  { pf with
    n32, ffn32
    q := brope model.nHead model.hd m pf.cosb pf.sinb q
    o32 := brope model.nKv model.hd m pf.cosb pf.sinb o32 }

noncomputable def verifyFeedForward (m : ℕ) (layer : VkLayer) (pf : PrefillRes) : PrefillRes :=
  let nb := embdBlocks model
  let o32 := batchedMatvec m model.nEmbd model.nEmbd nb (element layer.wo.values) pf.attn32 pf.o32
  let x32 := residualAdd (m * model.nEmbd) o32 pf.x32
  let n32 := bnorm model.nEmbd model.eps m (normWeight layer.ffnNorm) x32 pf.n32
  let gu := batchedMatvec m (2 * model.nInter) model.nEmbd nb (element layer.w13.values) n32 pf.gu
  let h32 := bsilu model.nInter m gu pf.h32
  let ffn32 := batchedMatvecF16 m model.nEmbd model.nInter
    (transposed model.nEmbd model.nInter layer.w2F16.values) h32 pf.ffn32
  { pf with o32, n32, gu, h32, ffn32, x32 := residualAdd (m * model.nEmbd) ffn32 x32 }

noncomputable def verifyLayer (pos m l : ℕ) (layer : VkLayer) (s : Resident) : Resident :=
  let pf := verifyProject model m layer s.pf
  let k := writeAt (pos * kvDim model) (m * kvDim model) pf.o32 (s.kc l)
  let v := writeAt (pos * kvDim model) (m * kvDim model) pf.ffn32 (s.vc l)
  let attn32 := bsdpa model.nHead model.nKv model.hd m pos pf.q k v pf.attn32
  { s with
    kc := Function.update s.kc l k
    vc := Function.update s.vc l v
    pf := verifyFeedForward model m layer { pf with attn32 } }

-- `aliased` stands for what the six-bit kernel makes of the bytes of a four-bit head: elements that
-- the dequantized ones do not determine.
variable (aliased : Buf)

/-- The head as the six-bit kernel reads it. A four-bit head has one buffer in the place of all. -/
noncomputable def sixBitHead : Buf := if model.lmQ4 then aliased else element model.lmHead.values

noncomputable def verifyHead (m : ℕ) (pf : PrefillRes) : PrefillRes :=
  let n32 := bnorm model.nEmbd model.eps m (normWeight model.finalNorm) pf.x32 pf.n32
  { pf with
    n32
    vlogits := batchedMatvec m model.vocab (256 * embdBlocks model) (embdBlocks model)
      (sixBitHead model aliased) n32 pf.vlogits }

noncomputable def runBatch (tokens : List ℕ) (pos : ℕ) (s : Resident) : Resident :=
  let m := tokens.length
  let s := sweep (verifyLayer model pos m) 0 model.layers (writeBatch model tokens pos s)
  { s with pf := verifyHead model aliased m s.pf }

/-- The argmax of each row of the logits. -/
noncomputable def batchArgmax (m : ℕ) (s : Resident) : List ℕ :=
  (List.range m).map fun i => argmax model.vocab fun j => s.pf.vlogits (i * model.vocab + j)

def verifyGrids : List ℕ :=
  (model.layers.flatMap fun _ => [model.nEmbd, kvDim model, kvDim model, model.nEmbd,
    2 * model.nInter, model.nEmbd]) ++ [model.vocab]

noncomputable def verifyForward (tokens : List ℕ) (pos : ℕ) (s : Resident) :
    Except GpuError (Resident × List ℕ) := do
  check (1 ≤ tokens.length ∧ tokens.length ≤ verifyMaxM ∧ pos + tokens.length ≤ model.maxSeq)
  tokens.forM (checkToken model)
  checkGrids (verifyGrids model)
  check (uniformsOf model.layers.length tokens.length ≤ verifyUnis)
  let s := runBatch model aliased tokens pos s
  return (s, batchArgmax model tokens.length s)

end Pass

/-! ### A layer of a few rows -/

variable {model : VkModelWeights}

/-- The rotation of a batch at `pos`, as every layer finds it. -/
structure BatchInputs (model : VkModelWeights) (pos m : ℕ) (pf : PrefillRes) : Prop where
  cosb : ∀ r < m, ∀ j < model.hd / 2,
    pf.cosb (r * (model.hd / 2) + j) = (shape model).cos (pos + r) j
  sinb : ∀ r < m, ∀ j < model.hd / 2,
    pf.sinb (r * (model.hd / 2) + j) = (shape model).sin (pos + r) j

section Rows

variable {pos m l r : ℕ} {layer : VkLayer} {s : Resident} {pf : PrefillRes}
  (hshaped : Shaped model) (hlayer : LayerShaped model layer)

include hshaped

include hlayer

end Rows

/-! ### The whole pass -/

section Run

variable (hshaped : Shaped model) (heven : Even model.hd) {tokens : List ℕ} {pos : ℕ}
  (hlast : pos + tokens.length ≤ model.maxSeq) (s : Resident)

include hshaped heven hlast

variable (aliased : Buf)

end Run

end Zllm.Vulkan.VkPass

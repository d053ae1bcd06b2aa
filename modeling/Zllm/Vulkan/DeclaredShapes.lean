import Zllm.Loader.LoadersAgree
import Zllm.Loader.UniformGguf
import Zllm.Vulkan.TokenPass

/-!
# Files of declared shapes on the raw-Vulkan lane

Decoding takes the width of a row from a tensor, prefill and verification from the metadata. Of the
tensors that both read, those below have to be of the declared shape; then the loaded model is one
tower for all passes.
-/

namespace Zllm.Vulkan.VkPass

open Loader Outcome

/-- The shapes of a layer's tensors that the passes look at differently. -/
structure LayerDeclared (gguf : Gguf) (model : VkModelWeights) (i : ℕ) : Prop where
  attnV : gguf.dims (.blk i .attnV) = [kvDim model, model.nEmbd]
  attnOutput : gguf.dims (.blk i .attnOutput) = [model.nEmbd, model.nEmbd]
  ffnGate : gguf.dims (.blk i .ffnGate) = [model.nInter, model.nEmbd]
  ffnDown : gguf.dims (.blk i .ffnDown) = [model.nEmbd, model.nInter]

/-- A file whose attention is as wide as its residual stream, in whole groups of heads. -/
structure Declared (gguf : Gguf) (model : VkModelWeights) : Prop where
  attnDim : model.nHead * model.hd = model.nEmbd
  hd_pos : 0 < model.hd
  nKv_pos : 0 < model.nKv
  nKv_dvd : model.nKv ∣ model.nHead
  nInter_pos : 0 < model.nInter
  embed : gguf.dims .tokenEmbd = [model.vocab, model.nEmbd]
  layers : ∀ i < model.layers.length, LayerDeclared gguf model i

section Layer

variable {quantize : GgmlDType → List ℚ → List ℚ} {gguf : Gguf} {model : VkModelWeights} {i : ℕ}
  {layer : VkLayer}

/-- The blocks of a row of a tensor of known width. -/
theorem VkRead.blocks {name : TensorName} {tensor : QTensor} {cols rows width : ℕ} {w : VkWeight}
    (hread : VkRead gguf name tensor cols w) (hdims : gguf.dims name = [rows, width]) :
    256 * w.nb = width := by
  rw [Gguf.dims_of_tensor hread.tensor_eq] at hdims
  have hcols : cols = width := by
    have hsecond := hread.cols_eq
    rw [hdims] at hsecond
    exact (Option.some.inj hsecond).symm
  rw [hread.nb, hcols, Nat.mul_div_cancel' (QTensor.blocks_of_dims hread.dtype hdims)]

theorem layerShaped_of_load
    (hload : loadVkLayer quantize defaultVkEnv gguf model.nEmbd (kvDim model) model.nInter i =
      .ok layer)
    (hdeclared : LayerDeclared gguf model i) : LayerShaped model layer := by
  have hread := loadVkLayer_read hload
  obtain ⟨tv, cv, hv⟩ := hread.wv
  obtain ⟨tensor, co, ho⟩ := hread.wo
  obtain ⟨td, cd, hd⟩ := hread.w2
  obtain ⟨gate, cols, hgate, hdtype, hcols, hnb, -⟩ := loadGateup_read hread.w13
  have hgateDims := hdeclared.ffnGate
  rw [Gguf.dims_of_tensor hgate] at hgateDims
  exact {
    wv := VkRead.blocks hv hdeclared.attnV
    wo := VkRead.blocks ho hdeclared.attnOutput
    w13 := by
      rw [hgateDims] at hcols
      rw [hnb, ← Option.some.inj hcols,
        Nat.mul_div_cancel' (QTensor.blocks_of_dims (.inl hdtype) hgateDims)]
    w13Q3 := by
      rcases loadWhen_eq_ok hread.w13Q3 with ⟨-, hnone⟩ | ⟨b, hswitch, -, -⟩
      · exact hnone
      · cases hswitch
    w2 := VkRead.blocks hd hdeclared.ffnDown
    wvF16 := by
      rw [hv.values, ← hread.wvF16.mpr hdeclared.attnV]
      rfl
    w2F16 := by
      rw [hd.values, ← hread.w2F16.mpr hdeclared.ffnDown]
      rfl
  }

end Layer

/-- What loading gives any model. -/
structure Loaded (model : VkModelWeights) : Prop where
  maxSeq : model.maxSeq = gpuMaxSeq
  nHead_pos : 0 < model.nHead

theorem loaded_of_load {quantize : GgmlDType → List ℚ → List ℚ} {env : VkEnv} {gguf : Gguf}
    {model : VkModelWeights} (hload : VkModelWeights.load quantize env gguf = .ok model) :
    Loaded model := by
  unfold VkModelWeights.load at hload
  obtain ⟨hp, -, hload⟩ := bind_eq_ok.mp hload
  obtain ⟨headDim, hheadDim, hload⟩ := bind_eq_ok.mp hload
  obtain ⟨embedQt, -, hload⟩ := bind_eq_ok.mp hload
  obtain ⟨vocab, -, hload⟩ := bind_eq_ok.mp hload
  obtain ⟨lmHead, -, hload⟩ := bind_eq_ok.mp hload
  obtain ⟨norm, -, hload⟩ := bind_eq_ok.mp hload
  obtain ⟨gate, -, hload⟩ := bind_eq_ok.mp hload
  obtain ⟨nInter, -, hload⟩ := bind_eq_ok.mp hload
  obtain ⟨layers, -, hload⟩ := bind_eq_ok.mp hload
  obtain rfl := pure_eq_ok.mp hload
  refine ⟨rfl, Nat.pos_of_ne_zero fun hzero => ?_⟩
  rw [HParams.headDim, if_pos hzero] at hheadDim
  cases hheadDim

theorem shaped_of_load {quantize : GgmlDType → List ℚ → List ℚ} {gguf : Gguf}
    {model : VkModelWeights} (hload : VkModelWeights.load quantize defaultVkEnv gguf = .ok model)
    (hdeclared : Declared gguf model) : Shaped model := by
  obtain ⟨hp, headDim, hread⟩ := VkModelWeights.load_read hload
  have hplain := hread.plain (VkLayer.decodeDense 0 0 0)
  have hembed : model.embed = gguf.values .tokenEmbd := by
    obtain ⟨vocab, hvocab, -⟩ := hplain.embed
    exact (Weight.mk.inj hvocab).2
  have hwidth := hread.width model.vocab (by rw [← hread.nEmbd]; exact hdeclared.embed)
  exact {
    attnDim := hdeclared.attnDim
    blocks := by rwa [hread.nEmbd]
    hd_pos := hdeclared.hd_pos
    nEmbd_pos := by
      rw [← hdeclared.attnDim]
      exact Nat.mul_pos (loaded_of_load hload).nHead_pos hdeclared.hd_pos
    nKv_pos := hdeclared.nKv_pos
    nKv_dvd := hdeclared.nKv_dvd
    nInter_pos := hdeclared.nInter_pos
    embed := by
      have hdims := hdeclared.embed
      rw [hembed, Gguf.values]
      cases htensor : gguf.tensors .tokenEmbd with
      | none => rw [Gguf.dims, htensor] at hdims; cases hdims
      | some tensor =>
        rw [Gguf.dims, htensor] at hdims
        change tensor.dims = _ at hdims
        show tensor.values.length = _
        rw [tensor.length_values, hdims, List.prod_cons, List.prod_singleton]
    layers := by
      intro layer hmem
      obtain ⟨i, hi⟩ := List.mem_iff_getElem?.mp hmem
      obtain ⟨hlt, rfl⟩ := List.getElem?_eq_some_iff.mp hi
      obtain ⟨hlength, hget⟩ := List.forall₂_iff_get.mp hread.layers
      have hlayer := hget i (by omega) hlt
      rw [← hread.nEmbd, ← hread.kvDim, ← hread.nInter] at hlayer
      simp only [List.get_eq_getElem, List.getElem_range] at hlayer
      exact layerShaped_of_load hlayer (hdeclared.layers i hlt)
  }

/-! ### Files of any size -/

/-- A six-bit matrix of ones. -/
def sixBitMatrix (rows blocks : ℕ) : QTensor where
  dtype := .q6k
  dims := [rows, 256 * blocks]
  values := List.replicate (rows * (256 * blocks)) 1
  length_values := by simp
  blockSize_dvd := ⟨blocks, rfl⟩

theorem superBlocks_sixBitMatrix (rows blocks : ℕ) :
    (sixBitMatrix rows blocks).superBlocks = rows * (256 * blocks / 256) :=
  superBlocks_constMatrix 1 rows blocks

/-- A file of given widths whose tied head is in six bits. -/
def sixBitGguf (d : Dims) : Gguf where
  metadata := (uniformGguf d).metadata
  tensors name :=
    if name = .tokenEmbd then some (sixBitMatrix d.vocab d.embdBlocks)
    else (uniformGguf d).tensors name

def constWeight (rows blocks : ℕ) : VkWeight where
  dtype := .q4k
  nb := blocks
  values := List.replicate (rows * (256 * blocks)) 1

def constF16 (rows blocks : ℕ) : Weight where
  dims := [rows, 256 * blocks]
  values := List.replicate (rows * (256 * blocks)) 1

def uniformVkLayer (d : Dims) : VkLayer where
  attnNorm := List.replicate (256 * d.embdBlocks) 1
  ffnNorm := List.replicate (256 * d.embdBlocks) 1
  wq := constWeight (d.heads * d.headDim) d.embdBlocks
  wk := constWeight (d.kvHeads * d.headDim) d.embdBlocks
  wv := constWeight (d.kvHeads * d.headDim) d.embdBlocks
  wo := constWeight (256 * d.embdBlocks) d.attnBlocks
  w13 := {
    dtype := .q4k
    nb := d.embdBlocks
    values := List.replicate (256 * d.interBlocks * (256 * d.embdBlocks)) 1 ++
      List.replicate (256 * d.interBlocks * (256 * d.embdBlocks)) 1
  }
  w13Q3 := none
  w2 := constWeight (256 * d.embdBlocks) d.interBlocks
  wqk := none
  wvF16 := constF16 (d.kvHeads * d.headDim) d.embdBlocks
  w2F16 := constF16 (256 * d.embdBlocks) d.interBlocks

def uniformVkModel (d : Dims) : VkModelWeights where
  embed := List.replicate (d.vocab * (256 * d.embdBlocks)) 1
  lmHead := constF16 d.vocab d.embdBlocks
  lmQ4 := false
  finalNorm := List.replicate (256 * d.embdBlocks) 1
  ropeBase := 10000
  maxSeq := gpuMaxSeq
  nEmbd := 256 * d.embdBlocks
  nHead := d.heads
  nKv := d.kvHeads
  hd := d.headDim
  nInter := 256 * d.interBlocks
  vocab := d.vocab
  eps := 1 / 100000
  layers := List.replicate d.layers (uniformVkLayer d)

theorem loadVkW_const {gguf : Gguf} {name : TensorName} {rows blocks : ℕ}
    (htensor : gguf.tensor name = .ok (constMatrix 1 rows blocks)) :
    loadVkW gguf name = .ok (constWeight rows blocks) := by
  refine bind_eq_ok.mpr ⟨_, htensor, bind_eq_ok.mpr ⟨256 * blocks, rfl, ?_⟩⟩
  show (if GgmlDType.q4k = GgmlDType.q4k then _ else _) = _
  rw [if_pos rfl, Nat.mul_div_cancel_left _ (by norm_num)]
  rfl

theorem uploadF16t_const (rows blocks : ℕ) :
    uploadF16t (constMatrix 1 rows blocks) rows (256 * blocks) = .ok (constF16 rows blocks) := by
  have hlength : (constMatrix 1 rows blocks).values.length = rows * (256 * blocks) :=
    List.length_replicate
  rw [uploadF16t, if_pos hlength.ge, List.take_of_length_le hlength.le]
  rfl

theorem loadGateup_const {gguf : Gguf} {i rows blocks : ℕ}
    (hgate : gguf.tensor (.blk i .ffnGate) = .ok (constMatrix 1 rows blocks))
    (hup : gguf.tensor (.blk i .ffnUp) = .ok (constMatrix 1 rows blocks)) :
    loadGateup storedExactly gguf i false = .ok {
      dtype := .q4k
      nb := blocks
      values := List.replicate (rows * (256 * blocks)) 1 ++
        List.replicate (rows * (256 * blocks)) 1 } := by
  refine bind_eq_ok.mpr ⟨_, hgate, bind_eq_ok.mpr ⟨_, hup, bind_eq_ok.mpr ⟨(), rfl,
    bind_eq_ok.mpr ⟨(), rfl, bind_eq_ok.mpr ⟨256 * blocks, rfl, ?_⟩⟩⟩⟩⟩
  rw [Nat.mul_div_cancel_left _ (by norm_num)]
  rfl

theorem loadVkLayer_uniform (d : Dims) (i : ℕ) :
    loadVkLayer storedExactly defaultVkEnv (sixBitGguf d) (256 * d.embdBlocks)
      (d.kvHeads * d.headDim) (256 * d.interBlocks) i = .ok (uniformVkLayer d) :=
  bind_eq_ok.mpr ⟨_, rfl, bind_eq_ok.mpr ⟨_, rfl, bind_eq_ok.mpr ⟨_, loadVkW_const rfl,
    bind_eq_ok.mpr ⟨_, loadVkW_const rfl, bind_eq_ok.mpr ⟨_, loadVkW_const rfl,
      bind_eq_ok.mpr ⟨_, loadVkW_const rfl, bind_eq_ok.mpr ⟨_, loadGateup_const rfl rfl,
        bind_eq_ok.mpr ⟨_, rfl, bind_eq_ok.mpr ⟨_, loadVkW_const rfl, bind_eq_ok.mpr ⟨_, rfl,
          bind_eq_ok.mpr ⟨(), rfl, bind_eq_ok.mpr ⟨(), rfl, bind_eq_ok.mpr ⟨_, rfl,
            bind_eq_ok.mpr ⟨_, rfl, bind_eq_ok.mpr ⟨_, uploadF16t_const _ _,
              bind_eq_ok.mpr ⟨_, uploadF16t_const _ _,
                bind_eq_ok.mpr ⟨(), rfl, rfl⟩⟩⟩⟩⟩⟩⟩⟩⟩⟩⟩⟩⟩⟩⟩⟩⟩

theorem vk_loads_uniform {d : Dims} (hheads : 0 < d.heads) :
    VkModelWeights.load storedExactly defaultVkEnv (sixBitGguf d) = .ok (uniformVkModel d) := by
  have hhead : loadVkLmHead (sixBitMatrix d.vocab d.embdBlocks) d.vocab (256 * d.embdBlocks) =
      .ok (constF16 d.vocab d.embdBlocks) := by
    show (if (sixBitMatrix d.vocab d.embdBlocks).superBlocks = _ then _ else _) = _
    rw [if_pos (superBlocks_sixBitMatrix d.vocab d.embdBlocks),
      Nat.mul_div_cancel_left _ (by norm_num)]
    rfl
  exact bind_eq_ok.mpr ⟨_, read_uniform d, bind_eq_ok.mpr ⟨_, headDim_uniform hheads,
    bind_eq_ok.mpr ⟨_, rfl, bind_eq_ok.mpr ⟨_, rfl, bind_eq_ok.mpr ⟨_, hhead,
      bind_eq_ok.mpr ⟨_, rfl, bind_eq_ok.mpr ⟨_, rfl, bind_eq_ok.mpr ⟨_, rfl,
        bind_eq_ok.mpr ⟨_, mapM_range_const (loadVkLayer_uniform d) d.layers, rfl⟩⟩⟩⟩⟩⟩⟩⟩⟩

theorem declared_uniform {d : Dims} (hattn : d.heads * d.headDim = 256 * d.embdBlocks)
    (hblocks : d.attnBlocks = d.embdBlocks) (hhd : 0 < d.headDim) (hkv : 0 < d.kvHeads)
    (hgroups : d.kvHeads ∣ d.heads) (hinter : 0 < d.interBlocks) :
    Declared (sixBitGguf d) (uniformVkModel d) where
  attnDim := hattn
  hd_pos := hhd
  nKv_pos := hkv
  nKv_dvd := hgroups
  nInter_pos := Nat.mul_pos (by norm_num) hinter
  embed := rfl
  layers _ _ := by
    refine ⟨rfl, ?_, rfl, rfl⟩
    show [256 * d.embdBlocks, 256 * d.attnBlocks] = [256 * d.embdBlocks, 256 * d.embdBlocks]
    rw [hblocks]

end Zllm.Vulkan.VkPass

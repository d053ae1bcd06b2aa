import Zllm.Loader.LayerShapes
import Zllm.Loader.UniformGguf

/-!
# When the lanes load one model

A GGUF that the candle loader and a GPU loader both accept becomes the same model in both exactly
when it is a plain llama with the head and the layer shapes the GPU lane assumes.
-/

namespace Zllm.Loader

open Outcome

variable {quantize : GgmlDType → List ℚ → List ℚ}

/-- The elements of the head the wgpu lane keeps. -/
def gpuHead (quantize : GgmlDType → List ℚ → List ℚ) (env : GpuEnv) (gguf : Gguf) : List ℚ :=
  if env.lmQ4 then quantize .q4k (gguf.values .tokenEmbd) else gguf.values .tokenEmbd

/-- A GGUF the wgpu lane reads as the candle loader does. -/
def GpuReads (quantize : GgmlDType → List ℚ → List ℚ) (env : GpuEnv) (gguf : Gguf) (cap : ℕ) :
    Prop :=
  ∃ hp headDim, PlainLlama gguf cap (gpuHead quantize env gguf) hp headDim ∧
    ∀ i < hp.nLayers, GpuLayerShapes gguf i

/-- A GGUF the raw-Vulkan lane reads as the candle loader does. -/
def VkReads (quantize : GgmlDType → List ℚ → List ℚ) (env : VkEnv) (gguf : Gguf) (cap : ℕ) :
    Prop :=
  ∃ hp headDim, PlainLlama gguf cap (gguf.values .tokenEmbd) hp headDim ∧
    ∀ i < hp.nLayers, VkLayerShapes gguf env quantize hp.nEmbd (hp.nHeadKv * headDim) i

theorem loadNorm_map {gguf : Gguf} {name : TensorName} {values : List ℚ}
    (hload : loadNorm gguf name = .ok values) :
    (gguf.tensor name).map QTensor.values = .ok values := by
  unfold loadNorm at hload
  obtain ⟨tensor, htensor, hload⟩ := bind_eq_ok.mp hload
  rw [htensor]
  exact hload

theorem head?_of_dim {gguf : Gguf} {name : TensorName} {tensor : QTensor} {n : ℕ}
    (htensor : gguf.tensor name = .ok tensor) (hdim : tensor.dim 0 = .ok n) :
    (gguf.dims name).head? = some n := by
  rw [Gguf.dims_of_tensor htensor, List.head?_eq_getElem?]
  exact QTensor.dim_eq_ok.mp hdim

/-- Under one family, the stored layers are a lane's layers when each is. -/
theorem layers_eq_iff {gguf : Gguf} {cap : ℕ} {m : ModelWeights} {spec : ArchSpec}
    {hpm hp : HParams} {headDimm headDim : ℕ} {head : List ℚ} {Layer : Type}
    {load : ℕ → Except LoadError Layer} {ls : List Layer} {view : Layer → DenseLayer}
    (hcandle : CandleRead gguf cap m spec hpm headDimm)
    (hllama : PlainLlama gguf cap head hp headDim)
    (hlayers : List.Forall₂ (fun i l => load i = .ok l) (List.range hp.nLayers) ls) :
    m.layers.map LayerWeights.dense = ls.map view ↔
      ∀ i < hp.nLayers, ∀ l, load i = .ok l → storedLayer gguf i = view l := by
  obtain rfl := Except.ok.inj (hcandle.detect_eq.symm.trans hllama.family)
  obtain rfl := Except.ok.inj (hcandle.read.symm.trans hllama.read)
  rw [map_eq_map_iff (P := fun i => ∀ l, load i = .ok l → storedLayer gguf i = view l)
    hcandle.layers hlayers]
  · simp only [List.mem_range]
  · intro i l l' hl hl'
    rw [loadLayerWeights_dense hl]
    exact ⟨fun h l'' hl'' => by rwa [Except.ok.inj (hl''.symm.trans hl')], fun h => h l' hl'⟩

/-! ### The wgpu lane -/

/-- The head is the embedding's matrix as soon as that has the declared width. -/
theorem loadLmHead_weight {env : GpuEnv} {gguf : Gguf} {embedQt : QTensor} {vocab nEmbd : ℕ}
    {w : ResidentWeight} (hembed : gguf.tensor .tokenEmbd = .ok embedQt)
    (hdims : gguf.dims .tokenEmbd = [vocab, nEmbd])
    (hload : loadLmHead quantize env embedQt vocab nEmbd = .ok w) :
    w.weight = { dims := [vocab, nEmbd], values := gpuHead quantize env gguf } := by
  rw [gpuHead, Gguf.values_of_tensor hembed]
  rw [Gguf.dims_of_tensor hembed] at hdims
  unfold loadLmHead at hload
  simp only at hload
  split_ifs at hload with hq4 hshape hf32 hlength hdtype
  · obtain rfl := Except.ok.inj hload
    rw [if_pos hq4, ResidentWeight.weight, Nat.mul_div_cancel' hshape.2]
  · obtain rfl := Except.ok.inj hload
    rw [if_neg hq4, ResidentWeight.weight]
  · obtain rfl := uploadBlocks_eq_ok hload
    rw [if_neg hq4, ResidentWeight.weight,
      Nat.mul_div_cancel' (QTensor.blocks_of_dims hdtype hdims)]

theorem GpuModel.load_read {env : GpuEnv} {gguf : Gguf} {m : GpuModel}
    (hload : GpuModel.load quantize env gguf = .ok m) :
    ∃ hp headDim, PlainRead gguf m.dense (gpuHead quantize env gguf) hp headDim ∧
      m.nInter = (gguf.dims (.blk 0 .ffnGate)).headD 0 ∧
      List.Forall₂ (fun i l => loadGpuLayer gguf i = .ok l) (List.range hp.nLayers) m.layers := by
  unfold GpuModel.load at hload
  obtain ⟨hp, hread, hload⟩ := bind_eq_ok.mp hload
  obtain ⟨headDim, hheadDim, hload⟩ := bind_eq_ok.mp hload
  obtain ⟨embedQt, hembed, hload⟩ := bind_eq_ok.mp hload
  obtain ⟨vocab, hvocab, hload⟩ := bind_eq_ok.mp hload
  obtain ⟨lmHead, hlm, hload⟩ := bind_eq_ok.mp hload
  obtain ⟨norm, hnorm, hload⟩ := bind_eq_ok.mp hload
  obtain ⟨gate, hgate, hload⟩ := bind_eq_ok.mp hload
  obtain ⟨nInter, hnInter, hload⟩ := bind_eq_ok.mp hload
  obtain ⟨layers, hlayers, hload⟩ := bind_eq_ok.mp hload
  obtain rfl := pure_eq_ok.mp hload
  refine ⟨hp, headDim, ?_, ?_, mapM_eq_ok.mp hlayers⟩
  · exact {
      read := hread
      headDim_eq := hheadDim
      nEmbd := rfl
      nHead := rfl
      nKvHead := rfl
      headDim_model := rfl
      eps := rfl
      ropeNeox := rfl
      rotaryWidth := rfl
      rope := rfl
      embed := by
        refine ⟨vocab, ?_, head?_of_dim hembed hvocab⟩
        rw [Gguf.values_of_tensor hembed]
        rfl
      lmHead := by
        intro vocab' hdims
        have hvocab' := head?_of_dim hembed hvocab
        rw [hdims] at hvocab'
        obtain rfl := Option.some.inj hvocab'
        exact loadLmHead_weight hembed hdims hlm
      outputNorm := loadNorm_map hnorm
    }
  · rw [List.headD_eq_head?_getD, head?_of_dim hgate hnInter]
    rfl

theorem sameModel_gpu_iff {env : GpuEnv} {gguf : Gguf} {cap : ℕ} {m : ModelWeights} {g : GpuModel}
    (hm : fromGgufRequant gguf cap = .ok m) (hg : GpuModel.load quantize env gguf = .ok g) :
    SameModel m.dense g.dense ↔ GpuReads quantize env gguf cap := by
  obtain ⟨spec, hpm, headDimm, hcandle⟩ := fromGgufRequant_read hm
  obtain ⟨hp, headDim, hplain, hnInter, hlayers⟩ := GpuModel.load_read hg
  rw [sameModel_iff_plainLlama hcandle hplain]
  have hshapes : PlainLlama gguf cap (gpuHead quantize env gguf) hp headDim →
      (m.dense.layers = g.dense.layers ↔ ∀ i < hp.nLayers, GpuLayerShapes gguf i) := by
    intro hllama
    refine (layers_eq_iff hcandle hllama hlayers).trans ?_
    refine forall₂_congr fun i hi => ?_
    obtain ⟨l, hl⟩ := exists_ok_of_mem hlayers (List.mem_range.mpr hi)
    rw [← loadGpuLayer_dense_iff hl, ← hnInter]
    exact ⟨fun h => h l hl, fun h l' hl' => by rwa [Except.ok.inj (hl'.symm.trans hl)]⟩
  constructor
  · rintro ⟨hllama, hsame⟩
    exact ⟨hp, headDim, hllama, (hshapes hllama).mp hsame⟩
  · rintro ⟨hp', headDim', hllama, hall⟩
    obtain rfl := Except.ok.inj (hllama.read.symm.trans hplain.read)
    obtain rfl := Except.ok.inj (hllama.headDim_eq.symm.trans hplain.headDim_eq)
    exact ⟨hllama, (hshapes hllama).mpr hall⟩

/-! ### The raw-Vulkan lane -/

/-- The head is the embedding's matrix as soon as that has the declared width, which is then whole
blocks. -/
theorem loadVkLmHead_weight {gguf : Gguf} {embedQt : QTensor} {vocab nEmbd : ℕ} {w : Weight}
    (hembed : gguf.tensor .tokenEmbd = .ok embedQt)
    (hdims : gguf.dims .tokenEmbd = [vocab, nEmbd])
    (hload : loadVkLmHead embedQt vocab nEmbd = .ok w) :
    256 ∣ nEmbd ∧ w = { dims := [vocab, nEmbd], values := gguf.values .tokenEmbd } := by
  rw [Gguf.values_of_tensor hembed]
  rw [Gguf.dims_of_tensor hembed] at hdims
  unfold loadVkLmHead at hload
  simp only at hload
  split_ifs at hload with hq6 hbytes hq4
  · have hwidth := QTensor.blocks_of_dims (.inr hq6) hdims
    obtain rfl := Except.ok.inj hload
    rw [blockRows, Nat.mul_div_cancel' hwidth]
    exact ⟨hwidth, rfl⟩
  · have hwidth := QTensor.blocks_of_dims (.inl hq4) hdims
    obtain rfl := Except.ok.inj hload
    rw [blockRows, Nat.mul_div_cancel' hwidth]
    exact ⟨hwidth, rfl⟩

/-- A successful raw-Vulkan load, whichever way its layers are read. -/
structure VkModelRead (quantize : GgmlDType → List ℚ → List ℚ) (env : VkEnv) (gguf : Gguf)
    (m : VkModelWeights) (hp : HParams) (headDim : ℕ) : Prop where
  plain : ∀ layer, PlainRead gguf (m.denseWith layer) (gguf.values .tokenEmbd) hp headDim
  width : ∀ vocab, gguf.dims .tokenEmbd = [vocab, hp.nEmbd] → 256 ∣ hp.nEmbd
  nEmbd : m.nEmbd = hp.nEmbd
  kvDim : m.nKv * m.hd = hp.nHeadKv * headDim
  nInter : m.nInter = (gguf.dims (.blk 0 .ffnGate)).headD 0
  layers : List.Forall₂ (fun i l => loadVkLayer quantize env gguf hp.nEmbd (hp.nHeadKv * headDim)
    ((gguf.dims (.blk 0 .ffnGate)).headD 0) i = .ok l) (List.range hp.nLayers) m.layers

theorem VkModelWeights.load_read {env : VkEnv} {gguf : Gguf} {m : VkModelWeights}
    (hload : VkModelWeights.load quantize env gguf = .ok m) :
    ∃ hp headDim, VkModelRead quantize env gguf m hp headDim := by
  unfold VkModelWeights.load at hload
  obtain ⟨hp, hread, hload⟩ := bind_eq_ok.mp hload
  obtain ⟨headDim, hheadDim, hload⟩ := bind_eq_ok.mp hload
  obtain ⟨embedQt, hembed, hload⟩ := bind_eq_ok.mp hload
  obtain ⟨vocab, hvocab, hload⟩ := bind_eq_ok.mp hload
  obtain ⟨lmHead, hlm, hload⟩ := bind_eq_ok.mp hload
  obtain ⟨norm, hnorm, hload⟩ := bind_eq_ok.mp hload
  obtain ⟨gate, hgate, hload⟩ := bind_eq_ok.mp hload
  obtain ⟨nInter, hnInter, hload⟩ := bind_eq_ok.mp hload
  obtain ⟨layers, hlayers, hload⟩ := bind_eq_ok.mp hload
  obtain rfl := pure_eq_ok.mp hload
  have hinter : nInter = (gguf.dims (.blk 0 .ffnGate)).headD 0 := by
    rw [List.headD_eq_head?_getD, head?_of_dim hgate hnInter]
    rfl
  have hhead : ∀ vocab', gguf.dims .tokenEmbd = [vocab', hp.nEmbd] → 256 ∣ hp.nEmbd ∧
      lmHead = { dims := [vocab', hp.nEmbd], values := gguf.values .tokenEmbd } := by
    intro vocab' hdims
    have hvocab' := head?_of_dim hembed hvocab
    rw [hdims] at hvocab'
    obtain rfl := Option.some.inj hvocab'
    exact loadVkLmHead_weight hembed hdims hlm
  refine ⟨hp, headDim, ?_, fun vocab' hdims => (hhead vocab' hdims).1, rfl, rfl, hinter, ?_⟩
  · exact fun layer => {
      read := hread
      headDim_eq := hheadDim
      nEmbd := rfl
      nHead := rfl
      nKvHead := rfl
      headDim_model := rfl
      eps := rfl
      ropeNeox := rfl
      rotaryWidth := rfl
      rope := rfl
      embed := by
        refine ⟨vocab, ?_, head?_of_dim hembed hvocab⟩
        rw [Gguf.values_of_tensor hembed]
        rfl
      lmHead := fun vocab' hdims => (hhead vocab' hdims).2
      outputNorm := loadNorm_map hnorm
    }
  · rw [← hinter]
    exact mapM_eq_ok.mp hlayers

theorem sameModel_vk_iff {env : VkEnv} {gguf : Gguf} {cap : ℕ} {m : ModelWeights}
    {v : VkModelWeights} (hm : fromGgufRequant gguf cap = .ok m)
    (hv : VkModelWeights.load quantize env gguf = .ok v) :
    SameModel m.dense v.decodeDense ∧ SameModel m.dense v.prefillDense ↔
      VkReads quantize env gguf cap := by
  obtain ⟨spec, hpm, headDimm, hcandle⟩ := fromGgufRequant_read hm
  obtain ⟨hp, headDim, hread⟩ := VkModelWeights.load_read hv
  rw [VkModelWeights.decodeDense, VkModelWeights.prefillDense,
    sameModel_iff_plainLlama hcandle (hread.plain _),
    sameModel_iff_plainLlama hcandle (hread.plain _), ← and_and_left]
  have hshapes : PlainLlama gguf cap (gguf.values .tokenEmbd) hp headDim →
      (m.dense.layers = v.decodeDense.layers ∧ m.dense.layers = v.prefillDense.layers ↔
        ∀ i < hp.nLayers,
          VkLayerShapes gguf env quantize hp.nEmbd (hp.nHeadKv * headDim) i) := by
    intro hllama
    obtain ⟨vocab, hdims⟩ := hllama.embedShape
    refine (and_congr (layers_eq_iff hcandle hllama hread.layers)
      (layers_eq_iff hcandle hllama hread.layers)).trans ?_
    rw [← forall₂_and]
    refine forall₂_congr fun i hi => ?_
    obtain ⟨l, hl⟩ := exists_ok_of_mem hread.layers (List.mem_range.mpr hi)
    rw [← loadVkLayer_dense_iff (hread.width vocab hdims) hl, hread.nEmbd, hread.kvDim,
      hread.nInter]
    constructor
    · exact fun ⟨hdecode, hprefill⟩ => ⟨hdecode l hl, hprefill l hl⟩
    · rintro ⟨hdecode, hprefill⟩
      exact ⟨fun l' hl' => by rwa [Except.ok.inj (hl'.symm.trans hl)],
        fun l' hl' => by rwa [Except.ok.inj (hl'.symm.trans hl)]⟩
  constructor
  · rintro ⟨hllama, hsame⟩
    exact ⟨hp, headDim, hllama, (hshapes hllama).mp hsame⟩
  · rintro ⟨hp', headDim', hllama, hall⟩
    obtain rfl := Except.ok.inj (hllama.read.symm.trans (hread.plain (VkLayer.decodeDense 0 0 0)).read)
    obtain rfl := Except.ok.inj (hllama.headDim_eq.symm.trans (hread.plain (VkLayer.decodeDense 0 0 0)).headDim_eq)
    exact ⟨hllama, (hshapes hllama).mpr hall⟩

/-! ### The two lanes together -/

/-- The GPU lanes load the candle loader's model exactly when the GGUF is the plain llama they take
every file for. -/
theorem loaders_agree_iff {gguf : Gguf} {cap : ℕ} {m : ModelWeights}
    (hm : fromGgufRequant gguf cap = .ok m) :
    (∀ env g, GpuModel.load quantize env gguf = .ok g →
      (SameModel m.dense g.dense ↔ GpuReads quantize env gguf cap)) ∧
    (∀ env v, VkModelWeights.load quantize env gguf = .ok v →
      (SameModel m.dense v.decodeDense ∧ SameModel m.dense v.prefillDense ↔
        VkReads quantize env gguf cap)) :=
  ⟨fun _ _ hg => sameModel_gpu_iff hm hg, fun _ _ hv => sameModel_vk_iff hm hv⟩

/-! ### A one-layer file -/

def onesVector : QTensor where
  dtype := .f32
  dims := [256]
  values := List.replicate 256 1
  length_values := by rw [List.length_replicate, List.prod_singleton]
  blockSize_dvd := ⟨256, rfl⟩

/-- One layer of width 256 with one head, and `output` for an output matrix. -/
def oneLayerGguf (output : Option QTensor) : Gguf where
  metadata
    | .hparam .llama .headCount => some (.u32 1)
    | .hparam .llama .blockCount => some (.u32 1)
    | .hparam .llama .embeddingLength => some (.u32 256)
    | .hparam .llama .rmsEpsilon => some (.f32 (1 / 100000))
    | _ => none
  tensors
    | .tokenEmbd => some (constMatrix 1 2 1)
    | .output => output
    | .outputNorm => some onesVector
    | .ropeFreqs => none
    | .blk _ .attnNorm | .blk _ .ffnNorm => some onesVector
    | .blk _ .attnQBias | .blk _ .attnKBias | .blk _ .attnVBias => none
    | .blk _ _ => some (constMatrix 1 256 1)

theorem detect_oneLayer (output : Option QTensor) :
    detect (oneLayerGguf output).metadata = .ok ArchSpec.llama := by
  have hllama : specFor "llama" = some ArchSpec.llama := by decide
  simp [detect, oneLayerGguf, hllama]

def oneLayerHParams : HParams where
  nLayers := 1
  nEmbd := 256
  nHead := 1
  nHeadKv := 1
  ropeDim := none
  keyLength := none
  rmsEps := some (1 / 100000)
  ropeFreqBase := 10000
  contextLength := none
  ropeScalingType := none
  ropeScalingFactor := none
  ropeOrigCtx := none
  nExpert := 0

theorem read_oneLayer (output : Option QTensor) :
    HParams.read (oneLayerGguf output).metadata ArchSpec.llama = .ok oneLayerHParams := by
  rfl

theorem candle_loads_oneLayer (output : Option QTensor) :
    ∃ m, fromGgufRequant (oneLayerGguf output) 4096 = .ok m := by
  have hlayer : ∃ l, loadLayerWeights (oneLayerGguf output) ArchSpec.llama 0 = .ok l := ⟨_, rfl⟩
  obtain ⟨l, hl⟩ := hlayer
  have hlayers : (List.range 1).mapM (loadLayerWeights (oneLayerGguf output) ArchSpec.llama) =
      .ok [l] := mapM_eq_ok.mpr (.cons hl .nil)
  exact bind_succeeds (detect_oneLayer output) <| bind_succeeds (read_oneLayer output) <|
    bind_succeeds rfl <| bind_succeeds rfl <| bind_succeeds rfl <| bind_succeeds rfl <|
    bind_succeeds rfl <| bind_succeeds hlayers ⟨_, rfl⟩

theorem loadW_constMatrix {gguf : Gguf} {name : TensorName} (value : ℚ) (rows blocks : ℕ)
    (htensor : gguf.tensor name = .ok (constMatrix value rows blocks)) :
    ∃ w, loadW gguf name = .ok w := by
  refine bind_succeeds htensor <| bind_succeeds (a := rows) rfl <|
    bind_succeeds (a := 256 * blocks) rfl ?_
  rw [if_pos (.inl rfl), uploadBlocks, if_pos (superBlocks_constMatrix value rows blocks)]
  exact ⟨_, rfl⟩

theorem gpu_loads_oneLayer (output : Option QTensor) :
    ∃ g, GpuModel.load storedExactly defaultGpuEnv (oneLayerGguf output) = .ok g := by
  have hw : ∀ tensor, (oneLayerGguf output).tensor (.blk 0 tensor) = .ok (constMatrix 1 256 1) →
      ∃ w, loadW (oneLayerGguf output) (.blk 0 tensor) = .ok w :=
    fun _ htensor => loadW_constMatrix 1 256 1 htensor
  have hlayer : ∃ l, loadGpuLayer (oneLayerGguf output) 0 = .ok l := by
    obtain ⟨q, hq⟩ := hw .attnQ rfl
    obtain ⟨k, hk⟩ := hw .attnK rfl
    obtain ⟨v, hv⟩ := hw .attnV rfl
    obtain ⟨o, ho⟩ := hw .attnOutput rfl
    obtain ⟨g, hg⟩ := hw .ffnGate rfl
    obtain ⟨d, hd⟩ := hw .ffnDown rfl
    obtain ⟨u, hu⟩ := hw .ffnUp rfl
    exact bind_succeeds rfl <| bind_succeeds rfl <| bind_succeeds hq <| bind_succeeds hk <|
      bind_succeeds hv <| bind_succeeds ho <| bind_succeeds hg <| bind_succeeds hd <|
      bind_succeeds hu ⟨_, rfl⟩
  obtain ⟨l, hl⟩ := hlayer
  have hlayers : (List.range 1).mapM (loadGpuLayer (oneLayerGguf output)) = .ok [l] :=
    mapM_eq_ok.mpr (.cons hl .nil)
  have hhead : ∃ w, loadLmHead storedExactly defaultGpuEnv (constMatrix 1 2 1) 2 256 = .ok w := by
    rw [loadLmHead, if_neg (by decide), if_neg (by decide), if_pos (.inl rfl), uploadBlocks,
      if_pos (superBlocks_constMatrix 1 2 1)]
    exact ⟨_, rfl⟩
  obtain ⟨w, hw⟩ := hhead
  exact bind_succeeds (read_oneLayer output) <| bind_succeeds rfl <| bind_succeeds rfl <|
    bind_succeeds rfl <| bind_succeeds hw <| bind_succeeds rfl <| bind_succeeds rfl <|
    bind_succeeds rfl <| bind_succeeds hlayers ⟨_, rfl⟩

theorem vk_loads_oneLayer (output : Option QTensor) :
    ∃ v, VkModelWeights.load storedExactly defaultVkEnv (oneLayerGguf output) = .ok v := by
  have hf16 : ∃ w, uploadF16t (constMatrix 1 256 1) 256 256 = .ok w := by
    rw [uploadF16t, if_pos (by rw [QTensor.length_values]; decide)]
    exact ⟨_, rfl⟩
  obtain ⟨w, hw⟩ := hf16
  have hlayer : ∃ l, loadVkLayer storedExactly defaultVkEnv (oneLayerGguf output) 256 256 256 0 =
      .ok l :=
    bind_succeeds rfl <| bind_succeeds rfl <| bind_succeeds rfl <| bind_succeeds rfl <|
      bind_succeeds rfl <| bind_succeeds rfl <| bind_succeeds rfl <| bind_succeeds rfl <|
      bind_succeeds rfl <| bind_succeeds rfl <| bind_succeeds rfl <| bind_succeeds rfl <|
      bind_succeeds rfl <| bind_succeeds rfl <| bind_succeeds hw <| bind_succeeds hw <|
      bind_succeeds rfl ⟨_, rfl⟩
  obtain ⟨l, hl⟩ := hlayer
  have hlayers : (List.range 1).mapM
      (loadVkLayer storedExactly defaultVkEnv (oneLayerGguf output) 256 256 256) = .ok [l] :=
    mapM_eq_ok.mpr (.cons hl .nil)
  exact bind_succeeds (read_oneLayer output) <| bind_succeeds rfl <| bind_succeeds rfl <|
    bind_succeeds rfl <| bind_succeeds rfl <| bind_succeeds rfl <| bind_succeeds rfl <|
    bind_succeeds rfl <| bind_succeeds hlayers ⟨_, rfl⟩

/-! ### A tied and an untied head -/

theorem plain_oneLayer :
    PlainLlama (oneLayerGguf none) 4096 (List.replicate (2 * (256 * 1)) 1) oneLayerHParams 256 where
  read := read_oneLayer none
  headDim_eq := rfl
  family := detect_oneLayer none
  ropeDim := rfl
  rope := {
    magnitude := fun _ hyarn => by
      simp [candleRope, ropeScalingOf, oneLayerHParams, RopeScaling.IsYarn] at hyarn
    frequency := fun _ pair _ _ => by
      simp [candleRope, ropeScalingOf, oneLayerHParams, RopeScaling.stretch, freqFactor,
        oneLayerGguf]
  }
  embedShape := ⟨2, rfl⟩
  head_eq := rfl

theorem gpuShapes_oneLayer : GpuLayerShapes (oneLayerGguf none) 0 where
  matrices := by decide
  ffnWidth := rfl

theorem vkShapes_oneLayer :
    VkLayerShapes (oneLayerGguf none) defaultVkEnv storedExactly 256 256 0 where
  attnQ := rfl
  attnK := rfl
  attnV := rfl
  attnOutput := ⟨256, rfl⟩
  ffnGate := ⟨256, rfl⟩
  ffnUp := rfl
  ffnDown := rfl
  gateup := fun h => by cases h

/-- All three loaders load the one-layer file with a tied head as one model. -/
theorem loaders_agree_oneLayer :
    ∃ m g v, fromGgufRequant (oneLayerGguf none) 4096 = .ok m ∧
      GpuModel.load storedExactly defaultGpuEnv (oneLayerGguf none) = .ok g ∧
      VkModelWeights.load storedExactly defaultVkEnv (oneLayerGguf none) = .ok v ∧
      SameModel m.dense g.dense ∧ SameModel m.dense v.decodeDense ∧
      SameModel m.dense v.prefillDense := by
  obtain ⟨m, hm⟩ := candle_loads_oneLayer none
  obtain ⟨g, hg⟩ := gpu_loads_oneLayer none
  obtain ⟨v, hv⟩ := vk_loads_oneLayer none
  obtain ⟨hgpu, hvk⟩ := loaders_agree_iff hm
  refine ⟨m, g, v, hm, hg, hv, (hgpu defaultGpuEnv g hg).mpr ?_, (hvk defaultVkEnv v hv).mpr ?_⟩
  · exact ⟨oneLayerHParams, 256, plain_oneLayer, fun i hi => by
      obtain rfl : i = 0 := Nat.lt_one_iff.mp hi
      exact gpuShapes_oneLayer⟩
  · exact ⟨oneLayerHParams, 256, plain_oneLayer, fun i hi => by
      obtain rfl : i = 0 := Nat.lt_one_iff.mp hi
      exact vkShapes_oneLayer⟩

/-- With an output matrix of its own, the file becomes one model on candle and another on both GPU
lanes, whose head stays the embedding. -/
theorem loaders_differ_untied :
    ∃ m g v, fromGgufRequant (oneLayerGguf (some (constMatrix 0 2 1))) 4096 = .ok m ∧
      GpuModel.load storedExactly defaultGpuEnv (oneLayerGguf (some (constMatrix 0 2 1))) = .ok g ∧
      VkModelWeights.load storedExactly defaultVkEnv (oneLayerGguf (some (constMatrix 0 2 1))) =
        .ok v ∧
      ¬SameModel m.dense g.dense ∧ ¬SameModel m.dense v.decodeDense := by
  obtain ⟨m, hm⟩ := candle_loads_oneLayer (some (constMatrix 0 2 1))
  obtain ⟨g, hg⟩ := gpu_loads_oneLayer (some (constMatrix 0 2 1))
  obtain ⟨v, hv⟩ := vk_loads_oneLayer (some (constMatrix 0 2 1))
  have hdiffer : ∀ cap head hp headDim, head = (constMatrix 1 2 1).values →
      ¬PlainLlama (oneLayerGguf (some (constMatrix 0 2 1))) cap head hp headDim := by
    rintro cap _ hp headDim rfl hplain
    have hvalues : (constMatrix 0 2 1).values = (constMatrix 1 2 1).values :=
      (Weight.mk.inj (Option.some.inj hplain.head_eq)).2
    exact absurd (congrArg List.head? hvalues) (by decide)
  obtain ⟨spec, hpm, headDimm, hcandle⟩ := fromGgufRequant_read hm
  obtain ⟨hp, headDim, hplain, -, -⟩ := GpuModel.load_read hg
  obtain ⟨hp', headDim', hread⟩ := VkModelWeights.load_read hv
  refine ⟨m, g, v, hm, hg, hv, fun hsame => ?_, fun hsame => ?_⟩
  · exact hdiffer _ _ _ _ rfl ((sameModel_iff_plainLlama hcandle hplain).mp hsame).1
  · exact hdiffer _ _ _ _ rfl ((sameModel_iff_plainLlama hcandle (hread.plain _)).mp hsame).1

end Zllm.Loader

import Zllm.Loader.Loaders

/-!
# One GGUF, three loaders

Each loader's result is a dense llama-style model: matrices, norms, biases, head shape, rotary
tables. The candle loader honours every key and tensor of the file. The GPU loaders read a plain
llama with a tied head out of it, so they derive the same model exactly when the file is one.
-/

namespace Zllm.Loader

open Outcome

/-! ### The model a loader derives -/

structure DenseLayer where
  attnNorm : List ℚ
  ffnNorm : List ℚ
  wq : Weight
  wk : Weight
  wv : Weight
  wo : Weight
  w1 : Weight
  w2 : Weight
  w3 : Weight
  bq : Option (List ℚ)
  bk : Option (List ℚ)
  bv : Option (List ℚ)
  ffnWidth : ℕ

structure DenseModel where
  nEmbd : ℕ
  nHead : ℕ
  nKvHead : ℕ
  headDim : ℕ
  eps : ℚ
  ropeNeox : Bool
  rotaryWidth : ℕ
  rope : RopeTables
  embed : Weight
  lmHead : Weight
  outputNorm : List ℚ
  layers : List DenseLayer

/-- Equal but for the rotary tables, which need agree only where both have rows. -/
structure SameModel (a b : DenseModel) : Prop where
  nEmbd : a.nEmbd = b.nEmbd
  nHead : a.nHead = b.nHead
  nKvHead : a.nKvHead = b.nKvHead
  headDim : a.headDim = b.headDim
  eps : a.eps = b.eps
  ropeNeox : a.ropeNeox = b.ropeNeox
  rotaryWidth : a.rotaryWidth = b.rotaryWidth
  rope : a.rope.Agree b.rope (b.rotaryWidth / 2)
  embed : a.embed = b.embed
  lmHead : a.lmHead = b.lmHead
  outputNorm : a.outputNorm = b.outputNorm
  layers : a.layers = b.layers

def LayerWeights.dense (l : LayerWeights) : DenseLayer where
  attnNorm := l.attentionNorm
  ffnNorm := l.ffnNorm
  wq := l.attentionWq.weight
  wk := l.attentionWk.weight
  wv := l.attentionWv.weight
  wo := l.attentionWo.weight
  w1 := l.feedForwardW1.weight
  w2 := l.feedForwardW2.weight
  w3 := l.feedForwardW3.weight
  bq := l.attentionBq
  bk := l.attentionBk
  bv := l.attentionBv
  ffnWidth := l.feedForwardW1.dims.headD 0

noncomputable def ModelWeights.dense (m : ModelWeights) : DenseModel where
  nEmbd := m.embeddingLength
  nHead := m.nHead
  nKvHead := m.nKvHead
  headDim := m.headDim
  eps := m.rmsNormEps
  ropeNeox := m.ropeNeox
  rotaryWidth := m.rope.headDim
  rope := precomputFreqsCis m.rope
  embed := m.tokEmbeddings.weight
  lmHead := m.output.weight
  outputNorm := m.norm
  layers := m.layers.map LayerWeights.dense

def GpuLayer.dense (nInter : ℕ) (l : GpuLayer) : DenseLayer where
  attnNorm := l.attnNormW
  ffnNorm := l.ffnNormW
  wq := l.wq.weight
  wk := l.wk.weight
  wv := l.wv.weight
  wo := l.wo.weight
  w1 := l.w1.weight
  w2 := l.w2.weight
  w3 := l.w3.weight
  bq := none
  bk := none
  bv := none
  ffnWidth := nInter

noncomputable def GpuModel.dense (m : GpuModel) : DenseModel where
  nEmbd := m.nEmbd
  nHead := m.nHead
  nKvHead := m.nKvHead
  headDim := m.headDim
  eps := m.eps
  ropeNeox := false
  rotaryWidth := m.headDim
  rope := plainTables m.ropeBase m.headDim m.maxSeq
  embed := { dims := [m.vocab, m.nEmbd], values := m.embed }
  lmHead := m.lmHead.weight
  outputNorm := m.finalNormW
  layers := m.layers.map (GpuLayer.dense m.nInter)

namespace VkLayer

/-- Gate rows, then up rows, in one buffer. -/
def gateRows (nInter : ℕ) (w13 : VkWeight) : Weight :=
  blockRows nInter w13.nb (w13.values.take (nInter * (256 * w13.nb)))

def upRows (nInter : ℕ) (w13 : VkWeight) : Weight :=
  blockRows nInter w13.nb (w13.values.drop (nInter * (256 * w13.nb)))

/-- The rotary projections of decode take their widths from the metadata: `n_embd` rows of
`n_embd / 256` blocks for the query, whatever the tensor's shape. -/
def queryRows (nEmbd : ℕ) (l : VkLayer) : Weight :=
  blockRows nEmbd (nEmbd / 256)
    (match l.wqk with
      | some wqk => wqk.take (nEmbd * (256 * (nEmbd / 256)))
      | none => l.wq.values)

def keyRows (nEmbd kvDim : ℕ) (l : VkLayer) : Weight :=
  blockRows kvDim (nEmbd / 256)
    (match l.wqk with
      | some wqk => wqk.drop (nEmbd * (256 * (nEmbd / 256)))
      | none => l.wk.values)

/-- The weights of a decoding step. -/
def decodeDense (nEmbd kvDim nInter : ℕ) (l : VkLayer) : DenseLayer where
  attnNorm := l.attnNorm
  ffnNorm := l.ffnNorm
  wq := l.queryRows nEmbd
  wk := l.keyRows nEmbd kvDim
  wv := blockRows kvDim l.wv.nb l.wv.values
  wo := blockRows nEmbd l.wo.nb l.wo.values
  w1 := gateRows nInter (l.w13Q3.getD l.w13)
  w2 := blockRows nEmbd l.w2.nb l.w2.values
  w3 := upRows nInter (l.w13Q3.getD l.w13)
  bq := none
  bk := none
  bv := none
  ffnWidth := nInter

/-- The weights of prefill and verification: the stored gate and up, the half-precision copies. -/
def prefillDense (nEmbd kvDim nInter : ℕ) (l : VkLayer) : DenseLayer :=
  { l.decodeDense nEmbd kvDim nInter with
    wv := l.wvF16
    w1 := gateRows nInter l.w13
    w2 := l.w2F16
    w3 := upRows nInter l.w13 }

end VkLayer

namespace VkModelWeights

/-- The lane's model with a given reading of its layers. -/
noncomputable def denseWith (m : VkModelWeights) (layer : VkLayer → DenseLayer) : DenseModel where
  nEmbd := m.nEmbd
  nHead := m.nHead
  nKvHead := m.nKv
  headDim := m.hd
  eps := m.eps
  ropeNeox := false
  rotaryWidth := m.hd
  rope := plainTables m.ropeBase m.hd m.maxSeq
  embed := { dims := [m.vocab, m.nEmbd], values := m.embed }
  lmHead := m.lmHead
  outputNorm := m.finalNorm
  layers := m.layers.map layer

noncomputable def decodeDense (m : VkModelWeights) : DenseModel :=
  m.denseWith (VkLayer.decodeDense m.nEmbd (m.nKv * m.hd) m.nInter)

noncomputable def prefillDense (m : VkModelWeights) : DenseModel :=
  m.denseWith (VkLayer.prefillDense m.nEmbd (m.nKv * m.hd) m.nInter)

end VkModelWeights

/-! ### What the GPU loaders take for granted -/

/-- The head of the file: `output.weight`, else the embedding. -/
def Gguf.head (gguf : Gguf) : Option Weight :=
  ((gguf.tensors .output).or (gguf.tensors .tokenEmbd)).map QTensor.weight

/-- The elements of a tensor, none for an absent one. -/
def Gguf.values (gguf : Gguf) (name : TensorName) : List ℚ :=
  ((gguf.tensors name).map QTensor.values).getD []

def candleRope (gguf : Gguf) (hp : HParams) (headDim cap : ℕ) : RopeArgs where
  headDim
  freqBase := hp.ropeFreqBase
  maxSeq := effectiveMaxSeq hp cap
  freqFactors := (gguf.tensors .ropeFreqs).map QTensor.values
  scaling := ropeScalingOf hp

/-- A llama with whole-head rotary pairs at plain frequencies, an embedding of the declared width,
and a head with the elements `head`, in the embedding's shape. -/
structure PlainLlama (gguf : Gguf) (cap : ℕ) (head : List ℚ) (hp : HParams) (headDim : ℕ) :
    Prop where
  read : HParams.read gguf.metadata ArchSpec.llama = .ok hp
  headDim_eq : hp.headDim = .ok headDim
  family : detect gguf.metadata = .ok ArchSpec.llama
  ropeDim : hp.ropeDim.getD headDim = headDim
  rope : (candleRope gguf hp headDim cap).Plain (min (effectiveMaxSeq hp cap) gpuMaxSeq)
  embedShape : ∃ vocab, gguf.dims .tokenEmbd = [vocab, hp.nEmbd]
  head_eq : gguf.head = some { dims := gguf.dims .tokenEmbd, values := head }

/-- The wgpu lane takes a layer's matrices as stored and one width for every feed-forward. -/
structure GpuLayerShapes (gguf : Gguf) (i : ℕ) : Prop where
  matrices : ∀ tensor ∈ [BlockTensor.attnQ, .attnK, .attnV, .attnOutput, .ffnGate, .ffnDown, .ffnUp],
    (gguf.dims (.blk i tensor)).length = 2
  ffnWidth : (gguf.dims (.blk i .ffnGate)).headD 0 = (gguf.dims (.blk 0 .ffnGate)).headD 0

/-- The raw-Vulkan lane takes a layer's widths from the metadata and the first layer. -/
structure VkLayerShapes (gguf : Gguf) (env : VkEnv) (quantize : GgmlDType → List ℚ → List ℚ)
    (nEmbd kvDim i : ℕ) : Prop where
  attnQ : gguf.dims (.blk i .attnQ) = [nEmbd, nEmbd]
  attnK : gguf.dims (.blk i .attnK) = [kvDim, nEmbd]
  attnV : gguf.dims (.blk i .attnV) = [kvDim, nEmbd]
  attnOutput : ∃ cols, gguf.dims (.blk i .attnOutput) = [nEmbd, cols]
  ffnGate : ∃ cols, gguf.dims (.blk i .ffnGate) = [(gguf.dims (.blk 0 .ffnGate)).headD 0, cols]
  ffnUp : gguf.dims (.blk i .ffnUp) = gguf.dims (.blk i .ffnGate)
  ffnDown : gguf.dims (.blk i .ffnDown) = [nEmbd, (gguf.dims (.blk 0 .ffnGate)).headD 0]
  gateup : env.q3Gateup = true →
    quantize .q3k (gguf.values (.blk i .ffnGate) ++ gguf.values (.blk i .ffnUp)) =
      gguf.values (.blk i .ffnGate) ++ gguf.values (.blk i .ffnUp)

/-! ### What each loader has read -/

/-- A successful candle load, step by step. -/
structure CandleRead (gguf : Gguf) (cap : ℕ) (m : ModelWeights) (spec : ArchSpec) (hp : HParams)
    (headDim : ℕ) : Prop where
  detect_eq : detect gguf.metadata = .ok spec
  read : HParams.read gguf.metadata spec = .ok hp
  headDim_eq : hp.headDim = .ok headDim
  eps : hp.rmsEps = some m.rmsNormEps
  embed : gguf.tensor .tokenEmbd = .ok m.tokEmbeddings
  norm : (gguf.tensor .outputNorm).map QTensor.values = .ok m.norm
  head : gguf.head = some m.output.weight
  layers : List.Forall₂ (fun i l => loadLayerWeights gguf spec i = .ok l)
    (List.range hp.nLayers) m.layers
  embeddingLength : m.embeddingLength = hp.nEmbd
  nHead : m.nHead = hp.nHead
  nKvHead : m.nKvHead = hp.nHeadKv
  headDim_model : m.headDim = headDim
  ropeNeox : m.ropeNeox = spec.ropeNeox
  rope : m.rope = candleRope gguf hp (hp.ropeDim.getD headDim) cap

theorem fromGgufRequant_read {gguf : Gguf} {cap : ℕ} {m : ModelWeights}
    (hload : fromGgufRequant gguf cap = .ok m) :
    ∃ spec hp headDim, CandleRead gguf cap m spec hp headDim := by
  unfold fromGgufRequant at hload
  obtain ⟨spec, hdetect, hload⟩ := bind_eq_ok.mp hload
  obtain ⟨hp, hread, hload⟩ := bind_eq_ok.mp hload
  obtain ⟨_, hdense, hload⟩ := bind_eq_ok.mp hload
  obtain ⟨headDim, hheadDim, hload⟩ := bind_eq_ok.mp hload
  obtain ⟨eps, heps, hload⟩ := bind_eq_ok.mp hload
  obtain ⟨embed, hembed, hload⟩ := bind_eq_ok.mp hload
  obtain ⟨norm, hnorm, hload⟩ := bind_eq_ok.mp hload
  obtain ⟨layers, hlayers, hload⟩ := bind_eq_ok.mp hload
  obtain rfl := pure_eq_ok.mp hload
  refine ⟨spec, hp, headDim, hdetect, hread, hheadDim, requireRmsEps_eq_ok.mp heps, hembed, ?_, ?_, mapM_eq_ok.mp hlayers,
    rfl, rfl, rfl, rfl, rfl, rfl⟩
  · rw [hnorm]
    rfl
  · have hsome := Gguf.tensor_eq_ok.mp hembed
    cases hout : gguf.tensors .output with
    | none => simp [Gguf.head, Gguf.tensor, hout, hsome]
    | some tensor => simp [Gguf.head, Gguf.tensor, hout]

/-- What a plain llama's GPU model is, whichever lane loads it. The head has the elements `head`
once the embedding is as wide as declared. -/
structure PlainRead (gguf : Gguf) (b : DenseModel) (head : List ℚ) (hp : HParams) (headDim : ℕ) :
    Prop where
  read : HParams.read gguf.metadata ArchSpec.llama = .ok hp
  headDim_eq : hp.headDim = .ok headDim
  nEmbd : b.nEmbd = hp.nEmbd
  nHead : b.nHead = hp.nHead
  nKvHead : b.nKvHead = hp.nHeadKv
  headDim_model : b.headDim = headDim
  eps : b.eps = hp.rmsEps.getD (1 / 100000)
  ropeNeox : b.ropeNeox = false
  rotaryWidth : b.rotaryWidth = headDim
  rope : b.rope = plainTables hp.ropeFreqBase headDim gpuMaxSeq
  embed : ∃ vocab, b.embed = { dims := [vocab, hp.nEmbd], values := gguf.values .tokenEmbd } ∧
    (gguf.dims .tokenEmbd).head? = some vocab
  lmHead : ∀ vocab, gguf.dims .tokenEmbd = [vocab, hp.nEmbd] →
    b.lmHead = { dims := [vocab, hp.nEmbd], values := head }
  outputNorm : (gguf.tensor .outputNorm).map QTensor.values = .ok b.outputNorm

theorem Gguf.values_of_tensor {gguf : Gguf} {name : TensorName} {tensor : QTensor}
    (htensor : gguf.tensor name = .ok tensor) : gguf.values name = tensor.values := by
  simp [Gguf.values, Gguf.tensor_eq_ok.mp htensor]

theorem CandleRead.embed_weight {gguf : Gguf} {cap : ℕ} {m : ModelWeights} {spec : ArchSpec}
    {hp : HParams} {headDim : ℕ} (hm : CandleRead gguf cap m spec hp headDim) :
    m.tokEmbeddings.weight =
      { dims := gguf.dims .tokenEmbd, values := gguf.values .tokenEmbd } := by
  rw [Gguf.dims_of_tensor hm.embed, Gguf.values_of_tensor hm.embed]
  rfl

/-- Everything but the layers: the two loaders agree on a plain llama and on nothing else. -/
theorem sameModel_iff_plainLlama {gguf : Gguf} {cap : ℕ} {m : ModelWeights} {b : DenseModel}
    {spec : ArchSpec} {hp hpm : HParams} {headDim headDimm : ℕ} {head : List ℚ}
    (hm : CandleRead gguf cap m spec hpm headDimm) (hb : PlainRead gguf b head hp headDim) :
    SameModel m.dense b ↔ PlainLlama gguf cap head hp headDim ∧ m.dense.layers = b.layers := by
  obtain ⟨vocab, hembed, hvocab⟩ := hb.embed
  have hllama : spec = ArchSpec.llama → hpm = hp ∧ headDimm = headDim := by
    rintro rfl
    have hhp : hpm = hp := Except.ok.inj (hm.read.symm.trans hb.read)
    subst hhp
    exact ⟨rfl, Except.ok.inj (hm.headDim_eq.symm.trans hb.headDim_eq)⟩
  constructor
  · intro hsame
    have hspec : spec = ArchSpec.llama := by
      have hneox : spec.ropeNeox = false :=
        hm.ropeNeox.symm.trans (hsame.ropeNeox.trans hb.ropeNeox)
      rcases detect_cases hm.detect_eq with hllama | rfl
      · exact hllama
      · cases hneox
    obtain ⟨rfl, rfl⟩ := hllama hspec
    subst hspec
    have hwidth : hpm.ropeDim.getD headDimm = headDimm := by
      have := hsame.rotaryWidth.trans hb.rotaryWidth
      rwa [show m.dense.rotaryWidth = hpm.ropeDim.getD headDimm by
        rw [ModelWeights.dense, hm.rope]; rfl] at this
    have hshape : gguf.dims .tokenEmbd = [vocab, hpm.nEmbd] := by
      have := hm.embed_weight.symm.trans (hsame.embed.trans hembed)
      exact (Weight.mk.inj this).1
    refine ⟨⟨hb.read, hb.headDim_eq, hm.detect_eq, hwidth, ?_, ⟨vocab, hshape⟩, ?_⟩, hsame.layers⟩
    · have hagree := hsame.rope
      rw [hb.rope, hb.rotaryWidth, show m.dense.rope = precomputFreqsCis m.rope from rfl, hm.rope,
        hwidth] at hagree
      exact (precomputFreqsCis_agree_iff (candleRope gguf hpm headDimm cap) gpuMaxSeq).mp hagree
    · rw [hm.head, hshape]
      exact congrArg some (hsame.lmHead.trans (hb.lmHead vocab hshape))
  · rintro ⟨hplain, hlayers⟩
    have hspec : spec = ArchSpec.llama :=
      Except.ok.inj (hm.detect_eq.symm.trans hplain.family)
    obtain ⟨rfl, rfl⟩ := hllama hspec
    subst hspec
    have hwidth := hplain.ropeDim
    obtain ⟨vocab', hshape⟩ := hplain.embedShape
    have hvocab' : vocab' = vocab := by
      rw [hshape] at hvocab
      exact Option.some.inj hvocab
    subst hvocab'
    exact {
      nEmbd := hm.embeddingLength.trans hb.nEmbd.symm
      nHead := hm.nHead.trans hb.nHead.symm
      nKvHead := hm.nKvHead.trans hb.nKvHead.symm
      headDim := hm.headDim_model.trans hb.headDim_model.symm
      eps := by
        rw [hb.eps, hm.eps]
        rfl
      ropeNeox := hm.ropeNeox.trans hb.ropeNeox.symm
      rotaryWidth := by
        rw [hb.rotaryWidth, ModelWeights.dense, hm.rope]
        exact hwidth
      rope := by
        rw [hb.rope, hb.rotaryWidth, show m.dense.rope = precomputFreqsCis m.rope from rfl, hm.rope,
          hwidth]
        exact (precomputFreqsCis_agree_iff (candleRope gguf hpm headDimm cap) gpuMaxSeq).mpr
          hplain.rope
      embed := by
        rw [hembed, ← hshape]
        exact hm.embed_weight
      lmHead := by
        rw [hb.lmHead _ hshape]
        have := hm.head.symm.trans hplain.head_eq
        rw [hshape] at this
        exact Option.some.inj this
      outputNorm := Except.ok.inj (hm.norm.symm.trans hb.outputNorm)
      layers := hlayers
    }

end Zllm.Loader

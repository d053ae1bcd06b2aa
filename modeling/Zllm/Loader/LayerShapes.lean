import Zllm.Loader.SameModel

/-!
# The layers of a GGUF

The candle loader keeps a layer as stored. The wgpu loader keeps its matrices as rows of whole
blocks; the raw-Vulkan loader cuts its buffers into the rows the metadata declares. Both keep the
stored layer exactly when it has the shapes they take for granted.
-/

namespace Zllm.Loader

open Outcome

def Gguf.weight (gguf : Gguf) (name : TensorName) : Weight :=
  { dims := gguf.dims name, values := gguf.values name }

theorem Gguf.weight_of_tensor {gguf : Gguf} {name : TensorName} {tensor : QTensor}
    (htensor : gguf.tensor name = .ok tensor) : gguf.weight name = tensor.weight := by
  rw [Gguf.weight, Gguf.dims_of_tensor htensor, Gguf.values_of_tensor htensor]
  rfl

theorem QTensor.dim_eq_ok {tensor : QTensor} {i n : ℕ} :
    tensor.dim i = .ok n ↔ tensor.dims[i]? = some n := by
  unfold QTensor.dim
  cases tensor.dims[i]? <;> simp

/-- A two-dimensional tensor of 256-element blocks has rows of whole blocks. -/
theorem QTensor.blocks_of_dims {tensor : QTensor} {rows cols : ℕ}
    (hdtype : tensor.dtype = .q4k ∨ tensor.dtype = .q6k) (hdims : tensor.dims = [rows, cols]) :
    256 ∣ cols := by
  have hdvd := tensor.blockSize_dvd
  rw [hdims] at hdvd
  rcases hdtype with h | h <;> simpa [h, GgmlDType.blockSize] using hdvd

/-- The layer a llama GGUF stores. -/
def storedLayer (gguf : Gguf) (i : ℕ) : DenseLayer where
  attnNorm := gguf.values (.blk i .attnNorm)
  ffnNorm := gguf.values (.blk i .ffnNorm)
  wq := gguf.weight (.blk i .attnQ)
  wk := gguf.weight (.blk i .attnK)
  wv := gguf.weight (.blk i .attnV)
  wo := gguf.weight (.blk i .attnOutput)
  w1 := gguf.weight (.blk i .ffnGate)
  w2 := gguf.weight (.blk i .ffnDown)
  w3 := gguf.weight (.blk i .ffnUp)
  bq := none
  bk := none
  bv := none
  ffnWidth := (gguf.dims (.blk i .ffnGate)).headD 0

theorem loadLayerWeights_dense {gguf : Gguf} {i : ℕ} {l : LayerWeights}
    (hload : loadLayerWeights gguf ArchSpec.llama i = .ok l) : l.dense = storedLayer gguf i := by
  unfold loadLayerWeights loadBias loadWhen at hload
  obtain ⟨wq, hwq, hload⟩ := bind_eq_ok.mp hload
  obtain ⟨wk, hwk, hload⟩ := bind_eq_ok.mp hload
  obtain ⟨wv, hwv, hload⟩ := bind_eq_ok.mp hload
  obtain ⟨wo, hwo, hload⟩ := bind_eq_ok.mp hload
  obtain ⟨bq, hbq, hload⟩ := bind_eq_ok.mp hload
  obtain ⟨bk, hbk, hload⟩ := bind_eq_ok.mp hload
  obtain ⟨bv, hbv, hload⟩ := bind_eq_ok.mp hload
  obtain ⟨w1, hw1, hload⟩ := bind_eq_ok.mp hload
  obtain ⟨w2, hw2, hload⟩ := bind_eq_ok.mp hload
  obtain ⟨w3, hw3, hload⟩ := bind_eq_ok.mp hload
  obtain ⟨attnNorm, hattnNorm, hload⟩ := bind_eq_ok.mp hload
  obtain ⟨ffnNorm, hffnNorm, hload⟩ := bind_eq_ok.mp hload
  obtain rfl := pure_eq_ok.mp hload
  cases hbq
  cases hbk
  cases hbv
  simp only [LayerWeights.dense, storedLayer, Gguf.weight_of_tensor hwq, Gguf.weight_of_tensor hwk,
    Gguf.weight_of_tensor hwv, Gguf.weight_of_tensor hwo, Gguf.weight_of_tensor hw1,
    Gguf.weight_of_tensor hw2, Gguf.weight_of_tensor hw3, Gguf.values_of_tensor hattnNorm,
    Gguf.values_of_tensor hffnNorm, Gguf.dims_of_tensor hw1]

theorem loadNorm_values {gguf : Gguf} {name : TensorName} {values : List ℚ}
    (hload : loadNorm gguf name = .ok values) : values = gguf.values name := by
  unfold loadNorm at hload
  obtain ⟨tensor, htensor, hload⟩ := bind_eq_ok.mp hload
  rw [Gguf.values_of_tensor htensor]
  exact (pure_eq_ok.mp hload).symm

/-! ### The wgpu lane -/

theorem uploadBlocks_eq_ok {tensor : QTensor} {rows nb : ℕ} {w : ResidentWeight}
    (hload : uploadBlocks tensor rows nb = .ok w) :
    w = { rows, cols := 256 * nb, values := tensor.values } := by
  unfold uploadBlocks at hload
  split_ifs at hload
  exact (Except.ok.inj hload).symm

theorem loadW_weight_iff {gguf : Gguf} {name : TensorName} {w : ResidentWeight}
    (hload : loadW gguf name = .ok w) :
    gguf.weight name = w.weight ↔ (gguf.dims name).length = 2 := by
  unfold loadW at hload
  obtain ⟨qt, htensor, hload⟩ := bind_eq_ok.mp hload
  obtain ⟨rows, hrows, hload⟩ := bind_eq_ok.mp hload
  obtain ⟨cols, hcols, hload⟩ := bind_eq_ok.mp hload
  split_ifs at hload with hdtype
  obtain rfl := uploadBlocks_eq_ok hload
  rw [Gguf.weight_of_tensor htensor, Gguf.dims_of_tensor htensor]
  rw [QTensor.dim_eq_ok] at hrows hcols
  simp only [QTensor.weight, ResidentWeight.weight, Weight.mk.injEq, and_true]
  constructor
  · intro hdims
    rw [hdims]
    rfl
  · intro hlength
    have hdims : qt.dims = [rows, cols] := by
      obtain ⟨a, b, hab⟩ := List.length_eq_two.mp hlength
      rw [hab] at hrows hcols ⊢
      simp_all
    rw [hdims, Nat.mul_div_cancel' (QTensor.blocks_of_dims hdtype hdims)]

theorem loadGpuLayer_dense_iff {gguf : Gguf} {i : ℕ} {l : GpuLayer}
    (hload : loadGpuLayer gguf i = .ok l) :
    storedLayer gguf i = l.dense ((gguf.dims (.blk 0 .ffnGate)).headD 0) ↔
      GpuLayerShapes gguf i := by
  unfold loadGpuLayer at hload
  obtain ⟨attnNorm, hattnNorm, hload⟩ := bind_eq_ok.mp hload
  obtain ⟨ffnNorm, hffnNorm, hload⟩ := bind_eq_ok.mp hload
  obtain ⟨wq, hwq, hload⟩ := bind_eq_ok.mp hload
  obtain ⟨wk, hwk, hload⟩ := bind_eq_ok.mp hload
  obtain ⟨wv, hwv, hload⟩ := bind_eq_ok.mp hload
  obtain ⟨wo, hwo, hload⟩ := bind_eq_ok.mp hload
  obtain ⟨w1, hw1, hload⟩ := bind_eq_ok.mp hload
  obtain ⟨w2, hw2, hload⟩ := bind_eq_ok.mp hload
  obtain ⟨w3, hw3, hload⟩ := bind_eq_ok.mp hload
  obtain rfl := pure_eq_ok.mp hload
  simp only [storedLayer, GpuLayer.dense, DenseLayer.mk.injEq, loadW_weight_iff hwq,
    loadW_weight_iff hwk, loadW_weight_iff hwv, loadW_weight_iff hwo, loadW_weight_iff hw1,
    loadW_weight_iff hw2, loadW_weight_iff hw3, loadNorm_values hattnNorm,
    loadNorm_values hffnNorm, true_and]
  constructor
  · rintro ⟨hq, hk, hv, ho, hg, hd, hu, hwidth⟩
    refine ⟨?_, hwidth⟩
    simp only [List.forall_mem_cons, List.not_mem_nil, false_imp_iff, implies_true, and_true]
    exact ⟨hq, hk, hv, ho, hg, hd, hu⟩
  · rintro ⟨hmatrices, hwidth⟩
    simp only [List.forall_mem_cons, List.not_mem_nil, false_imp_iff, implies_true, and_true]
      at hmatrices
    obtain ⟨hq, hk, hv, ho, hg, hd, hu⟩ := hmatrices
    exact ⟨hq, hk, hv, ho, hg, hd, hu, hwidth⟩

/-! ### The raw-Vulkan lane -/

theorem Gguf.length_values {gguf : Gguf} {name : TensorName} {tensor : QTensor}
    (htensor : gguf.tensor name = .ok tensor) :
    (gguf.values name).length = (gguf.dims name).prod := by
  rw [Gguf.values_of_tensor htensor, Gguf.dims_of_tensor htensor, tensor.length_values]

theorem requireQ4_eq_ok {dtype : GgmlDType} {name : TensorName} {u : Unit} :
    requireQ4 dtype name = .ok u ↔ dtype = .q4k := by
  unfold requireQ4
  split_ifs with hdtype <;> simp [hdtype]

/-- What an uploaded buffer remembers of its tensor. -/
structure VkRead (gguf : Gguf) (name : TensorName) (tensor : QTensor) (cols : ℕ) (w : VkWeight) :
    Prop where
  tensor_eq : gguf.tensor name = .ok tensor
  dtype : tensor.dtype = .q4k ∨ tensor.dtype = .q6k
  cols_eq : tensor.dims[1]? = some cols
  nb : w.nb = cols / 256
  values : w.values = gguf.values name

theorem loadVkW_read {gguf : Gguf} {name : TensorName} {w : VkWeight}
    (hload : loadVkW gguf name = .ok w) : ∃ tensor cols, VkRead gguf name tensor cols w := by
  unfold loadVkW at hload
  obtain ⟨qt, htensor, hload⟩ := bind_eq_ok.mp hload
  obtain ⟨cols, hcols, hload⟩ := bind_eq_ok.mp hload
  have hvalues := Gguf.values_of_tensor htensor
  rw [QTensor.dim_eq_ok] at hcols
  split_ifs at hload with hq4 hq6
  · obtain rfl := pure_eq_ok.mp hload
    exact ⟨qt, cols, htensor, .inl hq4, hcols, rfl, hvalues.symm⟩
  · obtain ⟨rows, -, hload⟩ := bind_eq_ok.mp hload
    split_ifs at hload
    obtain rfl := pure_eq_ok.mp hload
    exact ⟨qt, cols, htensor, .inr hq6, hcols, rfl, hvalues.symm⟩

/-- Cut into `rows` rows, a buffer is the stored matrix when that has so many rows. -/
theorem VkRead.weight_iff {gguf : Gguf} {name : TensorName} {tensor : QTensor} {cols rows : ℕ}
    {w : VkWeight} (hread : VkRead gguf name tensor cols w) :
    gguf.weight name = blockRows rows w.nb w.values ↔ ∃ cols, gguf.dims name = [rows, cols] := by
  simp only [Gguf.weight, blockRows, Weight.mk.injEq, hread.values, hread.nb, and_true]
  constructor
  · intro hdims
    exact ⟨_, hdims⟩
  · rintro ⟨cols', hdims⟩
    rw [hdims]
    rw [Gguf.dims_of_tensor hread.tensor_eq] at hdims
    have hcols : cols' = cols := by
      have := hread.cols_eq
      rw [hdims] at this
      exact Option.some.inj this
    subst hcols
    rw [Nat.mul_div_cancel' (QTensor.blocks_of_dims hread.dtype hdims)]

/-- Cut at a width that is whole blocks, it is the stored matrix when that has the very shape. -/
theorem weight_eq_blockRows_iff {gguf : Gguf} {name : TensorName} {rows width : ℕ}
    (hwidth : 256 ∣ width) :
    gguf.weight name = blockRows rows (width / 256) (gguf.values name) ↔
      gguf.dims name = [rows, width] := by
  rw [Gguf.weight, blockRows, Weight.mk.injEq, Nat.mul_div_cancel' hwidth]
  simp

theorem split_iff {a b v : List ℚ} {k : ℕ} (ha : a.length = k) :
    a = v.take k ∧ b = v.drop k ↔ v = a ++ b := by
  constructor
  · rintro ⟨htake, hdrop⟩
    rw [htake, hdrop, List.take_append_drop]
  · rintro rfl
    rw [List.take_left' ha, List.drop_left' ha]
    exact ⟨rfl, rfl⟩

/-- Two matrices in one buffer are read back when the first ends where the second is looked for. -/
theorem weights_split_iff {gguf : Gguf} {first second : TensorName} {tensor : QTensor}
    (htensor : gguf.tensor first = .ok tensor) {n m nb : ℕ} {v : List ℚ} :
    gguf.weight first = blockRows n nb (v.take (n * (256 * nb))) ∧
        gguf.weight second = blockRows m nb (v.drop (n * (256 * nb))) ↔
      gguf.dims first = [n, 256 * nb] ∧ gguf.dims second = [m, 256 * nb] ∧
        v = gguf.values first ++ gguf.values second := by
  simp only [Gguf.weight, blockRows, Weight.mk.injEq]
  have hlength : gguf.dims first = [n, 256 * nb] →
      (gguf.values first).length = n * (256 * nb) := by
    intro hdims
    rw [Gguf.length_values htensor, hdims]
    simp
  constructor
  · rintro ⟨⟨hfirst, htake⟩, hsecond, hdrop⟩
    exact ⟨hfirst, hsecond, (split_iff (hlength hfirst)).mp ⟨htake, hdrop⟩⟩
  · rintro ⟨hfirst, hsecond, hv⟩
    obtain ⟨htake, hdrop⟩ := (split_iff (hlength hfirst)).mpr hv
    exact ⟨⟨hfirst, htake⟩, hsecond, hdrop⟩

theorem uploadF16t_weight_iff {gguf : Gguf} {name : TensorName} {tensor : QTensor} {n k : ℕ}
    {w : Weight} (htensor : gguf.tensor name = .ok tensor)
    (hload : uploadF16t tensor n k = .ok w) :
    gguf.weight name = w ↔ gguf.dims name = [n, k] := by
  unfold uploadF16t at hload
  split_ifs at hload
  obtain rfl := Except.ok.inj hload
  rw [Gguf.weight, Weight.mk.injEq, ← Gguf.values_of_tensor htensor]
  constructor
  · exact fun h => h.1
  · intro hdims
    refine ⟨hdims, (List.take_of_length_le ?_).symm⟩
    rw [Gguf.length_values htensor, hdims]
    simp

/-- The gate-and-up buffer: stored as they are, or through three bits. -/
theorem loadGateup_read {quantize : GgmlDType → List ℚ → List ℚ} {gguf : Gguf} {i : ℕ}
    {asQ3 : Bool} {w : VkWeight} (hload : loadGateup quantize gguf i asQ3 = .ok w) :
    ∃ gate cols, gguf.tensor (.blk i .ffnGate) = .ok gate ∧ gate.dtype = .q4k ∧
      gate.dims[1]? = some cols ∧ w.nb = cols / 256 ∧
      w.values = (if asQ3 then quantize .q3k else id)
        (gguf.values (.blk i .ffnGate) ++ gguf.values (.blk i .ffnUp)) := by
  unfold loadGateup at hload
  obtain ⟨g, hg, hload⟩ := bind_eq_ok.mp hload
  obtain ⟨u, hu, hload⟩ := bind_eq_ok.mp hload
  obtain ⟨_, hgq, hload⟩ := bind_eq_ok.mp hload
  obtain ⟨_, -, hload⟩ := bind_eq_ok.mp hload
  obtain ⟨cols, hcols, hload⟩ := bind_eq_ok.mp hload
  refine ⟨g, cols, hg, requireQ4_eq_ok.mp hgq, QTensor.dim_eq_ok.mp hcols, ?_⟩
  rw [Gguf.values_of_tensor hg, Gguf.values_of_tensor hu]
  cases asQ3 with
  | false =>
    obtain rfl := pure_eq_ok.mp hload
    exact ⟨rfl, rfl⟩
  | true =>
    simp only [if_true] at hload
    split_ifs at hload
    obtain rfl := pure_eq_ok.mp hload
    exact ⟨rfl, rfl⟩

/-- Gate and up are read back when they have one shape of the lane's width and the buffer holds
their elements. -/
theorem gateup_weights_iff {quantize : GgmlDType → List ℚ → List ℚ} {gguf : Gguf} {i : ℕ}
    {asQ3 : Bool} {w : VkWeight} {nInter : ℕ} (hload : loadGateup quantize gguf i asQ3 = .ok w) :
    gguf.weight (.blk i .ffnGate) = VkLayer.gateRows nInter w ∧
        gguf.weight (.blk i .ffnUp) = VkLayer.upRows nInter w ↔
      (∃ cols, gguf.dims (.blk i .ffnGate) = [nInter, cols]) ∧
        gguf.dims (.blk i .ffnUp) = gguf.dims (.blk i .ffnGate) ∧
        w.values = gguf.values (.blk i .ffnGate) ++ gguf.values (.blk i .ffnUp) := by
  obtain ⟨gate, cols, hgate, hdtype, hcols, hnb, -⟩ := loadGateup_read hload
  rw [VkLayer.gateRows, VkLayer.upRows, weights_split_iff hgate]
  constructor
  · rintro ⟨hg, hu, hv⟩
    exact ⟨⟨_, hg⟩, hu.trans hg.symm, hv⟩
  · rintro ⟨⟨cols', hg⟩, hu, hv⟩
    have hdims := hg
    rw [Gguf.dims_of_tensor hgate] at hdims
    have hcols' : cols' = cols := by
      rw [hdims] at hcols
      exact Option.some.inj hcols
    subst hcols'
    have hblocks : 256 * w.nb = cols' := by
      rw [hnb, Nat.mul_div_cancel' (QTensor.blocks_of_dims (.inl hdtype) hdims)]
    rw [hblocks]
    exact ⟨hg, hu.trans hg, hv⟩

theorem loadWqk_eq_ok {gguf : Gguf} {i : ℕ} {wqk : List ℚ} (hload : loadWqk gguf i = .ok wqk) :
    wqk = gguf.values (.blk i .attnQ) ++ gguf.values (.blk i .attnK) := by
  unfold loadWqk at hload
  obtain ⟨wq, hwq, hload⟩ := bind_eq_ok.mp hload
  obtain ⟨wk, hwk, hload⟩ := bind_eq_ok.mp hload
  obtain ⟨_, -, hload⟩ := bind_eq_ok.mp hload
  obtain ⟨_, -, hload⟩ := bind_eq_ok.mp hload
  rw [Gguf.values_of_tensor hwq, Gguf.values_of_tensor hwk]
  exact (pure_eq_ok.mp hload).symm

theorem loadWhen_eq_ok {α : Type} {switch : Bool} {load : Except LoadError α} {a : Option α}
    (hload : loadWhen switch load = .ok a) :
    (switch = false ∧ a = none) ∨ ∃ b, switch = true ∧ load = .ok b ∧ a = some b := by
  unfold loadWhen at hload
  split_ifs at hload with hswitch
  · obtain ⟨b, hb, hload⟩ := bind_eq_ok.mp hload
    exact .inr ⟨b, hswitch, hb, (pure_eq_ok.mp hload).symm⟩
  · exact .inl ⟨by simpa using hswitch, (Except.ok.inj hload).symm⟩

/-- The rotary projections, in two buffers or fused in one, are the stored matrices when these have
the widths the metadata declares. -/
theorem queryKey_weights_iff {gguf : Gguf} {i nEmbd : ℕ} (kvDim : ℕ) {l : VkLayer}
    {query : QTensor} (hquery : gguf.tensor (.blk i .attnQ) = .ok query) (hwidth : 256 ∣ nEmbd)
    (hwq : l.wq.values = gguf.values (.blk i .attnQ))
    (hwk : l.wk.values = gguf.values (.blk i .attnK))
    (hwqk : ∀ wqk, l.wqk = some wqk →
      wqk = gguf.values (.blk i .attnQ) ++ gguf.values (.blk i .attnK)) :
    gguf.weight (.blk i .attnQ) = l.queryRows nEmbd ∧
        gguf.weight (.blk i .attnK) = l.keyRows nEmbd kvDim ↔
      gguf.dims (.blk i .attnQ) = [nEmbd, nEmbd] ∧
        gguf.dims (.blk i .attnK) = [kvDim, nEmbd] := by
  unfold VkLayer.queryRows VkLayer.keyRows
  cases hfused : l.wqk with
  | none => rw [hwq, hwk, weight_eq_blockRows_iff hwidth, weight_eq_blockRows_iff hwidth]
  | some wqk =>
    rw [weights_split_iff hquery, Nat.mul_div_cancel' hwidth]
    simp [hwqk wqk hfused]

/-- A successful layer load of the raw-Vulkan lane. -/
structure VkLayerRead (quantize : GgmlDType → List ℚ → List ℚ) (env : VkEnv) (gguf : Gguf)
    (nEmbd kvDim nInter i : ℕ) (l : VkLayer) : Prop where
  attnNorm : l.attnNorm = gguf.values (.blk i .attnNorm)
  ffnNorm : l.ffnNorm = gguf.values (.blk i .ffnNorm)
  wq : ∃ tensor cols, VkRead gguf (.blk i .attnQ) tensor cols l.wq
  wk : ∃ tensor cols, VkRead gguf (.blk i .attnK) tensor cols l.wk
  wv : ∃ tensor cols, VkRead gguf (.blk i .attnV) tensor cols l.wv
  wo : ∃ tensor cols, VkRead gguf (.blk i .attnOutput) tensor cols l.wo
  w2 : ∃ tensor cols, VkRead gguf (.blk i .ffnDown) tensor cols l.w2
  w13 : loadGateup quantize gguf i false = .ok l.w13
  w13Q3 : loadWhen env.q3Gateup (loadGateup quantize gguf i true) = .ok l.w13Q3
  wqk : ∀ wqk, l.wqk = some wqk →
    wqk = gguf.values (.blk i .attnQ) ++ gguf.values (.blk i .attnK)
  wvF16 : gguf.weight (.blk i .attnV) = l.wvF16 ↔ gguf.dims (.blk i .attnV) = [kvDim, nEmbd]
  w2F16 : gguf.weight (.blk i .ffnDown) = l.w2F16 ↔ gguf.dims (.blk i .ffnDown) = [nEmbd, nInter]

theorem loadVkLayer_read {quantize : GgmlDType → List ℚ → List ℚ} {env : VkEnv} {gguf : Gguf}
    {nEmbd kvDim nInter i : ℕ} {l : VkLayer}
    (hload : loadVkLayer quantize env gguf nEmbd kvDim nInter i = .ok l) :
    VkLayerRead quantize env gguf nEmbd kvDim nInter i l := by
  unfold loadVkLayer at hload
  obtain ⟨attnNorm, hattnNorm, hload⟩ := bind_eq_ok.mp hload
  obtain ⟨ffnNorm, hffnNorm, hload⟩ := bind_eq_ok.mp hload
  obtain ⟨wq, hwq, hload⟩ := bind_eq_ok.mp hload
  obtain ⟨wk, hwk, hload⟩ := bind_eq_ok.mp hload
  obtain ⟨wv, hwv, hload⟩ := bind_eq_ok.mp hload
  obtain ⟨wo, hwo, hload⟩ := bind_eq_ok.mp hload
  obtain ⟨w13, hw13, hload⟩ := bind_eq_ok.mp hload
  obtain ⟨w13Q3, hw13Q3, hload⟩ := bind_eq_ok.mp hload
  obtain ⟨w2, hw2, hload⟩ := bind_eq_ok.mp hload
  obtain ⟨wqk, hwqk, hload⟩ := bind_eq_ok.mp hload
  obtain ⟨_, -, hload⟩ := bind_eq_ok.mp hload
  obtain ⟨_, -, hload⟩ := bind_eq_ok.mp hload
  obtain ⟨wvDeq, hwvDeq, hload⟩ := bind_eq_ok.mp hload
  obtain ⟨w2Deq, hw2Deq, hload⟩ := bind_eq_ok.mp hload
  obtain ⟨wvF16, hwvF16, hload⟩ := bind_eq_ok.mp hload
  obtain ⟨w2F16, hw2F16, hload⟩ := bind_eq_ok.mp hload
  obtain ⟨_, -, hload⟩ := bind_eq_ok.mp hload
  obtain rfl := pure_eq_ok.mp hload
  exact {
    attnNorm := loadNorm_values hattnNorm
    ffnNorm := loadNorm_values hffnNorm
    wq := loadVkW_read hwq
    wk := loadVkW_read hwk
    wv := loadVkW_read hwv
    wo := loadVkW_read hwo
    w2 := loadVkW_read hw2
    w13 := hw13
    w13Q3 := hw13Q3
    wqk := by
      intro fused hfused
      rcases loadWhen_eq_ok hwqk with ⟨-, hnone⟩ | ⟨b, -, hb, hsome⟩
      · rw [hnone] at hfused
        cases hfused
      · rw [hsome] at hfused
        obtain rfl := Option.some.inj hfused
        exact loadWqk_eq_ok hb
    wvF16 := uploadF16t_weight_iff hwvDeq hwvF16
    w2F16 := uploadF16t_weight_iff hw2Deq hw2F16
  }

/-- The buffer decode takes gate and up from holds them as stored, unless three bits lose some. -/
theorem VkLayerRead.decode_gateup_iff {quantize : GgmlDType → List ℚ → List ℚ} {env : VkEnv}
    {gguf : Gguf} {nEmbd kvDim nInter i : ℕ} {l : VkLayer}
    (hread : VkLayerRead quantize env gguf nEmbd kvDim nInter i l) :
    gguf.weight (.blk i .ffnGate) = VkLayer.gateRows nInter (l.w13Q3.getD l.w13) ∧
        gguf.weight (.blk i .ffnUp) = VkLayer.upRows nInter (l.w13Q3.getD l.w13) ↔
      (∃ cols, gguf.dims (.blk i .ffnGate) = [nInter, cols]) ∧
        gguf.dims (.blk i .ffnUp) = gguf.dims (.blk i .ffnGate) ∧
        (env.q3Gateup = true →
          quantize .q3k (gguf.values (.blk i .ffnGate) ++ gguf.values (.blk i .ffnUp)) =
            gguf.values (.blk i .ffnGate) ++ gguf.values (.blk i .ffnUp)) := by
  rcases loadWhen_eq_ok hread.w13Q3 with ⟨hswitch, hnone⟩ | ⟨b, hswitch, hb, hsome⟩
  · obtain ⟨gate, cols, -, -, -, -, hvalues⟩ := loadGateup_read hread.w13
    rw [hnone, Option.getD_none, gateup_weights_iff hread.w13, hvalues]
    simp [hswitch]
  · obtain ⟨gate, cols, -, -, -, -, hvalues⟩ := loadGateup_read hb
    rw [hsome, Option.getD_some, gateup_weights_iff hb, hvalues]
    simp [hswitch]

/-- The buffer prefill takes them from holds them as stored. -/
theorem VkLayerRead.prefill_gateup_iff {quantize : GgmlDType → List ℚ → List ℚ} {env : VkEnv}
    {gguf : Gguf} {nEmbd kvDim nInter i : ℕ} {l : VkLayer}
    (hread : VkLayerRead quantize env gguf nEmbd kvDim nInter i l) :
    gguf.weight (.blk i .ffnGate) = VkLayer.gateRows nInter l.w13 ∧
        gguf.weight (.blk i .ffnUp) = VkLayer.upRows nInter l.w13 ↔
      (∃ cols, gguf.dims (.blk i .ffnGate) = [nInter, cols]) ∧
        gguf.dims (.blk i .ffnUp) = gguf.dims (.blk i .ffnGate) := by
  obtain ⟨gate, cols, -, -, -, -, hvalues⟩ := loadGateup_read hread.w13
  rw [gateup_weights_iff hread.w13, hvalues]
  simp

theorem loadVkLayer_dense_iff {quantize : GgmlDType → List ℚ → List ℚ} {env : VkEnv} {gguf : Gguf}
    {nEmbd kvDim i : ℕ} {l : VkLayer} (hwidth : 256 ∣ nEmbd)
    (hload : loadVkLayer quantize env gguf nEmbd kvDim ((gguf.dims (.blk 0 .ffnGate)).headD 0) i =
      .ok l) :
    storedLayer gguf i = l.decodeDense nEmbd kvDim ((gguf.dims (.blk 0 .ffnGate)).headD 0) ∧
        storedLayer gguf i = l.prefillDense nEmbd kvDim ((gguf.dims (.blk 0 .ffnGate)).headD 0) ↔
      VkLayerShapes gguf env quantize nEmbd kvDim i := by
  generalize hnInter : (gguf.dims (.blk 0 .ffnGate)).headD 0 = nInter at hload ⊢
  have hread := loadVkLayer_read hload
  obtain ⟨tq, cq, hq⟩ := hread.wq
  obtain ⟨tk, ck, hk⟩ := hread.wk
  obtain ⟨tv, cv, hv⟩ := hread.wv
  obtain ⟨ta, ca, hout⟩ := hread.wo
  obtain ⟨td, cd, hd⟩ := hread.w2
  have hqk := queryKey_weights_iff kvDim hq.tensor_eq hwidth hq.values hk.values hread.wqk
  simp only [storedLayer, VkLayer.decodeDense, VkLayer.prefillDense, DenseLayer.mk.injEq,
    hread.attnNorm, hread.ffnNorm, true_and, hread.wvF16, hread.w2F16]
  constructor
  · rintro ⟨⟨hwq, hwk, hwv, hwo, hw1, hw2, hw3, hffn⟩, ⟨-, -, hwv', -, hw1', hw2', hw3', -⟩⟩
    obtain ⟨hdimsq, hdimsk⟩ := hqk.mp ⟨hwq, hwk⟩
    obtain ⟨hgate, hup, hq3⟩ := hread.decode_gateup_iff.mp ⟨hw1, hw3⟩
    exact ⟨hdimsq, hdimsk, hwv', hout.weight_iff.mp hwo, hnInter ▸ hgate, hup, hnInter ▸ hw2',
      hq3⟩
  · rintro ⟨hdimsq, hdimsk, hdimsv, hdimso, hgate, hup, hdown, hq3⟩
    rw [hnInter] at hgate hdown
    obtain ⟨hwq, hwk⟩ := hqk.mpr ⟨hdimsq, hdimsk⟩
    obtain ⟨hw1, hw3⟩ := hread.decode_gateup_iff.mpr ⟨hgate, hup, hq3⟩
    obtain ⟨hw1', hw3'⟩ := hread.prefill_gateup_iff.mpr ⟨hgate, hup⟩
    have hwo := hout.weight_iff.mpr hdimso
    have hffn : (gguf.dims (.blk i .ffnGate)).headD 0 = nInter := by
      obtain ⟨cols, hcols⟩ := hgate
      rw [hcols]
      rfl
    exact ⟨⟨hwq, hwk, hv.weight_iff.mpr ⟨_, hdimsv⟩, hwo, hw1, hd.weight_iff.mpr ⟨_, hdown⟩, hw3,
      hffn⟩, ⟨hwq, hwk, hdimsv, hwo, hw1', hdown, hw3', hffn⟩⟩

end Zllm.Loader

import Zllm.Gpu.KernelRows
import Zllm.Loader.LayerShapes

/-!
# A token through the wgpu forward

For a model whose tensors have the shapes its metadata declare, `forward` is one position through a
tower of decoder layers, whatever earlier calls left in the scratch buffers and uniforms.
-/

namespace Zllm.Gpu.SingleStream

open Tile Loader Llama CausalTower Outcome

variable (model : GpuModel)

/-! ### The model as a tower of decoder layers -/

noncomputable def shape : Shape where
  nEmbd := model.nEmbd
  nHead := model.nHead
  nKvHead := model.nKvHead
  headDim := model.headDim
  nInter := model.nInter
  eps := model.eps
  cos := (plainTables model.ropeBase model.headDim model.maxSeq).cos
  sin := (plainTables model.ropeBase model.headDim model.maxSeq).sin

noncomputable def layerWeights (layer : GpuLayer) : Weights where
  attnNorm := normWeight layer.attnNormW
  ffnNorm := normWeight layer.ffnNormW
  wq := weightAt layer.wq
  wk := weightAt layer.wk
  wv := weightAt layer.wv
  wo := weightAt layer.wo
  w1 := weightAt layer.w1
  w2 := weightAt layer.w2
  w3 := weightAt layer.w3

noncomputable def tower (l : ℕ) : CausalLayer (ℕ → ℝ) ((ℕ → ℝ) × (ℕ → ℝ)) :=
  (shape model).layer
    ((model.layers.map layerWeights).getD l ⟨0, 0, 0, 0, 0, 0, 0, 0, 0⟩)

theorem tower_eq {l : ℕ} {layer : GpuLayer} (hlayer : model.layers[l]? = some layer) :
    tower model l = (shape model).layer (layerWeights layer) := by
  rw [tower, List.getD_eq_getElem?_getD, List.getElem?_map, hlayer]
  rfl

/-- The caches' rows. -/
noncomputable def caches (s : GpuState) (l i : ℕ) : (ℕ → ℝ) × (ℕ → ℝ) :=
  (row (kvDim model) (s.kCache l) i, row (kvDim model) (s.vCache l) i)

/-- The logits of a row that has come through the layers. -/
noncomputable def headLogits (x : ℕ → ℝ) : ℕ → ℝ :=
  project model.vocab model.lmHead.cols (weightAt model.lmHead)
    (rmsNorm model.nEmbd model.eps (normWeight model.finalNormW) x)

/-! ### Shapes -/

def HasShape (w : ResidentWeight) (rows cols : ℕ) : Prop := w.rows = rows ∧ w.cols = cols

/-- The layer's matrices are of the widths the metadata declare. -/
structure LayerShaped (layer : GpuLayer) : Prop where
  wq : HasShape layer.wq (attnDim model) model.nEmbd
  wk : HasShape layer.wk (kvDim model) model.nEmbd
  wv : HasShape layer.wv (kvDim model) model.nEmbd
  wo : HasShape layer.wo model.nEmbd (attnDim model)
  w1 : HasShape layer.w1 model.nInter model.nEmbd
  w2 : HasShape layer.w2 model.nEmbd model.nInter
  w3 : HasShape layer.w3 model.nInter model.nEmbd

/-- Every tensor is of the shape the metadata declare, and the query heads are whole groups. -/
structure Shaped : Prop where
  headDim_pos : 0 < model.headDim
  nKvHead_pos : 0 < model.nKvHead
  nKvHead_dvd : model.nKvHead ∣ model.nHead
  embed : model.embed.length = model.vocab * model.nEmbd
  layers : ∀ layer ∈ model.layers, LayerShaped model layer

/-- The widths of a layer's rows are whole blocks. -/
structure Blocks : Prop where
  nEmbd : 256 ∣ model.nEmbd
  attnDim : 256 ∣ attnDim model
  nInter : 256 ∣ model.nInter

/-- What loading gives any model. -/
structure Loaded : Prop where
  maxSeq : model.maxSeq = gpuMaxSeq
  lmHead_rows : model.lmHead.rows = model.vocab
  lmHead_cols : model.lmHead.cols ≤ model.nEmbd
  blocks : ∀ layer ∈ model.layers, 256 ∣ layer.wq.cols ∧ 256 ∣ layer.wo.cols ∧ 256 ∣ layer.w2.cols

theorem loadW_blocks {gguf : Gguf} {name : TensorName} {w : ResidentWeight}
    (hload : loadW gguf name = .ok w) : 256 ∣ w.cols := by
  unfold loadW at hload
  obtain ⟨qt, -, hload⟩ := bind_eq_ok.mp hload
  obtain ⟨rows, -, hload⟩ := bind_eq_ok.mp hload
  obtain ⟨cols, -, hload⟩ := bind_eq_ok.mp hload
  split_ifs at hload
  obtain rfl := uploadBlocks_eq_ok hload
  exact ⟨_, rfl⟩

theorem loadGpuLayer_blocks {gguf : Gguf} {i : ℕ} {layer : GpuLayer}
    (hload : loadGpuLayer gguf i = .ok layer) :
    256 ∣ layer.wq.cols ∧ 256 ∣ layer.wo.cols ∧ 256 ∣ layer.w2.cols := by
  unfold loadGpuLayer at hload
  obtain ⟨_, -, hload⟩ := bind_eq_ok.mp hload
  obtain ⟨_, -, hload⟩ := bind_eq_ok.mp hload
  obtain ⟨wq, hwq, hload⟩ := bind_eq_ok.mp hload
  obtain ⟨_, -, hload⟩ := bind_eq_ok.mp hload
  obtain ⟨_, -, hload⟩ := bind_eq_ok.mp hload
  obtain ⟨wo, hwo, hload⟩ := bind_eq_ok.mp hload
  obtain ⟨_, -, hload⟩ := bind_eq_ok.mp hload
  obtain ⟨w2, hw2, hload⟩ := bind_eq_ok.mp hload
  obtain ⟨_, -, hload⟩ := bind_eq_ok.mp hload
  obtain rfl := pure_eq_ok.mp hload
  exact ⟨loadW_blocks hwq, loadW_blocks hwo, loadW_blocks hw2⟩

theorem loadLmHead_shape {quantize : GgmlDType → List ℚ → List ℚ} {env : GpuEnv} {qt : QTensor}
    {vocab nEmbd : ℕ} {w : ResidentWeight}
    (hload : loadLmHead quantize env qt vocab nEmbd = .ok w) : w.rows = vocab ∧ w.cols ≤ nEmbd := by
  have hblocks : 256 * (nEmbd / 256) ≤ nEmbd := Nat.mul_div_le nEmbd 256
  unfold loadLmHead at hload
  simp only at hload
  split_ifs at hload
  · obtain rfl := Except.ok.inj hload
    exact ⟨rfl, hblocks⟩
  · obtain rfl := Except.ok.inj hload
    exact ⟨rfl, le_rfl⟩
  · obtain rfl := uploadBlocks_eq_ok hload
    exact ⟨rfl, hblocks⟩

variable {model}

theorem loaded_of_load {quantize : GgmlDType → List ℚ → List ℚ} {env : GpuEnv} {gguf : Gguf}
    (hload : GpuModel.load quantize env gguf = .ok model) : Loaded model := by
  unfold GpuModel.load at hload
  obtain ⟨hp, -, hload⟩ := bind_eq_ok.mp hload
  obtain ⟨headDim, -, hload⟩ := bind_eq_ok.mp hload
  obtain ⟨embedQt, -, hload⟩ := bind_eq_ok.mp hload
  obtain ⟨vocab, -, hload⟩ := bind_eq_ok.mp hload
  obtain ⟨lmHead, hlm, hload⟩ := bind_eq_ok.mp hload
  obtain ⟨finalNormW, -, hload⟩ := bind_eq_ok.mp hload
  obtain ⟨gate, -, hload⟩ := bind_eq_ok.mp hload
  obtain ⟨nInter, -, hload⟩ := bind_eq_ok.mp hload
  obtain ⟨layers, hlayers, hload⟩ := bind_eq_ok.mp hload
  obtain rfl := pure_eq_ok.mp hload
  obtain ⟨hrows, hcols⟩ := loadLmHead_shape hlm
  refine ⟨rfl, hrows, hcols, fun layer hlayer => ?_⟩
  obtain ⟨i, hi⟩ := List.mem_iff_getElem?.mp hlayer
  have hforall := mapM_eq_ok.mp hlayers
  obtain ⟨hlength, hget⟩ := List.forall₂_iff_get.mp hforall
  obtain ⟨hlt, rfl⟩ := List.getElem?_eq_some_iff.mp hi
  have hlt : i < layers.length := hlt
  exact loadGpuLayer_blocks (hget i (by omega) hlt)

theorem Shaped.valid (hshaped : Shaped model) (heven : Even model.headDim) : (shape model).Valid where
  headDim_pos := hshaped.headDim_pos
  headDim_even := heven
  nKvHead_pos := hshaped.nKvHead_pos
  nKvHead_dvd := hshaped.nKvHead_dvd

theorem LayerShaped.blocks {layer : GpuLayer} (hlayer : LayerShaped model layer)
    (hloaded : Loaded model) (hmem : layer ∈ model.layers) : Blocks model := by
  obtain ⟨hwq, hwo, hw2⟩ := hloaded.blocks layer hmem
  exact ⟨hlayer.wq.2 ▸ hwq, hlayer.wo.2 ▸ hwo, hlayer.w2.2 ▸ hw2⟩

/-! ### A layer of one token -/

/-- The inputs of a token at `pos`, as every layer finds them. -/
structure TokenInputs (model : GpuModel) (pos : ℕ) (s : GpuState) : Prop where
  cosBuf : ∀ j < model.headDim / 2, s.cosBuf j = (shape model).cos pos j
  sinBuf : ∀ j < model.headDim / 2, s.sinBuf j = (shape model).sin pos j
  seqLen : s.seqLen = pos + 1
  ropeKBase : s.ropeKBase = pos * kvDim model
  wkBase : ∀ l, s.wkBase l = pos * kvDim model
  wvBase : ∀ l, s.wvBase l = pos * kvDim model

section Token

variable {pos l : ℕ} {layer : GpuLayer} {s : GpuState}

theorem TokenInputs.decodeLayer (hinputs : TokenInputs model pos s) :
    TokenInputs model pos (decodeLayer model l layer s) :=
  ⟨hinputs.cosBuf, hinputs.sinBuf, hinputs.seqLen, hinputs.ropeKBase, hinputs.wkBase,
    hinputs.wvBase⟩

variable (hlayer : LayerShaped model layer) (hinputs : TokenInputs model pos s)

include hlayer hinputs

theorem decodeAttention_key (hvalid : (shape model).Valid) (i : ℕ) :
    row (kvDim model) ((decodeAttention model l layer s).kCache l) i =
      if i = pos then (shape model).key (layerWeights layer) pos (cut model.nEmbd s.xBuf)
      else row (kvDim model) (s.kCache l) i := by
  show row (kvDim model) (Function.update s.kCache l (rope _ _ _ _ _ (matvec _ _ _ _ _)) l) i = _
  rw [Function.update_self, hinputs.ropeKBase, hinputs.wkBase]
  refine (row_rope hvalid.headDim_even hvalid.headDim_pos pos _ _ _ i).trans ?_
  refine if_ctx_congr Iff.rfl (fun _ => ?_) fun hi => ?_
  · rw [rotate_congr hvalid.headDim_pos hvalid.headDim_even hinputs.cosBuf hinputs.sinBuf]
    refine congrArg (rotate _ _ _ _) ?_
    refine (row_matvec hlayer.wk.1 hlayer.wk.2 pos _ _ pos).trans ?_
    rw [if_pos rfl, cut_rmsnorm]
    rfl
  · refine (row_matvec hlayer.wk.1 hlayer.wk.2 pos _ _ i).trans ?_
    rw [if_neg hi]

theorem decodeAttention_value (i : ℕ) :
    row (kvDim model) ((decodeAttention model l layer s).vCache l) i =
      if i = pos then (shape model).value (layerWeights layer) (cut model.nEmbd s.xBuf)
      else row (kvDim model) (s.vCache l) i := by
  show row (kvDim model) (Function.update s.vCache l (matvec _ _ _ _ _) l) i = _
  rw [Function.update_self, hinputs.wvBase, row_matvec hlayer.wv.1 hlayer.wv.2, cut_rmsnorm]
  rfl

theorem decodeAttention_query (hvalid : (shape model).Valid) :
    cut (attnDim model) (decodeAttention model l layer s).q =
      (shape model).query (layerWeights layer) pos (cut model.nEmbd s.xBuf) := by
  show cut (attnDim model) (rope _ _ _ _ _ (matvec _ _ _ _ _)) = _
  refine (cut_rope hvalid.headDim_even hvalid.headDim_pos _ _ _).trans ?_
  rw [rotate_congr hvalid.headDim_pos hvalid.headDim_even hinputs.cosBuf hinputs.sinBuf]
  refine congrArg (rotate _ _ _ _) ?_
  refine (cut_matvec hlayer.wq.1 hlayer.wq.2 _ _).trans ?_
  rw [cut_rmsnorm]
  rfl

theorem decodeAttention_row (hvalid : (shape model).Valid) :
    cut model.nEmbd (decodeAttention model l layer s).xBuf =
      (shape model).attnBlock (layerWeights layer) (cut model.nEmbd s.xBuf)
        ((shape model).attend pos
          ((shape model).query (layerWeights layer) pos (cut model.nEmbd s.xBuf))
          (caches model (decodeAttention model l layer s) l)) := by
  have hatt : cut (attnDim model) (decodeAttention model l layer s).attnOut =
      (shape model).attend pos (cut (attnDim model) (decodeAttention model l layer s).q)
        (caches model (decodeAttention model l layer s) l) := by
    show cut (attnDim model) (sdpaDecode _ _ _ s.seqLen _ _ _ _) = _
    rw [hinputs.seqLen]
    refine (cut_sdpaDecode hvalid pos _ _ _ _).trans ?_
    refine congrArg ((shape model).attend pos _) (funext fun t => ?_)
    simp only [caches, decodeAttention, Function.update_self]
    rfl
  rw [← decodeAttention_query hlayer hinputs hvalid, ← hatt]
  exact cut_matvec_acc hlayer.wo.1 hlayer.wo.2 _ _

omit hinputs in
theorem decodeFeedForward_row :
    cut model.nEmbd (decodeFeedForward model layer s).xBuf =
      (shape model).ffnBlock (layerWeights layer) (cut model.nEmbd s.xBuf) := by
  show cut model.nEmbd
    (matvec layer.w2 true 0 (act (matvec _ _ _ _ _) (matvec _ _ _ _ _)) s.xBuf) = _
  rw [cut_matvec_acc hlayer.w2.1 hlayer.w2.2, cut_act, cut_matvec hlayer.w1.1 hlayer.w1.2,
    cut_matvec hlayer.w3.1 hlayer.w3.2, cut_rmsnorm]
  rfl

/-- A layer of `record_forward` takes the row through the decoder layer. -/
theorem decodeLayer_eq (hvalid : (shape model).Valid)
    (htower : tower model l = (shape model).layer (layerWeights layer)) :
    (caches model (decodeLayer model l layer s),
        cut model.nEmbd (decodeLayer model l layer s).xBuf) =
      tokenLayer (tower model) pos l (caches model s, cut model.nEmbd s.xBuf) := by
  have hentry : caches model (decodeAttention model l layer s) l =
      Function.update (caches model s l) pos
        ((tower model l).entry pos (cut model.nEmbd s.xBuf)) := by
    funext i
    rw [htower, caches, decodeAttention_key hlayer hinputs hvalid,
      decodeAttention_value hlayer hinputs, Function.update_apply]
    split_ifs with hi
    · rfl
    · rfl
  refine Prod.ext ?_ ?_
  · refine Function.eq_update_iff.mpr ⟨hentry, fun l' hne => funext fun i => ?_⟩
    simp only [caches, decodeLayer, decodeFeedForward, decodeAttention,
      Function.update_of_ne hne]
  · show cut model.nEmbd (decodeFeedForward model layer _).xBuf = (tower model l).out pos _ _
    rw [decodeFeedForward_row hlayer, decodeAttention_row hlayer hinputs hvalid, hentry, htower]
    rfl

end Token

/-! ### The whole forward -/

theorem cosTable_row {pos j : ℕ} (hj : j < half model) :
    cosTable model (pos * half model + j) = (shape model).cos pos j := by
  rw [cosTable, mul_comm pos, Nat.mul_add_div (by omega), Nat.div_eq_of_lt hj, add_zero,
    Nat.mul_add_mod, Nat.mod_eq_of_lt hj]
  rfl

theorem sinTable_row {pos j : ℕ} (hj : j < half model) :
    sinTable model (pos * half model + j) = (shape model).sin pos j := by
  rw [sinTable, mul_comm pos, Nat.mul_add_div (by omega), Nat.div_eq_of_lt hj, add_zero,
    Nat.mul_add_mod, Nat.mod_eq_of_lt hj]
  rfl

theorem writeToken_inputs (buf : Buf) (pos : ℕ) (s : GpuState) :
    TokenInputs model pos (writeToken model buf pos s) where
  cosBuf j hj := by
    have hlt : j < 0 + half model := by rwa [zero_add]
    simp only [writeToken, writeAt, Nat.zero_le, hlt, true_and, if_true, Nat.sub_zero]
    exact cosTable_row hj
  sinBuf j hj := by
    have hlt : j < 0 + half model := by rwa [zero_add]
    simp only [writeToken, writeAt, Nat.zero_le, hlt, true_and, if_true, Nat.sub_zero]
    exact sinTable_row hj
  seqLen := rfl
  ropeKBase := rfl
  wkBase _ := rfl
  wvBase _ := rfl

/-- The layers one after the other are the tower. -/
theorem sweep_decodeLayer {pos : ℕ} {s : GpuState} (hvalid : (shape model).Valid)
    (hlayers : ∀ layer ∈ model.layers, LayerShaped model layer)
    (hinputs : TokenInputs model pos s) :
    (caches model (sweep (decodeLayer model) 0 model.layers s),
        cut model.nEmbd (sweep (decodeLayer model) 0 model.layers s).xBuf) =
      tokenPass (tower model) pos (caches model s, cut model.nEmbd s.xBuf)
        model.layers.length := by
  have hsweep := sweep_induction (decodeLayer model)
    (fun l t => TokenInputs model pos t ∧ (caches model t, cut model.nEmbd t.xBuf) =
      tokenPass (tower model) pos (caches model s, cut model.nEmbd s.xBuf) l)
    model.layers (l := 0) (s := s) ⟨hinputs, rfl⟩ fun i layer t hlayer ht => by
      rw [zero_add] at ht ⊢
      refine ⟨ht.1.decodeLayer, ?_⟩
      rw [decodeLayer_eq (hlayers layer (List.mem_of_getElem? hlayer)) ht.1 hvalid
        (tower_eq model hlayer), ht.2]
      rfl
  rw [zero_add] at hsweep
  exact hsweep.2

theorem lmMatvec_logits (hloaded : Loaded model) {x : ℕ → ℝ} (t : GpuState)
    (hnormed : cut model.nEmbd t.normed =
      rmsNorm model.nEmbd model.eps (normWeight model.finalNormW) x) :
    cut model.vocab (lmMatvec model t).logits = headLogits model x := by
  refine (cut_matvec hloaded.lmHead_rows rfl _ _).trans ?_
  refine project_congr fun k hk => ?_
  rw [cut_apply hk, ← hnormed, cut_apply (hk.trans_le hloaded.lmHead_cols)]

section Run

variable (hvalid : (shape model).Valid) (hlayers : ∀ layer ∈ model.layers, LayerShaped model layer)
  (buf : Buf) (pos : ℕ) (s : GpuState)

include hvalid hlayers

theorem sweep_writeToken :
    (caches model (sweep (decodeLayer model) 0 model.layers (writeToken model buf pos s)),
        cut model.nEmbd
          (sweep (decodeLayer model) 0 model.layers (writeToken model buf pos s)).xBuf) =
      tokenPass (tower model) pos (caches model s, cut model.nEmbd buf) model.layers.length := by
  rw [sweep_decodeLayer hvalid hlayers (writeToken_inputs buf pos s)]
  have hrow : cut model.nEmbd (writeToken model buf pos s).xBuf = cut model.nEmbd buf := by
    refine cut_congr fun j hj => ?_
    have hlt : j < 0 + model.nEmbd := by rwa [zero_add]
    simp only [writeToken, writeAt, Nat.zero_le, hlt, true_and, if_true, Nat.sub_zero]
  rw [hrow]
  rfl

theorem runToken_caches :
    caches model (runToken model buf pos s) =
      (tokenPass (tower model) pos (caches model s, cut model.nEmbd buf)
        model.layers.length).1 := by
  rw [← sweep_writeToken hvalid hlayers]
  rfl

theorem runToken_logits (hloaded : Loaded model) :
    cut model.vocab (runToken model buf pos s).logits =
      headLogits model (tokenPass (tower model) pos (caches model s, cut model.nEmbd buf)
        model.layers.length).2 := by
  rw [← sweep_writeToken hvalid hlayers]
  exact lmMatvec_logits hloaded _ (cut_rmsnorm _ _ _ _)

end Run

/-! ### When a call is accepted -/

theorem embedRow_eq_ok {token : ℕ} {buf : Buf} :
    embedRow model token = .ok buf ↔
      (token + 1) * model.nEmbd ≤ model.embed.length ∧ tokenRow model token = buf := by
  unfold embedRow
  rw [bind_eq_ok]
  constructor
  · rintro ⟨u, hcheck, hrow⟩
    exact ⟨checkSlice_eq_ok.mp hcheck, pure_eq_ok.mp hrow⟩
  · rintro ⟨hcheck, hrow⟩
    exact ⟨(), checkSlice_eq_ok.mpr hcheck, pure_eq_ok.mpr hrow⟩

theorem mapM_embedRow_eq_ok {prompt : List ℕ} {rows : List Buf} :
    prompt.mapM (embedRow model) = .ok rows ↔
      (∀ token ∈ prompt, (token + 1) * model.nEmbd ≤ model.embed.length) ∧
        rows = prompt.map (tokenRow model) := by
  rw [mapM_eq_ok]
  constructor
  · intro hrows
    induction hrows with
    | nil => exact ⟨fun _ hmem => absurd hmem List.not_mem_nil, rfl⟩
    | cons hhead _ ih =>
      obtain ⟨hembed, rfl⟩ := embedRow_eq_ok.mp hhead
      exact ⟨List.forall_mem_cons.mpr ⟨hembed, ih.1⟩, by rw [List.map_cons, ← ih.2]⟩
  · rintro ⟨hembed, rfl⟩
    rw [List.forall₂_map_right_iff, List.forall₂_same]
    exact fun token htoken => embedRow_eq_ok.mpr ⟨hembed token htoken, rfl⟩

theorem recordForward_eq_ok {token pos : ℕ} {s t : GpuState} :
    recordForward model token pos s = .ok t ↔
      (token + 1) * model.nEmbd ≤ model.embed.length ∧
        pos * half model + half model ≤ model.maxSeq * half model ∧
        (∀ launch ∈ forwardLaunches model, launch.Fits) ∧
        runToken model (tokenRow model token) pos s = t := by
  unfold recordForward
  constructor
  · intro hrecord
    obtain ⟨buf, hbuf, hrecord⟩ := bind_eq_ok.mp hrecord
    obtain ⟨u, hslice, hrecord⟩ := bind_eq_ok.mp hrecord
    obtain ⟨u', hlaunches, hrecord⟩ := bind_eq_ok.mp hrecord
    obtain ⟨hembed, rfl⟩ := embedRow_eq_ok.mp hbuf
    exact ⟨hembed, checkSlice_eq_ok.mp hslice, forM_record_eq_ok.mp hlaunches,
      pure_eq_ok.mp hrecord⟩
  · rintro ⟨hembed, hslice, hlaunches, rfl⟩
    exact bind_eq_ok.mpr ⟨_, embedRow_eq_ok.mpr ⟨hembed, rfl⟩, bind_eq_ok.mpr
      ⟨(), checkSlice_eq_ok.mpr hslice, bind_eq_ok.mpr ⟨(), forM_record_eq_ok.mpr hlaunches, rfl⟩⟩⟩

/-- Whether a call fails, and how, is the same in every state. -/
theorem recordForward_error_iff {token pos : ℕ} (s s' : GpuState) {e : GpuError} :
    recordForward model token pos s = .error e ↔ recordForward model token pos s' = .error e := by
  simp only [recordForward, bind_eq_error, pure_ne_error, and_false, exists_false, or_false]

end Zllm.Gpu.SingleStream

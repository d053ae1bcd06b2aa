import Zllm.Vulkan.ForwardPass
import Zllm.Vulkan.KernelRows

/-!
# A token through the raw-Vulkan decoding pass

For a model whose tensors have the shapes its metadata declare, `forward_inner` is one position
through a tower of decoder layers, whatever earlier calls left in the scratch buffers and whichever
attention kernels the position calls for.
-/

namespace Zllm.Vulkan.VkPass

open Tile Loader Llama CausalTower Outcome
open Gpu (Buf GpuError rmsnorm cut_rmsnorm rotate_congr)
open Gpu.SingleStream (normWeight)

variable (model : VkModelWeights)

/-! ### The model as a tower of decoder layers -/

noncomputable def shape : Shape where
  nEmbd := model.nEmbd
  nHead := model.nHead
  nKvHead := model.nKv
  headDim := model.hd
  nInter := model.nInter
  eps := model.eps
  cos := (plainTables model.ropeBase model.hd model.maxSeq).cos
  sin := (plainTables model.ropeBase model.hd model.maxSeq).sin

noncomputable def layerWeights (layer : VkLayer) : Weights where
  attnNorm := normWeight layer.attnNorm
  ffnNorm := normWeight layer.ffnNorm
  wq := weightRows layer.wq.values model.nEmbd
  wk := weightRows layer.wk.values model.nEmbd
  wv := weightRows layer.wv.values model.nEmbd
  wo := weightRows layer.wo.values model.nEmbd
  w1 := weightRows layer.w13.values model.nEmbd
  w2 := weightRows layer.w2.values model.nInter
  w3 := fun j => weightRows layer.w13.values model.nEmbd (model.nInter + j)

noncomputable def tower (l : ℕ) : CausalLayer (ℕ → ℝ) ((ℕ → ℝ) × (ℕ → ℝ)) :=
  (shape model).layer ((model.layers.map (layerWeights model)).getD l ⟨0, 0, 0, 0, 0, 0, 0, 0, 0⟩)

theorem tower_eq {l : ℕ} {layer : VkLayer} (hlayer : model.layers[l]? = some layer) :
    tower model l = (shape model).layer (layerWeights model layer) := by
  rw [tower, List.getD_eq_getElem?_getD, List.getElem?_map, hlayer]
  rfl

/-- The caches' rows. -/
noncomputable def caches (s : Resident) (l i : ℕ) : (ℕ → ℝ) × (ℕ → ℝ) :=
  (row (kvDim model) (s.kc l) i, row (kvDim model) (s.vc l) i)

/-- The logits of a row that has come through the layers. -/
noncomputable def headLogits (x : ℕ → ℝ) : ℕ → ℝ :=
  project model.vocab model.nEmbd (weightRows model.lmHead.values model.nEmbd)
    (rmsNorm model.nEmbd model.eps (normWeight model.finalNorm) x)

/-! ### Shapes -/

/-- The layer's matrices are of the widths the metadata declare, in the default environment. -/
structure LayerShaped (layer : VkLayer) : Prop where
  wv : 256 * layer.wv.nb = model.nEmbd
  wo : 256 * layer.wo.nb = model.nEmbd
  w13 : 256 * layer.w13.nb = model.nEmbd
  w13Q3 : layer.w13Q3 = none
  w2 : 256 * layer.w2.nb = model.nInter
  wvF16 : layer.wvF16.values = layer.wv.values
  w2F16 : layer.w2F16.values = layer.w2.values

/-- Every tensor is of the shape the metadata declare, the attention is as wide as the residual
stream, and the query heads are whole groups. -/
structure Shaped : Prop where
  attnDim : model.nHead * model.hd = model.nEmbd
  blocks : 256 ∣ model.nEmbd
  hd_pos : 0 < model.hd
  nEmbd_pos : 0 < model.nEmbd
  nKv_pos : 0 < model.nKv
  nKv_dvd : model.nKv ∣ model.nHead
  nInter_pos : 0 < model.nInter
  embed : model.embed.length = model.vocab * model.nEmbd
  layers : ∀ layer ∈ model.layers, LayerShaped model layer

variable {model}

theorem Shaped.valid (hshaped : Shaped model) (heven : Even model.hd) : (shape model).Valid where
  headDim_pos := hshaped.hd_pos
  headDim_even := heven
  nKvHead_pos := hshaped.nKv_pos
  nKvHead_dvd := hshaped.nKv_dvd

theorem Shaped.embdBlocks (hshaped : Shaped model) : 256 * embdBlocks model = model.nEmbd :=
  Nat.mul_div_cancel' hshaped.blocks

/-- A matvec over rows of a known width. -/
theorem cut_matvec_of {n nb cols : ℕ} {values : List ℚ} (hcols : 256 * nb = cols) (x outp : Buf) :
    cut n (matvec n nb values false x outp) =
      project n cols (weightRows values cols) (cut cols x) := by
  rw [cut_matvec, hcols]

theorem cut_matvec_acc_of {n nb cols : ℕ} {values : List ℚ} (hcols : 256 * nb = cols)
    (x outp : Buf) :
    cut n (matvec n nb values true x outp) =
      add n (cut n outp) (project n cols (weightRows values cols) (cut cols x)) := by
  rw [cut_matvec_acc, hcols]

theorem cut_matvecRope_of {n heads hd nb cols : ℕ} (heven : Even hd) (hn : heads * hd = n)
    (hcols : 256 * nb = cols) (values : List ℚ) (c s x outp : Buf) :
    cut n (matvecRope n nb (hd / 2) values c s x outp) =
      rotate heads hd c s (project n cols (weightRows values cols) (cut cols x)) := by
  subst hn hcols
  exact cut_matvecRope heven c s

theorem cut_gateup (n : ℕ) {nb cols : ℕ} (values : List ℚ) (hcols : 256 * nb = cols) (x outp : Buf) :
    cut n (matvec (n * 2) nb values false x outp) =
        project n cols (weightRows values cols) (cut cols x) ∧
      cut n (fun i => matvec (n * 2) nb values false x outp (n + i)) =
        project n cols (fun j => weightRows values cols (n + j)) (cut cols x) := by
  have hrow : ∀ i < n * 2, matvec (n * 2) nb values false x outp i =
      project (n * 2) cols (weightRows values cols) (cut cols x) i := by
    intro i hi
    rw [← cut_matvec_of hcols x outp, cut_apply hi]
  constructor
  · refine cut_congr fun i hi => ?_
    rw [hrow i (by omega), project, cut_apply (by omega)]
  · refine cut_congr fun i hi => ?_
    rw [hrow (n + i) (by omega), project, cut_apply (by omega)]

/-! ### A layer of one token -/

/-- The rotation of a token at `pos`, as every layer finds it. -/
structure TokenInputs (model : VkModelWeights) (pos : ℕ) (d : DecodeBuffers) : Prop where
  cosBuf : ∀ j < model.hd / 2, d.cosBuf j = (shape model).cos pos j
  sinBuf : ∀ j < model.hd / 2, d.sinBuf j = (shape model).sin pos j

/-- The command that attends over `pos + 1` keys, and heads that its kernels hold. -/
structure Attends (model : VkModelWeights) (pos : ℕ) (rec : Recording) : Prop where
  blocks : rec.flashBlocks ≠ 0 → rec.flashBlocks = (pos + 1) ⌈/⌉ flashBlock
  width : rec.flashBlocks = 0 → model.hd ≤ 64

section Token

variable {pos l : ℕ} {layer : VkLayer} {rec : Recording} {s : Resident} {d : DecodeBuffers}

theorem decodeProject_input :
    cut model.nEmbd (decodeProject model layer d).normed =
      (shape model).attnInput (layerWeights model layer) (cut model.nEmbd d.x) :=
  cut_rmsnorm _ _ _ _

variable (hshaped : Shaped model)

include hshaped

theorem decodeProject_query (hvalid : (shape model).Valid) (hinputs : TokenInputs model pos d) :
    cut (shape model).attnDim (decodeProject model layer d).q =
      (shape model).query (layerWeights model layer) pos (cut model.nEmbd d.x) := by
  have hrope := cut_matvecRope_of hvalid.headDim_even hshaped.attnDim hshaped.embdBlocks
    layer.wq.values d.cosBuf d.sinBuf (decodeProject model layer d).normed d.q
  rw [decodeProject_input,
    rotate_congr hvalid.headDim_pos hvalid.headDim_even hinputs.cosBuf hinputs.sinBuf] at hrope
  have hattn : (shape model).attnDim = model.nEmbd := hshaped.attnDim
  rw [Shape.query, hattn]
  exact hrope

theorem decodeProject_key (hvalid : (shape model).Valid) (hinputs : TokenInputs model pos d) :
    cut (kvDim model) (decodeProject model layer d).kBuf =
      (shape model).key (layerWeights model layer) pos (cut model.nEmbd d.x) := by
  have hrope := cut_matvecRope_of (n := kvDim model) hvalid.headDim_even rfl hshaped.embdBlocks
    layer.wk.values d.cosBuf d.sinBuf (decodeProject model layer d).normed d.kBuf
  rw [decodeProject_input,
    rotate_congr hvalid.headDim_pos hvalid.headDim_even hinputs.cosBuf hinputs.sinBuf] at hrope
  exact hrope

omit hshaped

variable (hlayer : LayerShaped model layer)


include hlayer in
theorem decodeProject_value :
    cut (kvDim model) (decodeProject model layer d).vBuf =
      (shape model).value (layerWeights model layer) (cut model.nEmbd d.x) := by
  refine (cut_matvec_of hlayer.wv (decodeProject model layer d).normed d.vBuf).trans ?_
  rw [decodeProject_input]
  rfl

theorem decodeAttend_eq (hvalid : (shape model).Valid) (hrec : Attends model pos rec) (k v : Buf) :
    cut (shape model).attnDim (decodeAttend model pos rec k v d).attn =
      (shape model).attend pos (cut (shape model).attnDim d.q)
        fun t => (row (kvDim model) k t, row (kvDim model) v t) := by
  unfold decodeAttend
  dsimp only
  split_ifs with hsingle
  · exact cut_sdpaDecode hvalid (hrec.width hsingle) _
  · rw [hrec.blocks hsingle]
    exact cut_flash hvalid rfl rfl _ _ _

include hshaped hlayer in
theorem decodeFeedForward_row :
    cut model.nEmbd (decodeFeedForward model layer d).x =
      (shape model).ffnBlock (layerWeights model layer)
        ((shape model).attnBlock (layerWeights model layer) (cut model.nEmbd d.x)
          (cut (shape model).attnDim d.attn)) := by
  have hattn : (shape model).attnDim = model.nEmbd := hshaped.attnDim
  have hblock : cut model.nEmbd (matvec model.nEmbd layer.wo.nb layer.wo.values true d.attn d.x) =
      (shape model).attnBlock (layerWeights model layer) (cut model.nEmbd d.x)
        (cut (shape model).attnDim d.attn) := by
    rw [Shape.attnBlock, hattn]
    exact cut_matvec_acc_of hlayer.wo _ _
  rw [← hblock, decodeFeedForward]
  refine (cut_matvec_acc_of hlayer.w2 _ _).trans ?_
  rw [hlayer.w13Q3, Option.getD_none]
  obtain ⟨hgate, hup⟩ := cut_gateup model.nInter layer.w13.values hlayer.w13
    (rmsnorm model.nEmbd model.eps (normWeight layer.ffnNorm)
      (matvec model.nEmbd layer.wo.nb layer.wo.values true d.attn d.x) d.normed) d.gu
  rw [cut_siluMul, hgate, hup, cut_rmsnorm]
  rfl

theorem TokenInputs.decodeLayer (hinputs : TokenInputs model pos s.dec) :
    TokenInputs model pos (decodeLayer model pos rec l layer s).dec := by
  refine ⟨fun j hj => ?_, fun j hj => ?_⟩
  · rw [← hinputs.cosBuf j hj]
    unfold VkPass.decodeLayer decodeFeedForward decodeAttend
    dsimp only
    split_ifs <;> rfl
  · rw [← hinputs.sinBuf j hj]
    unfold VkPass.decodeLayer decodeFeedForward decodeAttend
    dsimp only
    split_ifs <;> rfl

include hshaped hlayer in
/-- A layer of `forward_inner` takes the row through the decoder layer. -/
theorem decodeLayer_eq (hvalid : (shape model).Valid) (hinputs : TokenInputs model pos s.dec)
    (hrec : Attends model pos rec)
    (htower : tower model l = (shape model).layer (layerWeights model layer)) :
    (caches model (decodeLayer model pos rec l layer s),
        cut model.nEmbd (decodeLayer model pos rec l layer s).dec.x) =
      tokenLayer (tower model) pos l (caches model s, cut model.nEmbd s.dec.x) := by
  have hattend : ∀ k v, (decodeAttend model pos rec k v (decodeProject model layer s.dec)).x =
      s.dec.x := by
    intro k v
    unfold decodeAttend
    dsimp only
    split_ifs <;> rfl
  set d := decodeProject model layer s.dec with hd
  set k := kvWrite (kvDim model) (pos * kvDim model) d.kBuf (s.kc l) with hk
  set v := kvWrite (kvDim model) (pos * kvDim model) d.vBuf (s.vc l) with hv
  have hcache : caches model (decodeLayer model pos rec l layer s) l =
      fun t => (row (kvDim model) k t, row (kvDim model) v t) := by
    funext t
    simp only [caches, decodeLayer, Function.update_self]
    rfl
  refine tokenLayer_of _ ?_ (fun l' hne => funext fun i => ?_) ?_
  · rw [hcache]
    funext i
    rw [hk, hv, row_kvWrite, row_kvWrite, htower, Function.update_apply, hd,
      decodeProject_key hshaped hvalid hinputs, decodeProject_value hlayer]
    split_ifs with hi
    · rfl
    · rfl
  · simp only [caches, decodeLayer, Function.update_of_ne hne]
  · have hrow := decodeFeedForward_row hshaped hlayer (d := decodeAttend model pos rec k v d)
    rw [decodeAttend_eq hvalid hrec, hattend, hd, decodeProject_query hshaped hvalid hinputs,
      ← hd] at hrow
    rw [htower, hcache]
    exact hrow

end Token

/-! ### The whole pass -/

theorem cosTable_row {pos j : ℕ} (hj : j < half model) :
    cosTable model (pos * half model + j) = (shape model).cos pos j := by
  rw [cosTable, index_div hj, index_mod hj]
  rfl

theorem sinTable_row {pos j : ℕ} (hj : j < half model) :
    sinTable model (pos * half model + j) = (shape model).sin pos j := by
  rw [sinTable, index_div hj, index_mod hj]
  rfl

theorem writeToken_inputs (token pos : ℕ) (s : Resident) :
    TokenInputs model pos (writeToken model token pos s).dec where
  cosBuf j hj := by
    rw [← cosTable_row (show j < half model from hj)]
    show writeAt 0 (half model) (fun j => cosTable model (pos * half model + j)) _ j = _
    exact writeAt_zero_apply hj
  sinBuf j hj := by
    rw [← sinTable_row (show j < half model from hj)]
    show writeAt 0 (half model) (fun j => sinTable model (pos * half model + j)) _ j = _
    exact writeAt_zero_apply hj

section Run

variable {pos : ℕ} {rec : Recording} (hshaped : Shaped model) (heven : Even model.hd)
  (hrec : Attends model pos rec)

include hshaped heven hrec

/-- The layers one after the other are the tower. -/
theorem sweep_decodeLayer {s : Resident} (hinputs : TokenInputs model pos s.dec) :
    (caches model (sweep (decodeLayer model pos rec) 0 model.layers s),
        cut model.nEmbd (sweep (decodeLayer model pos rec) 0 model.layers s).dec.x) =
      tokenPass (tower model) pos (caches model s, cut model.nEmbd s.dec.x)
        model.layers.length := by
  have hsweep := sweep_induction (decodeLayer model pos rec)
    (fun l t => TokenInputs model pos t.dec ∧ (caches model t, cut model.nEmbd t.dec.x) =
      tokenPass (tower model) pos (caches model s, cut model.nEmbd s.dec.x) l)
    model.layers (l := 0) (s := s) ⟨hinputs, rfl⟩ fun i layer t hlayer ht => by
      rw [zero_add] at ht ⊢
      refine ⟨ht.1.decodeLayer, ?_⟩
      rw [decodeLayer_eq hshaped (hshaped.layers layer (List.mem_of_getElem? hlayer))
        (hshaped.valid heven) ht.1 hrec (tower_eq model hlayer), ht.2]
      rfl
  rw [zero_add] at hsweep
  exact hsweep.2

theorem sweep_writeToken (token : ℕ) (s : Resident) :
    (caches model (sweep (decodeLayer model pos rec) 0 model.layers
          (writeToken model token pos s)),
        cut model.nEmbd (sweep (decodeLayer model pos rec) 0 model.layers
          (writeToken model token pos s)).dec.x) =
      tokenPass (tower model) pos (caches model s, cut model.nEmbd (tokenRow model token))
        model.layers.length := by
  rw [sweep_decodeLayer hshaped heven hrec (writeToken_inputs token pos s)]
  have hrow : cut model.nEmbd (writeToken model token pos s).dec.x =
      cut model.nEmbd (tokenRow model token) := cut_writeAt _ _ _
  rw [hrow]
  rfl

theorem runToken_caches (token : ℕ) (s : Resident) :
    caches model (runToken model token pos rec s) =
      (tokenPass (tower model) pos (caches model s, cut model.nEmbd (tokenRow model token))
        model.layers.length).1 := by
  rw [← sweep_writeToken hshaped heven hrec]
  unfold runToken
  dsimp only
  split_ifs <;> rfl

theorem runToken_logits (hlm : rec.lm = true) (token : ℕ) (s : Resident) :
    cut model.vocab (runToken model token pos rec s).dec.logits =
      headLogits model (tokenPass (tower model) pos
        (caches model s, cut model.nEmbd (tokenRow model token)) model.layers.length).2 := by
  rw [← sweep_writeToken hshaped heven hrec, runToken]
  dsimp only
  rw [if_pos hlm]
  refine (cut_matvec_of hshaped.embdBlocks _ _).trans ?_
  rw [cut_rmsnorm]
  rfl

end Run

/-- A position the single-token kernels attend from: heads of 64 dimensions at most, or a cache long
enough for the flash kernels. -/
def WidthAt (model : VkModelWeights) (pos : ℕ) : Prop := model.hd ≤ 64 ∨ flashMinSeq < pos + 1

theorem attends_wanted {pos : ℕ} (hwidth : WidthAt model pos) (lm argmax : Bool) :
    Attends model pos (wanted pos lm argmax) := by
  have hblocks : 0 < (pos + 1) ⌈/⌉ flashBlock := by
    rw [← not_le, ceilDiv_le_iff_le_mul (by decide)]
    omega
  refine ⟨fun hflash => ?_, fun hsingle => ?_⟩
  · exact if_pos (by by_contra hshort; exact hflash (if_neg hshort))
  · refine hwidth.resolve_right fun hlong => hblocks.ne' ?_
    rw [← hsingle]
    exact (if_pos hlong).symm

/-- Of a model with declared shapes every grid has workgroups. -/
theorem forwardGrids_pos (hshaped : Shaped model) (heven : Even model.hd) (hvocab : 0 < model.vocab)
    (lm : Bool) : ∀ n ∈ forwardGrids model lm, 0 < n := by
  obtain ⟨c, hc⟩ := heven.two_dvd
  have hembd := hshaped.nEmbd_pos
  have hblocks := Nat.le_of_dvd hembd hshaped.blocks
  have hkv : 0 < kvDim model := Nat.mul_pos hshaped.nKv_pos hshaped.hd_pos
  have hpairs : 0 < kvDim model / 2 := by
    have htwo : kvDim model = 2 * (model.nKv * c) := by
      rw [kvDim, hc]
      ring
    omega
  have hinter := hshaped.nInter_pos
  intro n hn
  rw [forwardGrids, List.mem_append, List.mem_flatMap] at hn
  rcases hn with ⟨layer, -, hn⟩ | hn
  · simp only [List.mem_cons, List.not_mem_nil, or_false] at hn
    rcases hn with rfl | rfl | rfl | rfl | rfl | rfl <;> omega
  · split_ifs at hn
    · rwa [List.mem_singleton.mp hn]
    · exact absurd hn List.not_mem_nil

theorem forwardInner_succeeds (hshaped : Shaped model) (heven : Even model.hd) {token pos : ℕ}
    (htoken : token < model.vocab) (hpos : pos < model.maxSeq) (lm argmax : Bool) (s : Resident) :
    ∃ t, forwardInner model token pos lm argmax s = .ok t := by
  have hembed : token * model.nEmbd ≤ model.embed.length := by
    rw [hshaped.embed]
    exact Nat.mul_le_mul_right _ htoken.le
  have hrotary : pos * half model ≤ model.maxSeq * half model := Nat.mul_le_mul_right _ hpos.le
  obtain ⟨last, hlast⟩ := record_succeeds (wanted pos lm argmax) s
    (forwardGrids_pos hshaped heven (Nat.zero_lt_of_lt htoken) _)
  exact ⟨_, bind_eq_ok.mpr ⟨(), check_eq_ok.mpr hembed, bind_eq_ok.mpr ⟨(),
    check_eq_ok.mpr hrotary, bind_eq_ok.mpr ⟨last, hlast, rfl⟩⟩⟩⟩

end Zllm.Vulkan.VkPass

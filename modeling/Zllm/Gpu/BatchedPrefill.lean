import Zllm.Gpu.TokenForward

/-!
# Batched prefill against token-by-token prefill

`prefill_forward` is a tile of positions through the tower that `forward` takes one position
through. So where the device accepts every dispatch of the batched pass, it leaves the caches and
the logits that the tokens fed one by one leave, and every continuation goes on alike.
-/

namespace Zllm.Gpu.SingleStream

open Tile Loader Llama CausalTower Outcome

variable {model : GpuModel}

/-! ### A layer of a tile -/

/-- The inputs of a tile of `m` rows, as every layer finds them. -/
structure TileInputs (model : GpuModel) (m : ℕ) (c : PrefillCache) : Prop where
  pWq : c.pWq = m
  pWkv : c.pWkv = m
  pWo : c.pWo = m
  pW13 : c.pW13 = m
  pW2 : c.pW2 = m
  pRopeQ : c.pRopeQ = m
  pRopeK : c.pRopeK = m
  pSdpa : c.pSdpa = m
  cosB : ∀ r < m, ∀ j < model.headDim / 2,
    c.cosB (r * (model.headDim / 2) + j) = (shape model).cos r j
  sinB : ∀ r < m, ∀ j < model.headDim / 2,
    c.sinB (r * (model.headDim / 2) + j) = (shape model).sin r j

/-- The rows of the residual tile. -/
noncomputable def tileRows (model : GpuModel) (c : PrefillCache) : ℕ → ℕ → ℝ :=
  row model.nEmbd c.xB

section Tile

variable {m l r : ℕ} {layer : GpuLayer} {p : GpuState × PrefillCache}

theorem TileInputs.prefillLayer (hinputs : TileInputs model m p.2) :
    TileInputs model m (prefillLayer model m l layer p).2 :=
  ⟨hinputs.pWq, hinputs.pWkv, hinputs.pWo, hinputs.pW13, hinputs.pW2, hinputs.pRopeQ,
    hinputs.pRopeK, hinputs.pSdpa, hinputs.cosB, hinputs.sinB⟩

variable (hlayer : LayerShaped model layer) (hblocks : Blocks model)
  (hinputs : TileInputs model m p.2)

include hlayer hblocks hinputs

theorem prefillAttention_key (hvalid : (shape model).Valid) (i : ℕ) :
    row (kvDim model) ((prefillAttention model m l layer p).1.kCache l) i =
      if i < m then (shape model).key (layerWeights layer) i (tileRows model p.2 i)
      else row (kvDim model) (p.1.kCache l) i := by
  show row (kvDim model) (Function.update p.1.kCache l (writeAt 0 _
    (brope _ _ _ _ _ (gemm _ _ _ _ _ _ _)) _) l) i = _
  rw [Function.update_self, row_copy, hinputs.pRopeK, hinputs.pWkv]
  refine if_ctx_congr Iff.rfl (fun hi => ?_) fun _ => rfl
  refine (row_brope hvalid.headDim_even hvalid.headDim_pos hi _ _ _).trans ?_
  refine (rotate_congr hvalid.headDim_pos hvalid.headDim_even (hinputs.cosB i hi)
    (hinputs.sinB i hi)).trans ?_
  refine congrArg (rotate _ _ _ _) ?_
  refine (row_gemm hlayer.wk.1 hlayer.wk.2 hblocks.nEmbd false _ _ i).trans ?_
  rw [if_pos hi, row_bnorm hi]
  rfl

theorem prefillAttention_value (i : ℕ) :
    row (kvDim model) ((prefillAttention model m l layer p).1.vCache l) i =
      if i < m then (shape model).value (layerWeights layer) (tileRows model p.2 i)
      else row (kvDim model) (p.1.vCache l) i := by
  show row (kvDim model) (Function.update p.1.vCache l (writeAt 0 _ (gemm _ _ _ _ _ _ _) _) l) i = _
  rw [Function.update_self, row_copy, hinputs.pWkv]
  refine if_ctx_congr Iff.rfl (fun hi => ?_) fun _ => rfl
  rw [row_gemm hlayer.wv.1 hlayer.wv.2 hblocks.nEmbd, if_pos hi, row_bnorm hi]
  rfl

theorem prefillAttention_query (hvalid : (shape model).Valid) (hr : r < m) :
    row (attnDim model) (prefillAttention model m l layer p).2.qB r =
      (shape model).query (layerWeights layer) r (tileRows model p.2 r) := by
  show row (attnDim model) (brope _ _ _ _ _ (gemm _ _ _ _ _ _ _)) r = _
  rw [hinputs.pRopeQ, hinputs.pWq]
  refine (row_brope hvalid.headDim_even hvalid.headDim_pos hr _ _ _).trans ?_
  refine (rotate_congr hvalid.headDim_pos hvalid.headDim_even (hinputs.cosB r hr)
    (hinputs.sinB r hr)).trans ?_
  refine congrArg (rotate _ _ _ _) ?_
  refine (row_gemm hlayer.wq.1 hlayer.wq.2 hblocks.nEmbd false _ _ r).trans ?_
  rw [if_pos hr, row_bnorm hr]
  rfl

theorem prefillAttention_row (hvalid : (shape model).Valid) (r : ℕ) :
    tileRows model (prefillAttention model m l layer p).2 r =
      if r < m then
        (shape model).attnBlock (layerWeights layer) (tileRows model p.2 r)
          ((shape model).attend r
            ((shape model).query (layerWeights layer) r (tileRows model p.2 r))
            (caches model (prefillAttention model m l layer p).1 l))
      else tileRows model p.2 r := by
  show row model.nEmbd (gemm layer.wo _ _ _ _ (bsdpa _ _ _ p.2.pSdpa _ _ _ _ _) _) r = _
  rw [row_gemm hlayer.wo.1 hlayer.wo.2 hblocks.attnDim, hinputs.pWo, hinputs.pSdpa]
  refine if_ctx_congr Iff.rfl (fun hr => ?_) fun _ => rfl
  have hatt : row (attnDim model) (prefillAttention model m l layer p).2.attnB r =
      (shape model).attend r (row (attnDim model) (prefillAttention model m l layer p).2.qB r)
        (caches model (prefillAttention model m l layer p).1 l) := by
    show row (attnDim model) (bsdpa _ _ _ p.2.pSdpa _ _ _ _ _) r = _
    rw [hinputs.pSdpa]
    refine (row_bsdpa hvalid hr 0 _ _ _ _).trans ?_
    rw [zero_add]
    refine congrArg ((shape model).attend r _) (funext fun t => ?_)
    simp only [caches, prefillAttention, Function.update_self]
    rfl
  rw [← prefillAttention_query hlayer hblocks hinputs hvalid hr, ← hatt, if_pos rfl,
    ← hinputs.pSdpa]
  rfl

omit hinputs in
theorem prefillFeedForward_row {c : PrefillCache} (hc : TileInputs model m c)
    (hm : m ≤ maxPrefillM) (r : ℕ) :
    tileRows model (prefillFeedForward model m layer c) r =
      if r < m then (shape model).ffnBlock (layerWeights layer) (tileRows model c r)
      else tileRows model c r := by
  show row model.nEmbd (gemm layer.w2 _ _ _ _ (siluMul _ _ (gemm _ _ _ _ _ _ _)
    (gemm _ _ _ _ _ _ _) _) _) r = _
  rw [row_gemm hlayer.w2.1 hlayer.w2.2 hblocks.nInter, hc.pW2, hc.pW13]
  refine if_ctx_congr Iff.rfl (fun hr => ?_) fun _ => rfl
  rw [if_pos rfl, row_siluMul hr (Nat.mul_le_mul_right _ hm),
    row_gemm hlayer.w1.1 hlayer.w1.2 hblocks.nEmbd, row_gemm hlayer.w3.1 hlayer.w3.2 hblocks.nEmbd,
    if_pos hr, if_pos hr, row_bnorm hr]
  rfl

/-- A layer of `prefill_forward` takes the tile through the decoder layer. -/
theorem prefillLayer_eq (hvalid : (shape model).Valid) (hm : m ≤ maxPrefillM)
    (htower : tower model l = (shape model).layer (layerWeights layer)) :
    (caches model (prefillLayer model m l layer p).1,
        tileRows model (prefillLayer model m l layer p).2) =
      tileLayer (tower model) 0 m l (caches model p.1, tileRows model p.2) := by
  have hentry : caches model (prefillAttention model m l layer p).1 l = fun i =>
      if 0 ≤ i ∧ i < 0 + m then (tower model l).entry i (tileRows model p.2 (i - 0))
      else caches model p.1 l i := by
    funext i
    rw [htower, caches, prefillAttention_key hlayer hblocks hinputs hvalid,
      prefillAttention_value hlayer hblocks hinputs]
    simp only [Nat.zero_le, true_and, zero_add, Nat.sub_zero]
    split_ifs with hi
    · rfl
    · rfl
  have hmid : TileInputs model m (prefillAttention model m l layer p).2 :=
    ⟨hinputs.pWq, hinputs.pWkv, hinputs.pWo, hinputs.pW13, hinputs.pW2, hinputs.pRopeQ,
      hinputs.pRopeK, hinputs.pSdpa, hinputs.cosB, hinputs.sinB⟩
  have hsnd : (prefillLayer model m l layer p).2 =
      prefillFeedForward model m layer (prefillAttention model m l layer p).2 := rfl
  rw [tileLayer, hsnd]
  refine Prod.ext ?_ (funext fun r => ?_)
  · refine Function.eq_update_iff.mpr ⟨hentry, fun l' hne => funext fun i => ?_⟩
    simp only [caches, prefillLayer, prefillAttention, Function.update_of_ne hne]
  · dsimp only
    rw [prefillFeedForward_row hlayer hblocks hmid hm,
      prefillAttention_row hlayer hblocks hinputs hvalid, hentry, htower]
    simp only [zero_add]
    split_ifs with hr
    · rfl
    · rfl

end Tile

/-! ### The whole prefill -/

theorem writePrompt_inputs (m : ℕ) (xHost : Buf) (c : PrefillCache) :
    TileInputs model m (writePrompt model m xHost c) where
  pWq := rfl
  pWkv := rfl
  pWo := rfl
  pW13 := rfl
  pW2 := rfl
  pRopeQ := rfl
  pRopeK := rfl
  pSdpa := rfl
  cosB r hr j hj := by
    have hlt : r * half model + j < 0 + m * half model := by
      rw [zero_add]
      exact index_lt hr hj
    show (writePrompt model m xHost c).cosB (r * half model + j) = _
    simp only [writePrompt, writeAt, Nat.zero_le, hlt, true_and, if_true, Nat.sub_zero]
    exact cosTable_row hj
  sinB r hr j hj := by
    have hlt : r * half model + j < 0 + m * half model := by
      rw [zero_add]
      exact index_lt hr hj
    show (writePrompt model m xHost c).sinB (r * half model + j) = _
    simp only [writePrompt, writeAt, Nat.zero_le, hlt, true_and, if_true, Nat.sub_zero]
    exact sinTable_row hj

section Run

variable {m : ℕ} (hvalid : (shape model).Valid)
  (hlayers : ∀ layer ∈ model.layers, LayerShaped model layer) (hloaded : Loaded model)
  (hm : m ≤ maxPrefillM)

include hvalid hlayers hloaded hm

theorem sweep_prefillLayer {p : GpuState × PrefillCache} (hinputs : TileInputs model m p.2) :
    (caches model (sweep (prefillLayer model m) 0 model.layers p).1,
        tileRows model (sweep (prefillLayer model m) 0 model.layers p).2) =
      tilePass (tower model) 0 m (caches model p.1, tileRows model p.2) model.layers.length := by
  have hsweep := sweep_induction (prefillLayer model m)
    (fun l t => TileInputs model m t.2 ∧ (caches model t.1, tileRows model t.2) =
      tilePass (tower model) 0 m (caches model p.1, tileRows model p.2) l)
    model.layers (l := 0) (s := p) ⟨hinputs, rfl⟩ fun i layer t hlayer ht => by
      rw [zero_add] at ht ⊢
      have hmem := List.mem_of_getElem? hlayer
      refine ⟨ht.1.prefillLayer, ?_⟩
      rw [prefillLayer_eq (hlayers layer hmem) ((hlayers layer hmem).blocks hloaded hmem) ht.1
        hvalid hm (tower_eq model hlayer), ht.2]
      rfl
  rw [zero_add] at hsweep
  exact hsweep.2

theorem sweep_writePrompt (xHost : Buf) (s : GpuState) (c : PrefillCache) :
    (caches model (sweep (prefillLayer model m) 0 model.layers
        (s, writePrompt model m xHost c)).1,
        tileRows model (sweep (prefillLayer model m) 0 model.layers
          (s, writePrompt model m xHost c)).2) =
      tilePass (tower model) 0 m (caches model s, tileRows model (writePrompt model m xHost c))
        model.layers.length :=
  sweep_prefillLayer hvalid hlayers hloaded hm (writePrompt_inputs m xHost c)

theorem runPrompt_caches (xHost : Buf) (s : GpuState) :
    caches model (runPrompt model m xHost s) =
      (tilePass (tower model) 0 m (caches model s, tileRows model
        (writePrompt model m xHost (s.prefillCache.getD buildPrefillCache)))
          model.layers.length).1 := by
  rw [← sweep_writePrompt hvalid hlayers hloaded hm]
  rfl

theorem runPrompt_logits (hpos : 1 ≤ m) (xHost : Buf) (s : GpuState) :
    cut model.vocab (runPrompt model m xHost s).logits =
      headLogits model ((tilePass (tower model) 0 m (caches model s, tileRows model
        (writePrompt model m xHost (s.prefillCache.getD buildPrefillCache)))
          model.layers.length).2 (m - 1)) := by
  rw [← sweep_writePrompt hvalid hlayers hloaded hm]
  set t := sweep (prefillLayer model m) 0 model.layers
    (s, writePrompt model m xHost (s.prefillCache.getD buildPrefillCache))
  refine lmMatvec_logits hloaded _
    (Eq.trans ?_ (row_bnorm (m := m) (by omega) _ _ t.2.xB t.2.normedB))
  refine cut_congr fun j hj => ?_
  have hlt : j < 0 + model.nEmbd := by rwa [zero_add]
  simp only [writeAt, Nat.zero_le, hlt, true_and, if_true, Nat.sub_zero]
  rfl

end Run

theorem tileRows_writePrompt {prompt : List ℕ} {r token : ℕ} (htoken : prompt[r]? = some token)
    (c : PrefillCache) :
    tileRows model (writePrompt model prompt.length
        (gatherRows model (prompt.map (tokenRow model))) c) r =
      cut model.nEmbd (tokenRow model token) := by
  have hr : r < prompt.length := (List.getElem?_eq_some_iff.mp htoken).1
  refine (row_copy model.nEmbd prompt.length _ _ r).trans ?_
  rw [if_pos hr]
  refine cut_congr fun j hj => ?_
  rw [gatherRows, mul_comm r, Nat.mul_add_div (by omega), Nat.div_eq_of_lt hj, add_zero,
    Nat.mul_add_mod, Nat.mod_eq_of_lt hj, List.getD_eq_getElem?_getD, List.getElem?_map, htoken]
  rfl

theorem prefillForward_eq_ok {prompt : List ℕ} {s : GpuState} {r : GpuState × List ℝ} :
    prefillForward model prompt s = .ok r ↔
      (1 ≤ prompt.length ∧ prompt.length ≤ maxPrefillM) ∧
        (∀ token ∈ prompt, (token + 1) * model.nEmbd ≤ model.embed.length) ∧
        prompt.length * half model ≤ model.maxSeq * half model ∧
        (∀ launch ∈ prefillForwardLaunches model prompt.length, launch.Fits) ∧
        r = (runPrompt model prompt.length (gatherRows model (prompt.map (tokenRow model))) s,
          readBuffer (runPrompt model prompt.length
            (gatherRows model (prompt.map (tokenRow model))) s).logits model.vocab) := by
  unfold prefillForward
  constructor
  · intro hprefill
    obtain ⟨u, hlength, hprefill⟩ := bind_eq_ok.mp hprefill
    obtain ⟨rows, hrows, hprefill⟩ := bind_eq_ok.mp hprefill
    obtain ⟨u', hslice, hprefill⟩ := bind_eq_ok.mp hprefill
    obtain ⟨u'', hlaunches, hprefill⟩ := bind_eq_ok.mp hprefill
    obtain ⟨hembed, rfl⟩ := mapM_embedRow_eq_ok.mp hrows
    exact ⟨checkPrompt_eq_ok.mp hlength, hembed, checkSlice_eq_ok.mp hslice,
      forM_record_eq_ok.mp hlaunches, (pure_eq_ok.mp hprefill).symm⟩
  · rintro ⟨hlength, hembed, hslice, hlaunches, rfl⟩
    exact bind_eq_ok.mpr ⟨(), checkPrompt_eq_ok.mpr hlength, bind_eq_ok.mpr
      ⟨_, mapM_embedRow_eq_ok.mpr ⟨hembed, rfl⟩, bind_eq_ok.mpr
        ⟨(), checkSlice_eq_ok.mpr hslice, bind_eq_ok.mpr
          ⟨(), forM_record_eq_ok.mpr hlaunches, rfl⟩⟩⟩⟩

end Zllm.Gpu.SingleStream

import Zllm.Gpu.DecoderContract
import Zllm.Gpu.GreedySelection
import Zllm.Gpu.PagedRows

/-!
# The dispatches behind the decoder

The decoder over the paged memory forwards one row after the other, its row kernel one position of
the model's tower over the cells that the block table names. What the command buffers of
`BatchedDecoder` do to the pool and to the logits is what that decoder does.
-/

namespace Zllm.Gpu.PagedForward

open Function (update update_self update_of_ne)
open BlockState Outcome Tile Loader Workgroup SingleStream Llama CellTower CausalTower
open Paged (Halves)

variable {W : Type} {halves : Halves W} {model : PagedModel} {cfg : PoolConfig}
  {blocks : BlockState} {rows : List Row} {st st' : PagedState W}

/-! ### The row kernel -/

/-- The keys and values of a position in every layer. -/
abbrev Entries := ℕ → (ℕ → ℝ) × (ℕ → ℝ)

/-- The embedding row of a token. -/
noncomputable def embedding (gpu : GpuModel) (tok : Token) : ℕ → ℝ :=
  cut gpu.nEmbd (tokenRow gpu tok)

/-- One position of the model's tower, and the selection kernels on a row of logits. -/
noncomputable def towerKernels (gpu : GpuModel) : PagedKernels Entries (ℕ → ℝ) where
  forwardRow := fun cfg blocks pool row =>
    let held := fun l t => pool (tableBlock cfg blocks row.slot t) (t % cfg.blockSize) l
    let s := tokenPass (tower gpu) row.pos (held, embedding gpu row.tok) gpu.layers.length
    (fun l => s.1 l row.pos, headLogits gpu s.2)
  argmax := fun logits => bargmax gpu.vocab logits 0
  gumbel := fun logits temp seed => bsample gpu.vocab logits (fun _ => temp) (fun _ => seed) 0
  sampleTopk := fun logits params seed =>
    selectTopk gpu.vocab logits (fun _ => params) (fun _ => seed) 0

/-- The store of a pool. -/
def poolStore (cfg : PoolConfig) (pool : Pool Entries) (l : ℕ) (c : ℕ × Fin cfg.blockSize) :
    (ℕ → ℝ) × (ℕ → ℝ) :=
  pool c.1 c.2 l

theorem poolStore_update (pool : Pool Entries) (b : ℕ) (offset : Fin cfg.blockSize)
    (value : Entries) :
    poolStore cfg (update pool b (update (pool b) offset value)) = fun l =>
      update (poolStore cfg pool l) (b, offset) (value l) := by
  funext l ⟨b', offset'⟩
  show update pool b (update (pool b) offset value) b' offset' l = _
  by_cases hb : b' = b
  · subst hb
    rw [update_self]
    by_cases hoffset : offset' = offset
    · rw [hoffset, update_self, update_self]
    · rw [update_of_ne fun heq => hoffset (Fin.ext heq),
        update_of_ne fun heq => hoffset (congrArg Prod.snd heq)]
      rfl
  · rw [update_of_ne hb, update_of_ne fun heq => hb (congrArg Prod.fst heq)]
    rfl

/-- The decoder's rows one after the other are a run over the store. -/
theorem recordLayers_rowRun (gpu : GpuModel) (mem : PagedMemory Entries) :
    let out := BatchedDecoder.recordLayers (towerKernels gpu).device cfg blocks rows mem
    let run := rowRun (tower gpu) gpu.layers.length
      (rows.map fun row => fedRow cfg blocks row (embedding gpu row.tok)) (poolStore cfg mem.pool)
    poolStore cfg out.1.pool = run.1 ∧ out.2 = run.2.map fun f => headLogits gpu f.row := by
  induction rows generalizing mem with
  | nil => exact ⟨rfl, rfl⟩
  | cons row rest ih =>
    set next := ((towerKernels gpu).device.forwardRow cfg blocks mem row).1 with hnext
    have hstore : poolStore cfg next.pool = (rowPass (tower gpu) gpu.layers.length
        (fedRow cfg blocks row (embedding gpu row.tok)) (poolStore cfg mem.pool)).1 :=
      poolStore_update mem.pool _ ⟨row.pos % cfg.blockSize, _⟩ _
    obtain ⟨hpool, hlogits⟩ := ih next
    rw [hstore] at hpool hlogits
    exact ⟨hpool, congrArg _ hlogits⟩

/-! ### Which cells a batch writes -/

section Spread

variable {kv : ℕ → SlotKv}

/-- Later rows of a slot are at later positions. -/
theorem InStep.later (hstep : InStep cfg rows kv) :
    (∀ row ∈ rows, (kv row.slot).tokens.length ≤ row.pos) ∧
      rows.Pairwise fun f g => f.slot = g.slot → f.pos < g.pos := by
  induction rows generalizing kv with
  | nil => exact ⟨by simp, List.Pairwise.nil⟩
  | cons row rest ih =>
    obtain ⟨-, hpos, hrest⟩ := hstep
    obtain ⟨hle, hlater⟩ := ih hrest
    have hgrown : ∀ slot, (kv slot).tokens.length ≤ (appendRow kv row slot).tokens.length := by
      intro slot
      by_cases heq : slot = row.slot
      · subst heq
        simp [appendRow]
      · simp [appendRow, heq]
    refine ⟨List.forall_mem_cons.mpr ⟨hpos.ge, fun g hg => (hgrown g.slot).trans (hle g hg)⟩,
      List.pairwise_cons.mpr ⟨fun g hg heq => ?_, hlater⟩⟩
    have hnext := hle g hg
    rw [← heq] at hnext
    simp only [appendRow, update_self, List.length_append, List.length_singleton] at hnext
    omega

/-- A row's cell is that of its own position only: its block is registered nowhere. -/
theorem placeOf_injective (hres : Resident cfg blocks kv) {row : Row}
    (hle : (kv row.slot).tokens.length ≤ row.pos)
    (hbacked : row.pos / cfg.blockSize < (blocks.slotBlocks row.slot).length) {slot t : ℕ}
    (ht : t / cfg.blockSize < (blocks.slotBlocks slot).length)
    (hplace : placeOf cfg blocks slot t = placeOf cfg blocks row.slot row.pos) :
    slot = row.slot ∧ t = row.pos := by
  have hb := List.getElem?_eq_getElem hbacked
  have hc := List.getElem?_eq_getElem ht
  have hsealed : (kv row.slot).sealed < (row.pos / cfg.blockSize + 1) * cfg.blockSize := by
    have hheld := hres.sealed_le row.slot
    have hlt : row.pos < row.pos / cfg.blockSize * cfg.blockSize + cfg.blockSize :=
      Nat.lt_div_mul_add cfg.blockSize_pos
    rw [Nat.succ_mul]
    omega
  have hhash := hres.unregistered hsealed hb
  have hblock : (blocks.slotBlocks slot)[t / cfg.blockSize] =
      (blocks.slotBlocks row.slot)[row.pos / cfg.blockSize] := by
    have htable := congrArg Prod.fst hplace
    simp only [placeOf, tableBlock] at htable
    rwa [hres.ledger.table _ _ _ hc, hres.ledger.table _ _ _ hb] at htable
  have hoffset : t % cfg.blockSize = row.pos % cfg.blockSize :=
    congrArg Fin.val (congrArg Prod.snd hplace)
  rw [hblock] at hc
  obtain ⟨hslot, hindex⟩ := unhashed_place_unique hres.ledger hhash hc hb
  refine ⟨hslot, ?_⟩
  calc t = t / cfg.blockSize * cfg.blockSize + t % cfg.blockSize := (Nat.div_add_mod' _ _).symm
    _ = row.pos := by rw [hindex, hoffset, Nat.div_add_mod']

theorem spread_of_inStep (hres : Resident cfg blocks kv) (hstep : InStep cfg rows kv)
    (hpos : ∀ row ∈ rows, row.pos < cfg.maxSeq)
    (hbacked : ∀ row ∈ rows, row.pos / cfg.blockSize < (blocks.slotBlocks row.slot).length) :
    Spread cfg blocks rows := by
  obtain ⟨hle, hlater⟩ := InStep.later hstep
  have hread : ∀ row ∈ rows, ∀ t ≤ row.pos,
      t / cfg.blockSize < (blocks.slotBlocks row.slot).length := fun row hrow t ht =>
    (Nat.div_le_div_right ht).trans_lt (hbacked row hrow)
  refine ⟨hstep.slot_lt, hpos, fun row hrow t ht hplace => ?_, ?_⟩
  · have hsame := placeOf_injective hres (hle row hrow) (hbacked row hrow)
      (hread row hrow t ht.le) hplace
    exact ht.ne hsame.2
  · refine hlater.imp_of_mem fun {f g} hf hg hlt t ht hplace => ?_
    obtain ⟨hslot, heq⟩ := placeOf_injective hres (hle g hg) (hbacked g hg) (hread f hf t ht)
      hplace.symm
    have := hlt hslot
    omega

end Spread

/-! ### A batch through all layers -/

/-- What the dispatches rely on. -/
structure Servable (gpu : GpuModel) : Prop where
  valid : (shape gpu).Valid
  layers : ∀ layer ∈ gpu.layers, LayerShaped gpu layer
  blocks : Blocks gpu
  lmHead_rows : gpu.lmHead.rows = gpu.vocab
  lmHead_cols : gpu.lmHead.cols = gpu.nEmbd

theorem writeInputs_inputs (st : PagedState W) :
    BatchInputs model cfg blocks rows (writeInputs model cfg blocks rows st) where
  pos r hr := writeAt_zero_apply (f := fun r => (rowAt rows r).pos) hr
  slot r hr := writeAt_zero_apply (f := fun r => (rowAt rows r).slot) hr
  table i hi := writeAt_zero_apply hi
  cosB r hr j hj := by
    let f r j := cosTable model.gpu ((rowAt rows r).pos * half model.gpu + j)
    exact (writeRows_zero_apply (f := f) hr hj).trans (cosTable_row hj)
  sinB r hr j hj := by
    let f r j := sinTable model.gpu ((rowAt rows r).pos * half model.gpu + j)
    exact (writeRows_zero_apply (f := f) hr hj).trans (sinTable_row hj)

/-- The residual tile starts with the embedding rows. -/
theorem feds_writeInputs (st : PagedState W) :
    feds model cfg blocks rows (writeInputs model cfg blocks rows st) =
      rows.map fun row => fedRow cfg blocks row (embedding model.gpu row.tok) := by
  refine List.ext_getElem (by simp [feds]) fun r _ hr => ?_
  rw [List.length_map] at hr
  simp only [feds, List.getElem_map, List.getElem_range]
  rw [rowAt_eq hr]
  refine congrArg (fedRow cfg blocks rows[r]) ?_
  refine (row_copy model.gpu.nEmbd rows.length _ _ r).trans ?_
  rw [if_pos hr]
  refine cut_congr fun j hj => ?_
  rw [gatherRows, index_div hj, index_mod hj, List.getD_eq_getElem?_getD, List.getElem?_map,
    List.getElem?_eq_getElem hr]
  rfl

theorem recordLayers_batch {s₀ : (ℕ → ℕ × Fin cfg.blockSize → (ℕ → ℝ) × (ℕ → ℝ)) ×
      List (Fed (ℕ × Fin cfg.blockSize) (ℕ → ℝ))}
    (hmodel : Servable model.gpu) (hspread : Spread cfg blocks rows)
    (hcap : rows.length ≤ cfg.rowCap) {l : ℕ} {layers : List GpuLayer}
    (hlayers : ∀ i layer, layers[i]? = some layer → model.gpu.layers[l + i]? = some layer)
    (hinputs : BatchInputs model cfg blocks rows st)
    (hbatch : (storeOf halves model cfg st, feds model cfg blocks rows st) =
      batchPass (tower model.gpu) s₀ l)
    (hrun : RecordLayers halves model cfg rows.length l layers st st') :
    (storeOf halves model cfg st', feds model cfg blocks rows st') =
      batchPass (tower model.gpu) s₀ (l + layers.length) := by
  induction layers generalizing l st with
  | nil =>
    obtain rfl : st' = st := hrun
    exact hbatch
  | cons layer rest ih =>
    obtain ⟨next, hfirst, hrest⟩ := hrun
    have hlayer := hlayers 0 layer rfl
    have hshaped := hmodel.layers layer (List.mem_of_getElem? hlayer)
    have hnext := recordLayer_eq hmodel.valid hshaped hmodel.blocks hinputs hspread hcap
      (tower_eq model.gpu hlayer) hfirst
    rw [hbatch] at hnext
    rw [List.length_cons, show l + (rest.length + 1) = l + 1 + rest.length by omega]
    refine ih (fun i layer' hget => ?_) (hinputs.recordLayer hfirst) hnext hrest
    rw [show l + 1 + i = l + (i + 1) by omega]
    exact hlayers (i + 1) layer' hget

/-- The layers' dispatches leave in the pool what the rows one after the other leave in it, and in
the residual tile the rows that come out of the tower. -/
theorem recordLayers_rows (hmodel : Servable model.gpu) (hspread : Spread cfg blocks rows)
    (hcap : rows.length ≤ cfg.rowCap) {mem : PagedMemory Entries}
    (hpool : storeOf halves model cfg st = poolStore cfg mem.pool)
    (hrun : RecordLayers halves model cfg rows.length 0 model.gpu.layers
      (writeInputs model cfg blocks rows st) st') :
    let out := BatchedDecoder.recordLayers (towerKernels model.gpu).device cfg blocks rows mem
    storeOf halves model cfg st' = poolStore cfg out.1.pool ∧
      out.2 = (List.range rows.length).map fun r =>
        headLogits model.gpu (row model.gpu.nEmbd st'.xB r) := by
  intro out
  obtain ⟨hstore, hlogits⟩ : poolStore cfg out.1.pool = _ ∧ out.2 = _ :=
    recordLayers_rowRun model.gpu mem
  have hbatch := recordLayers_batch hmodel hspread hcap
    (fun i layer hget => by rwa [zero_add]) (writeInputs_inputs st) rfl hrun
  rw [zero_add, batchPass_eq_rowRun (hspread.feds_fresh _) (hspread.feds_before _),
    feds_writeInputs] at hbatch
  have hsame : storeOf halves model cfg (writeInputs model cfg blocks rows st) =
      poolStore cfg mem.pool := hpool
  rw [hsame] at hbatch
  obtain ⟨hpool', hrows⟩ := Prod.mk.inj hbatch
  refine ⟨hpool'.trans hstore.symm, hlogits.trans ?_⟩
  rw [← hrows, feds, List.map_map]
  rfl

end Zllm.Gpu.PagedForward

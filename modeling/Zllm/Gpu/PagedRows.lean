import Zllm.Gpu.BatchedPrefill
import Zllm.Gpu.PagedAttention
import Zllm.Gpu.PagedForward
import Zllm.Gpu.PagedMemory
import Zllm.Lib.CellTower

/-!
# A layer of the batched forward on rows

Read in halves, the pool is a store of the streams' keys and values with a cell for each block and
offset. Where the rows of a batch write cells of their own, a layer of `record_layers` takes the
batch through the decoder layer, whatever the order of the stores and whatever earlier batches left
in the buffers.
-/

namespace Zllm.Gpu.PagedForward

open Finset Tile Loader Workgroup SingleStream Llama CellTower
open Paged (Halves Dispatch DistinctCells recordBkvPack covers_recordBkvPack)

variable {W : Type} {halves : Halves W} {model : PagedModel} {cfg : PoolConfig}
  {blocks : BlockState} {rows : List Row}

/-! ### The pool's cells -/

section Cells

variable {D : Dispatch} {posb slots table : ℕ → ℕ} {src : Buf} {pool pool' : ℕ → W}

variable (halves) in
/-- Cell `c` of a pool, `n` elements wide, as the shaders unpack it. -/
def cellRow (n : ℕ) (pool : ℕ → W) (c : ℕ) : ℕ → ℝ :=
  cut n fun e => Paged.half (halves.unpack2x16float (pool (c * (n / 2) + e / 2))) e

theorem pair_lt {e : ℕ} (he : e < D.kvDim) : e / 2 < D.kvDim / 2 := by
  have := Paged.kvDim_eq D
  omega

theorem cellRow_packed (hdistinct : DistinctCells D posb slots table)
    (hpack : Leaves (recordBkvPack halves D posb slots table src) pool pool') {r : ℕ}
    (hr : r < D.m) :
    cellRow halves D.kvDim pool' (D.physPos table (slots r) (posb r)) = row D.kvDim src r := by
  have hcovers := covers_recordBkvPack halves hdistinct src
  refine cut_congr fun e he => ?_
  rw [hcovers.apply hpack (i := (r, e / 2)) ⟨hr, pair_lt he⟩, halves.unpack_pack]
  exact Paged.half_pair (fun e => src (r * D.kvDim + e)) e

theorem cellRow_kept (hdistinct : DistinctCells D posb slots table)
    (hpack : Leaves (recordBkvPack halves D posb slots table src) pool pool') {c : ℕ}
    (hc : ∀ r < D.m, D.physPos table (slots r) (posb r) ≠ c) :
    cellRow halves D.kvDim pool' c = cellRow halves D.kvDim pool c := by
  have hcovers := covers_recordBkvPack halves hdistinct src
  refine cut_congr fun e he => ?_
  rw [hcovers.apply_of_ne hpack]
  rintro ⟨r, j⟩ ⟨hr, hj⟩ haddr
  have hcell := congrArg (· / (D.kvDim / 2)) haddr
  simp only [index_div hj, index_div (pair_lt he)] at hcell
  exact hc r hr hcell

/-- Attention over the pool is the decoder layer's over the rows' own cells. -/
theorem row_bdsdpaPaged {m : ℕ} (hvalid : (shape model.gpu).Valid) {q : Buf} {kPool vPool : ℕ → W}
    {outp outp' : Buf}
    (hleaves : Leaves (Paged.recordBdsdpaPaged halves (dispatch model cfg m) posb slots table q kPool
      vPool) outp outp') {r : ℕ} (hr : r < m) :
    row (attnDim model.gpu) outp' r =
      (shape model.gpu).attend (posb r) (row (attnDim model.gpu) q r) fun t =>
        (cellRow halves (kvDim model.gpu) kPool ((dispatch model cfg m).physPos table (slots r) t),
          cellRow halves (kvDim model.gpu) vPool
            ((dispatch model cfg m).physPos table (slots r) t)) := by
  set D := dispatch model cfg m with hD
  set K : ℕ → ℕ → ℕ → ℝ := fun slot t => cellRow halves (kvDim model.gpu) kPool (D.physPos table slot t)
  set V : ℕ → ℕ → ℕ → ℝ := fun slot t => cellRow halves (kvDim model.gpu) vPool (D.physPos table slot t)
  have hk : Paged.HoldsPool halves D table kPool K := fun slot t e he => (cut_apply he).symm
  have hv : Paged.HoldsPool halves D table vPool V := fun slot t e he => (cut_apply he).symm
  refine cut_congr fun i hi => ?_
  have hpos : 0 < model.gpu.headDim := hvalid.headDim_pos
  have hh : i / model.gpu.headDim < model.gpu.nHead := by
    rwa [Nat.div_lt_iff_lt_mul hpos]
  have hd : i % model.gpu.headDim < model.gpu.headDim := Nat.mod_lt i hpos
  have haddr : r * attnDim model.gpu + i =
      D.qBase r (i / model.gpu.headDim) + i % model.gpu.headDim := by
    show _ = r * attnDim model.gpu + i / model.gpu.headDim * model.gpu.headDim + _
    rw [add_assoc, Nat.div_add_mod']
  have hthreads : ∀ s < D.m, ∀ h < D.nHead,
      Paged.bdsdpaPaged halves D posb slots table q kPool vPool (s * D.nHead + h) =
        (List.range D.headDim).map fun d =>
          (D.qBase s h + d, Paged.attention D posb slots q K V s h d) :=
    fun s hs h hh => Paged.bdsdpaPaged_row hk hv hs hh
  have hout := Paged.output_leaves hthreads (fun idx hidx => if_pos hidx) hleaves hr hh hd
  rw [haddr, hout, Paged.attention]
  refine Softmax.average_congr (fun t _ => ?_) fun t _ => rfl
  rw [Shape.score]
  congr 1
  refine sum_congr rfl fun e he => ?_
  have he : e < model.gpu.headDim := mem_range.mp he
  have hq : row (attnDim model.gpu) q r (i / model.gpu.headDim * model.gpu.headDim + e) =
      q (D.qBase r (i / model.gpu.headDim) + e) := by
    refine (row_apply (show _ < attnDim model.gpu from index_lt hh he)).trans ?_
    rw [← add_assoc]
    rfl
  show _ = row (attnDim model.gpu) q r (i / model.gpu.headDim * model.gpu.headDim + e) * _
  rw [hq]
  rfl

end Cells

/-! ### A batch as rows over the store -/

variable (halves model cfg) in
/-- The pools as a store with a cell for each block and offset. -/
noncomputable def storeOf (st : PagedState W) (l : ℕ) (c : ℕ × Fin cfg.blockSize) :
    (ℕ → ℝ) × (ℕ → ℝ) :=
  (cellRow halves (kvDim model.gpu) (st.kPool l) (c.1 * cfg.blockSize + c.2),
    cellRow halves (kvDim model.gpu) (st.vPool l) (c.1 * cfg.blockSize + c.2))

variable (cfg blocks) in
def placeOf (slot t : ℕ) : ℕ × Fin cfg.blockSize :=
  (tableBlock cfg blocks slot t, ⟨t % cfg.blockSize, Nat.mod_lt t cfg.blockSize_pos⟩)

variable (cfg blocks) in
def fedRow (row : Row) (x : ℕ → ℝ) : Fed (ℕ × Fin cfg.blockSize) (ℕ → ℝ) where
  pos := row.pos
  place := placeOf cfg blocks row.slot
  row := x

variable (model cfg blocks rows) in
/-- The batch with its rows of the residual tile. -/
noncomputable def feds (st : PagedState W) : List (Fed (ℕ × Fin cfg.blockSize) (ℕ → ℝ)) :=
  (List.range rows.length).map fun r =>
    fedRow cfg blocks (rowAt rows r) (row model.gpu.nEmbd st.xB r)

variable (cfg blocks rows) in
/-- No row writes a cell that an earlier row, or the row itself at an earlier position, reads. -/
structure Spread : Prop where
  slot_lt : ∀ row ∈ rows, row.slot < cfg.mMax
  pos_lt : ∀ row ∈ rows, row.pos < cfg.maxSeq
  fresh : ∀ row ∈ rows, ∀ t < row.pos,
    placeOf cfg blocks row.slot t ≠ placeOf cfg blocks row.slot row.pos
  before : rows.Pairwise fun f g => ∀ t ≤ f.pos,
    placeOf cfg blocks g.slot g.pos ≠ placeOf cfg blocks f.slot t

variable (model cfg blocks rows) in
/-- The inputs of a batch, as every layer finds them. -/
structure BatchInputs (st : PagedState W) : Prop where
  pos : ∀ r < rows.length, st.posBuf r = (rowAt rows r).pos
  slot : ∀ r < rows.length, st.slotsBuf r = (rowAt rows r).slot
  table : ∀ i < cfg.mMax * cfg.maxBlocksPerSeq, st.blockTableBuf i = blocks.tableHost i
  cosB : ∀ r < rows.length, ∀ j < model.gpu.headDim / 2,
    st.cosB (r * (model.gpu.headDim / 2) + j) = (shape model.gpu).cos (rowAt rows r).pos j
  sinB : ∀ r < rows.length, ∀ j < model.gpu.headDim / 2,
    st.sinB (r * (model.gpu.headDim / 2) + j) = (shape model.gpu).sin (rowAt rows r).pos j

theorem cell_injective {n : ℕ} {c c' : ℕ × Fin n}
    (hcell : c.1 * n + c.2 = c'.1 * n + c'.2) : c = c' := by
  have hblock := congrArg (· / n) hcell
  have hoffset := congrArg (· % n) hcell
  simp only [index_div c.2.isLt, index_div c'.2.isLt] at hblock
  simp only [index_mod c.2.isLt, index_mod c'.2.isLt] at hoffset
  exact Prod.ext hblock (Fin.ext hoffset)

theorem rowAt_eq {r : ℕ} (hr : r < rows.length) : rowAt rows r = rows[r] := by
  rw [rowAt, List.getD_eq_getElem?_getD, List.getElem?_eq_getElem hr, Option.getD_some]

theorem rowAt_mem {r : ℕ} (hr : r < rows.length) : rowAt rows r ∈ rows := by
  rw [rowAt_eq hr]
  exact List.getElem_mem hr

theorem mem_feds {st : PagedState W} {f : Fed (ℕ × Fin cfg.blockSize) (ℕ → ℝ)} :
    f ∈ feds model cfg blocks rows st ↔ ∃ r < rows.length,
      fedRow cfg blocks (rowAt rows r) (row model.gpu.nEmbd st.xB r) = f := by
  simp [feds]

theorem Spread.rowAt_before (hspread : Spread cfg blocks rows) {r r' : ℕ} (hlt : r < r')
    (hr' : r' < rows.length) {t : ℕ} (ht : t ≤ (rowAt rows r).pos) :
    placeOf cfg blocks (rowAt rows r').slot (rowAt rows r').pos ≠
      placeOf cfg blocks (rowAt rows r).slot t := by
  rw [rowAt_eq (hlt.trans hr')] at ht ⊢
  rw [rowAt_eq hr']
  exact List.pairwise_iff_getElem.mp hspread.before r r' (hlt.trans hr') hr' hlt t ht

theorem Spread.feds_before (hspread : Spread cfg blocks rows) (st : PagedState W) :
    (feds model cfg blocks rows st).Pairwise Fed.Before := by
  rw [feds, List.pairwise_map]
  refine List.pairwise_lt_range.imp_of_mem fun hr hr' hlt => ?_
  intro t ht
  exact hspread.rowAt_before hlt (List.mem_range.mp hr') ht

theorem Spread.feds_fresh (hspread : Spread cfg blocks rows) (st : PagedState W) :
    ∀ f ∈ feds model cfg blocks rows st, f.Fresh := by
  intro f hf t ht
  obtain ⟨r, hr, rfl⟩ := mem_feds.mp hf
  exact hspread.fresh _ (rowAt_mem hr) t ht

section Inputs

variable {st : PagedState W} (hinputs : BatchInputs model cfg blocks rows st)

include hinputs

theorem BatchInputs.recordLayer {m l : ℕ} {layer : GpuLayer} {st' : PagedState W}
    (hrun : RecordLayer halves model cfg m l layer st st') :
    BatchInputs model cfg blocks rows st' := by
  obtain ⟨packed, attended, ⟨k, v, -, -, rfl⟩, ⟨attnB, -, rfl⟩, rfl⟩ := hrun
  exact ⟨hinputs.pos, hinputs.slot, hinputs.table, hinputs.cosB, hinputs.sinB⟩

/-- The shaders find a position where the store has it. -/
theorem BatchInputs.physPos {m slot t : ℕ} (hslot : slot < cfg.mMax) (ht : t < cfg.maxSeq) :
    (dispatch model cfg m).physPos st.blockTableBuf slot t =
      (placeOf cfg blocks slot t).1 * cfg.blockSize + (placeOf cfg blocks slot t).2 := by
  have hblock : t / cfg.blockSize < cfg.maxBlocksPerSeq := by
    rw [Nat.div_lt_iff_lt_mul cfg.blockSize_pos, mul_comm]
    refine ht.trans_le ?_
    rw [← smul_eq_mul, PoolConfig.maxBlocksPerSeq]
    exact le_smul_ceilDiv cfg.blockSize_pos
  show st.blockTableBuf (slot * cfg.maxBlocksPerSeq + t / cfg.blockSize) * cfg.blockSize + _ = _
  rw [hinputs.table _ (index_lt hslot hblock)]
  rfl

theorem BatchInputs.physPos_row (hspread : Spread cfg blocks rows) {m r t : ℕ}
    (hr : r < rows.length) (ht : t ≤ (rowAt rows r).pos) :
    (dispatch model cfg m).physPos st.blockTableBuf (st.slotsBuf r) t =
      (placeOf cfg blocks (rowAt rows r).slot t).1 * cfg.blockSize +
        (placeOf cfg blocks (rowAt rows r).slot t).2 := by
  rw [hinputs.slot r hr]
  exact hinputs.physPos (hspread.slot_lt _ (rowAt_mem hr))
    (ht.trans_lt (hspread.pos_lt _ (rowAt_mem hr)))

theorem BatchInputs.physPos_cell (hspread : Spread cfg blocks rows) {m r : ℕ}
    (hr : r < rows.length) :
    (dispatch model cfg m).physPos st.blockTableBuf (st.slotsBuf r) (st.posBuf r) =
      (placeOf cfg blocks (rowAt rows r).slot (rowAt rows r).pos).1 * cfg.blockSize +
        (placeOf cfg blocks (rowAt rows r).slot (rowAt rows r).pos).2 := by
  rw [hinputs.pos r hr]
  exact hinputs.physPos_row hspread hr le_rfl

theorem BatchInputs.distinctCells (hspread : Spread cfg blocks rows) :
    DistinctCells (dispatch model cfg rows.length) st.posBuf st.slotsBuf st.blockTableBuf := by
  intro r hr r' hr' heq
  have heq := cell_injective ((hinputs.physPos_cell hspread hr).symm.trans
    (heq.trans (hinputs.physPos_cell hspread hr')))
  rcases lt_trichotomy r r' with hlt | rfl | hlt
  · exact absurd heq.symm (hspread.rowAt_before hlt hr' le_rfl)
  · rfl
  · exact absurd heq (hspread.rowAt_before hlt hr le_rfl)

theorem BatchInputs.packed {m l : ℕ} {packed : PagedState W}
    (hpacks : Packs halves model cfg m l st packed) : BatchInputs model cfg blocks rows packed := by
  obtain ⟨k, v, -, -, rfl⟩ := hpacks
  exact ⟨hinputs.pos, hinputs.slot, hinputs.table, hinputs.cosB, hinputs.sinB⟩

/-- The pack leaves each row's keys and values in the row's cell. -/
theorem BatchInputs.packs (hspread : Spread cfg blocks rows) {l : ℕ} {packed : PagedState W}
    (hpacks : Packs halves model cfg rows.length l st packed) :
    (∀ r < rows.length,
        storeOf halves model cfg packed l (placeOf cfg blocks (rowAt rows r).slot (rowAt rows r).pos) =
          (row (kvDim model.gpu) st.kB r, row (kvDim model.gpu) st.vB r)) ∧
      (∀ c, (∀ r < rows.length, placeOf cfg blocks (rowAt rows r).slot (rowAt rows r).pos ≠ c) →
        storeOf halves model cfg packed l c = storeOf halves model cfg st l c) ∧
      ∀ l' ≠ l, storeOf halves model cfg packed l' = storeOf halves model cfg st l' := by
  have hdistinct := hinputs.distinctCells hspread
  obtain ⟨k, v, hk, hv, rfl⟩ := hpacks
  refine ⟨fun r hr => ?_, fun c hc => ?_, fun l' hne => funext fun c => ?_⟩
  · rw [storeOf, ← hinputs.physPos_cell hspread hr]
    dsimp only
    rw [Function.update_self, Function.update_self]
    exact Prod.ext (cellRow_packed hdistinct hk hr) (cellRow_packed hdistinct hv hr)
  · have hother : ∀ r < rows.length, (dispatch model cfg rows.length).physPos st.blockTableBuf
        (st.slotsBuf r) (st.posBuf r) ≠ c.1 * cfg.blockSize + c.2 := by
      intro r hr heq
      exact hc r hr (cell_injective ((hinputs.physPos_cell hspread hr).symm.trans heq))
    rw [storeOf, storeOf]
    dsimp only
    rw [Function.update_self, Function.update_self]
    exact Prod.ext (cellRow_kept hdistinct hk hother) (cellRow_kept hdistinct hv hother)
  · rw [storeOf, storeOf]
    dsimp only
    rw [Function.update_of_ne hne, Function.update_of_ne hne]

theorem BatchInputs.attends (hvalid : (shape model.gpu).Valid) (hspread : Spread cfg blocks rows)
    {l r : ℕ} {attended : PagedState W}
    (hattends : Attends halves model cfg rows.length l st attended) (hr : r < rows.length) :
    row (attnDim model.gpu) attended.attnB r =
      (shape model.gpu).attend (rowAt rows r).pos (row (attnDim model.gpu) st.qB r) fun t =>
        storeOf halves model cfg st l (placeOf cfg blocks (rowAt rows r).slot t) := by
  obtain ⟨attnB, hleaves, rfl⟩ := hattends
  refine (row_bdsdpaPaged hvalid hleaves hr).trans ?_
  rw [hinputs.pos r hr]
  refine (shape model.gpu).attend_congr fun t ht => ?_
  rw [hinputs.physPos_row hspread hr ht]
  rfl

end Inputs

/-! ### A layer -/

section Layer

variable {l r : ℕ} {layer : GpuLayer} {st st' : PagedState W}
  (hvalid : (shape model.gpu).Valid) (hlayer : LayerShaped model.gpu layer)
  (hblocks : Blocks model.gpu) (hinputs : BatchInputs model cfg blocks rows st)

include hlayer hblocks

theorem qkv_value (hr : r < rows.length) :
    row (kvDim model.gpu) (qkv model rows.length layer st).vB r =
      (shape model.gpu).value (layerWeights layer) (row model.gpu.nEmbd st.xB r) := by
  show row (kvDim model.gpu) (gemm _ layer.wv.rows _ _ _ _ _) r = _
  rw [hlayer.wv.1, row_gemm hlayer.wv.1 hlayer.wv.2 hblocks.nEmbd, if_pos hr, row_bnorm hr]
  rfl

include hvalid hinputs

theorem qkv_key (hr : r < rows.length) :
    row (kvDim model.gpu) (qkv model rows.length layer st).kB r =
      (shape model.gpu).key (layerWeights layer) (rowAt rows r).pos
        (row model.gpu.nEmbd st.xB r) := by
  show row (kvDim model.gpu) (brope _ _ _ _ _ (gemm _ layer.wk.rows _ _ _ _ _)) r = _
  rw [hlayer.wk.1]
  refine (row_brope hvalid.headDim_even hvalid.headDim_pos hr _ _ _).trans ?_
  refine (rotate_congr hvalid.headDim_pos hvalid.headDim_even (hinputs.cosB r hr)
    (hinputs.sinB r hr)).trans ?_
  refine congrArg (rotate _ _ _ _) ?_
  refine (row_gemm hlayer.wk.1 hlayer.wk.2 hblocks.nEmbd false _ _ r).trans ?_
  rw [if_pos hr, row_bnorm hr]
  rfl

theorem qkv_query (hr : r < rows.length) :
    row (attnDim model.gpu) (qkv model rows.length layer st).qB r =
      (shape model.gpu).query (layerWeights layer) (rowAt rows r).pos
        (row model.gpu.nEmbd st.xB r) := by
  show row (attnDim model.gpu) (brope _ _ _ _ _ (gemm _ layer.wq.rows _ _ _ _ _)) r = _
  rw [hlayer.wq.1]
  refine (row_brope hvalid.headDim_even hvalid.headDim_pos hr _ _ _).trans ?_
  refine (rotate_congr hvalid.headDim_pos hvalid.headDim_even (hinputs.cosB r hr)
    (hinputs.sinB r hr)).trans ?_
  refine congrArg (rotate _ _ _ _) ?_
  refine (row_gemm hlayer.wq.1 hlayer.wq.2 hblocks.nEmbd false _ _ r).trans ?_
  rw [if_pos hr, row_bnorm hr]
  rfl

omit hvalid hinputs in
theorem mix_row (hcap : rows.length ≤ cfg.rowCap) (hr : r < rows.length) :
    row model.gpu.nEmbd (mix model cfg rows.length layer st).xB r =
      (shape model.gpu).ffnBlock (layerWeights layer)
        ((shape model.gpu).attnBlock (layerWeights layer) (row model.gpu.nEmbd st.xB r)
          (row (attnDim model.gpu) st.attnB r)) := by
  show row model.gpu.nEmbd (gemm layer.w2 layer.w2.rows _ _ _ (siluMul _ _
    (gemm _ layer.w1.rows _ _ _ (bnorm _ _ _ _ (gemm _ layer.wo.rows _ _ _ _ _) _) _)
    (gemm _ layer.w3.rows _ _ _ (bnorm _ _ _ _ (gemm _ layer.wo.rows _ _ _ _ _) _) _) _)
    (gemm _ layer.wo.rows _ _ _ _ _)) r = _
  rw [hlayer.w2.1, hlayer.w1.1, hlayer.w3.1, hlayer.wo.1,
    row_gemm hlayer.w2.1 hlayer.w2.2 hblocks.nInter, if_pos hr, if_pos rfl,
    row_siluMul hr (Nat.mul_le_mul_right _ hcap),
    row_gemm hlayer.w1.1 hlayer.w1.2 hblocks.nEmbd, row_gemm hlayer.w3.1 hlayer.w3.2 hblocks.nEmbd,
    if_pos hr, if_pos hr, row_bnorm hr, row_gemm hlayer.wo.1 hlayer.wo.2 hblocks.attnDim, if_pos hr,
    if_pos rfl]
  rfl

/-- The dispatches of a layer take the batch through the decoder layer. -/
theorem recordLayer_eq (hspread : Spread cfg blocks rows) (hcap : rows.length ≤ cfg.rowCap)
    (htower : tower model.gpu l = (shape model.gpu).layer (layerWeights layer))
    (hrun : RecordLayer halves model cfg rows.length l layer st st') :
    (storeOf halves model cfg st', feds model cfg blocks rows st') =
      batchLayer (tower model.gpu) l
        (storeOf halves model cfg st, feds model cfg blocks rows st) := by
  obtain ⟨packed, attended, hpacks, hattends, rfl⟩ := hrun
  have hqkv : BatchInputs model cfg blocks rows (qkv model rows.length layer st) :=
    ⟨hinputs.pos, hinputs.slot, hinputs.table, hinputs.cosB, hinputs.sinB⟩
  obtain ⟨hcells, hkept, hother⟩ := hqkv.packs hspread hpacks
  have hatt := fun r (hr : r < rows.length) =>
    (hqkv.packed hpacks).attends hvalid hspread hattends hr
  obtain ⟨k, v, -, -, rfl⟩ := hpacks
  obtain ⟨attnB, -, rfl⟩ := hattends
  refine batchLayer_of ((hspread.feds_before st).imp Fed.Before.cell_ne) ?_ ?_ hother ?_
  · intro f hf
    obtain ⟨r, hr, rfl⟩ := mem_feds.mp hf
    refine (hcells r hr).trans ?_
    rw [qkv_key hvalid hlayer hblocks hinputs hr, qkv_value hlayer hblocks hr, htower]
    rfl
  · intro c hc
    exact hkept c fun r hr => hc _ (mem_feds.mpr ⟨r, hr, rfl⟩)
  · rw [feds, feds, List.map_map]
    refine List.map_congr_left fun r hr => ?_
    have hr := List.mem_range.mp hr
    refine congrArg (fedRow cfg blocks (rowAt rows r)) ?_
    rw [mix_row hlayer hblocks hcap hr, htower]
    refine congrArg ((shape model.gpu).ffnBlock _) (congrArg ((shape model.gpu).attnBlock _ _) ?_)
    refine (hatt r hr).trans ?_
    dsimp only
    rw [qkv_query hvalid hlayer hblocks hinputs hr]
    rfl

end Layer

end Zllm.Gpu.PagedForward

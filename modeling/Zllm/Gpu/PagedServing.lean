import Zllm.Gpu.OwnPrefix
import Zllm.Gpu.PagedRefinement
import Zllm.Gpu.PrefillAgrees

/-!
# The decoder's answers are the dispatches'

Behind the layers a command buffer has a head and a selection. For every kind of forward that the
decoder makes, the tokens selected on the device are those of the decoder over the paged memory, and
the pool is again the memory's.
-/

namespace Zllm.Gpu.PagedForward

open BlockState Outcome Tile Loader SingleStream Workgroup
open Paged (Halves)

variable {W : Type} {halves : Halves W} {model : PagedModel} {st st' : PagedState W} {m r : ℕ}

/-! ### Heads -/

theorem head_row {n : ℕ} (hmodel : Servable model.gpu) {normedB logitsB : Buf} {x : ℕ → ℝ}
    (hr : r < n)
    (hnormed : row model.gpu.nEmbd normedB r =
      Llama.rmsNorm model.gpu.nEmbd model.gpu.eps (normWeight model.gpu.finalNormW) x) :
    row model.gpu.vocab (gemm model.gpu.lmHead model.gpu.lmHead.rows model.gpu.nEmbd n false normedB
      logitsB) r = headLogits model.gpu x := by
  rw [hmodel.lmHead_rows,
    row_gemm hmodel.lmHead_rows hmodel.lmHead_cols hmodel.blocks.nEmbd false _ _ r, if_pos hr,
    hnormed, headLogits, hmodel.lmHead_cols]
  rfl

theorem decodeHead_row (hmodel : Servable model.gpu) (hr : r < m) :
    row model.gpu.vocab (decodeHead model m st).logitsB r =
      headLogits model.gpu (row model.gpu.nEmbd st.xB r) :=
  head_row hmodel hr (row_bnorm hr _ _ _ _)

/-- The last row comes to the front, or is there. -/
theorem prefillHead_row (hmodel : Servable model.gpu) (hm : 0 < m) :
    row model.gpu.vocab (prefillHead model m st).logitsB 0 =
      headLogits model.gpu (row model.gpu.nEmbd st.xB (m - 1)) := by
  set normedB := (finalNorm model m st).normedB with hnormed
  have hlast : row model.gpu.nEmbd normedB (m - 1) =
      Llama.rmsNorm model.gpu.nEmbd model.gpu.eps (normWeight model.gpu.finalNormW)
        (row model.gpu.nEmbd st.xB (m - 1)) := row_bnorm (by omega) _ _ _ _
  by_cases hmany : 1 < m
  · simp only [prefillHead, if_pos hmany]
    refine head_row hmodel one_pos ?_
    rw [row_zero, cut_writeAt, ← hlast]
    rfl
  · obtain rfl : m = 1 := by omega
    simp only [prefillHead, if_neg hmany]
    exact head_row hmodel one_pos hlast

/-! ### Selections read one row -/

section Select

variable {vocab s : ℕ} {logits : Buf}

theorem bargmax_row : bargmax vocab (row vocab logits s) 0 = bargmax vocab logits s :=
  argmax_congr fun k hk => by rw [zero_mul, zero_add, row_apply hk]

theorem bsample_row (temp : ℕ → ℝ) (seed : ℕ → UInt32) :
    bsample vocab (row vocab logits s) (fun _ => temp s) (fun _ => seed s) 0 =
      bsample vocab logits temp seed s :=
  argmax_congr fun k hk => by rw [zero_mul, zero_add, row_apply hk]

theorem topkRounds_congr {x x' : Buf} (hx : ∀ c < vocab, x c = x' c) (k : ℕ) (prev : Best) :
    topkRounds vocab x k prev = topkRounds vocab x' k prev := by
  have hround : topkRound vocab x = topkRound vocab x' := by
    funext prev
    have hlane : topkLane vocab x prev = topkLane vocab x' prev := by
      funext t
      refine List.foldl_ext _ _ _ fun best c hc => ?_
      rw [hx c (List.mem_range.mp (List.mem_of_mem_filter hc))]
    rw [topkRound, topkRound, hlane]
  induction k generalizing prev with
  | zero => rfl
  | succ k ih => rw [topkRounds, topkRounds, hround, ih]

theorem selectTopk_row (params : ℕ → SamplingParams) (seeds : ℕ → UInt32) :
    selectTopk vocab (row vocab logits s) (fun _ => params s) (fun _ => seeds s) 0 =
      selectTopk vocab logits params seeds s := by
  have hpool : btopk TOPK_K vocab (row vocab logits s) 0 = btopk TOPK_K vocab logits s :=
    topkRounds_congr (fun c hc => by rw [zero_mul, zero_add, row_apply hc]) _ _
  rw [selectTopk, selectTopk, hpool]

end Select

/-! ### A forward of the decoder -/

/-- The forwards, each with the selection after it. -/
inductive Forward where
  | step (rows : List Row)
  | sample (rows : List Row) (sampling : List (ℚ × UInt32))
  | topk (rows : List Row) (sampling : List (SamplingParams × UInt32))
  | chunk (prompt : List Token) (slot start : ℕ) (samp : Option (ℚ × UInt32))

namespace Forward

/-- The end of the chunk. -/
def stop (cfg : PoolConfig) (prompt : List Token) (start : ℕ) : ℕ :=
  min (start + cfg.rowCap) prompt.length

def rows (cfg : PoolConfig) : Forward → List Row
  | step rows => rows
  | sample rows _ => rows
  | topk rows _ => rows
  | chunk prompt slot start _ => BatchedDecoder.chunkRows prompt slot start (stop cfg prompt start)

/-- The assertions on the lengths of the parameter slices. -/
def Paired : Forward → Prop
  | sample rows sampling => sampling.length = rows.length
  | topk rows sampling => sampling.length = rows.length
  | _ => True

/-- The call of the decoder, with the tokens it returns. -/
noncomputable def host {M B L : Type} (dev : Device M B L) (dec : BatchedDecoder M) :
    Forward → Except Panic (List Token × BatchedDecoder M)
  | step rows => dec.stepSlotted dev rows
  | sample rows sampling => dec.stepSlottedSample dev rows sampling
  | topk rows sampling => dec.stepSlottedTopk dev rows sampling
  | chunk prompt slot start samp => do
    let ((_, first), dec) ← dec.prefillChunk dev prompt slot start samp
    return (first.toList, dec)

variable (halves model) in
/-- The command buffer up to the logits. -/
def Runs (cfg : PoolConfig) (blocks : BlockState) (st st' : PagedState W) (call : Forward) : Prop :=
  match call with
  | chunk prompt _ start _ =>
    PrefillChunk halves model cfg blocks (call.rows cfg) (stop cfg prompt start = prompt.length) st st'
  | _ => ForwardLogits halves model cfg blocks (call.rows cfg) st st'

/-- `record_select` for one row. -/
noncomputable def selectFirst (vocab : ℕ) (logits : Buf) : Option (ℚ × UInt32) → Token
  | none => bargmax vocab logits 0
  | some (temp, seed) => bsample vocab logits (fun _ => temp) (fun _ => seed) 0

/-- The selection kernels over the logits. -/
noncomputable def select (vocab : ℕ) (cfg : PoolConfig) (logits : Buf) : Forward → List Token
  | step rows => (List.range rows.length).map (bargmax vocab logits)
  | sample rows sampling =>
    (List.range rows.length).map (bsample vocab logits (fun s => (sampling.getD s (0, 0)).1)
      fun s => (sampling.getD s (0, 0)).2)
  | topk rows sampling =>
    (List.range rows.length).map (selectTopk vocab logits
      (fun s => (sampling.getD s (.greedy, 0)).1) fun s => (sampling.getD s (.greedy, 0)).2)
  | chunk prompt _ start samp =>
    if stop cfg prompt start = prompt.length then [selectFirst vocab logits samp] else []

end Forward

/-! ### Outcomes -/

variable (halves model) in
theorem exists_recordLayers (cfg : PoolConfig) (m l : ℕ) (layers : List GpuLayer)
    (st : PagedState W) : ∃ st', RecordLayers halves model cfg m l layers st st' := by
  induction layers generalizing l st with
  | nil => exact ⟨st, rfl⟩
  | cons layer rest ih =>
    have hpacks : ∃ packed, Packs halves model cfg m l (qkv model m layer st) packed :=
      ⟨_, _, _, leaves_perform _ _, leaves_perform _ _, rfl⟩
    obtain ⟨packed, hpacks⟩ := hpacks
    have hattends : ∃ attended, Attends halves model cfg m l packed attended :=
      ⟨_, _, leaves_perform _ _, rfl⟩
    obtain ⟨attended, hattends⟩ := hattends
    obtain ⟨st', hrest⟩ := ih (l + 1) (mix model cfg m layer attended)
    exact ⟨st', _, ⟨packed, attended, hpacks, hattends, rfl⟩, hrest⟩

variable (halves model) in
theorem exists_runs (cfg : PoolConfig) (blocks : BlockState) (call : Forward) (st : PagedState W) :
    ∃ st', call.Runs halves model cfg blocks st st' := by
  obtain ⟨mid, hlayers⟩ := exists_recordLayers halves model cfg (call.rows cfg).length 0
    model.gpu.layers (writeInputs model cfg blocks (call.rows cfg) st)
  cases call <;> exact ⟨_, mid, hlayers, rfl⟩

/-! ### The refinement -/

variable (halves model) in
/-- The decoder's memory is what the pool's words unpack to. -/
def Mirrors (cfg : PoolConfig) (st : PagedState W) (mem : PagedMemory Entries) : Prop :=
  storeOf halves model cfg st = poolStore cfg mem.pool

variable (halves model) in
/-- The memory that a pool's words unpack to. -/
noncomputable def memoryOf (cfg : PoolConfig) (st : PagedState W) : PagedMemory Entries :=
  .new fun b offset l =>
    if hoffset : offset < cfg.blockSize then storeOf halves model cfg st l (b, ⟨offset, hoffset⟩)
    else 0

theorem mirrors_memoryOf (cfg : PoolConfig) (st : PagedState W) :
    Mirrors halves model cfg st (memoryOf halves model cfg st) := by
  funext l ⟨b, offset⟩
  have hread : poolStore cfg (memoryOf halves model cfg st).pool l (b, offset) =
      storeOf halves model cfg st l (b, offset) := dif_pos offset.isLt
  exact hread.symm

section Refines

variable {mem : KvMemory (towerKernels model.gpu).device} {kv : ℕ → SlotKv}
  {dec dec' : BatchedDecoder (PagedMemory Entries)} {rows : List Row} {logits : List (ℕ → ℝ)}

/-- The layers of a forward that the decoder makes. -/
theorem forwardLogits_recordLayers (hmodel : Servable model.gpu) (hrep : Represents mem dec kv)
    (hstep : InStep dec.cfg rows kv) (hcap : rows.length ≤ dec.cfg.rowCap)
    (hok : dec.forwardLogits (towerKernels model.gpu).device rows = .ok (logits, dec'))
    (hmirrors : Mirrors halves model dec.cfg st dec.mem)
    (hrun : RecordLayers halves model dec.cfg rows.length 0 model.gpu.layers
      (writeInputs model dec.cfg dec'.blocks rows st) st') :
    Mirrors halves model dec.cfg st' dec'.mem ∧
      logits = (List.range rows.length).map fun r =>
        headLogits model.gpu (row model.gpu.nEmbd st'.xB r) := by
  unfold BatchedDecoder.forwardLogits at hok
  obtain ⟨u, hinputs, hok⟩ := bind_eq_ok.mp hok
  obtain ⟨blocks, hpaging, hok⟩ := bind_eq_ok.mp hok
  have hpos := writeInputs_eq_ok hinputs
  have hnothing : (KvMemory.vacuous (towerKernels model.gpu).device).Holds dec.cfg dec.blocks dec.mem
      kv := trivial
  obtain ⟨hres, -, hbacked, -, -⟩ :=
    preparePaging_spec hstep.slot_lt hpos hrep.resident hnothing hpaging
  simp only [pure_eq_ok, Prod.mk.injEq] at hok
  obtain ⟨rfl, rfl⟩ := hok
  exact recordLayers_rows hmodel (spread_of_inStep hres hstep hpos hbacked) hcap hmirrors hrun

theorem checkRows_eq_ok {cfg : PoolConfig} {u : Unit}
    (hok : BatchedDecoder.checkRows cfg rows = .ok u) : rows.length ≤ cfg.rowCap := by
  unfold BatchedDecoder.checkRows at hok
  split_ifs at hok with hrows
  exact hrows.1.trans (le_max_left _ _)

/-- The rows of the logits buffer behind a forward of a batch. -/
theorem forwardLogits_rows (hmodel : Servable model.gpu) (hrep : Represents mem dec kv)
    (hstep : InStep dec.cfg rows kv) (hcap : rows.length ≤ dec.cfg.rowCap)
    (hok : dec.forwardLogits (towerKernels model.gpu).device rows = .ok (logits, dec'))
    (hmirrors : Mirrors halves model dec.cfg st dec.mem)
    (hrun : ForwardLogits halves model dec.cfg dec'.blocks rows st st') :
    Mirrors halves model dec.cfg st' dec'.mem ∧
      logits = (List.range rows.length).map (row model.gpu.vocab st'.logitsB) := by
  obtain ⟨mid, hlayers, rfl⟩ := hrun
  obtain ⟨hpool, hlogits⟩ :=
    forwardLogits_recordLayers hmodel hrep hstep hcap hok hmirrors hlayers
  refine ⟨hpool, hlogits.trans (List.map_congr_left fun r hr => ?_)⟩
  exact (decodeHead_row hmodel (List.mem_range.mp hr)).symm

/-- Selections row by row over a batch whose parameters are paired with its rows. -/
theorem zipWith_rows {α : Type} {sampling : List α} {n : ℕ} (hpaired : sampling.length = n)
    (default : α) (sel : (ℕ → ℝ) → α → Token) (logit : ℕ → ℕ → ℝ) :
    List.zipWith sel ((List.range n).map logit) sampling =
      (List.range n).map fun s => sel (logit s) (sampling.getD s default) := by
  subst hpaired
  refine List.ext_getElem (by simp) fun s _ hs => ?_
  rw [List.length_map, List.length_range] at hs
  simp [List.getD_eq_getElem?_getD, List.getElem?_eq_getElem hs]

theorem length_chunkRows (prompt : List Token) (slot start stop : ℕ) :
    (BatchedDecoder.chunkRows prompt slot start stop).length = min stop prompt.length - start := by
  simp [BatchedDecoder.chunkRows]

theorem storeOf_prefillHead (cfg : PoolConfig) :
    storeOf halves model cfg (prefillHead model m st) = storeOf halves model cfg st := by
  unfold prefillHead
  dsimp only
  split_ifs
  · rfl
  · rfl

end Refines

section Calls

variable {mem : KvMemory (towerKernels model.gpu).device} {kv : ℕ → SlotKv}
  {dec dec' : BatchedDecoder (PagedMemory Entries)} {tokens : List Token}

/-- A step's tokens are selected row by row. -/
theorem step_refines {rows : List Row} (hmodel : Servable model.gpu) (hrep : Represents mem dec kv)
    (hstep : InStep dec.cfg rows kv)
    (hhost : dec.stepSlotted (towerKernels model.gpu).device rows = .ok (tokens, dec'))
    (hmirrors : Mirrors halves model dec.cfg st dec.mem)
    (hrun : ForwardLogits halves model dec.cfg dec'.blocks rows st st') :
    Mirrors halves model dec.cfg st' dec'.mem ∧
      (List.range rows.length).map (bargmax model.gpu.vocab st'.logitsB) = tokens := by
  obtain ⟨u, hcheck, hhost⟩ := bind_eq_ok.mp hhost
  obtain ⟨⟨logits, dec₁⟩, hforward, hhost⟩ := bind_eq_ok.mp hhost
  simp only [pure_eq_ok, Prod.mk.injEq] at hhost
  obtain ⟨rfl, rfl⟩ := hhost
  obtain ⟨hpool, rfl⟩ : _ ∧ logits = (List.range rows.length).map _ :=
    forwardLogits_rows hmodel hrep hstep (checkRows_eq_ok hcheck) hforward hmirrors hrun
  refine ⟨hpool, ?_⟩
  rw [List.map_map]
  exact List.map_congr_left fun s _ => bargmax_row.symm

/-- A chunk's first token, where it is the prompt's last chunk, is selected from its last row. -/
theorem chunk_refines {prompt : List Token} {slot start : ℕ} {samp : Option (ℚ × UInt32)}
    (hmodel : Servable model.gpu) (hrep : Represents mem dec kv)
    (hstep : InStep dec.cfg ((Forward.chunk prompt slot start samp).rows dec.cfg) kv)
    (hhost : (Forward.chunk prompt slot start samp).host (towerKernels model.gpu).device dec =
      .ok (tokens, dec'))
    (hmirrors : Mirrors halves model dec.cfg st dec.mem)
    (hrun : (Forward.chunk prompt slot start samp).Runs halves model dec.cfg dec'.blocks st st') :
    Mirrors halves model dec.cfg st' dec'.mem ∧
      (Forward.chunk prompt slot start samp).select model.gpu.vocab dec.cfg st'.logitsB = tokens := by
  set rows := (Forward.chunk prompt slot start samp).rows dec.cfg with hrows
  obtain ⟨⟨⟨stop, first⟩, dec₁⟩, hchunk, hhost⟩ := bind_eq_ok.mp hhost
  simp only [pure_eq_ok, Prod.mk.injEq] at hhost
  obtain ⟨rfl, rfl⟩ := hhost
  unfold BatchedDecoder.prefillChunk at hchunk
  split_ifs at hchunk with hstart
  obtain ⟨⟨logits, dec₂⟩, hforward, hchunk⟩ := bind_eq_ok.mp hchunk
  simp only [pure_eq_ok, Prod.mk.injEq] at hchunk
  obtain ⟨⟨-, rfl⟩, rfl⟩ := hchunk
  have hlength : rows.length = Forward.stop dec.cfg prompt start - start := by
    have hstop : min (Forward.stop dec.cfg prompt start) prompt.length =
        Forward.stop dec.cfg prompt start := min_eq_left (min_le_right _ _)
    refine (length_chunkRows prompt slot start _).trans ?_
    rw [hstop]
  have hcap : rows.length ≤ dec.cfg.rowCap := by
    rw [hlength, Forward.stop]
    omega
  have hsome : 0 < rows.length := by
    have hcapPos : 0 < dec.cfg.rowCap := lt_max_of_lt_right (by decide)
    rw [hlength, Forward.stop]
    omega
  obtain ⟨mid, hlayers, rfl⟩ := hrun
  obtain ⟨hpool, rfl⟩ :=
    forwardLogits_recordLayers hmodel hrep hstep hcap hforward hmirrors hlayers
  by_cases hlast : Forward.stop dec.cfg prompt start = prompt.length
  · have hrow : row model.gpu.vocab (prefillHead model rows.length mid).logitsB 0 = _ :=
      prefillHead_row hmodel hsome
    have hlogits : ((List.range rows.length).map fun r =>
        headLogits model.gpu (row model.gpu.nEmbd mid.xB r)).getLast? =
          some (row model.gpu.vocab (prefillHead model rows.length mid).logitsB 0) := by
      rw [List.getLast?_map, List.getLast?_range, if_neg hsome.ne', hrow]
      rfl
    rw [if_pos (decide_eq_true hlast), if_pos (show min _ _ = _ from hlast), hlogits]
    refine ⟨(storeOf_prefillHead _).trans hpool, ?_⟩
    rw [Forward.select, if_pos hlast]
    cases samp with
    | none => exact congrArg (List.cons · []) bargmax_row.symm
    | some drawn =>
      exact congrArg (List.cons · [])
        (bsample_row (fun _ => (drawn.1 : ℝ)) fun _ => drawn.2).symm
  · rw [if_neg (by simpa using hlast), if_neg (show ¬min _ _ = _ from hlast)]
    refine ⟨hpool, ?_⟩
    rw [Forward.select, if_neg hlast]
    rfl

/-- **The dispatches refine the decoder.** From buffers whose pool unpacks to the memory of a decoder
that represents a view, whatever forward the decoder makes in step with the view, and in whatever
order the stores of each dispatch land: the pool unpacks to the decoder's memory again, and the
tokens selected on the device are the decoder's. -/
theorem forward_refines (hmodel : Servable model.gpu) (hrep : Represents mem dec kv) (call : Forward)
    (hpaired : call.Paired) (hstep : InStep dec.cfg (call.rows dec.cfg) kv)
    (hhost : call.host (towerKernels model.gpu).device dec = .ok (tokens, dec'))
    (hmirrors : Mirrors halves model dec.cfg st dec.mem)
    (hrun : call.Runs halves model dec.cfg dec'.blocks st st') :
    Mirrors halves model dec.cfg st' dec'.mem ∧
      call.select model.gpu.vocab dec.cfg st'.logitsB = tokens := by
  cases call with
  | step rows => exact step_refines hmodel hrep hstep hhost hmirrors hrun
  | sample rows sampling =>
    obtain ⟨u, hcheck, hhost⟩ := bind_eq_ok.mp hhost
    obtain ⟨⟨logits, dec₁⟩, hforward, hhost⟩ := bind_eq_ok.mp hhost
    simp only [pure_eq_ok, Prod.mk.injEq] at hhost
    obtain ⟨rfl, rfl⟩ := hhost
    obtain ⟨hpool, rfl⟩ : _ ∧ logits = (List.range rows.length).map _ :=
      forwardLogits_rows hmodel hrep hstep (checkRows_eq_ok hcheck) hforward hmirrors hrun
    refine ⟨hpool, ?_⟩
    rw [zipWith_rows (show sampling.length = rows.length from hpaired) (0, 0)]
    exact List.map_congr_left fun s _ => (bsample_row
      (fun s => ((sampling.getD s (0, 0)).1 : ℝ)) fun s => (sampling.getD s (0, 0)).2).symm
  | topk rows sampling =>
    obtain ⟨u, hcheck, hhost⟩ := bind_eq_ok.mp hhost
    obtain ⟨⟨logits, dec₁⟩, hforward, hhost⟩ := bind_eq_ok.mp hhost
    simp only [pure_eq_ok, Prod.mk.injEq] at hhost
    obtain ⟨rfl, rfl⟩ := hhost
    obtain ⟨hpool, rfl⟩ : _ ∧ logits = (List.range rows.length).map _ :=
      forwardLogits_rows hmodel hrep hstep (checkRows_eq_ok hcheck) hforward hmirrors hrun
    refine ⟨hpool, ?_⟩
    rw [zipWith_rows (show sampling.length = rows.length from hpaired) (.greedy, 0)]
    exact List.map_congr_left fun s _ => (selectTopk_row
      (fun s => (sampling.getD s (.greedy, 0)).1) fun s => (sampling.getD s (.greedy, 0)).2).symm
  | chunk prompt slot start samp => exact chunk_refines hmodel hrep hstep hhost hmirrors hrun

end Calls

/-! ### On a small model -/

/-- Words that keep the numbers themselves. -/
def lossless : Halves (ℝ × ℝ) where
  pack2x16float := id
  unpack2x16float := id
  unpack_pack := fun _ => rfl

noncomputable def smallModel : PagedModel where
  gpu := uniformGpuModel smallDims
  grouped := by decide
  headDim_even := by decide
  headDim_le := by decide

/-- Buffers that hold zeros. -/
noncomputable def blank : PagedState (ℝ × ℝ) :=
  ⟨0, 0, 0, 0, 0, 0, 0, 0, 0, 0, 0, 0, 0, 0, 0, 0, 0⟩

noncomputable def smallDecoder : BatchedDecoder (PagedMemory Entries) where
  cfg := tightPool
  blocks := .new tightPool true
  mem := memoryOf lossless smallModel tightPool blank

theorem servable_small : Servable smallModel.gpu := by
  have hshaped : Shaped smallModel.gpu :=
    shaped_uniform (by decide) (by decide) (by decide) (by decide)
  exact ⟨hshaped.valid (by decide), hshaped.layers, ⟨by decide, by decide, by decide⟩, rfl, rfl⟩

/-- The small model's first chunk, on the device and in the decoder. -/
theorem forward_refines_small :
    ∃ (tokens : List Token) (dec' : BatchedDecoder (PagedMemory Entries))
      (st' : PagedState (ℝ × ℝ)),
      (Forward.chunk [3, 0, 3] 0 0 none).host (towerKernels smallModel.gpu).device smallDecoder =
        .ok (tokens, dec') ∧
      (Forward.chunk [3, 0, 3] 0 0 none).Runs lossless smallModel tightPool dec'.blocks blank st' ∧
      Mirrors lossless smallModel tightPool st' dec'.mem ∧
      (Forward.chunk [3, 0, 3] 0 0 none).select smallModel.gpu.vocab tightPool st'.logitsB =
        tokens := by
  have hhost : ∃ tokens dec', (Forward.chunk [3, 0, 3] 0 0 none).host
      (towerKernels smallModel.gpu).device smallDecoder = .ok (tokens, dec') := ⟨_, _, rfl⟩
  obtain ⟨tokens, dec', hhost⟩ := hhost
  obtain ⟨st', hruns⟩ := exists_runs lossless smallModel tightPool dec'.blocks
    (.chunk [3, 0, 3] 0 0 none) blank
  have hrep : Represents (.vacuous (towerKernels smallModel.gpu).device) smallDecoder
      fun _ => SlotKv.empty := ⟨resident_new true, trivial⟩
  have hstep : InStep smallDecoder.cfg ((Forward.chunk [3, 0, 3] 0 0 none).rows smallDecoder.cfg)
      fun _ => SlotKv.empty :=
    ⟨by decide, rfl, by decide, rfl, by decide, rfl, trivial⟩
  exact ⟨tokens, dec', st', hhost, hruns, forward_refines servable_small hrep _ trivial hstep hhost
    (mirrors_memoryOf tightPool blank) hruns⟩

end Zllm.Gpu.PagedForward

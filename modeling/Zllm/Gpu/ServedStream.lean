import Zllm.Gpu.PagedServing
import Zllm.Gpu.PhaseOutcome
import Zllm.Gpu.TowerMemory

/-!
# Batched serving is single-stream serving

The single-stream lane keeps one contiguous cache for one stream, the batched lane a pool of blocks
for many. In every state that the batcher reaches, the token that the device selects for a sequence,
in a batched decode or behind the last chunk of its prompt, is the one that the single-stream lane
selects behind the same tokens.
-/

namespace Zllm.Gpu.PagedForward

open Function (update update_self update_of_ne)
open Tile Loader SingleStream Llama CausalTower Outcome
open Paged (Halves)

variable {gpu : GpuModel} {cfg : PoolConfig}

/-! ### The single stream -/

/-- The token that `forward_argmax` returns behind some tokens, whatever the buffers held. -/
def Chooses (gpu : GpuModel) (tokens : List Token) (tok : Token) : Prop :=
  ∀ s : GpuState, ∃ a b, forwardAll gpu 0 tokens.dropLast (s, []) = .ok a ∧
    SingleStream.forwardArgmax gpu (tokens.getLastD 0) (tokens.length - 1) a.1 = .ok (b, tok)

theorem chooses_argmax (hshaped : Shaped gpu) (heven : Even gpu.headDim) (hloaded : Loaded gpu)
    (hfits : ∀ launch ∈ forwardLaunches gpu, launch.Fits) {tokens : List Token}
    (hne : tokens ≠ []) (hvocab : ∀ tok ∈ tokens, tok < gpu.vocab)
    (hlength : tokens.length ≤ gpu.maxSeq) :
    Chooses gpu tokens (bargmax gpu.vocab (logitsOf gpu tokens) 0) := by
  intro s
  have hpos : 0 < tokens.length := List.length_pos_of_ne_nil hne
  have hdrop : tokens.dropLast.length = tokens.length - 1 := List.length_dropLast
  have hfeeds : Feeds gpu (streamRows gpu tokens) 0 tokens.dropLast := by
    intro k token hget
    obtain ⟨hk, -⟩ := List.getElem?_eq_some_iff.mp hget
    have htoken : tokens.getD k 0 = token := by
      rw [List.getD_eq_getElem?_getD]
      rw [List.dropLast_eq_take, List.getElem?_take_of_lt (by omega)] at hget
      rw [hget]
      rfl
    rw [zero_add, streamRows, htoken]
    rfl
  obtain ⟨a, ha, hfollows, -⟩ := forwardAll_follows hshaped heven hloaded hfits
    (fun tok htok => hvocab tok (List.dropLast_subset _ htok)) hfeeds (by omega)
    (r := (s, [])) (follows_zero (tower gpu) 0 (streamRows gpu tokens) gpu.layers.length _)
  rw [zero_add, hdrop] at hfollows
  set tok := tokens.getLastD 0 with htok
  have hlast : embedding gpu tok = streamRows gpu tokens (tokens.length - 1) := by
    rw [streamRows, htok, List.getLastD_eq_getLast?, List.getLast?_eq_getElem?,
      List.getD_eq_getElem?_getD]
  have hmem : tok < gpu.vocab := by
    refine hvocab tok ?_
    rw [htok, List.getLastD_eq_getLast?, List.getLast?_eq_getLast_of_ne_nil hne]
    exact List.getLast_mem hne
  have hembed : (tok + 1) * gpu.nEmbd ≤ gpu.embed.length := by
    rw [hshaped.embed]
    exact Nat.mul_le_mul_right _ hmem
  have hslice : (tokens.length - 1) * half gpu + half gpu ≤ gpu.maxSeq * half gpu := by
    rw [← Nat.succ_mul]
    exact Nat.mul_le_mul_right _ (by omega)
  obtain ⟨-, hout⟩ := tokenPass_follows (Nat.zero_le (tokens.length - 1)) hfollows
  rw [← hlast] at hout
  have hlogits := runToken_logits (hshaped.valid heven) hshaped.layers (tokenRow gpu tok)
    (tokens.length - 1) a.1 hloaded
  set out := runToken gpu (tokenRow gpu tok) (tokens.length - 1) a.1 with hrun
  have hchoice : argmax gpu.vocab out.logits = bargmax gpu.vocab (logitsOf gpu tokens) 0 := by
    refine argmax_congr fun k hk => ?_
    rw [zero_mul, zero_add]
    calc out.logits k = cut gpu.vocab out.logits k := (cut_apply hk).symm
      _ = headLogits gpu _ k := congrFun hlogits k
      _ = logitsOf gpu tokens k := congrArg (fun x => headLogits gpu x k) hout
  have hrecord : recordForward gpu tok (tokens.length - 1) a.1 = .ok out :=
    recordForward_eq_ok.mpr ⟨hembed, hslice, hfits, rfl⟩
  refine ⟨a, out, ha, bind_eq_ok.mpr ⟨out, hrecord, ?_⟩⟩
  rw [hchoice]
  rfl

/-! ### The decode phase -/

section Decode

open ContinuousBatcher

variable {W : Type} {halves : Paged.Halves W} {model : PagedModel} {st st' : PagedState W}
  {firstFit swapMode : Bool} {pool : Pool Entries}
  {run : BatcherRun (PagedMemory Entries) (SavedBlocks Entries)}
  {roomy : ContinuousBatcher (PagedMemory Entries) (SavedBlocks Entries)}
  {tokens : List Token} {dec' : BatchedDecoder (PagedMemory Entries)}

theorem serving_of_reaches
    (hreach : BatcherReaches (towerKernels gpu).device (fun _ _ => True)
      (.new cfg firstFit swapMode (PagedMemory.new pool)) run) :
    run.cb.dec.cfg = cfg ∧ ∃ kv, Serving (towerMemory gpu) 0 run.cb kv := by
  have hnew : (towerMemory gpu).Holds cfg (BlockState.new cfg firstFit) (PagedMemory.new pool)
      fun _ => SlotKv.empty := by
    refine ⟨by simp [heldHom, heldPool, PagedMemory.new], fun _ => ⟨?_, ?_⟩⟩
    · simp [SlotKv.empty]
    · simp [BlockState.new]
  have hran := ran_of_reaches (towerMemory gpu) (fun _ _ => True) (fun _ => trivial)
    (fun _ call _ => by cases call <;> simp [Call.Permits, ResumesAllowed]) hnew hreach
  exact ⟨hran.cfg_eq, hran.serving⟩

theorem decodeRows_inStep {cb : ContinuousBatcher (PagedMemory Entries) (SavedBlocks Entries)}
    {kv : ℕ → SlotKv} (hserving : Serving (towerMemory gpu) 0 cb kv) :
    InStep cb.dec.cfg (decodeRows cb.active) kv ∧
      ownPrefixes (decodeRows cb.active) kv = cb.active.map CbSeq.tokens := by
  have hfst : (cb.active.map (·, ([] : List Token))).map Prod.fst = cb.active := by
    simp [Function.comp_def]
  obtain ⟨hstep, hown, -, -, -⟩ := hserving.layout_inStep hfst
  rw [← decodeRows_eq] at hstep hown
  exact ⟨hstep, hown.trans (draftPrefixes_nil cb.active)⟩

theorem stepSlotted_pos {dec : BatchedDecoder (PagedMemory Entries)} {rows : List Row}
    (hok : dec.stepSlotted (towerKernels gpu).device rows = .ok (tokens, dec')) :
    ∀ row ∈ rows, row.pos < dec.cfg.maxSeq := by
  obtain ⟨u, -, hok⟩ := bind_eq_ok.mp hok
  obtain ⟨out, hforward, -⟩ := bind_eq_ok.mp hok
  unfold BatchedDecoder.forwardLogits at hforward
  obtain ⟨u', hinputs, -⟩ := bind_eq_ok.mp hforward
  exact writeInputs_eq_ok hinputs

/-- Every active sequence's next token, from a forward over all of them. -/
theorem stepSlotted_own {cb : ContinuousBatcher (PagedMemory Entries) (SavedBlocks Entries)}
    {kv : ℕ → SlotKv} (hserving : Serving (towerMemory gpu) 0 cb kv)
    (hfree : CollisionFree cb.dec.cfg cb.dec.mem.hashed)
    (hok : cb.dec.stepSlotted (towerKernels gpu).device (decodeRows cb.active) =
      .ok (tokens, dec')) :
    tokens = cb.active.map fun s => bargmax gpu.vocab (logitsOf gpu s.tokens) 0 := by
  obtain ⟨u, -, hok⟩ := bind_eq_ok.mp hok
  obtain ⟨⟨logits, dec₁⟩, hforward, hok⟩ := bind_eq_ok.mp hok
  simp only [pure_eq_ok, Prod.mk.injEq] at hok
  obtain ⟨rfl, rfl⟩ := hok
  obtain ⟨hstep, hown⟩ := decodeRows_inStep hserving
  have hlogits := forwardLogits_own hserving.represents hfree hstep hforward
  rw [hlogits, hown, List.map_map, List.map_map]
  rfl

/-- **Batched decoding is single-stream decoding.** In the decode phase of any step of any run, the
prefixes hashed so far not colliding: whatever the other streams are, wherever the blocks are and in
whatever order stores land, the token selected on the device for each active sequence is the one
that the single-stream lane chooses behind that sequence's own tokens. -/
theorem decode_single_stream (hmodel : Servable model.gpu) (hshaped : Shaped model.gpu)
    (hloaded : Loaded model.gpu) (hfits : ∀ launch ∈ forwardLaunches model.gpu, launch.Fits)
    (hmax : cfg.maxSeq ≤ model.gpu.maxSeq)
    (hreach : BatcherReaches (towerKernels model.gpu).device (fun _ _ => True)
      (.new cfg firstFit swapMode (PagedMemory.new pool)) run)
    (hroom : run.cb.makeRoom (towerKernels model.gpu).device = .ok roomy)
    (hfree : CollisionFree cfg roomy.dec.mem.hashed)
    (hvocab : ∀ s ∈ roomy.active, ∀ tok ∈ s.tokens, tok < model.gpu.vocab)
    (hhost : roomy.dec.stepSlotted (towerKernels model.gpu).device (decodeRows roomy.active) =
      .ok (tokens, dec'))
    (hmirrors : Mirrors halves model cfg st roomy.dec.mem)
    (hrun : ForwardLogits halves model cfg dec'.blocks (decodeRows roomy.active) st st') :
    List.Forall₂ (fun s tok => Chooses model.gpu s.tokens tok) roomy.active
      ((List.range roomy.active.length).map (bargmax model.gpu.vocab st'.logitsB)) := by
  obtain ⟨hcfg₀, kv₀, hserving₀⟩ := serving_of_reaches hreach
  have hevicts := makeRoom_spec hserving₀ hroom
  obtain ⟨kv, hserving⟩ := hevicts.serving
  obtain rfl : roomy.dec.cfg = cfg := hevicts.cfg_eq.trans hcfg₀
  obtain ⟨hstep, -⟩ := decodeRows_inStep hserving
  obtain ⟨-, hdevice⟩ := step_refines hmodel hserving.represents hstep hhost hmirrors hrun
  rw [decodeRows, List.length_map] at hdevice
  rw [hdevice, stepSlotted_own hserving hfree hhost, List.forall₂_map_right_iff]
  refine List.forall₂_same.mpr fun s hs => ?_
  have hheld := hserving.active s hs
  have hne : s.tokens ≠ [] := by
    rintro hnil
    have := hheld.produced
    simp [hnil] at this
  refine chooses_argmax hshaped hmodel.valid.headDim_even hloaded hfits hne (hvocab s hs) ?_
  have hpos : s.pos < roomy.dec.cfg.maxSeq := stepSlotted_pos hhost _ (List.mem_map_of_mem hs)
  rw [CbSeq.pos] at hpos
  omega

end Decode

/-! ### The prefill phase -/

section Prefill

open ContinuousBatcher

variable {W : Type} {halves : Paged.Halves W} {model : PagedModel} {st st' : PagedState W}
  {firstFit swapMode : Bool} {pool : Pool Entries}
  {run : BatcherRun (PagedMemory Entries) (SavedBlocks Entries)}
  {decoded roomy : ContinuousBatcher (PagedMemory Entries) (SavedBlocks Entries)}
  {events : List Event} {pf : PrefillingSeq} {fits : Bool} {front chunkEnd fuel : ℕ}
  {tokens : List Token} {dec' : BatchedDecoder (PagedMemory Entries)}

/-- The first token of a prompt, from a forward over its last chunk. -/
theorem lastChunk_own {cb : ContinuousBatcher (PagedMemory Entries) (SavedBlocks Entries)}
    {kv : ℕ → SlotKv} (hserving : Serving (towerMemory gpu) 0 cb kv) (hpf : pf ∈ cb.prefilling)
    (hfree : CollisionFree cb.dec.cfg cb.dec.mem.hashed)
    (hlast : Forward.stop cb.dec.cfg pf.prompt pf.prefillPos = pf.prompt.length)
    (hok : (Forward.chunk pf.prompt pf.slot pf.prefillPos none).host (towerKernels gpu).device
      cb.dec = .ok (tokens, dec')) :
    tokens = [bargmax gpu.vocab (logitsOf gpu pf.prompt) 0] ∧
      pf.prompt.length ≤ cb.dec.cfg.maxSeq := by
  have hheld := hserving.prefilling pf hpf
  have hslot := hserving.slot_lt_of_prefilling hpf
  obtain ⟨⟨⟨next, first⟩, dec₁⟩, hchunk, hok⟩ := bind_eq_ok.mp hok
  simp only [pure_eq_ok, Prod.mk.injEq] at hok
  obtain ⟨rfl, rfl⟩ := hok
  have hspec := prefillChunk_spec hserving.represents hslot hheld.fed hchunk
  obtain ⟨hrep, hframe, hnext, -, -, -⟩ := hspec
  obtain rfl : next = pf.prompt.length := hnext.trans hlast
  unfold BatchedDecoder.prefillChunk at hchunk
  rw [if_pos hheld.unfinished] at hchunk
  obtain ⟨⟨logits, dec₂⟩, hforward, hchunk⟩ := bind_eq_ok.mp hchunk
  simp only [pure_eq_ok, Prod.mk.injEq] at hchunk
  obtain ⟨⟨hstop, rfl⟩, rfl⟩ := hchunk
  rw [hstop] at hforward
  obtain ⟨hstep, -, hown, -⟩ :=
    chunkRows_inStep hslot hheld.fed hheld.unfinished (le_refl _)
  rw [List.take_length] at hown
  refine ⟨?_, ?_⟩
  · rw [forwardLogits_own hserving.represents hfree hstep hforward, List.getLast?_map, hown,
      if_pos hstop]
    rfl
  · have hle := hrep.resident.length_le pf.slot
    rwa [update_self, List.take_length, hframe.cfg_eq] at hle

/-- **Chunked prefill is single-stream prefill.** In the prefill phase of any step of any run, the
prefixes hashed so far not colliding: however much of a prompt was taken over from the cache, and
in however many chunks the rest was fed, with other streams decoded between them, the token
selected on the device behind the last chunk is the one that the single-stream lane chooses behind
the prompt. -/
theorem prefill_single_stream (hmodel : Servable model.gpu) (hshaped : Shaped model.gpu)
    (hloaded : Loaded model.gpu) (hfits : ∀ launch ∈ forwardLaunches model.gpu, launch.Fits)
    (hmax : cfg.maxSeq ≤ model.gpu.maxSeq)
    (hreach : BatcherReaches (towerKernels model.gpu).device (fun _ _ => True)
      (.new cfg firstFit swapMode (PagedMemory.new pool)) run)
    (hdecode : run.cb.decodeActive (towerKernels model.gpu).device = .ok (events, decoded))
    (hroom : makeChunkRoom (towerKernels model.gpu).device front chunkEnd fuel decoded =
      .ok (fits, roomy))
    (hpf : pf ∈ roomy.prefilling) (hfree : CollisionFree cfg roomy.dec.mem.hashed)
    (hvocab : ∀ tok ∈ pf.prompt, tok < model.gpu.vocab)
    (hlast : Forward.stop cfg pf.prompt pf.prefillPos = pf.prompt.length)
    (hhost : (Forward.chunk pf.prompt pf.slot pf.prefillPos none).host
      (towerKernels model.gpu).device roomy.dec = .ok (tokens, dec'))
    (hmirrors : Mirrors halves model cfg st roomy.dec.mem)
    (hrun : (Forward.chunk pf.prompt pf.slot pf.prefillPos none).Runs halves model cfg dec'.blocks
      st st') :
    Chooses model.gpu pf.prompt (bargmax model.gpu.vocab st'.logitsB 0) := by
  obtain ⟨hcfg₀, kv₀, hserving₀⟩ := serving_of_reaches hreach
  have hserves : Serves (towerMemory model.gpu) (fun _ _ => True) run.cb _ decoded :=
    decodeActive_spec hserving₀ (fun _ _ _ => trivial) hdecode
  obtain ⟨kv₁, hserving₁⟩ := hserves.serving
  have hevicts := makeChunkRoom_spec hserving₁ hroom
  obtain ⟨kv, hserving⟩ := hevicts.serving
  obtain rfl : roomy.dec.cfg = cfg := hevicts.cfg_eq.trans (hserves.cfg_eq.trans hcfg₀)
  have hheld := hserving.prefilling pf hpf
  obtain ⟨htokens, hlength⟩ := lastChunk_own hserving hpf hfree hlast hhost
  have hstep : InStep roomy.dec.cfg
      ((Forward.chunk pf.prompt pf.slot pf.prefillPos none).rows roomy.dec.cfg) kv := by
    rw [Forward.rows, hlast]
    exact (chunkRows_inStep (hserving.slot_lt_of_prefilling hpf) hheld.fed hheld.unfinished
      (le_refl _)).1
  obtain ⟨-, hdevice⟩ :=
    chunk_refines hmodel hserving.represents hstep hhost hmirrors hrun
  rw [htokens, Forward.select, if_pos hlast] at hdevice
  obtain hdevice : bargmax model.gpu.vocab st'.logitsB 0 = _ := (List.cons.inj hdevice).1
  rw [hdevice]
  have hne : pf.prompt ≠ [] := by
    rintro hnil
    have hunfinished := hheld.unfinished
    simp [hnil] at hunfinished
  exact chooses_argmax hshaped hmodel.valid.headDim_even hloaded hfits hne hvocab
    (hlength.trans hmax)

end Prefill

/-! ### The device's side of a run -/

section Device

variable {W : Type} {halves : Halves W} {model : PagedModel} {firstFit swapMode : Bool}

/-- Rows no wider than a cell of the device's pool. -/
def Narrow (gpu : GpuModel) (entries : Entries) : Prop :=
  ∀ l, cut (kvDim gpu) (entries l).1 = (entries l).1 ∧ cut (kvDim gpu) (entries l).2 = (entries l).2

/-- A device that holds these rows, and zeros in all other buffers. -/
noncomputable def deviceOf (halves : Halves W) (model : PagedModel) (cfg : PoolConfig)
    (mem : PagedMemory Entries) : PagedState W :=
  let rowAt := fun (l c : ℕ) => mem.pool (c / cfg.blockSize) (c % cfg.blockSize) l
  let word := fun (x : ℕ → ℝ) (j : ℕ) => halves.pack2x16float (x (2 * j), x (2 * j + 1))
  let width := kvDim model.gpu / 2
  { xB := 0, normedB := 0, qB := 0, kB := 0, vB := 0, attnB := 0, gateB := 0, upB := 0, hB := 0
    cosB := 0, sinB := 0, logitsB := 0, posBuf := 0, slotsBuf := 0, blockTableBuf := 0
    kPool := fun l w => word (rowAt l (w / width)).1 (w % width)
    vPool := fun l w => word (rowAt l (w / width)).2 (w % width) }

theorem cellRow_word (halves : Halves W) (model : PagedModel) (x : ℕ → ℕ → ℝ) (c : ℕ) :
    cellRow halves (kvDim model.gpu) (fun w => halves.pack2x16float
      (x (w / (kvDim model.gpu / 2)) (2 * (w % (kvDim model.gpu / 2))),
        x (w / (kvDim model.gpu / 2)) (2 * (w % (kvDim model.gpu / 2)) + 1))) c =
      cut (kvDim model.gpu) (x c) := by
  refine cut_congr fun e he => ?_
  have hpair : e / 2 < kvDim model.gpu / 2 := pair_lt (D := dispatch model tightPool 0) he
  rw [halves.unpack_pack, index_div hpair, index_mod hpair]
  exact Paged.half_pair (x c) e

theorem mirrors_deviceOf {mem : PagedMemory Entries}
    (hnarrow : ∀ b offset, Narrow model.gpu (mem.pool b offset)) :
    Mirrors halves model cfg (deviceOf halves model cfg mem) mem := by
  funext l ⟨b, offset⟩
  have hcell : poolStore cfg mem.pool l (b, offset) =
      mem.pool ((b * cfg.blockSize + offset) / cfg.blockSize)
        ((b * cfg.blockSize + offset) % cfg.blockSize) l := by
    rw [index_div offset.isLt, index_mod offset.isLt]
    rfl
  obtain ⟨hkeys, hvalues⟩ := hnarrow ((b * cfg.blockSize + offset) / cfg.blockSize)
    ((b * cfg.blockSize + offset) % cfg.blockSize) l
  rw [hcell]
  refine Prod.ext ?_ ?_
  · exact (cellRow_word halves model (fun c => (mem.pool (c / cfg.blockSize)
      (c % cfg.blockSize) l).1) _).trans hkeys
  · exact (cellRow_word halves model (fun c => (mem.pool (c / cfg.blockSize)
      (c % cfg.blockSize) l).2) _).trans hvalues

theorem narrow_forwardRow {blocks : BlockState} {pool : Pool Entries} {row : Row}
    (hnarrow : ∀ b offset, Narrow gpu (pool b offset)) :
    Narrow gpu ((towerKernels gpu).forwardRow cfg blocks pool row).1 := by
  intro l
  set held := fun l t => pool (tableBlock cfg blocks row.slot t) (t % cfg.blockSize) l
  have hpass (k : ℕ) : cut (kvDim gpu)
        ((tokenPass (tower gpu) row.pos (held, embedding gpu row.tok) k).1 l row.pos).1 =
          ((tokenPass (tower gpu) row.pos (held, embedding gpu row.tok) k).1 l row.pos).1 ∧
      cut (kvDim gpu)
        ((tokenPass (tower gpu) row.pos (held, embedding gpu row.tok) k).1 l row.pos).2 =
          ((tokenPass (tower gpu) row.pos (held, embedding gpu row.tok) k).1 l row.pos).2 := by
    induction k with
    | zero => exact hnarrow _ _ l
    | succ k ih =>
      rw [tokenPass, tokenLayer]
      by_cases hl : l = k
      · subst hl
        simp only [update_self]
        exact ⟨cut_cut _ _, cut_cut _ _⟩
      · simp only [update_of_ne hl]
        exact ih
  exact hpass gpu.layers.length

theorem narrow_writeBlocks {pool : Pool Entries} {phys : List ℕ} {rows : List (ℕ → Entries)}
    (hpool : ∀ b offset, Narrow gpu (pool b offset))
    (hrows : ∀ block ∈ rows, ∀ offset, Narrow gpu (block offset)) :
    ∀ b offset, Narrow gpu (writeBlocks pool phys rows b offset) := by
  induction phys generalizing pool rows with
  | nil => exact hpool
  | cons c phys ih =>
    cases rows with
    | nil => exact hpool
    | cons block rows =>
      obtain ⟨hblock, hrest⟩ := List.forall_mem_cons.mp hrows
      refine ih (fun b offset => ?_) hrest
      by_cases hb : b = c
      · rw [hb, update_self]
        exact hblock offset
      · rw [update_of_ne hb]
        exact hpool b offset

/-- No row of the pool gets wider than a cell. -/
def narrowMemory (gpu : GpuModel) : KvMemory (towerKernels gpu).device where
  Reads := fun _ _ => True
  Holds := fun _ _ mem _ => ∀ b offset, Narrow gpu (mem.pool b offset)
  Saved := fun _ host _ => ∀ block ∈ host.data.rows, ∀ offset, Narrow gpu (block offset)
  holds_truncate := fun hholds _ => hholds
  holds_extends := fun _ hholds _ _ => hholds
  holds_row := by
    intro cfg blocks mem kv row _ hholds _ _ _
    refine ⟨fun b offset => ?_, trivial⟩
    simp only [PagedKernels.device]
    by_cases hb : b = tableBlock cfg blocks row.slot row.pos
    · subst hb
      rw [update_self]
      by_cases hoffset : offset = row.pos % cfg.blockSize
      · rw [hoffset, update_self]
        exact narrow_forwardRow hholds
      · rw [update_of_ne hoffset]
        exact hholds _ _
    · rw [update_of_ne hb]
      exact hholds b offset
  holds_freeSlot := fun _ hholds => hholds
  holds_adopt := fun _ hholds _ _ _ _ => hholds
  holds_register := fun _ hholds _ _ _ => hholds
  saved_copyOut := by
    intro cfg blocks mem kv slot nPos _ hholds _
    exact List.forall_mem_map.mpr fun b _ => hholds b
  holds_copyIn := fun _ hholds hsaved _ _ _ _ => narrow_writeBlocks hholds hsaved

variable {pool : Pool Entries} {cb : ContinuousBatcher (PagedMemory Entries) (SavedBlocks Entries)}
  {run : BatcherRun (PagedMemory Entries) (SavedBlocks Entries)} {kv : ℕ → SlotKv}

theorem narrow_zero (b offset : ℕ) : Narrow gpu ((fun _ _ => 0 : Pool Entries) b offset) := by
  refine fun l => ⟨?_, ?_⟩ <;> exact funext fun _ => ite_self 0

theorem narrow_of_reaches (hpool : ∀ b offset, Narrow gpu (pool b offset))
    (hreach : BatcherReaches (towerKernels gpu).device (fun _ _ => True)
      (.new cfg firstFit swapMode (PagedMemory.new pool)) run) :
    run.cb.dec.cfg = cfg ∧ ∃ kv, Serving (narrowMemory gpu) 0 run.cb kv := by
  have hnew : (narrowMemory gpu).Holds cfg (BlockState.new cfg firstFit) (PagedMemory.new pool)
      fun _ => SlotKv.empty := hpool
  have hran := ran_of_reaches (narrowMemory gpu) (fun _ _ => True) (fun _ => trivial)
    (fun _ call _ => by cases call <;> simp [Call.Permits, ResumesAllowed]) hnew hreach
  exact ⟨hran.cfg_eq, hran.serving⟩

/-- In every state that a batcher over a narrow pool comes to, some device mirrors its memory. -/
theorem exists_mirrors (halves : Halves W) (model : PagedModel)
    (hserving : Serving (narrowMemory model.gpu) 0 cb kv) :
    ∃ st, Mirrors halves model cb.dec.cfg st cb.dec.mem :=
  ⟨_, mirrors_deviceOf hserving.represents.holds⟩

end Device

/-! ### On a small model -/

section Small

open ContinuousBatcher

theorem loaded_small : Loaded smallModel.gpu :=
  loaded_of_load (gpu_loads_uniform (d := smallDims) (by decide))

theorem forwardLaunches_small : ∀ launch ∈ forwardLaunches smallModel.gpu, launch.Fits :=
  forwardLaunches_fit smallModel.headDim_even (show 1 ≤ 3 by decide) prefillLaunches_small

theorem shaped_small : Shaped smallModel.gpu :=
  shaped_uniform (by decide) (by decide) (by decide) (by decide)

/-- A batcher whose pool holds zeros. -/
def zeroBatcher (cfg : PoolConfig) : BatcherRun (PagedMemory Entries) (SavedBlocks Entries) :=
  .new cfg true true (.new fun _ _ => 0)

/-- Two prompts of the small model, the second of which takes over the first block of the other. -/
structure SmallPair (g g' : Token) (first second : BatchedDecoder (PagedMemory Entries)) :
    Prop where
  admits : (zeroBatcher tightPool).cb.dec.prefillSlotCached (towerKernels smallModel.gpu).device
    [3, 0, 3] 0 none = .ok ((g, 0), first)
  fits : first.canFit 3 = true
  joins : first.prefillSlotCached (towerKernels smallModel.gpu).device [3, 0, 1] 1 none =
    .ok ((g', 2), second)
  cfg_eq : second.cfg = tightPool
  hashed_eq : second.mem.hashed = [[3, 0, 1], [3, 0, 1], [3, 0, 3], [3, 0, 3]]
  blocks : second.blocks.slotBlocks 0 = [0, 1] ∧ second.blocks.slotBlocks 1 = [0, 2]
  known : g < 4 ∧ g' < 4

theorem exists_smallPair : ∃ g g' first second, SmallPair g g' first second :=
  ⟨_, _, _, _, rfl, rfl, rfl, rfl, rfl, ⟨rfl, rfl⟩,
    argmax_lt (show 0 < smallModel.gpu.vocab by decide),
    argmax_lt (show 0 < smallModel.gpu.vocab by decide)⟩

/-- A request whose stop token is not the first token drawn. -/
def smallRequest (id : ℕ) (prompt : List Token) (g : Token) : Request :=
  { greedyRequest id prompt with eos := g + 1 }

def smallSeq (id slot : ℕ) (prompt : List Token) (g : Token) : CbSeq where
  id := id
  slot := slot
  tokens := prompt ++ [g]
  promptLen := prompt.length
  maxTokens := 3
  eos := g + 1
  params := .greedy
  baseSeed := 0

/-- A request that fits and whose prompt is prefilled joins the batch. -/
theorem exec_smallRequest (cb : ContinuousBatcher (PagedMemory Entries) (SavedBlocks Entries))
    (log : List LogEntry) (id : ℕ) (prompt : List Token) {slot c : ℕ} {free : List ℕ} {g : Token}
    {dec : BatchedDecoder (PagedMemory Entries)} (hfits : cb.dec.canFit prompt.length = true)
    (hfree : cb.free = slot :: free)
    (hprefill : cb.dec.prefillSlotCached (towerKernels smallModel.gpu).device prompt slot none =
      .ok ((g, c), dec)) :
    ∃ log', (⟨cb, log⟩ : BatcherRun _ _).exec (towerKernels smallModel.gpu).device
      (.admitParams (smallRequest id prompt g)) =
        .ok ⟨{ cb with dec, free, active := cb.active ++ [smallSeq id slot prompt g] }, log'⟩ := by
  have hgoes : (decide ((smallRequest id prompt g).maxTokens ≤ 1) ||
      g == (smallRequest id prompt g).eos) = false := by
    simp [smallRequest, greedyRequest]
  have hadmit : cb.admitParams (towerKernels smallModel.gpu).device (smallRequest id prompt g) =
      .ok (some (g, false),
        { cb with dec, free, active := cb.active ++ [smallSeq id slot prompt g] }) := by
    refine (if_pos hfits).trans ?_
    rw [hfree]
    refine bind_eq_ok.mpr ⟨((g, c), dec), hprefill, ?_⟩
    show (if (decide ((smallRequest id prompt g).maxTokens ≤ 1) ||
      g == (smallRequest id prompt g).eos) = true then _ else _) = _
    rw [hgoes]
    rfl
  exact ⟨_, bind_eq_ok.mpr ⟨_, hadmit, rfl⟩⟩

def pairBatcher (g g' : Token) (dec : BatchedDecoder (PagedMemory Entries)) :
    ContinuousBatcher (PagedMemory Entries) (SavedBlocks Entries) where
  dec := dec
  free := []
  active := [smallSeq 1 0 [3, 0, 3] g, smallSeq 2 1 [3, 0, 1] g']
  preempted := []
  prefilling := []
  preemptions := 0
  swapMode := true

theorem SmallPair.reaches {g g' : Token} {first second : BatchedDecoder (PagedMemory Entries)}
    (hpair : SmallPair g g' first second) :
    ∃ log, BatcherReaches (towerKernels smallModel.gpu).device (fun _ _ => True)
      (zeroBatcher tightPool) ⟨pairBatcher g g' second, log⟩ := by
  obtain ⟨log, hfirst⟩ := exec_smallRequest (zeroBatcher tightPool).cb (zeroBatcher tightPool).log
    1 [3, 0, 3] rfl rfl hpair.admits
  obtain ⟨log', hsecond⟩ := exec_smallRequest { (zeroBatcher tightPool).cb with
    dec := first, free := [1], active := [smallSeq 1 0 [3, 0, 3] g] } log 2 [3, 0, 1] hpair.fits rfl
    hpair.joins
  have hfresh : (Call.admitParams (smallRequest 1 [3, 0, 3] g)).Fresh
      (zeroBatcher tightPool).cb := by
    simp [Call.Fresh, ContinuousBatcher.ids, zeroBatcher, BatcherRun.new, ContinuousBatcher.new]
  have hfresh' : (Call.admitParams (smallRequest 2 [3, 0, 1] g')).Fresh
      { (zeroBatcher tightPool).cb with
        dec := first, free := [1], active := [smallSeq 1 0 [3, 0, 3] g] } := by
    simp [Call.Fresh, ContinuousBatcher.ids, zeroBatcher, BatcherRun.new, ContinuousBatcher.new,
      smallSeq, smallRequest, greedyRequest]
  exact ⟨log', (Relation.ReflTransGen.single ⟨_, hfresh, trivial, hfirst⟩).tail
    ⟨_, hfresh', trivial, hsecond⟩⟩

/-- The small model's next token in each of two streams that share a block. -/
theorem decode_single_stream_pair :
    ∃ (g g' : Token) (dec dec' : BatchedDecoder (PagedMemory Entries))
      (st st' : PagedState (ℝ × ℝ)),
      dec.blocks.slotBlocks 0 = [0, 1] ∧ dec.blocks.slotBlocks 1 = [0, 2] ∧
      Mirrors lossless smallModel tightPool st dec.mem ∧
      ForwardLogits lossless smallModel tightPool dec'.blocks
        (decodeRows (pairBatcher g g' dec).active) st st' ∧
      Chooses smallModel.gpu [3, 0, 3, g] (bargmax smallModel.gpu.vocab st'.logitsB 0) ∧
      Chooses smallModel.gpu [3, 0, 1, g'] (bargmax smallModel.gpu.vocab st'.logitsB 1) := by
  obtain ⟨g, g', first, dec, hpair⟩ := exists_smallPair
  obtain ⟨log, hreach⟩ := hpair.reaches
  obtain ⟨-, kv, hserving⟩ := narrow_of_reaches narrow_zero hreach
  obtain ⟨st, hmirrors⟩ := exists_mirrors lossless smallModel hserving
  rw [show (pairBatcher g g' dec).dec.cfg = tightPool from hpair.cfg_eq] at hmirrors
  obtain ⟨hown, hshared⟩ := hpair.blocks
  have hneeded : (pairBatcher g g' dec).needed = 0 := by
    simp [needed, pairBatcher, smallSeq, BatchedDecoder.blocksShort, BlockState.blocksShort, hown,
      hshared, hpair.cfg_eq, Nat.ceilDiv_eq_add_pred_div, tightPool]
  have hroom : (pairBatcher g g' dec).makeRoom (towerKernels smallModel.gpu).device =
      .ok (pairBatcher g g' dec) := by
    refine if_neg fun h => ?_
    rw [hneeded] at h
    exact Nat.not_lt_zero _ h.2
  have hpos : ∀ s ∈ (pairBatcher g g' dec).active,
      s.pos < (pairBatcher g g' dec).dec.cfg.maxSeq := by
    simp [pairBatcher, smallSeq, hpair.cfg_eq, CbSeq.pos, tightPool]
  obtain ⟨-, ⟨tokens, dec'⟩, hdecode⟩ | ⟨hshort, -⟩ :=
    decodeBatch_outcome hserving (List.cons_ne_nil _ _) hpos
  case inr =>
    rw [show _ = 0 from hneeded] at hshort
    exact absurd hshort (Nat.not_lt_zero _)
  have hhost : dec.stepSlotted (towerKernels smallModel.gpu).device
      (decodeRows (pairBatcher g g' dec).active) = .ok (tokens, dec') := hdecode
  obtain ⟨st', hruns⟩ := exists_runs lossless smallModel tightPool dec'.blocks
    (.step (decodeRows (pairBatcher g g' dec).active)) st
  have hfree : CollisionFree tightPool dec.mem.hashed := by
    rw [hpair.hashed_eq]
    decide
  have hvocab : ∀ s ∈ (pairBatcher g g' dec).active, ∀ tok ∈ s.tokens,
      tok < smallModel.gpu.vocab := by
    have hvocab : smallModel.gpu.vocab = 4 := rfl
    obtain ⟨hg, hg'⟩ := hpair.known
    simp [pairBatcher, smallSeq, hvocab, hg, hg']
  have hchosen := decode_single_stream servable_small shaped_small loaded_small
    forwardLaunches_small (by decide) hreach hroom hfree hvocab hhost hmirrors hruns
  obtain ⟨hfirst, hrest⟩ := List.forall₂_cons.mp hchosen
  exact ⟨g, g', dec, dec', st, st', hown, hshared, hmirrors, hruns, hfirst,
    (List.forall₂_cons.mp hrest).1⟩

/-- Two slots of 256 positions in blocks of 64. -/
def longPool : PoolConfig where
  mMax := 2
  maxSeq := 256
  blockSize := 64
  nBlocks := 8
  prefixBlockHash := tightPool.prefixBlockHash
  blockSize_pos := by decide
  holdsOneSequence := by decide

def longPrompt : List Token := List.replicate 200 3

/-- A prompt leaves its first block in the cache, a longer one takes it over and is fed a chunk. -/
def longCalls : List Call :=
  [.admitParams { greedyRequest 1 (List.replicate 65 3) with maxTokens := 1 },
    .enqueue (greedyRequest 2 longPrompt), .step]

/-- One block of the long prompt was taken over and its second chunk is next, nothing else is live,
and the chunk goes through. -/
def LastChunkNext (run : BatcherRun (PagedMemory Entries) (SavedBlocks Entries)) : Prop :=
  (run.cb.prefilling.map fun pf => (pf.prompt, pf.slot, pf.prefillPos, pf.cachedBlocks)) =
      [(longPrompt, 0, 192, 1)] ∧
    run.cb.active.isEmpty ∧ CollisionFree longPool run.cb.dec.mem.hashed ∧
    ¬ run.cb.dec.freeBlocks < run.cb.dec.blocksShort 0 200 ∧
    ((Forward.chunk longPrompt 0 192 none).host (towerKernels smallModel.gpu).device
      run.cb.dec).toOption.isSome

noncomputable instance (run : BatcherRun (PagedMemory Entries) (SavedBlocks Entries)) :
    Decidable (LastChunkNext run) :=
  inferInstanceAs (Decidable (_ ∧ _))

theorem reaches_lastChunk : ∃ run,
    BatcherReaches (towerKernels smallModel.gpu).device (fun _ _ => True) (zeroBatcher longPool)
        run ∧
      decide (LastChunkNext run) = true :=
  exists_reaches_of_execAll (fun run => decide (LastChunkNext run)) longCalls (by decide +kernel)

/-- The small model's first token behind a prompt that was taken over in part and fed in chunks. -/
theorem prefill_single_stream_long :
    ∃ (run : BatcherRun (PagedMemory Entries) (SavedBlocks Entries))
      (dec' : BatchedDecoder (PagedMemory Entries)) (st st' : PagedState (ℝ × ℝ)),
      LastChunkNext run ∧ Mirrors lossless smallModel longPool st run.cb.dec.mem ∧
      (Forward.chunk longPrompt 0 192 none).Runs lossless smallModel longPool dec'.blocks st st' ∧
      Chooses smallModel.gpu longPrompt (bargmax smallModel.gpu.vocab st'.logitsB 0) := by
  obtain ⟨run, hreach, hnext⟩ := reaches_lastChunk
  obtain ⟨hprompts, hactive, hfree, hroomy, hhost⟩ := of_decide_eq_true hnext
  obtain ⟨pf, hprefilling, hpf⟩ := List.map_eq_singleton_iff.mp hprompts
  obtain ⟨hprompt, hslot, hpos, -⟩ : pf.prompt = longPrompt ∧ pf.slot = 0 ∧ pf.prefillPos = 192 ∧
      pf.cachedBlocks = 1 := by simpa using hpf
  obtain ⟨hcfg, kv, hserving⟩ := narrow_of_reaches narrow_zero hreach
  obtain ⟨st, hmirrors⟩ := exists_mirrors lossless smallModel hserving
  rw [hcfg] at hmirrors
  have hdecode : run.cb.decodeActive (towerKernels smallModel.gpu).device = .ok ([], run.cb) :=
    if_pos hactive
  have hroom : makeChunkRoom (towerKernels smallModel.gpu).device 0 200 1 run.cb =
      .ok (true, run.cb) := if_neg hroomy
  obtain ⟨⟨tokens, dec'⟩, hchunk⟩ : ∃ out, (Forward.chunk longPrompt 0 192 none).host
      (towerKernels smallModel.gpu).device run.cb.dec = .ok out := by
    cases hout : (Forward.chunk longPrompt 0 192 none).host
        (towerKernels smallModel.gpu).device run.cb.dec with
    | error panic => simp [hout, Except.toOption] at hhost
    | ok out => exact ⟨out, rfl⟩
  obtain ⟨st', hruns⟩ := exists_runs lossless smallModel longPool dec'.blocks
    (.chunk longPrompt 0 192 none) st
  have hpf : pf ∈ run.cb.prefilling := by simp [hprefilling]
  have hvocab : ∀ tok ∈ longPrompt, tok < smallModel.gpu.vocab := by
    intro tok htok
    obtain rfl := List.eq_of_mem_replicate htok
    decide
  have hlast : Forward.stop longPool longPrompt 192 = longPrompt.length := by
    rw [Forward.stop, longPrompt, List.length_replicate]
    rfl
  rw [← hprompt] at hvocab hlast
  rw [← hpos] at hlast
  rw [← hprompt, ← hslot, ← hpos] at hchunk hruns
  have hchosen := prefill_single_stream servable_small shaped_small loaded_small
    forwardLaunches_small (by decide) hreach hdecode hroom hpf hfree hvocab hlast hchunk
    hmirrors hruns
  rw [hprompt] at hchosen
  rw [hprompt, hslot, hpos] at hruns
  exact ⟨run, dec', st, st', of_decide_eq_true hnext, hmirrors, hruns, hchosen⟩

end Small

end Zllm.Gpu.PagedForward

import Zllm.Gpu.ContextBound
import Zllm.Gpu.FullPool

/-!
# The overcommitted pool

`make_room` preempts active sequences only, and keeps the first of them. The blocks of prefilling
sequences stay where they are, so a step aborts exactly where the last survivor does not fit beside
them.
-/

namespace Zllm.Gpu

open Outcome ContinuousBatcher
open BlockState (held_subset blocksShort_congr)

variable {M B L : Type} {dev : Device M B L} {mem : KvMemory dev} {cb cb' roomy : ContinuousBatcher M B}
  {kv : Nat → SlotKv}

/-! ### The last survivor -/

/-- The first active sequence can grow beside the prefilling ones. -/
def SurvivorFits (cb : ContinuousBatcher M B) : Prop :=
  ∀ s ∈ cb.active.head?, cb.dec.blocksShort s.slot s.tokens.length +
    (cb.dec.blocks.held (s.slot :: cb.prefilling.map PrefillingSeq.slot)).card ≤ cb.dec.cfg.nBlocks

theorem SurvivorFits.of_room {s : CbSeq} (hmade : MadeRoom mem cb roomy)
    (hhead : roomy.active.head? = some s) (hfirst : cb.active.head? = some s)
    (henough : roomy.needed ≤ roomy.dec.freeBlocks) : SurvivorFits cb := by
  intro first hmem
  obtain rfl : s = first := by simpa [hfirst] using hmem
  obtain ⟨kv', h'⟩ := hmade.serving
  obtain ⟨rest, hactive⟩ := List.head?_eq_some_iff.mp hhead
  have howner : s.slot ∈ roomy.owners := by simp [owners, hactive]
  have hshort : cb.dec.blocksShort s.slot s.tokens.length ≤ roomy.needed := by
    have hsame : roomy.dec.blocksShort s.slot s.tokens.length =
        cb.dec.blocksShort s.slot s.tokens.length := by
      unfold BatchedDecoder.blocksShort
      rw [hmade.vacates.cfg_eq]
      exact blocksShort_congr (hmade.vacates.slotBlocks_eq _ howner)
    rw [← hsame, needed, hactive, List.map_cons, List.sum_cons]
    exact Nat.le_add_right _ _
  have hheld : cb.dec.blocks.held (s.slot :: cb.prefilling.map PrefillingSeq.slot) ⊆
      roomy.dec.blocks.held roomy.owners := by
    have hsub : s.slot :: cb.prefilling.map PrefillingSeq.slot ⊆ roomy.owners := by
      rw [List.cons_subset, ← hmade.prefilling_eq]
      exact ⟨howner, List.subset_append_right _ _⟩
    exact held_subset hsub fun slot hslot => (hmade.vacates.slotBlocks_eq slot (hsub hslot)).symm
  have hcard := Finset.card_le_card hheld
  have hfree := h'.freeBlocks_add_card
  rw [hmade.vacates.cfg_eq] at hfree
  omega

/-- A single survivor that fits beside the prefilling sequences finds its blocks free. -/
theorem SurvivorFits.enough {s : CbSeq} (hfits : SurvivorFits cb) (hmade : MadeRoom mem cb roomy)
    (hone : roomy.active = [s]) : roomy.needed ≤ roomy.dec.freeBlocks := by
  obtain ⟨kv', h'⟩ := hmade.serving
  have hinitial := hmade.vacates.active_initial
  have hfirst : cb.active.head? = some s := by
    obtain ⟨rest, hrest⟩ := hinitial
    rw [← hrest, hone]
    rfl
  have hbeside := hfits s hfirst
  have howners : roomy.owners = s.slot :: cb.prefilling.map PrefillingSeq.slot := by
    rw [owners, hone, hmade.prefilling_eq]
    rfl
  have hsame : roomy.dec.blocksShort s.slot s.tokens.length =
      cb.dec.blocksShort s.slot s.tokens.length := by
    unfold BatchedDecoder.blocksShort
    rw [hmade.vacates.cfg_eq]
    exact blocksShort_congr (hmade.vacates.slotBlocks_eq _ (by simp [howners]))
  have hcard : (roomy.dec.blocks.held roomy.owners).card ≤
      (cb.dec.blocks.held (s.slot :: cb.prefilling.map PrefillingSeq.slot)).card := by
    refine Finset.card_le_card (held_subset (by rw [howners]; exact List.Subset.refl _) ?_)
    exact hmade.vacates.slotBlocks_eq
  have hfree := h'.freeBlocks_add_card
  rw [hmade.vacates.cfg_eq] at hfree
  rw [needed, hone, List.map_singleton, List.sum_singleton, hsame]
  omega

/-- The decode phase aborts on the pool exactly where the last survivor does not fit. -/
theorem decodeActive_avoids_iff (h : Serving mem 0 cb kv)
    (hpos : ∀ s ∈ cb.active, s.pos < cb.dec.cfg.maxSeq) :
    Avoids .poolExhausted (cb.decodeActive dev) ↔ SurvivorFits cb := by
  by_cases hnil : cb.active = []
  · rw [decodeActive, if_pos (by simpa using hnil)]
    simp [SurvivorFits, hnil, avoids_ok]
  · obtain ⟨roomy, hroom, hmade⟩ := makeRoom_exits h
    obtain ⟨s, rest, hactive⟩ := List.exists_cons_of_ne_nil (hmade.survivor hnil)
    have hfirst : cb.active.head? = some s := by
      obtain ⟨evicted, hevicted⟩ := hmade.vacates.active_initial
      rw [← hevicted, hactive]
      rfl
    obtain ⟨hle, out, hok⟩ | ⟨hlt, hfails⟩ := decodeActive_outcome hnil hpos hroom hmade
    · rw [hok]
      exact iff_of_true (avoids_ok _ _) (.of_room hmade (by rw [hactive]; rfl) hfirst hle)
    · rw [hfails]
      refine iff_of_false (fun havoids => havoids rfl) fun hfits => ?_
      have hone : roomy.active.length ≤ 1 := hmade.enough.resolve_right (by omega)
      rw [hactive, List.length_cons] at hone
      obtain rfl := List.length_eq_zero_iff.mp (by omega : rest.length = 0)
      have := hfits.enough hmade hactive
      omega

/-! ### A step -/

theorem advancePrefill_succeeds (h : Serving mem 0 cb kv)
    (hprompts : ∀ pf ∈ cb.prefilling, pf.prompt.length ≤ cb.dec.cfg.maxSeq) :
    ∃ out, cb.advancePrefill dev = .ok out := by
  cases hfront : cb.prefilling with
  | nil => simp [advancePrefill, hfront]
  | cons front tail =>
      obtain ⟨roomy, rest, events, cb', -, -, -, hok, -⟩ :=
        advancePrefill_outcome h hfront (hprompts front (by simp [hfront]))
      exact ⟨_, hok⟩

section

variable {cfg : PoolConfig} {firstFit swapMode : Bool} {memory : M} {run run' : BatcherRun M B}
  {Admits : ContinuousBatcher M B → Call → Prop} {events : List Event}

/-- The decode phase leaves only prompts that fit the context. -/
theorem Served.decoded {cb' : ContinuousBatcher M B} (hserved : Served cfg run dev)
    (hok : run.cb.decodeActive dev = .ok (events, cb')) :
    ∃ kv, Serving (KvMemory.vacuous dev) 0 cb' kv ∧
      ∀ pf ∈ cb'.prefilling, pf.prompt.length ≤ cb'.dec.cfg.maxSeq := by
  obtain ⟨kv, h⟩ := hserved.serving
  have hserves : Serves (KvMemory.vacuous dev) (fun _ _ => True) run.cb _ cb' :=
    decodeActive_spec h (fun _ _ _ => trivial) hok
  obtain ⟨kv', h'⟩ := hserves.serving
  refine ⟨kv', h', fun pf hpf => ?_⟩
  rw [hserves.cfg_eq]
  exact hserved.prompt_le (h.prefilling_decodeActive hok ▸ hpf)

/-- **Overcommitment.** In every state that a run reaches with its positions below `max_seq`, the
next step exhausts the pool exactly where the first active sequence does not fit beside the
prefilling ones. -/
theorem pool_exhausted_iff
    (hreach : BatcherReaches dev Admits (.new cfg firstFit swapMode memory) run)
    (hpos : ∀ s ∈ run.cb.active, s.pos < run.cb.dec.cfg.maxSeq) :
    Avoids .poolExhausted (run.cb.step dev) ↔ SurvivorFits run.cb := by
  have hserved := served_of_reaches hreach
  obtain ⟨kv, h⟩ := hserved.serving
  rw [← decodeActive_avoids_iff h hpos]
  constructor
  · intro hstep hexhausted
    refine hstep ?_
    rw [ContinuousBatcher.step, hexhausted]
    rfl
  · intro hdecode
    refine avoids_bind hdecode fun out hok => ?_
    obtain ⟨events, decoded⟩ := out
    obtain ⟨kv₁, h₁, hprompts⟩ := hserved.decoded hok
    obtain ⟨⟨prefilled, cb₂⟩, hprefill⟩ := advancePrefill_succeeds h₁ hprompts
    have hserves : Serves (KvMemory.vacuous dev) (fun _ _ => True) decoded _ cb₂ :=
      advancePrefill_spec h₁ (fun _ _ => trivial) hprefill
    obtain ⟨kv₂, h₂⟩ := hserves.serving
    refine avoids_bind (by rw [hprefill]; exact avoids_ok _ _) fun out' hout => ?_
    obtain rfl : (prefilled, cb₂) = out' := by simpa [hprefill] using hout
    exact avoids_bind (avoids_reschedule_exhausted _ _ h₂) fun _ _ => avoids_pure _ _

end

/-! ### A survivor that does not fit -/

/-- Two slots of 32 positions over the two blocks that one of them can fill. -/
def overcommittedPool : PoolConfig where
  mMax := 2
  maxSeq := 32
  blockSize := defaultBlockSize
  nBlocks := 2
  prefixBlockHash := tightPool.prefixBlockHash
  blockSize_pos := defaultBlockSize_pos
  holdsOneSequence := by decide

/-- The second request is active in one block when the third, which waits to be prefilled, holds the
block the first one left cached. -/
def overcommittedCalls : List Call :=
  [.enqueue { greedyRequest 1 (List.replicate 17 5) with maxTokens := 1 }, .step,
    .enqueue (greedyRequest 2 (List.replicate 16 6)), .enqueue (greedyRequest 3 (List.replicate 17 5)),
    .step]

theorem pool_exhausted_iff_overcommitted :
    ∃ run : BatcherRun History (List Token),
      (run.cb.active.map CbSeq.pos, run.cb.dec.freeBlocks) = ([16], 0) ∧
        (Avoids .poolExhausted (run.cb.step lengthModel.device) ↔ SurvivorFits run.cb) := by
  obtain ⟨run, hreach, hview⟩ : ∃ run, BatcherReaches lengthModel.device
      (FitsContext lengthModel.device) (.new overcommittedPool false false fun _ => []) run ∧
        (run.cb.active.map CbSeq.pos, run.cb.dec.freeBlocks, run.cb.dec.cfg.maxSeq) = ([16], 0, 32) :=
    exists_reaches_of_execAll
      (fun run => (run.cb.active.map CbSeq.pos, run.cb.dec.freeBlocks, run.cb.dec.cfg.maxSeq))
      overcommittedCalls rfl
  simp only [Prod.mk.injEq] at hview
  obtain ⟨hpositions, hfree, hmax⟩ := hview
  refine ⟨run, by rw [hpositions, hfree], pool_exhausted_iff hreach fun s hs => ?_⟩
  have hmem := List.mem_map_of_mem (f := CbSeq.pos) hs
  rw [hpositions, List.mem_singleton] at hmem
  rw [hmem, hmax]
  decide

/-- A pool that holds one full sequence is exhausted although every request fits the context. -/
theorem overcommitted_pool_exhausts :
    ¬∀ (cfg : PoolConfig) (mMax maxSeq nBlocks : Nat) (firstFit swapMode : Bool)
        (run : BatcherRun History (List Token)),
      PoolConfig.withPool cfg.prefixBlockHash mMax maxSeq nBlocks = .ok cfg →
      BatcherReaches lengthModel.device (FitsContext lengthModel.device)
        (.new cfg firstFit swapMode fun _ => []) run →
      Avoids .poolExhausted (run.cb.step lengthModel.device) := by
  intro hnever
  obtain ⟨run, hreach, hfails⟩ : ∃ run, BatcherReaches lengthModel.device
      (FitsContext lengthModel.device) (.new overcommittedPool false false fun _ => []) run ∧
        (run.cb.step lengthModel.device).map (fun _ => ()) = .error .poolExhausted :=
    exists_reaches_of_execAll (fun run => (run.cb.step lengthModel.device).map fun _ => ())
      overcommittedCalls rfl
  have havoids := hnever overcommittedPool 2 32 2 false false run rfl hreach
  cases hstep : run.cb.step lengthModel.device with
  | error panic =>
      rw [hstep] at hfails havoids
      exact havoids (by simpa [Except.map] using hfails)
  | ok out => simp [hstep, Except.map] at hfails

end Zllm.Gpu

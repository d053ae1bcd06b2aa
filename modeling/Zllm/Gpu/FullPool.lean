import Zllm.Gpu.BatcherRun
import Zllm.Gpu.OwnPrefix
import Zllm.Gpu.PhaseOutcome

/-!
# The full pool

Over a pool with room for every slot at `max_seq`, no sequence is ever preempted and no call for
blocks ever fails: a slot's list is at most one sequence long, sharing only lowers the count, and
cached blocks that nothing references are free.
-/

namespace Zllm.Gpu

open Outcome ContinuousBatcher
open BlockState (Ledger shortfall shortfall_le_freeBlocks ensureBlocks_eq_true)

variable {M B L : Type} {dev : Device M B L} {mem : KvMemory dev} {cb cb' : ContinuousBatcher M B}
  {kv : Nat → SlotKv} {cfg : PoolConfig} {events : List Event}

/-! ### Nothing is short -/

/-- The pool has room for every slot at full length. -/
def PoolConfig.Full (cfg : PoolConfig) : Prop := cfg.mMax * cfg.maxBlocksPerSeq ≤ cfg.nBlocks

theorem full_of_new {hash : UInt64 → List Token → UInt64} {mMax maxSeq : Nat}
    (hnew : PoolConfig.new hash mMax maxSeq = .ok cfg) : cfg.Full := by
  unfold PoolConfig.new PoolConfig.newPaged at hnew
  split at hnew
  case isFalse => cases hnew
  case isTrue =>
    obtain rfl := by simpa using hnew
    exact le_rfl

theorem Serving.blocksShort_le_of_full {slot n : Nat} (h : Serving mem 0 cb kv)
    (hfull : cb.dec.cfg.Full) (hslot : slot < cb.dec.cfg.mMax) (hn : n ≤ cb.dec.cfg.maxSeq) :
    cb.dec.blocksShort slot n ≤ cb.dec.freeBlocks := by
  have hshort : cb.dec.blocks.shortfall cb.dec.cfg [(slot, n)] ≤ cb.dec.freeBlocks :=
    shortfall_le_freeBlocks hfull h.represents.resident.ledger (by simpa using hslot)
      (by simpa using hn) (by simp)
  simp only [shortfall, List.map_cons, List.map_nil, List.sum_singleton] at hshort
  exact hshort

theorem Serving.needed_le_of_full (h : Serving mem 0 cb kv) (hfull : cb.dec.cfg.Full)
    (hpos : ∀ s ∈ cb.active, s.pos < cb.dec.cfg.maxSeq) : cb.needed ≤ cb.dec.freeBlocks := by
  rw [h.needed_eq]
  refine shortfall_le_freeBlocks hfull h.represents.resident.ledger ?_ ?_ ?_
  · intro need hneed
    simp only [rowNeeds, decodeRows, List.map_map, List.mem_map, Function.comp_def] at hneed
    obtain ⟨s, hs, rfl⟩ := hneed
    exact h.slot_lt_of_active hs
  · intro need hneed
    simp only [rowNeeds, decodeRows, List.map_map, List.mem_map, Function.comp_def] at hneed
    obtain ⟨s, hs, rfl⟩ := hneed
    exact hpos s hs
  · rw [rowNeeds, decodeRows, List.map_map, List.map_map]
    exact h.nodup_slots

theorem Serving.makeRoom_of_full (h : Serving mem 0 cb kv) (hfull : cb.dec.cfg.Full)
    (hpos : ∀ s ∈ cb.active, s.pos < cb.dec.cfg.maxSeq) : cb.makeRoom dev = .ok cb :=
  makeRoomLoop_eq_self (h.needed_le_of_full hfull hpos)

theorem Serving.makeChunkRoom_of_full {front : PrefillingSeq} {rest : List PrefillingSeq}
    {chunkEnd : Nat} (h : Serving mem 0 cb kv) (hfull : cb.dec.cfg.Full)
    (hfront : cb.prefilling = front :: rest) (hend : chunkEnd ≤ cb.dec.cfg.maxSeq) :
    makeChunkRoom dev front.slot chunkEnd (cb.active.length + cb.prefilling.length) cb =
      .ok (true, cb) := by
  have hslot := h.slot_lt_of_prefilling (by rw [hfront]; exact List.mem_cons_self)
  have hfuel : cb.active.length + cb.prefilling.length =
      cb.active.length + rest.length + 1 := by rw [hfront, List.length_cons, Nat.add_assoc]
  rw [hfuel]
  exact makeChunkRoom_eq_self (h.blocksShort_le_of_full hfull hslot hend)

theorem Serving.canFit_of_full {n : Nat} (h : Serving mem 0 cb kv) (hfull : cb.dec.cfg.Full)
    (hfree : cb.free ≠ []) (hn : n ≤ cb.dec.cfg.maxSeq) : cb.dec.canFit n = true := by
  obtain ⟨slot, free, hfree⟩ := List.exists_cons_of_ne_nil hfree
  have hshort := h.blocksShort_le_of_full hfull (h.takeFree hfree).slot_lt hn
  have hempty := (h.idle slot (by simp [hfree])).1
  simp only [BatchedDecoder.blocksShort, BlockState.blocksShort, hempty, List.length_nil,
    Nat.sub_zero] at hshort
  exact decide_eq_true hshort

/-! ### A step over the full pool -/

/-- Nothing waits in `preempted`, and nothing ever did. -/
def Unpreempted (cb : ContinuousBatcher M B) : Prop := cb.preempted = [] ∧ cb.preemptions = 0

theorem Serving.decodeActive_of_full (h : Serving mem 0 cb kv) (hfull : cb.dec.cfg.Full)
    (hpos : ∀ s ∈ cb.active, s.pos < cb.dec.cfg.maxSeq) :
    ∃ events cb', cb.decodeActive dev = .ok (events, cb') ∧ cb'.prefilling = cb.prefilling ∧
      (Unpreempted cb → Unpreempted cb') := by
  by_cases hnil : cb.active = []
  · rw [decodeActive, if_pos (by simpa using hnil)]
    exact ⟨_, _, rfl, rfl, id⟩
  · have hroom := h.makeRoom_of_full hfull hpos
    have hmade : MadeRoom mem cb cb :=
      ⟨⟨kv, h⟩, vacates_refl, rfl, id, Or.inr (h.needed_le_of_full hfull hpos)⟩
    obtain ⟨-, ⟨events, cb'⟩, hok⟩ | ⟨hlt, -⟩ := decodeActive_outcome hnil hpos hroom hmade
    · obtain ⟨hempty, -⟩ | ⟨roomy, -, hroomy, hprefilling, hpreempted, hcount⟩ :=
        decodeActive_frame hok
      · exact absurd hempty hnil
      · obtain rfl : cb = roomy := by simpa [hroom] using hroomy
        refine ⟨events, cb', hok, hprefilling, fun hunpreempted => ⟨?_, ?_⟩⟩
        · rw [hpreempted, hunpreempted.1]
        · rw [hcount, hunpreempted.2]
    · have := h.needed_le_of_full hfull hpos
      omega

theorem Serving.advancePrefill_of_full (h : Serving mem 0 cb kv) (hfull : cb.dec.cfg.Full)
    (hprompts : ∀ pf ∈ cb.prefilling, pf.prompt.length ≤ cb.dec.cfg.maxSeq) :
    ∃ events cb', cb.advancePrefill dev = .ok (events, cb') ∧ (Unpreempted cb → Unpreempted cb') := by
  cases hfront : cb.prefilling with
  | nil =>
      simp only [advancePrefill, hfront]
      exact ⟨_, _, rfl, id⟩
  | cons front tail =>
      have hlen := hprompts front (by simp [hfront])
      have hpromptLen := (h.prefilling front (by simp [hfront])).promptLen_eq
      obtain ⟨roomy, rest, events, cb', hroom, -, -, hok, -, hpreempted, hcount⟩ :=
        advancePrefill_outcome h hfront hlen
      rw [h.makeChunkRoom_of_full hfull hfront (by omega)] at hroom
      obtain rfl : cb = roomy := by simpa using hroom
      refine ⟨events, cb', hok, fun hunpreempted => ⟨?_, ?_⟩⟩
      · rw [hpreempted, hunpreempted.1]
      · rw [hcount, hunpreempted.2]

theorem reschedule_of_nil (hnil : cb.preempted = []) : cb.reschedule dev = .ok ([], cb) := by
  simp [reschedule, hnil, rescheduleLoop]

/-- The prompts of the prefilling sequences fit the context. -/
theorem Served.prompt_le {run : BatcherRun M B} (hserved : Served cfg run dev) {pf : PrefillingSeq}
    (hpf : pf ∈ run.cb.prefilling) : pf.prompt.length ≤ run.cb.dec.cfg.maxSeq := by
  obtain ⟨kv, h⟩ := hserved.serving
  have hjob : pf.job ∈ run.cb.board := by
    simp only [ContinuousBatcher.board, Multiset.mem_add, Multiset.mem_coe]
    exact Or.inl (Or.inr (List.mem_map_of_mem hpf))
  have hsized := (hserved.sized _ hjob).prompt_le
  rwa [(h.prefilling pf hpf).history_eq.1, ← hserved.cfg_eq] at hsized

theorem Served.step_of_full {run : BatcherRun M B} (hserved : Served cfg run dev)
    (hfull : run.cb.dec.cfg.Full) (hpos : ∀ s ∈ run.cb.active, s.pos < run.cb.dec.cfg.maxSeq)
    (hunpreempted : Unpreempted run.cb) :
    ∃ events cb', run.cb.step dev = .ok (events, cb') ∧ Unpreempted cb' := by
  obtain ⟨kv, h⟩ := hserved.serving
  obtain ⟨decoded, cb₁, hdecode, hprefilling, hkeeps₁⟩ := h.decodeActive_of_full hfull hpos
  have hserves : Serves (KvMemory.vacuous dev) (fun _ _ => True) run.cb _ cb₁ :=
    decodeActive_spec h (fun _ _ _ => trivial) hdecode
  obtain ⟨kv₁, h₁⟩ := hserves.serving
  obtain ⟨prefilled, cb₂, hprefill, hkeeps₂⟩ := h₁.advancePrefill_of_full
    (hserves.cfg_eq ▸ hfull) fun pf hpf => by
      rw [hserves.cfg_eq]
      exact hserved.prompt_le (hprefilling ▸ hpf)
  have hlast := hkeeps₂ (hkeeps₁ hunpreempted)
  refine ⟨decoded ++ prefilled ++ [], cb₂, ?_, hlast⟩
  unfold ContinuousBatcher.step
  simp only [bind, Except.bind, hdecode, hprefill, reschedule_of_nil hlast.1]
  rfl

/-! ### Runs over the full pool -/

/-- Requests are enqueued and cancelled, and stepped while every position is below `max_seq`. -/
def StaysBelow (cb : ContinuousBatcher M B) : Call → Prop
  | .enqueue _ => True
  | .cancel _ => True
  | .step => ∀ s ∈ cb.active, s.pos < cb.dec.cfg.maxSeq
  | .admitParams _ => False
  | .stepPld _ _ => False

theorem unpreempted_enqueueParams (req : Request) (h : Unpreempted cb) :
    Unpreempted (cb.enqueueParams dev req).2 := by
  unfold enqueueParams
  split
  · exact h
  · split
    · exact h
    · split <;> exact h

theorem unpreempted_cancel (id : Nat) (h : Unpreempted cb) : Unpreempted (cb.cancel id).2 := by
  unfold cancel
  split
  · exact h
  · split
    · exact h
    · split
      · simpa [Unpreempted, h.1] using h.2
      · exact h

section

variable {hash : UInt64 → List Token → UInt64} {mMax maxSeq : Nat} {firstFit swapMode : Bool}
  {memory : M} {run : BatcherRun M B}

theorem unpreempted_of_reaches (hfull : cfg.Full)
    (hreach : BatcherReaches dev StaysBelow (.new cfg firstFit swapMode memory) run) :
    Unpreempted run.cb := by
  induction hreach with
  | refl => exact ⟨rfl, rfl⟩
  | @tail run run' hrun hstep ih =>
      have hserved := served_of_reaches hrun
      obtain ⟨call, -, hbelow, hok⟩ := hstep
      cases call with
      | enqueue req =>
          obtain rfl := by simpa [BatcherRun.exec] using hok
          exact unpreempted_enqueueParams req ih
      | cancel id =>
          obtain rfl := by simpa [BatcherRun.exec] using hok
          exact unpreempted_cancel id ih
      | step =>
          obtain ⟨events, cb', hstep, hunpreempted⟩ :=
            hserved.step_of_full (by rwa [hserved.cfg_eq]) hbelow ih
          rw [BatcherRun.exec, hstep] at hok
          obtain rfl := by simpa [bind, Except.bind] using hok
          exact hunpreempted
      | admitParams => exact hbelow.elim
      | stepPld => exact hbelow.elim

/-- No call for blocks fails and nothing is preempted, while positions stay below `max_seq`. -/
structure NeverShort (dev : Device M B L) (cb : ContinuousBatcher M B) : Prop where
  unpreempted : Unpreempted cb
  makeRoom : (∀ s ∈ cb.active, s.pos < cb.dec.cfg.maxSeq) → cb.makeRoom dev = .ok cb
  makeChunkRoom : (∀ s ∈ cb.active, s.pos < cb.dec.cfg.maxSeq) →
    ∀ events decoded front rest, cb.decodeActive dev = .ok (events, decoded) →
      decoded.prefilling = front :: rest →
      makeChunkRoom dev front.slot
        (min (front.prefillPos + decoded.dec.cfg.rowCap) front.promptLen)
        (decoded.active.length + decoded.prefilling.length) decoded = .ok (true, decoded)
  canFit : cb.free ≠ [] → ∀ n ≤ cb.dec.cfg.maxSeq, cb.dec.canFit n = true
  ensureBlocks : ∀ slot < cb.dec.cfg.mMax, ∀ n ≤ cb.dec.cfg.maxSeq,
    (cb.dec.blocks.ensureBlocks cb.dec.cfg slot n).1 = true
  step : (∀ s ∈ cb.active, s.pos < cb.dec.cfg.maxSeq) → ∃ out, cb.step dev = .ok out

/-- **A full pool never preempts.** -/
theorem full_pool_never_short (hnew : PoolConfig.new hash mMax maxSeq = .ok cfg)
    (hreach : BatcherReaches dev StaysBelow (.new cfg firstFit swapMode memory) run) :
    NeverShort dev run.cb := by
  have hserved := served_of_reaches hreach
  have hunpreempted := unpreempted_of_reaches (full_of_new hnew) hreach
  have hfull : run.cb.dec.cfg.Full := by
    rw [hserved.cfg_eq]
    exact full_of_new hnew
  obtain ⟨kv, h⟩ := hserved.serving
  refine ⟨hunpreempted, h.makeRoom_of_full hfull, ?_, ?_, ?_, ?_⟩
  · intro hpos events decoded front rest hdecode hfront
    have hserves : Serves (KvMemory.vacuous dev) (fun _ _ => True) run.cb _ decoded :=
      decodeActive_spec h (fun _ _ _ => trivial) hdecode
    obtain ⟨kv', h'⟩ := hserves.serving
    obtain ⟨events', decoded', hdecode', hprefilling, -⟩ := h.decodeActive_of_full hfull hpos
    obtain ⟨rfl, rfl⟩ : events' = events ∧ decoded' = decoded := by simpa [hdecode'] using hdecode
    refine h'.makeChunkRoom_of_full (hserves.cfg_eq ▸ hfull) hfront ?_
    have hmem : front ∈ run.cb.prefilling := by simp [← hprefilling, hfront]
    have hlen := hserved.prompt_le hmem
    have hpromptLen := (h'.prefilling front (by simp [hfront])).promptLen_eq
    rw [hserves.cfg_eq]
    omega
  · exact fun hfree n hn => h.canFit_of_full hfull hfree hn
  · intro slot hslot n hn
    rw [ensureBlocks_eq_true h.represents.resident.ledger hslot hn]
    exact h.blocksShort_le_of_full hfull hslot hn
  · intro hpos
    obtain ⟨events, cb', hstep, -⟩ := hserved.step_of_full hfull hpos hunpreempted
    exact ⟨_, hstep⟩

end

/-- The full pool of two slots of 32 positions. -/
def fullPool : PoolConfig where
  mMax := 2
  maxSeq := 32
  blockSize := defaultBlockSize
  nBlocks := 4
  prefixBlockHash := tightPool.prefixBlockHash
  blockSize_pos := defaultBlockSize_pos
  holdsOneSequence := by decide

theorem fullPool_eq_new : PoolConfig.new fullPool.prefixBlockHash 2 32 = .ok fullPool := rfl

instance (cb : ContinuousBatcher M B) : (call : Call) → Decidable (StaysBelow cb call)
  | .enqueue _ => inferInstanceAs (Decidable True)
  | .admitParams _ => inferInstanceAs (Decidable False)
  | .cancel _ => inferInstanceAs (Decidable True)
  | .step => inferInstanceAs (Decidable (∀ s ∈ cb.active, s.pos < cb.dec.cfg.maxSeq))
  | .stepPld _ _ => inferInstanceAs (Decidable False)

/-- Two requests with one prompt, the second of which is served from the first one's cached block.
-/
theorem full_pool_never_short_shared :
    ∃ run : BatcherRun History (List Token),
      (run.cb.active.length = 2 ∧ run.cb.dec.blocks.hits = 1) ∧
        NeverShort lengthModel.device run.cb := by
  obtain ⟨run, hreach, hview⟩ : ∃ run,
      BatcherReaches lengthModel.device StaysBelow (.new fullPool false false fun _ => []) run ∧
        (run.cb.active.length, run.cb.dec.blocks.hits) = (2, 1) :=
    exists_reaches_of_execAll (fun run => (run.cb.active.length, run.cb.dec.blocks.hits))
      [.enqueue (greedyRequest 1 (List.replicate 17 5)), .step,
        .enqueue (greedyRequest 2 (List.replicate 17 5)), .step] rfl
  exact ⟨run, Prod.mk.inj hview, full_pool_never_short fullPool_eq_new hreach⟩

end Zllm.Gpu

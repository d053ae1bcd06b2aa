import Zllm.Gpu.BlockTransfer
import Mathlib.Logic.Relation

/-!
# Block conservation

Whatever order the pool's methods are called in, on whatever slots and prompts, every physical block
is free, referenced or cached, and exactly one of the three.
-/

namespace Zllm.Gpu

open Function (update update_of_ne update_self)
open BlockState

/-- The pool, with the prompt each slot is prefilling: `prefill_register` is called once for a
prefill, with the prompt and the block count of the `prefill_prefix_reuse` that began it. -/
structure PoolRun where
  blocks : BlockState
  prefilling : Nat → Option (List Token × Nat)

def PoolRun.new (cfg : PoolConfig) (firstFit : Bool) : PoolRun where
  blocks := BlockState.new cfg firstFit
  prefilling := fun _ => none

/-- One call on the pool. Slots are indices of `slot_blocks`, and positions stay below `max_seq`:
`write_inputs` asserts it before each `ensure_blocks`, and no saved or reused prefix is longer. -/
inductive PoolStep (cfg : PoolConfig) (run : PoolRun) : PoolRun → Prop where
  | ensureBlocks (slot nPositions : Nat) (hslot : slot < cfg.mMax)
      (hpositions : nPositions ≤ cfg.maxSeq) :
      PoolStep cfg run { run with blocks := (run.blocks.ensureBlocks cfg slot nPositions).2 }
  | prefillPrefixReuse (prompt : List Token) (slot cachedLen cachedBlocks : Nat)
      (blocks : BlockState) (hslot : slot < cfg.mMax) (hempty : run.blocks.slotBlocks slot = [])
      (hprompt : prompt ≠ []) (hlen : prompt.length ≤ cfg.maxSeq)
      (hreuse : run.blocks.prefillPrefixReuse cfg prompt slot =
        ((cachedLen, cachedBlocks), blocks)) :
      PoolStep cfg run
        { blocks, prefilling := update run.prefilling slot (some (prompt, cachedBlocks)) }
  | prefillRegister (prompt : List Token) (slot cachedBlocks : Nat) (blocks : BlockState)
      (hslot : slot < cfg.mMax)
      (hprefilling : run.prefilling slot = some (prompt, cachedBlocks))
      (hregister : run.blocks.prefillRegister cfg prompt slot cachedBlocks = .ok blocks) :
      PoolStep cfg run { blocks, prefilling := update run.prefilling slot none }
  | freeSlot (slot : Nat) (hslot : slot < cfg.mMax) :
      PoolStep cfg run
        { blocks := run.blocks.freeSlot slot, prefilling := update run.prefilling slot none }
  | swapOut (slot nPositions : Nat) (saved : List Nat) (blocks : BlockState)
      (hslot : slot < cfg.mMax)
      (hswap : run.blocks.swapOut cfg slot nPositions = .ok (saved, blocks)) :
      PoolStep cfg run { blocks, prefilling := update run.prefilling slot none }
  | swapIn (slot nPositions nb : Nat) (restored : Option (List Nat)) (blocks : BlockState)
      (hslot : slot < cfg.mMax) (hpositions : nPositions ≤ cfg.maxSeq)
      (hswap : run.blocks.swapIn cfg slot nPositions nb = .ok (restored, blocks)) :
      PoolStep cfg run { run with blocks }

/-- The ledger balances, and a slot in prefill has registered none of its own blocks yet. -/
structure PoolRun.Inv (cfg : PoolConfig) (run : PoolRun) : Prop where
  ledger : Ledger cfg [] run.blocks
  unregistered : ∀ slot prompt cached, run.prefilling slot = some (prompt, cached) →
    ∀ i b, cached ≤ i → (run.blocks.slotBlocks slot)[i]? = some b → run.blocks.blockHash b = none

theorem PoolRun.inv_new (cfg : PoolConfig) (firstFit : Bool) :
    (PoolRun.new cfg firstFit).Inv cfg :=
  ⟨ledger_new firstFit, by simp [PoolRun.new]⟩

variable {cfg : PoolConfig} {run run' : PoolRun} {slot : Nat}

/-- Growing a slot keeps the blocks of every prefill unregistered. -/
theorem PoolRun.Inv.of_extends {blocks : BlockState} (hinv : run.Inv cfg)
    (hledger : Ledger cfg [] blocks) (hext : Extends slot run.blocks blocks) :
    PoolRun.Inv cfg { run with blocks } := by
  refine ⟨hledger, fun other prompt cached hprefill i b hi hb => ?_⟩
  have hevict : run.blocks.blockHash b = none → blocks.blockHash b = none := fun hnone => by
    cases hhash : blocks.blockHash b with
    | none => rfl
    | some h => exact absurd (hext.evicts b h hhash) (by simp [hnone])
  by_cases heq : other = slot
  · subst heq
    obtain ⟨new, hnew, hfresh⟩ := hext.fresh
    simp only [hnew] at hb
    rw [List.getElem?_append] at hb
    split at hb
    · exact hevict (hinv.unregistered other prompt cached hprefill i b hi hb)
    · exact hfresh b (List.mem_of_getElem? hb)
  · simp only [hext.others other heq] at hb
    exact hevict (hinv.unregistered other prompt cached hprefill i b hi hb)

theorem PoolRun.Inv.freeSlot (hinv : run.Inv cfg) (hslot : slot < cfg.mMax) :
    PoolRun.Inv cfg
      { blocks := run.blocks.freeSlot slot, prefilling := update run.prefilling slot none } := by
  refine ⟨ledger_freeSlot hinv.ledger hslot, fun other prompt cached hprefill i b hi hb => ?_⟩
  by_cases heq : other = slot
  · simp [heq] at hprefill
  · simp only [update_of_ne heq, slotBlocks_freeSlot] at hprefill hb
    simpa using hinv.unregistered other prompt cached hprefill i b hi hb

theorem PoolStep.inv (hstep : PoolStep cfg run run') (hinv : run.Inv cfg) : run'.Inv cfg := by
  cases hstep with
  | ensureBlocks slot nPositions hslot hpositions =>
      obtain ⟨hledger, hext⟩ := ensureBlocks_ledger hinv.ledger hslot hpositions
      exact hinv.of_extends hledger hext
  | prefillPrefixReuse prompt slot cachedLen cachedBlocks blocks hslot hempty _ hlen hreuse =>
      obtain ⟨cached, blocks', hrun, hledger, -, hreuses⟩ :=
        prefillPrefixReuse_ledger prompt hinv.ledger hslot hempty hlen
      rw [hrun] at hreuse
      obtain ⟨⟨rfl, rfl⟩, rfl⟩ := by simpa using hreuse
      refine ⟨hledger, fun other prompt' cached' hprefill i b hi hb => ?_⟩
      rw [hreuses.blockHash_eq]
      by_cases heq : other = slot
      · subst heq
        obtain ⟨new, hnew, hcount, -⟩ := hreuses.reused
        obtain ⟨rfl, rfl⟩ : prompt = prompt' ∧ cached = cached' := by simpa using hprefill
        obtain ⟨hlt, -⟩ := List.getElem?_eq_some_iff.mp hb
        simp only [hnew, hempty, List.nil_append, hcount] at hlt
        omega
      · simp only [update_of_ne heq, hreuses.others other heq] at hprefill hb
        exact hinv.unregistered other prompt' cached' hprefill i b hi hb
  | prefillRegister prompt slot cachedBlocks blocks hslot hprefilling hregister =>
      have hunhashed := hinv.unregistered slot prompt cachedBlocks hprefilling
      obtain ⟨hledger, hregs⟩ := prefillRegister_ledger hinv.ledger hunhashed hregister
      refine ⟨hledger, fun other prompt' cached' hprefill i b hi hb => ?_⟩
      by_cases heq : other = slot
      · simp [heq] at hprefill
      · simp only [update_of_ne heq, hregs.slotBlocks_eq] at hprefill hb
        have hnone := hinv.unregistered other prompt' cached' hprefill i b hi hb
        cases hhash : blocks.blockHash b with
        | none => rfl
        | some h =>
            -- the blocks just entered are the registering slot's own
            obtain hold | ⟨j, -, -, hj, -⟩ := hregs.entered b h hhash
            · rw [hnone] at hold
              cases hold
            · exact absurd (unhashed_place_unique hinv.ledger hnone hb hj).1 heq
  | freeSlot slot hslot => exact hinv.freeSlot hslot
  | swapOut slot nPositions saved blocks hslot hswap =>
      rw [swapOut_eq hswap]
      exact hinv.freeSlot hslot
  | swapIn slot nPositions nb restored blocks hslot hpositions hswap =>
      obtain ⟨hledger, hext⟩ := ensureBlocks_ledger hinv.ledger hslot hpositions
      rw [swapIn_eq hswap]
      exact hinv.of_extends hledger hext

theorem PoolRun.inv_of_reachable {firstFit : Bool}
    (hreach : Relation.ReflTransGen (PoolStep cfg) (PoolRun.new cfg firstFit) run) :
    run.Inv cfg := by
  induction hreach with
  | refl => exact PoolRun.inv_new cfg firstFit
  | tail _ hstep ih => exact hstep.inv ih

/-! ### The three classes -/

namespace BlockState

variable {blocks : BlockState} {loose : List Nat}

def OnFreeStack (blocks : BlockState) (b : Nat) : Prop :=
  blocks.free.count b = 1 ∧ blocks.refcount b = 0 ∧ blocks.blockHash b = none

def Referenced (cfg : PoolConfig) (blocks : BlockState) (b : Nat) : Prop :=
  0 < blocks.refcount b ∧ blocks.refcount b = blocks.occurrences cfg b ∧ b ∉ blocks.free

def CachedReclaimable (blocks : BlockState) (b : Nat) : Prop :=
  blocks.refcount b = 0 ∧ blocks.blockHash b ≠ none ∧ b ∉ blocks.free

/-- `k` further calls of `alloc`, each of which must return a block. -/
def allocs (cfg : PoolConfig) : Nat → BlockState → Option BlockState
  | 0, blocks => some blocks
  | k + 1, blocks =>
      match blocks.alloc cfg with
      | some (_, blocks) => allocs cfg k blocks
      | none => none

theorem isSome_allocs (k : Nat) (hledger : Ledger cfg loose blocks) :
    (blocks.allocs cfg k).isSome ↔ k ≤ blocks.freeBlocks cfg := by
  induction k generalizing blocks loose with
  | zero => simp [allocs]
  | succ k ih =>
      unfold allocs
      cases halloc : blocks.alloc cfg with
      | none => simp [alloc_eq_none.mp halloc]
      | some taken =>
          have hcount := freeBlocks_alloc hledger halloc
          simp only
          rw [ih (ledger_alloc hledger halloc)]
          omega

structure Conserved (cfg : PoolConfig) (blocks : BlockState) : Prop where
  physical : ∀ b, b ∈ blocks.free ∨ (∃ slot, b ∈ blocks.slotBlocks slot) ∨
    blocks.blockHash b ≠ none → b < cfg.nBlocks
  oneClass : ∀ b < cfg.nBlocks,
    (blocks.OnFreeStack b ∧ ¬blocks.Referenced cfg b ∧ ¬blocks.CachedReclaimable b) ∨
    (¬blocks.OnFreeStack b ∧ blocks.Referenced cfg b ∧ ¬blocks.CachedReclaimable b) ∨
    (¬blocks.OnFreeStack b ∧ ¬blocks.Referenced cfg b ∧ blocks.CachedReclaimable b)
  inverse : ∀ h b, blocks.cacheMap h = some b ↔ blocks.blockHash b = some h
  table : ∀ slot < cfg.mMax, ∀ lb b, (blocks.slotBlocks slot)[lb]? = some b →
    lb < cfg.maxBlocksPerSeq ∧ blocks.tableHost (slot * cfg.maxBlocksPerSeq + lb) = b
  allocatable : ∀ k, (blocks.allocs cfg k).isSome ↔ k ≤ blocks.freeBlocks cfg

theorem oneClass_of_ledger {b : Nat} (hledger : Ledger cfg [] blocks) (hlt : b < cfg.nBlocks) :
    (blocks.OnFreeStack b ∧ ¬blocks.Referenced cfg b ∧ ¬blocks.CachedReclaimable b) ∨
    (¬blocks.OnFreeStack b ∧ blocks.Referenced cfg b ∧ ¬blocks.CachedReclaimable b) ∨
    (¬blocks.OnFreeStack b ∧ ¬blocks.Referenced cfg b ∧ blocks.CachedReclaimable b) := by
  have hcounted : blocks.refcount b = blocks.occurrences cfg b := by
    simpa using hledger.counted b
  unfold OnFreeStack Referenced CachedReclaimable
  by_cases hmem : b ∈ blocks.free
  · obtain ⟨-, hzero, hhash⟩ := hledger.freeIdle b hmem
    refine Or.inl ⟨⟨List.count_eq_one_of_mem hledger.freeNodup hmem, hzero, hhash⟩, ?_, ?_⟩
    · exact fun h => h.2.2 hmem
    · exact fun h => h.2.2 hmem
  · have hcount : blocks.free.count b ≠ 1 := by simp [List.count_eq_zero.mpr hmem]
    by_cases hzero : blocks.refcount b = 0
    · refine Or.inr (Or.inr ⟨fun h => hcount h.1, by omega, hzero, fun hhash => ?_, hmem⟩)
      exact hmem (hledger.accounted b hlt hzero hhash)
    · exact Or.inr (Or.inl ⟨fun h => hcount h.1, ⟨by omega, hcounted, hmem⟩, fun h => hzero h.1⟩)

theorem conserved_of_ledger (hledger : Ledger cfg [] blocks) : Conserved cfg blocks where
  physical := by
    rintro b (hfree | ⟨slot, hslot⟩ | hhash)
    · exact (hledger.freeIdle b hfree).1
    · exact hledger.bounded b (Or.inl (refcount_ne_zero_of_mem hledger hslot))
    · exact hledger.bounded b (Or.inr hhash)
  oneClass := fun b hlt => oneClass_of_ledger hledger hlt
  inverse := hledger.inverse
  table := by
    intro slot _ lb b hb
    have hcap := hledger.capacity slot
    obtain ⟨hlt, -⟩ := List.getElem?_eq_some_iff.mp hb
    exact ⟨by omega, hledger.table slot lb b hb⟩
  allocatable := fun k => isSome_allocs k hledger

end BlockState

/-- **Block conservation.** Every state the pool reaches keeps each block in exactly one class, its
two hash maps inverse and its table in step with the slots, and `free_blocks` counts the further
allocations it can serve. -/
theorem blocks_conserved {firstFit : Bool}
    (hreach : Relation.ReflTransGen (PoolStep cfg) (PoolRun.new cfg firstFit) run) :
    Conserved cfg run.blocks :=
  conserved_of_ledger (PoolRun.inv_of_reachable hreach).ledger

/-- A pool of two blocks of one position each, hashing a block to its first token. -/
def tinyPool : PoolConfig where
  mMax := 1
  maxSeq := 2
  blockSize := 1
  nBlocks := 2
  prefixBlockHash := fun prev tokens => prev * 31 + UInt64.ofNat (tokens.headD 0) + 1
  blockSize_pos := by decide
  holdsOneSequence := by decide

/-- Two slots over four blocks of one position each. -/
def pairPool : PoolConfig where
  mMax := 2
  maxSeq := 2
  blockSize := 1
  nBlocks := 4
  prefixBlockHash := fun prev tokens => prev * 31 + UInt64.ofNat (tokens.headD 0) + 1
  blockSize_pos := by decide
  holdsOneSequence := by decide

/-- A prompt of two blocks is prefilled, registered and freed, and two more prompts then share its
first block: its second one stays in the cache. -/
theorem blocks_conserved_pairPool : ∃ run,
    Relation.ReflTransGen (PoolStep pairPool) (.new pairPool false) run ∧
      run.blocks.refcount 0 = 2 ∧ run.blocks.CachedReclaimable 1 ∧ run.blocks.OnFreeStack 2 ∧
      run.blocks.freeBlocks pairPool = 3 ∧ Conserved pairPool run.blocks := by
  have hreach : Relation.ReflTransGen (PoolStep pairPool) (.new pairPool false) _ :=
    (((((Relation.ReflTransGen.single
      (.prefillPrefixReuse [5, 6] 0 0 0 _ (by decide) rfl (by decide) (by decide) rfl)).tail
      (.ensureBlocks 0 2 (by decide) (by decide))).tail
      (.prefillRegister [5, 6] 0 0 _ (by decide) rfl rfl)).tail
      (.freeSlot 0 (by decide))).tail
      (.prefillPrefixReuse [5, 7] 0 1 1 _ (by decide) rfl (by decide) (by decide) rfl)).tail
      (.prefillPrefixReuse [5, 8] 1 1 1 _ (by decide) rfl (by decide) (by decide) rfl)
  refine ⟨_, hreach, ?shared, ?cached, ?free, ?count, blocks_conserved hreach⟩
  case shared => rfl
  case cached => exact ⟨rfl, by decide, by decide⟩
  case free => exact ⟨by decide, rfl, rfl⟩
  case count => decide

end Zllm.Gpu

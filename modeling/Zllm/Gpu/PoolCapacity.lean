import Zllm.Gpu.DecoderContract

/-!
# What the pool can supply

A block is free unless a slot holds it, so whether the pool can meet a demand is a matter of
counting the blocks the slots hold. A paging prologue fails exactly where its rows are short of more
blocks than are free.
-/

namespace Zllm.Gpu.BlockState

open Function (update update_of_ne update_self)
open Outcome

variable {cfg : PoolConfig} {blocks blocks' : BlockState} {loose slots : List Nat} {slot : Nat}

/-! ### Counting the held blocks -/

/-- The physical blocks that `slots` hold. -/
def held (blocks : BlockState) (slots : List Nat) : Finset Nat :=
  (slots.flatMap blocks.slotBlocks).toFinset

@[simp]
theorem mem_held {b : Nat} : b ∈ blocks.held slots ↔ ∃ slot ∈ slots, b ∈ blocks.slotBlocks slot := by
  simp [held]

theorem held_subset {slots' : List Nat} (hsub : slots ⊆ slots')
    (hsame : ∀ slot ∈ slots, blocks.slotBlocks slot = blocks'.slotBlocks slot) :
    blocks.held slots ⊆ blocks'.held slots' := by
  intro b hb
  rw [mem_held] at hb ⊢
  obtain ⟨slot, hslot, hmem⟩ := hb
  exact ⟨slot, hsub hslot, hsame slot hslot ▸ hmem⟩

theorem card_held_le (blocks : BlockState) (slots : List Nat) :
    (blocks.held slots).card ≤ (slots.map fun slot => (blocks.slotBlocks slot).length).sum := by
  refine (List.toFinset_card_le _).trans ?_
  rw [List.length_flatMap]

/-- The free stack holds every block that is neither referenced nor registered. -/
theorem length_free (hledger : Ledger cfg loose blocks) :
    blocks.free.length =
      (List.range cfg.nBlocks).countP fun b =>
        blocks.refcount b == 0 && (blocks.blockHash b).isNone := by
  rw [List.countP_eq_length_filter]
  refine List.Perm.length_eq ?_
  rw [List.perm_ext_iff_of_nodup hledger.freeNodup (List.nodup_range.filter _)]
  intro b
  simp only [List.mem_filter, List.mem_range, Bool.and_eq_true, beq_iff_eq,
    Option.isNone_iff_eq_none]
  constructor
  · exact fun hb => hledger.freeIdle b hb
  · exact fun ⟨hlt, hzero, hhash⟩ => hledger.accounted b hlt hzero hhash

/-- The free blocks are the unreferenced ones. -/
theorem freeBlocks_eq_countP (hledger : Ledger cfg loose blocks) :
    blocks.freeBlocks cfg = (List.range cfg.nBlocks).countP (blocks.refcount · == 0) := by
  have hsplit := List.countP_eq_countP_filter_add (List.range cfg.nBlocks)
    (blocks.refcount · == 0) fun b => (blocks.blockHash b).isNone
  rw [List.countP_filter, List.countP_filter] at hsplit
  rw [hsplit, freeBlocks, length_free hledger]
  congr 1
  refine List.countP_congr fun b _ => ?_
  simp [reclaimable, ← Option.not_isSome]

/-- Every block is free or held. -/
theorem freeBlocks_add_card_held (hledger : Ledger cfg [] blocks)
    (hslots : ∀ slot, blocks.slotBlocks slot ≠ [] → slot ∈ slots) :
    blocks.freeBlocks cfg + (blocks.held slots).card = cfg.nBlocks := by
  have hheld : blocks.held slots =
      ((List.range cfg.nBlocks).filter fun b => !(blocks.refcount b == 0)).toFinset := by
    ext b
    simp only [mem_held, List.mem_toFinset, List.mem_filter, List.mem_range, Bool.not_eq_true',
      beq_eq_false_iff_ne]
    constructor
    · rintro ⟨slot, -, hmem⟩
      have href := refcount_ne_zero_of_mem hledger hmem
      exact ⟨hledger.bounded b (Or.inl href), href⟩
    · rintro ⟨-, href⟩
      have hcount : blocks.occurrences cfg b ≠ 0 := by
        simpa [hledger.counted b] using href
      obtain ⟨slot, -, hslot⟩ := Finset.exists_ne_zero_of_sum_ne_zero hcount
      have hmem := List.count_pos_iff.mp (Nat.pos_of_ne_zero hslot)
      exact ⟨slot, hslots slot (List.ne_nil_of_mem hmem), hmem⟩
  rw [hheld, List.toFinset_card_of_nodup (List.nodup_range.filter _), freeBlocks_eq_countP hledger,
    ← List.countP_eq_length_filter]
  have hsplit := List.length_eq_countP_add_countP (blocks.refcount · == 0)
    (l := List.range cfg.nBlocks)
  have hnot : (List.range cfg.nBlocks).countP (fun b => !(blocks.refcount b == 0)) =
      (List.range cfg.nBlocks).countP fun b => decide ¬(blocks.refcount b == 0) = true :=
    List.countP_congr fun b _ => by simp
  rw [hnot, ← hsplit, List.length_range]

theorem slot_mem_range (hledger : Ledger cfg loose blocks) (hne : blocks.slotBlocks slot ≠ []) :
    slot ∈ List.range cfg.mMax := by
  rw [List.mem_range]
  by_contra hslot
  exact hne (hledger.idleSlots slot (by omega))

theorem freeBlocks_add_card_held_range (hledger : Ledger cfg [] blocks) :
    blocks.freeBlocks cfg + (blocks.held (List.range cfg.mMax)).card = cfg.nBlocks :=
  freeBlocks_add_card_held hledger fun _ => slot_mem_range hledger

/-! ### Growing a slot -/

section Grow

variable {n m : Nat}

theorem freeBlocks_growSlot (hslot : slot < cfg.mMax) :
    ∀ (count lb : Nat) (blocks : BlockState), Ledger cfg [] blocks →
      (blocks.slotBlocks slot).length = lb → lb + count ≤ cfg.maxBlocksPerSeq →
      (blocks.growSlot cfg slot count lb).1 = true →
      (blocks.growSlot cfg slot count lb).2.freeBlocks cfg + count = blocks.freeBlocks cfg
  | 0, lb, blocks, _, _, _, _ => rfl
  | count + 1, lb, blocks, hledger, hlb, hcap, hgrown => by
      simp only [growSlot] at hgrown ⊢
      cases halloc : blocks.alloc cfg with
      | none => simp [halloc] at hgrown
      | some taken =>
          obtain ⟨phys, allocated⟩ := taken
          have hslots : (allocated.slotBlocks slot).length = lb := by
            obtain ⟨rest, -, rfl⟩ | ⟨hash, -, -, -, -, rfl⟩ := alloc_cases halloc <;> exact hlb
          have hpushed := ledger_pushBlock (ledger_alloc hledger halloc) hslot hslots (by omega)
          have hcount := freeBlocks_alloc hledger halloc
          simp only [halloc] at hgrown
          have hrest := freeBlocks_growSlot hslot count (lb + 1) _ hpushed
            (by simp [pushBlock, hslots]) (by omega) hgrown
          rw [freeBlocks_pushBlock] at hrest
          simp only
          omega

theorem freeBlocks_ensureBlocks (hledger : Ledger cfg [] blocks) (hslot : slot < cfg.mMax)
    (hn : n ≤ cfg.maxSeq) (hgrown : (blocks.ensureBlocks cfg slot n).1 = true) :
    (blocks.ensureBlocks cfg slot n).2.freeBlocks cfg + blocks.blocksShort cfg slot n =
      blocks.freeBlocks cfg := by
  have hcap := hledger.capacity slot
  have hneed := PoolConfig.ceilDiv_le_maxBlocksPerSeq hn
  exact freeBlocks_growSlot hslot _ _ blocks hledger rfl (by omega) hgrown

theorem length_ensureBlocks (hgrown : (blocks.ensureBlocks cfg slot n).1 = true) :
    ((blocks.ensureBlocks cfg slot n).2.slotBlocks slot).length =
      (blocks.slotBlocks slot).length + blocks.blocksShort cfg slot n :=
  growSlot_length _ _ blocks rfl hgrown

theorem blocksShort_congr (hsame : blocks'.slotBlocks slot = blocks.slotBlocks slot) :
    blocks'.blocksShort cfg slot n = blocks.blocksShort cfg slot n := by
  rw [blocksShort, blocksShort, hsame]

/-- What a slot is short of for `m` positions counts toward the `n` positions it grows to next. -/
theorem blocksShort_ensureBlocks (hle : m ≤ n)
    (hgrown : (blocks.ensureBlocks cfg slot m).1 = true) :
    (blocks.ensureBlocks cfg slot m).2.blocksShort cfg slot n + blocks.blocksShort cfg slot m =
      blocks.blocksShort cfg slot n := by
  have hlength := length_ensureBlocks hgrown
  have hceil : m ⌈/⌉ cfg.blockSize ≤ n ⌈/⌉ cfg.blockSize := by
    rw [ceilDiv_le_iff_le_mul cfg.blockSize_pos]
    exact hle.trans (le_smul_ceilDiv cfg.blockSize_pos)
  simp only [blocksShort] at hlength ⊢
  omega

theorem physPos_ensureBlocks {pos : Nat}
    (hgrown : (blocks.ensureBlocks cfg slot (pos + 1)).1 = true) :
    ∃ phys, (blocks.ensureBlocks cfg slot (pos + 1)).2.physPos cfg slot pos = .ok phys := by
  have hlength := ensureBlocks_length hgrown
  have hlt : pos / cfg.blockSize <
      ((blocks.ensureBlocks cfg slot (pos + 1)).2.slotBlocks slot).length := by
    rw [ceilDiv_le_iff_le_mul cfg.blockSize_pos] at hlength
    rw [Nat.div_lt_iff_lt_mul cfg.blockSize_pos, Nat.mul_comm]
    omega
  rw [physPos, List.getElem?_eq_getElem hlt]
  exact ⟨_, rfl⟩

/-- Reusing cached blocks takes at most as many blocks from the free ones as the slot gains. -/
theorem freeBlocks_reuses {prompt : List Token} {cached : Nat} (hledger : Ledger cfg [] blocks)
    (hledger' : Ledger cfg [] blocks')
    (hreuse : Reuses cfg prompt slot 0 cached blocks blocks') :
    blocks.freeBlocks cfg ≤ blocks'.freeBlocks cfg + (blocks'.slotBlocks slot).length := by
  have hheld : blocks'.held (List.range cfg.mMax) ⊆
      blocks.held (List.range cfg.mMax) ∪ (blocks'.slotBlocks slot).toFinset := by
    intro b hb
    obtain ⟨other, hother, hmem⟩ := mem_held.mp hb
    rw [Finset.mem_union, mem_held, List.mem_toFinset]
    by_cases heq : other = slot
    · exact Or.inr (heq ▸ hmem)
    · exact Or.inl ⟨other, hother, hreuse.others other heq ▸ hmem⟩
  have hcard := (Finset.card_le_card hheld).trans (Finset.card_union_le _ _)
  have hnewCard := (blocks'.slotBlocks slot).toFinset_card_le
  have hfree := freeBlocks_add_card_held_range hledger
  have hfree' := freeBlocks_add_card_held_range hledger'
  omega

end Grow

/-! ### The full pool -/

/-- What the slots named by `needs` are short of, each for its number of positions. -/
def shortfall (cfg : PoolConfig) (blocks : BlockState) (needs : List (Nat × Nat)) : Nat :=
  (needs.map fun need => blocks.blocksShort cfg need.1 need.2).sum

/-- A pool with room for every slot at full length is never short, however much of it is cached or
shared. -/
theorem shortfall_le_freeBlocks {needs : List (Nat × Nat)}
    (hfull : cfg.mMax * cfg.maxBlocksPerSeq ≤ cfg.nBlocks) (hledger : Ledger cfg [] blocks)
    (hslots : ∀ need ∈ needs, need.1 < cfg.mMax) (hmax : ∀ need ∈ needs, need.2 ≤ cfg.maxSeq)
    (hnodup : (needs.map Prod.fst).Nodup) :
    blocks.shortfall cfg needs ≤ blocks.freeBlocks cfg := by
  let room : Nat → Nat := fun slot => cfg.maxBlocksPerSeq - (blocks.slotBlocks slot).length
  have hshort : blocks.shortfall cfg needs ≤ ((needs.map Prod.fst).map room).sum := by
    rw [shortfall, List.map_map]
    refine List.sum_le_sum fun need hneed => ?_
    have := PoolConfig.ceilDiv_le_maxBlocksPerSeq (hmax need hneed)
    exact Nat.sub_le_sub_right this _
  have hroom : ((needs.map Prod.fst).map room).sum ≤ ∑ slot ∈ Finset.range cfg.mMax, room slot := by
    rw [← List.sum_toFinset room hnodup]
    refine Finset.sum_le_sum_of_subset fun slot hslot => ?_
    obtain ⟨need, hneed, rfl⟩ := List.mem_map.mp (List.mem_toFinset.mp hslot)
    exact Finset.mem_range.mpr (hslots need hneed)
  have hlengths : (∑ slot ∈ Finset.range cfg.mMax, room slot) +
      (∑ slot ∈ Finset.range cfg.mMax, (blocks.slotBlocks slot).length) =
        cfg.mMax * cfg.maxBlocksPerSeq := by
    rw [← Finset.sum_add_distrib,
      Finset.sum_congr rfl fun slot _ => Nat.sub_add_cancel (hledger.capacity slot)]
    simp
  have hheld : (blocks.held (List.range cfg.mMax)).card ≤
      ∑ slot ∈ Finset.range cfg.mMax, (blocks.slotBlocks slot).length := by
    refine (card_held_le _ _).trans_eq ?_
    rw [← List.sum_toFinset _ List.nodup_range, List.toFinset_range]
  have hfree := freeBlocks_add_card_held_range hledger
  omega

end Zllm.Gpu.BlockState

namespace Zllm.Gpu

open Outcome
open BlockState hiding new

variable {cfg : PoolConfig} {blocks blocks' : BlockState} {rows : List Row} {slot : Nat}

/-! ### The paging prologue -/

/-- The slot of each row, and the positions it must reach. -/
def rowNeeds (rows : List Row) : List (Nat × Nat) :=
  rows.map fun row => (row.slot, row.pos + 1)

theorem preparePaging_succ {row : Row} (hgrown :
    (blocks.ensureBlocks cfg row.slot (row.pos + 1)).1 = true) :
    BatchedDecoder.preparePaging cfg (row :: rows) blocks =
      BatchedDecoder.preparePaging cfg rows
        (blocks.ensureBlocks cfg row.slot (row.pos + 1)).2 := by
  obtain ⟨phys, hphys⟩ := physPos_ensureBlocks hgrown
  rw [BatchedDecoder.preparePaging]
  split
  case h_1 heq => simp [heq] at hgrown
  case h_2 grown heq =>
    rw [heq] at hphys ⊢
    rw [hphys]
    rfl

theorem preparePaging_exhausted {row : Row} (hshort :
    (blocks.ensureBlocks cfg row.slot (row.pos + 1)).1 ≠ true) :
    BatchedDecoder.preparePaging cfg (row :: rows) blocks = .error .poolExhausted := by
  rw [BatchedDecoder.preparePaging]
  split
  case h_1 => rfl
  case h_2 heq => simp [heq] at hshort

/-- The prologue of rows in distinct slots succeeds where the free blocks cover what the rows are
short of, and fails otherwise. -/
theorem preparePaging_distinct (hledger : Ledger cfg [] blocks)
    (hslots : ∀ row ∈ rows, row.slot < cfg.mMax) (hpos : ∀ row ∈ rows, row.pos < cfg.maxSeq)
    (hnodup : (rows.map Row.slot).Nodup) :
    (blocks.shortfall cfg (rowNeeds rows) ≤ blocks.freeBlocks cfg ∧
      ∃ blocks', BatchedDecoder.preparePaging cfg rows blocks = .ok blocks') ∨
    (blocks.freeBlocks cfg < blocks.shortfall cfg (rowNeeds rows) ∧
      BatchedDecoder.preparePaging cfg rows blocks = .error .poolExhausted) := by
  induction rows generalizing blocks with
  | nil => exact Or.inl ⟨Nat.zero_le _, blocks, rfl⟩
  | cons row rows ih =>
      simp only [List.mem_cons, forall_eq_or_imp] at hslots hpos
      simp only [List.map_cons, List.nodup_cons] at hnodup
      have hshort : blocks.shortfall cfg (rowNeeds (row :: rows)) =
          blocks.blocksShort cfg row.slot (row.pos + 1) + blocks.shortfall cfg (rowNeeds rows) := by
        simp [shortfall, rowNeeds]
      have hfits := ensureBlocks_eq_true hledger hslots.1 (n := row.pos + 1) (by omega)
      by_cases hgrown : (blocks.ensureBlocks cfg row.slot (row.pos + 1)).1 = true
      · obtain ⟨hledger', hext⟩ :=
          ensureBlocks_ledger hledger hslots.1 (n := row.pos + 1) (by omega)
        have hfree := freeBlocks_ensureBlocks hledger hslots.1 (by omega) hgrown
        have hsame : (blocks.ensureBlocks cfg row.slot (row.pos + 1)).2.shortfall cfg
            (rowNeeds rows) = blocks.shortfall cfg (rowNeeds rows) := by
          simp only [shortfall, rowNeeds, List.map_map]
          congr 1
          refine List.map_congr_left fun other hother => blocksShort_congr (hext.others _ ?_)
          exact fun heq => hnodup.1 (heq ▸ List.mem_map_of_mem hother)
        rw [preparePaging_succ hgrown]
        obtain ⟨hle, hok⟩ | ⟨hlt, hfails⟩ := ih hledger' hslots.2 hpos.2 hnodup.2
        · exact Or.inl ⟨by omega, hok⟩
        · exact Or.inr ⟨by omega, hfails⟩
      · refine Or.inr ⟨?_, preparePaging_exhausted hgrown⟩
        rw [hfits] at hgrown
        omega

/-- The prologue of rows that all lie in one slot. -/
theorem preparePaging_slot {n : Nat} (hledger : Ledger cfg [] blocks) (hslot : slot < cfg.mMax)
    (hn : n ≤ cfg.maxSeq) (hrows : ∀ row ∈ rows, row.slot = slot ∧ row.pos < n)
    (hfits : blocks.blocksShort cfg slot n ≤ blocks.freeBlocks cfg) :
    ∃ blocks', BatchedDecoder.preparePaging cfg rows blocks = .ok blocks' ∧
      Ledger cfg [] blocks' ∧ blocks'.blocksShort cfg slot n ≤ blocks'.freeBlocks cfg := by
  induction rows generalizing blocks with
  | nil => exact ⟨blocks, rfl, hledger, hfits⟩
  | cons row rows ih =>
      simp only [List.mem_cons, forall_eq_or_imp] at hrows
      obtain ⟨⟨rfl, hlt⟩, hrest⟩ := hrows
      have hle : blocks.blocksShort cfg row.slot (row.pos + 1) ≤ blocks.blocksShort cfg row.slot n := by
        refine Nat.sub_le_sub_right ?_ _
        rw [ceilDiv_le_iff_le_mul cfg.blockSize_pos]
        exact hlt.trans_le (le_smul_ceilDiv cfg.blockSize_pos)
      have hgrown : (blocks.ensureBlocks cfg row.slot (row.pos + 1)).1 = true :=
        (ensureBlocks_eq_true hledger hslot (by omega)).mpr (hle.trans hfits)
      have hfree := freeBlocks_ensureBlocks hledger hslot (by omega) hgrown
      have hshort := blocksShort_ensureBlocks (m := row.pos + 1) hlt hgrown
      rw [preparePaging_succ hgrown]
      exact ih (ensureBlocks_ledger hledger hslot (by omega)).1 hrest (by omega)

end Zllm.Gpu

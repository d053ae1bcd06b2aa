import Zllm.Gpu.BlockPool
import Mathlib.Algebra.BigOperators.Group.Finset.Piecewise
import Mathlib.Data.List.Perm.Basic

/-!
# The block ledger

Which references account for which physical block. A ledger may hold *loose* references, taken from
the pool and not yet (or no longer) held by a slot: `alloc` and `share` create one, `pushBlock`
hands it to a slot, and `release` gives it back.
-/

namespace Zllm.Gpu.BlockState

open Function (update update_of_ne update_self)

variable {cfg : PoolConfig} {blocks blocks' : BlockState} {loose : List Nat} {b : Nat}

/-- How often the slots list block `b`. -/
def occurrences (cfg : PoolConfig) (blocks : BlockState) (b : Nat) : Nat :=
  ∑ slot ∈ Finset.range cfg.mMax, (blocks.slotBlocks slot).count b

structure Ledger (cfg : PoolConfig) (loose : List Nat) (blocks : BlockState) : Prop where
  freeNodup : blocks.free.Nodup
  freeIdle : ∀ b ∈ blocks.free, b < cfg.nBlocks ∧ blocks.refcount b = 0 ∧ blocks.blockHash b = none
  counted : ∀ b, blocks.refcount b = blocks.occurrences cfg b + loose.count b
  bounded : ∀ b, blocks.refcount b ≠ 0 ∨ blocks.blockHash b ≠ none → b < cfg.nBlocks
  accounted : ∀ b < cfg.nBlocks,
    blocks.refcount b = 0 → blocks.blockHash b = none → b ∈ blocks.free
  inverse : ∀ h b, blocks.cacheMap h = some b ↔ blocks.blockHash b = some h
  exclusive : ∀ b, blocks.blockHash b = none → blocks.refcount b ≤ 1
  idleSlots : ∀ slot, cfg.mMax ≤ slot → blocks.slotBlocks slot = []
  capacity : ∀ slot, (blocks.slotBlocks slot).length ≤ cfg.maxBlocksPerSeq
  table : ∀ slot lb b, (blocks.slotBlocks slot)[lb]? = some b →
    blocks.tableHost (slot * cfg.maxBlocksPerSeq + lb) = b

theorem ledger_new (firstFit : Bool) : Ledger cfg [] (new cfg firstFit) where
  freeNodup := List.nodup_range
  freeIdle := by simp [new]
  counted := by simp [new, occurrences]
  bounded := by simp [new]
  accounted := by simp [new]
  inverse := by simp [new]
  exclusive := by simp [new]
  idleSlots := by simp [new]
  capacity := by simp [new]
  table := by simp [new]

/-! ### Allocation -/

theorem reclaimable_eq_true :
    blocks.reclaimable b = true ↔ blocks.refcount b = 0 ∧ blocks.blockHash b ≠ none := by
  simp [reclaimable, Option.isSome_iff_ne_none]

theorem reclaim_eq_some (h : blocks.reclaim cfg = some b) :
    b < cfg.nBlocks ∧ blocks.reclaimable b = true := by
  have hmem : b ∈ (List.range cfg.nBlocks).filter blocks.reclaimable := by
    unfold reclaim at h
    dsimp only at h
    split at h
    · exact List.mem_of_mem_head? h
    · exact List.argmin_mem h
  simpa using hmem

theorem reclaim_eq_none :
    blocks.reclaim cfg = none ↔ (List.range cfg.nBlocks).countP blocks.reclaimable = 0 := by
  unfold reclaim
  rw [List.countP_eq_length_filter, List.length_eq_zero_iff]
  dsimp only
  split
  · exact List.head?_eq_none_iff
  · exact List.argmin_eq_none

/-- What one `alloc` can do: pop the free stack, or evict a cached block nothing references. -/
theorem alloc_cases (h : blocks.alloc cfg = some (b, blocks')) :
    (∃ rest, blocks.free = b :: rest ∧
      blocks' = { blocks with free := rest, refcount := update blocks.refcount b 1 }) ∨
    (∃ hash, blocks.free = [] ∧ b < cfg.nBlocks ∧ blocks.refcount b = 0 ∧
      blocks.blockHash b = some hash ∧
      blocks' = { blocks with
        cacheMap := update blocks.cacheMap hash none
        blockHash := update blocks.blockHash b none
        refcount := update blocks.refcount b 1 }) := by
  unfold alloc at h
  split at h
  case h_1 top rest hfree =>
    obtain ⟨rfl, rfl⟩ := by simpa using h
    exact Or.inl ⟨rest, hfree, rfl⟩
  case h_2 hfree =>
    split at h
    case h_1 i hreclaim =>
      obtain ⟨hlt, hidle⟩ := reclaim_eq_some hreclaim
      obtain ⟨hzero, hhash⟩ := reclaimable_eq_true.mp hidle
      obtain ⟨hash, hhash⟩ := Option.ne_none_iff_exists'.mp hhash
      simp only [hhash, Option.some.injEq, Prod.mk.injEq] at h
      obtain ⟨rfl, rfl⟩ := h
      exact Or.inr ⟨hash, hfree, hlt, hzero, hhash, rfl⟩
    case h_2 => cases h

theorem alloc_eq_none : blocks.alloc cfg = none ↔ blocks.freeBlocks cfg = 0 := by
  unfold alloc freeBlocks
  cases hfree : blocks.free with
  | cons top rest => simp
  | nil =>
      rw [List.length_nil, Nat.zero_add, ← reclaim_eq_none]
      cases hreclaim : blocks.reclaim cfg <;> simp

theorem ledger_alloc (hledger : Ledger cfg loose blocks)
    (halloc : blocks.alloc cfg = some (b, blocks')) : Ledger cfg (b :: loose) blocks' := by
  obtain ⟨rest, hfree, rfl⟩ | ⟨hash, hfree, hlt, hzero, hhash, rfl⟩ := alloc_cases halloc
  · have hnodup := hledger.freeNodup
    rw [hfree, List.nodup_cons] at hnodup
    obtain ⟨hlt, hzero, hhash⟩ := hledger.freeIdle b (by simp [hfree])
    refine { hledger with
      freeNodup := hnodup.2, freeIdle := ?_, counted := ?_, bounded := ?_, accounted := ?_
      exclusive := ?_ }
    · intro c hc
      have hne : c ≠ b := fun heq => hnodup.1 (heq ▸ hc)
      simpa [update_of_ne hne] using hledger.freeIdle c (by simp [hfree, hc])
    · intro c
      have hc := hledger.counted c
      by_cases heq : c = b
      · subst heq
        simp [occurrences] at hc ⊢
        omega
      · simpa [occurrences, heq, Ne.symm heq] using hc
    · intro c hc
      by_cases heq : c = b
      · exact heq ▸ hlt
      · exact hledger.bounded c (by simpa [heq] using hc)
    · intro c hc hidle hunhashed
      have hne : c ≠ b := by
        rintro rfl
        simp at hidle
      have hmem := hledger.accounted c hc (by simpa [hne] using hidle) hunhashed
      simpa [hfree, hne] using hmem
    · intro c hc
      by_cases heq : c = b
      · simp [heq]
      · simpa [heq] using hledger.exclusive c hc
  · refine { hledger with
      freeIdle := ?_, counted := ?_, bounded := ?_, accounted := ?_, inverse := ?_
      exclusive := ?_ }
    · simp [hfree]
    · intro c
      have hc := hledger.counted c
      by_cases heq : c = b
      · subst heq
        simp [occurrences] at hc ⊢
        omega
      · simpa [occurrences, heq, Ne.symm heq] using hc
    · intro c hc
      by_cases heq : c = b
      · exact heq ▸ hlt
      · exact hledger.bounded c (by simpa [heq] using hc)
    · intro c hc hidle hunhashed
      have hne : c ≠ b := by
        rintro rfl
        simp at hidle
      exact hledger.accounted c hc (by simpa [hne] using hidle) (by simpa [hne] using hunhashed)
    · intro other c
      have hback := hledger.inverse other c
      by_cases hsame : other = hash
      · subst hsame
        have hcb : blocks.blockHash c = some other → c = b := fun hc =>
          Option.some.inj ((hback.mpr hc).symm.trans ((hledger.inverse other b).mpr hhash))
        by_cases heq : c = b <;> simp [heq]
        exact fun hc => heq (hcb hc)
      · by_cases heq : c = b
        · subst heq
          have hne : blocks.cacheMap other ≠ some c := fun hc => by
            rw [hback, hhash] at hc
            exact hsame (Option.some.inj hc).symm
          simp [hsame, hne]
        · simpa [hsame, heq] using hback
    · intro c hc
      by_cases heq : c = b
      · simp [heq]
      · simpa [heq] using hledger.exclusive c (by simpa [heq] using hc)

/-- A block fresh from `alloc` carries no hash. -/
theorem blockHash_of_alloc (hledger : Ledger cfg loose blocks)
    (halloc : blocks.alloc cfg = some (b, blocks')) : blocks'.blockHash b = none := by
  obtain ⟨rest, hfree, rfl⟩ | ⟨hash, hfree, hlt, hzero, hhash, rfl⟩ := alloc_cases halloc
  · exact (hledger.freeIdle b (by simp [hfree])).2.2
  · simp

/-! ### Handing references to and from a slot -/

theorem occurrences_update {slot : Nat} {owned : List Nat} (hslot : slot < cfg.mMax)
    (hblocks : blocks'.slotBlocks = update blocks.slotBlocks slot owned) (c : Nat) :
    blocks'.occurrences cfg c + (blocks.slotBlocks slot).count c =
      blocks.occurrences cfg c + owned.count c := by
  have hmem : slot ∈ Finset.range cfg.mMax := Finset.mem_range.mpr hslot
  unfold occurrences
  rw [hblocks, ← Finset.add_sum_erase _ _ hmem, ← Finset.add_sum_erase _ _ hmem, update_self]
  have hrest : ∀ other ∈ (Finset.range cfg.mMax).erase slot,
      (update blocks.slotBlocks slot owned other).count c = (blocks.slotBlocks other).count c := by
    intro other hother
    rw [update_of_ne (Finset.ne_of_mem_erase hother)]
  rw [Finset.sum_congr rfl hrest]
  omega

theorem ledger_pushBlock {slot lb phys : Nat} (hledger : Ledger cfg (phys :: loose) blocks)
    (hslot : slot < cfg.mMax) (hlb : (blocks.slotBlocks slot).length = lb)
    (hcap : lb < cfg.maxBlocksPerSeq) : Ledger cfg loose (blocks.pushBlock cfg slot lb phys) := by
  refine { hledger with
    freeIdle := hledger.freeIdle, counted := ?_, idleSlots := ?_, capacity := ?_, table := ?_ }
  · intro c
    have hc := hledger.counted c
    have hslots : (blocks.pushBlock cfg slot lb phys).slotBlocks =
        update blocks.slotBlocks slot (blocks.slotBlocks slot ++ [phys]) := rfl
    have hocc := occurrences_update hslot hslots c
    simp only [List.count_append, List.count_cons, List.count_nil, Nat.zero_add] at hc hocc
    simp only [pushBlock] at hocc ⊢
    omega
  · intro other hother
    have hne : other ≠ slot := by omega
    simpa [pushBlock, hne] using hledger.idleSlots other hother
  · intro other
    by_cases heq : other = slot
    · subst heq
      simp [pushBlock]
      omega
    · simpa [pushBlock, heq] using hledger.capacity other
  · intro other lb' c hc
    by_cases heq : other = slot
    · subst heq
      simp only [pushBlock, update_self] at hc ⊢
      by_cases hlast : lb' = lb
      · subst hlast
        simpa [← hlb] using hc
      · have hc' : (blocks.slotBlocks other)[lb']? = some c := by
          rw [List.getElem?_append] at hc
          split at hc
          · exact hc
          · obtain ⟨hlt, -⟩ := List.getElem?_eq_some_iff.mp hc
            simp at hlt
            omega
        rw [update_of_ne (by omega)]
        exact hledger.table other lb' c hc'
    · have hlb' : lb' < cfg.maxBlocksPerSeq := by
        have hlen := hledger.capacity other
        simp only [pushBlock, update_of_ne heq] at hc
        obtain ⟨hlt, -⟩ := List.getElem?_eq_some_iff.mp hc
        omega
      -- distinct slots use disjoint stretches of the flattened table
      have hcell : other * cfg.maxBlocksPerSeq + lb' ≠ slot * cfg.maxBlocksPerSeq + lb := by
        intro hsame
        have hdiv := congrArg (· / cfg.maxBlocksPerSeq) hsame
        have hpos : 0 < cfg.maxBlocksPerSeq := by omega
        simp only [Nat.add_comm _ lb', Nat.add_comm _ lb, Nat.add_mul_div_right _ _ hpos,
          Nat.div_eq_of_lt hlb', Nat.div_eq_of_lt hcap, Nat.zero_add] at hdiv
        exact heq hdiv
      simp only [pushBlock, update_of_ne heq, update_of_ne hcell] at hc ⊢
      exact hledger.table other lb' c hc

theorem ledger_share (hledger : Ledger cfg loose blocks) (hhash : blocks.blockHash b ≠ none) :
    Ledger cfg (b :: loose) (blocks.share b) := by
  refine { hledger with
    freeIdle := ?_, counted := ?_, bounded := ?_, accounted := ?_, exclusive := ?_ }
  · intro c hc
    have hidle := hledger.freeIdle c hc
    have hne : c ≠ b := fun heq => hhash (heq ▸ hidle.2.2)
    simpa [share, hne] using hidle
  · intro c
    have hc := hledger.counted c
    by_cases heq : c = b
    · subst heq
      simp [share, occurrences] at hc ⊢
      omega
    · simpa [share, occurrences, heq, Ne.symm heq] using hc
  · intro c hc
    by_cases heq : c = b
    · exact heq ▸ hledger.bounded b (Or.inr hhash)
    · exact hledger.bounded c (by simpa [share, heq] using hc)
  · intro c hc hidle hunhashed
    have hne : c ≠ b := fun heq => hhash (heq ▸ hunhashed)
    exact hledger.accounted c hc (by simpa [share, hne] using hidle) hunhashed
  · intro c hc
    have hne : c ≠ b := fun heq => hhash (heq ▸ hc)
    simpa [share, hne] using hledger.exclusive c hc

theorem ledger_touch (hledger : Ledger cfg loose blocks) (phys : Nat) :
    Ledger cfg loose (blocks.touch phys) :=
  { hledger with freeIdle := hledger.freeIdle, counted := hledger.counted }

theorem ledger_release (hledger : Ledger cfg (b :: loose) blocks) :
    Ledger cfg loose (blocks.release b) := by
  have hcount := hledger.counted b
  rw [List.count_cons_self] at hcount
  have hlt : b < cfg.nBlocks := hledger.bounded b (Or.inl (by omega))
  have hnotFree : b ∉ blocks.free := fun hmem => by
    have := (hledger.freeIdle b hmem).2.1
    omega
  have hidle : ∀ c ∈ blocks.free, c < cfg.nBlocks ∧
      update blocks.refcount b (blocks.refcount b - 1) c = 0 ∧ blocks.blockHash c = none := by
    intro c hc
    have hne : c ≠ b := fun heq => hnotFree (heq ▸ hc)
    simpa [hne] using hledger.freeIdle c hc
  have hcounted : ∀ c, update blocks.refcount b (blocks.refcount b - 1) c =
      blocks.occurrences cfg c + loose.count c := by
    intro c
    have hc := hledger.counted c
    by_cases heq : c = b
    · subst heq
      simp
      omega
    · simpa [heq, Ne.symm heq] using hc
  have hbounded : ∀ c, update blocks.refcount b (blocks.refcount b - 1) c ≠ 0 ∨
      blocks.blockHash c ≠ none → c < cfg.nBlocks := by
    intro c hc
    by_cases heq : c = b
    · exact heq ▸ hlt
    · exact hledger.bounded c (by simpa [heq] using hc)
  have hexclusive : ∀ c, blocks.blockHash c = none →
      update blocks.refcount b (blocks.refcount b - 1) c ≤ 1 := by
    intro c hc
    have := hledger.exclusive c hc
    by_cases heq : c = b
    · subst heq
      simp
      omega
    · simpa [heq] using this
  unfold release
  dsimp only
  split
  case isTrue hfreed =>
    refine { hledger with
      freeNodup := List.nodup_cons.mpr ⟨hnotFree, hledger.freeNodup⟩, freeIdle := ?_
      counted := hcounted, bounded := hbounded, accounted := ?_, exclusive := hexclusive }
    · intro c hc
      rcases List.mem_cons.mp hc with rfl | hc
      · exact ⟨hlt, by simpa using hfreed.1, hfreed.2⟩
      · exact hidle c hc
    · intro c hc hzero hhash
      by_cases heq : c = b
      · simp [heq]
      · exact List.mem_cons_of_mem _ (hledger.accounted c hc (by simpa [heq] using hzero) hhash)
  case isFalse hkept =>
    refine { hledger with
      freeIdle := hidle, counted := hcounted, bounded := hbounded, accounted := ?_
      exclusive := hexclusive }
    intro c hc hzero hhash
    have hne : c ≠ b := by
      rintro rfl
      exact hkept ⟨by simpa using hzero, hhash⟩
    exact hledger.accounted c hc (by simpa [hne] using hzero) hhash

theorem ledger_register (hash : UInt64) (hledger : Ledger cfg loose blocks)
    (hhash : blocks.blockHash b = none) (href : blocks.refcount b ≠ 0) :
    Ledger cfg loose (blocks.register hash b) := by
  unfold register
  split
  case isFalse => exact hledger
  case isTrue hnew =>
    rw [Option.isNone_iff_eq_none] at hnew
    apply ledger_touch
    refine { hledger with
      freeIdle := ?_, counted := hledger.counted, bounded := ?_, accounted := ?_, inverse := ?_
      exclusive := ?_ }
    · intro c hc
      have hidle := hledger.freeIdle c hc
      have hne : c ≠ b := fun heq => href (heq ▸ hidle.2.1)
      simpa [hne] using hidle
    · intro c hc
      by_cases heq : c = b
      · exact heq ▸ hledger.bounded b (Or.inl href)
      · exact hledger.bounded c (by simpa [heq] using hc)
    · intro c hc hzero hunhashed
      have hne : c ≠ b := fun heq => href (heq ▸ hzero)
      exact hledger.accounted c hc hzero (by simpa [hne] using hunhashed)
    · intro other c
      have hback := hledger.inverse other c
      by_cases hsame : other = hash
      · subst hsame
        have hno : blocks.blockHash c ≠ some other := fun hc => by
          rw [hback.mpr hc] at hnew
          cases hnew
        by_cases heq : c = b
        · simp [heq]
        · simp [heq, Ne.symm heq, hno]
      · by_cases heq : c = b
        · subst heq
          simp [hsame, Ne.symm hsame, hback, hhash]
        · simpa [hsame, heq] using hback
    · intro c hc
      have hne : c ≠ b := by
        rintro rfl
        simp at hc
      exact hledger.exclusive c (by simpa [hne] using hc)

end Zllm.Gpu.BlockState

import Zllm.Gpu.BlockLedger

/-!
# Moving blocks between the pool and a slot

One lemma for each method of the pool: what it does to the slot's block list, to every other slot
and to the prefix cache, and that it keeps the ledger balanced.
-/

namespace Zllm.Gpu.BlockState

open Function (update update_of_ne update_self)

variable {cfg : PoolConfig} {blocks blocks' : BlockState} {loose : List Nat} {slot : Nat}

/-! ### Counting the free blocks -/

@[simp]
theorem freeBlocks_pushBlock (lb phys : Nat) :
    (blocks.pushBlock cfg slot lb phys).freeBlocks cfg = blocks.freeBlocks cfg := rfl

/-- Dropping one member of a range from a predicate drops its count by one. -/
theorem countP_range_erase {n b : Nat} {p q : Nat → Bool} (hlt : b < n) (hp : p b = true)
    (hq : q b = false) (hsame : ∀ c, c ≠ b → q c = p c) :
    (List.range n).countP q + 1 = (List.range n).countP p := by
  have hperm := List.perm_cons_erase (List.mem_range.mpr hlt)
  rw [hperm.countP_eq q, hperm.countP_eq p, List.countP_cons_of_pos hp,
    List.countP_cons_of_neg (by simp [hq])]
  congr 1
  refine List.countP_congr fun c hc => ?_
  rw [hsame c (List.nodup_range.mem_erase_iff.mp hc).1]

theorem freeBlocks_alloc {b : Nat} (hledger : Ledger cfg loose blocks)
    (halloc : blocks.alloc cfg = some (b, blocks')) :
    blocks'.freeBlocks cfg + 1 = blocks.freeBlocks cfg := by
  obtain ⟨rest, hfree, rfl⟩ | ⟨hash, hfree, hlt, hzero, hhash, rfl⟩ := alloc_cases halloc
  · have hunhashed := (hledger.freeIdle b (by simp [hfree])).2.2
    have hsame : ({ blocks with
        free := rest, refcount := update blocks.refcount b 1 } : BlockState).reclaimable =
          blocks.reclaimable := by
      funext c
      by_cases heq : c = b
      · simp [reclaimable, heq, hunhashed]
      · simp [reclaimable, heq]
    simp only [freeBlocks, hsame, hfree, List.length_cons]
    omega
  · have hcount := countP_range_erase (p := blocks.reclaimable)
      (q := ({ blocks with
        cacheMap := update blocks.cacheMap hash none
        blockHash := update blocks.blockHash b none
        refcount := update blocks.refcount b 1 } : BlockState).reclaimable) hlt
      (by simp [reclaimable, hzero, hhash]) (by simp [reclaimable])
      (by intro c hc; simp [reclaimable, hc])
    have hlen : blocks.free.length = 0 := by simp [hfree]
    simp only [freeBlocks]
    omega

/-! ### Growing a slot -/

/-- `blocks'` is `blocks` with unhashed blocks appended to `slot`, and perhaps cached blocks
evicted. -/
structure Extends (slot : Nat) (blocks blocks' : BlockState) : Prop where
  others : ∀ other, other ≠ slot → blocks'.slotBlocks other = blocks.slotBlocks other
  fresh : ∃ new, blocks'.slotBlocks slot = blocks.slotBlocks slot ++ new ∧
    ∀ b ∈ new, blocks'.blockHash b = none
  evicts : ∀ b h, blocks'.blockHash b = some h → blocks.blockHash b = some h

theorem extends_refl : Extends slot blocks blocks where
  others := fun _ _ => rfl
  fresh := ⟨[], by simp, by simp⟩
  evicts := fun _ _ h => h

theorem Extends.trans {blocks'' : BlockState} (hfirst : Extends slot blocks blocks')
    (hsecond : Extends slot blocks' blocks'') : Extends slot blocks blocks'' where
  others := fun other hother => (hsecond.others other hother).trans (hfirst.others other hother)
  fresh := by
    obtain ⟨left, hleft, hleftHash⟩ := hfirst.fresh
    obtain ⟨right, hright, hrightHash⟩ := hsecond.fresh
    refine ⟨left ++ right, by rw [hright, hleft, List.append_assoc], fun b hb => ?_⟩
    rcases List.mem_append.mp hb with hb | hb
    · cases hhash : blocks''.blockHash b with
      | none => rfl
      | some h =>
          have := hsecond.evicts b h hhash
          rw [hleftHash b hb] at this
          cases this
    · exact hrightHash b hb
  evicts := fun b h hb => hfirst.evicts b h (hsecond.evicts b h hb)

theorem extends_alloc_pushBlock {b lb : Nat} (hledger : Ledger cfg loose blocks)
    (halloc : blocks.alloc cfg = some (b, blocks')) :
    Extends slot blocks (blocks'.pushBlock cfg slot lb b) := by
  have hhash := blockHash_of_alloc hledger halloc
  have hslots : blocks'.slotBlocks = blocks.slotBlocks := by
    obtain ⟨rest, -, rfl⟩ | ⟨hash, -, -, -, -, rfl⟩ := alloc_cases halloc <;> rfl
  refine ⟨?_, ⟨[b], ?_, by simpa [pushBlock] using hhash⟩, ?_⟩
  · intro other hother
    simp [pushBlock, hother, hslots]
  · simp [pushBlock, hslots]
  · intro c h hc
    obtain ⟨rest, -, rfl⟩ | ⟨hash, -, -, -, -, rfl⟩ := alloc_cases halloc
    · exact hc
    · by_cases heq : c = b
      · simp [pushBlock, heq] at hc
      · simpa [pushBlock, heq] using hc

theorem growSlot_ledger (hslot : slot < cfg.mMax) :
    ∀ (count lb : Nat) (blocks : BlockState), Ledger cfg [] blocks →
      (blocks.slotBlocks slot).length = lb → lb + count ≤ cfg.maxBlocksPerSeq →
      Ledger cfg [] (blocks.growSlot cfg slot count lb).2 ∧
        Extends slot blocks (blocks.growSlot cfg slot count lb).2
  | 0, lb, blocks, hledger, _, _ => ⟨hledger, extends_refl⟩
  | count + 1, lb, blocks, hledger, hlb, hcap => by
      simp only [growSlot]
      cases halloc : blocks.alloc cfg with
      | none => exact ⟨hledger, extends_refl⟩
      | some taken =>
          obtain ⟨phys, allocated⟩ := taken
          have hext : Extends slot blocks (allocated.pushBlock cfg slot lb phys) :=
            extends_alloc_pushBlock hledger halloc
          have hslots : (allocated.slotBlocks slot).length = lb := by
            obtain ⟨rest, -, rfl⟩ | ⟨hash, -, -, -, -, rfl⟩ := alloc_cases halloc <;> exact hlb
          have hpushed := ledger_pushBlock (ledger_alloc hledger halloc) hslot hslots (by omega)
          obtain ⟨hledger', hext'⟩ := growSlot_ledger hslot count (lb + 1) _ hpushed
            (by simp [pushBlock, hslots]) (by omega)
          exact ⟨hledger', hext.trans hext'⟩

theorem growSlot_length :
    ∀ (count lb : Nat) (blocks : BlockState), (blocks.slotBlocks slot).length = lb →
      (blocks.growSlot cfg slot count lb).1 = true →
      ((blocks.growSlot cfg slot count lb).2.slotBlocks slot).length = lb + count
  | 0, lb, blocks, hlb, _ => hlb
  | count + 1, lb, blocks, hlb, hgrown => by
      simp only [growSlot] at hgrown ⊢
      cases halloc : blocks.alloc cfg with
      | none => simp [halloc] at hgrown
      | some taken =>
          obtain ⟨phys, allocated⟩ := taken
          have hslots : (allocated.slotBlocks slot).length = lb := by
            obtain ⟨rest, -, rfl⟩ | ⟨hash, -, -, -, -, rfl⟩ := alloc_cases halloc <;> exact hlb
          simp only [halloc] at hgrown
          have := growSlot_length count (lb + 1) (allocated.pushBlock cfg slot lb phys)
            (by simp [pushBlock, hslots]) hgrown
          simp only
          omega

/-- Growth succeeds exactly as far as the pool has free blocks. -/
theorem growSlot_eq_true (hslot : slot < cfg.mMax) :
    ∀ (count lb : Nat) (blocks : BlockState), Ledger cfg [] blocks →
      (blocks.slotBlocks slot).length = lb → lb + count ≤ cfg.maxBlocksPerSeq →
      ((blocks.growSlot cfg slot count lb).1 = true ↔ count ≤ blocks.freeBlocks cfg)
  | 0, lb, blocks, _, _, _ => by simp [growSlot]
  | count + 1, lb, blocks, hledger, hlb, hcap => by
      simp only [growSlot]
      cases halloc : blocks.alloc cfg with
      | none => simp [alloc_eq_none.mp halloc]
      | some taken =>
          obtain ⟨phys, allocated⟩ := taken
          have hslots : (allocated.slotBlocks slot).length = lb := by
            obtain ⟨rest, -, rfl⟩ | ⟨hash, -, -, -, -, rfl⟩ := alloc_cases halloc <;> exact hlb
          have hpushed := ledger_pushBlock (ledger_alloc hledger halloc) hslot hslots (by omega)
          have hcount := freeBlocks_alloc hledger halloc
          simp only
          rw [growSlot_eq_true hslot count (lb + 1) _ hpushed
            (by simp [pushBlock, hslots]) (by omega), freeBlocks_pushBlock]
          omega

theorem PoolConfig.ceilDiv_le_maxBlocksPerSeq {n : Nat} (hn : n ≤ cfg.maxSeq) :
    n ⌈/⌉ cfg.blockSize ≤ cfg.maxBlocksPerSeq := by
  have hpos := cfg.blockSize_pos
  rw [ceilDiv_le_iff_le_mul hpos]
  exact hn.trans ((ceilDiv_le_iff_le_mul hpos).mp le_rfl)

section EnsureBlocks

variable {n : Nat}

theorem ensureBlocks_ledger (hledger : Ledger cfg [] blocks) (hslot : slot < cfg.mMax)
    (hn : n ≤ cfg.maxSeq) : Ledger cfg [] (blocks.ensureBlocks cfg slot n).2 ∧
      Extends slot blocks (blocks.ensureBlocks cfg slot n).2 := by
  have hcap := hledger.capacity slot
  have hneed := PoolConfig.ceilDiv_le_maxBlocksPerSeq hn
  exact growSlot_ledger hslot _ _ blocks hledger rfl (by omega)

theorem ensureBlocks_length (hgrown : (blocks.ensureBlocks cfg slot n).1 = true) :
    n ⌈/⌉ cfg.blockSize ≤ ((blocks.ensureBlocks cfg slot n).2.slotBlocks slot).length := by
  have := growSlot_length _ _ blocks rfl hgrown
  dsimp only [ensureBlocks]
  omega

/-- `ensure_blocks` fails only when the pool has fewer free blocks than the slot is short of. -/
theorem ensureBlocks_eq_true (hledger : Ledger cfg [] blocks) (hslot : slot < cfg.mMax)
    (hn : n ≤ cfg.maxSeq) : (blocks.ensureBlocks cfg slot n).1 = true ↔
      blocks.blocksShort cfg slot n ≤ blocks.freeBlocks cfg := by
  have hcap := hledger.capacity slot
  have hneed := PoolConfig.ceilDiv_le_maxBlocksPerSeq hn
  exact growSlot_eq_true hslot _ _ blocks hledger rfl (by omega)

end EnsureBlocks

/-! ### Freeing a slot -/

@[simp]
theorem slotBlocks_release (phys : Nat) :
    (blocks.release phys).slotBlocks = blocks.slotBlocks := by
  unfold release
  dsimp only
  split <;> rfl

@[simp]
theorem blockHash_release (phys : Nat) : (blocks.release phys).blockHash = blocks.blockHash := by
  unfold release
  dsimp only
  split <;> rfl

@[simp]
theorem cacheMap_release (phys : Nat) : (blocks.release phys).cacheMap = blocks.cacheMap := by
  unfold release
  dsimp only
  split <;> rfl

@[simp]
theorem tableHost_release (phys : Nat) : (blocks.release phys).tableHost = blocks.tableHost := by
  unfold release
  dsimp only
  split <;> rfl

/-- Whatever `release` keeps, releasing a list of blocks keeps. -/
theorem foldl_release_frame {α : Type} (field : BlockState → α)
    (hframe : ∀ blocks phys, field (release blocks phys) = field blocks) (owned : List Nat)
    (blocks : BlockState) : field (owned.foldl release blocks) = field blocks := by
  induction owned generalizing blocks with
  | nil => rfl
  | cons phys owned ih => rw [List.foldl_cons, ih, hframe]

@[simp]
theorem slotBlocks_freeSlot :
    (blocks.freeSlot slot).slotBlocks = update blocks.slotBlocks slot [] :=
  foldl_release_frame slotBlocks (fun _ _ => slotBlocks_release _) _ _

@[simp]
theorem blockHash_freeSlot : (blocks.freeSlot slot).blockHash = blocks.blockHash :=
  foldl_release_frame blockHash (fun _ _ => blockHash_release _) _ _

@[simp]
theorem cacheMap_freeSlot : (blocks.freeSlot slot).cacheMap = blocks.cacheMap :=
  foldl_release_frame cacheMap (fun _ _ => cacheMap_release _) _ _

@[simp]
theorem tableHost_freeSlot : (blocks.freeSlot slot).tableHost = blocks.tableHost :=
  foldl_release_frame tableHost (fun _ _ => tableHost_release _) _ _

theorem ledger_foldl_release (owned : List Nat) (blocks : BlockState)
    (hledger : Ledger cfg (owned ++ loose) blocks) :
    Ledger cfg loose (owned.foldl release blocks) := by
  induction owned generalizing blocks with
  | nil => exact hledger
  | cons phys owned ih => exact ih _ (ledger_release hledger)

/-- A slot's references become loose once its list is taken. -/
theorem ledger_detach (hledger : Ledger cfg loose blocks) (hslot : slot < cfg.mMax) :
    Ledger cfg (blocks.slotBlocks slot ++ loose)
      { blocks with slotBlocks := update blocks.slotBlocks slot [] } := by
  refine { hledger with
    freeIdle := hledger.freeIdle, counted := ?_, idleSlots := ?_, capacity := ?_, table := ?_ }
  · intro c
    have hc := hledger.counted c
    have hocc : occurrences cfg { blocks with slotBlocks := update blocks.slotBlocks slot [] } c +
        (blocks.slotBlocks slot).count c = blocks.occurrences cfg c + [].count c :=
      occurrences_update hslot rfl c
    simp only [List.count_nil, Nat.add_zero] at hocc
    simp only [List.count_append]
    omega
  · intro other hother
    have hne : other ≠ slot := by omega
    simpa [hne] using hledger.idleSlots other hother
  · intro other
    by_cases heq : other = slot
    · simp [heq]
    · simpa [heq] using hledger.capacity other
  · intro other lb c hc
    by_cases heq : other = slot
    · simp [heq] at hc
    · exact hledger.table other lb c (by simpa [heq] using hc)

theorem ledger_freeSlot (hledger : Ledger cfg loose blocks) (hslot : slot < cfg.mMax) :
    Ledger cfg loose (blocks.freeSlot slot) :=
  ledger_foldl_release _ _ (ledger_detach hledger hslot)

/-! ### Swapping a slot -/

theorem swapOut_eq {n : Nat} {saved : List Nat}
    (hswap : blocks.swapOut cfg slot n = .ok (saved, blocks')) :
    blocks' = blocks.freeSlot slot := by
  unfold swapOut at hswap
  dsimp only at hswap
  split at hswap
  · obtain ⟨-, rfl⟩ := by simpa using hswap
    rfl
  · cases hswap

theorem swapIn_eq {n nb : Nat} {restored : Option (List Nat)}
    (hswap : blocks.swapIn cfg slot n nb = .ok (restored, blocks')) :
    blocks' = (blocks.ensureBlocks cfg slot n).2 := by
  unfold swapIn at hswap
  split at hswap
  · next heq =>
      obtain ⟨-, rfl⟩ := by simpa using hswap
      rw [heq]
  · next heq =>
      split at hswap
      · obtain ⟨-, rfl⟩ := by simpa using hswap
        rw [heq]
      · cases hswap

/-! ### Where a block sits -/

theorem count_le_occurrences (blocks : BlockState) (hslot : slot < cfg.mMax) (b : Nat) :
    (blocks.slotBlocks slot).count b ≤ blocks.occurrences cfg b :=
  Finset.single_le_sum (f := fun slot => (blocks.slotBlocks slot).count b)
    (fun _ _ => Nat.zero_le _) (Finset.mem_range.mpr hslot)

theorem slot_lt_of_mem {b : Nat} (hledger : Ledger cfg loose blocks)
    (hmem : b ∈ blocks.slotBlocks slot) : slot < cfg.mMax := by
  by_contra hslot
  rw [hledger.idleSlots slot (by omega)] at hmem
  cases hmem

theorem refcount_ne_zero_of_mem {b : Nat} (hledger : Ledger cfg loose blocks)
    (hmem : b ∈ blocks.slotBlocks slot) : blocks.refcount b ≠ 0 := by
  have hcount := count_le_occurrences blocks (slot_lt_of_mem hledger hmem) b
  have hpos := List.count_pos_iff.mpr hmem
  have := hledger.counted b
  omega

/-- An unhashed block sits in one slot, at one logical index. -/
theorem unhashed_place_unique {b other i j : Nat} (hledger : Ledger cfg loose blocks)
    (hhash : blocks.blockHash b = none) (hleft : (blocks.slotBlocks slot)[i]? = some b)
    (hright : (blocks.slotBlocks other)[j]? = some b) : slot = other ∧ i = j := by
  have hone : blocks.occurrences cfg b ≤ 1 := by
    have := hledger.exclusive b hhash
    have := hledger.counted b
    omega
  have hleftMem := List.mem_of_getElem? hleft
  have hrightMem := List.mem_of_getElem? hright
  have hslot := slot_lt_of_mem hledger hleftMem
  have hother := slot_lt_of_mem hledger hrightMem
  have hsame : slot = other := by
    by_contra hne
    have hpair : (blocks.slotBlocks slot).count b + (blocks.slotBlocks other).count b ≤
        blocks.occurrences cfg b := by
      unfold occurrences
      rw [← Finset.sum_pair (f := fun s => (blocks.slotBlocks s).count b) hne]
      refine Finset.sum_le_sum_of_subset fun s hs => ?_
      rcases Finset.mem_insert.mp hs with rfl | hs
      · exact Finset.mem_range.mpr hslot
      · exact Finset.mem_singleton.mp hs ▸ Finset.mem_range.mpr hother
    have := List.count_pos_iff.mpr hleftMem
    have := List.count_pos_iff.mpr hrightMem
    omega
  subst hsame
  refine ⟨rfl, ?_⟩
  by_contra hne
  obtain ⟨hi, hib⟩ := List.getElem?_eq_some_iff.mp hleft
  obtain ⟨hj, hjb⟩ := List.getElem?_eq_some_iff.mp hright
  have hdup : List.Duplicate b (blocks.slotBlocks slot) := by
    rw [List.duplicate_iff_exists_distinct_get]
    rcases Nat.lt_or_gt_of_ne hne with hlt | hlt
    · exact ⟨⟨i, hi⟩, ⟨j, hj⟩, hlt, hib.symm, hjb.symm⟩
    · exact ⟨⟨j, hj⟩, ⟨i, hi⟩, hlt, hjb.symm, hib.symm⟩
  have := List.duplicate_iff_two_le_count.mp hdup
  have := count_le_occurrences blocks hslot b
  omega

/-! ### Prefix reuse -/

/-- `blocks'` is `blocks` with the cached blocks of the prompt's logical blocks `lb..cached`
appended to `slot`. -/
structure Reuses (cfg : PoolConfig) (prompt : List Token) (slot lb cached : Nat)
    (blocks blocks' : BlockState) : Prop where
  others : ∀ other, other ≠ slot → blocks'.slotBlocks other = blocks.slotBlocks other
  le_cached : lb ≤ cached
  reused : ∃ new, blocks'.slotBlocks slot = blocks.slotBlocks slot ++ new ∧
    new.length = cached - lb ∧ ∀ i b, new[i]? = some b →
      blocks.cacheMap (cfg.chainHash prompt (lb + i + 1)) = some b
  blockHash_eq : blocks'.blockHash = blocks.blockHash
  cacheMap_eq : blocks'.cacheMap = blocks.cacheMap

theorem reuseBlocks_succ (prompt : List Token) (count lb : Nat) (blocks : BlockState) :
    reuseBlocks cfg prompt slot (count + 1) lb (cfg.chainHash prompt lb) blocks =
      match blocks.cacheMap (cfg.chainHash prompt (lb + 1)) with
      | some phys => reuseBlocks cfg prompt slot count (lb + 1) (cfg.chainHash prompt (lb + 1))
          (((blocks.share phys).touch phys).pushBlock cfg slot lb phys)
      | none => (lb, blocks) := rfl

theorem reuses_refl (prompt : List Token) (lb : Nat) :
    Reuses cfg prompt slot lb lb blocks blocks where
  others := fun _ _ => rfl
  le_cached := le_rfl
  reused := ⟨[], by simp, by simp, by simp⟩
  blockHash_eq := rfl
  cacheMap_eq := rfl

theorem reuseBlocks_ledger (prompt : List Token) (hslot : slot < cfg.mMax) :
    ∀ (count lb : Nat) (blocks : BlockState), Ledger cfg [] blocks →
      (blocks.slotBlocks slot).length = lb → lb + count ≤ cfg.maxBlocksPerSeq →
      ∃ cached blocks', reuseBlocks cfg prompt slot count lb (cfg.chainHash prompt lb) blocks =
        (cached, blocks') ∧ Ledger cfg [] blocks' ∧ cached ≤ lb + count ∧
        Reuses cfg prompt slot lb cached blocks blocks'
  | 0, lb, blocks, hledger, _, _ => ⟨lb, blocks, rfl, hledger, le_rfl, reuses_refl prompt lb⟩
  | count + 1, lb, blocks, hledger, hlb, hcap => by
      rw [reuseBlocks_succ]
      cases hhit : blocks.cacheMap (cfg.chainHash prompt (lb + 1)) with
      | none => exact ⟨lb, blocks, rfl, hledger, by omega, reuses_refl prompt lb⟩
      | some phys =>
          have hhash : blocks.blockHash phys ≠ none := by
            rw [(hledger.inverse _ phys).mp hhit]
            simp
          have hshared := ledger_touch (ledger_share hledger hhash) phys
          have hpushed := ledger_pushBlock hshared hslot hlb (by omega)
          obtain ⟨cached, blocks', hrun, hledger', hle, hreuse⟩ :=
            reuseBlocks_ledger prompt hslot count (lb + 1) _ hpushed
              (by simp [pushBlock, touch, share, hlb]) (by omega)
          have hlt := hreuse.le_cached
          refine ⟨cached, blocks', hrun, hledger', by omega, ?_, by omega, ?_,
            hreuse.blockHash_eq, hreuse.cacheMap_eq⟩
          · intro other hother
            rw [hreuse.others other hother]
            simp [pushBlock, touch, share, hother]
          · obtain ⟨new, hnew, hlen, hcached⟩ := hreuse.reused
            refine ⟨phys :: new, ?_, ?_, ?_⟩
            · simp [hnew, pushBlock, touch, share]
            · simp only [List.length_cons]
              omega
            · intro i b hi
              cases i with
              | zero =>
                  obtain rfl : phys = b := by simpa using hi
                  exact hhit
              | succ i =>
                  have := hcached i b (by simpa using hi)
                  rwa [show lb + 1 + i + 1 = lb + (i + 1) + 1 by omega] at this

theorem prefillPrefixReuse_ledger (prompt : List Token) (hledger : Ledger cfg [] blocks)
    (hslot : slot < cfg.mMax) (hempty : blocks.slotBlocks slot = [])
    (hlen : prompt.length ≤ cfg.maxSeq) :
    ∃ cached blocks', prefillPrefixReuse cfg prompt slot blocks =
        ((cached * cfg.blockSize, cached), blocks') ∧ Ledger cfg [] blocks' ∧
      cached ≤ (prompt.length - 1) / cfg.blockSize ∧
      Reuses cfg prompt slot 0 cached blocks blocks' := by
  have hcap : (prompt.length - 1) / cfg.blockSize ≤ cfg.maxBlocksPerSeq := by
    refine le_trans ?_ (PoolConfig.ceilDiv_le_maxBlocksPerSeq hlen)
    rw [Nat.ceilDiv_eq_add_pred_div]
    exact Nat.div_le_div_right (by omega)
  obtain ⟨cached, blocks', hrun, hledger', hle, hreuse⟩ :=
    reuseBlocks_ledger prompt hslot _ 0 blocks hledger (by simp [hempty])
      (by omega : 0 + (prompt.length - 1) / cfg.blockSize ≤ cfg.maxBlocksPerSeq)
  refine ⟨cached, { blocks' with hits := blocks'.hits + cached }, ?_, ?_, by omega, ?_⟩
  · simp only [PoolConfig.chainHash] at hrun
    simp [prefillPrefixReuse, hrun]
  · exact { hledger' with freeIdle := hledger'.freeIdle, counted := hledger'.counted }
  · exact ⟨hreuse.others, hreuse.le_cached, hreuse.reused, hreuse.blockHash_eq,
      hreuse.cacheMap_eq⟩

/-! ### Registration -/

/-- `blocks'` is `blocks` with some of the slot's blocks `lb..lb + count` entered in the prefix
cache, each under the hash of the prompt's prefix it ends. -/
structure Registers (cfg : PoolConfig) (prompt : List Token) (slot lb count : Nat)
    (blocks blocks' : BlockState) : Prop where
  slotBlocks_eq : blocks'.slotBlocks = blocks.slotBlocks
  tableHost_eq : blocks'.tableHost = blocks.tableHost
  entered : ∀ b h, blocks'.blockHash b = some h → blocks.blockHash b = some h ∨
    ∃ i, lb ≤ i ∧ i < lb + count ∧ (blocks.slotBlocks slot)[i]? = some b ∧
      h = cfg.chainHash prompt (i + 1)

theorem register_frame (blocks : BlockState) (h : UInt64) (phys : Nat) :
    (blocks.register h phys).slotBlocks = blocks.slotBlocks ∧
      (blocks.register h phys).tableHost = blocks.tableHost ∧
      (∀ b, b ≠ phys → (blocks.register h phys).blockHash b = blocks.blockHash b) := by
  unfold register
  split
  · refine ⟨rfl, rfl, fun b hb => ?_⟩
    simp [touch, hb]
  · exact ⟨rfl, rfl, fun _ _ => rfl⟩

theorem registerBlocks_ledger {prompt : List Token} :
    ∀ (count lb : Nat) (blocks blocks' : BlockState), Ledger cfg loose blocks →
      (∀ i b, lb ≤ i → (blocks.slotBlocks slot)[i]? = some b → blocks.blockHash b = none) →
      registerBlocks cfg prompt slot count lb (cfg.chainHash prompt lb) blocks = .ok blocks' →
      Ledger cfg loose blocks' ∧ Registers cfg prompt slot lb count blocks blocks'
  | 0, lb, blocks, blocks', hledger, _, hok => by
      obtain rfl : blocks = blocks' := by simpa [registerBlocks] using hok
      exact ⟨hledger, rfl, rfl, fun b h hb => Or.inl hb⟩
  | count + 1, lb, blocks, blocks', hledger, hunhashed, hok => by
      simp only [registerBlocks] at hok
      cases hphys : (blocks.slotBlocks slot)[lb]? with
      | none => simp [hphys] at hok
      | some phys =>
          simp only [hphys] at hok
          have hnone := hunhashed lb phys le_rfl hphys
          have hregistered := ledger_register (cfg.chainHash prompt (lb + 1)) hledger hnone
            (refcount_ne_zero_of_mem hledger (List.mem_of_getElem? hphys))
          obtain ⟨hslots, htable, hother⟩ := register_frame blocks
            (cfg.chainHash prompt (lb + 1)) phys
          obtain ⟨hledger', hregs⟩ := registerBlocks_ledger count (lb + 1) _ blocks' hregistered
            (by
              intro i b hi hb
              rw [hslots] at hb
              have hne : b ≠ phys := by
                rintro rfl
                have := (unhashed_place_unique hledger hnone hphys hb).2
                omega
              rw [hother b hne]
              exact hunhashed i b (by omega) hb) hok
          refine ⟨hledger', hregs.slotBlocks_eq.trans hslots, hregs.tableHost_eq.trans htable, ?_⟩
          intro b h hb
          obtain hold | ⟨i, hlo, hhi, hib, hh⟩ := hregs.entered b h hb
          · by_cases heq : b = phys
            · refine Or.inr ⟨lb, le_rfl, by omega, heq ▸ hphys, ?_⟩
              unfold register at hold
              split at hold
              · simpa [touch, heq, eq_comm] using hold
              · rw [heq, hnone] at hold
                cases hold
            · exact Or.inl ((hother b heq).symm.trans hold)
          · exact Or.inr ⟨i, by omega, by omega, hslots ▸ hib, hh⟩

theorem prefillRegister_ledger {prompt : List Token} {cached : Nat}
    (hledger : Ledger cfg loose blocks)
    (hunhashed : ∀ i b, cached ≤ i → (blocks.slotBlocks slot)[i]? = some b →
      blocks.blockHash b = none)
    (hok : blocks.prefillRegister cfg prompt slot cached = .ok blocks') :
    Ledger cfg loose blocks' ∧ Registers cfg prompt slot cached
      (prompt.length / cfg.blockSize - cached) blocks blocks' := by
  unfold prefillRegister at hok
  dsimp only at hok
  split at hok
  · obtain rfl : blocks = blocks' := by simpa using hok
    exact ⟨hledger, rfl, rfl, fun b h hb => Or.inl hb⟩
  · have hmissed : Ledger cfg loose
        { blocks with misses := blocks.misses + (prompt.length / cfg.blockSize - cached) } :=
      { hledger with freeIdle := hledger.freeIdle, counted := hledger.counted }
    obtain ⟨hledger', hregs⟩ := registerBlocks_ledger _ cached _ blocks' hmissed hunhashed hok
    exact ⟨hledger', hregs.slotBlocks_eq, hregs.tableHost_eq, hregs.entered⟩

end Zllm.Gpu.BlockState

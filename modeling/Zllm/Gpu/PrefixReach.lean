import Zllm.Gpu.BlockConservation

/-!
# Reaching the cached prefixes

`prefill_prefix_reuse` walks a prompt from its first block and stops at the first one that the cache
does not know, so a cached block is of use only as long as every shorter prefix of its own stays
cached. `prefill_register` and `prefill_prefix_reuse` stamp a prefix from its root, which leaves the
root the oldest block of its chain, and `alloc` reclaims the oldest.
-/

namespace Zllm.Gpu

open Function (update update_of_ne update_self)
open BlockState

/-! ### Prefixes and their ancestors -/

namespace BlockState

variable {cfg : PoolConfig} {blocks blocks' : BlockState} {prefixOf : Nat → List Token}
variable {loose : List Nat} {slot : Nat}

/-- The shorter full-block prefixes of whatever the cache holds are cached too; `prefixOf` is the
prefix whose KV a block holds. -/
def Rooted (cfg : PoolConfig) (prefixOf : Nat → List Token) (blocks : BlockState) : Prop :=
  ∀ h b, blocks.cacheMap h = some b → ∀ j, 0 < j → j * cfg.blockSize < (prefixOf b).length →
    blocks.cacheMap (cfg.chainHash (prefixOf b) j) ≠ none

/-- Some other cached block continues the prefix that ends in block `b`. -/
def Ancestor (cfg : PoolConfig) (prefixOf : Nat → List Token) (blocks : BlockState) (b : Nat) :
    Prop :=
  ∃ h c j, blocks.cacheMap h = some c ∧ c ≠ b ∧ 0 < j ∧ j * cfg.blockSize < (prefixOf c).length ∧
    blocks.cacheMap (cfg.chainHash (prefixOf c) j) = some b

/-- No cached block continues the least recently used reclaimable one. -/
def OldestIsLeaf (cfg : PoolConfig) (prefixOf : Nat → List Token) (blocks : BlockState) : Prop :=
  ∀ b < cfg.nBlocks, blocks.reclaimable b = true →
    (∀ c < cfg.nBlocks, blocks.reclaimable c = true → blocks.lastUse b ≤ blocks.lastUse c) →
    ¬blocks.Ancestor cfg prefixOf b

/-- Whenever the loop of `ensure_blocks` finds the free stack empty, the oldest reclaimable block is
a leaf. -/
def GrowsAtLeaves (cfg : PoolConfig) (prefixOf : Nat → List Token) (slot : Nat) :
    (count lb : Nat) → BlockState → Prop
  | 0, _, _ => True
  | count + 1, lb, blocks =>
      (blocks.free = [] → blocks.OldestIsLeaf cfg prefixOf) ∧
        ∀ phys allocated, blocks.alloc cfg = some (phys, allocated) →
          GrowsAtLeaves cfg prefixOf slot count (lb + 1) (allocated.pushBlock cfg slot lb phys)

/-- What `alloc` keeps of the prefix cache: every entry but that of the block it evicts, which is a
reclaimable block no younger than the others. -/
theorem alloc_evicts {b : Nat} (hledger : Ledger cfg loose blocks) (hlru : blocks.firstFit = false)
    (halloc : blocks.alloc cfg = some (b, blocks')) :
    (blocks.free ≠ [] ∧ blocks'.cacheMap = blocks.cacheMap) ∨
    (blocks.free = [] ∧ b < cfg.nBlocks ∧ blocks.reclaimable b = true ∧
      (∀ c < cfg.nBlocks, blocks.reclaimable c = true → blocks.lastUse b ≤ blocks.lastUse c) ∧
      ∀ h c, blocks'.cacheMap h = some c ↔ blocks.cacheMap h = some c ∧ c ≠ b) := by
  obtain ⟨rest, hfree, rfl⟩ | ⟨hash, hfree, hlt, hzero, hhash, hblocks⟩ := alloc_cases halloc
  · exact Or.inl ⟨by simp [hfree], rfl⟩
  refine Or.inr ⟨hfree, hlt, reclaimable_eq_true.mpr ⟨hzero, by simp [hhash]⟩, ?_, ?_⟩
  · have hreclaim : blocks.reclaim cfg = some b := by
      unfold alloc at halloc
      simp only [hfree] at halloc
      cases hvictim : blocks.reclaim cfg with
      | none => simp [hvictim] at halloc
      | some i =>
          simp only [hvictim, Option.some.injEq, Prod.mk.injEq] at halloc
          exact congrArg some halloc.1
    intro c hc hidle
    have hmem : c ∈ (List.range cfg.nBlocks).filter blocks.reclaimable := by
      simpa using ⟨hc, hidle⟩
    apply List.le_of_mem_argmin hmem
    simpa [reclaim, hlru] using hreclaim
  · intro h c
    have howner := hledger.inverse h
    by_cases heq : h = hash
    · subst heq
      have hb := (howner b).mpr hhash
      simp [hblocks, hb, eq_comm]
    · have hother : blocks.cacheMap h = some c → c ≠ b := by
        rintro hc rfl
        rw [howner, hhash] at hc
        exact heq (Option.some.inj hc).symm
      simp only [hblocks, update_of_ne heq]
      exact ⟨fun hc => ⟨hc, hother hc⟩, And.left⟩

theorem alloc_frame {b : Nat} (halloc : blocks.alloc cfg = some (b, blocks')) :
    blocks'.slotBlocks = blocks.slotBlocks ∧ blocks'.firstFit = blocks.firstFit ∧
      ∀ c, blocks.refcount c ≠ 0 → blocks'.refcount c ≠ 0 := by
  obtain ⟨rest, -, rfl⟩ | ⟨hash, -, -, -, -, rfl⟩ := alloc_cases halloc
  all_goals
    refine ⟨rfl, rfl, fun c hc => ?_⟩
    by_cases heq : c = b
    · simp [heq]
    · simpa [heq] using hc

/-- **One eviction.** `alloc` leaves the cached prefixes rooted if and only if the block it evicts,
where it evicts one, is no ancestor. -/
theorem rooted_alloc_iff {b : Nat} (hledger : Ledger cfg loose blocks)
    (hlru : blocks.firstFit = false) (hrooted : blocks.Rooted cfg prefixOf)
    (halloc : blocks.alloc cfg = some (b, blocks')) :
    blocks'.Rooted cfg prefixOf ↔ (blocks.free = [] → ¬blocks.Ancestor cfg prefixOf b) := by
  obtain ⟨hfree, hsame⟩ | ⟨hfree, -, -, -, hkept⟩ := alloc_evicts hledger hlru halloc
  · have hafter : blocks'.Rooted cfg prefixOf := by
      unfold Rooted
      rw [hsame]
      exact hrooted
    exact ⟨fun _ hempty => absurd hempty hfree, fun _ => hafter⟩
  constructor
  · rintro hafter - ⟨h, c, j, hc, hne, hj, hlt, hb⟩
    obtain ⟨d, hd⟩ := Option.ne_none_iff_exists'.mp
      (hafter h c ((hkept h c).mpr ⟨hc, hne⟩) j hj hlt)
    obtain ⟨hd, hdb⟩ := (hkept _ d).mp hd
    rw [hb] at hd
    exact hdb (Option.some.inj hd).symm
  · intro hleaf h c hc j hj hlt
    obtain ⟨hc, hne⟩ := (hkept h c).mp hc
    obtain ⟨d, hd⟩ := Option.ne_none_iff_exists'.mp (hrooted h c hc j hj hlt)
    have hdb : d ≠ b := by
      rintro rfl
      exact hleaf hfree ⟨h, c, j, hc, hne, hj, hlt, hd⟩
    rw [(hkept _ d).mpr ⟨hd, hdb⟩]
    exact Option.some_ne_none d

/-- What growing a slot at the leaves leaves of the prefix cache: rooted prefixes, no new entry, and
every entry of a referenced block. -/
structure Prunes (cfg : PoolConfig) (prefixOf : Nat → List Token) (blocks blocks' : BlockState) :
    Prop where
  firstFit : blocks'.firstFit = false
  rooted : blocks'.Rooted cfg prefixOf
  evicts : ∀ h b, blocks'.cacheMap h = some b → blocks.cacheMap h = some b
  kept : ∀ h b, blocks.cacheMap h = some b → blocks.refcount b ≠ 0 → blocks'.cacheMap h = some b

theorem prunes_refl (hlru : blocks.firstFit = false) (hrooted : blocks.Rooted cfg prefixOf) :
    Prunes cfg prefixOf blocks blocks :=
  ⟨hlru, hrooted, fun _ _ hb => hb, fun _ _ hb _ => hb⟩

theorem prunes_alloc {b : Nat} (hledger : Ledger cfg loose blocks)
    (hlru : blocks.firstFit = false) (hrooted : blocks.Rooted cfg prefixOf)
    (hleaf : blocks.free = [] → blocks.OldestIsLeaf cfg prefixOf)
    (halloc : blocks.alloc cfg = some (b, blocks')) : Prunes cfg prefixOf blocks blocks' := by
  obtain ⟨-, hfirst, -⟩ := alloc_frame halloc
  have hiff := rooted_alloc_iff hledger hlru hrooted halloc
  obtain ⟨hfree, hsame⟩ | ⟨hfree, hlt, hidle, holdest, hkept⟩ := alloc_evicts hledger hlru halloc
  · refine ⟨hfirst.trans hlru, hiff.mpr fun hempty => absurd hempty hfree, ?_, ?_⟩
    · exact fun h c hc => hsame ▸ hc
    · exact fun h c hc _ => hsame.symm ▸ hc
  · refine ⟨hfirst.trans hlru, hiff.mpr fun _ => hleaf hfree b hlt hidle holdest, ?_, ?_⟩
    · exact fun h c hc => ((hkept h c).mp hc).1
    · intro h c hc href
      refine (hkept h c).mpr ⟨hc, ?_⟩
      rintro rfl
      exact href (reclaimable_eq_true.mp hidle).1

theorem prunes_growSlot (hslot : slot < cfg.mMax) :
    ∀ (count lb : Nat) (blocks : BlockState), Ledger cfg [] blocks →
      (blocks.slotBlocks slot).length = lb → lb + count ≤ cfg.maxBlocksPerSeq →
      blocks.firstFit = false → blocks.Rooted cfg prefixOf →
      GrowsAtLeaves cfg prefixOf slot count lb blocks →
      Prunes cfg prefixOf blocks (blocks.growSlot cfg slot count lb).2
  | 0, lb, blocks, _, _, _, hlru, hrooted, _ => prunes_refl hlru hrooted
  | count + 1, lb, blocks, hledger, hlb, hcap, hlru, hrooted, hleaves => by
      simp only [growSlot]
      cases halloc : blocks.alloc cfg with
      | none => exact prunes_refl hlru hrooted
      | some taken =>
          obtain ⟨phys, allocated⟩ := taken
          obtain ⟨hleaf, hnext⟩ := hleaves
          obtain ⟨hslots, -, hrefs⟩ := alloc_frame halloc
          have hfirst := prunes_alloc hledger hlru hrooted hleaf halloc
          have hlen : (allocated.slotBlocks slot).length = lb := by rw [hslots, hlb]
          have hpushed := ledger_pushBlock (ledger_alloc hledger halloc) hslot hlen (by omega)
          have hrest := prunes_growSlot hslot count (lb + 1)
            (allocated.pushBlock cfg slot lb phys) hpushed (by simp [pushBlock, hlen]) (by omega)
            hfirst.firstFit hfirst.rooted (hnext phys allocated halloc)
          refine ⟨hrest.firstFit, hrest.rooted, ?_, ?_⟩
          · exact fun h b hb => hfirst.evicts h b (hrest.evicts h b hb)
          · exact fun h b hb href => hrest.kept h b (hfirst.kept h b hb href) (hrefs b href)

/-- Where every other block holds a prefix of one block at most, no prefix continues that of `b`. -/
theorem not_ancestor_of_length {b : Nat} (hledger : Ledger cfg loose blocks)
    (hshort : ∀ c < cfg.nBlocks, c ≠ b → (prefixOf c).length ≤ cfg.blockSize) :
    ¬blocks.Ancestor cfg prefixOf b := by
  rintro ⟨h, c, j, hc, hne, hj, hlt, -⟩
  rw [hledger.inverse] at hc
  have hlen := hshort c (hledger.bounded c (Or.inr (by simp [hc]))) hne
  have hone : 1 * cfg.blockSize ≤ j * cfg.blockSize := Nat.mul_le_mul_right _ hj
  omega

/-- A slot that the free stack can serve reclaims nothing. -/
theorem growsAtLeaves_of_free :
    ∀ (count lb : Nat) (blocks : BlockState), count ≤ blocks.free.length →
      GrowsAtLeaves cfg prefixOf slot count lb blocks
  | 0, _, _, _ => trivial
  | count + 1, lb, blocks, hcount => by
      refine ⟨fun hempty => by simp [hempty] at hcount, fun phys allocated halloc => ?_⟩
      apply growsAtLeaves_of_free count (lb + 1)
      obtain ⟨rest, hfree, rfl⟩ | ⟨hash, hfree, -⟩ := alloc_cases halloc
      · simp only [hfree, List.length_cons] at hcount
        simpa [pushBlock] using hcount
      · simp [hfree] at hcount

/-! ### Registering a prefix -/

/-- Registration enters every full block it passes, and keeps what was entered before. -/
theorem cacheMap_registerBlocks {prompt : List Token} :
    ∀ (count lb : Nat) (blocks blocks' : BlockState),
      registerBlocks cfg prompt slot count lb (cfg.chainHash prompt lb) blocks = .ok blocks' →
      blocks'.firstFit = blocks.firstFit ∧
      (∀ h b, blocks.cacheMap h = some b → blocks'.cacheMap h = some b) ∧
      ∀ i, lb ≤ i → i < lb + count → blocks'.cacheMap (cfg.chainHash prompt (i + 1)) ≠ none
  | 0, lb, blocks, blocks', hok => by
      obtain rfl : blocks = blocks' := by simpa [registerBlocks] using hok
      exact ⟨rfl, fun _ _ hb => hb, by omega⟩
  | count + 1, lb, blocks, blocks', hok => by
      simp only [registerBlocks] at hok
      cases hphys : (blocks.slotBlocks slot)[lb]? with
      | none => simp [hphys] at hok
      | some phys =>
          simp only [hphys] at hok
          obtain ⟨hfirst, hkept, hentered⟩ :=
            cacheMap_registerBlocks count (lb + 1) _ blocks' hok
          have hhere : (blocks.register (cfg.chainHash prompt (lb + 1)) phys).firstFit =
                blocks.firstFit ∧
              (∀ h b, blocks.cacheMap h = some b →
                (blocks.register (cfg.chainHash prompt (lb + 1)) phys).cacheMap h = some b) ∧
              ∃ b, (blocks.register (cfg.chainHash prompt (lb + 1)) phys).cacheMap
                (cfg.chainHash prompt (lb + 1)) = some b := by
            unfold register
            split
            case isTrue hnew =>
              rw [Option.isNone_iff_eq_none] at hnew
              refine ⟨rfl, fun h b hb => ?_, phys, by simp [touch]⟩
              have hne : h ≠ cfg.chainHash prompt (lb + 1) := by
                rintro rfl
                simp [hnew] at hb
              simpa [touch, hne] using hb
            case isFalse hold =>
              refine ⟨rfl, fun _ _ hb => hb, ?_⟩
              simpa [Option.isNone_iff_eq_none, Option.ne_none_iff_exists'] using hold
          obtain ⟨hfirstHere, hkeptHere, b, hb⟩ := hhere
          refine ⟨hfirst.trans hfirstHere, fun h c hc => hkept h c (hkeptHere h c hc), ?_⟩
          intro i hlo hhi
          by_cases heq : i = lb
          · rw [heq, hkept _ b hb]
            exact Option.some_ne_none b
          · exact hentered i (by omega) (by omega)

theorem cacheMap_prefillRegister {prompt : List Token} {cached : Nat}
    (hok : blocks.prefillRegister cfg prompt slot cached = .ok blocks') :
    blocks'.firstFit = blocks.firstFit ∧
      (∀ h b, blocks.cacheMap h = some b → blocks'.cacheMap h = some b) ∧
      ∀ i, cached ≤ i → i < prompt.length / cfg.blockSize →
        blocks'.cacheMap (cfg.chainHash prompt (i + 1)) ≠ none := by
  unfold prefillRegister at hok
  dsimp only at hok
  split at hok
  case isTrue hfull =>
    obtain rfl : blocks = blocks' := by simpa using hok
    exact ⟨rfl, fun _ _ hb => hb, by omega⟩
  case isFalse hnew =>
    obtain ⟨hfirst, hkept, hentered⟩ := cacheMap_registerBlocks _ cached _ blocks' hok
    exact ⟨hfirst, hkept, fun i hlo hhi => hentered i hlo (by omega)⟩

/-! ### Reusing a prefix -/

/-- The reuse loop passes every block whose prefix is cached. -/
theorem reuseBlocks_of_cached (cfg : PoolConfig) (prompt : List Token) (slot : Nat) :
    ∀ (count lb : Nat) (blocks : BlockState),
      (∀ i, lb < i → i ≤ lb + count → blocks.cacheMap (cfg.chainHash prompt i) ≠ none) →
      (reuseBlocks cfg prompt slot count lb (cfg.chainHash prompt lb) blocks).1 = lb + count
  | 0, _, _, _ => rfl
  | count + 1, lb, blocks, hcached => by
      obtain ⟨phys, hphys⟩ :=
        Option.ne_none_iff_exists'.mp (hcached (lb + 1) (by omega) (by omega))
      rw [reuseBlocks_succ, hphys]
      dsimp only
      rw [reuseBlocks_of_cached cfg prompt slot count (lb + 1) _ fun i hlo hhi => ?_]
      · omega
      · exact hcached i (by omega) (by omega)

end BlockState

namespace PoolConfig

variable {cfg : PoolConfig}

theorem blockTokens_append_take (prompt rest : List Token) {n lb : Nat} (hlb : lb < n)
    (hn : n * cfg.blockSize ≤ prompt.length) :
    cfg.blockTokens (prompt.take (n * cfg.blockSize) ++ rest) lb = cfg.blockTokens prompt lb := by
  have hend : lb * cfg.blockSize + cfg.blockSize ≤ n * cfg.blockSize := by
    rw [← Nat.succ_mul]
    exact Nat.mul_le_mul_right _ hlb
  unfold blockTokens
  rw [List.drop_append_of_le_length (by rw [List.length_take]; omega),
    List.take_append_of_le_length (by rw [List.length_drop, List.length_take]; omega),
    List.drop_take, List.take_take, Nat.min_eq_left (by omega)]

/-- The hash of a prefix is that of any prompt that continues it. -/
theorem chainHash_append_take (prompt rest : List Token) {n : Nat}
    (hn : n * cfg.blockSize ≤ prompt.length) :
    ∀ lb ≤ n, cfg.chainHash (prompt.take (n * cfg.blockSize) ++ rest) lb = cfg.chainHash prompt lb
  | 0, _ => rfl
  | lb + 1, hlb => by
      simp only [chainHash]
      rw [chainHash_append_take prompt rest hn lb (by omega),
        blockTokens_append_take prompt rest hlb hn]

theorem chainHash_take (prompt : List Token) {n lb : Nat} (hlb : lb ≤ n)
    (hn : n * cfg.blockSize ≤ prompt.length) :
    cfg.chainHash (prompt.take (n * cfg.blockSize)) lb = cfg.chainHash prompt lb := by
  simpa using chainHash_append_take prompt [] hn lb hlb

end PoolConfig

/-! ### Runs of the pool -/

/-- A pool run, with the prefix whose KV each block was last filled with. -/
structure TracedRun where
  run : PoolRun
  prefixOf : Nat → List Token

def TracedRun.new (cfg : PoolConfig) (firstFit : Bool) : TracedRun where
  run := PoolRun.new cfg firstFit
  prefixOf := fun _ => []

/-- The block at index `lb` of the slot that prefilled `prompt` holds the KV of the prompt's first
`lb + 1` blocks. A block that carries a hash was filled before. -/
def TracedRun.filled (cfg : PoolConfig) (prompt : List Token) (slot : Nat) (traced : TracedRun)
    (b : Nat) : List Token :=
  if traced.run.blocks.blockHash b = none then
    prompt.take (((traced.run.blocks.slotBlocks slot).idxOf b + 1) * cfg.blockSize)
  else
    traced.prefixOf b

/-- `PoolStep` on traced runs; `allows traced slot nPositions` restricts which slots may grow. -/
inductive TracedStep (cfg : PoolConfig) (allows : TracedRun → Nat → Nat → Prop)
    (traced : TracedRun) : TracedRun → Prop where
  | ensureBlocks (slot nPositions : Nat) (hslot : slot < cfg.mMax)
      (hpositions : nPositions ≤ cfg.maxSeq) (hallows : allows traced slot nPositions) :
      TracedStep cfg allows traced
        { traced with
          run := { traced.run with
            blocks := (traced.run.blocks.ensureBlocks cfg slot nPositions).2 } }
  | prefillPrefixReuse (prompt : List Token) (slot cachedLen cachedBlocks : Nat)
      (blocks : BlockState) (hslot : slot < cfg.mMax)
      (hempty : traced.run.blocks.slotBlocks slot = [])
      (hprompt : prompt ≠ []) (hlen : prompt.length ≤ cfg.maxSeq)
      (hreuse : traced.run.blocks.prefillPrefixReuse cfg prompt slot =
        ((cachedLen, cachedBlocks), blocks)) :
      TracedStep cfg allows traced
        { traced with
          run := { blocks
                   prefilling :=
                     update traced.run.prefilling slot (some (prompt, cachedBlocks)) } }
  | prefillRegister (prompt : List Token) (slot cachedBlocks : Nat) (blocks : BlockState)
      (hslot : slot < cfg.mMax)
      (hprefilling : traced.run.prefilling slot = some (prompt, cachedBlocks))
      (hregister : traced.run.blocks.prefillRegister cfg prompt slot cachedBlocks = .ok blocks) :
      TracedStep cfg allows traced
        { run := { blocks, prefilling := update traced.run.prefilling slot none }
          prefixOf := traced.filled cfg prompt slot }
  | freeSlot (slot : Nat) (hslot : slot < cfg.mMax) :
      TracedStep cfg allows traced
        { traced with
          run := { blocks := traced.run.blocks.freeSlot slot
                   prefilling := update traced.run.prefilling slot none } }
  | swapOut (slot nPositions : Nat) (saved : List Nat) (blocks : BlockState)
      (hslot : slot < cfg.mMax)
      (hswap : traced.run.blocks.swapOut cfg slot nPositions = .ok (saved, blocks)) :
      TracedStep cfg allows traced
        { traced with
          run := { blocks, prefilling := update traced.run.prefilling slot none } }
  | swapIn (slot nPositions nb : Nat) (restored : Option (List Nat)) (blocks : BlockState)
      (hslot : slot < cfg.mMax) (hpositions : nPositions ≤ cfg.maxSeq)
      (hallows : allows traced slot nPositions)
      (hswap : traced.run.blocks.swapIn cfg slot nPositions nb = .ok (restored, blocks)) :
      TracedStep cfg allows traced { traced with run := { traced.run with blocks } }

/-- Growing the slot reclaims only blocks whose prefix no other cached block continues. -/
def ReclaimsLeaves (cfg : PoolConfig) (traced : TracedRun) (slot nPositions : Nat) : Prop :=
  traced.run.blocks.GrowsAtLeaves cfg traced.prefixOf slot
    (nPositions ⌈/⌉ cfg.blockSize - (traced.run.blocks.slotBlocks slot).length)
    (traced.run.blocks.slotBlocks slot).length

/-- Every shorter prefix of a cached block's own is cached, and `prefill_prefix_reuse` gets to the
block for a prompt that continues its prefix. -/
structure PrefixesReachable (cfg : PoolConfig) (traced : TracedRun) : Prop where
  rooted : traced.run.blocks.Rooted cfg traced.prefixOf
  reached : ∀ h b, traced.run.blocks.cacheMap h = some b → ∀ slot < cfg.mMax,
    traced.run.blocks.slotBlocks slot = [] → ∀ next,
    (traced.prefixOf b).length < cfg.maxSeq →
      b ∈ (traced.run.blocks.prefillPrefixReuse cfg (traced.prefixOf b ++ [next])
        slot).2.slotBlocks slot

variable {cfg : PoolConfig} {allows : TracedRun → Nat → Nat → Prop} {traced traced' : TracedRun}
variable {slot : Nat}

theorem TracedStep.poolStep (hstep : TracedStep cfg allows traced traced') :
    PoolStep cfg traced.run traced'.run := by
  cases hstep with
  | ensureBlocks slot nPositions hslot hpositions _ =>
      exact .ensureBlocks slot nPositions hslot hpositions
  | prefillPrefixReuse prompt slot cachedLen cachedBlocks blocks hslot hempty hprompt hlen hreuse =>
      exact .prefillPrefixReuse prompt slot cachedLen cachedBlocks blocks hslot hempty hprompt hlen
        hreuse
  | prefillRegister prompt slot cachedBlocks blocks hslot hprefilling hregister =>
      exact .prefillRegister prompt slot cachedBlocks blocks hslot hprefilling hregister
  | freeSlot slot hslot => exact .freeSlot slot hslot
  | swapOut slot nPositions saved blocks hslot hswap =>
      exact .swapOut slot nPositions saved blocks hslot hswap
  | swapIn slot nPositions nb restored blocks hslot hpositions _ hswap =>
      exact .swapIn slot nPositions nb restored blocks hslot hpositions hswap

/-- Cached prefixes are rooted and entered under their own hash, and a slot in prefill holds the
cached blocks it resumes from. -/
structure TracedRun.Inv (cfg : PoolConfig) (traced : TracedRun) : Prop where
  pool : traced.run.Inv cfg
  firstFit : traced.run.blocks.firstFit = false
  rooted : traced.run.blocks.Rooted cfg traced.prefixOf
  entered : ∀ h b, traced.run.blocks.cacheMap h = some b → ∃ k, 0 < k ∧
    (traced.prefixOf b).length = k * cfg.blockSize ∧ h = cfg.chainHash (traced.prefixOf b) k
  resumed : ∀ slot prompt cached, traced.run.prefilling slot = some (prompt, cached) →
    ∀ lb < cached, ∃ b, (traced.run.blocks.slotBlocks slot)[lb]? = some b ∧
      traced.run.blocks.cacheMap (cfg.chainHash prompt (lb + 1)) = some b

theorem TracedRun.inv_new (cfg : PoolConfig) : (TracedRun.new cfg false).Inv cfg where
  pool := PoolRun.inv_new cfg false
  firstFit := rfl
  rooted := by simp [TracedRun.new, PoolRun.new, BlockState.new, Rooted]
  entered := by simp [TracedRun.new, PoolRun.new, BlockState.new]
  resumed := by simp [TracedRun.new, PoolRun.new]

/-- Growing a slot at the leaves. -/
theorem TracedRun.Inv.grow {nPositions : Nat} (hinv : traced.Inv cfg) (hslot : slot < cfg.mMax)
    (hpositions : nPositions ≤ cfg.maxSeq) (hleaves : ReclaimsLeaves cfg traced slot nPositions)
    (hpool : PoolRun.Inv cfg { traced.run with
      blocks := (traced.run.blocks.ensureBlocks cfg slot nPositions).2 }) :
    TracedRun.Inv cfg { traced with
      run := { traced.run with
        blocks := (traced.run.blocks.ensureBlocks cfg slot nPositions).2 } } := by
  have hcap : (traced.run.blocks.slotBlocks slot).length +
      (nPositions ⌈/⌉ cfg.blockSize - (traced.run.blocks.slotBlocks slot).length) ≤
        cfg.maxBlocksPerSeq := by
    have hneed := PoolConfig.ceilDiv_le_maxBlocksPerSeq hpositions
    have hlen := hinv.pool.ledger.capacity slot
    omega
  have hprunes : Prunes cfg traced.prefixOf traced.run.blocks
      (traced.run.blocks.ensureBlocks cfg slot nPositions).2 :=
    prunes_growSlot hslot _ _ _ hinv.pool.ledger rfl hcap hinv.firstFit hinv.rooted hleaves
  obtain ⟨-, hext⟩ := ensureBlocks_ledger hinv.pool.ledger hslot hpositions
  refine ⟨hpool, hprunes.firstFit, hprunes.rooted, ?_, ?_⟩
  · exact fun h b hb => hinv.entered h b (hprunes.evicts h b hb)
  · intro other prompt cached hprefill lb hlb
    obtain ⟨b, hb, hentry⟩ := hinv.resumed other prompt cached hprefill lb hlb
    have href := refcount_ne_zero_of_mem hinv.pool.ledger (List.mem_of_getElem? hb)
    refine ⟨b, ?_, hprunes.kept _ b hentry href⟩
    by_cases heq : other = slot
    · subst heq
      obtain ⟨new, hnew, -⟩ := hext.fresh
      rw [hnew]
      rw [List.getElem?_append_left (List.getElem?_eq_some_iff.mp hb).1]
      exact hb
    · rw [hext.others other heq]
      exact hb

@[simp]
theorem firstFit_freeSlot (blocks : BlockState) (slot : Nat) :
    (blocks.freeSlot slot).firstFit = blocks.firstFit := by
  refine foldl_release_frame firstFit (fun _ _ => ?_) _ _
  unfold release
  dsimp only
  split <;> rfl

theorem firstFit_reuseBlocks (cfg : PoolConfig) (prompt : List Token) (slot : Nat) :
    ∀ (count lb : Nat) (prevHash : UInt64) (blocks : BlockState),
      (reuseBlocks cfg prompt slot count lb prevHash blocks).2.firstFit = blocks.firstFit
  | 0, _, _, _ => rfl
  | count + 1, lb, prevHash, blocks => by
      simp only [reuseBlocks]
      split
      · exact firstFit_reuseBlocks cfg prompt slot count (lb + 1) _ _
      · rfl

theorem TracedRun.Inv.freeSlot (hinv : traced.Inv cfg)
    (hpool : PoolRun.Inv cfg { blocks := traced.run.blocks.freeSlot slot
                               prefilling := update traced.run.prefilling slot none }) :
    TracedRun.Inv cfg { traced with
      run := { blocks := traced.run.blocks.freeSlot slot
               prefilling := update traced.run.prefilling slot none } } := by
  refine ⟨hpool, by simpa using hinv.firstFit, ?_, by simpa using hinv.entered, ?_⟩
  · simpa [Rooted] using hinv.rooted
  · intro other prompt cached hprefill lb hlb
    have hne : other ≠ slot := by
      rintro rfl
      simp at hprefill
    simp only [update_of_ne hne, slotBlocks_freeSlot, cacheMap_freeSlot] at hprefill ⊢
    exact hinv.resumed other prompt cached hprefill lb hlb

theorem TracedRun.Inv.reuse {prompt : List Token} {cachedLen cached : Nat} {blocks : BlockState}
    (hinv : traced.Inv cfg) (hslot : slot < cfg.mMax)
    (hempty : traced.run.blocks.slotBlocks slot = []) (hlen : prompt.length ≤ cfg.maxSeq)
    (hreuse : traced.run.blocks.prefillPrefixReuse cfg prompt slot = ((cachedLen, cached), blocks))
    (hpool : PoolRun.Inv cfg
      { blocks, prefilling := update traced.run.prefilling slot (some (prompt, cached)) }) :
    TracedRun.Inv cfg { traced with
      run := { blocks
               prefilling := update traced.run.prefilling slot (some (prompt, cached)) } } := by
  obtain ⟨cached', blocks', hrun, -, -, hreuses⟩ :=
    prefillPrefixReuse_ledger prompt hinv.pool.ledger hslot hempty hlen
  have hfirst : blocks.firstFit = false := by
    have hkept := firstFit_reuseBlocks cfg prompt slot
      ((prompt.length - 1) / cfg.blockSize) 0 0 traced.run.blocks
    rw [← hinv.firstFit, ← hkept]
    exact (congrArg (fun r => r.2.firstFit) hreuse).symm
  rw [hrun] at hreuse
  obtain ⟨⟨-, rfl⟩, rfl⟩ := by simpa using hreuse
  refine ⟨hpool, hfirst, ?_, ?_, ?_⟩
  · simpa [Rooted, hreuses.cacheMap_eq] using hinv.rooted
  · simpa [hreuses.cacheMap_eq] using hinv.entered
  · intro other prompt' cached hprefill lb hlb
    simp only [hreuses.cacheMap_eq]
    by_cases heq : other = slot
    · subst heq
      obtain ⟨rfl, rfl⟩ : prompt = prompt' ∧ cached' = cached := by simpa using hprefill
      obtain ⟨new, hnew, hcount, hentries⟩ := hreuses.reused
      have hlt : lb < new.length := by omega
      refine ⟨new[lb], by simp [hnew, hempty], ?_⟩
      simpa using hentries lb new[lb] (by simp)
    · simp only [update_of_ne heq] at hprefill
      rw [hreuses.others other heq]
      exact hinv.resumed other prompt' cached hprefill lb hlb

/-- A block entered in the prefix cache was filled with the prefix that it is entered under. -/
theorem TracedRun.Inv.filled_entered {prompt : List Token} {cached i b : Nat}
    (hinv : traced.Inv cfg)
    (hprefilling : traced.run.prefilling slot = some (prompt, cached)) (hlo : cached ≤ i)
    (hb : (traced.run.blocks.slotBlocks slot)[i]? = some b) :
    traced.filled cfg prompt slot b = prompt.take ((i + 1) * cfg.blockSize) := by
  have hnone := hinv.pool.unregistered slot prompt cached hprefilling i b hlo hb
  have hplace : (traced.run.blocks.slotBlocks slot).idxOf b = i := by
    have hat : (traced.run.blocks.slotBlocks slot)[
        (traced.run.blocks.slotBlocks slot).idxOf b]? = some b := by
      rw [List.getElem?_eq_getElem (List.idxOf_lt_length_of_mem (List.mem_of_getElem? hb)),
        List.getElem_idxOf]
    exact (unhashed_place_unique hinv.pool.ledger hnone hat hb).2
  simp [TracedRun.filled, hnone, hplace]

theorem TracedRun.Inv.register {prompt : List Token} {cached : Nat} {blocks : BlockState}
    (hinv : traced.Inv cfg)
    (hprefilling : traced.run.prefilling slot = some (prompt, cached))
    (hregister : traced.run.blocks.prefillRegister cfg prompt slot cached = .ok blocks)
    (hpool : PoolRun.Inv cfg { blocks, prefilling := update traced.run.prefilling slot none }) :
    TracedRun.Inv cfg
      { run := { blocks, prefilling := update traced.run.prefilling slot none }
        prefixOf := traced.filled cfg prompt slot } := by
  have hunhashed := hinv.pool.unregistered slot prompt cached hprefilling
  obtain ⟨-, hregs⟩ := prefillRegister_ledger hinv.pool.ledger hunhashed hregister
  obtain ⟨hfirst, hkept, hnew⟩ := cacheMap_prefillRegister hregister
  have hkeptSome : ∀ h, traced.run.blocks.cacheMap h ≠ none → blocks.cacheMap h ≠ none := by
    intro h hh
    obtain ⟨c, hc⟩ := Option.ne_none_iff_exists'.mp hh
    rw [hkept h c hc]
    exact Option.some_ne_none c
  -- what was cached before keeps its prefix, and what is new was filled by this prefill
  have hcases : ∀ h b, blocks.cacheMap h = some b →
      (traced.run.blocks.cacheMap h = some b ∧
        traced.filled cfg prompt slot b = traced.prefixOf b) ∨
      ∃ i, cached ≤ i ∧ (i + 1) * cfg.blockSize ≤ prompt.length ∧
        h = cfg.chainHash prompt (i + 1) ∧
        traced.filled cfg prompt slot b = prompt.take ((i + 1) * cfg.blockSize) := by
    intro h b hb
    rw [hpool.ledger.inverse] at hb
    obtain hold | ⟨i, hlo, hhi, hi, hh⟩ := hregs.entered b h hb
    · refine Or.inl ⟨(hinv.pool.ledger.inverse h b).mpr hold, ?_⟩
      simp [TracedRun.filled, hold]
    · refine Or.inr ⟨i, hlo, ?_, hh, hinv.filled_entered hprefilling hlo hi⟩
      have hle : i + 1 ≤ prompt.length / cfg.blockSize := by omega
      exact (Nat.le_div_iff_mul_le cfg.blockSize_pos).mp hle
  refine ⟨hpool, hfirst.trans hinv.firstFit, ?_, ?_, ?_⟩
  · intro h b hb j hj hlt
    obtain ⟨hold, hsame⟩ | ⟨i, hlo, hlen, hh, hfilled⟩ := hcases h b hb
    · simp only [hsame] at hlt ⊢
      exact hkeptSome _ (hinv.rooted h b hold j hj hlt)
    · simp only [hfilled, List.length_take_of_le hlen] at hlt ⊢
      have hji : j < i + 1 := Nat.lt_of_mul_lt_mul_right hlt
      rw [PoolConfig.chainHash_take prompt hji.le hlen]
      obtain ⟨j, rfl⟩ : ∃ lb, j = lb + 1 := ⟨j - 1, by omega⟩
      by_cases hcached : j < cached
      · obtain ⟨c, -, hc⟩ := hinv.resumed slot prompt cached hprefilling j hcached
        exact hkeptSome _ (by simp [hc])
      · refine hnew j (by omega) ?_
        have hle := (Nat.le_div_iff_mul_le cfg.blockSize_pos).mpr hlen
        omega
  · intro h b hb
    obtain ⟨hold, hsame⟩ | ⟨i, hlo, hlen, hh, hfilled⟩ := hcases h b hb
    · simp only [hsame]
      exact hinv.entered h b hold
    · refine ⟨i + 1, by omega, ?_, ?_⟩
      · simp only [hfilled, List.length_take_of_le hlen]
      · simp only [hfilled, PoolConfig.chainHash_take prompt le_rfl hlen, hh]
  · intro other prompt' cached' hprefill lb hlb
    have hne : other ≠ slot := by
      rintro rfl
      simp at hprefill
    simp only [update_of_ne hne, hregs.slotBlocks_eq] at hprefill ⊢
    obtain ⟨b, hb, hentry⟩ := hinv.resumed other prompt' cached' hprefill lb hlb
    exact ⟨b, hb, hkept _ b hentry⟩

theorem TracedStep.inv (hstep : TracedStep cfg (ReclaimsLeaves cfg) traced traced')
    (hinv : traced.Inv cfg) : traced'.Inv cfg := by
  have hpool : traced'.run.Inv cfg := hstep.poolStep.inv hinv.pool
  cases hstep with
  | ensureBlocks slot nPositions hslot hpositions hleaves =>
      exact hinv.grow hslot hpositions hleaves hpool
  | prefillPrefixReuse prompt slot cachedLen cachedBlocks blocks hslot hempty _ hlen hreuse =>
      exact hinv.reuse hslot hempty hlen hreuse hpool
  | prefillRegister prompt slot cachedBlocks blocks _ hprefilling hregister =>
      exact hinv.register hprefilling hregister hpool
  | freeSlot slot hslot => exact hinv.freeSlot hpool
  | swapOut slot nPositions saved blocks hslot hswap =>
      obtain rfl := swapOut_eq hswap
      exact hinv.freeSlot hpool
  | swapIn slot nPositions nb restored blocks hslot hpositions hleaves hswap =>
      obtain rfl := swapIn_eq hswap
      exact hinv.grow hslot hpositions hleaves hpool

theorem TracedRun.Inv.prefixesReachable (hinv : traced.Inv cfg) :
    PrefixesReachable cfg traced where
  rooted := hinv.rooted
  reached := by
    intro h b hb slot hslot hempty next hlt
    obtain ⟨k, hpos, hlen, rfl⟩ := hinv.entered h b hb
    have hprompt : (traced.prefixOf b ++ [next]).length ≤ cfg.maxSeq := by simpa using hlt
    obtain ⟨cached, blocks', hrun, -, -, hreuses⟩ :=
      prefillPrefixReuse_ledger (traced.prefixOf b ++ [next]) hinv.pool.ledger hslot hempty hprompt
    have hhash : ∀ i ≤ k, cfg.chainHash (traced.prefixOf b ++ [next]) i =
        cfg.chainHash (traced.prefixOf b) i := by
      intro i hi
      have := PoolConfig.chainHash_append_take (traced.prefixOf b) [next] hlen.ge i hi
      rwa [← hlen, List.take_length] at this
    have hcount : ((traced.prefixOf b ++ [next]).length - 1) / cfg.blockSize = k := by
      rw [List.length_append, List.length_singleton, Nat.add_sub_cancel, hlen]
      exact Nat.mul_div_cancel k cfg.blockSize_pos
    have hall : cached = k := by
      have hreused : (reuseBlocks cfg (traced.prefixOf b ++ [next]) slot k 0 0
          traced.run.blocks).1 = 0 + k := by
        refine reuseBlocks_of_cached cfg _ slot k 0 traced.run.blocks fun i hi hik => ?_
        rw [hhash i (by omega)]
        by_cases heq : i = k
        · simp [heq, hb]
        · apply hinv.rooted _ b hb i hi
          rw [hlen]
          exact Nat.mul_lt_mul_of_pos_right (by omega) cfg.blockSize_pos
      have hsame := congrArg (fun r => r.1.2) hrun
      simp only [prefillPrefixReuse, hcount] at hsame
      omega
    subst hall
    obtain ⟨new, hnew, hnewLen, hentries⟩ := hreuses.reused
    have hlast : new[cached - 1]? = some new[cached - 1] := by simp
    have hentry := hentries (cached - 1) _ hlast
    rw [show 0 + (cached - 1) + 1 = cached by omega, hhash cached le_rfl, hb] at hentry
    rw [hrun, hnew, hempty, List.nil_append, Option.some.inj hentry]
    exact List.getElem_mem _

/-- **Reachable prefixes.** As long as every reclaimed block is a leaf, the cached prefixes stay
reachable. -/
theorem prefixes_reachable
    (hreach : Relation.ReflTransGen (TracedStep cfg (ReclaimsLeaves cfg))
      (TracedRun.new cfg false) traced) : PrefixesReachable cfg traced := by
  have hinv : traced.Inv cfg := by
    induction hreach with
    | refl => exact TracedRun.inv_new cfg
    | tail _ hstep ih => exact hstep.inv ih
  exact hinv.prefixesReachable

theorem prefixes_reachable_tinyPool : ∃ traced,
    traced.run.blocks.cacheMap (tinyPool.chainHash [5] 1) = some 0 ∧
    traced.run.blocks.cacheMap (tinyPool.chainHash [5, 6] 2) = none ∧
    PrefixesReachable tinyPool traced := by
  have hreused : Relation.ReflTransGen (TracedStep tinyPool (ReclaimsLeaves tinyPool))
      (TracedRun.new tinyPool false) _ :=
    ((((Relation.ReflTransGen.single
      (.prefillPrefixReuse [5, 6] 0 0 0 _ (by decide) rfl (by decide) (by decide) rfl)).tail
      (.ensureBlocks 0 2 (by decide) (by decide) (growsAtLeaves_of_free _ _ _ (by decide)))).tail
      (.prefillRegister [5, 6] 0 0 _ (by decide) rfl rfl)).tail
      (.freeSlot 0 (by decide))).tail
      (.prefillPrefixReuse [5, 9] 0 1 1 _ (by decide) rfl (by decide) (by decide) rfl)
  have hledger := (PoolRun.inv_of_reachable (hreused.lift TracedRun.run
    fun _ _ hstep => hstep.poolStep)).ledger
  refine ⟨_, ?_, ?_, prefixes_reachable (hreused.tail
    (.ensureBlocks 0 2 (by decide) (by decide) ⟨fun _ b hb hidle holdest => ?_, fun _ _ _ => trivial⟩))⟩
  · decide
  · decide
  · apply not_ancestor_of_length hledger
    clear holdest
    revert b
    decide
/-- A prompt of two blocks, freed, leaves its root the oldest block of the cache: the next
allocation evicts the root and strands the second block. -/
theorem tinyPool_drops_root : ¬∀ traced,
    Relation.ReflTransGen (TracedStep tinyPool fun _ _ _ => True) (TracedRun.new tinyPool false)
      traced → PrefixesReachable tinyPool traced := by
  intro hall
  have hrooted := (hall _ (((((Relation.ReflTransGen.single
    (.prefillPrefixReuse [5, 6] 0 0 0 _ (by decide) rfl (by decide) (by decide) rfl)).tail
    (.ensureBlocks 0 2 (by decide) (by decide) trivial)).tail
    (.prefillRegister [5, 6] 0 0 _ (by decide) rfl rfl)).tail
    (.freeSlot 0 (by decide))).tail
    (.ensureBlocks 0 1 (by decide) (by decide) trivial))).rooted
  exact hrooted (tinyPool.chainHash [5, 6] 2) 1 (by decide) 1 (by decide) (by decide) (by decide)

end Zllm.Gpu

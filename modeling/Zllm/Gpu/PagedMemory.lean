import Zllm.Gpu.BatcherRun

/-!
# The paged memory

The device of a paged KV pool: a row is written to the physical block that the block table names,
and the kernel of a row sees nothing but the pool and the table. Beside the pool the memory keeps
every block it wrote, with the block state of that moment, and every prompt whose prefixes were
hashed.
-/

namespace Zllm.Gpu

open Function (update update_of_ne update_self)
open BlockState

variable {V L : Type}

/-- What each row of each physical block holds. -/
abbrev Pool (V : Type) := Nat → Nat → V

/-- Block `block` was written on behalf of `slot`. -/
structure BlockWrite where
  blocks : BlockState
  slot : Nat
  block : Nat

structure PagedMemory (V : Type) where
  pool : Pool V
  writes : List BlockWrite
  hashed : List (List Token)

def PagedMemory.new (pool : Pool V) : PagedMemory V where
  pool := pool
  writes := []
  hashed := []

/-- The blocks of a sequence on the host, with the prompts that were hashed until then. -/
structure SavedBlocks (V : Type) where
  rows : List (Nat → V)
  hashed : List (List Token)

structure PagedKernels (V L : Type) where
  forwardRow : PoolConfig → BlockState → Pool V → Row → V × L
  argmax : L → Token
  gumbel : L → (temp : ℚ) → (seed : UInt32) → Token
  sampleTopk : L → SamplingParams → (seed : UInt32) → Token

/-- The physical block of `pos` in the uploaded block table. -/
def tableBlock (cfg : PoolConfig) (blocks : BlockState) (slot pos : Nat) : Nat :=
  blocks.tableHost (slot * cfg.maxBlocksPerSeq + pos / cfg.blockSize)

/-- Each of the blocks takes the rows at its place in the other list. -/
def writeBlocks : Pool V → (phys : List Nat) → (rows : List (Nat → V)) → Pool V
  | pool, b :: phys, block :: rows => writeBlocks (update pool b block) phys rows
  | pool, [], _ => pool
  | pool, _ :: _, [] => pool

def PagedKernels.device (kernels : PagedKernels V L) :
    Device (PagedMemory V) (SavedBlocks V) L where
  forwardRow := fun cfg blocks mem row =>
    let (value, logits) := kernels.forwardRow cfg blocks mem.pool row
    let b := tableBlock cfg blocks row.slot row.pos
    ({ mem with
        pool := update mem.pool b (update (mem.pool b) (row.pos % cfg.blockSize) value)
        writes := ⟨blocks, row.slot, b⟩ :: mem.writes },
      logits)
  copyOut := fun _ mem _ phys _ => ⟨phys.map mem.pool, mem.hashed⟩
  copyIn := fun _ blocks mem slot phys saved =>
    { pool := writeBlocks mem.pool phys saved.rows
      writes := phys.map (⟨blocks, slot, ·⟩) ++ mem.writes
      hashed := saved.hashed ++ mem.hashed }
  adopt := fun mem _ prompt _ => { mem with hashed := prompt :: mem.hashed }
  publish := fun mem prompt => { mem with hashed := prompt :: mem.hashed }
  argmax := kernels.argmax
  gumbel := kernels.gumbel
  sampleTopk := kernels.sampleTopk

/-! ### What the pool is meant to hold -/

/-- Row `pos` of `slot` holds `value`, where the slot's own block list places it. -/
def HoldsRow (cfg : PoolConfig) (blocks : BlockState) (pool : Pool V) (slot pos : Nat)
    (value : V) : Prop :=
  ∃ b, (blocks.slotBlocks slot)[pos / cfg.blockSize]? = some b ∧
    pool b (pos % cfg.blockSize) = value

/-- Block `b` holds the KV of logical block `lb` of `prompt`. -/
def BlockHolds (kvOf : List Token → V) (cfg : PoolConfig) (pool : Pool V) (b : Nat)
    (prompt : List Token) (lb : Nat) : Prop :=
  ∀ offset < cfg.blockSize, pool b offset = kvOf (prompt.take (lb * cfg.blockSize + offset + 1))

/-- No two of the prefixes that the given prompts consist of have one hash. -/
def CollisionFree (cfg : PoolConfig) (prompts : List (List Token)) : Prop :=
  ∀ left ∈ prompts, ∀ right ∈ prompts,
    ∀ i < left.length / cfg.blockSize, ∀ j < right.length / cfg.blockSize,
      cfg.chainHash left (i + 1) = cfg.chainHash right (j + 1) →
        left.take ((i + 1) * cfg.blockSize) = right.take ((j + 1) * cfg.blockSize)

/-- The kernel of a row computes the KV of the row's own prefix from the rows before it. -/
def PagedKernels.Computes (kernels : PagedKernels V L) (kvOf : List Token → V) : Prop :=
  ∀ (cfg : PoolConfig) (blocks : BlockState) (pool : Pool V) (row : Row) (tokens : List Token),
    row.pos = tokens.length →
    (∀ pos < tokens.length, pool (tableBlock cfg blocks row.slot pos) (pos % cfg.blockSize) =
      kvOf (tokens.take (pos + 1))) →
    (kernels.forwardRow cfg blocks pool row).1 = kvOf (tokens ++ [row.tok])

/-- The written block is in nobody else's hands. -/
structure BlockWrite.Private (write : BlockWrite) : Prop where
  uncached : ∀ h, write.blocks.cacheMap h ≠ some write.block
  unshared : ∀ other, other ≠ write.slot → write.block ∉ write.blocks.slotBlocks other

structure Contents (kvOf : List Token → V) (cfg : PoolConfig) (blocks : BlockState)
    (mem : PagedMemory V) (kv : Nat → SlotKv) : Prop where
  rows : ∀ slot, ∀ pos < (kv slot).tokens.length,
    HoldsRow cfg blocks mem.pool slot pos (kvOf ((kv slot).tokens.take (pos + 1)))
  entries : ∀ b h, blocks.blockHash b = some h →
    ∃ prompt ∈ mem.hashed, ∃ lb < prompt.length / cfg.blockSize,
      cfg.chainHash prompt (lb + 1) = h ∧ BlockHolds kvOf cfg mem.pool b prompt lb

/-! ### Blocks and hashes -/

section

variable {cfg : PoolConfig} {blocks blocks' : BlockState} {pool : Pool V} {b slot pos lb : Nat}
  {phys : List Nat} {rows : List (Nat → V)} {prompt : List Token} {h : UInt64}
  {prompts prompts' : List (List Token)} {kvOf : List Token → V} {mem : PagedMemory V}
  {kv kv' : Nat → SlotKv}

theorem writeBlocks_of_notMem (hb : b ∉ phys) : writeBlocks pool phys rows b = pool b := by
  induction phys generalizing pool rows with
  | nil => rfl
  | cons c phys ih =>
      simp only [List.mem_cons, not_or] at hb
      cases rows with
      | nil => rfl
      | cons block rows => rw [writeBlocks, ih hb.2, update_of_ne hb.1]

theorem writeBlocks_getElem {block : Nat → V} {i : Nat} (hnodup : phys.Nodup)
    (hb : phys[i]? = some b) (hblock : rows[i]? = some block) :
    writeBlocks pool phys rows b = block := by
  induction phys generalizing pool rows i with
  | nil => cases hb
  | cons c phys ih =>
      rw [List.nodup_cons] at hnodup
      cases rows with
      | nil => cases hblock
      | cons first rows =>
          rw [writeBlocks]
          cases i with
          | zero =>
              obtain rfl := Option.some.inj hb
              obtain rfl := Option.some.inj hblock
              rw [writeBlocks_of_notMem hnodup.1, update_self]
          | succ i => exact ih hnodup.2 hb hblock

theorem CollisionFree.mono (hfree : CollisionFree cfg prompts) (hsub : prompts' ⊆ prompts) :
    CollisionFree cfg prompts' :=
  fun left hleft right hright => hfree left (hsub hleft) right (hsub hright)

/-- The hash of a prefix finds a block with the KV of that prefix. -/
theorem Contents.blockHolds (hcontents : Contents kvOf cfg blocks mem kv)
    (hfree : CollisionFree cfg prompts) (hhashed : mem.hashed ⊆ prompts) (hprompt : prompt ∈ prompts)
    (hlb : lb < prompt.length / cfg.blockSize)
    (hentry : blocks.blockHash b = some (cfg.chainHash prompt (lb + 1))) :
    BlockHolds kvOf cfg mem.pool b prompt lb := by
  obtain ⟨other, hother, i, hi, hhash, hblock⟩ := hcontents.entries b _ hentry
  have htake := hfree other (hhashed hother) prompt hprompt i hi lb hlb hhash
  have hleft : (i + 1) * cfg.blockSize ≤ other.length :=
    (Nat.le_div_iff_mul_le cfg.blockSize_pos).mp hi
  have hright : (lb + 1) * cfg.blockSize ≤ prompt.length :=
    (Nat.le_div_iff_mul_le cfg.blockSize_pos).mp hlb
  have hindex : i = lb := by
    have hlength := congrArg List.length htake
    rw [List.length_take_of_le hleft, List.length_take_of_le hright] at hlength
    have := Nat.eq_of_mul_eq_mul_right cfg.blockSize_pos hlength
    omega
  subst hindex
  intro offset hoffset
  have hinside : i * cfg.blockSize + offset + 1 ≤ (i + 1) * cfg.blockSize := by
    rw [Nat.succ_mul]
    omega
  rw [hblock offset hoffset]
  calc kvOf (other.take (i * cfg.blockSize + offset + 1))
      = kvOf ((other.take ((i + 1) * cfg.blockSize)).take (i * cfg.blockSize + offset + 1)) := by
        rw [List.take_take, Nat.min_eq_left hinside]
    _ = kvOf (prompt.take (i * cfg.blockSize + offset + 1)) := by
        rw [htake, List.take_take, Nat.min_eq_left hinside]

/-- An unregistered block of a slot may be written for that slot. -/
theorem private_of_unregistered (hledger : Ledger cfg [] blocks)
    (hb : (blocks.slotBlocks slot)[lb]? = some b) (hhash : blocks.blockHash b = none) :
    BlockWrite.Private ⟨blocks, slot, b⟩ where
  uncached := by
    intro h hentry
    rw [hledger.inverse] at hentry
    simp [hhash] at hentry
  unshared := by
    intro other hother hmem
    obtain ⟨i, hi⟩ := List.getElem?_of_mem hmem
    exact hother (unhashed_place_unique hledger hhash hb hi).1.symm

theorem HoldsRow.table {value : V} (hrow : HoldsRow cfg blocks pool slot pos value)
    (hledger : Ledger cfg [] blocks) :
    pool (tableBlock cfg blocks slot pos) (pos % cfg.blockSize) = value := by
  obtain ⟨b, hb, hvalue⟩ := hrow
  rw [tableBlock, hledger.table slot _ b hb, hvalue]

theorem HoldsRow.congr {value : V} (hrow : HoldsRow cfg blocks pool slot pos value)
    (hlt : pos / cfg.blockSize < (blocks.slotBlocks slot).length → (blocks'.slotBlocks slot)[pos / cfg.blockSize]? =
      (blocks.slotBlocks slot)[pos / cfg.blockSize]?) :
    HoldsRow cfg blocks' pool slot pos value := by
  obtain ⟨b, hb, hvalue⟩ := hrow
  obtain ⟨hinside, -⟩ := List.getElem?_eq_some_iff.mp hb
  exact ⟨b, (hlt hinside).trans hb, hvalue⟩

/-! ### What happens to the pool -/

theorem Contents.truncate (hcontents : Contents kvOf cfg blocks mem kv)
    (hinitial : ∀ slot, (kv' slot).tokens <+: (kv slot).tokens) :
    Contents kvOf cfg blocks mem kv' := by
  refine ⟨fun slot pos hpos => ?_, hcontents.entries⟩
  have hkept := hcontents.rows slot pos (hpos.trans_le (hinitial slot).length_le)
  obtain ⟨rest, hrest⟩ := hinitial slot
  rwa [← hrest, List.take_append_of_le_length hpos] at hkept

theorem Contents.extends (hcontents : Contents kvOf cfg blocks mem kv)
    (hext : Extends slot blocks blocks') : Contents kvOf cfg blocks' mem kv := by
  obtain ⟨new, hnew, -⟩ := hext.fresh
  refine ⟨fun other pos hpos => ?_, fun b h hentry => hcontents.entries b h (hext.evicts b h hentry)⟩
  apply (hcontents.rows other pos hpos).congr
  intro hinside
  by_cases heq : other = slot
  · subst heq
    rw [hnew, List.getElem?_append_left hinside]
  · rw [hext.others other heq]

theorem Contents.freeSlot (hcontents : Contents kvOf cfg blocks mem kv) :
    Contents kvOf cfg (blocks.freeSlot slot) mem (update kv slot SlotKv.empty) := by
  refine ⟨fun other pos hpos => ?_, fun b h hentry => hcontents.entries b h ?_⟩
  · by_cases heq : other = slot
    · simp [heq, SlotKv.empty] at hpos
    · rw [update_of_ne heq] at hpos ⊢
      apply (hcontents.rows other pos hpos).congr
      simp [heq]
  · simpa using hentry

/-- Writes to unregistered blocks of `slot` leave the other slots and the cached blocks alone. -/
theorem Contents.write {mem' : PagedMemory V} {written : List Nat}
    (hcontents : Contents kvOf cfg blocks mem kv) (hledger : Ledger cfg [] blocks)
    (hwritten : ∀ b ∈ written, b ∈ blocks.slotBlocks slot ∧ blocks.blockHash b = none)
    (hpool : ∀ b, b ∉ written → mem'.pool b = mem.pool b) (hhashed : mem.hashed ⊆ mem'.hashed)
    (hothers : ∀ other, other ≠ slot → kv' other = kv other)
    (hrows : ∀ pos < (kv' slot).tokens.length,
      HoldsRow cfg blocks mem'.pool slot pos (kvOf ((kv' slot).tokens.take (pos + 1)))) :
    Contents kvOf cfg blocks mem' kv' := by
  refine ⟨fun other pos hpos => ?_, fun b h hentry => ?_⟩
  · by_cases heq : other = slot
    · subst heq
      exact hrows pos hpos
    · rw [hothers other heq] at hpos ⊢
      obtain ⟨b, hb, hvalue⟩ := hcontents.rows other pos hpos
      refine ⟨b, hb, ?_⟩
      rw [hpool b, hvalue]
      intro hmem
      obtain ⟨hplace, hhash⟩ := hwritten b hmem
      obtain ⟨i, hi⟩ := List.getElem?_of_mem hplace
      exact heq (unhashed_place_unique hledger hhash hb hi).1
  · obtain ⟨prompt, hprompt, lb, hlb, hhash, hblock⟩ := hcontents.entries b h hentry
    refine ⟨prompt, hhashed hprompt, lb, hlb, hhash, fun offset hoffset => ?_⟩
    rw [hpool b, hblock offset hoffset]
    intro hmem
    simp [(hwritten b hmem).2] at hentry

/-- The rows that a slot holds stay where they are when the row after them is written. -/
theorem holdsRow_append {value : V} {tokens : List Token} {tok : Token} {last : Nat}
    (hlast : last = tokens.length) (hledger : Ledger cfg [] blocks)
    (hb : (blocks.slotBlocks slot)[last / cfg.blockSize]? = some b)
    (hhash : blocks.blockHash b = none)
    (hrows : ∀ pos < tokens.length,
      HoldsRow cfg blocks pool slot pos (kvOf (tokens.take (pos + 1))))
    (hvalue : value = kvOf (tokens ++ [tok])) :
    ∀ pos < (tokens ++ [tok]).length,
      HoldsRow cfg blocks (update pool b (update (pool b) (last % cfg.blockSize) value)) slot pos
        (kvOf ((tokens ++ [tok]).take (pos + 1))) := by
  intro pos hpos
  rw [List.length_append, List.length_singleton, ← hlast] at hpos
  rcases Nat.lt_succ_iff_lt_or_eq.mp hpos with hbefore | rfl
  · obtain ⟨c, hc, hheld⟩ := hrows pos (hlast ▸ hbefore)
    refine ⟨c, hc, ?_⟩
    rw [List.take_append_of_le_length (hlast ▸ hbefore), ← hheld]
    by_cases hsame : c = b
    · subst hsame
      obtain ⟨-, hblock⟩ := unhashed_place_unique hledger hhash hc hb
      have hoffset : pos % cfg.blockSize ≠ last % cfg.blockSize := by
        intro hoffset
        have := Nat.div_add_mod pos cfg.blockSize
        have := Nat.div_add_mod last cfg.blockSize
        rw [hblock, hoffset] at *
        omega
      rw [update_self, update_of_ne hoffset]
    · rw [update_of_ne hsame]
  · refine ⟨b, hb, ?_⟩
    rw [update_self, update_self, hvalue, List.take_of_length_le (by simp [hlast])]

/-- The blocks found under the hashes of a prompt hold its prefix. -/
theorem Contents.adopt {cached : Nat} (hcontents : Contents kvOf cfg blocks mem kv)
    (hledger : Ledger cfg [] blocks) (hfree : CollisionFree cfg (prompt :: mem.hashed))
    (hempty : blocks.slotBlocks slot = []) (hlen : cached * cfg.blockSize ≤ prompt.length)
    (hreuse : Reuses cfg prompt slot 0 cached blocks blocks') {sealed : Nat} :
    Contents kvOf cfg blocks' { mem with hashed := prompt :: mem.hashed }
      (update kv slot ⟨prompt.take (cached * cfg.blockSize), sealed⟩) := by
  obtain ⟨new, hnew, hcount, hfound⟩ := hreuse.reused
  rw [hempty, List.nil_append] at hnew
  refine ⟨fun other pos hpos => ?_, fun b h hentry => ?_⟩
  · by_cases heq : other = slot
    · subst heq
      rw [update_self] at hpos ⊢
      rw [List.length_take_of_le hlen] at hpos
      have hblock : pos / cfg.blockSize < cached :=
        (Nat.div_lt_iff_lt_mul cfg.blockSize_pos).mpr hpos
      have hlb : pos / cfg.blockSize < new.length := by omega
      refine ⟨new[pos / cfg.blockSize], by rw [hnew, List.getElem?_eq_getElem hlb], ?_⟩
      have hentry := hfound _ _ (List.getElem?_eq_getElem hlb)
      rw [hledger.inverse, Nat.zero_add] at hentry
      have hinside : pos / cfg.blockSize < prompt.length / cfg.blockSize :=
        hblock.trans_le ((Nat.le_div_iff_mul_le cfg.blockSize_pos).mpr hlen)
      have hvalue := hcontents.blockHolds hfree (List.subset_cons_self _ _) List.mem_cons_self
        hinside hentry (pos % cfg.blockSize) (Nat.mod_lt _ cfg.blockSize_pos)
      rw [Nat.div_add_mod'] at hvalue
      rw [hvalue, List.take_take, Nat.min_eq_left hpos]
    · rw [update_of_ne heq] at hpos ⊢
      apply (hcontents.rows other pos hpos).congr
      rw [hreuse.others other heq]
      exact fun _ => rfl
  · rw [hreuse.blockHash_eq] at hentry
    obtain ⟨other, hother, hrest⟩ := hcontents.entries b h hentry
    exact ⟨other, List.mem_cons_of_mem _ hother, hrest⟩

theorem Contents.publish {cached sealed : Nat} (hcontents : Contents kvOf cfg blocks mem kv)
    (htokens : (kv slot).tokens = prompt)
    (hregs : Registers cfg prompt slot cached (prompt.length / cfg.blockSize - cached)
      blocks blocks') :
    Contents kvOf cfg blocks' { mem with hashed := prompt :: mem.hashed }
      (update kv slot ⟨prompt, sealed⟩) := by
  have hrows := hcontents.rows slot
  rw [htokens] at hrows
  refine ⟨fun other pos hpos => ?_, fun b h hentry => ?_⟩
  · have htokens' : (update kv slot ⟨prompt, sealed⟩ other).tokens = (kv other).tokens := by
      by_cases heq : other = slot
      · rw [heq, update_self, htokens]
      · rw [update_of_ne heq]
    rw [htokens'] at hpos ⊢
    apply (hcontents.rows other pos hpos).congr
    rw [hregs.slotBlocks_eq]
    exact fun _ => rfl
  · obtain hold | ⟨i, hfrom, hto, hb, rfl⟩ := hregs.entered b h hentry
    · obtain ⟨other, hother, hrest⟩ := hcontents.entries b h hold
      exact ⟨other, List.mem_cons_of_mem _ hother, hrest⟩
    · have hi : i < prompt.length / cfg.blockSize := by omega
      refine ⟨prompt, List.mem_cons_self, i, hi, rfl, fun offset hoffset => ?_⟩
      have hend : (i + 1) * cfg.blockSize ≤ prompt.length :=
        (Nat.le_div_iff_mul_le cfg.blockSize_pos).mp hi
      have hpos : i * cfg.blockSize + offset < prompt.length := by
        rw [Nat.succ_mul] at hend
        omega
      obtain ⟨c, hc, hvalue⟩ := hrows _ hpos
      rw [Nat.mul_comm, Nat.mul_add_div cfg.blockSize_pos, Nat.div_eq_of_lt hoffset, Nat.add_zero,
        hb, Option.some.injEq] at hc
      rw [Nat.mul_comm, Nat.mul_add_mod, Nat.mod_eq_of_lt hoffset, ← hc] at hvalue
      rw [hvalue, Nat.mul_comm]

/-! ### Swapped sequences -/

/-- The host blocks hold the KV of `tokens`. -/
def SavedHolds (kvOf : List Token → V) (cfg : PoolConfig) (saved : SavedBlocks V)
    (tokens : List Token) : Prop :=
  ∀ pos < tokens.length, ∃ rows, saved.rows[pos / cfg.blockSize]? = some rows ∧
    rows (pos % cfg.blockSize) = kvOf (tokens.take (pos + 1))

theorem Contents.savedHolds {nPos : Nat} (hcontents : Contents kvOf cfg blocks mem kv)
    (hle : nPos ≤ (kv slot).tokens.length) :
    SavedHolds kvOf cfg
      ⟨((blocks.slotBlocks slot).take (nPos ⌈/⌉ cfg.blockSize)).map mem.pool, mem.hashed⟩
      ((kv slot).tokens.take nPos) := by
  intro pos hpos
  rw [List.length_take_of_le hle] at hpos
  obtain ⟨b, hb, hvalue⟩ := hcontents.rows slot pos (hpos.trans_le hle)
  refine ⟨mem.pool b, ?_, ?_⟩
  · have hinside : pos / cfg.blockSize < nPos ⌈/⌉ cfg.blockSize := by
      rw [Nat.div_lt_iff_lt_mul cfg.blockSize_pos, Nat.mul_comm]
      exact hpos.trans_le ((ceilDiv_le_iff_le_mul cfg.blockSize_pos).mp le_rfl)
    rw [List.getElem?_map, List.getElem?_take_of_lt hinside, hb, Option.map_some]
  · rw [hvalue, List.take_take, Nat.min_eq_left hpos]

/-- The blocks of a slot that registered none of them are distinct. -/
theorem nodup_slotBlocks (hledger : Ledger cfg [] blocks)
    (hhash : ∀ b ∈ blocks.slotBlocks slot, blocks.blockHash b = none) :
    (blocks.slotBlocks slot).Nodup := by
  rw [List.nodup_iff_getElem?_ne_getElem?]
  intro i j hlt hj heq
  have hb := List.getElem?_eq_getElem hj
  have hplace := unhashed_place_unique hledger (hhash _ (List.getElem_mem hj)) (heq.trans hb) hb
  exact hlt.ne hplace.2

theorem holdsRow_writeBlocks {saved : SavedBlocks V} {tokens : List Token} {nb : Nat}
    (hsaved : SavedHolds kvOf cfg saved tokens) (hnodup : (blocks.slotBlocks slot).Nodup)
    (hnb : tokens.length ≤ nb * cfg.blockSize) (hle : nb ≤ (blocks.slotBlocks slot).length) :
    ∀ pos < tokens.length,
      HoldsRow cfg blocks
        (writeBlocks pool ((blocks.slotBlocks slot).take nb) saved.rows) slot pos
        (kvOf (tokens.take (pos + 1))) := by
  intro pos hpos
  obtain ⟨rows, hrows, hvalue⟩ := hsaved pos hpos
  have hinside : pos / cfg.blockSize < nb :=
    (Nat.div_lt_iff_lt_mul cfg.blockSize_pos).mpr (hpos.trans_le hnb)
  obtain ⟨b, hb⟩ : ∃ b, (blocks.slotBlocks slot)[pos / cfg.blockSize]? = some b :=
    ⟨_, List.getElem?_eq_getElem (hinside.trans_le hle)⟩
  refine ⟨b, hb, ?_⟩
  rw [writeBlocks_getElem (hnodup.sublist (List.take_sublist _ _)) _ hrows, hvalue]
  rwa [List.getElem?_take_of_lt hinside]

end

/-! ### The memory holds its contents -/

/-- As long as the hashed prefixes do not collide. -/
def PagedHolds (kvOf : List Token → V) (cfg : PoolConfig) (blocks : BlockState)
    (mem : PagedMemory V) (kv : Nat → SlotKv) : Prop :=
  (∀ write ∈ mem.writes, write.Private) ∧
    (CollisionFree cfg mem.hashed → Contents kvOf cfg blocks mem kv)

section

variable {kernels : PagedKernels V L} {kvOf : List Token → V} {cfg : PoolConfig}
  {blocks : BlockState} {mem : PagedMemory V} {kv : Nat → SlotKv} {slot : Nat}

theorem PagedHolds.forwardRow {row : Row} (hcomputes : kernels.Computes kvOf)
    (hres : Resident cfg blocks kv) (hholds : PagedHolds kvOf cfg blocks mem kv)
    (hpos : row.pos = (kv row.slot).tokens.length)
    (hblock : row.pos / cfg.blockSize < (blocks.slotBlocks row.slot).length) :
    PagedHolds kvOf cfg blocks (kernels.device.forwardRow cfg blocks mem row).1
      (appendRow kv row) := by
  have hb := List.getElem?_eq_getElem hblock
  have htable : tableBlock cfg blocks row.slot row.pos =
      (blocks.slotBlocks row.slot)[row.pos / cfg.blockSize] := hres.ledger.table row.slot _ _ hb
  rw [← htable] at hb
  have hsealed : (kv row.slot).sealed < (row.pos / cfg.blockSize + 1) * cfg.blockSize := by
    have hle := hres.sealed_le row.slot
    have hlt : row.pos < row.pos / cfg.blockSize * cfg.blockSize + cfg.blockSize :=
      Nat.lt_div_mul_add cfg.blockSize_pos
    rw [Nat.succ_mul]
    omega
  have hhash := hres.unregistered hsealed hb
  refine ⟨?_, fun hfree => ?_⟩
  · intro write hwrite
    rcases List.mem_cons.mp hwrite with rfl | hwrite
    · exact private_of_unregistered hres.ledger hb hhash
    · exact hholds.1 write hwrite
  · have hcontents := hholds.2 hfree
    have hvalue : (kernels.forwardRow cfg blocks mem.pool row).1 =
        kvOf ((kv row.slot).tokens ++ [row.tok]) :=
      hcomputes cfg blocks mem.pool row _ hpos fun pos hlt =>
        (hcontents.rows row.slot pos hlt).table hres.ledger
    have hwritten : ∀ b ∈ [tableBlock cfg blocks row.slot row.pos],
        b ∈ blocks.slotBlocks row.slot ∧ blocks.blockHash b = none := by
      simpa using ⟨List.mem_of_getElem? hb, hhash⟩
    apply hcontents.write hres.ledger hwritten
    · intro b hb
      rw [List.mem_singleton] at hb
      exact update_of_ne hb _ _
    · exact List.Subset.refl _
    · intro other hother
      exact update_of_ne hother _ _
    · rw [appendRow, update_self]
      exact holdsRow_append hpos hres.ledger hb hhash (hcontents.rows row.slot) hvalue

theorem PagedHolds.copyIn {tokens : List Token} {host : HostKv (SavedBlocks V)}
    (hres : Resident cfg blocks kv) (hholds : PagedHolds kvOf cfg blocks mem kv)
    (hsaved : CollisionFree cfg host.data.hashed → SavedHolds kvOf cfg host.data tokens)
    (hempty : kv slot = SlotKv.empty) (hnPos : host.nPos = tokens.length)
    (hnb : host.nb = host.nPos ⌈/⌉ cfg.blockSize)
    (hle : host.nb ≤ (blocks.slotBlocks slot).length) :
    PagedHolds kvOf cfg blocks
      (kernels.device.copyIn cfg blocks mem slot ((blocks.slotBlocks slot).take host.nb) host.data)
      (update kv slot ⟨tokens, 0⟩) := by
  have hhash : ∀ b ∈ blocks.slotBlocks slot, blocks.blockHash b = none := by
    intro b hb
    obtain ⟨lb, hlb⟩ := List.getElem?_of_mem hb
    have hsealed : (kv slot).sealed < (lb + 1) * cfg.blockSize := by
      rw [hempty]
      exact Nat.mul_pos (Nat.succ_pos lb) cfg.blockSize_pos
    exact hres.unregistered hsealed hlb
  refine ⟨?_, fun hfree => ?_⟩
  · intro write hwrite
    rcases List.mem_append.mp hwrite with hwrite | hwrite
    · obtain ⟨b, hb, rfl⟩ := List.mem_map.mp hwrite
      have hmem := List.mem_of_mem_take hb
      obtain ⟨lb, hlb⟩ := List.getElem?_of_mem hmem
      exact private_of_unregistered hres.ledger hlb (hhash b hmem)
    · exact hholds.1 write hwrite
  · have hcontents := hholds.2 (hfree.mono (List.subset_append_right _ _))
    have hfits : tokens.length ≤ host.nb * cfg.blockSize := by
      rw [hnb, hnPos, Nat.mul_comm]
      exact (ceilDiv_le_iff_le_mul cfg.blockSize_pos).mp le_rfl
    have hwritten : ∀ b ∈ (blocks.slotBlocks slot).take host.nb,
        b ∈ blocks.slotBlocks slot ∧ blocks.blockHash b = none := fun b hb =>
      ⟨List.mem_of_mem_take hb, hhash b (List.mem_of_mem_take hb)⟩
    apply hcontents.write hres.ledger hwritten
    · intro b hb
      exact writeBlocks_of_notMem hb
    · exact List.subset_append_right _ _
    · intro other hother
      exact update_of_ne hother _ _
    · rw [update_self]
      exact holdsRow_writeBlocks (hsaved (hfree.mono (List.subset_append_left _ _)))
        (nodup_slotBlocks hres.ledger hhash) hfits hle

end

/-- The pool as the memory of a decoder. Nothing is asked of the logits. -/
def PagedKernels.memory (kernels : PagedKernels V L) {kvOf : List Token → V}
    (hcomputes : kernels.Computes kvOf) : KvMemory kernels.device where
  Reads := fun _ _ => True
  Holds := PagedHolds kvOf
  Saved := fun cfg host tokens =>
    CollisionFree cfg host.data.hashed → SavedHolds kvOf cfg host.data tokens
  holds_truncate := fun hholds hinitial => ⟨hholds.1, fun hfree => (hholds.2 hfree).truncate hinitial⟩
  holds_extends := fun _ hholds _ hext => ⟨hholds.1, fun hfree => (hholds.2 hfree).extends hext⟩
  holds_row := fun hres hholds hpos _ hblock =>
    ⟨hholds.forwardRow hcomputes hres hpos hblock, trivial⟩
  holds_freeSlot := fun _ hholds => ⟨hholds.1, fun hfree => (hholds.2 hfree).freeSlot⟩
  holds_adopt := fun hres hholds _ hempty hlen hreuse =>
    ⟨hholds.1, fun hfree =>
      (hholds.2 (hfree.mono (List.subset_cons_self _ _))).adopt hres.ledger hfree hempty hlen hreuse⟩
  holds_register := fun _ hholds _ htokens hregs =>
    ⟨hholds.1, fun hfree =>
      (hholds.2 (hfree.mono (List.subset_cons_self _ _))).publish htokens hregs⟩
  saved_copyOut := fun _ hholds hle hfree => (hholds.2 hfree).savedHolds hle
  holds_copyIn := fun hres hholds hsaved hempty hnPos hnb hle =>
    hholds.copyIn hres hsaved hempty hnPos hnb hle

end Zllm.Gpu

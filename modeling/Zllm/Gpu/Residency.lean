import Zllm.Gpu.BlockTransfer
import Zllm.Gpu.Decoder
import Zllm.Lib.Outcome

/-!
# Which tokens' KV a slot holds

The abstract view of the decoder: each slot holds the KV of a list of tokens, in positions
`0..length`, of which the first `sealed` positions lie in blocks the prefix cache may share and are
never written again. A `KvMemory` says what it means for a device's memory to hold that view; the
theorems below carry the view through every method of the decoder.
-/

namespace Zllm.Gpu

open Function (update update_of_ne update_self)
open BlockState

structure SlotKv where
  tokens : List Token
  sealed : Nat

def SlotKv.empty : SlotKv := ⟨[], 0⟩

/-- The block side of the view: every held position has a block, and a registered block of the slot
lies inside its sealed prefix. -/
structure Resident (cfg : PoolConfig) (blocks : BlockState) (kv : Nat → SlotKv) : Prop where
  ledger : Ledger cfg [] blocks
  sealed_le : ∀ slot, (kv slot).sealed ≤ (kv slot).tokens.length
  length_le : ∀ slot, (kv slot).tokens.length ≤ cfg.maxSeq
  backed : ∀ slot,
    (kv slot).tokens.length ≤ (blocks.slotBlocks slot).length * cfg.blockSize
  registered : ∀ slot lb b, (blocks.slotBlocks slot)[lb]? = some b → blocks.blockHash b ≠ none →
    (lb + 1) * cfg.blockSize ≤ (kv slot).sealed

/-- Append the row's token to what its slot holds. -/
def appendRow (kv : Nat → SlotKv) (row : Row) : Nat → SlotKv :=
  update kv row.slot { kv row.slot with tokens := (kv row.slot).tokens ++ [row.tok] }

def appendRows (kv : Nat → SlotKv) (rows : List Row) : Nat → SlotKv :=
  rows.foldl appendRow kv

/-- Each row is fed at the first position its slot does not hold yet. -/
def InStep (cfg : PoolConfig) : List Row → (Nat → SlotKv) → Prop
  | [], _ => True
  | row :: rows, kv =>
      row.slot < cfg.mMax ∧ row.pos = (kv row.slot).tokens.length ∧
        InStep cfg rows (appendRow kv row)

/-- The own prefix of each row: what its slot holds once the row is written. -/
def ownPrefixes : List Row → (Nat → SlotKv) → List (List Token)
  | [], _ => []
  | row :: rows, kv =>
      ((kv row.slot).tokens ++ [row.tok]) :: ownPrefixes rows (appendRow kv row)

/-- What it means for the memory of `dev` to hold a view, and for logits to be those of a token
prefix. Each law covers one thing that happens to the memory or to the blocks above it. -/
structure KvMemory {M B L : Type} (dev : Device M B L) where
  Reads : List Token → L → Prop
  Holds : PoolConfig → BlockState → M → (Nat → SlotKv) → Prop
  Saved : PoolConfig → HostKv B → List Token → Prop
  holds_truncate : ∀ {cfg blocks mem kv kv'}, Holds cfg blocks mem kv →
    (∀ slot, (kv' slot).tokens <+: (kv slot).tokens) → Holds cfg blocks mem kv'
  holds_extends : ∀ {cfg blocks blocks' mem kv slot}, Resident cfg blocks kv →
    Holds cfg blocks mem kv → Ledger cfg [] blocks' → Extends slot blocks blocks' →
    Holds cfg blocks' mem kv
  holds_row : ∀ {cfg blocks mem kv row}, Resident cfg blocks kv → Holds cfg blocks mem kv →
    row.pos = (kv row.slot).tokens.length → row.pos < cfg.maxSeq →
    row.pos / cfg.blockSize < (blocks.slotBlocks row.slot).length →
    Holds cfg blocks (dev.forwardRow cfg blocks mem row).1 (appendRow kv row) ∧
      Reads ((kv row.slot).tokens ++ [row.tok]) (dev.forwardRow cfg blocks mem row).2
  holds_freeSlot : ∀ {cfg blocks mem kv slot}, Resident cfg blocks kv → Holds cfg blocks mem kv →
    Holds cfg (blocks.freeSlot slot) mem (update kv slot SlotKv.empty)
  holds_adopt : ∀ {cfg blocks blocks' mem kv slot prompt cached}, Resident cfg blocks kv →
    Holds cfg blocks mem kv → Ledger cfg [] blocks' → blocks.slotBlocks slot = [] →
    cached * cfg.blockSize ≤ prompt.length →
    Reuses cfg prompt slot 0 cached blocks blocks' →
    Holds cfg blocks' (dev.adopt mem slot prompt (cached * cfg.blockSize))
      (update kv slot ⟨prompt.take (cached * cfg.blockSize), cached * cfg.blockSize⟩)
  holds_register : ∀ {cfg blocks blocks' mem kv slot prompt cached sealed},
    Resident cfg blocks kv → Holds cfg blocks mem kv → Ledger cfg [] blocks' →
    (kv slot).tokens = prompt →
    Registers cfg prompt slot cached (prompt.length / cfg.blockSize - cached) blocks blocks' →
    Holds cfg blocks' (dev.publish mem prompt) (update kv slot ⟨prompt, sealed⟩)
  saved_copyOut : ∀ {cfg blocks mem kv slot nPos}, Resident cfg blocks kv →
    Holds cfg blocks mem kv → nPos ≤ (kv slot).tokens.length →
    Saved cfg
      ⟨nPos, nPos ⌈/⌉ cfg.blockSize,
        dev.copyOut cfg mem slot ((blocks.slotBlocks slot).take (nPos ⌈/⌉ cfg.blockSize)) nPos⟩
      ((kv slot).tokens.take nPos)
  holds_copyIn : ∀ {cfg blocks mem kv slot tokens} {host : HostKv B}, Resident cfg blocks kv →
    Holds cfg blocks mem kv → Saved cfg host tokens → kv slot = SlotKv.empty →
    host.nPos = tokens.length → host.nb = host.nPos ⌈/⌉ cfg.blockSize →
    host.nb ≤ (blocks.slotBlocks slot).length →
    Holds cfg blocks
      (dev.copyIn cfg blocks mem slot ((blocks.slotBlocks slot).take host.nb) host.data)
      (update kv slot ⟨tokens, 0⟩)

/-- Nothing is asked of the memory. -/
def KvMemory.vacuous {M B L : Type} (dev : Device M B L) : KvMemory dev where
  Reads := fun _ _ => True
  Holds := fun _ _ _ _ => True
  Saved := fun _ _ _ => True
  holds_truncate := fun _ _ => trivial
  holds_extends := fun _ _ _ _ => trivial
  holds_row := fun _ _ _ _ _ => ⟨trivial, trivial⟩
  holds_freeSlot := fun _ _ => trivial
  holds_adopt := fun _ _ _ _ _ _ => trivial
  holds_register := fun _ _ _ _ _ => trivial
  saved_copyOut := fun _ _ _ => trivial
  holds_copyIn := fun _ _ _ _ _ _ _ => trivial

variable {M B L : Type} {dev : Device M B L} {cfg : PoolConfig} {blocks blocks' : BlockState}
  {kv kv' : Nat → SlotKv} {slot : Nat}

theorem ceilDiv_le_length {n : Nat} (hn : n ≤ (blocks.slotBlocks slot).length * cfg.blockSize) :
    n ⌈/⌉ cfg.blockSize ≤ (blocks.slotBlocks slot).length := by
  rw [ceilDiv_le_iff_le_mul cfg.blockSize_pos]
  rwa [Nat.mul_comm]

theorem resident_new (firstFit : Bool) :
    Resident cfg (BlockState.new cfg firstFit) fun _ => SlotKv.empty where
  ledger := ledger_new firstFit
  sealed_le := by simp [SlotKv.empty]
  length_le := by simp [SlotKv.empty]
  backed := by simp [SlotKv.empty]
  registered := by simp [BlockState.new]

theorem Resident.truncate (hres : Resident cfg blocks kv)
    (hinitial : ∀ slot, (kv' slot).tokens <+: (kv slot).tokens)
    (hsealed : ∀ slot, (kv' slot).sealed = (kv slot).sealed)
    (hle : ∀ slot, (kv' slot).sealed ≤ (kv' slot).tokens.length) : Resident cfg blocks kv' where
  ledger := hres.ledger
  sealed_le := hle
  length_le := fun slot => (hinitial slot).length_le.trans (hres.length_le slot)
  backed := fun slot => (hinitial slot).length_le.trans (hres.backed slot)
  registered := fun slot lb b hb hhash => by
    rw [hsealed slot]
    exact hres.registered slot lb b hb hhash

theorem Resident.extends (hres : Resident cfg blocks kv) (hledger : Ledger cfg [] blocks')
    (hext : Extends slot blocks blocks') : Resident cfg blocks' kv := by
  obtain ⟨new, hnew, hfresh⟩ := hext.fresh
  refine { hres with ledger := hledger, backed := ?_, registered := ?_ }
  · intro other
    refine (hres.backed other).trans (Nat.mul_le_mul_right _ ?_)
    by_cases heq : other = slot
    · subst heq
      simp [hnew]
    · rw [hext.others other heq]
  · intro other lb b hb hhash
    have hold : blocks.blockHash b ≠ none := by
      obtain ⟨h, hh⟩ := Option.ne_none_iff_exists'.mp hhash
      rw [hext.evicts b h hh]
      simp
    by_cases heq : other = slot
    · subst heq
      rw [hnew, List.getElem?_append] at hb
      split at hb
      · exact hres.registered other lb b hb hold
      · exact absurd (hfresh b (List.mem_of_getElem? hb)) hhash
    · rw [hext.others other heq] at hb
      exact hres.registered other lb b hb hold

theorem Resident.appendRow {row : Row} (hres : Resident cfg blocks kv)
    (hpos : row.pos = (kv row.slot).tokens.length) (hlt : row.pos < cfg.maxSeq)
    (hblock : row.pos / cfg.blockSize < (blocks.slotBlocks row.slot).length) :
    Resident cfg blocks (appendRow kv row) := by
  have hfits : row.pos + 1 ≤ (blocks.slotBlocks row.slot).length * cfg.blockSize := by
    have := (Nat.div_lt_iff_lt_mul cfg.blockSize_pos).mp hblock
    omega
  unfold Gpu.appendRow
  refine ⟨hres.ledger, ?_, ?_, ?_, ?_⟩
  · intro slot
    by_cases heq : slot = row.slot
    · subst heq
      have := hres.sealed_le row.slot
      simp
      omega
    · simpa [heq] using hres.sealed_le slot
  · intro slot
    by_cases heq : slot = row.slot
    · subst heq
      simp
      omega
    · simpa [heq] using hres.length_le slot
  · intro slot
    by_cases heq : slot = row.slot
    · subst heq
      simp
      omega
    · simpa [heq] using hres.backed slot
  · intro slot lb b hb hhash
    by_cases heq : slot = row.slot
    · subst heq
      simpa using hres.registered row.slot lb b hb hhash
    · simpa [heq] using hres.registered slot lb b hb hhash

theorem Resident.freeSlot (hres : Resident cfg blocks kv) (hslot : slot < cfg.mMax) :
    Resident cfg (blocks.freeSlot slot) (update kv slot SlotKv.empty) := by
  refine ⟨ledger_freeSlot hres.ledger hslot, ?_, ?_, ?_, ?_⟩
  · intro other
    by_cases heq : other = slot
    · simp [heq, SlotKv.empty]
    · simpa [heq] using hres.sealed_le other
  · intro other
    by_cases heq : other = slot
    · simp [heq, SlotKv.empty]
    · simpa [heq] using hres.length_le other
  · intro other
    by_cases heq : other = slot
    · simp [heq, SlotKv.empty]
    · simpa [heq] using hres.backed other
  · intro other lb b hb hhash
    by_cases heq : other = slot
    · simp [heq] at hb
    · simp only [slotBlocks_freeSlot, update_of_ne heq, blockHash_freeSlot] at hb hhash ⊢
      exact hres.registered other lb b hb hhash

theorem Resident.fill {tokens : List Token} (hres : Resident cfg blocks kv)
    (hsealed : (kv slot).sealed = 0) (hmax : tokens.length ≤ cfg.maxSeq)
    (hbacked : tokens.length ≤ (blocks.slotBlocks slot).length * cfg.blockSize) :
    Resident cfg blocks (update kv slot ⟨tokens, 0⟩) := by
  refine ⟨hres.ledger, ?_, ?_, ?_, ?_⟩
  · intro other
    by_cases heq : other = slot
    · simp [heq]
    · simpa [heq] using hres.sealed_le other
  · intro other
    by_cases heq : other = slot
    · simpa [heq] using hmax
    · simpa [heq] using hres.length_le other
  · intro other
    by_cases heq : other = slot
    · simpa [heq] using hbacked
    · simpa [heq] using hres.backed other
  · intro other lb b hb hhash
    by_cases heq : other = slot
    · subst heq
      simpa [hsealed] using hres.registered other lb b hb hhash
    · simpa [heq] using hres.registered other lb b hb hhash

/-- A slot that holds nothing sealed owns no registered block. -/
theorem Resident.unregistered (hres : Resident cfg blocks kv) {lb b : Nat}
    (hsealed : (kv slot).sealed < (lb + 1) * cfg.blockSize)
    (hb : (blocks.slotBlocks slot)[lb]? = some b) : blocks.blockHash b = none := by
  by_contra hhash
  have := hres.registered slot lb b hb hhash
  omega

theorem Resident.reuses {prompt : List Token} {cached : Nat} (hres : Resident cfg blocks kv)
    (hledger : Ledger cfg [] blocks') (hempty : blocks.slotBlocks slot = [])
    (hlen : cached * cfg.blockSize ≤ prompt.length) (hmax : prompt.length ≤ cfg.maxSeq)
    (hreuse : Reuses cfg prompt slot 0 cached blocks blocks') :
    Resident cfg blocks' (update kv slot
      ⟨prompt.take (cached * cfg.blockSize), cached * cfg.blockSize⟩) := by
  obtain ⟨new, hnew, hcount, -⟩ := hreuse.reused
  rw [hempty, List.nil_append] at hnew
  refine ⟨hledger, ?_, ?_, ?_, ?_⟩
  · intro other
    by_cases heq : other = slot
    · simp [heq, hlen]
    · simpa [heq] using hres.sealed_le other
  · intro other
    by_cases heq : other = slot
    · simp [heq]
      omega
    · simpa [heq] using hres.length_le other
  · intro other
    by_cases heq : other = slot
    · subst heq
      simp [hnew, hcount]
    · simpa [heq, hreuse.others other heq] using hres.backed other
  · intro other lb b hb hhash
    rw [hreuse.blockHash_eq] at hhash
    by_cases heq : other = slot
    · subst heq
      obtain ⟨hlt, -⟩ := List.getElem?_eq_some_iff.mp hb
      rw [hnew, hcount] at hlt
      simpa using Nat.mul_le_mul_right cfg.blockSize (by omega : lb + 1 ≤ cached)
    · rw [hreuse.others other heq] at hb
      simpa [heq] using hres.registered other lb b hb hhash

theorem Resident.registers {prompt : List Token} {cached : Nat} (hres : Resident cfg blocks kv)
    (hledger : Ledger cfg [] blocks')
    (hkv : kv slot = ⟨prompt, cached * cfg.blockSize⟩)
    (hregs : Registers cfg prompt slot cached (prompt.length / cfg.blockSize - cached)
      blocks blocks') :
    Resident cfg blocks' (update kv slot ⟨prompt, prompt.length / cfg.blockSize * cfg.blockSize⟩) := by
  have hcached : cached ≤ prompt.length / cfg.blockSize := by
    have := hres.sealed_le slot
    rw [hkv] at this
    exact (Nat.le_div_iff_mul_le cfg.blockSize_pos).mpr this
  refine ⟨hledger, ?_, ?_, ?_, ?_⟩
  · intro other
    by_cases heq : other = slot
    · simpa [heq] using Nat.div_mul_le_self prompt.length cfg.blockSize
    · simpa [heq] using hres.sealed_le other
  · intro other
    by_cases heq : other = slot
    · have := hres.length_le slot
      rw [hkv] at this
      simpa [heq] using this
    · simpa [heq] using hres.length_le other
  · intro other
    rw [hregs.slotBlocks_eq]
    by_cases heq : other = slot
    · have := hres.backed slot
      rw [hkv] at this
      simpa [heq] using this
    · simpa [heq] using hres.backed other
  · intro other lb b hb hhash
    rw [hregs.slotBlocks_eq] at hb
    by_cases hold : blocks.blockHash b = none
    · -- the block was entered just now, so it is one of the registering slot's own full blocks
      obtain ⟨h, hh⟩ := Option.ne_none_iff_exists'.mp hhash
      obtain hkeep | ⟨i, -, hi, hib, -⟩ := hregs.entered b h hh
      · rw [hold] at hkeep
        cases hkeep
      · obtain ⟨rfl, rfl⟩ := unhashed_place_unique hres.ledger hold hib hb
        simpa using Nat.mul_le_mul_right cfg.blockSize
          (by omega : i + 1 ≤ prompt.length / cfg.blockSize)
    · have hle := hres.registered other lb b hb hold
      by_cases heq : other = slot
      · subst heq
        rw [hkv] at hle
        simpa using hle.trans (Nat.mul_le_mul_right cfg.blockSize hcached)
      · simpa [heq] using hle

end Zllm.Gpu

import Zllm.Basic
import Mathlib.Algebra.Order.Floor.Div
import Mathlib.Data.List.MinMax
import Mathlib.Logic.Function.Basic

/-!
# The paged KV block pool

`BlockState` and the `BatchedDecoder` methods that move physical blocks between the free stack, the
slots and the prefix cache. A `Vec` indexed by block, slot or table cell is a function on indices,
and a `Vec` used as a stack is a list whose head is the top.
-/

namespace Zllm.Gpu

/-- The ways a serving call can abort: an assertion of the decoder, or an index outside its slice.
-/
inductive Panic where
  | poolTooSmall
  | positionExceeds
  | poolExhausted
  | rowCount
  | promptBounds
  | prefillStart
  | indexOutOfBounds
  deriving DecidableEq, Repr

/-- `PREFILL_CHUNK`. -/
def prefillChunkRows : Nat := 128

/-- `DEFAULT_BLOCK_SIZE`. -/
def defaultBlockSize : Nat := 16

theorem defaultBlockSize_pos : 0 < defaultBlockSize := by decide

/-- The sizes a `BatchedDecoder` is built with. `prefixBlockHash` stands for the standard library's
`DefaultHasher`, whose value is not specified. -/
structure PoolConfig where
  mMax : Nat
  maxSeq : Nat
  blockSize : Nat
  nBlocks : Nat
  prefixBlockHash : UInt64 → List Token → UInt64
  blockSize_pos : 0 < blockSize
  holdsOneSequence : maxSeq ⌈/⌉ blockSize ≤ nBlocks

namespace PoolConfig

def maxBlocksPerSeq (cfg : PoolConfig) : Nat := cfg.maxSeq ⌈/⌉ cfg.blockSize

def rowCap (cfg : PoolConfig) : Nat := max cfg.mMax prefillChunkRows

/-- The assertion of `BatchedDecoder::new_paged`. -/
def newPaged (prefixBlockHash : UInt64 → List Token → UInt64)
    (mMax maxSeq blockSize nBlocks : Nat) (hpos : 0 < blockSize) : Except Panic PoolConfig :=
  if hfits : maxSeq ⌈/⌉ blockSize ≤ nBlocks then
    .ok { mMax, maxSeq, blockSize, nBlocks, prefixBlockHash
          blockSize_pos := hpos, holdsOneSequence := hfits }
  else
    .error .poolTooSmall

/-- `BatchedDecoder::new`: the full pool, in which every slot can reach `maxSeq`. -/
def new (prefixBlockHash : UInt64 → List Token → UInt64) (mMax maxSeq : Nat) :
    Except Panic PoolConfig :=
  newPaged prefixBlockHash mMax maxSeq defaultBlockSize
    (mMax * (maxSeq ⌈/⌉ defaultBlockSize)) defaultBlockSize_pos

/-- `GpuModel::batched_decoder_paged`. -/
def withPool (prefixBlockHash : UInt64 → List Token → UInt64) (mMax maxSeq nBlocks : Nat) :
    Except Panic PoolConfig :=
  newPaged prefixBlockHash mMax maxSeq defaultBlockSize nBlocks defaultBlockSize_pos

/-- The tokens of logical block `lb`: `&prompt[lb * bsz..(lb + 1) * bsz]`. -/
def blockTokens (cfg : PoolConfig) (prompt : List Token) (lb : Nat) : List Token :=
  (prompt.drop (lb * cfg.blockSize)).take cfg.blockSize

/-- The cumulative hash of the first `lb` full blocks of `prompt`. -/
def chainHash (cfg : PoolConfig) (prompt : List Token) : Nat → UInt64
  | 0 => 0
  | lb + 1 => cfg.prefixBlockHash (chainHash cfg prompt lb) (cfg.blockTokens prompt lb)

end PoolConfig

structure BlockState where
  free : List Nat
  slotBlocks : Nat → List Nat
  tableHost : Nat → Nat
  refcount : Nat → Nat
  cacheMap : UInt64 → Option Nat
  blockHash : Nat → Option UInt64
  lastUse : Nat → Nat
  clock : Nat
  firstFit : Bool
  hits : Nat
  misses : Nat

namespace BlockState

open Function (update)

variable (cfg : PoolConfig)

def new (firstFit : Bool) : BlockState where
  free := List.range cfg.nBlocks
  slotBlocks := fun _ => []
  tableHost := fun _ => 0
  refcount := fun _ => 0
  cacheMap := fun _ => none
  blockHash := fun _ => none
  lastUse := fun _ => 0
  clock := 0
  firstFit := firstFit
  hits := 0
  misses := 0

/-- A cached block nothing references. -/
def reclaimable (blocks : BlockState) (b : Nat) : Bool :=
  blocks.refcount b == 0 && (blocks.blockHash b).isSome

/-- The cached block `alloc` evicts when the free stack is empty. -/
def reclaim (blocks : BlockState) : Option Nat :=
  let candidates := (List.range cfg.nBlocks).filter blocks.reclaimable
  if blocks.firstFit then candidates.head? else candidates.argmin blocks.lastUse

def alloc (blocks : BlockState) : Option (Nat × BlockState) :=
  match blocks.free with
  | b :: rest => some (b, { blocks with free := rest, refcount := update blocks.refcount b 1 })
  | [] =>
      match blocks.reclaim cfg with
      | some i =>
          let cacheMap := match blocks.blockHash i with
            | some h => update blocks.cacheMap h none
            | none => blocks.cacheMap
          some (i, { blocks with
            cacheMap
            blockHash := update blocks.blockHash i none
            refcount := update blocks.refcount i 1 })
      | none => none

def touch (phys : Nat) (blocks : BlockState) : BlockState :=
  { blocks with clock := blocks.clock + 1, lastUse := update blocks.lastUse phys (blocks.clock + 1) }

/-- Append `phys` to the slot's blocks and point the table cell of logical block `lb` at it. -/
def pushBlock (slot lb phys : Nat) (blocks : BlockState) : BlockState :=
  { blocks with
    slotBlocks := update blocks.slotBlocks slot (blocks.slotBlocks slot ++ [phys])
    tableHost := update blocks.tableHost (slot * cfg.maxBlocksPerSeq + lb) phys }

/-- The loop of `ensure_blocks` from logical block `lb`, with `count` blocks to go. -/
def growSlot (slot : Nat) : (count lb : Nat) → BlockState → Bool × BlockState
  | 0, _, blocks => (true, blocks)
  | count + 1, lb, blocks =>
      match blocks.alloc cfg with
      | none => (false, blocks)
      | some (phys, blocks) => growSlot slot count (lb + 1) (blocks.pushBlock cfg slot lb phys)

def ensureBlocks (slot nPositions : Nat) (blocks : BlockState) : Bool × BlockState :=
  let need := nPositions ⌈/⌉ cfg.blockSize
  let owned := (blocks.slotBlocks slot).length
  blocks.growSlot cfg slot (need - owned) owned

/-- One iteration of `free_slot`. -/
def release (blocks : BlockState) (phys : Nat) : BlockState :=
  let refcount := blocks.refcount phys - 1
  let blocks := { blocks with refcount := update blocks.refcount phys refcount }
  if refcount = 0 ∧ blocks.blockHash phys = none then
    { blocks with free := phys :: blocks.free }
  else
    blocks

def freeSlot (slot : Nat) (blocks : BlockState) : BlockState :=
  (blocks.slotBlocks slot).foldl release
    { blocks with slotBlocks := update blocks.slotBlocks slot [] }

def freeBlocks (blocks : BlockState) : Nat :=
  blocks.free.length + (List.range cfg.nBlocks).countP blocks.reclaimable

def canFit (nPositions : Nat) (blocks : BlockState) : Bool :=
  decide (nPositions ⌈/⌉ cfg.blockSize ≤ blocks.freeBlocks cfg)

def blocksShort (slot nPositions : Nat) (blocks : BlockState) : Nat :=
  nPositions ⌈/⌉ cfg.blockSize - (blocks.slotBlocks slot).length

/-- Physical row of `pos` for `slot`, through the slot's own block list. -/
def physPos (slot pos : Nat) (blocks : BlockState) : Except Panic Nat :=
  match (blocks.slotBlocks slot)[pos / cfg.blockSize]? with
  | some phys => .ok (phys * cfg.blockSize + pos % cfg.blockSize)
  | none => .error .indexOutOfBounds

/-- Physical row of `pos` for `slot` as the kernels compute it, through the uploaded block table. -/
def tablePos (slot pos : Nat) (blocks : BlockState) : Nat :=
  blocks.tableHost (slot * cfg.maxBlocksPerSeq + pos / cfg.blockSize) * cfg.blockSize
    + pos % cfg.blockSize

/-- The block side of `swap_out`: the first `nb` blocks, whose KV is copied out, and the slot freed.
-/
def swapOut (slot nPositions : Nat) (blocks : BlockState) : Except Panic (List Nat × BlockState) :=
  let nb := nPositions ⌈/⌉ cfg.blockSize
  if nb ≤ (blocks.slotBlocks slot).length then
    .ok ((blocks.slotBlocks slot).take nb, blocks.freeSlot slot)
  else
    .error .indexOutOfBounds

/-- The block side of `swap_in`: the blocks the saved KV is copied into, or `none` where the pool
cannot supply them. -/
def swapIn (slot nPositions nb : Nat) (blocks : BlockState) :
    Except Panic (Option (List Nat) × BlockState) :=
  match blocks.ensureBlocks cfg slot nPositions with
  | (false, blocks) => .ok (none, blocks)
  | (true, blocks) =>
      if nb ≤ (blocks.slotBlocks slot).length then
        .ok (some ((blocks.slotBlocks slot).take nb), blocks)
      else
        .error .indexOutOfBounds

/-- Take one more reference on a cached block. -/
def share (phys : Nat) (blocks : BlockState) : BlockState :=
  { blocks with refcount := update blocks.refcount phys (blocks.refcount phys + 1) }

/-- The loop of `prefill_prefix_reuse` from logical block `lb`; it stops at the first miss. -/
def reuseBlocks (prompt : List Token) (slot : Nat) :
    (count lb : Nat) → (prevHash : UInt64) → BlockState → Nat × BlockState
  | 0, lb, _, blocks => (lb, blocks)
  | count + 1, lb, prevHash, blocks =>
      let h := cfg.prefixBlockHash prevHash (cfg.blockTokens prompt lb)
      match blocks.cacheMap h with
      | some phys =>
          reuseBlocks prompt slot count (lb + 1) h
            (((blocks.share phys).touch phys).pushBlock cfg slot lb phys)
      | none => (lb, blocks)

/-- Returns `(cached_len, cached_blocks)`. -/
def prefillPrefixReuse (prompt : List Token) (slot : Nat) (blocks : BlockState) :
    (Nat × Nat) × BlockState :=
  let (cachedBlocks, blocks) :=
    reuseBlocks cfg prompt slot ((prompt.length - 1) / cfg.blockSize) 0 0 blocks
  ((cachedBlocks * cfg.blockSize, cachedBlocks), { blocks with hits := blocks.hits + cachedBlocks })

/-- Enter `phys` in the prefix cache under `h`, unless `h` already names a block. -/
def register (h : UInt64) (phys : Nat) (blocks : BlockState) : BlockState :=
  if (blocks.cacheMap h).isNone then
    touch phys { blocks with
      cacheMap := update blocks.cacheMap h (some phys)
      blockHash := update blocks.blockHash phys (some h) }
  else
    blocks

/-- The registration loop of `prefill_register` from logical block `lb`. -/
def registerBlocks (prompt : List Token) (slot : Nat) :
    (count lb : Nat) → (prevHash : UInt64) → BlockState → Except Panic BlockState
  | 0, _, _, blocks => .ok blocks
  | count + 1, lb, prevHash, blocks =>
      let h := cfg.prefixBlockHash prevHash (cfg.blockTokens prompt lb)
      match (blocks.slotBlocks slot)[lb]? with
      | none => .error .indexOutOfBounds
      | some phys => registerBlocks prompt slot count (lb + 1) h (blocks.register h phys)

def prefillRegister (prompt : List Token) (slot cachedBlocks : Nat) (blocks : BlockState) :
    Except Panic BlockState :=
  let nFull := prompt.length / cfg.blockSize
  if nFull ≤ cachedBlocks then
    .ok blocks
  else
    registerBlocks cfg prompt slot (nFull - cachedBlocks) cachedBlocks
      (cfg.chainHash prompt cachedBlocks)
      { blocks with misses := blocks.misses + (nFull - cachedBlocks) }

end BlockState

end Zllm.Gpu

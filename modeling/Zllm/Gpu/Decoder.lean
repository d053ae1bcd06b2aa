import Zllm.Gpu.BlockPool

/-!
# The batched decoder

`BatchedDecoder`: the paging prologue, the forward over a list of rows, chunked prefill, and
swap-to-host. The KV memory and the kernels that read and write it are a `Device`; everything else
is the host code.
-/

namespace Zllm.Gpu

/-- `SamplingParams`. The `f32` fields hold finite floats, which are rationals. -/
structure SamplingParams where
  temp : ℚ
  topK : Nat
  topP : ℚ
  deriving DecidableEq

def SamplingParams.greedy : SamplingParams := { temp := 0, topK := 0, topP := 1 }

def SamplingParams.temperature (temp : ℚ) : SamplingParams := { temp, topK := 0, topP := 1 }

def SamplingParams.needsTopk (params : SamplingParams) : Bool :=
  0 < params.topK || (0 < params.topP && params.topP < 1)

/-- `step_seed`, with the generation index cast to `u32`. -/
def stepSeed (base : UInt32) (genIdx : Nat) : UInt32 :=
  base + UInt32.ofNat genIdx * 0x9E3779B1

/-- One row of a batched forward: `tok` at `pos` in cache slot `slot`. -/
structure Row where
  tok : Token
  pos : Nat
  slot : Nat

/-- The KV memory `M` behind the pool, and the kernels over it. `forwardRow` writes the row's K/V
and attends the slot's rows up to it, `copyOut` and `copyIn` are the block copies of swap-to-host
with `B` the host blob, and `argmax`, `gumbel` and `sampleTopk` are the three selections. No kernel
runs for the other two: `adopt` marks that a slot now reads the cached blocks of the first
`cachedLen` prompt positions, and `publish` that the full blocks of a prompt were offered to the
prefix cache. -/
structure Device (M B L : Type) where
  forwardRow : PoolConfig → BlockState → M → Row → M × L
  copyOut : PoolConfig → M → (slot : Nat) → (phys : List Nat) → (nPositions : Nat) → B
  copyIn : PoolConfig → BlockState → M → (slot : Nat) → (phys : List Nat) → B → M
  adopt : M → (slot : Nat) → (prompt : List Token) → (cachedLen : Nat) → M
  publish : M → (prompt : List Token) → M
  argmax : L → Token
  gumbel : L → (temp : ℚ) → (seed : UInt32) → Token
  sampleTopk : L → SamplingParams → (seed : UInt32) → Token

/-- `HostKv`: a sequence's KV copied out to host memory. -/
structure HostKv (B : Type) where
  nPos : Nat
  nb : Nat
  data : B

structure BatchedDecoder (M : Type) where
  cfg : PoolConfig
  blocks : BlockState
  mem : M

namespace BatchedDecoder

variable {M B L : Type} (dev : Device M B L)

def freeSlot (slot : Nat) (dec : BatchedDecoder M) : BatchedDecoder M :=
  { dec with blocks := dec.blocks.freeSlot slot }

def freeBlocks (dec : BatchedDecoder M) : Nat := dec.blocks.freeBlocks dec.cfg

def canFit (nPositions : Nat) (dec : BatchedDecoder M) : Bool :=
  dec.blocks.canFit dec.cfg nPositions

def blocksShort (slot nPositions : Nat) (dec : BatchedDecoder M) : Nat :=
  dec.blocks.blocksShort dec.cfg slot nPositions

/-! ### The forward -/

/-- The position assertion of `write_inputs`. -/
def writeInputs (cfg : PoolConfig) (rows : List Row) : Except Panic Unit :=
  if rows.all (·.pos < cfg.maxSeq) then .ok () else .error .positionExceeds

def preparePaging (cfg : PoolConfig) : List Row → BlockState → Except Panic BlockState
  | [], blocks => .ok blocks
  | row :: rows, blocks =>
      match blocks.ensureBlocks cfg row.slot (row.pos + 1) with
      | (false, _) => .error .poolExhausted
      | (true, blocks) => do
          let _phys ← blocks.physPos cfg row.slot row.pos
          preparePaging cfg rows blocks

/-- The rows in order: a row attends the rows of its own slot up to its position, so those before
it in the batch are written when it is computed. -/
def recordLayers (cfg : PoolConfig) (blocks : BlockState) : List Row → M → M × List L
  | [], mem => (mem, [])
  | row :: rows, mem =>
      let (mem, logits) := dev.forwardRow cfg blocks mem row
      let (mem, rest) := recordLayers cfg blocks rows mem
      (mem, logits :: rest)

def forwardLogits (rows : List Row) (dec : BatchedDecoder M) :
    Except Panic (List L × BatchedDecoder M) := do
  writeInputs dec.cfg rows
  let blocks ← preparePaging dec.cfg rows dec.blocks
  let (mem, logits) := recordLayers dev dec.cfg blocks rows dec.mem
  return (logits, { dec with blocks, mem })

/-- The row-count assertion of `step_core` and `step_slotted_topk`. -/
def checkRows (cfg : PoolConfig) (rows : List Row) : Except Panic Unit :=
  if rows.length ≤ cfg.mMax ∧ 1 ≤ rows.length then .ok () else .error .rowCount

def stepSlotted (rows : List Row) (dec : BatchedDecoder M) :
    Except Panic (List Token × BatchedDecoder M) := do
  checkRows dec.cfg rows
  let (logits, dec) ← dec.forwardLogits dev rows
  return (logits.map dev.argmax, dec)

/-- Each row with its own `(temp, seed)`. -/
def stepSlottedSample (rows : List Row) (sampling : List (ℚ × UInt32)) (dec : BatchedDecoder M) :
    Except Panic (List Token × BatchedDecoder M) := do
  checkRows dec.cfg rows
  let (logits, dec) ← dec.forwardLogits dev rows
  return (List.zipWith (fun l s => dev.gumbel l s.1 s.2) logits sampling, dec)

/-- Each row with its own `(params, seed)`. -/
def stepSlottedTopk (rows : List Row) (sampling : List (SamplingParams × UInt32))
    (dec : BatchedDecoder M) : Except Panic (List Token × BatchedDecoder M) := do
  checkRows dec.cfg rows
  let (logits, dec) ← dec.forwardLogits dev rows
  return (List.zipWith (fun l s => dev.sampleTopk l s.1 s.2) logits sampling, dec)

/-! ### Prefill -/

/-- The selection over one prefill row: greedy, or drawn with a single `(temp, seed)`. -/
def selectFirst (samp : Option (ℚ × UInt32)) (logits : L) : Token :=
  match samp with
  | none => dev.argmax logits
  | some (temp, seed) => dev.gumbel logits temp seed

/-- Rows `start..stop` of `prompt`, all in `slot`. -/
def chunkRows (prompt : List Token) (slot start stop : Nat) : List Row :=
  ((prompt.take stop).drop start).mapIdx fun i tok => { tok, pos := start + i, slot }

/-- Returns `(new_start, first_token_if_complete)`. -/
def prefillChunk (prompt : List Token) (slot start : Nat) (samp : Option (ℚ × UInt32))
    (dec : BatchedDecoder M) : Except Panic ((Nat × Option Token) × BatchedDecoder M) :=
  if start < prompt.length then do
    let stop := min (start + dec.cfg.rowCap) prompt.length
    let (logits, dec) ← dec.forwardLogits dev (chunkRows prompt slot start stop)
    let first := if stop = prompt.length then logits.getLast?.map (selectFirst dev samp) else none
    return ((stop, first), dec)
  else
    .error .prefillStart

/-- The loop of `prefill_slot_from`. A chunk advances `start`, so `prompt.length` iterations are
enough. -/
def prefillLoop (prompt : List Token) (slot : Nat) (samp : Option (ℚ × UInt32)) :
    (fuel start : Nat) → (firstTok : Token) → BatchedDecoder M →
      Except Panic (Token × BatchedDecoder M)
  | 0, _, firstTok, dec => .ok (firstTok, dec)
  | fuel + 1, start, firstTok, dec =>
      if start < prompt.length then do
        let ((next, first), dec) ← dec.prefillChunk dev prompt slot start samp
        prefillLoop prompt slot samp fuel next (first.getD firstTok) dec
      else
        .ok (firstTok, dec)

def prefillSlotFrom (prompt : List Token) (slot startPos : Nat) (samp : Option (ℚ × UInt32))
    (dec : BatchedDecoder M) : Except Panic (Token × BatchedDecoder M) :=
  if prompt ≠ [] ∧ prompt.length ≤ dec.cfg.maxSeq ∧ startPos < prompt.length then
    prefillLoop dev prompt slot samp prompt.length startPos 0 dec
  else
    .error .promptBounds

def prefillPrefixReuse (prompt : List Token) (slot : Nat) (dec : BatchedDecoder M) :
    (Nat × Nat) × BatchedDecoder M :=
  let ((cachedLen, cachedBlocks), blocks) := dec.blocks.prefillPrefixReuse dec.cfg prompt slot
  ((cachedLen, cachedBlocks), { dec with blocks, mem := dev.adopt dec.mem slot prompt cachedLen })

def prefillRegister (prompt : List Token) (slot cachedBlocks : Nat) (dec : BatchedDecoder M) :
    Except Panic (BatchedDecoder M) := do
  let blocks ← dec.blocks.prefillRegister dec.cfg prompt slot cachedBlocks
  return { dec with blocks, mem := dev.publish dec.mem prompt }

/-- Returns `(first_token, cached_len)`. -/
def prefillSlotCached (prompt : List Token) (slot : Nat) (samp : Option (ℚ × UInt32))
    (dec : BatchedDecoder M) : Except Panic ((Token × Nat) × BatchedDecoder M) :=
  if prompt ≠ [] ∧ prompt.length ≤ dec.cfg.maxSeq then do
    let ((cachedLen, cachedBlocks), dec) := dec.prefillPrefixReuse dev prompt slot
    let (first, dec) ← dec.prefillSlotFrom dev prompt slot cachedLen samp
    let dec ← dec.prefillRegister dev prompt slot cachedBlocks
    return ((first, cachedLen), dec)
  else
    .error .promptBounds

/-! ### Swap-to-host -/

def swapOut (slot nPos : Nat) (dec : BatchedDecoder M) :
    Except Panic (HostKv B × BatchedDecoder M) := do
  let (phys, blocks) ← dec.blocks.swapOut dec.cfg slot nPos
  return ({ nPos, nb := nPos ⌈/⌉ dec.cfg.blockSize, data := dev.copyOut dec.cfg dec.mem slot phys nPos },
    { dec with blocks })

/-- Returns false where the pool cannot supply the blocks. -/
def swapIn (slot : Nat) (host : HostKv B) (dec : BatchedDecoder M) :
    Except Panic (Bool × BatchedDecoder M) := do
  let (restored, blocks) ← dec.blocks.swapIn dec.cfg slot host.nPos host.nb
  match restored with
  | none => return (false, { dec with blocks })
  | some phys =>
      return (true, { dec with blocks, mem := dev.copyIn dec.cfg blocks dec.mem slot phys host.data })

end BatchedDecoder

end Zllm.Gpu

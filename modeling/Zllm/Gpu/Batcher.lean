import Zllm.Engine.PromptLookup
import Zllm.Gpu.Decoder

/-!
# The continuous batcher

`ContinuousBatcher` of `backend/gpu/batch.rs`: admission, the decode phases of `step` and
`step_pld`, chunked prefill, preemption and rescheduling. The `free` stack's top is the head of the
list; the two deques run from front to back.
-/

namespace Zllm.Gpu

/-- An active sequence; `tokens` is its full history, the last of them not yet fed. -/
structure CbSeq where
  id : Nat
  slot : Nat
  tokens : List Token
  promptLen : Nat
  maxTokens : Nat
  eos : Token
  params : SamplingParams
  baseSeed : UInt32

namespace CbSeq

/-- `*tokens.last().unwrap()`; an active sequence holds at least the token it was admitted with. -/
def next (s : CbSeq) : Token := s.tokens.getLastD 0

def pos (s : CbSeq) : Nat := s.tokens.length - 1

def genIndex (s : CbSeq) : Nat := s.tokens.length - s.promptLen

def push (s : CbSeq) (tok : Token) : CbSeq := { s with tokens := s.tokens ++ [tok] }

/-- Whether the last token of `s` completes its request. -/
def done (s : CbSeq) : Bool := s.next == s.eos || s.maxTokens ≤ s.genIndex

end CbSeq

/-- A sequence evicted under pool pressure: `kv = none` re-prefills `tokens`, `kv = some host`
restores the saved KV. -/
structure PreemptedSeq (B : Type) where
  id : Nat
  tokens : List Token
  promptLen : Nat
  maxTokens : Nat
  eos : Token
  params : SamplingParams
  baseSeed : UInt32
  kv : Option (HostKv B)

/-- A sequence whose prompt is prefilled chunk by chunk from `prefillPos`. -/
structure PrefillingSeq where
  id : Nat
  slot : Nat
  prompt : List Token
  promptLen : Nat
  prefillPos : Nat
  cachedBlocks : Nat
  maxTokens : Nat
  eos : Token
  params : SamplingParams
  baseSeed : UInt32

/-- A produced token: `(id, token, done)`. -/
structure Event where
  id : Nat
  tok : Token
  done : Bool
  deriving DecidableEq, Repr

structure ContinuousBatcher (M B : Type) where
  dec : BatchedDecoder M
  free : List Nat
  active : List CbSeq
  preempted : List (PreemptedSeq B)
  prefilling : List PrefillingSeq
  preemptions : Nat
  swapMode : Bool

/-- The arguments of `admit_params` and `enqueue_params`. -/
structure Request where
  id : Nat
  prompt : List Token
  maxTokens : Nat
  eos : Token
  params : SamplingParams
  seed : UInt32
  deriving DecidableEq

namespace ContinuousBatcher

variable {M B L : Type} (dev : Device M B L)

/-- `ContinuousBatcher::new` and `with_pool`, over the decoder sizes `cfg`. -/
def new (cfg : PoolConfig) (firstFit swapMode : Bool) (mem : M) : ContinuousBatcher M B where
  dec := { cfg, blocks := BlockState.new cfg firstFit, mem }
  free := List.range cfg.mMax
  active := []
  preempted := []
  prefilling := []
  preemptions := 0
  swapMode := swapMode

def allGreedy (cb : ContinuousBatcher M B) : Bool :=
  cb.active.all fun s => !s.params.needsTopk && s.params.temp == 0

/-- Returns false where `id` is nowhere. -/
def cancel (id : Nat) (cb : ContinuousBatcher M B) : Bool × ContinuousBatcher M B :=
  match cb.active.find? (·.id == id) with
  | some s =>
      (true, { cb with
        active := cb.active.eraseP (·.id == id), dec := cb.dec.freeSlot s.slot
        free := s.slot :: cb.free })
  | none =>
      match cb.prefilling.find? (·.id == id) with
      | some s =>
          (true, { cb with
            prefilling := cb.prefilling.eraseP (·.id == id), dec := cb.dec.freeSlot s.slot
            free := s.slot :: cb.free })
      | none =>
          match cb.preempted.find? (·.id == id) with
          | some _ => (true, { cb with preempted := cb.preempted.eraseP (·.id == id) })
          | none => (false, cb)

/-- The first token's sampling: temperature only, at generation index `genIdx`. -/
def firstSampling (params : SamplingParams) (seed : UInt32) (genIdx : Nat) :
    Option (ℚ × UInt32) :=
  if 0 < params.temp then some (params.temp, stepSeed seed genIdx) else none

/-- Returns `(first_token, done)`, or `none` where no slot is free or the prompt cannot fit now. -/
def admitParams (req : Request) (cb : ContinuousBatcher M B) :
    Except Panic (Option (Token × Bool) × ContinuousBatcher M B) :=
  if cb.dec.canFit req.prompt.length then
    match cb.free with
    | [] => .ok (none, cb)
    | slot :: free => do
        let ((g, _), dec) ← cb.dec.prefillSlotCached dev req.prompt slot
          (firstSampling req.params req.seed 0)
        let done : Bool := req.maxTokens ≤ 1 || g == req.eos
        if done then
          return (some (g, done), { cb with dec := dec.freeSlot slot, free := slot :: free })
        else
          return (some (g, done), { cb with
            dec, free
            active := cb.active ++ [{
              id := req.id, slot, tokens := req.prompt ++ [g], promptLen := req.prompt.length
              maxTokens := req.maxTokens, eos := req.eos, params := req.params
              baseSeed := req.seed }] })
  else
    .ok (none, cb)

def enqueueParams (req : Request) (cb : ContinuousBatcher M B) : Bool × ContinuousBatcher M B :=
  if req.prompt = [] ∨ cb.dec.cfg.maxSeq < req.prompt.length then
    (false, cb)
  else
    match cb.free with
    | [] => (false, cb)
    | slot :: free =>
        if cb.dec.canFit req.prompt.length then
          let ((cachedLen, cachedBlocks), dec) := cb.dec.prefillPrefixReuse dev req.prompt slot
          (true, { cb with
            dec, free
            prefilling := cb.prefilling ++ [{
              id := req.id, slot, prompt := req.prompt, promptLen := req.prompt.length
              prefillPos := cachedLen, cachedBlocks, maxTokens := req.maxTokens, eos := req.eos
              params := req.params, baseSeed := req.seed }] })
        else
          (false, cb)

/-! ### Preemption -/

/-- Evict the most recently admitted active sequence. Returns false where there is none. -/
def preemptLastActive (cb : ContinuousBatcher M B) :
    Except Panic (Bool × ContinuousBatcher M B) :=
  match cb.active.getLast? with
  | none => .ok (false, cb)
  | some victim => do
      let (kv, dec) ←
        if cb.swapMode then do
          let (host, dec) ← cb.dec.swapOut dev victim.slot (victim.tokens.length - 1)
          pure (some host, dec)
        else
          pure (none, cb.dec.freeSlot victim.slot)
      return (true, { cb with
        dec
        active := cb.active.dropLast
        preemptions := cb.preemptions + 1
        free := victim.slot :: cb.free
        preempted := cb.preempted ++ [{
          id := victim.id, tokens := victim.tokens, promptLen := victim.promptLen
          maxTokens := victim.maxTokens, eos := victim.eos, params := victim.params
          baseSeed := victim.baseSeed, kv }] })

/-- Evict the most recently enqueued prefilling sequence, never the front one. -/
def preemptLastPrefill (cb : ContinuousBatcher M B) : Bool × ContinuousBatcher M B :=
  if cb.prefilling.length < 2 then
    (false, cb)
  else
    match cb.prefilling.getLast? with
    | none => (false, cb)
    | some pf =>
        (true, { cb with
          dec := cb.dec.freeSlot pf.slot
          prefilling := cb.prefilling.dropLast
          preemptions := cb.preemptions + 1
          free := pf.slot :: cb.free
          preempted := cb.preempted ++ [{
            id := pf.id, tokens := pf.prompt, promptLen := pf.promptLen
            maxTokens := pf.maxTokens, eos := pf.eos, params := pf.params
            baseSeed := pf.baseSeed, kv := none }] })

/-- The blocks the active sequences are short of for this step. -/
def needed (cb : ContinuousBatcher M B) : Nat :=
  (cb.active.map fun s => cb.dec.blocksShort s.slot s.tokens.length).sum

/-- The loop of `make_room`; every iteration takes one active sequence. -/
def makeRoomLoop : (fuel : Nat) → ContinuousBatcher M B → Except Panic (ContinuousBatcher M B)
  | 0, cb => .ok cb
  | fuel + 1, cb =>
      if 1 < cb.active.length ∧ cb.dec.freeBlocks < cb.needed then do
        let (_, cb) ← cb.preemptLastActive dev
        makeRoomLoop fuel cb
      else
        .ok cb

def makeRoom (cb : ContinuousBatcher M B) : Except Panic (ContinuousBatcher M B) :=
  makeRoomLoop dev cb.active.length cb

/-! ### The decode phase of `step` -/

def decodeRows (active : List CbSeq) : List Row :=
  active.map fun s => { tok := s.next, pos := s.pos, slot := s.slot }

def seqSeed (s : CbSeq) : UInt32 := stepSeed s.baseSeed s.genIndex

/-- The cheapest selection that satisfies every active stream. -/
def decodeBatch (active : List CbSeq) (dec : BatchedDecoder M) :
    Except Panic (List Token × BatchedDecoder M) :=
  if active.any (·.params.needsTopk) then
    dec.stepSlottedTopk dev (decodeRows active) (active.map fun s => (s.params, seqSeed s))
  else if active.any (fun s => decide (0 < s.params.temp)) then
    dec.stepSlottedSample dev (decodeRows active) (active.map fun s => (s.params.temp, seqSeed s))
  else
    dec.stepSlotted dev (decodeRows active)

def eventOf (s : CbSeq) : Event := { id := s.id, tok := s.next, done := s.done }

/-- The `retain` after a decode: finished sequences give back their slots. -/
def retire : List CbSeq → BatchedDecoder M → (free : List Nat) →
    List CbSeq × BatchedDecoder M × List Nat
  | [], dec, free => ([], dec, free)
  | s :: rest, dec, free =>
      if s.done then
        retire rest (dec.freeSlot s.slot) (s.slot :: free)
      else
        let (kept, dec, free) := retire rest dec free
        (s :: kept, dec, free)

def decodeActive (cb : ContinuousBatcher M B) :
    Except Panic (List Event × ContinuousBatcher M B) :=
  if cb.active.isEmpty then
    .ok ([], cb)
  else do
    let cb ← cb.makeRoom dev
    let (nexts, dec) ← decodeBatch dev cb.active cb.dec
    let pushed := List.zipWith CbSeq.push cb.active nexts
    let (active, dec, free) := retire pushed dec cb.free
    return (pushed.map eventOf, { cb with active, dec, free })

/-! ### The decode phase of `step_pld` -/

def draftFor (lookupLen draftK : Nat) (s : CbSeq) : List Token :=
  let k := min draftK (s.maxTokens - s.genIndex)
  if 1 ≤ k then (SpecDecode.lookupDraftBest s.tokens s.tokens lookupLen k).getD [] else []

/-- `[next, draft…]` over consecutive positions of the sequence's slot. -/
def draftRows (s : CbSeq) (draft : List Token) : List Row :=
  (s.next :: draft).mapIdx fun j tok => { tok, pos := s.pos + j, slot := s.slot }

/-- How many draft tokens the forward's own choices agree with. -/
def acceptedLen (outs draft : List Token) : Nat :=
  ((outs.zip draft).takeWhile fun pair => pair.1 == pair.2).length

/-- Push tokens until one completes the request. -/
def commitTokens : List Token → CbSeq → CbSeq × List Event
  | [], s => (s, [])
  | tok :: toks, s =>
      let s := s.push tok
      if s.done then (s, [eventOf s])
      else
        let (s', events) := commitTokens toks s
        (s', eventOf s :: events)

/-- Each sequence's slice of `outs`, and what it commits. -/
def commitDrafts : List (CbSeq × List Token) → (outs : List Token) → List CbSeq × List Event
  | [], _ => ([], [])
  | (s, draft) :: rest, outs =>
      let so := outs.take (1 + draft.length)
      let (s, events) := commitTokens (so.take (acceptedLen so draft + 1)) s
      let (ss, more) := commitDrafts rest (outs.drop (1 + draft.length))
      (s :: ss, events ++ more)

def decodeActivePld (lookupLen draftK : Nat) (cb : ContinuousBatcher M B) :
    Except Panic (List Event × ContinuousBatcher M B) :=
  if cb.active.isEmpty then
    .ok ([], cb)
  else do
    let cb ← cb.makeRoom dev
    let layout := cb.active.map fun s => (s, draftFor lookupLen draftK s)
    let (outs, dec) ← cb.dec.stepSlotted dev (layout.flatMap fun l => draftRows l.1 l.2)
    let (pushed, events) := commitDrafts layout outs
    let (active, dec, free) := retire pushed dec cb.free
    return (events, { cb with active, dec, free })

/-! ### Chunked prefill -/

/-- The loop of `advance_prefill` that makes the chunk's blocks fit. Returns false where nothing is
left to preempt; a preemption removes a sequence, so `fuel` sequences bound the iterations. -/
def makeChunkRoom (slot chunkEnd : Nat) :
    (fuel : Nat) → ContinuousBatcher M B → Except Panic (Bool × ContinuousBatcher M B)
  | 0, cb => .ok (false, cb)
  | fuel + 1, cb =>
      if cb.dec.freeBlocks < cb.dec.blocksShort slot chunkEnd then do
        let (preempted, cb) ← cb.preemptLastActive dev
        if preempted then
          makeChunkRoom slot chunkEnd fuel cb
        else
          let (preempted, cb) := cb.preemptLastPrefill
          if preempted then makeChunkRoom slot chunkEnd fuel cb else .ok (false, cb)
      else
        .ok (true, cb)

def advancePrefill (cb : ContinuousBatcher M B) :
    Except Panic (List Event × ContinuousBatcher M B) :=
  match cb.prefilling with
  | [] => .ok ([], cb)
  | front :: _ => do
      let chunkEnd := min (front.prefillPos + cb.dec.cfg.rowCap) front.promptLen
      let (fits, cb) ← makeChunkRoom dev front.slot chunkEnd
        (cb.active.length + cb.prefilling.length) cb
      if !fits then
        return ([], cb)
      match cb.prefilling with
      | [] => .error .indexOutOfBounds
      | pf :: rest => do
          let ((next, g0), dec) ← cb.dec.prefillChunk dev pf.prompt front.slot front.prefillPos
            (firstSampling front.params front.baseSeed 0)
          match g0 with
          | none =>
              return ([], { cb with dec, prefilling := { pf with prefillPos := next } :: rest })
          | some g => do
              let dec ← dec.prefillRegister dev pf.prompt pf.slot pf.cachedBlocks
              let done : Bool := pf.maxTokens ≤ 1 || g == pf.eos
              if done then
                return ([{ id := pf.id, tok := g, done }], { cb with
                  dec := dec.freeSlot pf.slot, prefilling := rest, free := pf.slot :: cb.free })
              else
                return ([{ id := pf.id, tok := g, done }], { cb with
                  dec, prefilling := rest
                  active := cb.active ++ [{
                    id := pf.id, slot := pf.slot, tokens := pf.prompt ++ [g]
                    promptLen := pf.promptLen, maxTokens := pf.maxTokens, eos := pf.eos
                    params := pf.params, baseSeed := pf.baseSeed }] })

/-! ### Rescheduling -/

/-- One single-row decode, selected by the sequence's own parameters. -/
def decodeOne (row : Row) (params : SamplingParams) (seed : UInt32) (dec : BatchedDecoder M) :
    Except Panic (Token × BatchedDecoder M) := do
  let (nexts, dec) ←
    if params.needsTopk then dec.stepSlottedTopk dev [row] [(params, seed)]
    else if 0 < params.temp then dec.stepSlottedSample dev [row] [(params.temp, seed)]
    else dec.stepSlotted dev [row]
  match nexts with
  | [] => .error .indexOutOfBounds
  | tok :: _ => return (tok, dec)

/-- The next token of a preempted sequence resumed in `slot`. -/
def resumeSeq (p : PreemptedSeq B) (slot : Nat) (dec : BatchedDecoder M) :
    Except Panic (Token × BatchedDecoder M) :=
  let genIdx := p.tokens.length - p.promptLen
  match p.kv with
  | some kv => do
      let (_, dec) ← dec.swapIn dev slot kv
      decodeOne dev { tok := p.tokens.getLastD 0, pos := p.tokens.length - 1, slot } p.params
        (stepSeed p.baseSeed genIdx) dec
  | none => do
      let ((g, _), dec) ← dec.prefillSlotCached dev p.tokens slot
        (firstSampling p.params p.baseSeed genIdx)
      return (g, dec)

/-- The loop of `reschedule`; every iteration takes one preempted sequence. -/
def rescheduleLoop : (fuel : Nat) → ContinuousBatcher M B →
    Except Panic (List Event × ContinuousBatcher M B)
  | 0, cb => .ok ([], cb)
  | fuel + 1, cb =>
      match cb.preempted, cb.free with
      | p :: preempted, slot :: free =>
          if cb.dec.canFit p.tokens.length then do
            let (g, dec) ← resumeSeq dev p slot cb.dec
            let s : CbSeq := {
              id := p.id, slot, tokens := p.tokens ++ [g], promptLen := p.promptLen
              maxTokens := p.maxTokens, eos := p.eos, params := p.params, baseSeed := p.baseSeed }
            let cb :=
              if s.done then { cb with dec := dec.freeSlot slot, preempted, free := slot :: free }
              else { cb with dec, preempted, free, active := cb.active ++ [s] }
            let (events, cb) ← rescheduleLoop fuel cb
            return (eventOf s :: events, cb)
          else
            .ok ([], cb)
      | _, _ => .ok ([], cb)

def reschedule (cb : ContinuousBatcher M B) : Except Panic (List Event × ContinuousBatcher M B) :=
  rescheduleLoop dev cb.preempted.length cb

/-! ### One scheduler step -/

def step (cb : ContinuousBatcher M B) : Except Panic (List Event × ContinuousBatcher M B) := do
  let (decoded, cb) ← cb.decodeActive dev
  let (prefilled, cb) ← cb.advancePrefill dev
  let (resumed, cb) ← cb.reschedule dev
  return (decoded ++ prefilled ++ resumed, cb)

def stepPld (lookupLen draftK : Nat) (cb : ContinuousBatcher M B) :
    Except Panic (List Event × ContinuousBatcher M B) := do
  let (decoded, cb) ← cb.decodeActivePld dev lookupLen draftK
  let (prefilled, cb) ← cb.advancePrefill dev
  let (resumed, cb) ← cb.reschedule dev
  return (decoded ++ prefilled ++ resumed, cb)

end ContinuousBatcher

end Zllm.Gpu

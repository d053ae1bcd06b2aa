import Zllm.Basic
import Zllm.Lib.Outcome
import Zllm.Llama.Layer
import Zllm.Loader.Rotary

/-!
# The candle model

`quantized_llama_fork.rs` and `sdpa_cpu.rs` in exact arithmetic: a projection, a norm or a
feed-forward block is a function of a row, everything around them is as the code has it. A tensor of
one batch is a list of rows. What the code calls of `candle_nn` is a parameter with what is
documented of it. The Metal branch of the attention is left out.
-/

namespace Zllm.Dense

open Finset Tile Loader

abbrev Row := ℕ → ℝ

inductive CandleError
  | indexSelect
  | narrow
  | broadcast
  | outOfRange
  | notLoaded
  | emptyInput
  | shape
  deriving DecidableEq

/-! ### Attention over strided views -/

/-- Heads, positions and unit-strided dimensions in a flat buffer. -/
structure View where
  data : ℕ → ℝ
  offset : ℕ
  headStride : ℕ
  timeStride : ℕ

def View.at (v : View) (h t d : ℕ) : ℝ :=
  v.data (v.offset + h * v.headStride + t * v.timeStride + d)

/-- `max_s`, from `f32::NEG_INFINITY` on. -/
noncomputable def maxScore (s : ℕ → WithBot ℝ) (n : ℕ) : WithBot ℝ :=
  (List.range n).foldl (fun mx t => if mx < s t then s t else mx) ⊥

/-- `(s - max_s).exp()` -/
noncomputable def expBelow (mx s : WithBot ℝ) : ℝ :=
  match s with
  | ⊥ => 0
  | (s : ℝ) => Real.exp (s - mx.unbotD 0)

/-- The exponentials over their sum. -/
noncomputable def softmax (s : ℕ → WithBot ℝ) (n t : ℕ) : ℝ :=
  expBelow (maxScore s n) (s t) * (1 / ∑ t ∈ range n, expBelow (maxScore s n) (s t))

/-- The functions of `candle_nn` that a layer calls: the two rotary embeddings, the softmax of a row
of scores, which dimensions of a mask broadcast, and for how many positions the buffers of a cache
have room. -/
structure CandleNn where
  rope : (heads headDim : ℕ) → (cos sin : ℕ → ℝ) → Row → Row
  ropeI : (heads headDim : ℕ) → (cos sin : ℕ → ℝ) → Row → Row
  softmaxLastDim : (ℕ → WithBot ℝ) → (n t : ℕ) → ℝ
  broadcasts : (dim target : ℕ) → Bool
  capacity : (maxSeqLen currentSeqLen : ℕ) → ℕ
  softmaxLastDim_eq : ∀ s n, ∀ t < n, softmaxLastDim s n t = softmax s n t
  broadcasts_iff : ∀ dim target, broadcasts dim target = true ↔ dim = target ∨ dim = 1
  le_capacity : ∀ maxSeqLen currentSeqLen, currentSeqLen ≤ capacity maxSeqLen currentSeqLen

section

variable (q k v : View) (nHead kvRepeat headDim currentLen : ℕ) (invSqrtD : ℝ)

/-- `sdpa_inner_scalar` -/
noncomputable def sdpaInnerScalar : Row :=
  cut (nHead * headDim) fun i =>
    let h := i / headDim
    let scores t := (∑ d ∈ range headDim, q.at h 0 d * k.at (h / kvRepeat) t d) * invSqrtD
    ∑ t ∈ range currentLen, softmax (fun t => scores t) currentLen t *
      v.at (h / kvRepeat) t (i % headDim)

def lanes : ℕ := 16

/-- `sdpa_inner_avx512`: the lanes of a register are summed last. -/
noncomputable def sdpaInnerAvx512 : Row :=
  cut (nHead * headDim) fun i =>
    let h := i / headDim
    let nVec := headDim / lanes
    let acc t lane := ∑ i ∈ range nVec,
      q.at h 0 (i * lanes + lane) * k.at (h / kvRepeat) t (i * lanes + lane)
    let scores t := (∑ lane ∈ range lanes, acc t lane) * invSqrtD
    let oreg i lane := ∑ t ∈ range currentLen, softmax (fun t => scores t) currentLen t *
      v.at (h / kvRepeat) t (i * lanes + lane)
    oreg (i % headDim / lanes) (i % headDim % lanes)

/-- `sdpa_gqa_decode` -/
noncomputable def sdpaGqaDecode (avx512f : Bool) (nKvHead : ℕ) : Row :=
  if headDim % lanes = 0 ∧ headDim ≤ 128 ∧ avx512f then
    sdpaInnerAvx512 q k v nHead (nHead / nKvHead) headDim currentLen (1 / √headDim)
  else
    sdpaInnerScalar q k v nHead (nHead / nKvHead) headDim currentLen (1 / √headDim)

end

/-! ### The cache -/

/-- `KvCache` of `candle_nn`: the key and the value row of each position, in buffers that are
allocated for `maxSeqLen` positions and grow where these do not suffice. -/
structure KvCache where
  maxSeqLen : ℕ
  rows : List (Row × Row)

namespace KvCache

variable (c : KvCache)

def currentSeqLen : ℕ := c.rows.length

def append (rows : List (Row × Row)) : KvCache := { c with rows := c.rows ++ rows }

def reset : KvCache := { c with rows := [] }

/-- Heads are outermost in the buffer. -/
def view (nn : CandleNn) (headDim : ℕ) (rowOf : Row × Row → Row) : View :=
  let capacity := nn.capacity c.maxSeqLen c.currentSeqLen
  { data i := rowOf (c.rows.getD (i % (capacity * headDim) / headDim) default)
      (i / (capacity * headDim) * headDim + i % headDim)
    offset := 0
    headStride := capacity * headDim
    timeStride := headDim }

/-- The layer's part of `truncate_kv_cache`. -/
def truncate (n : ℕ) : KvCache :=
  if c.currentSeqLen ≤ n then c
  else if n = 0 then c.reset
  else c.reset.append (c.rows.take n)

end KvCache

/-! ### A layer -/

structure LayerWeights where
  nn : CandleNn
  attentionWq : Row → Row
  attentionWk : Row → Row
  attentionWv : Row → Row
  attentionWo : Row → Row
  attentionBq : Option Row
  attentionBk : Option Row
  attentionBv : Option Row
  attentionNorm : Row → Row
  mlp : Row → Row
  ffnNorm : Row → Row
  nHead : ℕ
  nKvHead : ℕ
  headDim : ℕ
  ropeNeox : Bool
  tables : RopeTables
  headDim_even : Even headDim
  nKvHead_pos : 0 < nKvHead
  nKvHead_dvd : nKvHead ∣ nHead

/-- Whether the tensors are on the CPU, and what the CPU has. -/
structure Device where
  isCpu : Bool
  avx512f : Bool

/-- A causal mask, true where a key is hidden from a query. -/
structure Mask where
  seqLen : ℕ
  kvLen : ℕ
  hidden : ℕ → ℕ → Bool

/-- `build_causal_mask`: the prefix is open to every query. -/
def buildCausalMask (seqLen indexPos : ℕ) : Mask :=
  { seqLen, kvLen := indexPos + seqLen, hidden i j := indexPos + i < j }

def addBias (bias : Option Row) (x : Row) : Row :=
  match bias with
  | some b => x + b
  | none => x

namespace LayerWeights

variable (w : LayerWeights)

noncomputable def applyRotaryEmb (heads pos : ℕ) (x : Row) : Row :=
  if w.ropeNeox then w.nn.rope heads w.headDim (w.tables.cos pos) (w.tables.sin pos) x
  else w.nn.ropeI heads w.headDim (w.tables.cos pos) (w.tables.sin pos) x

/-- The prefill path: `repeat_kv`, the two products, and the softmax under the mask between them. -/
noncomputable def matmulAttention (rows : List (Row × Row)) (mask : Option Mask) (i : ℕ) (q : Row) :
    Row :=
  cut (w.nHead * w.headDim) fun j =>
    let kvHead := j / w.headDim / (w.nHead / w.nKvHead)
    let key t := (rows.getD t default).1
    let value t := (rows.getD t default).2
    let att t : WithBot ℝ :=
      if mask.any (·.hidden i t) then ⊥
      else ((∑ d ∈ range w.headDim, q (j / w.headDim * w.headDim + d) *
        key t (kvHead * w.headDim + d)) / √w.headDim : ℝ)
    ∑ t ∈ range rows.length, w.nn.softmaxLastDim att rows.length t *
      value t (kvHead * w.headDim + j % w.headDim)

/-- `forward_attn` with the cache it leaves, also where it fails. -/
noncomputable def forwardAttn (dev : Device) (cache : KvCache) (x : List Row) (mask : Option Mask)
    (indexPos : ℕ) : Except CandleError (List Row) × KvCache :=
  let q := x.map fun x => addBias w.attentionBq (w.attentionWq x)
  let k := x.map fun x => addBias w.attentionBk (w.attentionWk x)
  let v := x.map fun x => addBias w.attentionBv (w.attentionWv x)
  if w.tables.maxSeq < indexPos + x.length then (.error .narrow, cache)
  else
    let q := q.mapIdx fun r => w.applyRotaryEmb w.nHead (indexPos + r)
    let k := k.mapIdx fun r => w.applyRotaryEmb w.nKvHead (indexPos + r)
    let cache := cache.append (k.zip v)
    if x.length = 1 ∧ dev.isCpu then
      (.ok (q.map fun q => w.attentionWo (sdpaGqaDecode
        { data := q, offset := 0, headStride := w.headDim, timeStride := w.headDim }
        (cache.view w.nn w.headDim Prod.fst) (cache.view w.nn w.headDim Prod.snd) w.nHead w.headDim
        cache.currentSeqLen dev.avx512f w.nKvHead)), cache)
    else if mask.all fun mask => w.nn.broadcasts mask.seqLen x.length &&
        w.nn.broadcasts mask.kvLen cache.currentSeqLen then
      (.ok (q.mapIdx fun i q => w.attentionWo (w.matmulAttention cache.rows mask i q)), cache)
    else (.error .broadcast, cache)

/-- The body of the layer loop, the same in every forward pass. -/
noncomputable def blockForward (dev : Device) (cache : KvCache) (x : List Row) (mask : Option Mask)
    (indexPos : ℕ) : Except CandleError (List Row) × KvCache :=
  match w.forwardAttn dev cache (x.map w.attentionNorm) mask indexPos with
  | (.error e, cache) => (.error e, cache)
  | (.ok attn, cache) =>
      let x := List.zipWith (· + ·) attn x
      (.ok (List.zipWith (· + ·) (x.map fun x => w.mlp (w.ffnNorm x)) x), cache)

end LayerWeights

/-! ### The model -/

structure Block where
  weights : LayerWeights
  kvCache : KvCache

structure ModelWeights where
  vocabSize : ℕ
  tokEmbeddings : Token → Row
  layers : List Block
  norm : Row → Row
  output : Row → Row
  /-- Keyed by `seq_len` and `kv_len`. -/
  masks : List ((ℕ × ℕ) × Mask)

/-- The layer loop with what is done behind each layer: a residual stream to go on from, or none to
leave the loop. It tells which layer it was left at. -/
noncomputable def forwardLayers (dev : Device) (mask : Option Mask) (indexPos : ℕ)
    (onLayer : ℕ → List Row → Option (List Row)) :
    (layerIdx : ℕ) → List Block → List Row →
      Except CandleError (List Row × Option ℕ) × List Block
  | _, [], x => (.ok (x, none), [])
  | layerIdx, b :: rest, x =>
      match b.weights.blockForward dev b.kvCache x mask indexPos with
      | (.error e, cache) => (.error e, { b with kvCache := cache } :: rest)
      | (.ok x, cache) =>
          let b := { b with kvCache := cache }
          match onLayer layerIdx x with
          | none => (.ok (x, some layerIdx), b :: rest)
          | some x =>
              let (result, rest) := forwardLayers dev mask indexPos onLayer (layerIdx + 1) rest x
              (result, b :: rest)

namespace ModelWeights

variable (m : ModelWeights)

def mask (seqLen indexPos : ℕ) : Mask × ModelWeights :=
  match m.masks.lookup (seqLen, indexPos + seqLen) with
  | some mask => (mask, m)
  | none =>
      let mask := buildCausalMask seqLen indexPos
      (mask, { m with masks := ((seqLen, indexPos + seqLen), mask) :: m.masks })

def clearKvCache : ModelWeights :=
  { m with layers := m.layers.map fun b => { b with kvCache := b.kvCache.reset } }

def truncateKvCache (n : ℕ) : ModelWeights :=
  { m with layers := m.layers.map fun b => { b with kvCache := b.kvCache.truncate n } }

/-- What the forward passes share: the mask, the embeddings and the layer loop. -/
noncomputable def forwardRows (dev : Device) (tokens : List Token) (indexPos : ℕ)
    (onLayer : ℕ → List Row → Option (List Row)) :
    Except CandleError (List Row × Option ℕ) × ModelWeights :=
  let (mask, m) :=
    if tokens.length = 1 then (none, m)
    else
      let (mask, m) := m.mask tokens.length indexPos
      (some mask, m)
  if tokens.all (· < m.vocabSize) then
    let (result, layers) :=
      forwardLayers dev mask indexPos onLayer 0 m.layers (tokens.map m.tokEmbeddings)
    (result, { m with layers })
  else (.error .indexSelect, m)

/-- The last row through the final norm and the head. -/
def lastLogits (x : List Row) : Row := m.output (m.norm (x.getLastD default))

noncomputable def forwardWithCallback (dev : Device) (tokens : List Token) (indexPos : ℕ)
    (onLayer : ℕ → List Row → Option (List Row)) : Except CandleError Row × ModelWeights :=
  let (result, m) := m.forwardRows dev tokens indexPos fun l x => some ((onLayer l x).getD x)
  (result.map fun x => m.lastLogits x.1, m)

/-- The last layer is never an early exit. -/
noncomputable def forwardWithEarlyExit (dev : Device) (tokens : List Token) (indexPos : ℕ)
    (shouldExit : ℕ → List Row → Bool) : Except CandleError (Row × ℕ) × ModelWeights :=
  let lastLayer := m.layers.length - 1
  let (result, m) := m.forwardRows dev tokens indexPos fun l x =>
    if l < lastLayer ∧ shouldExit l x then none else some x
  (result.map fun x => (m.lastLogits x.1, x.2.getD lastLayer), m)

noncomputable def forwardAllPositions (dev : Device) (tokens : List Token) (indexPos : ℕ) :
    Except CandleError (List Row) × ModelWeights :=
  let (result, m) := m.forwardRows dev tokens indexPos fun _ x => some x
  (result.map fun x => x.1.map fun x => m.output (m.norm x), m)

/-- `forward_one_layer`: the cache is empty before and after, but for what a pass that fails has
stored. -/
noncomputable def forwardOneLayer (dev : Device) (layerIdx : ℕ) (x : List Row) :
    Except CandleError (List Row) × ModelWeights :=
  let (mask, m) :=
    if x.length = 1 then (none, m)
    else
      let (mask, m) := m.mask x.length 0
      (some mask, m)
  match m.layers[layerIdx]? with
  | none => (.error .outOfRange, m)
  | some b =>
      match b.weights.blockForward dev b.kvCache.reset x mask 0 with
      | (.error e, cache) =>
          (.error e, { m with layers := m.layers.set layerIdx { b with kvCache := cache } })
      | (.ok out, cache) =>
          (.ok out, { m with layers := m.layers.set layerIdx { b with kvCache := cache.reset } })

end ModelWeights

/-! ### The backend -/

/-- `CandleCpuBackend` -/
structure Backend where
  model : Option ModelWeights
  device : Device
  nLayers : ℕ
  hiddenSize : ℕ
  indexPos : ℕ
  /-- `ZLLM_PREFILL_CHUNK` -/
  prefillChunk : Option ℕ

namespace Backend

variable (b : Backend)

def resetPosition : Backend :=
  { b with model := b.model.map (·.clearKvCache), indexPos := 0 }

def truncateTo (n : ℕ) : Backend :=
  { b with model := b.model.map (·.truncateKvCache n), indexPos := n }

def chunk : ℕ := max (b.prefillChunk.getD 512) 16

/-- The pieces of a prompt, so many of them to go. A piece that fails leaves the position where it
was. -/
noncomputable def forwardPieces (dev : Device) (onLayer : ℕ → List Row → Option (List Row))
    (chunk : ℕ) :
    (pieces : ℕ) → List Token → ModelWeights → (indexPos : ℕ) → (last : Option Row) →
      Except CandleError (Option Row) × ModelWeights × ℕ
  | 0, _, m, indexPos, last => (.ok last, m, indexPos)
  | pieces + 1, tokens, m, indexPos, last =>
      if tokens.isEmpty then (.ok last, m, indexPos)
      else
        match m.forwardWithCallback dev (tokens.take chunk) indexPos onLayer with
        | (.error e, m) => (.error e, m, indexPos)
        | (.ok logits, m) =>
            forwardPieces dev onLayer chunk pieces (tokens.drop chunk) m
              (indexPos + (tokens.take chunk).length) (some logits)

noncomputable def forwardLogitsWithObserver (tokens : List Token)
    (onLayer : ℕ → List Row → Option (List Row)) : Except CandleError Row × Backend :=
  match b.model with
  | none => (.error .notLoaded, b)
  | some m =>
      if tokens.isEmpty then (.error .emptyInput, b)
      else
        let (last, m, indexPos) :=
          forwardPieces b.device onLayer b.chunk tokens.length tokens m b.indexPos none
        (last.map fun logits => logits.getD default, { b with model := some m, indexPos })

noncomputable def forwardLogits (tokens : List Token) : Except CandleError Row × Backend :=
  b.forwardLogitsWithObserver tokens fun _ _ => none

/-- The position moves where the pass succeeds. -/
def advance {α : Type} (n : ℕ) (r : Except CandleError α × ModelWeights) :
    Except CandleError α × Backend :=
  (r.1, { b with model := some r.2, indexPos := b.indexPos + if r.1.isOk then n else 0 })

noncomputable def forwardLogitsEarlyExit (tokens : List Token)
    (shouldExit : ℕ → List Row → Bool) : Except CandleError (Row × ℕ) × Backend :=
  match b.model with
  | none => (.error .notLoaded, b)
  | some m =>
      b.advance tokens.length (m.forwardWithEarlyExit b.device tokens b.indexPos shouldExit)

noncomputable def forwardAllLogits (tokens : List Token) :
    Except CandleError (List Row) × Backend :=
  match b.model with
  | none => (.error .notLoaded, b)
  | some m => b.advance tokens.length (m.forwardAllPositions b.device tokens b.indexPos)

/-! ### One layer at a time -/

/-- `flatten_all` and `to_vec1` -/
def flatten (width : ℕ) (x : List Row) : List ℝ := x.flatMap fun x => (List.range width).map x

/-- `from_slice` -/
def rowsOf (seqLen width : ℕ) (hidden : List ℝ) : List Row :=
  (List.range seqLen).map fun r => cut width fun d => hidden.getD (r * width + d) 0

def embedTokens (tokens : List Token) : Except CandleError (List ℝ) :=
  match b.model with
  | none => .error .notLoaded
  | some m =>
      if tokens.isEmpty then .error .emptyInput
      else if tokens.all (· < m.vocabSize) then
        .ok (flatten b.hiddenSize (tokens.map m.tokEmbeddings))
      else .error .indexSelect

noncomputable def forwardLayer (layerIdx : ℕ) (hidden : List ℝ) (seqLen : ℕ) :
    Except CandleError (List ℝ) × Backend :=
  if seqLen = 0 ∨ hidden.length ≠ seqLen * b.hiddenSize then (.error .shape, b)
  else
    match b.model with
    | none => (.error .notLoaded, b)
    | some m =>
        let (out, m) :=
          m.forwardOneLayer b.device layerIdx (rowsOf seqLen b.hiddenSize hidden)
        (out.map (flatten b.hiddenSize), { b with model := some m })

/-- The head has a row for each token. -/
def computeLogits (hidden : List ℝ) : Except CandleError (List ℝ) :=
  match b.model with
  | none => .error .notLoaded
  | some m =>
      if b.hiddenSize = 0 ∨ hidden.isEmpty ∨ hidden.length % b.hiddenSize ≠ 0 then .error .shape
      else
        .ok (flatten m.vocabSize
          [m.lastLogits (rowsOf (hidden.length / b.hiddenSize) b.hiddenSize hidden)])

end Backend

end Zllm.Dense

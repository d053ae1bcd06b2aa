import Zllm.Lib.Workgroup
import Zllm.Vulkan.Kernels

/-!
# The decoding attention shaders, lane by lane

The shaders of attention over the cache as the stores of their lanes, at the addresses the shaders
compute, and the dispatches the host records for them. Sums are exact, so a loop that only adds is
a sum; the exponential is any positive function that takes sums to products. A buffer's range is
below `2 ^ 32` bytes, so no address of one of its elements wraps.
-/

namespace Zllm.Vulkan.FlashDecode

open Finset Workgroup
open Gpu (Buf)
open Softmax (Partial)

/-- The uniforms `n_head`, `n_kv` and `hd`. -/
structure Heads where
  nHead : ℕ
  nKv : ℕ
  hd : ℕ

namespace Heads

variable (p : Heads)

/-- `kb`: where position `t` of head `h` starts in the caches. -/
def kb (h t : ℕ) : ℕ :=
  let kvh := h / (p.nHead / p.nKv)
  (t * p.nKv + kvh) * p.hd

noncomputable def scale : ℝ := 1 / √p.hd

/-- `dpl`, the dimensions of a lane. -/
def dpl : ℕ := (p.hd + 31) / 32

/-- The `i` for which lane `lane` has a dimension `d = lane + i * 32`. -/
def owned (lane : ℕ) : List ℕ := (List.range p.dpl).filter (lane + · * 32 < p.hd)

end Heads

/-- The lanes of one wave. -/
def wave (stores : ℕ → List (ℕ × ℝ)) : List (ℕ × ℝ) := (List.range 32).flatMap stores

/-- `subgroupAdd` -/
def subgroupAdd (x : ℕ → ℝ) : ℝ := ∑ lane ∈ range 32, x lane

/-- The largest of `n` numbers, from the shaders' `-1e30`. -/
noncomputable def maxFrom (n : ℕ) (x : ℕ → ℝ) : ℝ :=
  (List.range n).foldl (fun m i => max m (x i)) (-1e30)

variable (E : Exponential) (p : Heads) (q kc vc : Buf)

/-! ### Partials of a block -/

/-- `BLOCK` -/
abbrev blockSize : ℕ := 32

/-- `n_blocks` -/
def nBlocks (seqLen : ℕ) : ℕ := (seqLen + blockSize - 1) / blockSize

/-- `pp` of the two-pass shader: a lane's share of `q·k`, two dimensions of it. -/
noncomputable def twoDims (h t lane : ℕ) : ℝ :=
  let a0 := lane < p.hd
  let a1 := lane + 32 < p.hd
  let qd0 := if a0 then q (h * p.hd + lane) else 0
  let qd1 := if a1 then q (h * p.hd + lane + 32) else 0
  (if a0 then qd0 * kc (p.kb h t + lane) else 0) +
    if a1 then qd1 * kc (p.kb h t + lane + 32) else 0

/-- `sdpa_flash_partial2.comp` on workgroup `(h, blk)`: a block's scores first, into `sc`. -/
noncomputable def sdpaFlashPartial2 (seqLen h blk : ℕ) : List (ℕ × ℝ) :=
  let start := blk * blockSize
  let bk := min (start + blockSize) seqLen - start
  let sc (i : ℕ) : ℝ := subgroupAdd (twoDims p q kc h (start + i)) * p.scale
  let m := maxFrom bk sc
  let l := ∑ i ∈ range bk, E (sc i - m)
  let base := (h * nBlocks seqLen + blk) * (p.hd + 2)
  wave fun lane =>
    let av0 := ∑ i ∈ range bk, E (sc i - m) * vc (p.kb h (start + i) + lane)
    let av1 := ∑ i ∈ range bk, E (sc i - m) * vc (p.kb h (start + i) + lane + 32)
    (if lane < p.hd then [(base + lane, av0)] else []) ++
    (if lane + 32 < p.hd then [(base + lane + 32, av1)] else []) ++
    if lane = 0 then [(base + p.hd, m), (base + p.hd + 1, l)] else []

/-- `partial` of the online shader: a lane's share of `q·k`. -/
noncomputable def laneDot (h t lane : ℕ) : ℝ :=
  ∑ i ∈ range p.dpl,
    let d := lane + i * 32
    let qd := if d < p.hd then q (h * p.hd + d) else 0
    if d < p.hd then qd * kc (p.kb h t + d) else 0

/-- Position `t` in a lane's online softmax, whose sums are those of its own dimensions. -/
noncomputable def onlineStep (h lane : ℕ) (st : Partial) (t : ℕ) : Partial :=
  let s := subgroupAdd (laneDot p q kc h t) * p.scale
  let mn := max st.mx s
  let corr := E (st.mx - mn)
  let pe := E (s - mn)
  { mx := mn
    l := st.l * corr + pe
    av := fun i =>
      let d := lane + i * 32
      if d < p.hd then st.av i * corr + pe * vc (p.kb h t + d) else st.av i }

/-- `sdpa_flash_partial.comp` on workgroup `(h, blk)`: a block's positions one after the other. -/
noncomputable def sdpaFlashPartial (seqLen h blk : ℕ) : List (ℕ × ℝ) :=
  let start := blk * blockSize
  let stop := min (start + blockSize) seqLen
  let base := (h * nBlocks seqLen + blk) * (p.hd + 2)
  wave fun lane =>
    let st := (List.range' start (stop - start)).foldl (onlineStep E p q kc vc h lane)
      { mx := -1e30, l := 0, av := fun _ => 0 }
    (p.owned lane).map (fun i => (base + (lane + i * 32), st.av i)) ++
    if lane = 0 then [(base + p.hd, st.mx), (base + p.hd + 1, st.l)] else []

/-! ### Merging partials -/

/-- What a workgroup merges of the records `start .. stop` of head `h`, at `nIn` records a head. -/
noncomputable def mergeRecords (inp : Buf) (h nIn start stop : ℕ) : Partial :=
  let base (i : ℕ) : ℕ := (h * nIn + (start + i)) * (p.hd + 2)
  let n := stop - start
  let gm := maxFrom n fun i => inp (base i + p.hd)
  let w (i : ℕ) : ℝ := E (inp (base i + p.hd) - gm)
  { mx := gm
    l := ∑ i ∈ range n, inp (base i + p.hd + 1) * w i
    av := fun d => ∑ i ∈ range n, inp (base i + d) * w i }

/-- The stores of a head's output row. -/
noncomputable def normalized (h : ℕ) (r : Partial) : List (ℕ × ℝ) :=
  let inv := 1 / r.l
  wave fun lane => (p.owned lane).map fun i =>
    let d := lane + i * 32
    (h * p.hd + d, r.av d * inv)

/-- `sdpa_flash_combine.comp` on workgroup `h`. -/
noncomputable def sdpaFlashCombine (seqLen : ℕ) (part : Buf) (h : ℕ) : List (ℕ × ℝ) :=
  normalized p h (mergeRecords E p part h (nBlocks seqLen) 0 (nBlocks seqLen))

/-- The uniforms `n_in`, `chunk` and `final_norm`. -/
structure Level where
  nIn : ℕ
  chunk : ℕ
  finalNorm : ℕ

/-- `sdpa_flash_combine_h.comp` on workgroup `(h, sg)`. -/
noncomputable def sdpaFlashCombineH (u : Level) (inp : Buf) (h sg : ℕ) : List (ℕ × ℝ) :=
  let start := sg * u.chunk
  let stop := min (start + u.chunk) u.nIn
  let nSuper := (u.nIn + u.chunk - 1) / u.chunk
  let r := mergeRecords E p inp h u.nIn start stop
  if u.finalNorm = 1 then normalized p h r
  else
    let ob := (h * nSuper + sg) * (p.hd + 2)
    wave fun lane =>
      (p.owned lane).map (fun i => (ob + (lane + i * 32), r.av (lane + i * 32))) ++
      if lane = 0 then [(ob + p.hd, r.mx), (ob + p.hd + 1, r.l)] else []

/-! ### All positions in one workgroup -/

/-- `MAXSEQ` -/
def maxSeq : ℕ := 512

/-- What 64 threads store between two barriers to an array of `len` in shared memory. A store past
its end is lost. -/
def share (len : ℕ) (stores : ℕ → List (ℕ × ℝ)) (shared : ℕ → ℝ) : ℕ → ℝ :=
  perform (((List.range 64).flatMap stores).filter (·.1 < len)) shared

/-- The positions of thread `t`. -/
def positions (seqLen t : ℕ) : List ℕ := strided 64 seqLen t

/-- `qsh`, the head's query. -/
def queryShared (junk : ℕ → ℝ) (h : ℕ) : ℕ → ℝ :=
  share 64 (fun t => if t < p.hd then [(t, q (h * p.hd + t))] else []) junk

/-- Phase 1: the scores in `sc`. -/
noncomputable def scoresShared (junk : ℕ → ℝ) (seqLen h : ℕ) : ℕ → ℝ :=
  let qsh := queryShared p q junk h
  share maxSeq (fun t => (positions seqLen t).map fun pos =>
    (pos, (∑ d ∈ range p.hd, qsh d * kc (p.kb h pos + d)) * p.scale)) junk

/-- Phase 2: the largest score. -/
noncomputable def maxShared (seqLen : ℕ) (sc : ℕ → ℝ) : ℝ :=
  reduce max 6 fun t => (positions seqLen t).foldl (fun m pos => max m (sc pos)) (-1e30)

/-- Phase 3: the exponentials in place of the scores. -/
noncomputable def probsShared (seqLen : ℕ) (mx : ℝ) (sc : ℕ → ℝ) : ℕ → ℝ :=
  share maxSeq (fun t => (positions seqLen t).map fun pos => (pos, E (sc pos - mx))) sc

/-- Phase 3: their sum. -/
noncomputable def sumShared (seqLen : ℕ) (mx : ℝ) (sc : ℕ → ℝ) : ℝ :=
  reduce (· + ·) 6 fun t => ((positions seqLen t).map fun pos => E (sc pos - mx)).sum

/-- `sdpa_decode.comp` on workgroup `h`, with `junk` in its shared memory at first. -/
noncomputable def sdpaDecode (junk : ℕ → ℝ) (seqLen h : ℕ) : List (ℕ × ℝ) :=
  let sc := scoresShared p q kc junk seqLen h
  let mx := maxShared seqLen sc
  let probs := probsShared E seqLen mx sc
  let l := sumShared E seqLen mx sc
  (List.range 64).flatMap fun t =>
    if t < p.hd then
      [(h * p.hd + t, (∑ pos ∈ range seqLen, probs pos * vc (p.kb h pos + t)) / l)]
    else []

/-! ### The host's dispatches -/

/-- `ZLLM_FLAT_COMBINE` and `ZLLM_ONLINE_PARTIAL`, as `forward_inner` reads them. -/
structure Flags where
  flatCombine : Bool
  onlinePartial : Bool

variable (flags : Flags)

/-- The partials of a token's attention, in the shader `fp_pipe` chooses. -/
noncomputable def partialStores (seqLen : ℕ) : List (ℕ × ℝ) :=
  let nblk := seqLen ⌈/⌉ flashBlock
  let useP2 := p.hd ≤ 64 && !flags.onlinePartial
  grid p.nHead nblk fun h blk =>
    if useP2 then sdpaFlashPartial2 E p q kc vc seqLen h blk
    else sdpaFlashPartial E p q kc vc seqLen h blk

/-- The split path: the partials into `part`, then the flat combine, or the two levels through
`supers`, into `attn`. -/
def SplitPath (seqLen : ℕ) (part supers attn attn' : Buf) : Prop :=
  let nblk := seqLen ⌈/⌉ flashBlock
  let nSuper := nblk ⌈/⌉ superBlocks
  ∃ part', Leaves (partialStores E p q kc vc flags seqLen) part part' ∧
    if flags.flatCombine then
      Leaves (grid p.nHead 1 fun h _ => sdpaFlashCombine E p seqLen part' h) attn attn'
    else
      ∃ supers',
        Leaves (grid p.nHead nSuper (sdpaFlashCombineH E p ⟨nblk, superBlocks, 0⟩ part'))
          supers supers' ∧
        Leaves (grid p.nHead 1 (sdpaFlashCombineH E p ⟨nSuper, nSuper, 1⟩ supers')) attn attn'

/-- The single-pass path. -/
def SinglePass (seqLen : ℕ) (attn attn' : Buf) : Prop :=
  ∃ junk : ℕ → ℕ → ℝ, Leaves (grid p.nHead 1 fun h _ => sdpaDecode E p q kc vc (junk h) seqLen h) attn attn'

/-- The attention of `forward_inner`, with position-major caches. -/
def Attends (seqLen : ℕ) (part supers attn attn' : Buf) : Prop :=
  if seqLen > flashMinSeq then SplitPath E p q kc vc flags seqLen part supers attn attn'
  else SinglePass E p q kc vc seqLen attn attn'

end Zllm.Vulkan.FlashDecode

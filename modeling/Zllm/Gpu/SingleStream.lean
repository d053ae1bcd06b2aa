import Mathlib.Algebra.Order.Floor.Div
import Zllm.Gpu.Kernels
import Zllm.Lib.Outcome

/-!
# Single-stream forward and batched prefill

`GpuModel` after loading: the buffers it keeps between calls, the uniforms whose contents a call
rewrites, and the two ways a prompt's tokens reach the caches, one `forward` for each or one
`prefill_forward` for all. A uniform written before a submission holds the last value written.
-/

namespace Zllm.Gpu

open Tile Loader CausalTower Outcome

/-! ### Dispatches -/

inductive GpuError where
  /-- A slice out of range, an assertion or a division by zero. -/
  | panicked
  /-- More workgroups in one dimension of a dispatch than the device takes. -/
  | invalidDispatch
deriving DecidableEq

/-- The per-dimension limit. -/
def maxWorkgroups : ℕ := 65535

inductive Launch where
  /-- `dispatch_workgroups(groups, 1, 1)` -/
  | line (groups : ℕ)
  /-- `dispatch_workgroups(gx, rows.div_ceil(gx), 1)` with `gx = rows.min(65535)` -/
  | grid (rows : ℕ)
deriving DecidableEq

/-- There is a grid, and the number of workgroups in each of its dimensions fits. -/
def Launch.Fits : Launch → Prop
  | line groups => groups ≤ maxWorkgroups
  | grid rows => 0 < rows ∧ rows ⌈/⌉ min rows maxWorkgroups ≤ maxWorkgroups

instance : DecidablePred Launch.Fits
  | .line groups => inferInstanceAs (Decidable (groups ≤ maxWorkgroups))
  | .grid rows =>
    inferInstanceAs (Decidable (0 < rows ∧ rows ⌈/⌉ min rows maxWorkgroups ≤ maxWorkgroups))

/-- A grid of no rows is a division by zero. -/
def Launch.record (launch : Launch) : Except GpuError Unit :=
  if launch.Fits then .ok ()
  else if launch = .grid 0 then .error .panicked
  else .error .invalidDispatch

theorem Launch.record_eq_ok {launch : Launch} {u : Unit} :
    launch.record = .ok u ↔ launch.Fits := by
  unfold Launch.record
  split_ifs with hfits hgrid <;> simp [hfits]

theorem forM_record_eq_ok {launches : List Launch} {u : Unit} :
    launches.forM Launch.record = .ok u ↔ ∀ launch ∈ launches, launch.Fits := by
  induction launches with
  | nil => simp [List.forM, pure, Except.pure]
  | cons launch rest ih =>
    rw [List.forall_mem_cons, ← ih, ← Launch.record_eq_ok (u := u)]
    show (launch.record >>= fun _ => rest.forM Launch.record) = .ok u ↔ _
    rw [bind_eq_ok]
    exact ⟨fun ⟨_, hhead, htail⟩ => ⟨hhead, htail⟩, fun ⟨hhead, htail⟩ => ⟨u, hhead, htail⟩⟩

/-! ### The resident state -/

/-- What `build_prefill_cache` allocates: scratch tiles, and the row count in each of the shared
parameter uniforms, whose other fields never change. -/
structure PrefillCache where
  xB : Buf
  normedB : Buf
  qB : Buf
  kB : Buf
  vB : Buf
  attnB : Buf
  gateB : Buf
  upB : Buf
  hB : Buf
  cosB : Buf
  sinB : Buf
  pWq : ℕ
  pWkv : ℕ
  pWo : ℕ
  pW13 : ℕ
  pW2 : ℕ
  pRopeQ : ℕ
  pRopeK : ℕ
  pSdpa : ℕ

/-- Buffers and uniforms that calls leave to later calls. -/
structure GpuState where
  xBuf : Buf
  cosBuf : Buf
  sinBuf : Buf
  normed : Buf
  q : Buf
  attnOut : Buf
  gate : Buf
  up : Buf
  logits : Buf
  kCache : ℕ → Buf
  vCache : ℕ → Buf
  /-- `out_base` in the parameters of each layer's `wk` and `wv`. -/
  wkBase : ℕ → ℕ
  wvBase : ℕ → ℕ
  ropeKBase : ℕ
  seqLen : ℕ
  prefillCache : Option PrefillCache

namespace SingleStream

variable (model : GpuModel)

def attnDim : ℕ := model.nHead * model.headDim

def kvDim : ℕ := model.nKvHead * model.headDim

def half : ℕ := model.headDim / 2

noncomputable def normWeight (weight : List ℚ) : Buf := fun i => (weight.getD i 0 : ℚ)

/-- `self.cos` and `self.sin`, a row of pairs for each position. -/
noncomputable def cosTable : Buf := fun i =>
  (plainTables model.ropeBase model.headDim model.maxSeq).cos (i / half model) (i % half model)

noncomputable def sinTable : Buf := fun i =>
  (plainTables model.ropeBase model.headDim model.maxSeq).sin (i / half model) (i % half model)

/-- A slice of a host vector of `len` elements. -/
def checkSlice (stop len : ℕ) : Except GpuError Unit :=
  if stop ≤ len then .ok () else .error .panicked

theorem checkSlice_eq_ok {stop len : ℕ} {u : Unit} : checkSlice stop len = .ok u ↔ stop ≤ len := by
  unfold checkSlice
  split_ifs with hle <;> simp [hle]

noncomputable def tokenRow (token : ℕ) : Buf := fun j =>
  (model.embed.getD (token * model.nEmbd + j) 0 : ℚ)

/-- `self.embed[token * n_embd..(token + 1) * n_embd]` -/
noncomputable def embedRow (token : ℕ) : Except GpuError Buf := do
  checkSlice ((token + 1) * model.nEmbd) model.embed.length
  return tokenRow model token

def readBuffer (buf : Buf) (len : ℕ) : List ℝ := (List.range len).map buf

/-! ### One token -/

/-- The attention block of a layer of `record_forward`. -/
noncomputable def decodeAttention (l : ℕ) (layer : GpuLayer) (s : GpuState) : GpuState :=
  let normed := rmsnorm model.nEmbd model.eps (normWeight layer.attnNormW) s.xBuf s.normed
  let q := matvec layer.wq false 0 normed s.q
  let k := matvec layer.wk false (s.wkBase l) normed (s.kCache l)
  let v := matvec layer.wv false (s.wvBase l) normed (s.vCache l)
  let q := rope model.nHead model.headDim 0 s.cosBuf s.sinBuf q
  let k := rope model.nKvHead model.headDim s.ropeKBase s.cosBuf s.sinBuf k
  let attnOut := sdpaDecode model.nHead model.nKvHead model.headDim s.seqLen q k v s.attnOut
  { s with
    normed, q, attnOut
    kCache := Function.update s.kCache l k
    vCache := Function.update s.vCache l v
    xBuf := matvec layer.wo true 0 attnOut s.xBuf }

/-- The feed-forward block, with the activation fused into the down-projection. -/
noncomputable def decodeFeedForward (layer : GpuLayer) (s : GpuState) : GpuState :=
  let normed := rmsnorm model.nEmbd model.eps (normWeight layer.ffnNormW) s.xBuf s.normed
  let gate := matvec layer.w1 false 0 normed s.gate
  let up := matvec layer.w3 false 0 normed s.up
  { s with normed, gate, up, xBuf := down layer.w2 true 0 gate up s.xBuf }

noncomputable def decodeLayer (l : ℕ) (layer : GpuLayer) (s : GpuState) : GpuState :=
  decodeFeedForward model layer (decodeAttention model l layer s)

def decodeLaunches (layer : GpuLayer) : List Launch :=
  [.line 1, .grid layer.wq.rows, .grid layer.wk.rows, .grid layer.wv.rows,
    .line ((model.nHead * model.headDim / 2) ⌈/⌉ 64),
    .line ((model.nKvHead * model.headDim / 2) ⌈/⌉ 64), .line (model.nHead ⌈/⌉ 64),
    .grid layer.wo.rows, .line 1, .grid layer.w1.rows, .grid layer.w3.rows, .grid layer.w2.rows]

/-- The final norm and the LM head, from the residual stream. -/
def headLaunches : List Launch := [.line 1, .grid model.lmHead.rows]

/-- The dispatches of one token. -/
def forwardLaunches : List Launch :=
  model.layers.flatMap (decodeLaunches model) ++ headLaunches model

/-- The per-token inputs. -/
noncomputable def writeToken (row : Buf) (pos : ℕ) (s : GpuState) : GpuState :=
  let kvBase := pos * kvDim model
  { s with
    xBuf := writeAt 0 model.nEmbd row s.xBuf
    cosBuf := writeAt 0 (half model) (fun j => cosTable model (pos * half model + j)) s.cosBuf
    sinBuf := writeAt 0 (half model) (fun j => sinTable model (pos * half model + j)) s.sinBuf
    seqLen := pos + 1
    ropeKBase := kvBase
    wkBase := fun _ => kvBase
    wvBase := fun _ => kvBase }

noncomputable def lmMatvec (s : GpuState) : GpuState :=
  { s with logits := matvec model.lmHead false 0 s.normed s.logits }

noncomputable def finalNorm (s : GpuState) : GpuState :=
  { s with normed := rmsnorm model.nEmbd model.eps (normWeight model.finalNormW) s.xBuf s.normed }

/-- What the command buffer of `record_forward` does once it is accepted. -/
noncomputable def runToken (row : Buf) (pos : ℕ) (s : GpuState) : GpuState :=
  lmMatvec model (finalNorm model
    (sweep (decodeLayer model) 0 model.layers (writeToken model row pos s)))

noncomputable def recordForward (token pos : ℕ) (s : GpuState) : Except GpuError GpuState := do
  let row ← embedRow model token
  checkSlice (pos * half model + half model) (model.maxSeq * half model)
  (forwardLaunches model).forM Launch.record
  return runToken model row pos s

noncomputable def forward (token pos : ℕ) (s : GpuState) :
    Except GpuError (GpuState × List ℝ) := do
  let s ← recordForward model token pos s
  return (s, readBuffer s.logits model.vocab)

noncomputable def forwardArgmax (token pos : ℕ) (s : GpuState) :
    Except GpuError (GpuState × ℕ) := do
  let s ← recordForward model token pos s
  return (s, argmax model.vocab s.logits)

/-! ### A whole prompt -/

def maxPrefillM : ℕ := 512

def checkPrompt (m : ℕ) : Except GpuError Unit :=
  if 1 ≤ m ∧ m ≤ maxPrefillM then .ok () else .error .panicked

theorem checkPrompt_eq_ok {m : ℕ} {u : Unit} :
    checkPrompt m = .ok u ↔ 1 ≤ m ∧ m ≤ maxPrefillM := by
  unfold checkPrompt
  split_ifs with hm <;> simp [hm]

def buildPrefillCache : PrefillCache where
  xB := 0
  normedB := 0
  qB := 0
  kB := 0
  vB := 0
  attnB := 0
  gateB := 0
  upB := 0
  hB := 0
  cosB := 0
  sinB := 0
  pWq := 0
  pWkv := 0
  pWo := 0
  pW13 := 0
  pW2 := 0
  pRopeQ := 0
  pRopeK := 0
  pSdpa := 0

/-- The inputs of a prompt of `m` tokens, `xHost` their embedding rows. -/
noncomputable def writePrompt (m : ℕ) (xHost : Buf) (c : PrefillCache) : PrefillCache :=
  { c with
    pWq := m, pWkv := m, pWo := m, pW13 := m, pW2 := m, pRopeQ := m, pRopeK := m, pSdpa := m
    xB := writeAt 0 (m * model.nEmbd) xHost c.xB
    cosB := writeAt 0 (m * half model) (cosTable model) c.cosB
    sinB := writeAt 0 (m * half model) (sinTable model) c.sinB }

/-- The attention block of a layer of `prefill_forward`. -/
noncomputable def prefillAttention (m l : ℕ) (layer : GpuLayer) (p : GpuState × PrefillCache) :
    GpuState × PrefillCache :=
  let s := p.1
  let c := p.2
  let normedB := bnorm model.nEmbd model.eps m (normWeight layer.attnNormW) c.xB c.normedB
  let qB := gemm layer.wq (attnDim model) model.nEmbd c.pWq false normedB c.qB
  let kB := gemm layer.wk (kvDim model) model.nEmbd c.pWkv false normedB c.kB
  let vB := gemm layer.wv (kvDim model) model.nEmbd c.pWkv false normedB c.vB
  let qB := brope model.nHead model.headDim c.pRopeQ c.cosB c.sinB qB
  let kB := brope model.nKvHead model.headDim c.pRopeK c.cosB c.sinB kB
  let k := writeAt 0 (m * kvDim model) kB (s.kCache l)
  let v := writeAt 0 (m * kvDim model) vB (s.vCache l)
  let attnB := bsdpa model.nHead model.nKvHead model.headDim c.pSdpa 0 qB k v c.attnB
  ({ s with kCache := Function.update s.kCache l k, vCache := Function.update s.vCache l v },
    { c with
      normedB, qB, kB, vB, attnB
      xB := gemm layer.wo model.nEmbd (attnDim model) c.pWo true attnB c.xB })

noncomputable def prefillFeedForward (m : ℕ) (layer : GpuLayer) (c : PrefillCache) :
    PrefillCache :=
  let normedB := bnorm model.nEmbd model.eps m (normWeight layer.ffnNormW) c.xB c.normedB
  let gateB := gemm layer.w1 model.nInter model.nEmbd c.pW13 false normedB c.gateB
  let upB := gemm layer.w3 model.nInter model.nEmbd c.pW13 false normedB c.upB
  let hB := siluMul ((m * model.nInter) ⌈/⌉ 64) (maxPrefillM * model.nInter) gateB upB c.hB
  { c with
    normedB, gateB, upB, hB
    xB := gemm layer.w2 model.nEmbd model.nInter c.pW2 true hB c.xB }

noncomputable def prefillLayer (m l : ℕ) (layer : GpuLayer) (p : GpuState × PrefillCache) :
    GpuState × PrefillCache :=
  let p := prefillAttention model m l layer p
  (p.1, prefillFeedForward model m layer p.2)

def prefillLaunches (m : ℕ) (layer : GpuLayer) : List Launch :=
  [.line m, .grid layer.wq.rows, .grid layer.wk.rows, .grid layer.wv.rows,
    .line ((m * model.nHead * half model) ⌈/⌉ 64), .line ((m * model.nKvHead * half model) ⌈/⌉ 64),
    .line ((m * model.nHead) ⌈/⌉ 64), .grid layer.wo.rows, .line m,
    .grid layer.w1.rows, .grid layer.w3.rows, .line ((m * model.nInter) ⌈/⌉ 64),
    .grid layer.w2.rows]

/-- The dispatches of a prompt of `m` tokens. -/
def prefillForwardLaunches (m : ℕ) : List Launch :=
  model.layers.flatMap (prefillLaunches model m) ++ [.line m, .grid model.lmHead.rows]

/-- All rows are normed, and the LM head reads the last one. -/
noncomputable def prefillHead (m : ℕ) (p : GpuState × PrefillCache) : GpuState :=
  let s := p.1
  let c := p.2
  let normedB := bnorm model.nEmbd model.eps m (normWeight model.finalNormW) c.xB c.normedB
  lmMatvec model { s with
    normed := writeAt 0 model.nEmbd (fun i => normedB ((m - 1) * model.nEmbd + i)) s.normed
    prefillCache := some { c with normedB } }

/-- The embedding rows of a prompt, one after the other. -/
noncomputable def gatherRows (rows : List Buf) : Buf := fun i =>
  rows.getD (i / model.nEmbd) 0 (i % model.nEmbd)

/-- What the command buffer of `prefill_forward` does once it is accepted. -/
noncomputable def runPrompt (m : ℕ) (xHost : Buf) (s : GpuState) : GpuState :=
  let c := s.prefillCache.getD buildPrefillCache
  prefillHead model m
    (sweep (prefillLayer model m) 0 model.layers (s, writePrompt model m xHost c))

noncomputable def prefillForward (prompt : List ℕ) (s : GpuState) :
    Except GpuError (GpuState × List ℝ) := do
  let m := prompt.length
  checkPrompt m
  let rows ← prompt.mapM (embedRow model)
  checkSlice (m * half model) (model.maxSeq * half model)
  (prefillForwardLaunches model m).forM Launch.record
  let s := runPrompt model m (gatherRows model rows) s
  return (s, readBuffer s.logits model.vocab)

end SingleStream

end Zllm.Gpu

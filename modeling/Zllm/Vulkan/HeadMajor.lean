import Zllm.Vulkan.PrefillPass

/-!
# The head-major cache layout

With `ZLLM_HEADMAJOR_KV` set the resident caches are kept head by head. Decoding writes and reads
that layout, and attends in blocks at every depth. The batched prefill still works on rows of all
heads, so `prefill_forward` rearranges the caches after its last tile.
-/

namespace Zllm.Vulkan

open Finset Tile Loader Softmax CausalTower Outcome
open Gpu (Buf GpuError)
open Workgroup (line perform)

/-! ### The kernels -/

/-- Where dimension `d` of position `t` of a head is. -/
def hmCell (hd kvh t d : ℕ) : ℕ := kvh * maxSeq * hd + t * hd + d

/-- `kv_write_hm.wgsl` -/
def kvWriteHm (n base hd : ℕ) (src dst : Buf) : Buf :=
  perform (line 64 (n ⌈/⌉ 64) fun i =>
    if i < n then [(hmCell hd (i / hd) (base / n) (i % hd), src i)] else []) dst

/-- `kv_transpose_hm.wgsl` -/
def kvTransposeHm (n hd kvDim : ℕ) (src dst : Buf) : Buf :=
  perform (line 64 (n ⌈/⌉ 64) fun e =>
    if e < n then
      [(hmCell hd (e % kvDim / hd) (e / kvDim) (e % kvDim % hd), src e)]
    else []) dst

section Attention

variable (nHead nKv hd : ℕ) (q kc vc : Buf)

/-- The scaled score of head `h` against position `t`. -/
noncomputable def scoreHm (h t : ℕ) : ℝ :=
  (∑ d ∈ range hd, q (h * hd + d) * kc (hmCell hd (h / (nHead / nKv)) t d)) * (1 / √hd)

def valueHm (h t d : ℕ) : ℝ := vc (hmCell hd (h / (nHead / nKv)) t d)

/-- `sdpa_flash_partial_hm.wgsl` on workgroup `(h, blk)`. A thread has one dimension of the head. -/
noncomputable def blockHm (seqLen h blk : ℕ) : Partial :=
  let keys := block flashBlock seqLen blk
  Partial.gather (maxOf keys (scoreHm nHead nKv hd q kc h)) keys (scoreHm nHead nKv hd q kc h)
    (valueHm nHead nKv hd vc h)

/-- The partials of `grid` blocks of each head. -/
noncomputable def flashPartialHm (seqLen grid : ℕ) (part : Buf) : Buf :=
  storeGrid nHead hd (seqLen ⌈/⌉ flashBlock) grid (blockHm nHead nKv hd q kc vc seqLen) part

end Attention

namespace VkPass

variable (land : List (ℕ × ℝ) → List (ℕ × ℝ)) (model : VkModelWeights)

/-! ### Decoding -/

noncomputable def decodeAttendHm (pos : ℕ) (rec : Recording) (k v : Buf) (d : DecodeBuffers) :
    DecodeBuffers :=
  let seqLen := pos + 1
  let nBlocks := seqLen ⌈/⌉ flashBlock
  let nSuper := nBlocks ⌈/⌉ superBlocks
  let part := flashPartialHm model.nHead model.nKv model.hd d.q k v seqLen rec.flashBlocks d.part
  let superp := combineSuper model.nHead model.hd nBlocks superBlocks part
    (rec.flashBlocks ⌈/⌉ superBlocks) d.superp
  { d with
    part, superp
    attn := combineFinal model.nHead model.hd nSuper nSuper superp d.attn }

noncomputable def decodeLayerHm (pos : ℕ) (rec : Recording) (l : ℕ) (layer : VkLayer)
    (s : Resident) : Resident :=
  let d := decodeProject model layer s.dec
  let k := kvWriteHm (kvDim model) (pos * kvDim model) model.hd d.kBuf (s.kc l)
  let v := kvWriteHm (kvDim model) (pos * kvDim model) model.hd d.vBuf (s.vc l)
  { s with
    kc := Function.update s.kc l k
    vc := Function.update s.vc l v
    dec := decodeFeedForward model layer (decodeAttendHm model pos rec k v d) }

noncomputable def runTokenHm (token pos : ℕ) (rec : Recording) (s : Resident) : Resident :=
  let s := sweep (decodeLayerHm model pos rec) 0 model.layers (writeToken model token pos s)
  if rec.lm then
    let dec := decodeHead model s.dec
    { s with dec, argmaxOut := if rec.argmax then argmax model.vocab dec.logits else s.argmaxOut }
  else s

def wantedHm (pos : ℕ) (lm argmax : Bool) : Recording where
  flashBlocks := (pos + 1) ⌈/⌉ flashBlock
  lm := lm
  argmax := argmax

noncomputable def forwardInnerHm (token pos : ℕ) (lm argmax : Bool) (s : Resident) :
    Except GpuError Resident := do
  checkToken model token
  checkPosition model pos
  let last ← record model (wantedHm pos lm argmax) s
  return { runTokenHm model token pos last.2 s with lastRec := some last }

/-! ### Prefill -/

/-- `transpose_kv_headmajor` -/
def transposeKvHeadmajor (seqLen : ℕ) (s : Resident) : Resident :=
  let n := seqLen * kvDim model
  let rearranged (caches : ℕ → Buf) (l : ℕ) : Buf :=
    if l < model.layers.length then kvTransposeHm n model.hd (kvDim model) (caches l) (caches l)
    else caches l
  if seqLen = 0 then s else { s with kc := rearranged s.kc, vc := rearranged s.vc }

noncomputable def prefillForward (headmajor : Bool) (prompt : List ℕ) (s : Resident) :
    Except GpuError (Resident × List ℝ) := do
  let (s, logits) ← prefillFrom land model prompt 0 s
  let s := if headmajor then transposeKvHeadmajor model (min prompt.length model.maxSeq) s else s
  return (s, logits)

/-! ### Requests -/

/-- The calls for one token. -/
inductive TokenCall
  | prefillStep
  | forward
  | forwardArgmax
deriving DecidableEq

/-- What a call asks for after the layers: the logits, and the largest of them. -/
def TokenCall.asks : TokenCall → Bool × Bool
  | .prefillStep => (false, false)
  | .forward => (true, false)
  | .forwardArgmax => (true, true)

/-- A request from position 0: the tokens `prefill_forward` takes, none where the prompt is filled
token by token, and those of the calls after it. -/
structure KvRequest where
  prompt : List ℕ
  steps : List (ℕ × TokenCall)

def KvRequest.length (r : KvRequest) : ℕ := r.prompt.length + r.steps.length

/-- A call for one token, in the mode the model was loaded with. -/
noncomputable def forwardStep (headmajor : Bool) (token pos : ℕ) (call : TokenCall) (s : Resident) :
    Except GpuError Resident :=
  let (lm, argmax) := call.asks
  if headmajor then forwardInnerHm model token pos lm argmax s
  else forwardInner model token pos lm argmax s

/-- Calls for one token each, from `pos` on. -/
noncomputable def runSteps (headmajor : Bool) :
    List (ℕ × TokenCall) → ℕ → Resident → Except GpuError Resident
  | [], _, s => .ok s
  | (token, call) :: rest, pos, s => do
    let s ← forwardStep model headmajor token pos call s
    runSteps headmajor rest (pos + 1) s

noncomputable def runRequest (headmajor : Bool) (s : Resident) (r : KvRequest) :
    Except GpuError Resident := do
  let (s, _) ← prefillForward land model headmajor r.prompt s
  runSteps model headmajor r.steps r.prompt.length s

/-- Requests one after the other, on one model. -/
noncomputable def runRequests (headmajor : Bool) (requests : List KvRequest) (s : Resident) :
    Except GpuError Resident :=
  requests.foldlM (runRequest land model headmajor) s

end VkPass

/-! ### Cells -/

section Cells

variable {hd kvh kvh' t t' d d' : ℕ}

theorem hmCell_eq (hd kvh t d : ℕ) : hmCell hd kvh t d = (kvh * maxSeq + t) * hd + d := by
  rw [hmCell]
  ring

/-- A cell is one head's, position's and dimension's. -/
theorem hmCell_inj (ht : t < maxSeq) (ht' : t' < maxSeq) (hd' : d < hd) (hd'' : d' < hd)
    (hcell : hmCell hd kvh t d = hmCell hd kvh' t' d') : kvh = kvh' ∧ t = t' ∧ d = d' := by
  rw [hmCell_eq, hmCell_eq] at hcell
  have hrow := congrArg (· / hd) hcell
  have hdim := congrArg (· % hd) hcell
  simp only [index_div hd', index_div hd'', index_mod hd', index_mod hd''] at hrow hdim
  have hhead := congrArg (· / maxSeq) hrow
  have hpos := congrArg (· % maxSeq) hrow
  simp only [index_div ht, index_div ht', index_mod ht, index_mod ht'] at hhead hpos
  exact ⟨hhead, hpos, hdim⟩

variable {nKv pos : ℕ} {src dst : Buf} (hpos : pos < maxSeq)

include hpos

theorem covers_kvWriteHm (hhd : 0 < hd) (n : ℕ) (src : Buf) :
    Workgroup.Covers (line 64 (n ⌈/⌉ 64) fun i =>
      if i < n then [(hmCell hd (i / hd) pos (i % hd), src i)] else []) {i | i < n}
      (fun i => hmCell hd (i / hd) pos (i % hd)) src := by
  refine Workgroup.covers_line (by decide) fun i _ j _ hcell => ?_
  obtain ⟨hhead, -, hdim⟩ := hmCell_inj hpos hpos (Nat.mod_lt i hhd) (Nat.mod_lt j hhd) hcell
  rw [← Nat.div_add_mod' i hd, ← Nat.div_add_mod' j hd, hhead, hdim]

theorem kvWriteHm_apply (hg : kvh < nKv) (ht : t < maxSeq) (hd' : d < hd) :
    kvWriteHm (nKv * hd) (pos * (nKv * hd)) hd src dst (hmCell hd kvh t d) =
      if t = pos then src (kvh * hd + d) else dst (hmCell hd kvh t d) := by
  have hhd : 0 < hd := by omega
  have hcell : kvh * hd + d < nKv * hd := index_lt hg hd'
  have hbase : pos * (nKv * hd) / (nKv * hd) = pos := Nat.mul_div_cancel _ (by omega)
  have hcovers := covers_kvWriteHm hpos hhd (nKv * hd) src
  rw [kvWriteHm, hbase]
  have hleaves := Workgroup.leaves_perform (line 64 (nKv * hd ⌈/⌉ 64) fun i =>
    if i < nKv * hd then [(hmCell hd (i / hd) pos (i % hd), src i)] else []) dst
  split_ifs with heq
  · subst heq
    have hat := hcovers.apply hleaves hcell
    rwa [index_div hd', index_mod hd'] at hat
  · refine hcovers.apply_of_ne hleaves fun i _ hsame => heq ?_
    obtain ⟨-, hpos', -⟩ := hmCell_inj hpos ht (Nat.mod_lt i hhd) hd' hsame
    exact hpos'.symm

omit hpos

theorem kvTransposeHm_apply {n : ℕ} {b : Buf} (hn : n ≤ maxSeq) (ht : t < n) (hg : kvh < nKv)
    (hd' : d < hd) :
    kvTransposeHm (n * (nKv * hd)) hd (nKv * hd) b b (hmCell hd kvh t d) =
      b ((t * nKv + kvh) * hd + d) := by
  have hhd : 0 < hd := by omega
  have hwithin : kvh * hd + d < nKv * hd := index_lt hg hd'
  have hkv : 0 < nKv * hd := by omega
  have hcovers : Workgroup.Covers (line 64 (n * (nKv * hd) ⌈/⌉ 64) fun e =>
      if e < n * (nKv * hd) then
        [(hmCell hd (e % (nKv * hd) / hd) (e / (nKv * hd)) (e % (nKv * hd) % hd), b e)]
      else []) {e | e < n * (nKv * hd)}
      (fun e => hmCell hd (e % (nKv * hd) / hd) (e / (nKv * hd)) (e % (nKv * hd) % hd)) b := by
    refine Workgroup.covers_line (by decide) fun i hi j hj hcell => ?_
    have hrow : ∀ e ∈ {e | e < n * (nKv * hd)}, e / (nKv * hd) < maxSeq := fun e he =>
      ((Nat.div_lt_iff_lt_mul hkv).mpr he).trans_le hn
    obtain ⟨hhead, hrows, hdim⟩ := hmCell_inj (hrow i hi) (hrow j hj)
      (Nat.mod_lt (i % (nKv * hd)) hhd) (Nat.mod_lt (j % (nKv * hd)) hhd) hcell
    have hrest : i % (nKv * hd) = j % (nKv * hd) := by
      rw [← Nat.div_add_mod' (i % (nKv * hd)) hd, ← Nat.div_add_mod' (j % (nKv * hd)) hd, hhead,
        hdim]
    rw [← Nat.div_add_mod' i (nKv * hd), ← Nat.div_add_mod' j (nKv * hd), hrows, hrest]
  have haddr : (t * nKv + kvh) * hd + d = t * (nKv * hd) + (kvh * hd + d) := by ring
  have hat := hcovers.apply (Workgroup.leaves_perform _ b)
    (show (t * nKv + kvh) * hd + d ∈ {e | e < n * (nKv * hd)} by
      rw [haddr]
      exact index_lt ht hwithin)
  rw [kvTransposeHm]
  simp only [haddr, index_div hwithin, index_mod hwithin, index_div hd', index_mod hd'] at hat ⊢
  exact hat

end Cells

end Zllm.Vulkan

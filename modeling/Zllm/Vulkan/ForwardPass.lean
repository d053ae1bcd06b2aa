import Mathlib.Data.Nat.Bitwise
import Zllm.Gpu.SingleStream
import Zllm.Vulkan.Kernels

/-!
# The decoding pass of the raw-Vulkan lane

`VkModel` after loading, in pos-major mode with the default environment: the buffers it keeps
between calls, and `forward_inner`. Its commands are recorded once and submitted again as long as
the key of the recording is the same; what else depends on the position is in uniforms.
-/

namespace Zllm.Vulkan

open Tile Loader CausalTower Outcome
open Gpu (Buf GpuError rmsnorm)
open Gpu.SingleStream (normWeight readBuffer)

/-! ### The resident state -/

/-- What a recorded command depends on: the blocks of the flash attention, none where all keys are
taken at once, and how far it goes after the layers. -/
structure Recording where
  flashBlocks : ℕ
  lm : Bool
  argmax : Bool
deriving DecidableEq

/-- `rec_key` -/
def Recording.key (rec : Recording) : ℕ :=
  rec.flashBlocks ||| (rec.lm.toNat <<< 20) ||| (rec.argmax.toNat <<< 21)

/-- The scratch of decoding. -/
structure DecodeBuffers where
  x : Buf
  cosBuf : Buf
  sinBuf : Buf
  normed : Buf
  q : Buf
  kBuf : Buf
  vBuf : Buf
  part : Buf
  superp : Buf
  attn : Buf
  gu : Buf
  h : Buf
  logits : Buf

/-- `PrefillRes`: the scratch of prefill and verification. -/
structure PrefillRes where
  x32 : Buf
  n32 : Buf
  n16 : Buf
  q : Buf
  q16 : Buf
  k16 : Buf
  v16 : Buf
  attn32 : Buf
  attn16 : Buf
  o32 : Buf
  gu : Buf
  h32 : Buf
  h16 : Buf
  ffn32 : Buf
  cosb : Buf
  sinb : Buf
  vlogits : Buf
  logits : Buf

structure Resident where
  kc : ℕ → Buf
  vc : ℕ → Buf
  dec : DecodeBuffers
  pf : PrefillRes
  argmaxOut : ℕ
  /-- `last_rec` and the command it is the key of. -/
  lastRec : Option (ℕ × Recording)

/-- A check that panics. -/
def check (p : Prop) [Decidable p] : Except GpuError Unit :=
  if p then .ok () else .error .panicked

theorem check_eq_ok {p : Prop} [Decidable p] {u : Unit} : check p = .ok u ↔ p := by
  unfold check
  split_ifs with hp <;> simp [hp]

namespace VkPass

variable (model : VkModelWeights)

def kvDim : ℕ := model.nKv * model.hd

def half : ℕ := model.hd / 2

/-- `n_embd / 256`, which the host passes wherever a row is `n_embd` wide. -/
def embdBlocks : ℕ := model.nEmbd / 256

/-- `self.cos` and `self.sin` -/
noncomputable def cosTable (i : ℕ) : ℝ :=
  (plainTables model.ropeBase model.hd model.maxSeq).cos (i / half model) (i % half model)

noncomputable def sinTable (i : ℕ) : ℝ :=
  (plainTables model.ropeBase model.hd model.maxSeq).sin (i / half model) (i % half model)

noncomputable def tokenRow (token : ℕ) : Buf := fun j =>
  element model.embed (token * model.nEmbd + j)

/-- `&self.embed[token * n_embd..]`, of which a row is copied. -/
def checkToken (token : ℕ) : Except GpuError Unit :=
  check (token * model.nEmbd ≤ model.embed.length)

/-- `&self.cos[pos * half..]` -/
def checkPosition (pos : ℕ) : Except GpuError Unit :=
  check (pos * half model ≤ model.maxSeq * half model)

/-- The widths over which a matvec's workgroups are spread; of none, the host divides by zero. -/
def checkGrids (grids : List ℕ) : Except GpuError Unit := check (∀ n ∈ grids, 0 < n)

/-! ### A layer -/

/-- The attention of one token: the queries against the rows up to its own. -/
noncomputable def decodeAttend (pos : ℕ) (rec : Recording) (k v : Buf) (d : DecodeBuffers) :
    DecodeBuffers :=
  let seqLen := pos + 1
  let nBlocks := seqLen ⌈/⌉ flashBlock
  let nSuper := nBlocks ⌈/⌉ superBlocks
  if rec.flashBlocks = 0 then
    { d with attn := sdpaDecode model.nHead model.nKv model.hd d.q k v seqLen d.attn }
  else
    let part := flashPartial model.nHead model.nKv model.hd d.q k v seqLen rec.flashBlocks d.part
    let superp := combineSuper model.nHead model.hd nBlocks superBlocks part
      (rec.flashBlocks ⌈/⌉ superBlocks) d.superp
    { d with
      part, superp
      attn := combineFinal model.nHead model.hd nSuper nSuper superp d.attn }

/-- The queries, rotated, and the new row of the cache. -/
noncomputable def decodeProject (layer : VkLayer) (d : DecodeBuffers) : DecodeBuffers :=
  let nb := embdBlocks model
  let kvDim := kvDim model
  let half := half model
  let normed := rmsnorm model.nEmbd model.eps (normWeight layer.attnNorm) d.x d.normed
  { d with
    normed
    q := matvecRope model.nEmbd nb half layer.wq.values d.cosBuf d.sinBuf normed d.q
    kBuf := matvecRope kvDim nb half layer.wk.values d.cosBuf d.sinBuf normed d.kBuf
    vBuf := matvec kvDim layer.wv.nb layer.wv.values false normed d.vBuf }

noncomputable def decodeFeedForward (layer : VkLayer) (d : DecodeBuffers) : DecodeBuffers :=
  let w13 := layer.w13Q3.getD layer.w13
  let x := matvec model.nEmbd layer.wo.nb layer.wo.values true d.attn d.x
  let normed := rmsnorm model.nEmbd model.eps (normWeight layer.ffnNorm) x d.normed
  let gu := matvec (model.nInter * 2) w13.nb w13.values false normed d.gu
  let h := siluMul model.nInter gu (fun i => gu (model.nInter + i)) d.h
  { d with normed, gu, h, x := matvec model.nEmbd layer.w2.nb layer.w2.values true h x }

noncomputable def decodeLayer (pos : ℕ) (rec : Recording) (l : ℕ) (layer : VkLayer) (s : Resident) :
    Resident :=
  let d := decodeProject model layer s.dec
  let k := kvWrite (kvDim model) (pos * kvDim model) d.kBuf (s.kc l)
  let v := kvWrite (kvDim model) (pos * kvDim model) d.vBuf (s.vc l)
  { s with
    kc := Function.update s.kc l k
    vc := Function.update s.vc l v
    dec := decodeFeedForward model layer (decodeAttend model pos rec k v d) }

/-! ### The pass -/

/-- The per-token inputs. -/
noncomputable def writeToken (token pos : ℕ) (s : Resident) : Resident :=
  let half := half model
  { s with dec := { s.dec with
    x := writeAt 0 model.nEmbd (tokenRow model token) s.dec.x
    cosBuf := writeAt 0 half (fun j => cosTable model (pos * half + j)) s.dec.cosBuf
    sinBuf := writeAt 0 half (fun j => sinTable model (pos * half + j)) s.dec.sinBuf } }

/-- The final norm and the tied head, in the format it is stored in. -/
noncomputable def decodeHead (d : DecodeBuffers) : DecodeBuffers :=
  let normed := rmsnorm model.nEmbd model.eps (normWeight model.finalNorm) d.x d.normed
  { d with
    normed
    logits := matvec model.vocab (embdBlocks model) model.lmHead.values false normed d.logits }

/-- What the submitted command does. -/
noncomputable def runToken (token pos : ℕ) (rec : Recording) (s : Resident) : Resident :=
  let s := sweep (decodeLayer model pos rec) 0 model.layers (writeToken model token pos s)
  if rec.lm then
    let dec := decodeHead model s.dec
    { s with dec, argmaxOut := if rec.argmax then argmax model.vocab dec.logits else s.argmaxOut }
  else s

/-- What a call at `pos` asks to be recorded. -/
def wanted (pos : ℕ) (lm argmax : Bool) : Recording where
  flashBlocks := if flashMinSeq < pos + 1 then (pos + 1) ⌈/⌉ flashBlock else 0
  lm := lm
  argmax := argmax

def forwardGrids (lm : Bool) : List ℕ :=
  (model.layers.flatMap fun _ => [model.nEmbd / 2, kvDim model / 2, kvDim model, model.nEmbd,
    model.nInter * 2, model.nEmbd]) ++ if lm then [model.vocab] else []

/-- The recorded command, where its key is the wanted one's. -/
def record (rec : Recording) (s : Resident) : Except GpuError (ℕ × Recording) :=
  match s.lastRec with
  | some last => if last.1 = rec.key then .ok last else do
      checkGrids (forwardGrids model rec.lm)
      return (rec.key, rec)
  | none => do
      checkGrids (forwardGrids model rec.lm)
      return (rec.key, rec)

noncomputable def forwardInner (token pos : ℕ) (lm argmax : Bool) (s : Resident) :
    Except GpuError Resident := do
  checkToken model token
  checkPosition model pos
  let last ← record model (wanted pos lm argmax) s
  return { runToken model token pos last.2 s with lastRec := some last }

noncomputable def forward (token pos : ℕ) (s : Resident) : Except GpuError (Resident × List ℝ) := do
  let s ← forwardInner model token pos true false s
  return (s, readBuffer s.dec.logits model.vocab)

noncomputable def forwardArgmax (token pos : ℕ) (s : Resident) :
    Except GpuError (Resident × ℕ) := do
  let s ← forwardInner model token pos true true s
  return (s, s.argmaxOut)

noncomputable def prefillStep (token pos : ℕ) (s : Resident) : Except GpuError Resident :=
  forwardInner model token pos false false s

/-! ### Recordings -/

/-- The recorded command is that of its key, and has no more blocks than a key has room for. -/
def Recorded (s : Resident) : Prop :=
  ∀ last, s.lastRec = some last → last.1 = last.2.key ∧ last.2.flashBlocks < 2 ^ 20

theorem or_shiftLeft {a b k : ℕ} (ha : a < 2 ^ k) : a ||| b <<< k = a + 2 ^ k * b := by
  rw [Nat.or_comm, ← Nat.shiftLeft_add_eq_or_of_lt ha, Nat.shiftLeft_eq, Nat.mul_comm, Nat.add_comm]

theorem key_eq {rec : Recording} (hblocks : rec.flashBlocks < 2 ^ 20) :
    rec.key = rec.flashBlocks + 2 ^ 20 * rec.lm.toNat + 2 ^ 21 * rec.argmax.toNat := by
  have hlm : rec.lm.toNat ≤ 1 := Bool.toNat_le rec.lm
  have hlow : rec.flashBlocks + 2 ^ 20 * rec.lm.toNat < 2 ^ 21 := by omega
  rw [Recording.key, or_shiftLeft hblocks, or_shiftLeft hlow]

/-- Within that room a key is one command's. -/
theorem key_injective {rec rec' : Recording} (hblocks : rec.flashBlocks < 2 ^ 20)
    (hblocks' : rec'.flashBlocks < 2 ^ 20) (hkey : rec.key = rec'.key) : rec = rec' := by
  rw [key_eq hblocks, key_eq hblocks'] at hkey
  obtain ⟨blocks, lm, argmax⟩ := rec
  obtain ⟨blocks', lm', argmax'⟩ := rec'
  dsimp only at hkey hblocks hblocks'
  have hlm := Bool.toNat_le lm
  have hlm' := Bool.toNat_le lm'
  have hinj : ∀ a b : Bool, a.toNat = b.toNat → a = b := by decide
  have hsame : blocks = blocks' ∧ lm.toNat = lm'.toNat ∧ argmax.toNat = argmax'.toNat := by omega
  obtain ⟨rfl, hlm, hargmax⟩ := hsame
  rw [hinj _ _ hlm, hinj _ _ hargmax]

theorem wanted_flashBlocks {pos : ℕ} (hpos : pos < 2 ^ 20) (lm argmax : Bool) :
    (wanted pos lm argmax).flashBlocks < 2 ^ 20 := by
  rw [wanted]
  dsimp only
  split_ifs
  · refine lt_of_le_of_lt ?_ hpos
    rw [ceilDiv_le_iff_le_mul (by decide), flashBlock]
    simp only [flashMinSeq] at *
    omega
  · norm_num

variable {model}

theorem forM_check_eq_ok {tokens : List ℕ} {u : Unit} :
    tokens.forM (checkToken model) = .ok u ↔
      ∀ token ∈ tokens, token * model.nEmbd ≤ model.embed.length := by
  induction tokens with
  | nil => simp [List.forM, pure, Except.pure]
  | cons token rest ih =>
    rw [List.forall_mem_cons, ← ih]
    show (checkToken model token >>= fun _ => rest.forM (checkToken model)) = .ok u ↔ _
    rw [bind_eq_ok]
    constructor
    · rintro ⟨_, hhead, htail⟩
      exact ⟨check_eq_ok.mp hhead, htail⟩
    · rintro ⟨hhead, htail⟩
      exact ⟨u, check_eq_ok.mpr hhead, htail⟩

/-- A call runs the command it asks for, recorded anew or not. -/
theorem record_eq {rec : Recording} {s : Resident} {last : ℕ × Recording} (hs : Recorded s)
    (hblocks : rec.flashBlocks < 2 ^ 20) (hrecord : record model rec s = .ok last) :
    last = (rec.key, rec) := by
  unfold record at hrecord
  split at hrecord
  next last' hlast =>
    split_ifs at hrecord with hkey
    · obtain rfl := Except.ok.inj hrecord
      obtain ⟨hlastKey, hlastBlocks⟩ := hs _ hlast
      have hrec := key_injective hlastBlocks hblocks (hlastKey.symm.trans hkey)
      exact Prod.ext hkey hrec
    · obtain ⟨u, -, hrecord⟩ := bind_eq_ok.mp hrecord
      exact (pure_eq_ok.mp hrecord).symm
  next =>
    obtain ⟨u, -, hrecord⟩ := bind_eq_ok.mp hrecord
    exact (pure_eq_ok.mp hrecord).symm

theorem record_succeeds (rec : Recording) (s : Resident)
    (hgrids : ∀ n ∈ forwardGrids model rec.lm, 0 < n) : ∃ last, record model rec s = .ok last := by
  have hanew : ∃ last, (checkGrids (forwardGrids model rec.lm) >>= fun _ =>
      (pure (rec.key, rec) : Except GpuError (ℕ × Recording))) = .ok last :=
    ⟨_, bind_eq_ok.mpr ⟨(), check_eq_ok.mpr hgrids, rfl⟩⟩
  unfold record
  split
  next last _ =>
    split_ifs
    · exact ⟨_, rfl⟩
    · exact hanew
  next => exact hanew

end VkPass

end Zllm.Vulkan

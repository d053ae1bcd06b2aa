import Zllm.Basic
import Zllm.Lib.Outcome
import Mathlib.Algebra.Order.Floor.Div
import Mathlib.Logic.Function.Basic

/-!
# The raw-Vulkan engine

`VkModel` as a resident cache of K/V rows in the pos-major layout, the record of the tokens that the
cache is reused for, and the two request lanes of the server that drive it.
-/

namespace Zllm.Vulkan

open Function (update update_of_ne update_self)

inductive Panic where
  | promptBounds
  | tileExceeds
  | positionExceeds
  deriving DecidableEq, Repr

/-- `PREFILL_MAX_M`. -/
def prefillMaxM : Nat := 1024

/-- `MAX_SEQ`. -/
def maxSeq : Nat := 4096

/-- Rows in which a prefill tile is padded. -/
def padUnit : Nat := 128

theorem prefillMaxM_pos : 0 < prefillMaxM := by decide

/-- Tokens in tiles: none, one last tile, or a full one and the rest. -/
theorem chunk_induction {α : Type} {P : Nat → List α → Prop} (hnil : P 0 [])
    (hlast : ∀ tokens : List α, tokens.length ≤ prefillMaxM → P 1 tokens)
    (hmore : ∀ chunks (tokens : List α), prefillMaxM < tokens.length →
      P chunks (tokens.drop prefillMaxM) → P (chunks + 1) tokens) (tokens : List α) :
    P (tokens.length ⌈/⌉ prefillMaxM) tokens := by
  generalize hchunks : tokens.length ⌈/⌉ prefillMaxM = chunks
  induction chunks generalizing tokens with
  | zero =>
    have hzero : tokens.length ≤ prefillMaxM * 0 :=
      (ceilDiv_le_iff_le_mul prefillMaxM_pos).mp hchunks.le
    rwa [List.length_eq_zero_iff.mp (Nat.le_zero.mp hzero)]
  | succ chunks ih =>
    by_cases hshort : tokens.length ≤ prefillMaxM
    · have hone : tokens.length ⌈/⌉ prefillMaxM ≤ 1 :=
        (ceilDiv_le_iff_le_mul prefillMaxM_pos).mpr (by omega)
      obtain rfl : chunks = 0 := by omega
      exact hlast tokens hshort
    · refine hmore chunks tokens (not_le.mp hshort) (ih _ ?_)
      rw [List.length_drop]
      rw [Nat.ceilDiv_eq_add_pred_div] at hchunks ⊢
      unfold prefillMaxM at *
      omega

/-- What the recorded command buffers compute for one row from the resident rows below it. A row of
K/V is that of all layers. The single-token forward and the batched prefill have kernels of their
own, and the padding rows of a prefill tile leave K/V as well. -/
structure VkKernels (V L : Type) where
  step : List V → Token → V × L
  tile : List V → Token → V × L
  padRow : List V → V
  argmax : L → Token
  noLogits : L

structure VkModel (V : Type) where
  kv : Nat → V
  promptCache : List Token

namespace VkModel

variable {V L : Type} (k : VkKernels V L)

def new (kv : Nat → V) : VkModel V where
  kv := kv
  promptCache := []

/-- The resident rows below `pos`. -/
def rows (model : VkModel V) (pos : Nat) : List V := (List.range pos).map model.kv

def writeRow (model : VkModel V) (pos : Nat) (row : V) : VkModel V :=
  { model with kv := update model.kv pos row }

/-- `forward_inner`. The rotary tables and the cache end at `max_seq`. -/
def forward (token : Token) (pos : Nat) (model : VkModel V) : Except Panic (L × VkModel V) :=
  if pos < maxSeq then
    let (row, logits) := k.step (model.rows pos) token
    .ok (logits, model.writeRow pos row)
  else
    .error .positionExceeds

def forwardArgmax (token : Token) (pos : Nat) (model : VkModel V) :
    Except Panic (Token × VkModel V) := do
  let (logits, model) ← forward k token pos model
  pure (k.argmax logits, model)

def prefillStep (token : Token) (pos : Nat) (model : VkModel V) : Except Panic (VkModel V) := do
  let (_, model) ← forward k token pos model
  pure model

/-- The real rows of a prefill tile from `pos`, and the logits of the last one. -/
def tileRows : (tokens : List Token) → (pos : Nat) → (logits : L) → VkModel V → L × VkModel V
  | [], _, logits, model => (logits, model)
  | token :: tokens, pos, _, model =>
      let (row, logits) := k.tile (model.rows pos) token
      tileRows tokens (pos + 1) logits (model.writeRow pos row)

/-- `count` padding rows from `pos`. -/
def padRows : (count pos : Nat) → VkModel V → VkModel V
  | 0, _, model => model
  | count + 1, pos, model =>
      padRows count (pos + 1) (model.writeRow pos (k.padRow (model.rows pos)))

/-- The tile of a chunk of `len` tokens, padded to the next multiple of 128. -/
def paddedM (len : Nat) : Nat := min ((min len prefillMaxM ⌈/⌉ padUnit) * padUnit) prefillMaxM

theorem le_paddedM (len : Nat) : min len prefillMaxM ≤ paddedM len := by
  have hceil : min len prefillMaxM ≤ padUnit * (min len prefillMaxM ⌈/⌉ padUnit) :=
    (ceilDiv_le_iff_le_mul (by decide)).mp le_rfl
  unfold paddedM
  rw [Nat.mul_comm] at hceil
  omega

theorem padUnit_dvd_paddedM (len : Nat) : padUnit ∣ paddedM len := by
  unfold paddedM
  rcases min_choice ((min len prefillMaxM ⌈/⌉ padUnit) * padUnit) prefillMaxM with hmin | hmin
  · rw [hmin]
    exact Nat.dvd_mul_left padUnit _
  · rw [hmin]
    decide

def prefillInner (prompt : List Token) (pos : Nat) (model : VkModel V) :
    Except Panic (L × VkModel V) :=
  let realM := min prompt.length prefillMaxM
  let m := paddedM prompt.length
  if pos + m ≤ maxSeq then
    let (logits, model) := tileRows k (prompt.take realM) pos k.noLogits model
    .ok (logits, padRows k (m - realM) (pos + realM) model)
  else
    .error .tileExceeds

/-- The loop of `prefill_from`, with `chunks` tiles to go. -/
def prefillChunks : (chunks : Nat) → (tokens : List Token) → (start : Nat) → (logits : L) →
    VkModel V → Except Panic (L × VkModel V)
  | 0, _, _, logits, model => .ok (logits, model)
  | chunks + 1, tokens, start, _, model => do
      let (logits, model) ← prefillInner k (tokens.take prefillMaxM) start model
      prefillChunks chunks (tokens.drop prefillMaxM) (start + prefillMaxM) logits model

def prefillFrom (tokens : List Token) (start : Nat) (model : VkModel V) :
    Except Panic (L × VkModel V) :=
  prefillChunks k (tokens.length ⌈/⌉ prefillMaxM) tokens start k.noLogits model

def prefillForward (prompt : List Token) (model : VkModel V) : Except Panic (L × VkModel V) :=
  prefillFrom k prompt 0 model

/-- `prefill_step` on each of the tokens from `pos`. -/
def prefillSteps : (tokens : List Token) → (pos : Nat) → VkModel V → Except Panic (VkModel V)
  | [], _, model => .ok model
  | token :: tokens, pos, model => do
      let model ← prefillStep k token pos model
      prefillSteps tokens (pos + 1) model

/-- Tokens that a prompt shares with the record, from the start. -/
def lcp (prompt cached : List Token) : Nat :=
  ((prompt.zip cached).takeWhile fun pair => pair.1 == pair.2).length

def prefillCap : Nat := maxSeq - padUnit

/-- The rows of `prompt` from `reuse`: chunked where they are many, step by step where few. -/
def prefillSuffix (prompt : List Token) (last : Token) (reuse : Nat) (model : VkModel V) :
    Except Panic (L × VkModel V) :=
  let suffix := prompt.drop reuse
  if 32 < suffix.length then
    prefillFrom k suffix reuse model
  else do
    let model ← prefillSteps k suffix.dropLast reuse model
    forward k last (prompt.length - 1) model

def prefillCached (prompt : List Token) (model : VkModel V) : Except Panic (L × VkModel V) :=
  match prompt.getLast? with
  | none => .error .promptBounds
  | some last =>
      if prompt.length ≤ prefillCap then do
        let reuse := min (lcp prompt model.promptCache) (prompt.length - 1)
        let (logits, model) ← prefillSuffix k prompt last reuse model
        pure (logits, { model with promptCache := prompt })
      else
        .error .promptBounds

def noteDecoded (tokens : List Token) (model : VkModel V) : VkModel V :=
  { model with promptCache := model.promptCache ++ tokens }

end VkModel

/-! ### The two lanes -/

/-- What decides a generation besides the model: the stop tokens, the sampler with its decode
control, the stop strings, and the token budget. -/
structure DecodeEnv (L : Type) where
  stops : Token → Bool
  greedy : Bool
  sample : (generated : List Token) → L → Token
  stopHit : (generated : List Token) → Bool
  maxTokens : Nat

namespace VkModel

variable {V L : Type} (k : VkKernels V L)

/-- Forward `token` and choose the next one. -/
def decodeStep (env : DecodeEnv L) (generated : List Token) (token : Token) (pos : Nat)
    (model : VkModel V) : Except Panic (Token × VkModel V) :=
  if env.greedy then
    forwardArgmax k token pos model
  else do
    let (logits, model) ← forward k token pos model
    pure (env.sample generated logits, model)

/-- The decode loop of both lanes, with at most `left` tokens to go: the tokens it generated, and
the position after the last one it forwarded. `closed` tells that a chunk cannot be sent. -/
def decodeLoop (env : DecodeEnv L) (closed : List Token → Bool) :
    (left : Nat) → (next : Token) → (pos : Nat) → (generated : List Token) → VkModel V →
      Except Panic ((List Token × Nat) × VkModel V)
  | 0, _, pos, generated, model => .ok ((generated, pos), model)
  | left + 1, next, pos, generated, model =>
      if env.stops next then
        .ok ((generated, pos), model)
      else
        let generated := generated ++ [next]
        if env.stopHit generated || closed generated || env.maxTokens ≤ generated.length then
          .ok ((generated, pos), model)
        else do
          let (next, model) ← decodeStep k env generated next pos model
          decodeLoop env closed left next (pos + 1) generated model

/-- Enough iterations for a budget of `maxTokens`: the first token is pushed before the budget is
looked at. -/
def decodeFuel (env : DecodeEnv L) : Nat := max env.maxTokens 1

/-- The budget ends the loop before its fuel does: more fuel changes nothing. -/
theorem decodeLoop_fuel (env : DecodeEnv L) (closed : List Token → Bool) (extra : Nat) :
    ∀ (left next pos : Nat) (generated : List Token) (model : VkModel V), 0 < left →
      env.maxTokens ≤ generated.length + left →
      decodeLoop k env closed (left + extra) next pos generated model =
        decodeLoop k env closed left next pos generated model
  | 0, _, _, _, _, hpos, _ => absurd hpos (Nat.lt_irrefl 0)
  | left + 1, next, pos, generated, model, _, hbudget => by
      rw [Nat.add_right_comm left 1 extra]
      simp only [decodeLoop]
      by_cases hend : env.stopHit (generated ++ [next]) || closed (generated ++ [next]) ||
          env.maxTokens ≤ (generated ++ [next]).length
      · simp only [hend, if_true]
      · have hmore : generated.length + 1 < env.maxTokens := by
          by_contra hdone
          apply hend
          simp
          omega
        have hnext : ∀ (token : Token) (stepped : VkModel V),
            decodeLoop k env closed (left + extra) token (pos + 1) (generated ++ [next]) stepped =
              decodeLoop k env closed left token (pos + 1) (generated ++ [next]) stepped := by
          intro token stepped
          apply decodeLoop_fuel env closed extra left
          · omega
          · rw [List.length_append, List.length_singleton]
            omega
        simp only [hend, hnext]

/-- The blocking lane. -/
def generateVk (env : DecodeEnv L) (prompt : List Token) (model : VkModel V) :
    Except Panic (List Token × VkModel V) := do
  let (logits, model) ← prefillCached k prompt model
  let ((generated, _), model) ← decodeLoop k env (fun _ => false) (decodeFuel env)
    (env.sample [] logits) prompt.length [] model
  if generated.isEmpty then
    pure (generated, model)
  else
    pure (generated, model.noteDecoded (generated.take (generated.length - 1)))

/-- The prefill of the streaming lane, and the first token it chooses. -/
def streamPrefill (env : DecodeEnv L) (prompt : List Token) (last : Token) (model : VkModel V) :
    Except Panic (Token × VkModel V) :=
  if 32 < prompt.length then do
    let (logits, model) ← prefillForward k prompt model
    pure (env.sample [] logits, model)
  else do
    let model ← prefillSteps k prompt.dropLast 0 model
    decodeStep k env [] last (prompt.length - 1) model

/-- The Vulkan lane of `chat_stream`. -/
def chatStream (env : DecodeEnv L) (closed : List Token → Bool) (prompt : List Token)
    (model : VkModel V) : Except Panic ((List Token × Nat) × VkModel V) :=
  match prompt.getLast? with
  | none => .error .promptBounds
  | some last => do
      let (next, model) ← streamPrefill k env prompt last model
      decodeLoop k env closed (decodeFuel env) next prompt.length [] model

end VkModel

end Zllm.Vulkan

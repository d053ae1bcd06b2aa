import Zllm.Gpu.BatcherRun

/-!
# Logits of the own prefix

The device of an ideal forward: a slot remembers the tokens fed to it, and the logits of a row are a
function of the tokens up to it.
-/

namespace Zllm.Gpu

open Function (update update_of_ne update_self)

variable {L : Type}

/-- What stands for the model and the sampling kernels. -/
structure Model (L : Type) where
  logitsOf : List Token → L
  argmax : L → Token
  gumbel : L → (temp : ℚ) → (seed : UInt32) → Token
  sampleTopk : L → SamplingParams → (seed : UInt32) → Token

abbrev History := Nat → List Token

def Model.device (model : Model L) : Device History (List Token) L where
  forwardRow := fun _ _ mem row =>
    let fed := (mem row.slot).take row.pos ++ [row.tok]
    (update mem row.slot fed, model.logitsOf fed)
  copyOut := fun _ mem slot _ nPositions => (mem slot).take nPositions
  copyIn := fun _ _ mem slot _ saved => update mem slot saved
  adopt := fun mem slot prompt cachedLen => update mem slot (prompt.take cachedLen)
  publish := fun mem _ => mem
  argmax := model.argmax
  gumbel := model.gumbel
  sampleTopk := model.sampleTopk

theorem prefix_update {mem : History} {kv : Nat → SlotKv} {slot sealed : Nat}
    {tokens fed : List Token} (hholds : ∀ slot, (kv slot).tokens <+: mem slot)
    (hfed : tokens <+: fed) (other : Nat) :
    (update kv slot ⟨tokens, sealed⟩ other).tokens <+: update mem slot fed other := by
  by_cases heq : other = slot
  · simpa [heq] using hfed
  · simpa [heq] using hholds other

theorem take_of_prefix {tokens fed : List Token} (hinitial : tokens <+: fed) :
    fed.take tokens.length = tokens :=
  (List.prefix_iff_eq_take.mp hinitial).symm

def Model.memory (model : Model L) : KvMemory model.device where
  Reads := fun tokens logits => logits = model.logitsOf tokens
  Holds := fun _ _ mem kv => ∀ slot, (kv slot).tokens <+: mem slot
  Saved := fun _ host tokens => host.data = tokens
  holds_truncate := fun hholds hinitial slot => (hinitial slot).trans (hholds slot)
  holds_extends := fun _ hholds _ _ => hholds
  holds_row := by
    intro cfg blocks mem kv row _ hholds hpos _ _
    have hfed : (mem row.slot).take row.pos = (kv row.slot).tokens := by
      rw [hpos]
      exact take_of_prefix (hholds row.slot)
    simp only [Model.device, hfed]
    exact ⟨prefix_update hholds List.prefix_rfl, trivial⟩
  holds_freeSlot := by
    intro cfg blocks mem kv slot _ hholds other
    by_cases heq : other = slot
    · simp [heq, SlotKv.empty]
    · simpa [heq] using hholds other
  holds_adopt := fun _ hholds _ _ _ _ => prefix_update hholds List.prefix_rfl
  holds_register := by
    intro cfg blocks blocks' mem kv slot prompt cached sealed _ hholds _ htokens _ other
    change _ <+: mem other
    by_cases heq : other = slot
    · simpa [heq, ← htokens] using hholds slot
    · simpa [heq] using hholds other
  saved_copyOut := by
    intro cfg blocks mem kv slot nPos _ hholds hle
    obtain ⟨rest, hrest⟩ := hholds slot
    simp only [Model.device, ← hrest]
    rw [List.take_append_of_le_length hle]
  holds_copyIn := by
    intro cfg blocks mem kv slot tokens host _ hholds hsaved _ _ _ _
    exact prefix_update hholds (by rw [hsaved])

/-! ### A small run -/

/-- A model whose next token is the length of what it has read, shifted by the seed when sampled. -/
def lengthModel : Model Nat where
  logitsOf := List.length
  argmax := id
  gumbel := fun logits temp seed => if temp ≤ 0 then logits else logits + seed.toNat
  sampleTopk := fun logits params _ => if params.temp ≤ 0 then logits else logits + params.topK

/-- Two slots over a pool that cannot hold two long sequences at once. -/
def tightPool : PoolConfig where
  mMax := 2
  maxSeq := 8
  blockSize := 2
  nBlocks := 4
  prefixBlockHash := fun prev tokens => prev * 31 + UInt64.ofNat (tokens.headD 0) + 1
  blockSize_pos := by decide
  holdsOneSequence := by decide

def greedyRequest (id : Nat) (prompt : List Token) : Request where
  id := id
  prompt := prompt
  maxTokens := 3
  eos := 100
  params := .greedy
  seed := 0

/-- The second request is evicted while the first one runs, and resumed. -/
def crowdedCalls : List Call :=
  [.enqueue (greedyRequest 1 [7, 7, 7]), .enqueue (greedyRequest 2 [8, 8, 8]),
    .step, .step, .step, .step, .step]

def crowdedLog : List LogEntry :=
  [.accepted (greedyRequest 1 [7, 7, 7]), .accepted (greedyRequest 2 [8, 8, 8]),
    .emitted 1 3 false, .emitted 1 4 false, .emitted 2 3 false, .emitted 1 5 true,
    .emitted 2 4 false, .emitted 2 5 true]

/-- A fresh batcher over `tightPool` that preempts by recompute. -/
def tightBatcher : BatcherRun History (List Token) := .new tightPool false false fun _ => []

theorem reaches_crowdedLog : ∃ run,
    BatcherReaches lengthModel.device (fun _ _ => True) tightBatcher run ∧ run.log = crowdedLog :=
  exists_reaches_of_execAll BatcherRun.log crowdedCalls rfl

end Zllm.Gpu

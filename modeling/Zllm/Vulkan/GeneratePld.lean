import Zllm.Gpu.GeneratePld
import Zllm.Gpu.OwnPrefix
import Zllm.Vulkan.VkModel

/-!
# Speculative decoding on the resident cache

`VkModel::generate_pld`: the prompt token by token, then the prompt-lookup loop, whose forwards
verify at most eight rows. The budget leaves room for every draft, but `draft_k` is not checked
against the rows of a verification.
-/

namespace Zllm.Vulkan

open Function (update update_of_ne update_self)
open Outcome
open SpecDecode (Forwards Overdrafts greedyAlone)

/-- `VERIFY_MAX_M`. -/
def verifyMaxM : Nat := 8

inductive PldPanic where
  | forward (panic : Panic)
  | verifyBounds
  deriving DecidableEq, Repr

namespace VkModel

variable {V L : Type} (k : VkKernels V L) (verify : List V → Token → V × L)

/-- The rows of a verification and the choice at each. The layers run over all rows at once, and a
row attends those up to its own. -/
def verifyRows : (tokens : List Token) → (pos : Nat) → VkModel V → List Token × VkModel V
  | [], _, model => ([], model)
  | token :: tokens, pos, model =>
      let (row, logits) := verify (model.rows pos) token
      let (outs, model) := verifyRows tokens (pos + 1) (model.writeRow pos row)
      (k.argmax logits :: outs, model)

/-- `verify_inner` -/
def verifyForward (tokens : List Token) (pos : Nat) (model : VkModel V) :
    Except PldPanic (List Token × VkModel V) :=
  if 1 ≤ tokens.length ∧ tokens.length ≤ verifyMaxM ∧ pos + tokens.length ≤ maxSeq then
    .ok (verifyRows k verify tokens pos model)
  else
    .error .verifyBounds

def pldForwards : Forwards (VkModel V) PldPanic where
  verify tokens pos model := verifyForward k verify tokens pos model
  single token pos model := (forwardArgmax k token pos model).mapError .forward

/-- The prompt from `pos` on, with the last choice. -/
def forwardPrompt : (tokens : List Token) → (pos : Nat) → (next : Token) → VkModel V →
    Except Panic (Token × VkModel V)
  | [], _, next, model => .ok (next, model)
  | token :: tokens, pos, _, model => do
      let (next, model) ← forwardArgmax k token pos model
      forwardPrompt tokens (pos + 1) next model

/-- Returns `(produced, forwards)`. -/
def generatePld (prompt : List Token) (maxNew : Nat) (eos : Token) (lookupLen draftK : Nat)
    (model : VkModel V) : Except PldPanic ((List Token × Nat) × VkModel V) :=
  if prompt ≠ [] ∧ prompt.length + maxNew < maxSeq then do
    let (next, model) ← (forwardPrompt k prompt 0 0 model).mapError .forward
    (pldForwards k verify).pldRun eos maxNew lookupLen draftK prompt next model
  else
    .error (.forward .promptBounds)

end VkModel

/-! ### Kernels that compute by the prefix -/

variable {V L : Type} {k : VkKernels V L} {verify : List V → Token → V × L}
  {kvOf : List Token → V} {next : List Token → Token} {held : List Token} {model : VkModel V}

/-- The K/V rows of the tokens, each behind those before it. -/
def prefixRows (kvOf : List Token → V) (tokens : List Token) : List V :=
  (List.range tokens.length).map fun i => kvOf (tokens.take (i + 1))

/-- Over the rows of the tokens before it, a kernel computes the row of a token and its choice. -/
def Computes (k : VkKernels V L) (kvOf : List Token → V) (next : List Token → Token)
    (kernel : List V → Token → V × L) : Prop :=
  ∀ tokens token, (kernel (prefixRows kvOf tokens) token).1 = kvOf (tokens ++ [token]) ∧
    k.argmax (kernel (prefixRows kvOf tokens) token).2 = next (tokens ++ [token])

namespace VkModel

/-- The first rows are those of the tokens. -/
def Keeps (kvOf : List Token → V) (held : List Token) (model : VkModel V) : Prop :=
  model.rows held.length = prefixRows kvOf held

theorem keeps_iff : model.Keeps kvOf held ↔
    ∀ i < held.length, model.kv i = kvOf (held.take (i + 1)) := by
  simp only [Keeps, VkModel.rows, prefixRows, List.map_inj_left, List.mem_range]

theorem Keeps.truncate {kept : List Token} (h : model.Keeps kvOf held) (hkept : kept <+: held) :
    model.Keeps kvOf kept := by
  rw [keeps_iff] at h ⊢
  intro i hi
  have htake : kept.take (i + 1) = held.take (i + 1) := by
    rw [List.prefix_iff_eq_take.mp hkept, List.take_take, min_eq_left hi]
  rw [htake]
  exact h i (hi.trans_le hkept.length_le)

/-- Whatever stood at the position before, the row written there is the token's. -/
theorem Keeps.writeRow (h : model.Keeps kvOf held) (token : Token) :
    (model.writeRow held.length (kvOf (held ++ [token]))).Keeps kvOf (held ++ [token]) := by
  rw [keeps_iff] at h ⊢
  intro i hi
  rw [List.length_append, List.length_singleton] at hi
  rcases Nat.lt_succ_iff_lt_or_eq.mp hi with hlt | rfl
  · rw [List.take_append_of_le_length hlt]
    exact (update_of_ne hlt.ne _ _).trans (h i hlt)
  · rw [List.take_of_length_le (by simp)]
    exact update_self _ _ _

theorem Keeps.forwardArgmax (hstep : Computes k kvOf next k.step) (h : model.Keeps kvOf held)
    (token : Token) (hroom : held.length < maxSeq) :
    ∃ model', VkModel.forwardArgmax k token held.length model =
        .ok (next (held ++ [token]), model') ∧ model'.Keeps kvOf (held ++ [token]) := by
  obtain ⟨hrow, hchoice⟩ := hstep held token
  rw [← h] at hrow hchoice
  refine ⟨_, ?_, h.writeRow token⟩
  rw [VkModel.forwardArgmax, VkModel.forward, if_pos hroom, ← hrow, ← hchoice]
  rfl

theorem Keeps.verifyRows (hverify : Computes k kvOf next verify) (h : model.Keeps kvOf held)
    (tokens : List Token) :
    (VkModel.verifyRows k verify tokens held.length model).1 =
        ((List.range tokens.length).map fun i => next (held ++ tokens.take (i + 1))) ∧
      (VkModel.verifyRows k verify tokens held.length model).2.Keeps kvOf (held ++ tokens) := by
  induction tokens generalizing held model with
  | nil =>
    rw [List.append_nil]
    exact ⟨rfl, h⟩
  | cons token tokens ih =>
    obtain ⟨hrow, hchoice⟩ := hverify held token
    rw [← h] at hrow hchoice
    have hwritten := h.writeRow token
    rw [← hrow] at hwritten
    obtain ⟨houts, hkeeps⟩ := ih hwritten
    rw [List.length_append, List.length_singleton] at houts hkeeps
    rw [List.append_assoc] at hkeeps
    refine ⟨?_, hkeeps⟩
    rw [List.length_cons, List.range_succ_eq_map, List.map_cons, List.map_map,
      VkModel.verifyRows]
    change _ :: _ = _
    rw [houts, hchoice]
    congr 1
    refine List.map_congr_left fun i _ => ?_
    rw [Function.comp_apply, Nat.succ_eq_add_one, List.take_succ_cons, List.append_assoc]
    rfl

theorem lawful_pldForwards (hstep : Computes k kvOf next k.step)
    (hverify : Computes k kvOf next verify) :
    (pldForwards k verify).Lawful next (fun held model => model.Keeps kvOf held) verifyMaxM maxSeq
      .verifyBounds where
  truncate h hkept := h.truncate hkept
  verify inp h hne hroom hrows := by
    obtain ⟨houts, h'⟩ := h.verifyRows hverify inp
    refine ⟨_, ?_, h'⟩
    simp only [pldForwards]
    rw [verifyForward, if_pos ⟨List.length_pos_iff.mpr hne, hrows, hroom⟩, ← houts]
  refuses inp h hrows := if_neg fun hbounds => hrows.not_ge hbounds.2.1
  single tok h hroom := by
    obtain ⟨model', hforward, h'⟩ := h.forwardArgmax hstep tok hroom
    refine ⟨model', ?_, h'⟩
    simp only [pldForwards]
    rw [hforward]
    rfl

theorem Keeps.forwardPrompt (hstep : Computes k kvOf next k.step) (tokens : List Token)
    (h : model.Keeps kvOf held) (hroom : held.length + tokens.length ≤ maxSeq) (last : Token)
    (hlast : tokens = [] → last = next held) :
    ∃ model', VkModel.forwardPrompt k tokens held.length last model =
        .ok (next (held ++ tokens), model') ∧ model'.Keeps kvOf (held ++ tokens) := by
  induction tokens generalizing held last model with
  | nil =>
    rw [List.append_nil, ← hlast rfl]
    exact ⟨model, rfl, h⟩
  | cons token tokens ih =>
    rw [List.length_cons] at hroom
    obtain ⟨model', hforward, h'⟩ := h.forwardArgmax hstep token (by omega)
    obtain ⟨model'', hrest, h''⟩ := ih h' (by rw [List.length_append, List.length_singleton]; omega)
      (next (held ++ [token])) fun _ => rfl
    rw [List.length_append, List.length_singleton] at hrest
    rw [List.append_assoc] at hrest h''
    rw [VkModel.forwardPrompt, hforward]
    exact ⟨model'', hrest, h''⟩

/-- On a new model: the greedy output, or the refusal of a draft of at least eight tokens. -/
theorem generatePld_new (hstep : Computes k kvOf next k.step) (hverify : Computes k kvOf next verify)
    (kv : Nat → V) {prompt : List Token} (hne : prompt ≠ []) {maxNew : Nat} (hmaxNew : 0 < maxNew)
    (eos : Token) (lookupLen draftK : Nat) (hroom : prompt.length + maxNew < maxSeq) :
    (∃ forwards model', (VkModel.new kv).generatePld k verify prompt maxNew eos lookupLen draftK =
      .ok ((greedyAlone next prompt eos maxNew, forwards), model')) ∨
    ((VkModel.new kv).generatePld k verify prompt maxNew eos lookupLen draftK =
      .error .verifyBounds ∧ Overdrafts next prompt eos maxNew lookupLen draftK verifyMaxM) := by
  have hempty : (VkModel.new kv).Keeps kvOf [] := rfl
  obtain ⟨model, hprompt, hkeeps⟩ := hempty.forwardPrompt hstep prompt
    (by rw [List.length_nil]; omega) 0 fun hnil => absurd hnil hne
  rw [List.nil_append] at hprompt hkeeps
  rw [VkModel.generatePld, if_pos ⟨hne, hroom⟩]
  rw [show (forwardPrompt k prompt 0 0 (VkModel.new kv)) = .ok (next prompt, model) from hprompt]
  exact (lawful_pldForwards hstep hverify).pldRun lookupLen draftK hroom.le hmaxNew hkeeps eos

end VkModel

/-! ### Both lanes over one model -/

/-- Kernels whose rows remember the tokens. -/
def idealKernels (model : Gpu.Model L) : VkKernels Token L where
  step below token := (token, model.logitsOf (below ++ [token]))
  tile below token := (token, model.logitsOf (below ++ [token]))
  padRow := fun _ => 0
  argmax := model.argmax
  noLogits := model.logitsOf []

theorem prefixRows_getLastD (tokens : List Token) :
    prefixRows (fun tokens => tokens.getLastD 0) tokens = tokens := by
  apply List.ext_getElem
  · rw [prefixRows, List.length_map, List.length_range]
  · intro i hi hlt
    have htake : tokens.take (i + 1) = tokens.take i ++ [tokens[i]] :=
      (List.take_append_getElem hlt).symm
    simp only [prefixRows, List.getElem_map, List.getElem_range, htake, List.getLastD_concat]

theorem idealKernels_computes (model : Gpu.Model L) :
    Computes (idealKernels model) (fun tokens => tokens.getLastD 0)
      (fun tokens => model.argmax (model.logitsOf tokens)) (idealKernels model).step := by
  intro tokens token
  rw [prefixRows_getLastD]
  exact ⟨List.getLastD_concat.symm, rfl⟩

/-- **Prompt-lookup decoding is greedy decoding.** With the forward a function of the tokens up to a
row, both `generate_pld` return the prompt's own greedy tokens up to the first `eos`, whatever the
lookup drafts: on a fresh decoder no assertion fails, and on the resident cache none but the bound
on the rows of a verification, which a draft of eight tokens exceeds. -/
theorem generate_pld_greedy (model : Gpu.Model L) (prompt : List Token) (hne : prompt ≠ [])
    (maxNew : Nat) (hmaxNew : 1 ≤ maxNew) (eos : Token) (lookupLen draftK : Nat) :
    (∀ (cfg : Gpu.PoolConfig) (firstFit : Bool) (memory : Gpu.History), draftK + 1 ≤ cfg.mMax →
      prompt.length + maxNew ≤ cfg.maxSeq → ∃ forwards dec,
        (Gpu.BatchedDecoder.new cfg firstFit memory).generatePld model.device prompt maxNew eos
          lookupLen draftK =
        .ok ((greedyAlone (fun tokens => model.argmax (model.logitsOf tokens)) prompt eos maxNew,
          forwards), dec)) ∧
    ∀ kv : Nat → Token, prompt.length + maxNew < maxSeq →
      (∃ forwards vk, (VkModel.new kv).generatePld (idealKernels model) (idealKernels model).step
          prompt maxNew eos lookupLen draftK =
        .ok ((greedyAlone (fun tokens => model.argmax (model.logitsOf tokens)) prompt eos maxNew,
          forwards), vk)) ∨
      ((VkModel.new kv).generatePld (idealKernels model) (idealKernels model).step
          prompt maxNew eos lookupLen draftK = .error .verifyBounds ∧
        Overdrafts (fun tokens => model.argmax (model.logitsOf tokens)) prompt eos maxNew lookupLen
          draftK verifyMaxM) := by
  constructor
  · intro cfg firstFit memory hrows hroom
    have hreads : ∀ tokens logits, model.memory.Reads tokens logits →
        model.device.argmax logits = model.argmax (model.logitsOf tokens) := by
      rintro tokens logits rfl
      rfl
    have hnew : model.memory.Holds cfg (.new cfg firstFit) memory fun _ => Gpu.SlotKv.empty :=
      fun slot => List.nil_prefix
    exact Gpu.generatePld_new hreads hnew hne hmaxNew eos lookupLen hrows hroom
  · intro kv hroom
    have hcomputes := idealKernels_computes model
    exact VkModel.generatePld_new hcomputes hcomputes kv hne hmaxNew eos lookupLen draftK hroom

theorem generate_pld_greedy_echo :
    (∀ (cfg : Gpu.PoolConfig) (firstFit : Bool) (memory : Gpu.History), 4 ≤ cfg.mMax →
      10 ≤ cfg.maxSeq → ∃ forwards dec,
        (Gpu.BatchedDecoder.new cfg firstFit memory).generatePld Gpu.lengthModel.device
          [2, 3, 4, 5, 2] 5 9 2 3 = .ok (([5, 6, 7, 8, 9], forwards), dec)) ∧
    ∀ kv : Nat → Token, ∃ forwards vk, (VkModel.new kv).generatePld (idealKernels Gpu.lengthModel)
        (idealKernels Gpu.lengthModel).step [2, 3, 4, 5, 2] 5 9 2 3 =
      .ok (([5, 6, 7, 8, 9], forwards), vk) := by
  obtain ⟨hdecoder, hmodel⟩ :=
    generate_pld_greedy Gpu.lengthModel [2, 3, 4, 5, 2] (by decide) 5 (by decide) 9 2 3
  refine ⟨hdecoder, fun kv => (hmodel kv (by decide)).resolve_right fun hrefused => ?_⟩
  exact absurd hrefused.2.le (by decide)

/-- A model that has chosen the second token of a long prompt again, and so drafts what followed it.
-/
def echoModel : Gpu.Model Nat where
  logitsOf := fun _ => 2
  argmax := id
  gumbel := fun logits _ _ => logits
  sampleTopk := fun logits _ _ => logits

/-- A draft of eight tokens is one row too many for a verification. -/
theorem generate_pld_exceeds_verify :
    ¬ ∀ (model : Gpu.Model Nat) (prompt : List Token) (maxNew : Nat) (eos : Token)
      (lookupLen draftK mMax : Nat) (kv : Nat → Token), prompt ≠ [] → 1 ≤ maxNew →
      draftK + 1 ≤ mMax → prompt.length + maxNew < maxSeq →
      ∃ forwards vk, (VkModel.new kv).generatePld (idealKernels model) (idealKernels model).step
          prompt maxNew eos lookupLen draftK =
        .ok ((greedyAlone (fun tokens => model.argmax (model.logitsOf tokens)) prompt eos maxNew,
          forwards), vk) := by
  intro hgreedy
  obtain ⟨forwards, vk, hok⟩ := hgreedy echoModel [1, 2, 3, 4, 5, 6, 7, 8, 9, 10, 1] 10 0 2 8 9
    (fun _ => 0) (by decide) (by decide) (by decide) (by decide)
  have hfails : (VkModel.new fun _ => 0).generatePld (idealKernels echoModel)
      (idealKernels echoModel).step [1, 2, 3, 4, 5, 6, 7, 8, 9, 10, 1] 10 0 2 8 =
        .error .verifyBounds := rfl
  rw [hfails] at hok
  cases hok

end Zllm.Vulkan

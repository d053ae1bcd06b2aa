import Zllm.Engine.PromptLookup
import Zllm.Engine.SpecDecode
import Zllm.Engine.StopStrings
import Zllm.Lib.Loop

/-!
# The reported finish reason

The decode loops of the candle, speculative and GPU lanes, each with what its exits put into
`finish_reason`. What a backend computes is a parameter, and time is what the deadline check at an
iteration says. The candle and the speculative loops report a stop unless the deadline ended them,
so that a spent budget is reported as a stop as well. The GPU lanes begin with the length.
-/

namespace Zllm.FinishReason

open DecodeCtrl Loop Outcome
open SpecDecode (SpecState specIter lookupDraft)

/-- What ended a generation. -/
inductive Exit
  | stopToken
  | stopString
  | maxTokens
  | deadline
  | earlyExit
  | failed
  | disconnected
  deriving DecidableEq

/-- What is put into `finish_reason`. -/
inductive Reason
  | stop
  | length
  | earlyExit
  deriving DecidableEq

structure Ended where
  exit : Exit
  reason : Reason
  generated : List Token

/-- A stop string in the tokens of a spent budget is what ended them. -/
def Ended.withStops (stopped : List Token → Bool) (e : Ended) : Ended :=
  if e.exit = .maxTokens ∧ stopped e.generated then { e with exit := .stopString } else e

/-- No forward failed, and the client took every token. -/
def Ended.WithoutError (e : Ended) : Prop := e.exit ≠ .failed ∧ e.exit ≠ .disconnected

/-- The reason is a stop where a stop token or a stop string ended the generation, and the length
where its budget or its deadline did. -/
def Ended.Truthful (e : Ended) : Prop :=
  (e.reason = .stop ↔ e.exit = .stopToken ∨ e.exit = .stopString) ∧
    (e.reason = .length ↔ e.exit = .maxTokens ∨ e.exit = .deadline)

/-- What the loops know of a request. -/
structure Request where
  prompt : List Token
  maxTokens : Nat
  stops : Token → Bool
  ctrl : DecodeControl
  decode : List Token → List UInt8

namespace Request

variable (req : Request)

/-- The check of the last tokens for a stop string. -/
def stopCheck (generated : List Token) : Bool :=
  !req.ctrl.stops.isEmpty &&
    req.ctrl.stopHitIn (stopWindowText req.decode generated req.ctrl.windowTokens)

/-- `truncate_at_stop` cuts the whole text. -/
def cutsText (generated : List Token) : Bool := (req.ctrl.truncateAtStop (req.decode generated)).1

/-- Push tokens up to a stop token or the budget, and tell whether a stop token came. -/
def pushCommitted : (toks generated : List Token) → Bool × List Token
  | [], generated => (false, generated)
  | tok :: toks, generated =>
      if req.stops tok then (true, generated)
      else if req.maxTokens ≤ (generated ++ [tok]).length then (false, generated ++ [tok])
      else pushCommitted toks (generated ++ [tok])

end Request

/-! ### The candle lane -/

/-- The backend with the sampler behind it, the flags, and the client of a stream. -/
structure Candle (σ : Type) where
  prefillStart : Nat
  /-- The deadline has passed at this iteration. -/
  expired : Nat → Bool
  /-- The observer of an inspected prefill has asked for an early exit. -/
  earlyExit : Bool
  pldOn : Nat → Bool
  /-- Forward, mask and sample. -/
  draw : (input : List Token) → σ → Option (Token × σ)
  /-- The largest logit of each row of a batched forward. -/
  forwardAll : (input : List Token) → σ → Option (List Token) × σ
  keep : (before : σ) → (accepted : Nat) → σ → σ
  /-- The chunk of the last of these tokens is sent. -/
  sends : (generated : List Token) → Bool

structure CandleLoop (σ : Type) where
  iteration : Nat
  generated : List Token
  backend : σ

/-- `verify_drafts` over the choices of the rows, with the choice before them. -/
def verifyDrafts (last : Token) : (drafts choices : List Token) → Nat × Token
  | [], choices => (0, choices.getLastD last)
  | _ :: _, [] => (0, last)
  | draft :: drafts, choice :: choices =>
      if choice = draft then
        let (accepted, bonus) := verifyDrafts choice drafts choices
        (accepted + 1, bonus)
      else (0, choice)

section

variable {σ : Type} (req : Request) (env : Candle σ)

/-- The prompt behind the reused prefix, then one token at a time. -/
def candleInput (generated : List Token) : List Token :=
  if generated.isEmpty then req.prompt.drop env.prefillStart
  else generated.drop (generated.length - 1)

/-- Prompt-lookup decoding behind a pushed token in `generate_blocking`. A stop inside the draft
keeps the bonus token back, but does not end the loop. -/
def draftBlocking (iteration : Nat) (next : Token) (loop : CandleLoop σ) : CandleLoop σ :=
  let all := req.prompt ++ loop.generated
  if env.pldOn iteration ∧ loop.generated.length < req.maxTokens then
    match lookupDraft all all 2 5 with
    | none => loop
    | some draft =>
        match env.forwardAll (next :: draft) loop.backend with
        | (none, backend) => { loop with backend }
        | (some choices, backend) =>
            let (accepted, bonus) := verifyDrafts 0 draft choices
            let (eos, generated) := req.pushCommitted (draft.take accepted) loop.generated
            let earlyEos := eos || req.stopCheck generated
            let backend := env.keep loop.backend accepted backend
            if !earlyEos && !req.stops bonus && generated.length < req.maxTokens then
              { loop with generated := generated ++ [bonus], backend }
            else
              { loop with generated, backend }
  else
    loop

/-- An iteration of `generate_blocking`, whose `for` counts iterations. -/
def blockingStep (loop : CandleLoop σ) : Step (CandleLoop σ) Ended :=
  if req.maxTokens ≤ loop.iteration then
    .done { exit := .maxTokens, reason := .stop, generated := loop.generated }
  else if env.expired loop.iteration then
    .done { exit := .deadline, reason := .length, generated := loop.generated }
  else
    match env.draw (candleInput req env loop.generated) loop.backend with
    | none => .done { exit := .failed, reason := .stop, generated := loop.generated }
    | some (next, backend) =>
        let generated := loop.generated ++ [next]
        if loop.generated.isEmpty && env.earlyExit then
          .done { exit := .earlyExit, reason := .earlyExit, generated := loop.generated }
        else if req.stops next then
          .done { exit := .stopToken, reason := .stop, generated := loop.generated }
        else if req.stopCheck generated then
          .done { exit := .stopString, reason := .stop, generated }
        else
          .more (draftBlocking req env loop.iteration next
            { iteration := loop.iteration + 1, generated, backend })

/-- The candle path of `generate_blocking`. It does not ask whether the text was cut. -/
def generateBlocking (backend : σ) : Option Ended :=
  (run (blockingStep req env) (req.maxTokens + 1) { iteration := 0, generated := [], backend }).map
    (.withStops req.cutsText)

/-- The accepted drafts of a stream, each checked and sent. -/
def pushStreamed : (toks generated : List Token) → Bool × List Token
  | [], generated => (false, generated)
  | tok :: toks, generated =>
      if req.stops tok then (true, generated)
      else if req.stopCheck (generated ++ [tok]) then (true, generated ++ [tok])
      else if !env.sends (generated ++ [tok]) then (true, generated ++ [tok])
      else if req.maxTokens ≤ (generated ++ [tok]).length then (false, generated ++ [tok])
      else pushStreamed toks (generated ++ [tok])

/-- Prompt-lookup decoding behind a sent token in `chat_stream`. -/
def draftStreaming (iteration : Nat) (next : Token) (loop : CandleLoop σ) : CandleLoop σ :=
  let all := req.prompt ++ loop.generated
  if env.pldOn iteration ∧ loop.generated.length < req.maxTokens then
    match lookupDraft all all 2 5 with
    | none => loop
    | some draft =>
        match env.forwardAll (next :: draft) loop.backend with
        | (none, backend) => { loop with backend }
        | (some choices, backend) =>
            let (accepted, bonus) := verifyDrafts 0 draft choices
            let (earlyEos, generated) := pushStreamed req env (draft.take accepted) loop.generated
            let backend := env.keep loop.backend accepted backend
            if !earlyEos && !req.stops bonus && generated.length < req.maxTokens then
              { loop with generated := generated ++ [bonus], backend }
            else
              { loop with generated, backend }
  else
    loop

/-- An iteration of the candle path of `chat_stream`. -/
def streamingStep (loop : CandleLoop σ) : Step (CandleLoop σ) Ended :=
  if req.maxTokens ≤ loop.generated.length then
    .done { exit := .maxTokens, reason := .stop, generated := loop.generated }
  else if env.expired loop.iteration then
    .done { exit := .deadline, reason := .length, generated := loop.generated }
  else
    match env.draw (candleInput req env loop.generated) loop.backend with
    | none => .done { exit := .failed, reason := .stop, generated := loop.generated }
    | some (next, backend) =>
        let generated := loop.generated ++ [next]
        if loop.generated.isEmpty && env.earlyExit then
          .done { exit := .earlyExit, reason := .earlyExit, generated := loop.generated }
        else if req.stops next then
          .done { exit := .stopToken, reason := .stop, generated := loop.generated }
        else if req.stopCheck generated then
          .done { exit := .stopString, reason := .stop, generated }
        else if !env.sends generated then
          .done { exit := .disconnected, reason := .stop, generated }
        else
          .more (draftStreaming req env loop.iteration next
            { iteration := loop.iteration + 1, generated, backend })

/-- The candle path of `chat_stream`, whose text is not cut. -/
def chatStream (backend : σ) : Option Ended :=
  (run (streamingStep req env) (req.maxTokens + 1) { iteration := 0, generated := [], backend }).map
    (.withStops req.stopCheck)

end

/-! ### The speculative lane -/

/-- `SPEC_K` -/
def specK : Nat := 5

structure SpecLoop where
  state : SpecState
  generated : List Token

/-- An iteration of `generate_spec_decode`, whose reason is a constant. -/
def specStep (req : Request) (loop : SpecLoop) : Step SpecLoop Ended :=
  if req.maxTokens ≤ loop.generated.length then
    .done { exit := .maxTokens, reason := .stop, generated := loop.generated }
  else
    match specIter loop.state.main loop.state.draft loop.state.lastMainLogit
        loop.state.lastDraftLogit specK with
    | .error _ => .done { exit := .failed, reason := .stop, generated := loop.generated }
    | .ok (iter, main, draft) =>
        let (eos, generated) := req.pushCommitted iter.committed loop.generated
        if eos then
          .done { exit := .stopToken, reason := .stop, generated }
        else if req.stopCheck generated then
          .done { exit := .stopString, reason := .stop, generated }
        else
          .more { state := ⟨main, draft, iter.nextMainLogit, iter.nextDraftLogit⟩, generated }

/-- `generate_spec_decode` behind its two prefills. -/
def generateSpecDecode (req : Request) (state : SpecState) : Option Ended :=
  (run (specStep req) (req.maxTokens + 1) { state, generated := [] }).map (.withStops req.cutsText)

/-! ### The GPU lanes -/

/-- The wgpu or Vulkan engine with the sampler behind it, and the client of a stream. -/
structure GpuEngine (σ : Type) where
  forward : (token : Token) → (pos : Nat) → σ → Token × σ
  sends : (generated : List Token) → Bool

structure GpuLoop (σ : Type) where
  next : Token
  pos : Nat
  generated : List Token
  engine : σ

section

variable {σ : Type} (req : Request) (env : GpuEngine σ)

def GpuLoop.advance (generated : List Token) (loop : GpuLoop σ) : GpuLoop σ :=
  let (next, engine) := env.forward loop.next loop.pos loop.engine
  { next, pos := loop.pos + 1, generated, engine }

/-- An iteration of `generate_gpu`. -/
def gpuStep (loop : GpuLoop σ) : Step (GpuLoop σ) Ended :=
  let generated := loop.generated ++ [loop.next]
  if req.stops loop.next then
    .done { exit := .stopToken, reason := .stop, generated := loop.generated }
  else if req.stopCheck generated then
    .done { exit := .stopString, reason := .stop, generated }
  else if req.maxTokens ≤ generated.length then
    .done { exit := .maxTokens, reason := .length, generated }
  else
    .more (loop.advance env generated)

/-- A cut of the whole text makes the reason a stop. -/
def reportCut (e : Ended) : Ended :=
  if req.cutsText e.generated then { e with reason := .stop } else e

/-- `generate_gpu` and `generate_vk` behind the prefill. -/
def generateGpu (next : Token) (engine : σ) : Option Ended :=
  (run (gpuStep req env) (req.maxTokens + 1)
    { next, pos := req.prompt.length, generated := [], engine }).map
      (.withStops req.cutsText ∘ reportCut req)

/-- An iteration of the GPU path of `chat_stream`. -/
def gpuStreamStep (loop : GpuLoop σ) : Step (GpuLoop σ) Ended :=
  let generated := loop.generated ++ [loop.next]
  if req.stops loop.next then
    .done { exit := .stopToken, reason := .stop, generated := loop.generated }
  else if req.stopCheck generated then
    .done { exit := .stopString, reason := .stop, generated }
  else if !env.sends generated then
    .done { exit := .disconnected, reason := .length, generated }
  else if req.maxTokens ≤ generated.length then
    .done { exit := .maxTokens, reason := .length, generated }
  else
    .more (loop.advance env generated)

/-- The GPU and Vulkan paths of `chat_stream` behind the prefill. -/
def chatStreamGpu (next : Token) (engine : σ) : Option Ended :=
  (run (gpuStreamStep req env) (req.maxTokens + 1)
    { next, pos := req.prompt.length, generated := [], engine }).map (.withStops req.stopCheck)

end

/-! ### The exits -/

/-- Every exit of a loop but that at its budget has a true reason. -/
structure ReportsStop {σ : Type} (step : σ → Step σ Ended) (spent : σ → Prop)
    (generated : σ → List Token) : Prop where
  more : ∀ {l l'}, step l = .more l' → ¬ spent l
  budget : ∀ {l e}, spent l → step l = .done e → e.exit = .maxTokens ∧ e.reason = .stop ∧
    e.generated = generated l
  other : ∀ {l e}, ¬ spent l → step l = .done e → e.exit ≠ .maxTokens ∧
    (e.WithoutError → e.Truthful)

/-- The reason is true unless the budget is spent on tokens without a stop string. -/
theorem ReportsStop.truthful_iff {σ : Type} {step : σ → Step σ Ended} {spent : σ → Prop}
    {generated : σ → List Token} (hexits : ReportsStop step spent generated)
    (stopped : List Token → Bool) {fuel : Nat} {start : σ} {e : Ended}
    (hrun : run step fuel start = some e) (hok : (e.withStops stopped).WithoutError) :
    (e.withStops stopped).Truthful ↔
      ∀ l, Reaches step start l → spent l → stopped (generated l) = true := by
  refine run_iff (P := fun e => (e.withStops stopped).Truthful) hrun ?_ ?_
  · intro l l' hmore hspent
    exact absurd hspent (hexits.more hmore)
  · intro l hdone
    by_cases hspent : spent l
    · obtain ⟨hexit, hreason, hgenerated⟩ := hexits.budget hspent hdone
      by_cases hstopped : stopped (generated l) = true
      · simp [Ended.Truthful, Ended.withStops, hexit, hreason, hgenerated, hstopped]
      · simp [Ended.Truthful, Ended.withStops, hexit, hreason, hgenerated, hstopped, hspent]
    · obtain ⟨hexit, htruthful⟩ := hexits.other hspent hdone
      have hsame : e.withStops stopped = e := if_neg fun h => hexit h.1
      rw [hsame] at hok ⊢
      exact iff_of_true (htruthful hok) fun h => absurd h hspent

section

variable {σ : Type} (req : Request)

theorem blockingStep_reportsStop (env : Candle σ) :
    ReportsStop (blockingStep req env) (fun l => req.maxTokens ≤ l.iteration)
      CandleLoop.generated where
  more {l l'} hmore hspent := by
    rw [blockingStep, if_pos hspent] at hmore
    cases hmore
  budget {l e} hspent hdone := by
    rw [blockingStep, if_pos hspent] at hdone
    cases hdone
    exact ⟨rfl, rfl, rfl⟩
  other {l e} hspent hdone := by
    rw [blockingStep, if_neg hspent] at hdone
    by_cases hexpired : env.expired l.iteration = true
    · rw [if_pos hexpired] at hdone
      cases hdone
      simp [Ended.Truthful]
    · rw [if_neg hexpired] at hdone
      cases hdraw : env.draw (candleInput req env l.generated) l.backend with
      | none =>
        simp only [hdraw] at hdone
        cases hdone
        simp [Ended.WithoutError]
      | some drawn =>
        simp only [hdraw] at hdone
        split_ifs at hdone <;> cases hdone <;> simp [Ended.Truthful]

theorem streamingStep_reportsStop (env : Candle σ) :
    ReportsStop (streamingStep req env) (fun l => req.maxTokens ≤ l.generated.length)
      CandleLoop.generated where
  more {l l'} hmore hspent := by
    rw [streamingStep, if_pos hspent] at hmore
    cases hmore
  budget {l e} hspent hdone := by
    rw [streamingStep, if_pos hspent] at hdone
    cases hdone
    exact ⟨rfl, rfl, rfl⟩
  other {l e} hspent hdone := by
    rw [streamingStep, if_neg hspent] at hdone
    by_cases hexpired : env.expired l.iteration = true
    · rw [if_pos hexpired] at hdone
      cases hdone
      simp [Ended.Truthful]
    · rw [if_neg hexpired] at hdone
      cases hdraw : env.draw (candleInput req env l.generated) l.backend with
      | none =>
        simp only [hdraw] at hdone
        cases hdone
        simp [Ended.WithoutError]
      | some drawn =>
        simp only [hdraw] at hdone
        split_ifs at hdone <;> cases hdone <;> simp [Ended.Truthful, Ended.WithoutError]

theorem specStep_reportsStop :
    ReportsStop (specStep req) (fun l => req.maxTokens ≤ l.generated.length)
      SpecLoop.generated where
  more {l l'} hmore hspent := by
    rw [specStep, if_pos hspent] at hmore
    cases hmore
  budget {l e} hspent hdone := by
    rw [specStep, if_pos hspent] at hdone
    cases hdone
    exact ⟨rfl, rfl, rfl⟩
  other {l e} hspent hdone := by
    rw [specStep, if_neg hspent] at hdone
    cases hiter : specIter l.state.main l.state.draft l.state.lastMainLogit l.state.lastDraftLogit
        specK with
    | error err =>
      simp only [hiter] at hdone
      cases hdone
      simp [Ended.WithoutError]
    | ok result =>
      rcases hpush : req.pushCommitted result.1.committed l.generated with ⟨eos, generated⟩
      simp only [hiter, hpush] at hdone
      split_ifs at hdone <;> cases hdone <;> simp [Ended.Truthful]

/-- A GPU lane reports the length only where it saw no stop. -/
theorem gpuStep_exit (env : GpuEngine σ) {l : GpuLoop σ} {e : Ended}
    (hdone : gpuStep req env l = .done e) :
    (e.exit = .stopToken ∨ e.exit = .stopString) ∧ e.reason = .stop ∨
      e.exit = .maxTokens ∧ e.reason = .length := by
  simp only [gpuStep] at hdone
  split_ifs at hdone <;> cases hdone <;> simp

theorem gpuStreamStep_exit (env : GpuEngine σ) {l : GpuLoop σ} {e : Ended}
    (hdone : gpuStreamStep req env l = .done e) :
    (e.exit = .stopToken ∨ e.exit = .stopString) ∧ e.reason = .stop ∨ e.exit = .disconnected ∨
      e.exit = .maxTokens ∧ e.reason = .length ∧ req.stopCheck e.generated = false := by
  simp only [gpuStreamStep] at hdone
  split_ifs at hdone with htoken hstring hsent hspent <;> cases hdone <;> simp_all

/-! ### The loops end -/

theorem iteration_draftBlocking (env : Candle σ) (i : Nat) (next : Token) (l : CandleLoop σ) :
    (draftBlocking req env i next l).iteration = l.iteration := by
  simp only [draftBlocking]
  split
  · split
    · rfl
    · split
      · rfl
      · split <;> rfl
  · rfl

theorem length_le_pushCommitted (toks generated : List Token) :
    generated.length ≤ (req.pushCommitted toks generated).2.length := by
  induction toks generalizing generated with
  | nil => exact le_rfl
  | cons tok toks ih =>
    simp only [Request.pushCommitted]
    split
    · exact le_rfl
    · split
      · simp
      · refine le_trans ?_ (ih (generated ++ [tok]))
        simp

theorem length_lt_pushCommitted {toks : List Token} (generated : List Token) (hne : toks ≠ [])
    (hgo : (req.pushCommitted toks generated).1 = false) :
    generated.length < (req.pushCommitted toks generated).2.length := by
  cases toks with
  | nil => exact absurd rfl hne
  | cons tok toks =>
    simp only [Request.pushCommitted] at hgo ⊢
    split at hgo
    · cases hgo
    · next hstop =>
      rw [if_neg hstop]
      split
      · simp
      · refine lt_of_lt_of_le ?_ (length_le_pushCommitted req toks (generated ++ [tok]))
        simp

theorem length_le_pushStreamed (env : Candle σ) (toks generated : List Token) :
    generated.length ≤ (pushStreamed req env toks generated).2.length := by
  induction toks generalizing generated with
  | nil => exact le_rfl
  | cons tok toks ih =>
    simp only [pushStreamed]
    split_ifs
    · exact le_rfl
    · simp
    · simp
    · simp
    · refine le_trans ?_ (ih (generated ++ [tok]))
      simp

theorem length_le_draftStreaming (env : Candle σ) (i : Nat) (next : Token) (l : CandleLoop σ) :
    l.generated.length ≤ (draftStreaming req env i next l).generated.length := by
  simp only [draftStreaming]
  split
  · split
    · exact le_rfl
    · split
      · exact le_rfl
      · next choices backend hforward =>
        have hle := length_le_pushStreamed req env
        split
        · simp only [List.length_append]
          exact (hle _ _).trans (Nat.le_add_right _ _)
        · exact hle _ _
  · exact le_rfl

theorem committed_ne_nil {main draft : SpecDecode.Backend} {p q : List Logit} {k : Nat}
    {r : SpecDecode.SpecIterResult × SpecDecode.Backend × SpecDecode.Backend}
    (hok : specIter main draft p q k = .ok r) : r.1.committed ≠ [] := by
  rw [specIter] at hok
  obtain ⟨⟨drafts, draft'⟩, -, hok⟩ := bind_eq_ok.mp hok
  obtain ⟨⟨rows, main'⟩, -, hok⟩ := bind_eq_ok.mp hok
  cases drafts with
  | nil => cases hok
  | cons d rest =>
    obtain ⟨nextMain, -, hok⟩ := bind_eq_ok.mp hok
    obtain ⟨nextDraft, -, hok⟩ := bind_eq_ok.mp hok
    obtain rfl := pure_eq_ok.mp hok
    simp

theorem exists_generateBlocking (env : Candle σ) (backend : σ) :
    ∃ e, generateBlocking req env backend = some e := by
  have hrank : ∀ l l', blockingStep req env l = .more l' →
      req.maxTokens - l'.iteration < req.maxTokens - l.iteration := by
    intro l l' hmore
    have hbefore := (blockingStep_reportsStop req env).more hmore
    have hnext : l'.iteration = l.iteration + 1 := by
      simp only [blockingStep, if_neg hbefore] at hmore
      split at hmore
      · cases hmore
      · split at hmore
        · cases hmore
        · split_ifs at hmore
          cases hmore
          exact iteration_draftBlocking req env _ _ _
    omega
  let start : CandleLoop σ := { iteration := 0, generated := [], backend }
  have hfuel : req.maxTokens - start.iteration < req.maxTokens + 1 :=
    Nat.lt_succ_iff.mpr (Nat.sub_le _ _)
  obtain ⟨e, hrun⟩ :=
    exists_run (fun l : CandleLoop σ => req.maxTokens - l.iteration) hrank hfuel
  exact ⟨_, congrArg (Option.map _) hrun⟩

theorem exists_chatStream (env : Candle σ) (backend : σ) :
    ∃ e, chatStream req env backend = some e := by
  have hrank : ∀ l l', streamingStep req env l = .more l' →
      req.maxTokens - l'.generated.length < req.maxTokens - l.generated.length := by
    intro l l' hmore
    have hbefore := (streamingStep_reportsStop req env).more hmore
    have hnext : l.generated.length + 1 ≤ l'.generated.length := by
      simp only [streamingStep, if_neg hbefore] at hmore
      split at hmore
      · cases hmore
      · split at hmore
        · cases hmore
        · next next backend hdraw =>
          split_ifs at hmore
          cases hmore
          refine le_trans (Eq.le ?_) (length_le_draftStreaming req env _ _ _)
          simp
    omega
  let start : CandleLoop σ := { iteration := 0, generated := [], backend }
  have hfuel : req.maxTokens - start.generated.length < req.maxTokens + 1 :=
    Nat.lt_succ_iff.mpr (Nat.sub_le _ _)
  obtain ⟨e, hrun⟩ :=
    exists_run (fun l : CandleLoop σ => req.maxTokens - l.generated.length) hrank hfuel
  exact ⟨_, congrArg (Option.map _) hrun⟩

theorem exists_generateSpecDecode (state : SpecState) :
    ∃ e, generateSpecDecode req state = some e := by
  have hrank : ∀ l l', specStep req l = .more l' →
      req.maxTokens - l'.generated.length < req.maxTokens - l.generated.length := by
    intro l l' hmore
    have hbefore := (specStep_reportsStop req).more hmore
    have hnext : l.generated.length < l'.generated.length := by
      simp only [specStep, if_neg hbefore] at hmore
      split at hmore
      · cases hmore
      · next iter main draft hiter =>
        have hpush := length_lt_pushCommitted req l.generated (committed_ne_nil hiter)
        split_ifs at hmore with heos hstop
        cases hmore
        exact hpush (Bool.eq_false_iff.mpr heos)
    omega
  let start : SpecLoop := { state, generated := [] }
  have hfuel : req.maxTokens - start.generated.length < req.maxTokens + 1 :=
    Nat.lt_succ_iff.mpr (Nat.sub_le _ _)
  obtain ⟨e, hrun⟩ :=
    exists_run (fun l : SpecLoop => req.maxTokens - l.generated.length) hrank hfuel
  exact ⟨_, congrArg (Option.map _) hrun⟩

/-- A loop whose states that go on have one token more, below the budget. -/
theorem exists_gpuRun {step : GpuLoop σ → Step (GpuLoop σ) Ended}
    (hmore : ∀ l l', step l = .more l' → l'.generated = l.generated ++ [l.next] ∧
      l'.generated.length < req.maxTokens) (start : GpuLoop σ) (hstart : start.generated = []) :
    ∃ e, run step (req.maxTokens + 1) start = some e := by
  refine exists_run (fun l => req.maxTokens - l.generated.length) ?_ ?_
  · intro l l' hstep
    obtain ⟨hnext, hbelow⟩ := hmore l l' hstep
    have hlength : l'.generated.length = l.generated.length + 1 := by simp [hnext]
    omega
  · simp [hstart]

theorem exists_generateGpu (env : GpuEngine σ) (next : Token) (engine : σ) :
    ∃ e, generateGpu req env next engine = some e := by
  have hmore : ∀ l l', gpuStep req env l = .more l' →
      l'.generated = l.generated ++ [l.next] ∧ l'.generated.length < req.maxTokens := by
    intro l l' hmore
    simp only [gpuStep] at hmore
    split_ifs at hmore with htoken hstring hspent
    cases hmore
    exact ⟨rfl, Nat.lt_of_not_le hspent⟩
  obtain ⟨e, hrun⟩ := exists_gpuRun req hmore
    { next, pos := req.prompt.length, generated := [], engine } rfl
  exact ⟨_, congrArg (Option.map _) hrun⟩

theorem exists_chatStreamGpu (env : GpuEngine σ) (next : Token) (engine : σ) :
    ∃ e, chatStreamGpu req env next engine = some e := by
  have hmore : ∀ l l', gpuStreamStep req env l = .more l' →
      l'.generated = l.generated ++ [l.next] ∧ l'.generated.length < req.maxTokens := by
    intro l l' hmore
    simp only [gpuStreamStep] at hmore
    split_ifs at hmore with htoken hstring hsent hspent
    cases hmore
    exact ⟨rfl, Nat.lt_of_not_le hspent⟩
  obtain ⟨e, hrun⟩ := exists_gpuRun req hmore
    { next, pos := req.prompt.length, generated := [], engine } rfl
  exact ⟨_, congrArg (Option.map _) hrun⟩

/-! ### The lanes -/

theorem generateBlocking_truthful_iff (env : Candle σ) (backend : σ) {e : Ended}
    (hlane : generateBlocking req env backend = some e) (hok : e.WithoutError) :
    e.Truthful ↔ ∀ l : CandleLoop σ,
      Reaches (blockingStep req env) { iteration := 0, generated := [], backend } l →
        req.maxTokens ≤ l.iteration → req.cutsText l.generated = true := by
  obtain ⟨e, hrun, rfl⟩ := Option.map_eq_some_iff.mp hlane
  exact (blockingStep_reportsStop req env).truthful_iff req.cutsText hrun hok

theorem chatStream_truthful_iff (env : Candle σ) (backend : σ) {e : Ended}
    (hlane : chatStream req env backend = some e) (hok : e.WithoutError) :
    e.Truthful ↔ ∀ l : CandleLoop σ,
      Reaches (streamingStep req env) { iteration := 0, generated := [], backend } l →
        req.maxTokens ≤ l.generated.length → req.stopCheck l.generated = true := by
  obtain ⟨e, hrun, rfl⟩ := Option.map_eq_some_iff.mp hlane
  exact (streamingStep_reportsStop req env).truthful_iff req.stopCheck hrun hok

theorem generateSpecDecode_truthful_iff (state : SpecState) {e : Ended}
    (hlane : generateSpecDecode req state = some e) (hok : e.WithoutError) :
    e.Truthful ↔ ∀ l : SpecLoop, Reaches (specStep req) { state, generated := [] } l →
        req.maxTokens ≤ l.generated.length → req.cutsText l.generated = true := by
  obtain ⟨e, hrun, rfl⟩ := Option.map_eq_some_iff.mp hlane
  exact (specStep_reportsStop req).truthful_iff req.cutsText hrun hok

/-- The cut that makes the reason a stop is the one that makes the exit one. -/
theorem generateGpu_truthful (env : GpuEngine σ) (next : Token) (engine : σ) {e : Ended}
    (hlane : generateGpu req env next engine = some e) : e.Truthful := by
  obtain ⟨e, hrun, rfl⟩ := Option.map_eq_some_iff.mp hlane
  obtain ⟨l, -, hdone⟩ := exists_last hrun
  by_cases hcut : req.cutsText e.generated = true
  · rcases gpuStep_exit req env hdone with ⟨hexit | hexit, hreason⟩ | ⟨hexit, hreason⟩ <;>
      simp [Ended.withStops, reportCut, Ended.Truthful, hexit, hcut]
  · rcases gpuStep_exit req env hdone with ⟨hexit | hexit, hreason⟩ | ⟨hexit, hreason⟩ <;>
      simp [Ended.withStops, reportCut, Ended.Truthful, hexit, hreason, hcut]

theorem chatStreamGpu_truthful (env : GpuEngine σ) (next : Token) (engine : σ) {e : Ended}
    (hlane : chatStreamGpu req env next engine = some e) (hok : e.WithoutError) : e.Truthful := by
  obtain ⟨e, hrun, rfl⟩ := Option.map_eq_some_iff.mp hlane
  obtain ⟨l, -, hdone⟩ := exists_last hrun
  rcases gpuStreamStep_exit req env hdone with
    ⟨hexit | hexit, hreason⟩ | hexit | ⟨hexit, hreason, hstop⟩
  · simp [Ended.withStops, Ended.Truthful, hexit, hreason]
  · simp [Ended.withStops, Ended.Truthful, hexit, hreason]
  · simp [Ended.withStops, Ended.WithoutError, hexit] at hok
  · simp [Ended.withStops, Ended.Truthful, hexit, hreason, hstop]

end

/-- Every run ends. A run of the candle or the speculative lane without an error has a true reason
exactly if no state reached has spent the budget on tokens without a stop string, and one of the GPU
lanes has it always. -/
theorem finish_reason_truthful_iff (req : Request) :
    (∀ (σ : Type) (env : Candle σ) (backend : σ),
      ∃ e, generateBlocking req env backend = some e ∧ (e.WithoutError → (e.Truthful ↔
        ∀ l : CandleLoop σ,
          Reaches (blockingStep req env) { iteration := 0, generated := [], backend } l →
            req.maxTokens ≤ l.iteration → req.cutsText l.generated = true))) ∧
    (∀ (σ : Type) (env : Candle σ) (backend : σ),
      ∃ e, chatStream req env backend = some e ∧ (e.WithoutError → (e.Truthful ↔
        ∀ l : CandleLoop σ,
          Reaches (streamingStep req env) { iteration := 0, generated := [], backend } l →
            req.maxTokens ≤ l.generated.length → req.stopCheck l.generated = true))) ∧
    (∀ state : SpecState,
      ∃ e, generateSpecDecode req state = some e ∧ (e.WithoutError → (e.Truthful ↔
        ∀ l : SpecLoop, Reaches (specStep req) { state, generated := [] } l →
          req.maxTokens ≤ l.generated.length → req.cutsText l.generated = true))) ∧
    (∀ (σ : Type) (env : GpuEngine σ) (next : Token) (engine : σ),
      ∃ e, generateGpu req env next engine = some e ∧ e.Truthful) ∧
    ∀ (σ : Type) (env : GpuEngine σ) (next : Token) (engine : σ),
      ∃ e, chatStreamGpu req env next engine = some e ∧ (e.WithoutError → e.Truthful) := by
  refine ⟨?_, ?_, ?_, ?_, ?_⟩
  · intro σ env backend
    obtain ⟨e, hrun⟩ := exists_generateBlocking req env backend
    exact ⟨e, hrun, generateBlocking_truthful_iff req env backend hrun⟩
  · intro σ env backend
    obtain ⟨e, hrun⟩ := exists_chatStream req env backend
    exact ⟨e, hrun, chatStream_truthful_iff req env backend hrun⟩
  · intro state
    obtain ⟨e, hrun⟩ := exists_generateSpecDecode req state
    exact ⟨e, hrun, generateSpecDecode_truthful_iff req state hrun⟩
  · intro σ env next engine
    obtain ⟨e, hrun⟩ := exists_generateGpu req env next engine
    exact ⟨e, hrun, generateGpu_truthful req env next engine hrun⟩
  · intro σ env next engine
    obtain ⟨e, hrun⟩ := exists_chatStreamGpu req env next engine
    exact ⟨e, hrun, chatStreamGpu_truthful req env next engine hrun⟩

/-- One token of an endless text is asked for, and the reason is a stop. -/
theorem finish_reason_budget_stop :
    let req : Request :=
      { prompt := [3], maxTokens := 1, stops := fun _ => false
        ctrl := .new {} [] none [], decode := fun _ => [97] }
    let env : Candle Unit :=
      { prefillStart := 0, expired := fun _ => false, earlyExit := false, pldOn := fun _ => false
        draw := fun _ u => some (7, u), forwardAll := fun _ u => (none, u), keep := fun _ _ u => u
        sends := fun _ => true }
    let e : Ended := { exit := .maxTokens, reason := .stop, generated := [7] }
    generateBlocking req env () = some e ∧ e.WithoutError ∧ ¬ e.Truthful := by
  refine ⟨rfl, ⟨by decide, by decide⟩, ?_⟩
  rintro ⟨hstop, -⟩
  have hexit := hstop.mp rfl
  simp at hexit

end Zllm.FinishReason

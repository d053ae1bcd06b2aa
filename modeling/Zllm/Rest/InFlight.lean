import Zllm.Basic

/-!
# Admission control

A chat or completion call counts itself in flight, through a guard that gives the count back when it
is dropped, and hands the guard to the lane that generates for it. The handlers, the lanes' tasks
and the batch server interleave at their accesses of the counter and at the start and the end of
every generation.
-/

namespace Zllm.Rest

/-! ### Requests -/

/-- A chat request: what its handler reads of the body, with the answers of the tokenizer and of the
tool, constraint and grammar resolvers. -/
structure ChatRequest where
  tokens : Except String (List Token)
  stream : Bool
  n : Option Nat
  toolPlan : Except String Bool
  constraint : Except String Bool
  toolGrammar : Except String Unit
  grammar : Except String Unit
  detectHallucination : Bool
  logprobs : Bool
  includeUsage : Bool
  parallelToolCalls : Option Bool
  tools : Bool
  modifiesLogits : Bool
  hasStops : Bool
  minP : Option ℚ

structure CompletionRequest where
  tokens : Except String (List Token)
  n : Option Nat
  bestOf : Option Nat
  grammar : Option (Except String Unit)

structure CbRequest where
  tokens : Except String (List Token)

inductive Request
  | chat (req : ChatRequest)
  | text (req : CompletionRequest)

def Request.tokens : Request → Except String (List Token)
  | chat req => req.tokens
  | text req => req.tokens

def require (ok : Bool) (message : String) : Except String Unit :=
  if ok then .ok () else .error message

/-- The checks of `chat_completions` after admission; whether a grammar constrains the output. -/
def ChatRequest.check (req : ChatRequest) : Except String Bool := do
  require (req.n.getD 1 ≤ 1) "n > 1 is not supported"
  let plan ← req.toolPlan
  let constrained ← req.constraint
  require (!(plan && constrained))
    "cannot combine a forced tool call with `grammar`/`response_format`"
  if plan then
    req.toolGrammar
  if plan || constrained then
    req.grammar
  require (!(plan && req.stream))
    "tool calls are not supported with stream=true yet; use stream=false"
  require (!(req.detectHallucination && req.stream))
    "detect_hallucination is not supported with stream=true yet; use stream=false"
  require (!(req.logprobs && req.stream))
    "logprobs is not supported with stream=true yet; use stream=false"
  require (!req.includeUsage)
    "stream_options.include_usage is not supported yet; usage is returned on stream=false"
  require (!(req.parallelToolCalls == some true && req.tools))
    ("parallel_tool_calls is not supported — zllm emits exactly one tool call per response; " ++
      "set parallel_tool_calls: false or omit it")
  return plan || constrained

/-- The checks of `text_completions` after admission. -/
def CompletionRequest.check (req : CompletionRequest) : Except String Unit := do
  require (req.n.getD 1 ≤ 1 && req.bestOf.getD 1 ≤ 1) "n > 1 / best_of > 1 are not supported"
  req.grammar.getD (.ok ())

/-! ### Calls in flight -/

/-- Who generates for a call: `generate_blocking` in its handler, the task of `chat_stream`, or the
batch server for a handler that collects, for the task of `cb_chat_stream`, and for
`cb_completions`. -/
inductive Lane
  | blocking
  | stream
  | cbBlocking
  | cbStream
  | cbCompletions
  deriving DecidableEq

def Lane.batched : Lane → Bool
  | blocking | stream => false
  | cbBlocking | cbStream | cbCompletions => true

/-- A batched generation is queued in the server's channel, any other waits for its thread. -/
inductive Generation
  | none
  | queued
  | running
  | ended
  deriving DecidableEq

/-- Where a call stands: refused with its guard still alive, admitted and not yet handed to a lane,
with its lane, or left by its handler and its task. -/
inductive Phase
  | refused
  | handler (req : Request)
  | serving
  | finished

/-- `releases` counts how often the call has given back a count. -/
structure Call where
  admitted : Bool
  phase : Phase
  lane : Option Lane
  generation : Generation
  releases : Nat

/-- The runtime switches that the lane gates read. -/
structure Toggles where
  inspectionEnabled : Bool
  pldEnabled : Bool
  specDecodeEnabled : Bool
  earlyExitEnabled : Bool

/-- `cb` is the number of sequences that a running batch server holds in flight. -/
structure AppState where
  maxConcurrent : Nat
  modelCtx : Nat
  cb : Option Nat
  toggles : Toggles
  activeRequests : Nat
  calls : List Call

namespace AppState

def setCall (s : AppState) (i : Nat) (call : Call) : AppState :=
  { s with calls := s.calls.set i call }

/-- Drops the guard of call `i`, whose handler or task returns. -/
def drop (s : AppState) (i : Nat) (call : Call) : AppState :=
  { s.setCall i { call with phase := .finished, releases := call.releases + 1 } with
    activeRequests := s.activeRequests - 1 }

/-- Counts the call, then looks at the count. -/
def admitCall (s : AppState) (req : Request) : AppState :=
  let now := s.activeRequests + 1
  let call : Call :=
    if s.maxConcurrent < now then ⟨false, .refused, none, .none, 0⟩
    else ⟨true, .handler req, none, .none, 0⟩
  { s with activeRequests := now, calls := s.calls ++ [call] }

/-- A chat or completion handler up to its admission. -/
def request (s : AppState) (req : Request) : AppState :=
  match req.tokens with
  | .error _ => s
  | .ok tokens => if 0 < s.modelCtx ∧ s.modelCtx ≤ tokens.length then s else s.admitCall req

/-- Whether `cb_completions` gets as far as the batch server. -/
def cbSubmits (s : AppState) (req : CbRequest) (submitted : Bool) : Bool :=
  s.cb.isSome && req.tokens.isOk && submitted

def cbCompletions (s : AppState) (req : CbRequest) (submitted : Bool) : AppState :=
  if s.cbSubmits req submitted then
    { s with calls := s.calls ++ [⟨false, .serving, some .cbCompletions, .queued, 0⟩] }
  else
    s

def cbChatServer (s : AppState) (noFsm : Bool) : Bool :=
  s.cb.isSome && !(s.toggles.inspectionEnabled || !noFsm || s.toggles.pldEnabled ||
    s.toggles.specDecodeEnabled || s.toggles.earlyExitEnabled)

/-- The gate of the continuous-batching lane. -/
def cbEligible (s : AppState) (req : ChatRequest) (fsm : Bool) : Bool :=
  s.cbChatServer (!fsm && !req.detectHallucination && !req.logprobs && !req.modifiesLogits &&
    !req.hasStops && req.minP.isNone)

/-- The lane that an admitted call is handed to, if it passes its checks and the batch server, when
the call is for it, takes the submission. -/
def lane (s : AppState) (req : Request) (submitted : Bool) : Option Lane :=
  match req with
  | .text req =>
    match req.check with
    | .error _ => none
    | .ok () => some .blocking
  | .chat req =>
    match req.check with
    | .error _ => none
    | .ok fsm =>
      if s.cbEligible req fsm then
        if submitted then some (if req.stream then .cbStream else .cbBlocking) else none
      else
        some (if req.stream then .stream else .blocking)

def dispatch (s : AppState) (i : Nat) (call : Call) (req : Request) (submitted : Bool) : AppState :=
  match s.lane req submitted with
  | none => s.drop i call
  | some lane =>
    s.setCall i { call with phase := .serving, lane := some lane, generation := .queued }

/-- The sequences that the batch server holds in flight. -/
def batchRunning (s : AppState) : Nat :=
  s.calls.countP fun call => call.generation == .running && call.lane.any Lane.batched

/-- Whether the lane's thread, or a sequence of the batch server, is there for a generation. -/
def hasRoom (s : AppState) (lane : Lane) : Bool :=
  !lane.batched || s.batchRunning < s.cb.getD 0

/-- Whether the handler or the task of a lane returns when the generation stands so. The handler
that starts `cb_chat_stream` does not wait for it, and neither does a streaming `cb_completions`. -/
def Returns : Lane → Generation → Bool
  | .cbStream, _ | .cbCompletions, _ => true
  | .blocking, generation | .stream, generation | .cbBlocking, generation => generation == .ended

/-- What the handler of a lane takes with it: `cb_completions` has no guard to drop. -/
def leave (s : AppState) (i : Nat) (call : Call) (lane : Lane) : AppState :=
  if lane = .cbCompletions then s.setCall i { call with phase := .finished } else s.drop i call

end AppState

/-! ### Steps -/

/-- `submitted` is the answer of the batch server's channel. -/
inductive Step
  | request (req : Request)
  | cbCompletions (req : CbRequest) (submitted : Bool)
  | refuse (i : Nat)
  | dispatch (i : Nat) (submitted : Bool)
  | start (i : Nat)
  | finish (i : Nat)
  | return (i : Nat)
  | abandon (i : Nat)
  | toggle (toggles : Toggles)
  | selectModel (modelCtx : Nat)

namespace AppState

/-- One step of one call, `none` where the call is not at that point. `finish` ends a generation in
any of its ways: a stop, the limit, an error, a deadline, or a reader that has gone. `abandon` is
the handler of `cb_chat_blocking` that stops reading: it has read an end token of its own, or its
client has gone and the future is dropped. -/
def step (s : AppState) : Step → Option AppState
  | .request req => some (s.request req)
  | .cbCompletions req submitted => some (s.cbCompletions req submitted)
  | .refuse i => do
    let call ← s.calls[i]?
    match call.phase with
    | .refused => some (s.drop i call)
    | _ => none
  | .dispatch i submitted => do
    let call ← s.calls[i]?
    match call.phase with
    | .handler req => some (s.dispatch i call req submitted)
    | _ => none
  | .start i => do
    let call ← s.calls[i]?
    let lane ← call.lane
    if call.generation = .queued ∧ s.hasRoom lane then
      some (s.setCall i { call with generation := .running })
    else
      none
  | .finish i => do
    let call ← s.calls[i]?
    if call.generation = .queued ∨ call.generation = .running then
      some (s.setCall i { call with generation := .ended })
    else
      none
  | .return i => do
    let call ← s.calls[i]?
    match call.phase, call.lane with
    | .serving, some lane =>
      if Returns lane call.generation then some (s.leave i call lane) else none
    | _, _ => none
  | .abandon i => do
    let call ← s.calls[i]?
    match call.phase, call.lane with
    | .serving, some .cbBlocking => some (s.drop i call)
    | _, _ => none
  | .toggle toggles => some { s with toggles := toggles }
  | .selectModel modelCtx => some { s with modelCtx := modelCtx }

def run (s : AppState) (steps : List Step) : Option AppState := steps.foldlM step s

/-- A server that has just started. -/
def Fresh (s : AppState) : Prop := s.activeRequests = 0 ∧ s.calls = []

end AppState

/-! ### Exact admission -/

def Generation.finished : Generation → Bool
  | none | ended => true
  | queued | running => false

def Call.holds (call : Call) : Bool :=
  match call.phase with
  | .refused | .handler _ | .serving => true
  | .finished => false

namespace AppState

def running (s : AppState) : Nat := s.calls.countP fun call => call.generation == .running

/-- The generations stay within the limit; an admitted call gives its count back once, when its
handler and its task are through, and its generation is over by then. -/
structure AdmissionExact (s : AppState) : Prop where
  running_le : s.running ≤ s.maxConcurrent
  releases_once : ∀ call ∈ s.calls, call.admitted → call.releases = if call.holds then 0 else 1
  generation_finished : ∀ call ∈ s.calls, call.admitted → call.releases ≠ 0 → call.generation.finished

/-- A step that lets no generation run without a guard: no `cb_completions` call gets to the batch
server, no streamed chat is handed to it, and no collecting handler leaves its sequence behind. -/
def guarded (s : AppState) : Step → Bool
  | .cbCompletions req submitted => !s.cbSubmits req submitted
  | .dispatch i submitted =>
    s.calls[i]?.all fun call =>
      match call.phase with
      | .handler req => s.lane req submitted != some .cbStream
      | _ => true
  | .abandon i => s.calls[i]?.all fun call => call.generation == .ended
  | _ => true

/-- Every step of a run is guarded. -/
def guardedRun (s : AppState) : List Step → Bool
  | [] => true
  | step :: steps => s.guarded step && (s.step step).all fun s' => s'.guardedRun steps

end AppState

/-! ### The invariant -/

/-- A call that holds a guard has released nothing, and generates only while it has its lane. -/
def Call.Sound (call : Call) : Prop :=
  match call.phase with
  | .refused => call.admitted = false ∧ call.releases = 0 ∧ call.generation = .none
  | .handler _ => call.admitted = true ∧ call.releases = 0 ∧ call.generation = .none
  | .serving => call.admitted = true ∧ call.releases = 0 ∧
      call.lane ≠ some .cbStream ∧ call.lane ≠ some .cbCompletions
  | .finished => call.releases = 1 ∧ call.generation.finished

namespace AppState

/-- The counter is the number of the guards alive, and those of admitted calls fit. -/
structure Counted (s : AppState) : Prop where
  counter : s.activeRequests = s.calls.countP Call.holds
  within : (s.calls.countP fun call => call.holds && call.admitted) ≤ s.maxConcurrent
  sound : ∀ call ∈ s.calls, call.Sound

variable {s : AppState} {i : Nat} {call call' : Call}

theorem countP_set_add (p : Call → Bool) (hcall : s.calls[i]? = some call) (call' : Call) :
    (s.calls.set i call').countP p + (p call).toNat = s.calls.countP p + (p call').toNat := by
  obtain ⟨hi, hget⟩ := List.getElem?_eq_some_iff.mp hcall
  rw [List.countP_set hi, hget]
  have hpos : p call = true → 0 < s.calls.countP p := by
    intro hp
    exact List.countP_pos_iff.mpr ⟨call, List.mem_of_getElem? hcall, hp⟩
  cases hold : p call with
  | false => cases p call' <;> simp
  | true =>
    have hcount := hpos hold
    cases p call' <;> simp <;> omega

theorem sound_set (hsound : ∀ c ∈ s.calls, c.Sound) (hcall' : call'.Sound) :
    ∀ c ∈ s.calls.set i call', c.Sound := by
  intro c hc
  rcases List.mem_or_eq_of_mem_set hc with hc | rfl
  · exact hsound c hc
  · exact hcall'

/-- Moving a call on while its guard stays alive, or stays dropped. -/
theorem Counted.setCall (hs : s.Counted) (hcall : s.calls[i]? = some call)
    (hholds : call'.holds = call.holds) (hadmitted : call'.admitted = call.admitted)
    (hsound : call'.Sound) : (s.setCall i call').Counted where
  counter := by
    have hcount := countP_set_add Call.holds hcall call'
    rw [hholds] at hcount
    have hcounter := hs.counter
    simp only [AppState.setCall]
    omega
  within := by
    have hcount := countP_set_add (fun c => c.holds && c.admitted) hcall call'
    simp only [hholds, hadmitted] at hcount
    have hwithin := hs.within
    simp only [AppState.setCall]
    omega
  sound := sound_set hs.sound hsound

theorem dropped_holds (call : Call) :
    ({ call with phase := .finished, releases := call.releases + 1 } : Call).holds = false := rfl

/-- Dropping the guard of a call that is through. -/
theorem Counted.drop (hs : s.Counted) (hcall : s.calls[i]? = some call) (hholds : call.holds)
    (hreleases : call.releases = 0) (hover : call.generation.finished) : (s.drop i call).Counted where
  counter := by
    have hcount := countP_set_add Call.holds hcall
      { call with phase := .finished, releases := call.releases + 1 }
    have hcounter := hs.counter
    rw [hholds, dropped_holds, Bool.toNat_true, Bool.toNat_false] at hcount
    simp only [AppState.drop, AppState.setCall]
    omega
  within := by
    have hcount := countP_set_add (fun c => c.holds && c.admitted) hcall
      { call with phase := .finished, releases := call.releases + 1 }
    have hwithin := hs.within
    simp only [dropped_holds, Bool.false_and, Bool.toNat_false] at hcount
    simp only [AppState.drop, AppState.setCall]
    omega
  sound := by
    apply sound_set hs.sound
    exact ⟨by rw [hreleases], hover⟩

theorem Counted.append (hs : s.Counted) (hholds : call.holds)
    (hwithin : call.admitted → s.activeRequests < s.maxConcurrent) (hsound : call.Sound) :
    { s with activeRequests := s.activeRequests + 1, calls := s.calls ++ [call] }.Counted where
  counter := by
    simp only [List.countP_append, List.countP_singleton, hholds, if_true, hs.counter]
  within := by
    have hle : (s.calls.countP fun c => c.holds && c.admitted) ≤ s.calls.countP Call.holds := by
      apply List.countP_mono_left
      intro c _ hc
      exact (Bool.and_eq_true_iff.mp hc).1
    have hcounter := hs.counter
    have hold := hs.within
    cases hadmitted : call.admitted with
    | false => simpa [hadmitted] using hold
    | true =>
      have hroom := hwithin hadmitted
      simp only [List.countP_append, List.countP_singleton, hholds, hadmitted]
      simp only [Bool.and_self, if_true]
      omega
  sound := by
    intro c hc
    rcases List.mem_append.mp hc with hc | hc
    · exact hs.sound c hc
    · rw [List.mem_singleton.mp hc]
      exact hsound

/-! ### Every guarded step keeps the invariant -/

theorem Counted.admitCall (hs : s.Counted) (req : Request) : (s.admitCall req).Counted := by
  unfold AppState.admitCall
  dsimp only
  split
  · exact hs.append rfl (by simp) ⟨rfl, rfl, rfl⟩
  · rename_i hroom
    exact hs.append rfl (fun _ => by omega) ⟨rfl, rfl, rfl⟩

theorem Counted.request (hs : s.Counted) (req : Request) : (s.request req).Counted := by
  unfold AppState.request
  split
  · exact hs
  · split
    · exact hs
    · exact hs.admitCall req

theorem lane_ne_cbCompletions (req : Request) (submitted : Bool) :
    s.lane req submitted ≠ some .cbCompletions := by
  unfold AppState.lane
  repeat' split
  all_goals simp

/-- A handler that hands its call to a lane keeps the guard or drops it. -/
theorem Counted.dispatch (hs : s.Counted) (hcall : s.calls[i]? = some call) {req : Request}
    (hphase : call.phase = .handler req) {submitted : Bool}
    (hlane : s.lane req submitted ≠ some .cbStream) :
    (s.dispatch i call req submitted).Counted := by
  have hsound := hs.sound call (List.mem_of_getElem? hcall)
  rw [Call.Sound, hphase] at hsound
  have hholds : call.holds := by rw [Call.holds, hphase]
  unfold AppState.dispatch
  split
  · exact hs.drop hcall hholds hsound.2.1 (by rw [hsound.2.2]; rfl)
  · rename_i lane hsome
    have hcb := lane_ne_cbCompletions (s := s) req submitted
    rw [hsome] at hlane hcb
    exact hs.setCall hcall hholds.symm rfl ⟨hsound.1, hsound.2.1, hlane, hcb⟩

/-- A generation that is not over has its lane. -/
theorem Counted.serving (hs : s.Counted) (hcall : s.calls[i]? = some call)
    (hgeneration : call.generation.finished = false) : call.phase = .serving := by
  have hsound := hs.sound call (List.mem_of_getElem? hcall)
  unfold Call.Sound at hsound
  split at hsound
  · simp [hsound.2.2, Generation.finished] at hgeneration
  · simp [hsound.2.2, Generation.finished] at hgeneration
  · assumption
  · rw [hsound.2] at hgeneration
    cases hgeneration

theorem Counted.generate (hs : s.Counted) (hcall : s.calls[i]? = some call)
    (hgeneration : call.generation.finished = false) (generation : Generation) :
    (s.setCall i { call with generation := generation }).Counted := by
  have hphase := hs.serving hcall hgeneration
  have hsound := hs.sound call (List.mem_of_getElem? hcall)
  have hsound' : ({ call with generation := generation } : Call).Sound := by
    rw [Call.Sound, hphase] at hsound
    simpa only [Call.Sound, hphase] using hsound
  exact hs.setCall hcall rfl rfl hsound'

/-- A lane whose generation has ended drops its guard. -/
theorem Counted.leave (hs : s.Counted) (hcall : s.calls[i]? = some call)
    (hphase : call.phase = .serving) (hended : call.generation = .ended) :
    (s.drop i call).Counted := by
  have hsound := hs.sound call (List.mem_of_getElem? hcall)
  rw [Call.Sound, hphase] at hsound
  exact hs.drop hcall (by rw [Call.holds, hphase]) hsound.2.1 (by rw [hended]; rfl)

theorem Counted.step (hs : s.Counted) {step : Step} (hguarded : s.guarded step) {s' : AppState}
    (hstep : s.step step = some s') : s'.Counted := by
  cases step with
  | request req =>
    cases hstep
    exact hs.request req
  | cbCompletions req submitted =>
    cases hstep
    have hnot : s.cbSubmits req submitted = false := by simpa [guarded] using hguarded
    simpa [AppState.cbCompletions, hnot] using hs
  | refuse i =>
    obtain ⟨call, hcall, hstep⟩ := Option.bind_eq_some_iff.mp hstep
    split at hstep
    · rename_i hphase
      have hsound := hs.sound call (List.mem_of_getElem? hcall)
      rw [Call.Sound, hphase] at hsound
      cases hstep
      exact hs.drop hcall (by rw [Call.holds, hphase]) hsound.2.1 (by rw [hsound.2.2]; rfl)
    · cases hstep
  | dispatch i submitted =>
    obtain ⟨call, hcall, hstep⟩ := Option.bind_eq_some_iff.mp hstep
    split at hstep
    · rename_i req hphase
      cases hstep
      apply hs.dispatch hcall hphase
      simpa [guarded, hcall, hphase] using hguarded
    · cases hstep
  | start i =>
    obtain ⟨call, hcall, hstep⟩ := Option.bind_eq_some_iff.mp hstep
    obtain ⟨lane, -, hstep⟩ := Option.bind_eq_some_iff.mp hstep
    split at hstep
    · rename_i hqueued
      cases hstep
      exact hs.generate hcall (by rw [hqueued.1]; rfl) .running
    · cases hstep
  | finish i =>
    obtain ⟨call, hcall, hstep⟩ := Option.bind_eq_some_iff.mp hstep
    split at hstep
    · rename_i hlive
      cases hstep
      exact hs.generate hcall (by rcases hlive with hlive | hlive <;> rw [hlive] <;> rfl) .ended
    · cases hstep
  | «return» i =>
    obtain ⟨call, hcall, hstep⟩ := Option.bind_eq_some_iff.mp hstep
    split at hstep
    · rename_i lane hphase hlane
      have hsound := hs.sound call (List.mem_of_getElem? hcall)
      rw [Call.Sound, hphase, hlane] at hsound
      obtain ⟨-, -, hstream, hcompletions⟩ := hsound
      split at hstep
      · rename_i hreturns
        have hended : call.generation = .ended := by
          cases lane <;> simp [Returns] at hreturns hstream hcompletions <;> assumption
        have hne : lane ≠ .cbCompletions := fun heq => hcompletions (congrArg some heq)
        cases hstep
        rw [AppState.leave, if_neg hne]
        exact hs.leave hcall hphase hended
      · cases hstep
    · cases hstep
  | abandon i =>
    obtain ⟨call, hcall, hstep⟩ := Option.bind_eq_some_iff.mp hstep
    split at hstep
    · rename_i hphase _
      cases hstep
      apply hs.leave hcall hphase
      simpa [guarded, hcall] using hguarded
    · cases hstep
  | toggle toggles =>
    cases hstep
    exact ⟨hs.counter, hs.within, hs.sound⟩
  | selectModel modelCtx =>
    cases hstep
    exact ⟨hs.counter, hs.within, hs.sound⟩

theorem Counted.run (hs : s.Counted) {steps : List Step} (hguarded : s.guardedRun steps)
    {s' : AppState} (hrun : s.run steps = some s') : s'.Counted := by
  induction steps generalizing s with
  | nil =>
    cases hrun
    exact hs
  | cons step steps ih =>
    rw [AppState.run, List.foldlM_cons] at hrun
    obtain ⟨next, hstep, hrest⟩ := Option.bind_eq_some_iff.mp hrun
    rw [guardedRun, Bool.and_eq_true, hstep, Option.all_some] at hguarded
    exact ih (hs.step hguarded.1 hstep) hguarded.2 hrest

theorem Fresh.counted (hs : s.Fresh) : s.Counted where
  counter := by simp [hs.1, hs.2]
  within := by simp [hs.2]
  sound := by simp [hs.2]

theorem Counted.exact (hs : s.Counted) : s.AdmissionExact where
  running_le := by
    refine le_trans ?_ hs.within
    apply List.countP_mono_left
    intro call hcall hrunning
    have hsound := hs.sound call hcall
    have hgeneration := eq_of_beq hrunning
    unfold Call.Sound at hsound
    split at hsound
    · simp [hsound.2.2] at hgeneration
    · simp [hsound.2.2] at hgeneration
    · rename_i hphase
      simp [Call.holds, hphase, hsound.1]
    · simp [hgeneration, Generation.finished] at hsound
  releases_once := by
    intro call hcall _
    have hsound := hs.sound call hcall
    unfold Call.Sound at hsound
    split at hsound
    all_goals simp_all [Call.holds]
  generation_finished := by
    intro call hcall _ hreleases
    have hsound := hs.sound call hcall
    unfold Call.Sound at hsound
    split at hsound
    · exact absurd hsound.2.1 hreleases
    · exact absurd hsound.2.1 hreleases
    · exact absurd hsound.2.1 hreleases
    · exact hsound.2

/-- In a guarded run of a fresh server admission is exact in every state that is reached. -/
theorem admission_exact {steps : List Step} {s' : AppState} (hfresh : s.Fresh)
    (hguarded : s.guardedRun steps) (hrun : s.run steps = some s') : s'.AdmissionExact :=
  (hfresh.counted.run hguarded hrun).exact

end AppState

/-! ### Streams of the batch server -/

def streamedChat : ChatRequest where
  tokens := .ok [1]
  stream := true
  n := none
  toolPlan := .ok false
  constraint := .ok false
  toolGrammar := .ok ()
  grammar := .ok ()
  detectHallucination := false
  logprobs := false
  includeUsage := false
  parallelToolCalls := none
  tools := false
  modifiesLogits := false
  hasStops := false
  minP := none

/-- One generation at a time, with a batch server of sixteen sequences. -/
def batching : AppState where
  maxConcurrent := 1
  modelCtx := 2048
  cb := some 16
  toggles := ⟨false, false, false, false⟩
  activeRequests := 0
  calls := []

def collectedRun : List Step :=
  [.request (.chat { streamedChat with stream := false }), .dispatch 0 true, .start 0, .finish 0,
    .return 0]

theorem admission_exact_collected :
    ∃ s', batching.run collectedRun = some s' ∧ s'.AdmissionExact := by
  have hfresh : batching.Fresh := ⟨rfl, rfl⟩
  have hguarded : batching.guardedRun collectedRun := by decide
  exact ⟨_, rfl, AppState.admission_exact hfresh hguarded rfl⟩

/-- Each handler has returned and dropped its guard before its generation starts. -/
def streamedRun : List Step :=
  [.request (.chat streamedChat), .dispatch 0 true, .return 0, .start 0,
    .request (.chat streamedChat), .dispatch 1 true, .return 1, .start 1]

/-- Two streams run at once under a limit of one. -/
theorem streamed_chats_exceed :
    ¬ ∀ (s : AppState) (steps : List Step) (s' : AppState), s.Fresh → s.run steps = some s' →
      s'.AdmissionExact := by
  intro hclaim
  have hexact := hclaim batching streamedRun _ ⟨rfl, rfl⟩ rfl
  have hle := hexact.running_le
  revert hle
  decide

end Zllm.Rest

import Zllm.Gpu.OwnPrefix

/-!
# Reproducibility of sampled requests

A sampled request has a kernel of its own for each of its tokens. A run that always draws the
request's tokens from that kernel gives it the stream its prompt, parameters and seed determine; a
run in which another request's filters, or a second prefill, decide on the kernel may not.
-/

namespace Zllm.Gpu

open ContinuousBatcher
open TokenService (Completed decodeAlone sessionOf tokensOf)

variable {L : Type} {model : Model L} {cfg : PoolConfig} {firstFit swapMode : Bool}
  {memory : History} {run : BatcherRun History (List Token)} {req : Request}

/-- The kernel of a request's next token, batching aside. -/
def streamKernel (job : RequestJob) : Kernel :=
  if job.produced = [] then firstKernel job.req.params else ownKernel job.req.params

/-- The stream that a request's prompt, parameters and seed determine. -/
def Model.decodeSampled (model : Model L) (req : Request) : List Token :=
  decodeAlone (fun produced => (streamKernel ⟨req, produced⟩).select model.device ⟨req, produced⟩
    (model.logitsOf (req.prompt ++ produced))) (· == req.eos) (max 1 req.maxTokens) []

/-- A `step` that leaves `req` its kernel: unless `req` filters, it is decoded with no request that
does; and if it filters, it is not prefilled again once it has produced a token. -/
def KeepsKernel (model : Model L) (req : Request)
    (cb : ContinuousBatcher History (List Token)) : Call → Prop
  | .step =>
      ((∃ s ∈ cb.batch model.device, s.job.req = req) → req.params.needsTopk = false →
        ∀ s ∈ cb.batch model.device, s.params.needsTopk = false) ∧
      ∀ p ∈ resumed model.device (cb.decodeActive model.device), p.job.req = req →
        req.params.needsTopk = true → p.kv = none → p.job.produced = []
  | .stepPld _ _ => False
  | _ => True

instance (cb : ContinuousBatcher History (List Token)) :
    (call : Call) → Decidable (KeepsKernel model req cb call)
  | .step => inferInstanceAs (Decidable (_ ∧ _))
  | .stepPld _ _ => inferInstanceAs (Decidable False)
  | .enqueue _ => inferInstanceAs (Decidable True)
  | .admitParams _ => inferInstanceAs (Decidable True)
  | .cancel _ => inferInstanceAs (Decidable True)

/-- `req` keeps its kernel. -/
def OnStream (req : Request) (job : RequestJob) (kernel : Kernel) : Prop :=
  job.req = req → kernel = streamKernel job

theorem ownKernel_of_temp {params : SamplingParams} (htemp : 0 < params.temp) :
    ownKernel params = if params.needsTopk then .topk else .gumbel := by
  simp [ownKernel, htemp]

theorem onStream_batchKernel {active : List CbSeq} {s : CbSeq} (hs : s ∈ active)
    (hlen : s.promptLen < s.tokens.length) (htemp : 0 < req.params.temp)
    (hfilters : s.job.req = req → req.params.needsTopk = false →
      ∀ s ∈ active, s.params.needsTopk = false) : OnStream req s.job (batchKernel active) := by
  rintro rfl
  have hproduced : s.job.produced ≠ [] := by
    simpa [CbSeq.job] using hlen
  rw [streamKernel, if_neg hproduced, ownKernel_of_temp htemp]
  cases hneeds : s.job.req.params.needsTopk with
  | true =>
      have hany : active.any (·.params.needsTopk) = true := List.any_eq_true.mpr ⟨s, hs, hneeds⟩
      simp [batchKernel, hany]
  | false =>
      have hnone : active.any (·.params.needsTopk) = false :=
        List.any_eq_false.mpr fun t ht => by simp [hfilters rfl hneeds t ht]
      have hany : active.any (fun s => decide (0 < s.params.temp)) = true :=
        List.any_eq_true.mpr ⟨s, hs, decide_eq_true htemp⟩
      simp [batchKernel, hnone, hany]

theorem onStream_resumeKernel {p : PreemptedSeq (List Token)} (htemp : 0 < req.params.temp)
    (hlen : p.kv ≠ none → p.promptLen < p.tokens.length)
    (hrecompute : p.job.req = req → req.params.needsTopk = true → p.kv = none →
      p.job.produced = []) : OnStream req p.job (resumeKernel p) := by
  rintro rfl
  cases hkv : p.kv with
  | some host =>
      have hproduced : p.job.produced ≠ [] := by
        simpa [PreemptedSeq.job] using hlen (by simp [hkv])
      rw [streamKernel, if_neg hproduced, resumeKernel, hkv]
      rfl
  | none =>
      have hfirst : resumeKernel p = .gumbel := by
        rw [resumeKernel, hkv]
        exact if_pos htemp
      by_cases hproduced : p.job.produced = []
      · rw [streamKernel, if_pos hproduced, hfirst]
        exact (if_pos htemp).symm
      · rw [streamKernel, if_neg hproduced, ownKernel_of_temp htemp, hfirst]
        cases hneeds : p.job.req.params.needsTopk with
        | false => rfl
        | true => exact absurd (hrecompute rfl hneeds hkv) hproduced

theorem permits_of_keepsKernel (htemp : 0 < req.params.temp)
    {cb : ContinuousBatcher History (List Token)} {call : Call}
    (hkeeps : KeepsKernel model req cb call) : call.Permits model.device (OnStream req) cb := by
  cases call with
  | step =>
      refine ⟨fun s hs hlen => ?_, fun p hp hlen => ?_⟩
      · exact onStream_batchKernel hs hlen htemp fun hreq => hkeeps.1 ⟨s, hs, hreq⟩
      · exact onStream_resumeKernel htemp hlen (hkeeps.2 p hp)
  | stepPld => exact hkeeps.elim
  | enqueue => trivial
  | admitParams => trivial
  | cancel => trivial

/-- In a run that leaves `req` its kernel, its tokens are those of its own stream. -/
theorem sampled_stream (htemp : 0 < req.params.temp)
    (hreach : BatcherReaches model.device (KeepsKernel model req)
      (.new cfg firstFit swapMode memory) run)
    {before after : List LogEntry} (hlog : run.log = before ++ .accepted req :: after) :
    tokensOf (sessionOf requestProtocol req.id after) <+: model.decodeSampled req ∧
      (Completed (sessionOf requestProtocol req.id after) →
        tokensOf (sessionOf requestProtocol req.id after) = model.decodeSampled req) := by
  have hran : Ran model.memory (OnStream req) cfg run :=
    ran_of_reaches model.memory (OnStream req) (fun _ _ => by simp [streamKernel])
      (fun _ _ => permits_of_keepsKernel htemp) (fun slot => by simp [SlotKv.empty]) hreach
  obtain ⟨last, hsession, -⟩ := (hlog ▸ hran.log).session_of_accepted
  refine hsession.prefix_tokensOf ?_ rfl
  rintro produced tok ⟨kernel, logits, hstream, rfl, rfl⟩
  rw [hstream rfl]
  rfl

/-- The same sampled request, under whatever ids, has one token stream in any two runs that make
the calls `Admits` lets them make: one run's tokens continue the other's, and once both have
completed it they are equal. -/
def Reproducible (model : Model L)
    (Admits : Request → ContinuousBatcher History (List Token) → Call → Prop) : Prop :=
  ∀ (cfg cfg' : PoolConfig) (firstFit firstFit' swapMode swapMode' : Bool)
    (memory memory' : History) (run run' : BatcherRun History (List Token)) (req req' : Request)
    (before after before' after' : List LogEntry), 0 < req.params.temp →
    req' = { req with id := req'.id } →
    BatcherReaches model.device (Admits req) (.new cfg firstFit swapMode memory) run →
    BatcherReaches model.device (Admits req') (.new cfg' firstFit' swapMode' memory') run' →
    run.log = before ++ .accepted req :: after → run'.log = before' ++ .accepted req' :: after' →
    let entries := sessionOf requestProtocol req.id after
    let entries' := sessionOf requestProtocol req'.id after'
    (tokensOf entries <+: tokensOf entries' ∨ tokensOf entries' <+: tokensOf entries) ∧
      (Completed entries → Completed entries' → tokensOf entries = tokensOf entries')

/-- **Reproducibility.** A sampled request has one token stream in all runs that leave it its
kernel. -/
theorem reproducible_of_keepsKernel (model : Model L) : Reproducible model (KeepsKernel model) := by
  intro cfg cfg' firstFit firstFit' swapMode swapMode' memory memory' run run' req req' before
    after before' after' htemp hsame hreach hreach' hlog hlog'
  have htemp' : 0 < req'.params.temp := by
    rw [hsame]
    exact htemp
  have hstream : model.decodeSampled req' = model.decodeSampled req := by
    rw [hsame]
    rfl
  obtain ⟨hinitial, hdone⟩ := sampled_stream htemp hreach hlog
  obtain ⟨hinitial', hdone'⟩ := sampled_stream htemp' hreach' hlog'
  rw [hstream] at hinitial' hdone'
  exact ⟨List.prefix_or_prefix_of_prefix hinitial hinitial', fun h h' =>
    (hdone h).trans (hdone' h').symm⟩

/-! ### What takes the kernel away -/

def StepOnly (_ : Request) (_ : ContinuousBatcher History (List Token)) : Call → Prop
  | .stepPld _ _ => False
  | _ => True

instance (cb : ContinuousBatcher History (List Token)) :
    (call : Call) → Decidable (StepOnly req cb call)
  | .step => inferInstanceAs (Decidable True)
  | .stepPld _ _ => inferInstanceAs (Decidable False)
  | .enqueue _ => inferInstanceAs (Decidable True)
  | .admitParams _ => inferInstanceAs (Decidable True)
  | .cancel _ => inferInstanceAs (Decidable True)

def sampledRequest (id : Nat) (prompt : List Token) (topK : Nat) : Request where
  id := id
  prompt := prompt
  maxTokens := 3
  eos := 100
  params := { temp := 1, topK, topP := 1 }
  seed := 0

/-- The log of an unfiltered request that runs alone, after its acceptance. -/
def aloneAfter : List LogEntry :=
  [.emitted 2 2 false, .emitted 2 2654435764 false, .emitted 2 1013904230 true]

/-- Its log beside another request that does not filter. -/
def besideAfter : List LogEntry :=
  [.emitted 1 2 false, .emitted 1 2654435764 false, .emitted 2 2 false,
    .emitted 1 1013904230 true, .emitted 2 2654435764 false, .emitted 2 1013904230 true]

/-- Its log beside a request that filters. -/
def filteredAfter : List LogEntry :=
  [.emitted 1 2 false, .emitted 1 8 false, .emitted 2 2 false, .emitted 1 9 true,
    .emitted 2 3 false, .emitted 2 1013904230 true]

theorem reproducible_of_keepsKernel_beside :
    ∃ run run' : BatcherRun History (List Token),
      run.log = [] ++ .accepted (sampledRequest 2 [8, 8] 0) :: aloneAfter ∧
      run'.log = [.accepted (sampledRequest 1 [7, 7] 0)] ++
        .accepted (sampledRequest 2 [8, 8] 0) :: besideAfter ∧
      tokensOf (sessionOf requestProtocol 2 aloneAfter) =
        tokensOf (sessionOf requestProtocol 2 besideAfter) := by
  obtain ⟨run, hreach, hlog⟩ : ∃ run,
      BatcherReaches lengthModel.device (KeepsKernel lengthModel (sampledRequest 2 [8, 8] 0))
        tightBatcher run ∧ run.log = [] ++ .accepted (sampledRequest 2 [8, 8] 0) :: aloneAfter :=
    exists_reaches_of_execAll BatcherRun.log [.enqueue (sampledRequest 2 [8, 8] 0), .step, .step, .step] rfl
  obtain ⟨run', hreach', hlog'⟩ : ∃ run,
      BatcherReaches lengthModel.device (KeepsKernel lengthModel (sampledRequest 2 [8, 8] 0))
        tightBatcher run ∧ run.log = [.accepted (sampledRequest 1 [7, 7] 0)] ++
          .accepted (sampledRequest 2 [8, 8] 0) :: besideAfter :=
    exists_reaches_of_execAll BatcherRun.log [.enqueue (sampledRequest 1 [7, 7] 0),
      .enqueue (sampledRequest 2 [8, 8] 0), .step, .step, .step, .step] rfl
  have htemp : 0 < (sampledRequest 2 [8, 8] 0).params.temp := one_pos
  have hsame := (reproducible_of_keepsKernel lengthModel tightPool tightPool false false false false
    _ _ run run' _ _ _ _ _ _ htemp rfl hreach hreach' hlog hlog').2
      ⟨2, 1013904230, by decide⟩ ⟨2, 1013904230, by decide⟩
  exact ⟨run, run', hlog, hlog', hsame⟩

theorem not_reproducible : ¬Reproducible lengthModel StepOnly := by
  intro hreproducible
  obtain ⟨run, hreach, hlog⟩ : ∃ run,
      BatcherReaches lengthModel.device (StepOnly (sampledRequest 2 [8, 8] 0))
        tightBatcher run ∧ run.log = [] ++ .accepted (sampledRequest 2 [8, 8] 0) :: aloneAfter :=
    exists_reaches_of_execAll BatcherRun.log [.enqueue (sampledRequest 2 [8, 8] 0), .step, .step, .step] rfl
  obtain ⟨run', hreach', hlog'⟩ : ∃ run,
      BatcherReaches lengthModel.device (StepOnly (sampledRequest 2 [8, 8] 0))
        tightBatcher run ∧ run.log = [.accepted (sampledRequest 1 [7, 7] 5)] ++
          .accepted (sampledRequest 2 [8, 8] 0) :: filteredAfter :=
    exists_reaches_of_execAll BatcherRun.log [.enqueue (sampledRequest 1 [7, 7] 5),
      .enqueue (sampledRequest 2 [8, 8] 0), .step, .step, .step, .step] rfl
  have htemp : 0 < (sampledRequest 2 [8, 8] 0).params.temp := one_pos
  have hsame := (hreproducible tightPool tightPool false false false false _ _ run run' _ _ _ _ _ _
    htemp rfl hreach hreach' hlog hlog').2 ⟨2, 1013904230, by decide⟩ ⟨2, 1013904230, by decide⟩
  exact absurd hsame (by decide)

end Zllm.Gpu

import Zllm.Gpu.OwnPrefix

/-!
# Batching is transparent for greedy decoding

A greedy request's tokens do not depend on what it is batched with, nor on how often it is drafted
for, evicted or prefilled again: they are those of its prompt decoded alone.
-/

namespace Zllm.Gpu

open TokenService (Completed decodeAlone sessionOf tokensOf)

variable {L : Type} {model : Model L} {cfg : PoolConfig} {firstFit swapMode : Bool}
  {memory : History} {run : BatcherRun History (List Token)}

/-- At temperature zero and below every kernel selects the argmax. -/
def Model.GreedyAtZero (model : Model L) : Prop :=
  ∀ logits temp params seed, (temp ≤ 0 → model.gumbel logits temp seed = model.argmax logits) ∧
    (params.temp ≤ 0 → model.sampleTopk logits params seed = model.argmax logits)

/-- The prompt decoded alone, one argmax at a time. -/
def Model.decodeGreedy (model : Model L) (req : Request) : List Token :=
  decodeAlone (fun produced => model.argmax (model.logitsOf (req.prompt ++ produced)))
    (· == req.eos) (max 1 req.maxTokens) []

theorem Model.select_greedy (hgreedy : model.GreedyAtZero) {job : RequestJob}
    (htemp : job.req.params.temp ≤ 0) (logits : L) (kernel : Kernel) :
    kernel.select model.device job logits = model.argmax logits := by
  cases kernel with
  | argmax => rfl
  | gumbel => exact (hgreedy logits _ job.req.params _).1 htemp
  | topk => exact (hgreedy logits job.req.params.temp _ _).2 htemp

/-- **Greedy requests decode as if alone.** In every run, the tokens emitted for an accepted greedy
request are a prefix of its prompt's own greedy stream, and all of it once the request is done. -/
theorem greedy_transparent (hgreedy : model.GreedyAtZero)
    (hreach : BatcherReaches model.device (fun _ _ => True) (.new cfg firstFit swapMode memory) run)
    {before after : List LogEntry} {req : Request} (htemp : req.params.temp ≤ 0)
    (hlog : run.log = before ++ .accepted req :: after) :
    tokensOf (sessionOf requestProtocol req.id after) <+: model.decodeGreedy req ∧
      (Completed (sessionOf requestProtocol req.id after) →
        tokensOf (sessionOf requestProtocol req.id after) = model.decodeGreedy req) := by
  have hran : Ran model.memory (fun _ _ => True) cfg run :=
    ran_of_reaches model.memory (fun _ _ => True) (fun _ => trivial)
      (fun _ call _ => by cases call <;> simp [Call.Permits, ResumesAllowed])
      (fun slot => by simp [SlotKv.empty]) hreach
  obtain ⟨last, hsession, -⟩ := (hlog ▸ hran.log).session_of_accepted
  refine hsession.prefix_tokensOf ?_ rfl
  rintro produced tok ⟨kernel, logits, -, rfl, rfl⟩
  exact Model.select_greedy hgreedy htemp _ kernel

/-- The evicted request of `crowdedLog` still decodes as if alone. -/
theorem greedy_transparent_crowded :
    ∃ run : BatcherRun History (List Token), run.log = crowdedLog ∧
      tokensOf (sessionOf requestProtocol 2 (crowdedLog.drop 2)) =
        lengthModel.decodeGreedy (greedyRequest 2 [8, 8, 8]) := by
  obtain ⟨run, hreach, hlog⟩ := reaches_crowdedLog
  have hgreedy : lengthModel.GreedyAtZero := fun logits temp params seed =>
    ⟨fun h => if_pos h, fun h => if_pos h⟩
  have htemp : (greedyRequest 2 [8, 8, 8]).params.temp ≤ 0 := le_refl 0
  have hsplit : run.log = [.accepted (greedyRequest 1 [7, 7, 7])] ++
      .accepted (greedyRequest 2 [8, 8, 8]) :: crowdedLog.drop 2 := hlog
  have hdone : Completed (sessionOf requestProtocol 2 (crowdedLog.drop 2)) := ⟨2, 5, by decide⟩
  exact ⟨run, hlog, (greedy_transparent hgreedy hreach htemp hsplit).2 hdone⟩

end Zllm.Gpu

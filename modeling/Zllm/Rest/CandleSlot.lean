import Zllm.Candle.Refusals
import Zllm.Engine.GreedyChoice
import Zllm.Rest.FinishReason

/-!
# A backend slot

The candle lanes of `rest.rs` over the candle model: a request is prepared against the tokens that
the slot thinks are in its caches, decoded, and the slot is told what is in them now. Sampling with
all that it carries (grammar, penalties, generator) is a parameter of a request. Inspection and early
exit are left out.
-/

namespace Zllm.CandleSlot

open Zllm.Dense FinishReason Loop

/-- `BackendSlot` without its draft model. -/
structure BackendSlot where
  backend : Backend
  promptCache : List Token

def lcpLen (a b : List Token) : ℕ := ((a.zip b).takeWhile fun p => p.1 = p.2).length

/-- Where the prefill starts, and the slot behind the preparation. -/
def preparePromptCache (slot : BackendSlot) (prompt : List Token) : ℕ × BackendSlot :=
  let reuse := min (lcpLen prompt slot.promptCache) (prompt.length - 1)
  if reuse = 0 then (0, { backend := slot.backend.resetPosition, promptCache := [] })
  else
    (reuse, { backend := slot.backend.truncateTo reuse
              promptCache := slot.promptCache.take reuse })

/-- A request that a candle lane serves, with what its loop reads as it goes. -/
structure ChatRequest (S : Type) where
  request : Request
  streaming : Bool
  /-- A blocking request that looks for hallucinations starts from empty caches. -/
  detect : Bool
  expired : ℕ → Bool
  sends : List Token → Bool
  pldOn : ℕ → Bool
  sampler : S
  sample : Row → S → Token × S
  vocabSize : ℕ

namespace ChatRequest

variable {S : Type} (r : ChatRequest S)

/-- `spec_decode::argmax` of a row. -/
noncomputable def choice (row : Row) : Token :=
  GreedyChoice.argmax ((List.range r.vocabSize).map fun k => Extended.fin (row k))

/-- The backend with the sampler behind it. -/
noncomputable def env (prefillStart : ℕ) : Candle (Backend × S) where
  prefillStart := prefillStart
  expired := r.expired
  earlyExit := false
  pldOn := r.pldOn
  draw input s :=
    match s.1.forwardLogits input with
    | (.error _, _) => none
    | (.ok logits, backend) =>
        let (next, sampler) := r.sample logits s.2
        some (next, (backend, sampler))
  forwardAll input s :=
    match s.1.forwardAllLogits input with
    | (.error _, backend) => (none, (backend, s.2))
    | (.ok rows, backend) => (some (rows.map r.choice), (backend, s.2))
  keep before accepted s := (s.1.truncateTo (before.1.indexPos + 1 + accepted), s.2)
  sends := r.sends

variable {r}

theorem draw_ok {prefillStart : ℕ} {input : List Token} {s : Backend × S} {logits : Row}
    (hlogits : (s.1.forwardLogits input).1 = .ok logits) :
    (r.env prefillStart).draw input s =
      some ((r.sample logits s.2).1, (s.1.forwardLogits input).2, (r.sample logits s.2).2) := by
  simp only [env]
  split
  · next hforward => simp [hforward] at hlogits
  · next hforward =>
    rw [hforward] at hlogits ⊢
    cases hlogits
    rfl

theorem draw_error {prefillStart : ℕ} {input : List Token} {s : Backend × S} {e : CandleError}
    (herror : (s.1.forwardLogits input).1 = .error e) : (r.env prefillStart).draw input s = none := by
  simp only [env]
  split
  · rfl
  · next hforward => simp [hforward] at herror

theorem forwardAll_ok {prefillStart : ℕ} {input : List Token} {s : Backend × S} {rows : List Row}
    (hrows : (s.1.forwardAllLogits input).1 = .ok rows) :
    (r.env prefillStart).forwardAll input s =
      (some (rows.map r.choice), (s.1.forwardAllLogits input).2, s.2) := by
  simp only [env]
  split
  · next hforward => simp [hforward] at hrows
  · next hforward =>
    rw [hforward] at hrows ⊢
    cases hrows
    rfl

theorem forwardAll_error {prefillStart : ℕ} {input : List Token} {s : Backend × S} {e : CandleError}
    (herror : (s.1.forwardAllLogits input).1 = .error e) :
    (r.env prefillStart).forwardAll input s = (none, (s.1.forwardAllLogits input).2, s.2) := by
  simp only [env]
  split
  · next hforward => rw [hforward]
  · next hforward => simp [hforward] at herror

variable (r)

noncomputable def step (prefillStart : ℕ) :
    CandleLoop (Backend × S) → Step (CandleLoop (Backend × S)) Ended :=
  if r.streaming then streamingStep r.request (r.env prefillStart)
  else blockingStep r.request (r.env prefillStart)

def spent (loop : CandleLoop (Backend × S)) : Prop :=
  if r.streaming then r.request.maxTokens ≤ loop.generated.length
  else r.request.maxTokens ≤ loop.iteration

instance (loop : CandleLoop (Backend × S)) : Decidable (r.spent loop) := by
  unfold spent
  infer_instance

/-- The backend behind the last iteration, which may have forwarded. -/
noncomputable def left (prefillStart : ℕ) (loop : CandleLoop (Backend × S)) : Backend :=
  if r.spent loop ∨ r.expired loop.iteration then loop.backend.1
  else
    (loop.backend.1.forwardLogits
      (candleInput r.request (r.env prefillStart) loop.generated)).2

noncomputable def serveStep (prefillStart : ℕ) (loop : CandleLoop (Backend × S)) :
    Step (CandleLoop (Backend × S)) (Ended × Backend) :=
  match r.step prefillStart loop with
  | .more loop => .more loop
  | .done e => .done (e, r.left prefillStart loop)

end ChatRequest

namespace BackendSlot

variable {S : Type}

noncomputable def prepare (slot : BackendSlot) (r : ChatRequest S) : ℕ × BackendSlot :=
  if r.detect ∧ ¬ r.streaming then
    (0, { backend := slot.backend.resetPosition, promptCache := [] })
  else preparePromptCache slot r.request.prompt

/-- The candle paths of `generate_blocking` and `chat_stream` with the sync of the slot. -/
noncomputable def serve (slot : BackendSlot) (r : ChatRequest S) : Option (Ended × BackendSlot) :=
  let (prefillStart, slot) := slot.prepare r
  (run (r.serveStep prefillStart) (r.request.maxTokens + 1)
    { iteration := 0, generated := [], backend := (slot.backend, r.sampler) }).map
      fun (e, backend) =>
        (e.withStops (if r.streaming then r.request.stopCheck else r.request.cutsText),
          { backend, promptCache := r.request.prompt ++ e.generated })

end BackendSlot

end Zllm.CandleSlot

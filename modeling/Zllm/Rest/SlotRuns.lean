import Zllm.Rest.CandleSlot

/-!
# Runs of the candle slots

A slot is sound where its caches hold a beginning of the tokens it thinks they hold. Plain requests,
which do not speculate, keep it sound however they end, and a request that resumes within what is
held is answered as from empty caches. The last token of a reply was never forwarded, though: a
follow-up that resumes behind it is refused.
-/

namespace Zllm.CandleSlot

open Zllm.Dense FinishReason Loop

/-! ### The common prefix -/

theorem lcpLen_cons (x y : Token) (a b : List Token) :
    lcpLen (x :: a) (y :: b) = if x = y then lcpLen a b + 1 else 0 := by
  rw [lcpLen, List.zip_cons_cons, List.takeWhile_cons]
  split_ifs with hxy <;> simp_all [lcpLen]

theorem take_eq_of_le_lcpLen {n : ℕ} {a b : List Token} (hn : n ≤ lcpLen a b) :
    a.take n = b.take n := by
  induction n generalizing a b with
  | zero => rw [List.take_zero, List.take_zero]
  | succ n ih =>
    cases a with
    | nil => exact absurd hn (by simp [lcpLen])
    | cons x a =>
      cases b with
      | nil => exact absurd hn (by simp [lcpLen])
      | cons y b =>
        rw [lcpLen_cons] at hn
        split_ifs at hn with hxy
        · rw [List.take_succ_cons, List.take_succ_cons, hxy, ih (Nat.le_of_succ_le_succ hn)]
        · exact absurd hn (Nat.not_succ_le_zero n)

theorem lcpLen_of_begins {a b : List Token} (hbegins : b <+: a) : lcpLen a b = b.length := by
  obtain ⟨rest, rfl⟩ := hbegins
  induction b with
  | nil =>
    rw [lcpLen, List.zip_nil_right, List.takeWhile_nil]
    rfl
  | cons y b ih => rw [List.cons_append, lcpLen_cons, if_pos rfl, ih, List.length_cons]

/-! ### Sound slots -/

/-- What is held is known to the model, and is a beginning of what the slot thinks it is. -/
def Sound (m : ModelWeights) (slot : BackendSlot) : Prop :=
  ∃ held, slot.backend.Holds m unhooked held ∧ Known m held ∧ held <+: slot.promptCache

variable {S : Type} {m : ModelWeights} {slot : BackendSlot} {r : ChatRequest S}

/-- The prefill starts within what the caches hold. -/
def Resumes (slot : BackendSlot) (r : ChatRequest S) : Prop :=
  (slot.prepare r).1 ≤ slot.backend.indexPos

theorem prepare_fst_le (slot : BackendSlot) (r : ChatRequest S) :
    (slot.prepare r).1 ≤ r.request.prompt.length - 1 := by
  unfold BackendSlot.prepare preparePromptCache
  split_ifs
  · exact Nat.zero_le _
  · dsimp only
    split_ifs
    · exact Nat.zero_le _
    · exact min_le_right _ _

/-- Behind the preparation of a request that resumes, the caches hold the beginning of its prompt. -/
theorem prepare_holds (hslot : Sound m slot) (hresumes : Resumes slot r) :
    (slot.prepare r).2.backend.Holds m unhooked (r.request.prompt.take (slot.prepare r).1) ∧
      Known m (r.request.prompt.take (slot.prepare r).1) := by
  obtain ⟨held, hholds, hknown, hbegins⟩ := hslot
  have hreset : slot.backend.resetPosition.Holds m unhooked [] := hholds.resetPosition
  have hnone : Known m [] := ⟨fun t ht => absurd ht List.not_mem_nil, fun _ _ => Nat.zero_le _⟩
  unfold Resumes at hresumes
  rw [hholds.indexPos] at hresumes
  unfold BackendSlot.prepare preparePromptCache at hresumes ⊢
  split_ifs at hresumes ⊢ with hdetect
  · exact ⟨hreset, hnone⟩
  · dsimp only at hresumes ⊢
    set reuse := min (lcpLen r.request.prompt slot.promptCache) (r.request.prompt.length - 1)
    split_ifs at hresumes ⊢ with hzero
    · exact ⟨hreset, hnone⟩
    · have hsame : held.take reuse = r.request.prompt.take reuse := by
        rw [take_eq_of_le_lcpLen (min_le_left _ _), List.prefix_iff_eq_take.mp hbegins,
          List.take_take, min_eq_left hresumes]
      rw [← hsame]
      exact ⟨hholds.truncateTo hresumes, hknown.take reuse⟩

/-! ### An iteration -/

/-- Known tokens for which there is room. -/
def Answerable (m : ModelWeights) (all : List Token) : Prop := all ≠ [] ∧ Known m all

/-- What is held and what is forwarded next make up all tokens so far. -/
def At (m : ModelWeights) (r : ChatRequest S) (prefillStart : ℕ)
    (loop : CandleLoop (Backend × S)) : Prop :=
  ∃ held, loop.backend.1.Holds m unhooked held ∧ Known m held ∧
    held ++ candleInput r.request (r.env prefillStart) loop.generated =
      r.request.prompt ++ loop.generated ∧
    (r.request.prompt ++ loop.generated ≠ [] →
      candleInput r.request (r.env prefillStart) loop.generated ≠ [])

variable {prefillStart : ℕ} {loop : CandleLoop (Backend × S)}

theorem At.forward (huniform : m.Uniform) (hat : At m r prefillStart loop) :
    let input := candleInput r.request (r.env prefillStart) loop.generated
    let all := r.request.prompt ++ loop.generated
    (Answerable m all →
      (loop.backend.1.forwardLogits input).1 = .ok (m.logitsAt unhooked all) ∧
        (loop.backend.1.forwardLogits input).2.Holds m unhooked all) ∧
    (¬ Answerable m all →
      ∃ e held, (loop.backend.1.forwardLogits input).1 = .error e ∧
        (loop.backend.1.forwardLogits input).2.Holds m unhooked held ∧
        Known m held ∧ held <+: all) := by
  intro input all
  obtain ⟨held, hholds, hknown, hall, hinput⟩ := hat
  change held ++ input = all at hall
  change all ≠ [] → input ≠ [] at hinput
  have hrow : RowWise (fun _ _ => none) unhooked := fun l x => (List.map_id x).symm
  have hlen : held.length + input.length = all.length := by
    rw [← List.length_append, hall]
  constructor
  · rintro ⟨hne, hall', hroom⟩
    have hforward := hholds.forwardLogitsWithObserver hrow (hinput hne)
      (fun t ht => hall' t (by rw [← hall]; exact List.mem_append_right held ht)) (hlen ▸ hroom)
    rw [hall] at hforward
    exact hforward
  · intro hnot
    have hrefused : input = [] ∨ ¬ m.Takes held input := by
      refine or_iff_not_imp_left.mpr fun hne htakes => hnot ⟨?_, fun t ht => ?_, ?_⟩
      · rw [← hall]
        exact List.append_ne_nil_of_right_ne_nil held hne
      · rw [← hall] at ht
        rcases List.mem_append.mp ht with hold | hnew
        · exact hknown.1 t hold
        · exact htakes.1 t hnew
      · exact hlen ▸ htakes.2
    obtain ⟨e, n, hkept, herror, hholds'⟩ :=
      hholds.forwardLogitsWithObserver_refused hrow huniform hknown hrefused
    refine ⟨e, held ++ input.take n, herror, hholds', hkept, ?_⟩
    rw [← hall]
    exact List.prefix_append_right_inj held |>.mpr (List.take_prefix n input)

/-- No iteration speculates. -/
def Plain (r : ChatRequest S) : Prop := ∀ i, r.pldOn i = false

/-- How an iteration of a plain request ends it, if it does, from what was drawn. -/
def ends (r : ChatRequest S) (loop : CandleLoop (Backend × S)) (drawn : Option Token) :
    Option Ended :=
  let generated := loop.generated
  if r.spent loop then some { exit := .maxTokens, reason := .stop, generated }
  else if r.expired loop.iteration then some { exit := .deadline, reason := .length, generated }
  else
    match drawn with
    | none => some { exit := .failed, reason := .stop, generated }
    | some next =>
        if r.request.stops next then some { exit := .stopToken, reason := .stop, generated }
        else if r.request.stopCheck (generated ++ [next]) then
          some { exit := .stopString, reason := .stop, generated := generated ++ [next] }
        else if r.streaming && !r.sends (generated ++ [next]) then
          some { exit := .disconnected, reason := .stop, generated := generated ++ [next] }
        else none

noncomputable def drawn (r : ChatRequest S) (prefillStart : ℕ) (loop : CandleLoop (Backend × S)) :
    Option (Token × Backend × S) :=
  (r.env prefillStart).draw (candleInput r.request (r.env prefillStart) loop.generated) loop.backend

theorem step_eq (hplain : Plain r) (prefillStart : ℕ) (loop : CandleLoop (Backend × S)) :
    (∀ e, ends r loop ((drawn r prefillStart loop).map Prod.fst) = some e →
      r.step prefillStart loop = .done e) ∧
    (ends r loop ((drawn r prefillStart loop).map Prod.fst) = none →
      ∃ next backend, drawn r prefillStart loop = some (next, backend) ∧
        r.step prefillStart loop =
          .more { iteration := loop.iteration + 1, generated := loop.generated ++ [next]
                  backend }) := by
  have hblocking (i : ℕ) (next : Token) (l : CandleLoop (Backend × S)) :
      draftBlocking r.request (r.env prefillStart) i next l = l := by
    simp [draftBlocking, ChatRequest.env, hplain i]
  have hstreaming (i : ℕ) (next : Token) (l : CandleLoop (Backend × S)) :
      draftStreaming r.request (r.env prefillStart) i next l = l := by
    simp [draftStreaming, ChatRequest.env, hplain i]
  have hexpired : (r.env prefillStart).expired = r.expired := rfl
  have hearly : (r.env prefillStart).earlyExit = false := rfl
  have hsends : (r.env prefillStart).sends = r.sends := rfl
  have hdraw : (r.env prefillStart).draw (candleInput r.request (r.env prefillStart) loop.generated)
      loop.backend = drawn r prefillStart loop := rfl
  unfold ChatRequest.step ends
  cases hlane : r.streaming with
  | false =>
    have hspent : r.spent loop ↔ r.request.maxTokens ≤ loop.iteration := by
      simp [ChatRequest.spent, hlane]
    simp only [hspent, Bool.false_eq_true, if_false, Bool.false_and, blockingStep, hexpired, hearly,
      hdraw, hblocking, Bool.and_false]
    split_ifs with hspent hlate
    · simp
    · simp
    · cases drawn r prefillStart loop with
      | none => simp
      | some next =>
        simp only [Option.map_some]
        split_ifs <;> simp
  | true =>
    have hspent : r.spent loop ↔ r.request.maxTokens ≤ loop.generated.length := by
      simp [ChatRequest.spent, hlane]
    simp only [hspent, if_true, Bool.true_and, streamingStep, hexpired, hearly, hdraw, hsends,
      hstreaming, Bool.and_false, Bool.false_eq_true, if_false]
    split_ifs with hspent hlate
    · simp
    · simp
    · cases drawn r prefillStart loop with
      | none => simp
      | some next =>
        simp only [Option.map_some]
        split_ifs <;> simp

theorem ends_generated {r : ChatRequest S} {loop : CandleLoop (Backend × S)} {drawn : Option Token}
    {e : Ended} (hends : ends r loop drawn = some e) : loop.generated <+: e.generated := by
  unfold ends at hends
  dsimp only at hends
  split_ifs at hends
  · cases hends
    exact List.prefix_rfl
  · cases hends
    exact List.prefix_rfl
  · cases drawn with
    | none =>
      cases hends
      exact List.prefix_rfl
    | some next =>
      dsimp only at hends
      split_ifs at hends
      all_goals
        cases hends
        first
        | exact List.prefix_rfl
        | exact List.prefix_append _ _

/-- What is drawn depends on the tokens so far and the sampler. -/
theorem At.drawn (huniform : m.Uniform) (hat : At m r prefillStart loop) :
    let all := r.request.prompt ++ loop.generated
    let next := r.sample (m.logitsAt unhooked all) loop.backend.2
    (Answerable m all → ∃ backend, backend.Holds m unhooked all ∧
      drawn r prefillStart loop = some (next.1, backend, next.2)) ∧
    (¬ Answerable m all → drawn r prefillStart loop = none) := by
  intro all next
  obtain ⟨hok, hrefused⟩ := hat.forward huniform
  constructor
  · intro hanswerable
    obtain ⟨hanswer, hholds⟩ := hok hanswerable
    exact ⟨_, hholds, ChatRequest.draw_ok hanswer⟩
  · intro hnot
    obtain ⟨e, held, hanswer, -⟩ := hrefused hnot
    exact ChatRequest.draw_error hanswer

theorem At.more (huniform : m.Uniform) (hat : At m r prefillStart loop) {next : Token}
    {backend : Backend × S} (hnext : CandleSlot.drawn r prefillStart loop = some (next, backend)) :
    At m r prefillStart
        { iteration := loop.iteration + 1, generated := loop.generated ++ [next], backend } ∧
      (next, backend.2) =
        r.sample (m.logitsAt unhooked (r.request.prompt ++ loop.generated)) loop.backend.2 := by
  obtain ⟨hok, hrefused⟩ := hat.drawn huniform
  by_cases hanswerable : Answerable m (r.request.prompt ++ loop.generated)
  · obtain ⟨b, hholds, hdrawn⟩ := hok hanswerable
    rw [hdrawn] at hnext
    cases hnext
    have hinput : candleInput r.request (r.env prefillStart) (loop.generated ++
        [(r.sample (m.logitsAt unhooked (r.request.prompt ++ loop.generated))
          loop.backend.2).1]) = [(r.sample (m.logitsAt unhooked
            (r.request.prompt ++ loop.generated)) loop.backend.2).1] := by
      simp [candleInput]
    refine ⟨⟨_, hholds, hanswerable.2, ?_, fun _ => ?_⟩, rfl⟩
    · rw [hinput, List.append_assoc]
    · rw [hinput]
      exact List.cons_ne_nil _ _
  · rw [hrefused hanswerable] at hnext
    cases hnext

/-- What a request leaves in the caches is a beginning of what it tells the slot. -/
def Leaves (m : ModelWeights) (r : ChatRequest S) (generated : List Token) (b : Backend) : Prop :=
  ∃ held, b.Holds m unhooked held ∧ Known m held ∧ held <+: r.request.prompt ++ generated

theorem At.left (huniform : m.Uniform) (hat : At m r prefillStart loop) :
    Leaves m r loop.generated (r.left prefillStart loop) := by
  unfold ChatRequest.left
  split_ifs with hstopped
  · obtain ⟨held, hholds, hknown, hall, -⟩ := hat
    exact ⟨held, hholds, hknown, ⟨_, hall⟩⟩
  · obtain ⟨hok, hrefused⟩ := hat.forward huniform
    by_cases hanswerable : Answerable m (r.request.prompt ++ loop.generated)
    · exact ⟨_, (hok hanswerable).2, hanswerable.2, List.prefix_rfl⟩
    · obtain ⟨e, held, -, hholds, hknown, hbegins⟩ := hrefused hanswerable
      exact ⟨held, hholds, hknown, hbegins⟩

/-! ### Two slots -/

/-- Loops of one request on two backends, at the same tokens. -/
structure Same (m : ModelWeights) (r : ChatRequest S) (s₁ s₂ : ℕ)
    (l₁ l₂ : CandleLoop (Backend × S)) : Prop where
  left : At m r s₁ l₁
  right : At m r s₂ l₂
  iteration : l₁.iteration = l₂.iteration
  generated : l₁.generated = l₂.generated
  sampler : l₁.backend.2 = l₂.backend.2

/-- Both end in the same way, and leave sound slots. -/
def SameEnd (m : ModelWeights) (r : ChatRequest S) (a b : Ended × Backend) : Prop :=
  a.1 = b.1 ∧ Leaves m r a.1.generated a.2 ∧ Leaves m r b.1.generated b.2

theorem Leaves.mono {generated generated' : List Token} {b : Backend}
    (hleaves : Leaves m r generated b) (hbegins : generated <+: generated') :
    Leaves m r generated' b := by
  obtain ⟨held, hholds, hknown, hheld⟩ := hleaves
  exact ⟨held, hholds, hknown, hheld.trans ((List.prefix_append_right_inj _).mpr hbegins)⟩

theorem Same.step (huniform : m.Uniform) (hplain : Plain r) {s₁ s₂ : ℕ}
    {l₁ l₂ : CandleLoop (Backend × S)} (hsame : Same m r s₁ s₂ l₁ l₂) :
    (∃ a b, r.serveStep s₁ l₁ = .done a ∧ r.serveStep s₂ l₂ = .done b ∧ SameEnd m r a b) ∨
      ∃ l₁' l₂', r.serveStep s₁ l₁ = .more l₁' ∧ r.serveStep s₂ l₂ = .more l₂' ∧
        Same m r s₁ s₂ l₁' l₂' := by
  obtain ⟨hleft, hright, hiteration, hgenerated, hsampler⟩ := hsame
  obtain ⟨hok₁, hrefused₁⟩ := hleft.drawn huniform
  obtain ⟨hok₂, hrefused₂⟩ := hright.drawn huniform
  have hdrawn : (CandleSlot.drawn r s₁ l₁).map Prod.fst =
      (CandleSlot.drawn r s₂ l₂).map Prod.fst := by
    by_cases hanswerable : Answerable m (r.request.prompt ++ l₁.generated)
    · obtain ⟨b₁, -, h₁⟩ := hok₁ hanswerable
      obtain ⟨b₂, -, h₂⟩ := hok₂ (hgenerated ▸ hanswerable)
      rw [h₁, h₂, hgenerated, hsampler]
      rfl
    · rw [hrefused₁ hanswerable, hrefused₂ (hgenerated ▸ hanswerable)]
  have hends : ends r l₁ ((CandleSlot.drawn r s₁ l₁).map Prod.fst) =
      ends r l₂ ((CandleSlot.drawn r s₂ l₂).map Prod.fst) := by
    have hspent : r.spent l₁ ↔ r.spent l₂ := by
      unfold ChatRequest.spent
      rw [hiteration, hgenerated]
    simp only [hdrawn, ends, hspent, hiteration, hgenerated]
  obtain ⟨hdone₁, hmore₁⟩ := step_eq hplain s₁ l₁
  obtain ⟨hdone₂, hmore₂⟩ := step_eq hplain s₂ l₂
  cases hend : ends r l₁ ((CandleSlot.drawn r s₁ l₁).map Prod.fst) with
  | some e =>
    have hbegins := ends_generated hend
    have hstep₁ : r.serveStep s₁ l₁ = .done (e, r.left s₁ l₁) := by
      rw [ChatRequest.serveStep, hdone₁ e hend]
    have hstep₂ : r.serveStep s₂ l₂ = .done (e, r.left s₂ l₂) := by
      rw [ChatRequest.serveStep, hdone₂ e (hends ▸ hend)]
    exact .inl ⟨_, _, hstep₁, hstep₂, rfl, (hleft.left huniform).mono hbegins,
      (hright.left huniform).mono (hgenerated ▸ hbegins)⟩
  | none =>
    obtain ⟨next₁, b₁, hnext₁, hstep₁⟩ := hmore₁ hend
    obtain ⟨next₂, b₂, hnext₂, hstep₂⟩ := hmore₂ (hends ▸ hend)
    obtain ⟨hat₁, hsample₁⟩ := hleft.more huniform hnext₁
    obtain ⟨hat₂, hsample₂⟩ := hright.more huniform hnext₂
    rw [hgenerated, hsampler, ← hsample₂, Prod.mk.injEq] at hsample₁
    obtain ⟨rfl, hsampler'⟩ := hsample₁
    refine .inr ⟨_, _, ?_, ?_, hat₁, hat₂, ?_, ?_, hsampler'⟩
    · rw [ChatRequest.serveStep, hstep₁]
    · rw [ChatRequest.serveStep, hstep₂]
    · exact congrArg (· + 1) hiteration
    · exact congrArg (· ++ [next₁]) hgenerated

theorem at_start (hslot : Sound m slot) (hresumes : Resumes slot r) :
    At m r (slot.prepare r).1
      { iteration := 0, generated := [], backend := ((slot.prepare r).2.backend, r.sampler) } := by
  obtain ⟨hholds, hknown⟩ := prepare_holds hslot hresumes
  have hinput : candleInput r.request (r.env (slot.prepare r).1) [] =
      r.request.prompt.drop (slot.prepare r).1 := rfl
  refine ⟨_, hholds, hknown, ?_, ?_⟩
  · rw [hinput, List.take_append_drop, List.append_nil]
  · rw [hinput, List.append_nil]
    intro hne hnil
    have hpos := List.length_pos_iff.mpr hne
    have hle := prepare_fst_le slot r
    have hlong := List.drop_eq_nil_iff.mp hnil
    omega

/-- Sound slots answer a plain request that resumes in both in the same way, and stay sound. -/
theorem serve_related (huniform : m.Uniform) (hplain : Plain r) {slot₁ slot₂ : BackendSlot}
    (hslot₁ : Sound m slot₁) (hslot₂ : Sound m slot₂) (hresumes₁ : Resumes slot₁ r)
    (hresumes₂ : Resumes slot₂ r) :
    Option.Rel (fun a b => a.1 = b.1 ∧ Sound m a.2 ∧ Sound m b.2) (slot₁.serve r)
      (slot₂.serve r) := by
  have hsame : Same m r (slot₁.prepare r).1 (slot₂.prepare r).1
      { iteration := 0, generated := [], backend := ((slot₁.prepare r).2.backend, r.sampler) }
      { iteration := 0, generated := [], backend := ((slot₂.prepare r).2.backend, r.sampler) } :=
    ⟨at_start hslot₁ hresumes₁, at_start hslot₂ hresumes₂, rfl, rfl, rfl⟩
  have hrun : Option.Rel (SameEnd m r)
      (run (r.serveStep (slot₁.prepare r).1) (r.request.maxTokens + 1) _)
      (run (r.serveStep (slot₂.prepare r).1) (r.request.maxTokens + 1) _) :=
    run_related (fun _ _ hrel => hrel.step huniform hplain) (r.request.maxTokens + 1) hsame
  unfold BackendSlot.serve
  dsimp only
  generalize run (r.serveStep (slot₁.prepare r).1) _ _ = outcome₁ at hrun ⊢
  generalize run (r.serveStep (slot₂.prepare r).1) _ _ = outcome₂ at hrun ⊢
  cases hrun with
  | none => exact .none
  | some hend =>
    obtain ⟨heq, hleaves₁, hleaves₂⟩ := hend
    exact .some ⟨congrArg (Ended.withStops _) heq, hleaves₁, hleaves₂⟩

/-! ### A prefill behind what is held -/

theorem follow_up_failed (hslot : Sound m slot) (hlayers : m.layers ≠ [])
    (hnot : ¬ Resumes slot r) (htwo : (slot.prepare r).1 + 2 ≤ r.request.prompt.length) :
    ∃ e, ((slot.prepare r).2.backend.forwardLogits
      (r.request.prompt.drop (slot.prepare r).1)).1 = .error e := by
  obtain ⟨held, hholds, -, -⟩ := hslot
  unfold Resumes at hnot
  have hlen := hholds.indexPos
  obtain ⟨⟨masks, hmasks, hmodel⟩, -⟩ := hholds
  obtain ⟨hbackend, hbehind⟩ : (slot.prepare r).2.backend =
      slot.backend.truncateTo (slot.prepare r).1 ∧ held.length < (slot.prepare r).1 := by
    refine ⟨?_, by omega⟩
    unfold BackendSlot.prepare preparePromptCache at hnot ⊢
    split_ifs at hnot ⊢ with hdetect
    · exact absurd (Nat.zero_le _) hnot
    · dsimp only at hnot ⊢
      split_ifs at hnot ⊢ with hzero
      · exact absurd (Nat.zero_le _) hnot
      · rfl
  have hmodel' : (slot.backend.truncateTo (slot.prepare r).1).model =
      some (m.holding unhooked held masks) := by
    rw [Backend.truncateTo, hmodel]
    exact congrArg some (truncate_beyond hbehind.le)
  rw [hbackend]
  refine forwardLogits_misplaced hmasks hmodel' hlayers ?_ hbehind.ne'
  rw [List.length_drop]
  omega

/-- The reply ends with nothing. -/
theorem serve_refused (hslot : Sound m slot) (hlayers : m.layers ≠ []) (hnot : ¬ Resumes slot r)
    (htwo : (slot.prepare r).1 + 2 ≤ r.request.prompt.length) (hbudget : 0 < r.request.maxTokens)
    (htime : r.expired 0 = false) :
    (slot.serve r).map Prod.fst =
      some { exit := .failed, reason := .stop, generated := [] } := by
  obtain ⟨e, hfailed⟩ := follow_up_failed hslot hlayers hnot htwo
  set start := (slot.prepare r).1
  set loop : CandleLoop (Backend × S) :=
    { iteration := 0, generated := [], backend := ((slot.prepare r).2.backend, r.sampler) }
  have hdraw : (r.env start).draw (candleInput r.request (r.env start) []) loop.backend = none := by
    have hinput : candleInput r.request (r.env start) [] = r.request.prompt.drop start := rfl
    rw [hinput]
    exact ChatRequest.draw_error hfailed
  have hstep : r.serveStep start loop =
      .done ({ exit := .failed, reason := .stop, generated := [] }, r.left start loop) := by
    have hlane : r.step start loop =
        .done { exit := .failed, reason := .stop, generated := [] } := by
      have hexpired : (r.env start).expired = r.expired := rfl
      unfold ChatRequest.step
      split_ifs
      · simp [streamingStep, loop, hexpired, htime, hbudget.ne', hdraw]
      · simp [blockingStep, loop, hexpired, htime, hbudget.ne', hdraw]
    rw [ChatRequest.serveStep, hlane]
  have hrun : run (r.serveStep start) (r.request.maxTokens + 1) loop =
      some ({ exit := .failed, reason := .stop, generated := [] }, r.left start loop) := by
    rw [run, hstep]
  show ((run (r.serveStep start) (r.request.maxTokens + 1) loop).map _).map Prod.fst = _
  rw [hrun]
  rfl

/-! ### What a request leaves unforwarded -/

theorem At.reaches (huniform : m.Uniform) (hplain : Plain r) {start : CandleLoop (Backend × S)}
    (hstart : At m r prefillStart start)
    (hreach : Reaches (r.serveStep prefillStart) start loop) : At m r prefillStart loop := by
  induction hreach with
  | refl => exact hstart
  | @tail l l' _ hstep ih =>
    obtain ⟨hdone, hmore⟩ := step_eq hplain prefillStart l
    cases hend : ends r l ((CandleSlot.drawn r prefillStart l).map Prod.fst) with
    | some e =>
      rw [ChatRequest.serveStep, hdone e hend] at hstep
      cases hstep
    | none =>
      obtain ⟨next, backend, hnext, hlane⟩ := hmore hend
      rw [ChatRequest.serveStep, hlane] at hstep
      cases hstep
      exact (ih.more huniform hnext).1

/-- Unless it ends at a stop token, a reply's last token was never forwarded. -/
theorem At.unforwarded (huniform : m.Uniform) (hplain : Plain r) (hat : At m r prefillStart loop)
    {e : Ended} {b : Backend} (hdone : r.serveStep prefillStart loop = .done (e, b))
    (hstop : e.exit ≠ .stopToken) (hfailed : e.exit ≠ .failed) (hne : e.generated ≠ []) :
    b.indexPos + 1 = (r.request.prompt ++ e.generated).length := by
  obtain ⟨hlane, hmore⟩ := step_eq hplain prefillStart loop
  obtain ⟨e', hend, rfl, rfl⟩ : ∃ e', ends r loop ((CandleSlot.drawn r prefillStart loop).map
      Prod.fst) = some e' ∧ e' = e ∧ r.left prefillStart loop = b := by
    cases hend : ends r loop ((CandleSlot.drawn r prefillStart loop).map Prod.fst) with
    | some e' =>
      rw [ChatRequest.serveStep, hlane e' hend] at hdone
      cases hdone
      exact ⟨_, rfl, rfl, rfl⟩
    | none =>
      obtain ⟨next, backend, -, hstep⟩ := hmore hend
      rw [ChatRequest.serveStep, hstep] at hdone
      cases hdone
  -- Nothing is forwarded behind the last push.
  have hbefore (hgenerated : loop.generated ≠ []) :
      loop.backend.1.indexPos + 1 = (r.request.prompt ++ loop.generated).length := by
    obtain ⟨held, hholds, -, hall, -⟩ := hat
    have hpos := List.length_pos_iff.mpr hgenerated
    have hinput : (candleInput r.request (r.env prefillStart) loop.generated).length = 1 := by
      simp [candleInput, hgenerated]
      omega
    rw [← hall, List.length_append, hinput, hholds.indexPos]
  have hpushed (next : Token) (hdrawn : (CandleSlot.drawn r prefillStart loop).map Prod.fst =
      some next) : (loop.backend.1.forwardLogits
        (candleInput r.request (r.env prefillStart) loop.generated)).2.indexPos + 1 =
          (r.request.prompt ++ (loop.generated ++ [next])).length := by
    have hanswerable : Answerable m (r.request.prompt ++ loop.generated) := by
      by_contra hnot
      rw [(hat.drawn huniform).2 hnot] at hdrawn
      cases hdrawn
    rw [((hat.forward huniform).1 hanswerable).2.indexPos]
    simp [Nat.add_assoc]
  generalize hdrawn : (CandleSlot.drawn r prefillStart loop).map Prod.fst = drawn at hend hpushed
  unfold ends at hend
  unfold ChatRequest.left
  dsimp only at hend
  by_cases hspent : r.spent loop
  · rw [if_pos hspent] at hend
    cases hend
    rw [if_pos (.inl hspent)]
    exact hbefore hne
  · rw [if_neg hspent] at hend
    by_cases hlate : r.expired loop.iteration = true
    · rw [if_pos hlate] at hend
      cases hend
      rw [if_pos (.inr hlate)]
      exact hbefore hne
    · rw [if_neg hlate] at hend
      rw [if_neg (not_or.mpr ⟨hspent, hlate⟩)]
      cases drawn with
      | none =>
        cases hend
        exact absurd rfl hfailed
      | some next =>
        dsimp only at hend
        split_ifs at hend
        · cases hend
          exact absurd rfl hstop
        · cases hend
          exact hpushed next rfl
        · cases hend
          exact hpushed next rfl

/-! ### The pool -/

/-- Each request is served by the slot that was free for it. -/
noncomputable def serveAll :
    (pool : List BackendSlot) → List (ℕ × ChatRequest S) → List (Option Ended) × List BackendSlot
  | pool, [] => ([], pool)
  | pool, (i, r) :: rest =>
      match pool[i]?.bind fun slot => slot.serve r with
      | none =>
          let (answers, pool) := serveAll pool rest
          (none :: answers, pool)
      | some (e, slot) =>
          let (answers, pool) := serveAll (pool.set i slot) rest
          (some e :: answers, pool)

/-- Every request resumes within what its slot holds by then. -/
def ResumeAll : List BackendSlot → List (ℕ × ChatRequest S) → Prop
  | _, [] => True
  | pool, (i, r) :: rest =>
      (∀ slot, pool[i]? = some slot → Resumes slot r) ∧
        ResumeAll (serveAll pool [(i, r)]).2 rest

/-- A slot of a loaded backend. -/
def BackendSlot.fresh (loaded : Backend) : BackendSlot := { backend := loaded, promptCache := [] }

variable {loaded : Backend}

/-- A loaded model with empty caches. -/
structure Loaded (m : ModelWeights) (loaded : Backend) : Prop where
  model : loaded.model = some m
  masks : m.masks = []
  caches : m.clearKvCache = m
  indexPos : loaded.indexPos = 0
  uniform : m.Uniform

theorem Loaded.causalMasks (hloaded : Loaded m loaded) : CausalMasks m.masks :=
  hloaded.masks ▸ causalMasks_nil

theorem Loaded.sound (hloaded : Loaded m loaded) : Sound m (BackendSlot.fresh loaded) := by
  have hmasks : CausalMasks m.masks := hloaded.causalMasks
  refine ⟨[], ⟨⟨m.masks, hmasks, ?_⟩, hloaded.indexPos⟩,
    ⟨fun t ht => absurd ht List.not_mem_nil, fun _ _ => Nat.zero_le _⟩, List.nil_prefix⟩
  show loaded.model = some (m.holding unhooked [] m.masks)
  rw [hloaded.model, ← clear_eq_holding m unhooked, hloaded.caches]

theorem Loaded.pool_sound (hloaded : Loaded m loaded) (n : ℕ) :
    ∀ slot ∈ List.replicate n (BackendSlot.fresh loaded), Sound m slot := by
  intro slot hslot
  rw [List.eq_of_mem_replicate hslot]
  exact hloaded.sound

theorem fresh_resumes (loaded : Backend) (r : ChatRequest S) :
    Resumes (BackendSlot.fresh loaded) r := by
  have hstart : ((BackendSlot.fresh loaded).prepare r).1 = 0 := by
    simp [BackendSlot.prepare, preparePromptCache, BackendSlot.fresh, lcpLen]
  exact hstart.trans_le (Nat.zero_le _)

theorem serveAll_sound (hloaded : Loaded m loaded) (requests : List (ℕ × ChatRequest S))
    (hplain : ∀ p ∈ requests, Plain p.2) (pool : List BackendSlot)
    (hpool : ∀ slot ∈ pool, Sound m slot) (hfree : ∀ p ∈ requests, p.1 < pool.length)
    (hresume : ResumeAll pool requests) :
    (serveAll pool requests).1 =
        requests.map (fun p => ((BackendSlot.fresh loaded).serve p.2).map Prod.fst) ∧
      ∀ slot ∈ (serveAll pool requests).2, Sound m slot := by
  induction requests generalizing pool with
  | nil => exact ⟨rfl, hpool⟩
  | cons p rest ih =>
    obtain ⟨i, r⟩ := p
    obtain ⟨hplain, hplains⟩ := List.forall_mem_cons.1 hplain
    obtain ⟨hi, hfrees⟩ := List.forall_mem_cons.1 hfree
    obtain ⟨hresumes, hrest⟩ := hresume
    have hslot : pool[i]? = some pool[i] := List.getElem?_eq_getElem hi
    have hrelated := serve_related hloaded.uniform hplain (hpool _ (List.getElem_mem hi))
      hloaded.sound (hresumes _ hslot) (fresh_resumes loaded r)
    simp only [serveAll, hslot, Option.bind_some] at hrest ⊢
    rw [List.map_cons]
    generalize pool[i].serve r = warm at hrelated hrest ⊢
    generalize (BackendSlot.fresh loaded).serve r = cold at hrelated ⊢
    cases hrelated with
    | none =>
      obtain ⟨hanswers, hsound⟩ := ih hplains pool hpool hfrees hrest
      exact ⟨congrArg (none :: ·) hanswers, hsound⟩
    | @some warm cold hsame =>
      have hset : ∀ slot ∈ pool.set i warm.2, Sound m slot := by
        intro slot hmem
        rcases List.mem_or_eq_of_mem_set hmem with hold | rfl
        · exact hpool slot hold
        · exact hsame.2.1
      obtain ⟨hanswers, hsound⟩ := ih hplains (pool.set i warm.2) hset
        (by simpa using hfrees) hrest
      refine ⟨?_, hsound⟩
      exact congrArg₂ (· :: ·) (congrArg some hsame.1) hanswers

/-- What is drawn where nothing ends the reply is pushed. -/
theorem At.pushes (huniform : m.Uniform) (hplain : Plain r) (hat : At m r prefillStart loop)
    (hanswerable : Answerable m (r.request.prompt ++ loop.generated)) :
    let next := r.sample (m.logitsAt unhooked (r.request.prompt ++ loop.generated)) loop.backend.2
    ends r loop (some next.1) = none →
      ∃ backend, backend.Holds m unhooked (r.request.prompt ++ loop.generated) ∧
        r.serveStep prefillStart loop =
          .more { iteration := loop.iteration + 1
                  generated := loop.generated ++ [next.1]
                  backend := (backend, next.2) } ∧
        At m r prefillStart
          { iteration := loop.iteration + 1
            generated := loop.generated ++ [next.1]
            backend := (backend, next.2) } := by
  intro next hend
  obtain ⟨backend, hholds, hdrawn⟩ := (hat.drawn huniform).1 hanswerable
  have hmore : ends r loop ((CandleSlot.drawn r prefillStart loop).map Prod.fst) = none := by
    rw [hdrawn]
    exact hend
  obtain ⟨token, backend', hnext, hstep⟩ := (step_eq hplain prefillStart loop).2 hmore
  obtain ⟨rfl, rfl⟩ : next.1 = token ∧ (backend, next.2) = backend' :=
    Prod.mk.inj (Option.some.inj (hdrawn.symm.trans hnext))
  refine ⟨backend, hholds, ?_, (hat.more huniform hnext).1⟩
  rw [ChatRequest.serveStep, hstep]

/-- A request to the narrow model, which draws zeros and ones by turns. -/
def narrowChat (stops : List (List UInt8)) (prompt : List Token) : ChatRequest ℕ where
  request := { prompt, maxTokens := 2, stops := fun _ => false, ctrl := .new {} [] none stops
               decode := List.map fun t => if t = 0 then 97 else 98 }
  streaming := false
  detect := false
  expired _ := false
  sends _ := true
  pldOn _ := false
  sampler := 0
  sample _ step := (step % 2, step + 1)
  vocabSize := 2

theorem narrow_loaded : Loaded narrowModel narrowBackend where
  model := rfl
  masks := rfl
  caches := narrow_clear
  indexPos := rfl
  uniform b hb b' hb' := by
    obtain ⟨l, -, rfl⟩ := List.mem_map.mp hb
    obtain ⟨l', -, rfl⟩ := List.mem_map.mp hb'
    rfl

theorem narrow_answerable {all : List Token} (hne : all ≠ []) (hall : ∀ t ∈ all, t < 2)
    (hlong : all.length ≤ 8) : Answerable narrowModel all :=
  ⟨hne, hall, narrow_room all.length hlong⟩

section

variable {stops : List (List UInt8)} {prompt : List Token}

/-- A zero is drawn first. -/
theorem narrow_first (hslot : Sound narrowModel slot)
    (hresumes : Resumes slot (narrowChat stops prompt)) (hne : prompt ≠ [])
    (hprompt : ∀ t ∈ prompt, t < 2) (hlong : prompt.length ≤ 8)
    (hcheck : (narrowChat stops prompt).request.stopCheck [0] = false) :
    let start := (slot.prepare (narrowChat stops prompt)).1
    ∃ backend, (narrowChat stops prompt).serveStep start
        { iteration := 0
          generated := []
          backend := ((slot.prepare (narrowChat stops prompt)).2.backend, 0) } =
      .more { iteration := 1, generated := [0], backend := (backend, 1) } ∧
      At narrowModel (narrowChat stops prompt) start
        { iteration := 1, generated := [0], backend := (backend, 1) } := by
  intro start
  have hat := at_start hslot hresumes
  have hend : ends (narrowChat stops prompt)
      { iteration := 0
        generated := []
        backend := ((slot.prepare (narrowChat stops prompt)).2.backend, 0) } (some 0) = none := by
    unfold ends
    simp only [List.nil_append, hcheck]
    rfl
  have hanswerable : Answerable narrowModel (prompt ++ []) := by
    rw [List.append_nil]
    exact narrow_answerable hne hprompt hlong
  obtain ⟨backend, -, hstep, hnext⟩ :=
    hat.pushes narrow_loaded.uniform (fun _ => rfl) hanswerable hend
  exact ⟨backend, hstep, hnext⟩

/-- The budget of two tokens is spent. -/
theorem narrow_serve (hslot : Sound narrowModel slot)
    (hresumes : Resumes slot (narrowChat [] prompt)) (hne : prompt ≠ [])
    (hprompt : ∀ t ∈ prompt, t < 2) (hlong : prompt.length + 1 ≤ 8) :
    ∃ slot', slot.serve (narrowChat [] prompt) =
        some ({ exit := .maxTokens, reason := .stop, generated := [0, 1] }, slot') ∧
      Sound narrowModel slot' ∧ slot'.promptCache = prompt ++ [0, 1] ∧
      slot'.backend.indexPos = prompt.length + 1 := by
  obtain ⟨backend, hfirst, hat⟩ :=
    narrow_first hslot hresumes hne hprompt (Nat.le_of_succ_le hlong) rfl
  have hknown : ∀ t ∈ prompt ++ [0], t < 2 := by
    intro t ht
    rcases List.mem_append.mp ht with hold | hnew
    · exact hprompt t hold
    · rw [List.mem_singleton.mp hnew]
      exact Nat.two_pos
  have hall : Answerable narrowModel (prompt ++ [0]) :=
    narrow_answerable (by simp) hknown (by simpa using hlong)
  obtain ⟨backend', hholds, hpushed, -⟩ :=
    hat.pushes narrow_loaded.uniform (fun _ => rfl) hall rfl
  have hsecond : (narrowChat [] prompt).serveStep (slot.prepare (narrowChat [] prompt)).1
      { iteration := 1, generated := [0], backend := (backend, 1) } =
        .more { iteration := 2, generated := [0, 1], backend := (backend', 2) } := hpushed
  have hdone : (narrowChat [] prompt).serveStep (slot.prepare (narrowChat [] prompt)).1
      { iteration := 2, generated := [0, 1], backend := (backend', 2) } =
        .done ({ exit := .maxTokens, reason := .stop, generated := [0, 1] }, backend') := rfl
  have hrun : run ((narrowChat [] prompt).serveStep (slot.prepare (narrowChat [] prompt)).1)
      ((narrowChat [] prompt).request.maxTokens + 1)
      { iteration := 0
        generated := []
        backend := ((slot.prepare (narrowChat [] prompt)).2.backend, 0) } =
      some ({ exit := .maxTokens, reason := .stop, generated := [0, 1] }, backend') := by
    show run ((narrowChat [] prompt).serveStep (slot.prepare (narrowChat [] prompt)).1) 3 _ = _
    rw [run, hfirst]
    dsimp only
    rw [run, hsecond]
    dsimp only
    rw [run, hdone]
  refine ⟨{ backend := backend', promptCache := prompt ++ [0, 1] }, ?_, ?_, rfl, ?_⟩
  · unfold BackendSlot.serve
    exact (congrArg (Option.map _) hrun).trans rfl
  · exact ⟨prompt ++ [0], hholds, hall.2, ⟨[1], by simp⟩⟩
  · rw [hholds.indexPos]
    exact List.length_append

end

/-- Behind a reply that did not end at a stop token the last token is missing in the caches. -/
theorem serve_unforwarded (huniform : m.Uniform) (hplain : Plain r) (hslot : Sound m slot)
    (hresumes : Resumes slot r) {e : Ended} {slot' : BackendSlot}
    (hserve : slot.serve r = some (e, slot')) (hstop : e.exit ≠ .stopToken)
    (hfailed : e.exit ≠ .failed) (hne : e.generated ≠ []) :
    slot'.backend.indexPos + 1 = slot'.promptCache.length := by
  obtain ⟨⟨e', b⟩, hrun, hsync⟩ := Option.map_eq_some_iff.mp hserve
  obtain ⟨last, hreach, hdone⟩ := exists_last hrun
  cases hsync
  have hlast := (at_start hslot hresumes).reaches huniform hplain hreach
  have hcut : ∀ stopped, (e'.withStops stopped).generated = e'.generated := by
    intro stopped
    unfold Ended.withStops
    split_ifs <;> rfl
  rw [hcut] at hne
  refine hlast.unforwarded huniform hplain hdone (fun hexit => hstop ?_) (fun hexit => hfailed ?_) hne
  all_goals
    unfold Ended.withStops
    simp [hexit]

/-- In a pool that served plain requests so far, a reply ended by its budget, its deadline, a stop
string or a client that left: a follow-up on the same slot, whose prompt goes on behind that reply by
two tokens or more, gets nothing. -/
theorem follow_up_refused (hloaded : Loaded m loaded) (hlayers : m.layers ≠ []) (n : ℕ)
    (requests : List (ℕ × ChatRequest S)) (hplain : ∀ p ∈ requests, Plain p.2)
    (hfree : ∀ p ∈ requests, p.1 < n)
    (hresume : ResumeAll (List.replicate n (BackendSlot.fresh loaded)) requests)
    (slot : BackendSlot)
    (hslot : slot ∈ (serveAll (List.replicate n (BackendSlot.fresh loaded)) requests).2)
    (r followUp : ChatRequest S) (hr : Plain r) (hresumes : Resumes slot r) (e : Ended)
    (slot' : BackendSlot) (hserve : slot.serve r = some (e, slot')) (hstop : e.exit ≠ .stopToken)
    (hfailed : e.exit ≠ .failed) (hne : e.generated ≠ [])
    (hdetect : ¬ (followUp.detect ∧ ¬ followUp.streaming))
    (hextends : slot'.promptCache <+: followUp.request.prompt)
    (htwo : slot'.promptCache.length + 2 ≤ followUp.request.prompt.length)
    (hbudget : 0 < followUp.request.maxTokens) (htime : followUp.expired 0 = false) :
    (slot'.serve followUp).map Prod.fst =
      some { exit := .failed, reason := .stop, generated := [] } := by
  have hsound : Sound m slot := (serveAll_sound hloaded requests hplain _ (hloaded.pool_sound n)
    (by simpa using hfree) hresume).2 slot hslot
  have hsound' : Sound m slot' := by
    have hrelated := serve_related hloaded.uniform hr hsound hsound hresumes hresumes
    rw [hserve] at hrelated
    cases hrelated with
    | some hsame => exact hsame.2.1
  have hmissing := serve_unforwarded hloaded.uniform hr hsound hresumes hserve hstop hfailed hne
  have hstart : (slot'.prepare followUp).1 = slot'.promptCache.length := by
    have hreuse : min (lcpLen followUp.request.prompt slot'.promptCache)
        (followUp.request.prompt.length - 1) = slot'.promptCache.length := by
      rw [lcpLen_of_begins hextends]
      omega
    unfold BackendSlot.prepare preparePromptCache
    rw [if_neg hdetect, hreuse]
    dsimp only
    rw [if_neg (by omega)]
  refine serve_refused hsound' hlayers ?_ (by rwa [hstart]) hbudget htime
  unfold Resumes
  omega

theorem follow_up_refused_narrow :
    ∃ slot', ((BackendSlot.fresh narrowBackend).serve (narrowChat [] [0, 1])).map Prod.snd =
        some slot' ∧
      (slot'.serve (narrowChat [] [0, 1, 0, 1, 1, 0])).map Prod.fst =
        some { exit := .failed, reason := .stop, generated := [] } := by
  have hfresh := fresh_resumes narrowBackend (narrowChat [] [0, 1])
  obtain ⟨slot', hserve, -, hcache, -⟩ :=
    narrow_serve narrow_loaded.sound hfresh (by decide) (by decide) (by decide)
  refine ⟨slot', by rw [hserve]; rfl, ?_⟩
  refine follow_up_refused narrow_loaded (List.cons_ne_nil _ _) 1 [] (by simp) (by simp) trivial _
    (List.mem_singleton_self _) (narrowChat [] [0, 1]) _ (fun _ => rfl) hfresh _ slot' hserve ?_ ?_
    ?_ ?_ ?_ ?_ Nat.two_pos rfl
  · simp
  · simp
  · simp
  · simp [narrowChat]
  · rw [hcache]
    exact ⟨[1, 0], rfl⟩
  · rw [hcache]
    exact le_rfl

end Zllm.CandleSlot

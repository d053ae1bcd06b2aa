import Zllm.Rest.SlotSpeculation

/-!
# What a stream sends

The chunks of `chat_stream`, one for each token behind its checks, beside the text that
`generate_blocking` returns. The token that completes a stop string is held back as a whole, while
the text is cut where the stop string starts. So the two agree where the stop string starts with its
last token, and where no stop string ended the reply.
-/

namespace Zllm.CandleSlot

open Zllm.Dense FinishReason Loop DecodeCtrl
open SpecDecode (lookupDraft)

/-- The loop of a stream with the tokens whose chunks were delivered. -/
structure Streamed (σ : Type) where
  loop : CandleLoop σ
  sent : List Token

section

variable {σ : Type} (req : Request) (env : Candle σ)

/-- `send_tok` behind the checks of the accepted drafts. -/
def pushSent : (toks generated sent : List Token) → Bool × List Token × List Token
  | [], generated, sent => (false, generated, sent)
  | tok :: toks, generated, sent =>
      if req.stops tok then (true, generated, sent)
      else if req.stopCheck (generated ++ [tok]) then (true, generated ++ [tok], sent)
      else if !env.sends (generated ++ [tok]) then (true, generated ++ [tok], sent)
      else if req.maxTokens ≤ (generated ++ [tok]).length then
        (false, generated ++ [tok], sent ++ [tok])
      else pushSent toks (generated ++ [tok]) (sent ++ [tok])

/-- The token behind the drafts is pushed whether its chunk is delivered or not. -/
def draftSent (iteration : Nat) (next : Token) (st : Streamed σ) : Streamed σ :=
  let all := req.prompt ++ st.loop.generated
  if env.pldOn iteration ∧ st.loop.generated.length < req.maxTokens then
    match lookupDraft all all 2 5 with
    | none => st
    | some draft =>
        match env.forwardAll (next :: draft) st.loop.backend with
        | (none, backend) => { st with loop := { st.loop with backend } }
        | (some choices, backend) =>
            let (accepted, bonus) := verifyDrafts 0 draft choices
            let (earlyEos, generated, sent) :=
              pushSent req env (draft.take accepted) st.loop.generated st.sent
            let backend := env.keep st.loop.backend accepted backend
            if !earlyEos && !req.stops bonus && generated.length < req.maxTokens then
              { loop := { st.loop with generated := generated ++ [bonus], backend }
                sent := if env.sends (generated ++ [bonus]) then sent ++ [bonus] else sent }
            else
              { loop := { st.loop with generated, backend }, sent }
  else
    st

/-- `streamingStep` with its chunks. -/
def sentStep (st : Streamed σ) : Step (Streamed σ) (Ended × List Token) :=
  let loop := st.loop
  if req.maxTokens ≤ loop.generated.length then
    .done ({ exit := .maxTokens, reason := .stop, generated := loop.generated }, st.sent)
  else if env.expired loop.iteration then
    .done ({ exit := .deadline, reason := .length, generated := loop.generated }, st.sent)
  else
    match env.draw (candleInput req env loop.generated) loop.backend with
    | none => .done ({ exit := .failed, reason := .stop, generated := loop.generated }, st.sent)
    | some (next, backend) =>
        let generated := loop.generated ++ [next]
        if loop.generated.isEmpty && env.earlyExit then
          .done ({ exit := .earlyExit, reason := .earlyExit, generated := loop.generated },
            st.sent)
        else if req.stops next then
          .done ({ exit := .stopToken, reason := .stop, generated := loop.generated }, st.sent)
        else if req.stopCheck generated then
          .done ({ exit := .stopString, reason := .stop, generated }, st.sent)
        else if !env.sends generated then
          .done ({ exit := .disconnected, reason := .stop, generated }, st.sent)
        else
          .more (draftSent req env loop.iteration next
            { loop := { iteration := loop.iteration + 1, generated, backend }
              sent := st.sent ++ [next] })

/-- The deltas one after another. -/
def deltas (sent : List Token) : List UInt8 := sent.flatMap fun tok => req.decode [tok]

end

variable {S : Type} {m : ModelWeights} {slot : BackendSlot} {r : ChatRequest S} {prefillStart : ℕ}

/-- What a stream ends with, and what the client got of it. -/
noncomputable def BackendSlot.stream (slot : BackendSlot) (r : ChatRequest S) :
    Option (Ended × List Token) :=
  let (prefillStart, slot) := slot.prepare r
  (run (sentStep r.request (r.env prefillStart)) (r.request.maxTokens + 1)
    { loop := { iteration := 0, generated := [], backend := (slot.backend, r.sampler) }
      sent := [] }).map fun (e, sent) => (e.withStops r.request.stopCheck, sent)

/-! ### The chunks do not change the loop -/

section

variable {σ : Type} (req : Request) (env : Candle σ)

theorem pushSent_pushStreamed (toks generated sent : List Token) :
    let pushed := pushSent req env toks generated sent
    pushStreamed req env toks generated = (pushed.1, pushed.2.1) := by
  induction toks generalizing generated sent with
  | nil => rfl
  | cons tok toks ih =>
    simp only [pushSent, pushStreamed]
    split_ifs
    · rfl
    · rfl
    · rfl
    · rfl
    · exact ih (generated ++ [tok]) (sent ++ [tok])

theorem draftSent_loop (iteration : Nat) (next : Token) (st : Streamed σ) :
    (draftSent req env iteration next st).loop = draftStreaming req env iteration next st.loop := by
  unfold draftSent draftStreaming
  dsimp only
  split_ifs with hspeculates
  · cases lookupDraft (req.prompt ++ st.loop.generated) (req.prompt ++ st.loop.generated) 2 5 with
    | none => rfl
    | some draft =>
      dsimp only
      rcases env.forwardAll (next :: draft) st.loop.backend with ⟨_ | choices, backend⟩
      · rfl
      · dsimp only
        rw [pushSent_pushStreamed req env _ _ st.sent]
        dsimp only
        split_ifs <;> rfl
  · rfl

theorem streamingStep_sentStep (st : Streamed σ) :
    streamingStep req env st.loop =
      match sentStep req env st with
      | .done a => .done a.1
      | .more st => .more st.loop := by
  unfold sentStep streamingStep
  by_cases hspent : req.maxTokens ≤ st.loop.generated.length
  · simp only [if_pos hspent]
  · by_cases hlate : env.expired st.loop.iteration = true
    · simp only [if_neg hspent, if_pos hlate]
    · simp only [if_neg hspent, if_neg hlate]
      cases env.draw (candleInput req env st.loop.generated) st.loop.backend with
      | none => rfl
      | some drawn =>
        dsimp only
        split_ifs
        · rfl
        · rfl
        · rfl
        · rfl
        · refine congrArg Step.more ?_
          exact (draftSent_loop req env _ _ { loop := _, sent := st.sent ++ [drawn.1] }).symm

end

theorem stream_fst (slot : BackendSlot) (r : ChatRequest S) :
    (slot.stream r).map Prod.fst =
      (chatStream r.request (r.env (slot.prepare r).1)
        ((slot.prepare r).2.backend, r.sampler)) := by
  have hrun : Option.Rel (fun a b => a.1 = b)
      (run (sentStep r.request (r.env (slot.prepare r).1)) (r.request.maxTokens + 1)
        { loop := { iteration := 0
                    generated := []
                    backend := ((slot.prepare r).2.backend, r.sampler) }
          sent := [] })
      (run (streamingStep r.request (r.env (slot.prepare r).1)) (r.request.maxTokens + 1)
        { iteration := 0, generated := [], backend := ((slot.prepare r).2.backend, r.sampler) }) := by
    refine run_related (R := fun st loop => st.loop = loop) (fun st loop hst => ?_) _ rfl
    subst hst
    rw [streamingStep_sentStep]
    cases sentStep r.request (r.env (slot.prepare r).1) st with
    | done a => exact .inl ⟨a, a.1, rfl, rfl, rfl⟩
    | more st' => exact .inr ⟨st', st'.loop, rfl, rfl, rfl⟩
  unfold BackendSlot.stream chatStream
  dsimp only
  generalize run (sentStep r.request (r.env (slot.prepare r).1)) _ _ = streamed at hrun ⊢
  generalize run (streamingStep r.request (r.env (slot.prepare r).1)) _ _ = served at hrun ⊢
  cases hrun with
  | none => rfl
  | some hsame => exact congrArg some (congrArg (Ended.withStops _) hsame)

/-! ### A plain stream beside a plain reply -/

/-- The same request on either lane. -/
def ChatRequest.onLane (r : ChatRequest S) (streaming : Bool) : ChatRequest S :=
  { r with streaming }

section

variable (r : ChatRequest S) (streaming : Bool)

@[simp]
theorem onLane_request : (r.onLane streaming).request = r.request := rfl

@[simp]
theorem onLane_streaming : (r.onLane streaming).streaming = streaming := rfl

@[simp]
theorem onLane_expired : (r.onLane streaming).expired = r.expired := rfl

@[simp]
theorem onLane_sends : (r.onLane streaming).sends = r.sends := rfl

end

theorem sentStep_eq (hplain : Plain r) (hclient : ∀ generated, r.sends generated = true)
    (prefillStart : ℕ) (st : Streamed (Backend × S)) :
    (∀ e, ends (r.onLane true) st.loop ((drawn r prefillStart st.loop).map Prod.fst) = some e →
      sentStep r.request (r.env prefillStart) st = .done (e, st.sent)) ∧
    (ends (r.onLane true) st.loop ((drawn r prefillStart st.loop).map Prod.fst) = none →
      ∃ next backend, drawn r prefillStart st.loop = some (next, backend) ∧
        sentStep r.request (r.env prefillStart) st =
          .more { loop := { iteration := st.loop.iteration + 1
                            generated := st.loop.generated ++ [next]
                            backend }
                  sent := st.sent ++ [next] }) := by
  have hdraft (i : ℕ) (next : Token) (st : Streamed (Backend × S)) :
      draftSent r.request (r.env prefillStart) i next st = st := by
    simp [draftSent, ChatRequest.env, hplain i]
  have hexpired : (r.env prefillStart).expired = r.expired := rfl
  have hearly : (r.env prefillStart).earlyExit = false := rfl
  have hsends : ∀ generated, (r.env prefillStart).sends generated = true := hclient
  have hdraw : (r.env prefillStart).draw
      (candleInput r.request (r.env prefillStart) st.loop.generated) st.loop.backend =
        drawn r prefillStart st.loop := rfl
  have hspent : (r.onLane true).spent st.loop ↔ r.request.maxTokens ≤ st.loop.generated.length := by
    simp [ChatRequest.spent]
  unfold ends
  simp only [hspent, onLane_request, onLane_expired, onLane_sends, hclient, Bool.not_true,
    Bool.and_false, Bool.false_eq_true, if_false, sentStep, hexpired, hearly, hsends, hdraw, hdraft]
  split_ifs with hspent hlate
  · simp
  · simp
  · cases drawn r prefillStart st.loop with
    | none => simp
    | some next =>
      simp only [Option.map_some]
      split_ifs
      · simp
      · simp
      · exact ⟨fun _ => id, fun _ => ⟨next.1, next.2, rfl, rfl⟩⟩

/-- A reply ends with what it has, or with the token that completes a stop string. -/
theorem ends_reply {loop : CandleLoop (Backend × S)} {drawn : Option Token} {e : Ended}
    (hend : ends (r.onLane false) loop drawn = some e) :
    (e.exit ≠ .stopString → loop.generated = e.generated) ∧
      (e.exit = .stopString → ∃ next, e.generated = loop.generated ++ [next] ∧
        r.request.stopCheck e.generated = true) := by
  unfold ends at hend
  simp only [onLane_streaming, Bool.false_and, Bool.false_eq_true, if_false] at hend
  split_ifs at hend
  · cases hend
    exact ⟨fun _ => rfl, nofun⟩
  · cases hend
    exact ⟨fun _ => rfl, nofun⟩
  · cases drawn with
    | none =>
      cases hend
      exact ⟨fun _ => rfl, nofun⟩
    | some next =>
      dsimp only at hend
      split_ifs at hend with hstop hstring
      · cases hend
        exact ⟨fun _ => rfl, nofun⟩
      · cases hend
        exact ⟨fun h => absurd rfl h, fun _ => ⟨next, rfl, hstring⟩⟩

theorem ends_more {loop : CandleLoop (Backend × S)} {next : Token}
    (hend : ends r loop (some next) = none) :
    r.request.stopCheck (loop.generated ++ [next]) = false := by
  unfold ends at hend
  dsimp only at hend
  split_ifs at hend with _ _ _ hstring
  exact Bool.eq_false_iff.mpr hstring

/-- No check of the tokens so far has found a stop string. -/
def Quiet (req : Request) (generated : List Token) : Prop :=
  ∀ n, 0 < n → n ≤ generated.length → req.stopCheck (generated.take n) = false

theorem Quiet.push {req : Request} {generated : List Token} {next : Token}
    (hquiet : Quiet req generated) (hcheck : req.stopCheck (generated ++ [next]) = false) :
    Quiet req (generated ++ [next]) := by
  intro n hpos hn
  rw [List.length_append, List.length_singleton] at hn
  rcases Nat.lt_or_ge generated.length n with hlast | hbefore
  · obtain rfl : n = generated.length + 1 := by omega
    rwa [List.take_of_length_le (by simp)]
  · rw [List.take_append_of_le_length hbefore]
    exact hquiet n hpos hbefore

/-- A stream and a reply of one request, at the same tokens. -/
structure Paired (m : ModelWeights) (r : ChatRequest S) (s₁ s₂ : ℕ) (st : Streamed (Backend × S))
    (loop : CandleLoop (Backend × S)) : Prop where
  same : Same m r s₁ s₂ st.loop loop
  sent : st.sent = loop.generated
  iteration : loop.iteration = loop.generated.length
  quiet : Quiet r.request loop.generated

/-- Both end in the same way. All is sent but a token that completes a stop string. -/
structure PairedEnd (r : ChatRequest S) (a : Ended × List Token) (b : Ended) : Prop where
  same : a.1 = b
  quiet : Quiet r.request a.2
  sent : b.exit ≠ .stopString → a.2 = b.generated
  held : b.exit = .stopString → ∃ next, b.generated = a.2 ++ [next] ∧
    r.request.stopCheck b.generated = true

theorem Paired.step (huniform : m.Uniform) (hplain : Plain r)
    (hclient : ∀ generated, r.sends generated = true) {s₁ s₂ : ℕ} {st : Streamed (Backend × S)}
    {loop : CandleLoop (Backend × S)} (hpaired : Paired m r s₁ s₂ st loop) :
    (∃ a b, sentStep r.request (r.env s₁) st = .done a ∧
        (r.onLane false).step s₂ loop = .done b ∧ PairedEnd r a b) ∨
      ∃ st' loop', sentStep r.request (r.env s₁) st = .more st' ∧
        (r.onLane false).step s₂ loop = .more loop' ∧ Paired m r s₁ s₂ st' loop' := by
  obtain ⟨⟨hleft, hright, hiteration, hgenerated, hsampler⟩, hsent, hlength, hquiet⟩ := hpaired
  have hdrawn : (CandleSlot.drawn r s₁ st.loop).map Prod.fst =
      (CandleSlot.drawn r s₂ loop).map Prod.fst := by
    obtain ⟨hok₁, hrefused₁⟩ := hleft.drawn huniform
    obtain ⟨hok₂, hrefused₂⟩ := hright.drawn huniform
    by_cases hanswerable : Answerable m (r.request.prompt ++ loop.generated)
    · obtain ⟨b₁, -, h₁⟩ := hok₁ (hgenerated ▸ hanswerable)
      obtain ⟨b₂, -, h₂⟩ := hok₂ hanswerable
      rw [h₁, h₂, hgenerated, hsampler]
      rfl
    · rw [hrefused₁ (hgenerated ▸ hanswerable), hrefused₂ hanswerable]
  have hends : ends (r.onLane true) st.loop ((CandleSlot.drawn r s₁ st.loop).map Prod.fst) =
      ends (r.onLane false) loop ((CandleSlot.drawn r s₂ loop).map Prod.fst) := by
    have hspent : (r.onLane true).spent st.loop ↔ (r.onLane false).spent loop := by
      simp [ChatRequest.spent, hgenerated, hlength]
    unfold ends
    simp only [hspent, hdrawn, hgenerated, hiteration, onLane_request, onLane_expired, onLane_sends,
      hclient, Bool.not_true, Bool.and_false]
  obtain ⟨hdone₁, hmore₁⟩ := sentStep_eq hplain hclient s₁ st
  obtain ⟨hdone₂, hmore₂⟩ := step_eq (r := r.onLane false) hplain s₂ loop
  cases hend : ends (r.onLane false) loop ((CandleSlot.drawn r s₂ loop).map Prod.fst) with
  | some e =>
    obtain ⟨hother, hstring⟩ := ends_reply hend
    rw [← hsent] at hother hstring hquiet
    exact .inl ⟨_, e, hdone₁ e (hends ▸ hend), hdone₂ e hend, rfl, hquiet, hother, hstring⟩
  | none =>
    obtain ⟨next₁, b₁, hnext₁, hstep₁⟩ := hmore₁ (hends ▸ hend)
    obtain ⟨next₂, b₂, hnext₂, hstep₂⟩ := hmore₂ hend
    obtain ⟨hat₁, hsample₁⟩ := hleft.more huniform hnext₁
    obtain ⟨hat₂, hsample₂⟩ := At.more huniform hright hnext₂
    rw [hgenerated, hsampler, ← hsample₂, Prod.mk.injEq] at hsample₁
    obtain ⟨rfl, hsampler'⟩ := hsample₁
    have hcheck : r.request.stopCheck (loop.generated ++ [next₁]) = false := by
      refine ends_more (r := r.onLane false) ?_
      have hdrawn₂ : (CandleSlot.drawn r s₂ loop).map Prod.fst = some next₁ :=
        congrArg (Option.map Prod.fst) hnext₂
      rw [← hdrawn₂, hend]
    refine .inr ⟨_, _, hstep₁, hstep₂, ⟨hat₁, hat₂, ?_, ?_, hsampler'⟩, ?_, ?_, ?_⟩
    · exact congrArg (· + 1) hiteration
    · exact congrArg (· ++ [next₁]) hgenerated
    · exact congrArg (· ++ [next₁]) hsent
    · rw [hlength, List.length_append, List.length_singleton]
    · exact hquiet.push hcheck

/-! ### Texts -/

section

variable {req : Request} {tokens : List Token}

theorem deltas_eq (hjoins : Joins req.decode tokens) (sent : List Token) :
    deltas req sent = req.decode sent := by
  induction sent with
  | nil => exact hjoins.nil.symm
  | cons tok sent ih =>
    rw [deltas, List.flatMap_cons, ← deltas, ih, ← hjoins.append, List.singleton_append]

/-- Quiet tokens have no stop string, where each check sees as far back as the longest goes. -/
theorem Quiet.clean (hquiet : Quiet req tokens) (hjoins : Joins req.decode tokens)
    (hwindow : ∀ s ∈ req.ctrl.stops, 6 + s.length ≤ req.ctrl.windowTokens)
    (hstops : ∀ s ∈ req.ctrl.stops, s ≠ []) : req.ctrl.stopHitIn (req.decode tokens) = false := by
  have hall : ∀ n ≤ tokens.length, req.ctrl.stopHitIn (req.decode (tokens.take n)) = false := by
    intro n
    induction n with
    | zero =>
      intro _
      rw [List.take_zero, hjoins.nil, ← Bool.not_eq_true, stopHitIn_eq_true_iff]
      rintro ⟨s, hs, hinside⟩
      exact hstops s hs (List.infix_nil.mp hinside)
    | succ n ih =>
      intro hn
      by_contra hhit
      have hfires := hjoins.fires_next hwindow (Nat.le_succ n) (by omega)
        (ih (Nat.le_of_succ_le hn)) (Bool.not_eq_false _ ▸ hhit)
      obtain ⟨s, hs, -⟩ := stopHitIn_eq_true_iff.mp hfires
      have hcheck := hquiet (n + 1) (Nat.succ_pos n) hn
      have hsome : req.ctrl.stops.isEmpty = false :=
        List.isEmpty_eq_false_iff.mpr (List.ne_nil_of_mem hs)
      rw [Request.stopCheck, hsome, Bool.not_false, Bool.true_and] at hcheck
      exact Bool.false_ne_true (hcheck.symm.trans hfires)
  have hlast := hall tokens.length le_rfl
  rwa [List.take_length] at hlast

theorem truncateAtStop_clean {ctrl : DecodeControl} {text : List UInt8}
    (hclean : ctrl.stopHitIn text = false) : ctrl.truncateAtStop text = (false, text) := by
  have hnone : ∀ s ∈ ctrl.stops, find s text = none := by
    intro s hs
    rw [← Option.not_isSome_iff_eq_none, ← contains, contains_eq_true_iff]
    intro hinside
    exact Bool.false_ne_true (hclean.symm.trans (stopHitIn_eq_true_iff.mpr ⟨s, hs, hinside⟩))
  obtain ⟨hfrom, -⟩ := foldl_cut ctrl.stops text none
  rw [DecodeControl.truncateAtStop]
  generalize ctrl.stops.foldl _ none = cut at hfrom
  cases cut with
  | none => rfl
  | some c =>
    rcases hfrom c rfl with hstart | ⟨s, hs, hfind⟩
    · cases hstart
    · rw [hnone s hs] at hfind
      cases hfind

/-- A text is cut at a place that something follows exactly if a stop string starts there and none
before. -/
theorem truncateAtStop_eq_iff {ctrl : DecodeControl} (hstops : ∀ s ∈ ctrl.stops, s ≠ [])
    {before after : List UInt8} (hafter : after ≠ []) :
    (ctrl.truncateAtStop (before ++ after)).2 = before ↔
      StartsAt ctrl (before ++ after) before.length ∧
        ∀ i < before.length, ¬ StartsAt ctrl (before ++ after) i := by
  obtain ⟨hbegins, hbefore, -, hlongest⟩ := trimmed_truncateAtStop hstops (before ++ after)
  constructor
  · intro hcut
    rw [hcut] at hbefore hlongest
    refine ⟨?_, fun i hi hstarts => absurd (hbefore i hstarts) (not_le.mpr hi)⟩
    by_contra hnot
    have hlong := hlongest ((before ++ after).take (before.length + 1)) (List.take_prefix _ _) ?_
    · have hpos := List.length_pos_iff.mpr hafter
      rw [List.length_take, List.length_append] at hlong
      omega
    · intro i hstarts
      have hle := hbefore i hstarts
      have hne : i ≠ before.length := fun h => hnot (h ▸ hstarts)
      rw [List.length_take]
      omega
  · rintro ⟨hstarts, hnone⟩
    have hle := hbefore _ hstarts
    have hge := hlongest before (List.prefix_append before after)
      fun i hi => not_lt.mp fun hlt => hnone i hlt hi
    obtain ⟨rest, hrest⟩ := hbegins
    exact (List.append_inj hrest (Nat.le_antisymm hle hge)).1

/-- A window of a clean text is clean. -/
theorem stopCheck_clean (hjoins : Joins req.decode tokens)
    (hclean : req.ctrl.stopHitIn (req.decode tokens) = false) : req.stopCheck tokens = false := by
  rw [Request.stopCheck, Bool.and_eq_false_imp]
  intro _
  by_contra hhit
  obtain ⟨s, hs, hinside⟩ := stopHitIn_eq_true_iff.mp (Bool.not_eq_false _ ▸ hhit)
  have hsplit : req.decode tokens =
      req.decode (tokens.take (tokens.length - req.ctrl.windowTokens)) ++
        stopWindowText req.decode tokens req.ctrl.windowTokens := by
    rw [stopWindowText, ← hjoins.append, List.take_append_drop]
  have hwhole : s <:+: req.decode tokens := by
    rw [hsplit]
    exact hinside.trans (List.suffix_append _ _).isInfix
  exact Bool.false_ne_true (hclean.symm.trans (stopHitIn_eq_true_iff.mpr ⟨s, hs, hwhole⟩))

end

/-- A stop string starts with the last token, and none before. -/
def EndsAtToken (req : Request) (generated : List Token) : Prop :=
  let before := (req.decode generated.dropLast).length
  StartsAt req.ctrl (req.decode generated) before ∧
    ∀ i < before, ¬ StartsAt req.ctrl (req.decode generated) i

/-- What the client of the stream read is the text of the reply, unless a stop string ended both and
did not start with the last token. -/
theorem PairedEnd.texts {a : Ended × List Token} {b : Ended} (hend : PairedEnd r a b)
    (hstops : ∀ s ∈ r.request.ctrl.stops, s ≠ [])
    (hwindow : ∀ s ∈ r.request.ctrl.stops, 6 + s.length ≤ r.request.ctrl.windowTokens)
    (hjoins : Joins r.request.decode b.generated) :
    a.1.withStops r.request.stopCheck = b ∧ b.withStops r.request.cutsText = b ∧
      (deltas r.request a.2 =
          (r.request.ctrl.truncateAtStop (r.request.decode b.generated)).2 ↔
        (b.exit = .stopString → EndsAtToken r.request b.generated)) := by
  obtain ⟨hsame, hquiet, hsent, hheld⟩ := hend
  have hsubset : a.2 ⊆ b.generated := by
    by_cases hstring : b.exit = .stopString
    · obtain ⟨next, hgenerated, -⟩ := hheld hstring
      rw [hgenerated]
      exact List.subset_append_left _ _
    · rw [hsent hstring]
      exact List.Subset.refl _
  have hjoins' : Joins r.request.decode a.2 :=
    ⟨hjoins.append, fun tok htok => hjoins.nonempty tok (hsubset htok)⟩
  have hclean := hquiet.clean hjoins' hwindow hstops
  rw [deltas_eq hjoins, hsame]
  by_cases hstring : b.exit = .stopString
  · obtain ⟨next, hgenerated, hcheck⟩ := hheld hstring
    have hother : ∀ stopped, b.withStops stopped = b := by
      intro stopped
      exact if_neg fun h => by rw [hstring] at h; cases h.1
    refine ⟨hother _, hother _, ?_⟩
    have hnext : r.request.decode [next] ≠ [] := by
      apply hjoins.nonempty next
      rw [hgenerated]
      exact List.mem_append_right _ (List.mem_singleton_self next)
    rw [EndsAtToken, hgenerated, List.dropLast_concat, hjoins.append, eq_comm,
      truncateAtStop_eq_iff hstops hnext]
    exact ⟨fun h _ => h, fun h => h hstring⟩
  · rw [← hsent hstring]
    refine ⟨if_neg fun h => ?_, if_neg fun h => ?_, ?_⟩
    · rw [← hsent hstring, stopCheck_clean hjoins' hclean] at h
      exact Bool.false_ne_true h.2
    · rw [← hsent hstring, Request.cutsText, truncateAtStop_clean hclean] at h
      exact Bool.false_ne_true h.2
    · rw [truncateAtStop_clean hclean]
      exact iff_of_true rfl fun h => absurd h hstring

end Zllm.CandleSlot

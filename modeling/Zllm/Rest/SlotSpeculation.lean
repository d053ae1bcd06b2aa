import Zllm.Engine.PldLoop
import Zllm.Rest.SlotRuns

/-!
# Prompt-lookup speculation on a slot

Where no stop falls into the greedy continuation within the budget, a speculating request commits
the greedy continuation, whichever iterations speculate. A stream ends at its budget. The blocking
lane counts iterations instead, so that it goes on behind its budget, from caches that may hold more
than it has committed.
-/

namespace Zllm.CandleSlot

open Zllm.Dense FinishReason Loop
open SpecDecode (Follows commonPrefix commonPrefix_le commonPrefix_shared follows_accepted)

variable {S : Type} {m : ModelWeights} {slot : BackendSlot} {r : ChatRequest S} {prefillStart : ℕ}

/-! ### The greedy continuation -/

/-- What the model chooses behind these tokens. -/
noncomputable def next (m : ModelWeights) (r : ChatRequest S) (all : List Token) : Token :=
  r.choice (m.logitsAt unhooked all)

noncomputable def greedy (m : ModelWeights) (r : ChatRequest S) : ℕ → List Token
  | 0 => []
  | k + 1 => greedy m r k ++ [next m r (r.request.prompt ++ greedy m r k)]

theorem greedy_length (m : ModelWeights) (r : ChatRequest S) (k : ℕ) :
    (greedy m r k).length = k := by
  induction k with
  | zero => rfl
  | succ k ih => rw [greedy, List.length_append, List.length_singleton, ih]

theorem greedy_begins {j k : ℕ} (hjk : j ≤ k) : greedy m r j <+: greedy m r k := by
  induction hjk with
  | refl => exact List.prefix_rfl
  | step _ ih => exact ih.trans (List.prefix_append _ _)

theorem greedy_take {j k : ℕ} (hjk : j ≤ k) : (greedy m r k).take j = greedy m r j := by
  rw [List.prefix_iff_eq_take.mp (greedy_begins hjk), greedy_length]

/-- Tokens that follow the greedy continuation go on with it. -/
theorem greedy_append {toks : List Token} {k : ℕ}
    (hfollows : Follows (next m r) (r.request.prompt ++ greedy m r k) toks) :
    greedy m r (k + toks.length) = greedy m r k ++ toks := by
  induction toks generalizing k with
  | nil => rw [List.length_nil, Nat.add_zero, List.append_nil]
  | cons tok toks ih =>
    obtain ⟨htok, hrest⟩ := hfollows
    have hone : greedy m r k ++ [tok] = greedy m r (k + 1) := by rw [htok, greedy]
    rw [List.append_assoc, hone] at hrest
    rw [List.length_cons, Nat.add_comm toks.length, ← Nat.add_assoc, ih hrest, ← hone,
      List.append_assoc, List.singleton_append]

/-- The greedy continuation is within the model, and nothing ends it before the budget does. -/
structure Unstopped (m : ModelWeights) (r : ChatRequest S) : Prop where
  prompt : r.request.prompt ≠ []
  known : ∀ t ∈ r.request.prompt ++ greedy m r r.request.maxTokens, t < m.vocabSize
  room : m.Room (r.request.prompt.length + r.request.maxTokens)
  /-- The sampler takes the largest logit. -/
  samples : ∀ k < r.request.maxTokens, ∀ s,
    (r.sample (m.logitsAt unhooked (r.request.prompt ++ greedy m r k)) s).1 =
      next m r (r.request.prompt ++ greedy m r k)
  tokens : ∀ t ∈ greedy m r r.request.maxTokens, r.request.stops t = false
  strings : ∀ k ≤ r.request.maxTokens, r.request.stopCheck (greedy m r k) = false
  time : ∀ i, r.expired i = false
  client : ∀ k ≤ r.request.maxTokens, r.sends (greedy m r k) = true

theorem Unstopped.answerable (hopen : Unstopped m r) {k : ℕ} (hk : k ≤ r.request.maxTokens) :
    Answerable m (r.request.prompt ++ greedy m r k) := by
  refine ⟨List.append_ne_nil_of_left_ne_nil hopen.prompt _, fun t ht => hopen.known t ?_,
    fun w hw => ?_⟩
  · exact ((List.prefix_append_right_inj _).mpr (greedy_begins hk)).subset ht
  · rw [List.length_append, greedy_length]
    exact (Nat.add_le_add_left hk _).trans (hopen.room w hw)

theorem Unstopped.next_stops (hopen : Unstopped m r) {k : ℕ} (hk : k < r.request.maxTokens) :
    r.request.stops (next m r (r.request.prompt ++ greedy m r k)) = false := by
  refine hopen.tokens _ ((greedy_begins (Nat.succ_le_of_lt hk)).subset ?_)
  rw [greedy]
  exact List.mem_append_right _ (List.mem_singleton_self _)

/-- Between iterations the last token of the continuation is still to be forwarded. -/
theorem at_greedy (hopen : Unstopped m r) {k : ℕ} (hk : k ≤ r.request.maxTokens)
    {loop : CandleLoop (Backend × S)} (hgenerated : loop.generated = greedy m r (k + 1))
    (hholds : loop.backend.1.Holds m unhooked (r.request.prompt ++ greedy m r k)) :
    At m r prefillStart loop := by
  have hinput : candleInput r.request (r.env prefillStart) loop.generated =
      [next m r (r.request.prompt ++ greedy m r k)] := by
    rw [hgenerated, greedy]
    simp [candleInput]
  refine ⟨_, hholds, (hopen.answerable hk).2, ?_, fun _ => ?_⟩
  · rw [hinput, hgenerated, greedy, List.append_assoc]
  · rw [hinput]
    exact List.cons_ne_nil _ _

/-! ### Drafts -/

theorem verifyDrafts_eq (last : Token) {draft choices : List Token}
    (hlen : choices.length = draft.length + 1) :
    verifyDrafts last draft choices =
      (commonPrefix choices draft, choices.getD (commonPrefix choices draft) 0) := by
  induction draft generalizing last choices with
  | nil =>
    obtain ⟨choice, rfl⟩ := List.length_eq_one_iff.mp hlen
    rfl
  | cons tok draft ih =>
    cases choices with
    | nil => cases hlen
    | cons choice choices =>
      have hlen' : choices.length = draft.length + 1 := Nat.succ.inj hlen
      rw [verifyDrafts, commonPrefix]
      split_ifs with hsame
      · rw [ih choice hlen', List.getD_cons_succ]
      · rfl

/-- The choices up to the first that leaves the draft go on with the greedy continuation. -/
theorem accepted_greedy (k : ℕ) (draft : List Token) :
    ∃ accepted ≤ draft.length,
      verifyDrafts 0 draft ((List.range (draft.length + 1)).map fun i =>
        next m r (r.request.prompt ++ greedy m r k ++ draft.take i)) =
          (accepted, next m r (r.request.prompt ++ greedy m r (k + accepted))) ∧
      greedy m r (k + accepted) = greedy m r k ++ draft.take accepted := by
  set choices := (List.range (draft.length + 1)).map fun i =>
    next m r (r.request.prompt ++ greedy m r k ++ draft.take i) with hchoices
  have hlen : choices.length = draft.length + 1 := by simp [hchoices]
  set accepted := commonPrefix choices draft
  have hle : accepted ≤ draft.length := commonPrefix_le choices draft
  have hall : greedy m r (k + (accepted + 1)) = greedy m r k ++ choices.take (accepted + 1) := by
    have hfollows := follows_accepted (next m r) (r.request.prompt ++ greedy m r k) draft
    have happend := greedy_append hfollows
    rwa [List.length_take, ← hchoices, hlen, min_eq_left (by omega)] at happend
  have hkept : greedy m r (k + accepted) = greedy m r k ++ draft.take accepted := by
    calc greedy m r (k + accepted)
        = (greedy m r (k + (accepted + 1))).take (k + accepted) :=
          (greedy_take (Nat.add_le_add_left (Nat.le_succ accepted) k)).symm
      _ = greedy m r k ++ (choices.take (accepted + 1)).take accepted := by
          rw [hall, List.take_append, greedy_length, Nat.add_sub_cancel_left,
            List.take_of_length_le (by rw [greedy_length]; omega)]
      _ = greedy m r k ++ draft.take accepted := by
          rw [List.take_take, min_eq_left (Nat.le_succ accepted)]
          exact congrArg _ (commonPrefix_shared choices draft).symm
  refine ⟨accepted, hle, ?_, hkept⟩
  have hbonus : choices.getD accepted 0 =
      next m r (r.request.prompt ++ greedy m r k ++ draft.take accepted) := by
    rw [List.getD_eq_getElem _ _ (by omega)]
    simp [hchoices]
  rw [verifyDrafts_eq 0 hlen, hkept, ← List.append_assoc, ← hbonus]

/-- A batched forward of a pushed token and a draft is refused, or is cut to where it follows the
greedy continuation. -/
theorem forwardAll_greedy (prefillStart : ℕ) (huniform : m.Uniform) {k : ℕ} {backend : Backend}
    (sampler : S)
    (hholds : backend.Holds m unhooked (r.request.prompt ++ greedy m r k)) (draft : List Token) :
    let input := next m r (r.request.prompt ++ greedy m r k) :: draft
    let env := r.env prefillStart
    (∃ backend', env.forwardAll input (backend, sampler) = (none, (backend', sampler)) ∧
      backend'.Holds m unhooked (r.request.prompt ++ greedy m r k)) ∨
    ∃ choices backend' accepted,
      env.forwardAll input (backend, sampler) = (some choices, (backend', sampler)) ∧
      verifyDrafts 0 draft choices =
        (accepted, next m r (r.request.prompt ++ greedy m r (k + 1 + accepted))) ∧
      greedy m r (k + 1 + accepted) = greedy m r (k + 1) ++ draft.take accepted ∧
      (env.keep (backend, sampler) accepted (backend', sampler)).1.Holds m unhooked
        (r.request.prompt ++ greedy m r (k + 1 + accepted)) := by
  intro input env
  have hall : r.request.prompt ++ greedy m r k ++ input =
      r.request.prompt ++ greedy m r (k + 1) ++ draft := by
    rw [greedy]
    simp [input]
  by_cases htakes : m.Takes (r.request.prompt ++ greedy m r k) input
  · right
    obtain ⟨hrows, hafter⟩ := hholds.forwardAllLogits (fun _ _ => rfl) htakes.1 htakes.2
    have hlen : input.length = draft.length + 1 := rfl
    obtain ⟨accepted, hle, hverify, hkept⟩ := accepted_greedy (m := m) (r := r) (k + 1) draft
    refine ⟨_, (backend.forwardAllLogits input).2, accepted, ?_, hverify, hkept, ?_⟩
    · have hchoices : ((List.range input.length).map fun i => m.logitsAt unhooked
          (r.request.prompt ++ greedy m r k ++ input.take (i + 1))).map r.choice =
          (List.range (draft.length + 1)).map fun i =>
            next m r (r.request.prompt ++ greedy m r (k + 1) ++ draft.take i) := by
        rw [List.map_map, hlen]
        refine List.map_congr_left fun i _ => ?_
        show next m r (r.request.prompt ++ greedy m r k ++ (_ :: draft.take i)) = _
        rw [greedy, ← List.append_assoc, List.append_assoc _ [_], List.singleton_append]
      rw [← hchoices]
      exact ChatRequest.forwardAll_ok hrows
    · rw [hall] at hafter
      have hcut : (r.request.prompt ++ greedy m r (k + 1) ++ draft).take
          (backend.indexPos + 1 + accepted) =
            r.request.prompt ++ greedy m r (k + 1 + accepted) := by
        rw [hholds.indexPos, hkept, ← List.append_assoc, List.take_append]
        have hlong : (r.request.prompt ++ greedy m r k).length + 1 =
            (r.request.prompt ++ greedy m r (k + 1)).length := by
          rw [List.length_append, List.length_append, greedy_length, greedy_length]
          rfl
        rw [hlong, Nat.add_sub_cancel_left, List.take_of_length_le (Nat.le_add_right _ _)]
      rw [← hcut]
      refine hafter.truncateTo ?_
      rw [hholds.indexPos]
      simp only [List.length_append, greedy_length]
      omega
  · left
    obtain ⟨e, herror, hafter⟩ := hholds.forwardAllLogits_refused huniform htakes
    exact ⟨(backend.forwardAllLogits input).2, ChatRequest.forwardAll_error herror, hafter⟩

/-! ### Commits -/

theorem greedy_cons {tok : Token} {toks : List Token} {j : ℕ}
    (hall : greedy m r (j + (tok :: toks).length) = greedy m r j ++ tok :: toks) :
    greedy m r j ++ [tok] = greedy m r (j + 1) ∧
      greedy m r (j + 1 + toks.length) = greedy m r (j + 1) ++ toks := by
  have hone : greedy m r j ++ [tok] = greedy m r (j + 1) := by
    have hlong : j + 1 ≤ j + (tok :: toks).length := by
      rw [List.length_cons]
      omega
    rw [← greedy_take hlong, hall, List.take_append, greedy_length, Nat.add_sub_cancel_left,
      List.take_of_length_le (by rw [greedy_length]; omega)]
    rfl
  refine ⟨hone, ?_⟩
  rw [Nat.add_assoc, Nat.add_comm 1, ← List.length_cons, hall, ← hone, List.append_assoc]
  rfl

theorem Unstopped.stops_of_cons (hopen : Unstopped m r) {tok : Token} {j : ℕ}
    (hj : j < r.request.maxTokens) (hone : greedy m r j ++ [tok] = greedy m r (j + 1)) :
    r.request.stops tok = false := by
  refine hopen.tokens tok ((greedy_begins (Nat.succ_le_of_lt hj)).subset ?_)
  rw [← hone]
  exact List.mem_append_right _ (List.mem_singleton_self tok)

theorem pushCommitted_greedy (hopen : Unstopped m r) {toks : List Token} {j : ℕ}
    (hj : j < r.request.maxTokens)
    (hall : greedy m r (j + toks.length) = greedy m r j ++ toks) :
    r.request.pushCommitted toks (greedy m r j) =
      (false, greedy m r (min (j + toks.length) r.request.maxTokens)) := by
  induction toks generalizing j with
  | nil => rw [List.length_nil, Nat.add_zero, min_eq_left hj.le, Request.pushCommitted]
  | cons tok toks ih =>
    obtain ⟨hone, hrest⟩ := greedy_cons hall
    have hstop : ¬ r.request.stops tok = true := by simp [hopen.stops_of_cons hj hone]
    rw [Request.pushCommitted, if_neg hstop, hone, greedy_length]
    split_ifs with hspent
    · rw [min_eq_right (by rw [List.length_cons]; omega), Nat.le_antisymm hspent hj]
    · rw [ih (not_le.mp hspent) hrest, List.length_cons, Nat.add_right_comm, Nat.add_assoc]

theorem pushStreamed_greedy (hopen : Unstopped m r) {toks : List Token} {j : ℕ}
    (hj : j < r.request.maxTokens)
    (hall : greedy m r (j + toks.length) = greedy m r j ++ toks) :
    pushStreamed r.request (r.env prefillStart) toks (greedy m r j) =
      (false, greedy m r (min (j + toks.length) r.request.maxTokens)) := by
  induction toks generalizing j with
  | nil => rw [List.length_nil, Nat.add_zero, min_eq_left hj.le, pushStreamed]
  | cons tok toks ih =>
    obtain ⟨hone, hrest⟩ := greedy_cons hall
    have hstop : ¬ r.request.stops tok = true := by simp [hopen.stops_of_cons hj hone]
    have hstring : ¬ r.request.stopCheck (greedy m r (j + 1)) = true := by
      simp [hopen.strings _ (Nat.succ_le_of_lt hj)]
    have hsent : (r.env prefillStart).sends (greedy m r (j + 1)) = true :=
      hopen.client _ (Nat.succ_le_of_lt hj)
    rw [pushStreamed, if_neg hstop, hone, if_neg hstring, hsent, if_neg (by decide), greedy_length]
    split_ifs with hspent
    · rw [min_eq_right (by rw [List.length_cons]; omega), Nat.le_antisymm hspent hj]
    · rw [ih (not_le.mp hspent) hrest, List.length_cons, Nat.add_right_comm, Nat.add_assoc]

/-! ### An iteration -/

/-- The loop has committed the greedy continuation so far, and is ready for the rest of it unless
the budget is spent. -/
def Following (m : ModelWeights) (r : ChatRequest S) (prefillStart : ℕ)
    (loop : CandleLoop (Backend × S)) : Prop :=
  ∃ k ≤ r.request.maxTokens, loop.generated = greedy m r k ∧ loop.iteration ≤ k ∧
    (0 < k → 0 < loop.iteration) ∧ (Plain r → loop.iteration = k) ∧
    (At m r prefillStart loop ∨ k = r.request.maxTokens)

/-- The token behind an accepted draft, where the budget allows it. -/
theorem following_bonus (hopen : Unstopped m r) (hplain : ¬ Plain r) {k i : ℕ}
    (hk : k ≤ r.request.maxTokens) (hi : i < k) {backend : Backend × S}
    {j : ℕ} (hj : k = min j r.request.maxTokens)
    (hholds : backend.1.Holds m unhooked (r.request.prompt ++ greedy m r j)) (early : Bool)
    (hearly : early = false) :
    Following m r prefillStart
      (if !early && !r.request.stops (next m r (r.request.prompt ++ greedy m r j)) &&
          decide ((greedy m r k).length < r.request.maxTokens) then
        { iteration := i + 1
          generated := greedy m r k ++ [next m r (r.request.prompt ++ greedy m r j)]
          backend }
      else { iteration := i + 1, generated := greedy m r k, backend }) := by
  rw [greedy_length]
  by_cases hmore : k < r.request.maxTokens
  · obtain rfl : k = j := by omega
    rw [if_pos (by simp [hearly, hopen.next_stops hmore, hmore])]
    exact ⟨k + 1, hmore, rfl, Nat.succ_le_succ hi.le, fun _ => Nat.succ_pos i,
      fun h => absurd h hplain, .inl (at_greedy hopen hk rfl hholds)⟩
  · rw [if_neg (by simp [hmore])]
    exact ⟨k, hk, rfl, hi, fun _ => Nat.succ_pos i, fun h => absurd h hplain, .inr (by omega)⟩

theorem following_draft (prefillStart : ℕ) (hopen : Unstopped m r) (huniform : m.Uniform)
    {k i : ℕ} (hk : k < r.request.maxTokens) (hi : i ≤ k) (hsame : Plain r → i = k)
    {backend : Backend} (sampler : S) (hholds : backend.Holds m unhooked (r.request.prompt ++ greedy m r k)) :
    let env := r.env prefillStart
    let pushed : CandleLoop (Backend × S) :=
      { iteration := i + 1, generated := greedy m r (k + 1), backend := (backend, sampler) }
    let next := next m r (r.request.prompt ++ greedy m r k)
    Following m r prefillStart (draftBlocking r.request env i next pushed) ∧
      Following m r prefillStart (draftStreaming r.request env i next pushed) := by
  intro env pushed next
  have hplain {backend : Backend}
      (hholds : backend.Holds m unhooked (r.request.prompt ++ greedy m r k)) :
      Following m r prefillStart { pushed with backend := (backend, sampler) } :=
    ⟨k + 1, hk, rfl, Nat.succ_le_succ hi, fun _ => Nat.succ_pos i,
      fun h => congrArg Nat.succ (hsame h), .inl (at_greedy hopen hk.le rfl hholds)⟩
  unfold draftBlocking draftStreaming
  dsimp only
  by_cases hspeculates : env.pldOn i = true ∧ pushed.generated.length < r.request.maxTokens
  · rw [if_pos hspeculates, if_pos hspeculates]
    cases SpecDecode.lookupDraft (r.request.prompt ++ pushed.generated)
        (r.request.prompt ++ pushed.generated) 2 5 with
    | none => exact ⟨hplain hholds, hplain hholds⟩
    | some draft =>
      dsimp only
      rcases forwardAll_greedy prefillStart huniform sampler hholds draft with
        ⟨backend', hforward, hholds'⟩ | ⟨choices, backend', accepted, hforward, hverify, hkept,
          hholds'⟩
      · rw [hforward]
        exact ⟨hplain hholds', hplain hholds'⟩
      · have hbelow : k + 1 < r.request.maxTokens := by
          have := hspeculates.2
          rwa [show pushed.generated = greedy m r (k + 1) from rfl, greedy_length] at this
        have hlen : (draft.take accepted).length = accepted := by
          have := congrArg List.length hkept
          rw [List.length_append, greedy_length, greedy_length] at this
          omega
        have hall : greedy m r (k + 1 + (draft.take accepted).length) =
            greedy m r (k + 1) ++ draft.take accepted := by rw [hlen, hkept]
        have hcommitted := pushCommitted_greedy hopen hbelow hall
        have hstreamed : pushStreamed r.request env _ _ = _ := pushStreamed_greedy hopen hbelow hall
        rw [hlen] at hcommitted hstreamed
        have hstring : r.request.stopCheck
            (greedy m r (min (k + 1 + accepted) r.request.maxTokens)) = false :=
          hopen.strings _ (min_le_right _ _)
        have hlong : i < min (k + 1 + accepted) r.request.maxTokens := by omega
        have hnot : ¬ Plain r := fun h => by
          have := h i
          rw [show r.pldOn i = true from hspeculates.1] at this
          cases this
        rw [hforward]
        dsimp only
        rw [hverify]
        dsimp only
        rw [show pushed.generated = greedy m r (k + 1) from rfl, hcommitted, hstreamed]
        dsimp only
        exact ⟨following_bonus hopen hnot (min_le_right _ _) hlong rfl hholds' _ (by simp [hstring]),
          following_bonus hopen hnot (min_le_right _ _) hlong rfl hholds' _ rfl⟩
  · rw [if_neg hspeculates, if_neg hspeculates]
    exact ⟨hplain hholds, hplain hholds⟩

variable {loop : CandleLoop (Backend × S)}

/-- Below the budget either lane goes on. -/
theorem Following.step (prefillStart : ℕ) (hopen : Unstopped m r) (huniform : m.Uniform)
    (hloop : Following m r prefillStart loop)
    (hless : loop.generated.length < r.request.maxTokens) :
    ∃ loop', Following m r prefillStart loop' ∧ r.step prefillStart loop = .more loop' := by
  obtain ⟨k, hk, hgenerated, hiteration, -, hsame, hat⟩ := hloop
  rw [hgenerated, greedy_length] at hless
  have hat : At m r prefillStart loop := hat.resolve_right hless.ne
  obtain ⟨backend, hholds, hdrawn⟩ :=
    (hat.drawn huniform).1 (hgenerated ▸ hopen.answerable hless.le)
  rw [hgenerated] at hholds hdrawn
  rw [hopen.samples k hless] at hdrawn
  have hdraft := following_draft prefillStart hopen huniform hless hiteration
    hsame (r.sample (m.logitsAt unhooked (r.request.prompt ++ greedy m r k)) loop.backend.2).2 hholds
  have hpushed : loop.generated ++ [next m r (r.request.prompt ++ greedy m r k)] =
      greedy m r (k + 1) := by rw [hgenerated, greedy]
  have hstop := hopen.next_stops hless
  have hstring := hopen.strings (k + 1) hless
  have hexpired : (r.env prefillStart).expired = r.expired := rfl
  have hearly : (r.env prefillStart).earlyExit = false := rfl
  have hsent : (r.env prefillStart).sends (greedy m r (k + 1)) = true := hopen.client _ hless
  have hdraw : (r.env prefillStart).draw (candleInput r.request (r.env prefillStart) loop.generated)
      loop.backend = drawn r prefillStart loop := rfl
  unfold ChatRequest.step
  split_ifs
  · refine ⟨_, hdraft.2, ?_⟩
    have hspent : ¬ r.request.maxTokens ≤ loop.generated.length := by
      rw [hgenerated, greedy_length]
      omega
    rw [streamingStep, if_neg hspent, hexpired, hopen.time, hdraw, hdrawn]
    dsimp only
    rw [hpushed, hearly, hstop, hstring, hsent]
    simp
  · refine ⟨_, hdraft.1, ?_⟩
    have hspent : ¬ r.request.maxTokens ≤ loop.iteration := by omega
    rw [blockingStep, if_neg hspent, hexpired, hopen.time, hdraw, hdrawn]
    dsimp only
    rw [hpushed, hearly, hstop, hstring]
    simp

/-! ### Behind the budget -/

/-- The blocking lane is behind the greedy continuation. -/
structure Overrun (m : ModelWeights) (r : ChatRequest S) (loop : CandleLoop (Backend × S)) :
    Prop where
  take : loop.generated.take r.request.maxTokens = greedy m r r.request.maxTokens
  spent : r.request.maxTokens ≤ loop.generated.length
  length : loop.generated.length ≤ r.request.maxTokens + loop.iteration - 1
  iteration : loop.iteration ≤ r.request.maxTokens
  plain : Plain r → loop.iteration = r.request.maxTokens ∧
    loop.generated.length = r.request.maxTokens

/-- A continuation that begins with the greedy one. -/
structure Extends (m : ModelWeights) (r : ChatRequest S) (e : Ended) : Prop where
  take : e.generated.take r.request.maxTokens = greedy m r r.request.maxTokens
  length : e.generated.length ≤ 2 * r.request.maxTokens - 1
  plain : Plain r → e.generated.length = r.request.maxTokens
  streaming : r.streaming = true → e =
    { exit := .maxTokens, reason := .stop, generated := greedy m r r.request.maxTokens }

theorem Overrun.step (hopen : Unstopped m r) (hlane : r.streaming = false)
    (hloop : Overrun m r loop) :
    (∃ e, r.step prefillStart loop = .done e ∧ Extends m r e) ∨
      ∃ loop', r.step prefillStart loop = .more loop' ∧ Overrun m r loop' := by
  obtain ⟨htake, hspent, hlength, hiteration, hplain⟩ := hloop
  have hexpired : (r.env prefillStart).expired = r.expired := rfl
  have hearly : (r.env prefillStart).earlyExit = false := rfl
  have hstays : ∀ e : Ended, e.generated = loop.generated → Extends m r e := by
    intro e he
    refine ⟨by rw [he, htake], ?_, fun h => by rw [he, (hplain h).2], fun h => ?_⟩
    · rw [he]
      omega
    · rw [hlane] at h
      cases h
  have hstep : r.step prefillStart loop = blockingStep r.request (r.env prefillStart) loop := by
    rw [ChatRequest.step, hlane]
    rfl
  rw [hstep, blockingStep]
  by_cases hlast : r.request.maxTokens ≤ loop.iteration
  · rw [if_pos hlast]
    exact .inl ⟨_, rfl, hstays _ rfl⟩
  · rw [if_neg hlast, hexpired, hopen.time, if_neg Bool.false_ne_true]
    have hnot : ¬ Plain r := fun h => hlast (hplain h).1.ge
    have hmore : ∀ next, (loop.generated ++ [next]).take r.request.maxTokens =
        greedy m r r.request.maxTokens := by
      intro next
      rw [List.take_append_of_le_length hspent, htake]
    cases (r.env prefillStart).draw _ loop.backend with
    | none => exact .inl ⟨_, rfl, hstays _ rfl⟩
    | some drawn =>
      obtain ⟨next, backend⟩ := drawn
      dsimp only
      rw [hearly, Bool.and_false, if_neg Bool.false_ne_true]
      split_ifs with hstop hstring
      · exact .inl ⟨_, rfl, hstays _ rfl⟩
      · refine .inl ⟨_, rfl, hmore next, ?_, fun h => absurd h hnot, fun h => ?_⟩
        · rw [List.length_append, List.length_singleton]
          omega
        · rw [hlane] at h
          cases h
      · refine .inr ⟨_, rfl, ?_⟩
        have hspeculates : ¬ ((r.env prefillStart).pldOn loop.iteration = true ∧
            (loop.generated ++ [next]).length < r.request.maxTokens) := by
          rw [List.length_append]
          omega
        rw [draftBlocking, if_neg hspeculates]
        refine ⟨hmore next, ?_, ?_, ?_, fun h => absurd h hnot⟩
        all_goals
          simp only [List.length_append, List.length_singleton]
          omega

theorem Following.overrun (hloop : Following m r prefillStart loop)
    (hspent : r.request.maxTokens ≤ loop.generated.length) : Overrun m r loop := by
  obtain ⟨k, hk, hgenerated, hiteration, hstarted, hplain, -⟩ := hloop
  rw [hgenerated, greedy_length] at hspent
  obtain rfl : k = r.request.maxTokens := Nat.le_antisymm hk hspent
  have hlen : loop.generated.length = r.request.maxTokens := by rw [hgenerated, greedy_length]
  refine ⟨?_, hlen.ge, ?_, hiteration, fun h => ⟨hplain h, hlen⟩⟩
  · rw [hgenerated, greedy_take le_rfl]
  · rcases Nat.eq_zero_or_pos r.request.maxTokens with hzero | hpos
    · omega
    · have := hstarted hpos
      omega

/-- A stream ends where its budget is spent. -/
theorem Following.spent_streaming (hlane : r.streaming = true)
    (hloop : Following m r prefillStart loop)
    (hspent : r.request.maxTokens ≤ loop.generated.length) :
    ∃ e, r.step prefillStart loop = .done e ∧ Extends m r e := by
  have hoverrun := hloop.overrun hspent
  have hall : loop.generated = greedy m r r.request.maxTokens := by
    obtain ⟨k, hk, hgenerated, -⟩ := hloop
    rw [hgenerated, greedy_length] at hspent
    rw [hgenerated, Nat.le_antisymm hk hspent]
  refine ⟨{ exit := .maxTokens, reason := .stop, generated := loop.generated }, ?_, ?_⟩
  · rw [ChatRequest.step, hlane, if_pos rfl, streamingStep, if_pos hspent]
  · refine ⟨hoverrun.take, ?_, fun h => (hoverrun.plain h).2, fun _ => by rw [hall]⟩
    have hlength := hoverrun.length
    have hiteration := hoverrun.iteration
    dsimp only
    omega

/-- What holds between iterations of either lane. -/
def OnCourse (m : ModelWeights) (r : ChatRequest S) (prefillStart : ℕ)
    (loop : CandleLoop (Backend × S)) : Prop :=
  Following m r prefillStart loop ∨ r.streaming = false ∧ Overrun m r loop

theorem OnCourse.step (hopen : Unstopped m r) (huniform : m.Uniform)
    (hloop : OnCourse m r prefillStart loop) :
    (∃ e, r.step prefillStart loop = .done e ∧ Extends m r e) ∨
      ∃ loop', r.step prefillStart loop = .more loop' ∧ OnCourse m r prefillStart loop' := by
  have hbehind (hlane : r.streaming = false) (hoverrun : Overrun m r loop) :
      (∃ e, r.step prefillStart loop = .done e ∧ Extends m r e) ∨
        ∃ loop', r.step prefillStart loop = .more loop' ∧ OnCourse m r prefillStart loop' := by
    refine (hoverrun.step hopen hlane).imp_right ?_
    rintro ⟨loop', hmore, hloop'⟩
    exact ⟨loop', hmore, .inr ⟨hlane, hloop'⟩⟩
  rcases hloop with hfollowing | ⟨hlane, hoverrun⟩
  · by_cases hspent : r.request.maxTokens ≤ loop.generated.length
    · cases hlane : r.streaming with
      | true => exact .inl (hfollowing.spent_streaming hlane hspent)
      | false => exact hbehind hlane (hfollowing.overrun hspent)
    · obtain ⟨loop', hloop', hmore⟩ :=
        hfollowing.step prefillStart hopen huniform (not_le.mp hspent)
      exact .inr ⟨loop', hmore, .inl hloop'⟩
  · exact hbehind hlane hoverrun

/-! ### Whole requests -/

/-- The loop of either lane, from a prepared slot. -/
noncomputable def decode (r : ChatRequest S) (prefillStart : ℕ) (backend : Backend × S) :
    Option Ended :=
  run (r.step prefillStart) (r.request.maxTokens + 1) { iteration := 0, generated := [], backend }

end Zllm.CandleSlot

import Zllm.Engine.ReasoningZone

/-!
# What the reasoning budget bounds

Loops and confidence are checked before every loop. So is the memory, but a loop is charged for when
it is over: the cap holds where the charge divides it, or where the loops that a request completes
without a cap fit under it.
-/

namespace Zllm.Reasoning

namespace InferenceRunner

variable {B W ε : Type} {r : InferenceRunner B W ε} {p : Plan} {l l' start : LoopState B W}

/-! ### One loop -/

/-- A loop that completes was within the budget when it started, and is counted and charged. -/
theorem reasoningStep_more (hstep : r.reasoningStep p l = .more l') :
    l.loopIdx < p.nLoopsNeeded ∧ p.budget.shouldContinue l.state ∧ l'.loopIdx = l.loopIdx + 1 ∧
      l'.state.loopsUsed = l.state.loopsUsed + 1 ∧
      l'.state.memoryUsedMb = l.state.memoryUsedMb + p.memoryPerLoop := by
  unfold reasoningStep at hstep
  split_ifs at hstep with hgo
  split at hstep
  · cases hstep
  · cases hstep
  · cases hstep
    exact ⟨hgo.1, hgo.2, rfl, rfl, rfl⟩

theorem reasoningStep_done {reasoned : Reasoned B W}
    (hstep : r.reasoningStep p l = .done (.ok reasoned)) : reasoned.state = l.state := by
  unfold reasoningStep at hstep
  split_ifs at hstep with hgo
  · split at hstep <;> cases hstep
    rfl
  · cases hstep
    rfl

/-- The counts of a run that started from nothing. -/
structure Counted (p : Plan) (l : LoopState B W) : Prop where
  loopsUsed : l.state.loopsUsed = l.loopIdx
  memoryUsed : l.state.memoryUsedMb = l.loopIdx * p.memoryPerLoop
  within : l.loopIdx ≤ p.budget.maxLoops

theorem Counted.more (hl : Counted p l) (hstep : r.reasoningStep p l = .more l') :
    Counted p l' := by
  obtain ⟨-, ⟨hloops, -, -⟩, hidx, hused, hmemory⟩ := reasoningStep_more hstep
  rw [hl.loopsUsed] at hloops
  refine ⟨?_, ?_, ?_⟩
  · rw [hused, hidx, hl.loopsUsed]
  · rw [hmemory, hidx, hl.memoryUsed, Nat.succ_mul]
  · omega

theorem Counted.reaches (hstart : Counted p start)
    (hreach : Loop.Reaches (r.reasoningStep p) start l) : Counted p l := by
  induction hreach with
  | refl => exact hstart
  | tail _ hstep ih => exact ih.more hstep

theorem loopIdx_le (hreach : Loop.Reaches (r.reasoningStep p) l l') : l.loopIdx ≤ l'.loopIdx := by
  induction hreach with
  | refl => exact le_rfl
  | tail _ hstep ih => exact ih.trans ((reasoningStep_more hstep).2.2.1 ▸ Nat.le_succ _)

/-! ### The run -/

variable {b : B} {world : W} {promptTokens : List ℕ} {maxTokens : ℕ} {budget : ReasoningBudget}
  {requestId : String} {result : GenerationResult}

theorem encode_counted
    (hencode : r.encode b world promptTokens budget requestId = .ok (p, start)) :
    Counted p start ∧ p.budget = budget ∧ start.loopIdx = 0 := by
  unfold encode at hencode
  simp only [bind, Except.bind, pure, Except.pure] at hencode
  split at hencode
  · cases hencode
  · split at hencode
    · cases hencode
    · cases hencode
      exact ⟨⟨rfl, (Nat.zero_mul _).symm, Nat.zero_le _⟩, rfl, rfl⟩

theorem encode_memoryPerLoop
    (hencode : r.encode b world promptTokens budget requestId = .ok (p, start)) :
    p.memoryPerLoop =
      ReasoningBudget.estimateMemoryPerLoop promptTokens.length r.dModel r.reasoningLayers := by
  unfold encode at hencode
  simp only [bind, Except.bind, pure, Except.pure] at hencode
  split at hencode
  · cases hencode
  · split at hencode
    · cases hencode
    · cases hencode
      rfl

/-- The reasoning zone ends. -/
theorem exists_generate (r : InferenceRunner B W ε) (b : B) (world : W) (promptTokens : List ℕ)
    (maxTokens : ℕ) (budget : ReasoningBudget) (requestId : String) :
    ∃ outcome, r.generate b world promptTokens maxTokens budget requestId = some outcome := by
  unfold generate
  cases hencode : r.encode b world promptTokens budget requestId with
  | error e => exact ⟨_, rfl⟩
  | ok start =>
    obtain ⟨p, l⟩ := start
    have hlower : ∀ l l', r.reasoningStep p l = .more l' →
        p.nLoopsNeeded - l'.loopIdx < p.nLoopsNeeded - l.loopIdx := by
      intro l l' hstep
      obtain ⟨hlt, -, hidx, -⟩ := reasoningStep_more hstep
      omega
    obtain ⟨reasoned, hrun⟩ := Loop.exists_run (fun l : LoopState B W => p.nLoopsNeeded - l.loopIdx)
      hlower
      (Nat.lt_succ_of_le (Nat.sub_le _ l.loopIdx))
    exact ⟨_, by simp only [hrun]; rfl⟩

theorem finish_report {reasoned : Reasoned B W}
    (hfinish : r.finish promptTokens maxTokens p reasoned = .ok result) :
    result.reasoningLoopsUsed = reasoned.state.loopsUsed ∧
      result.reasoningMemoryMb = reasoned.state.memoryUsedMb := by
  unfold finish at hfinish
  simp only [bind, Except.bind, pure, Except.pure] at hfinish
  repeat
    split at hfinish
    · cases hfinish
  cases hfinish
  exact ⟨rfl, rfl⟩

/-- The report is that of the last state of the reasoning zone. -/
theorem exists_last (hrun : r.generate b world promptTokens maxTokens budget requestId =
      some (.ok result)) :
    ∃ p start last reasoned, r.encode b world promptTokens budget requestId = .ok (p, start) ∧
      Loop.Reaches (r.reasoningStep p) start last ∧
      r.reasoningStep p last = .done (.ok reasoned) ∧
      result.reasoningLoopsUsed = last.state.loopsUsed ∧
      result.reasoningMemoryMb = last.state.memoryUsedMb := by
  unfold generate at hrun
  split at hrun
  · cases hrun
  · next p start hencode =>
    obtain ⟨outcome, hloop, hfinish⟩ := Option.map_eq_some_iff.1 hrun
    cases outcome with
    | error e => cases hfinish
    | ok reasoned =>
      obtain ⟨last, hreach, hlast⟩ := Loop.exists_last hloop
      obtain ⟨hloops, hmemory⟩ := finish_report hfinish
      rw [reasoningStep_done hlast] at hloops hmemory
      exact ⟨p, start, last, reasoned, hencode, hreach, hlast, hloops, hmemory⟩

variable (r b world promptTokens budget requestId) in
/-- What holds of every state of the reasoning zone. -/
structure Checked : Prop where
  completed : ∀ p start l, r.encode b world promptTokens budget requestId = .ok (p, start) →
    Loop.Reaches (r.reasoningStep p) start l → l.loopIdx ≤ budget.maxLoops
  /-- From the confidence asked for, no layer is run any more. -/
  confident : ∀ p start l, r.encode b world promptTokens budget requestId = .ok (p, start) →
    Loop.Reaches (r.reasoningStep p) start l →
    budget.confidenceThreshold ≤ l.state.currentConfidence →
    r.reasoningStep p l = .done (.ok { state := l.state, zone := l.zone, earlyExit := false })

theorem checked (r : InferenceRunner B W ε) (b : B) (world : W) (promptTokens : List ℕ)
    (budget : ReasoningBudget) (requestId : String) :
    Checked r b world promptTokens budget requestId where
  completed p start l hencode hreach := by
    obtain ⟨hstart, rfl, hzero⟩ := encode_counted hencode
    exact (hstart.reaches hreach).within
  confident p start l hencode hreach hconfident := by
    obtain ⟨-, rfl, -⟩ := encode_counted hencode
    rw [reasoningStep, if_neg fun hgo => hgo.2.2.2 hconfident]

/-! ### The memory -/

/-- The plan with more memory than its loops take. -/
def Plan.unmetered (p : Plan) : Plan :=
  { p with
    budget := { p.budget with maxMemoryMb := p.nLoopsNeeded * p.memoryPerLoop + 1 } }

theorem shouldContinue_unmetered (hl : Counted p l) (hidx : l.loopIdx < p.nLoopsNeeded) :
    p.unmetered.budget.shouldContinue l.state ↔
      ¬ p.budget.maxLoops ≤ l.state.loopsUsed ∧
        ¬ p.budget.confidenceThreshold ≤ l.state.currentConfidence := by
  have hroom : ¬ p.nLoopsNeeded * p.memoryPerLoop + 1 ≤ l.state.memoryUsedMb := by
    have hle : l.loopIdx * p.memoryPerLoop ≤ p.nLoopsNeeded * p.memoryPerLoop :=
      Nat.mul_le_mul_right _ hidx.le
    rw [hl.memoryUsed]
    omega
  constructor
  · exact fun hgo => ⟨hgo.1, hgo.2.2⟩
  · exact fun hgo => ⟨hgo.1, hroom, hgo.2⟩

/-- Below the cap it makes no difference to a loop. -/
theorem reasoningStep_unmetered (hl : Counted p l)
    (hbelow : l.state.memoryUsedMb < p.budget.maxMemoryMb) :
    r.reasoningStep p.unmetered l = r.reasoningStep p l := by
  have hiff : (l.loopIdx < p.unmetered.nLoopsNeeded ∧
      p.unmetered.budget.shouldContinue l.state) ↔
        l.loopIdx < p.nLoopsNeeded ∧ p.budget.shouldContinue l.state := by
    refine and_congr_right fun hidx => (shouldContinue_unmetered hl hidx).trans ?_
    constructor
    · exact fun hgo => ⟨hgo.1, Nat.not_le_of_lt hbelow, hgo.2⟩
    · exact fun hgo => ⟨hgo.1, hgo.2.2⟩
  unfold reasoningStep
  simp only [hiff]
  rfl

/-- What a run reaches it reaches without a cap. -/
theorem reaches_unmetered (hstart : Counted p start)
    (hreach : Loop.Reaches (r.reasoningStep p) start l) :
    Loop.Reaches (r.reasoningStep p.unmetered) start l := by
  induction hreach with
  | refl => exact .refl
  | tail hbefore hstep ih =>
    apply ih.tail
    rw [reasoningStep_unmetered (hstart.reaches hbefore)]
    · exact hstep
    · exact Nat.lt_of_not_le (reasoningStep_more hstep).2.1.2.1

variable (r b world promptTokens budget requestId) in
/-- The charge of a loop divides the cap, or the loops that the request completes without a cap fit
under it together. -/
def ChargesFit : Prop :=
  let perLoop :=
    ReasoningBudget.estimateMemoryPerLoop promptTokens.length r.dModel r.reasoningLayers
  perLoop ∣ budget.maxMemoryMb ∨
    ∀ p start l, r.encode b world promptTokens budget requestId = .ok (p, start) →
      Loop.Reaches (r.reasoningStep p.unmetered) start l →
        l.loopIdx * perLoop ≤ budget.maxMemoryMb

/-- As many loops as the budget allows fit. -/
theorem chargesFit_of_maxLoops
    (hfit : budget.maxLoops * ReasoningBudget.estimateMemoryPerLoop promptTokens.length r.dModel
      r.reasoningLayers ≤ budget.maxMemoryMb) :
    ChargesFit r b world promptTokens budget requestId := by
  refine .inr fun p start l hencode hreach => ?_
  obtain ⟨hstart, rfl, -⟩ := encode_counted hencode
  have hcounted : Counted p.unmetered start := ⟨hstart.loopsUsed, hstart.memoryUsed, hstart.within⟩
  exact (Nat.mul_le_mul_right _ (hcounted.reaches hreach).within).trans hfit

theorem reported_memory_iff (hrun : r.generate b world promptTokens maxTokens budget requestId =
      some (.ok result)) :
    result.reasoningMemoryMb ≤ budget.maxMemoryMb ↔
      ChargesFit r b world promptTokens budget requestId := by
  obtain ⟨p, start, last, reasoned, hencode, hlast, hdone, -, hmemory⟩ := exists_last hrun
  obtain ⟨hstart, rfl, hzero⟩ := encode_counted hencode
  have hperLoop := encode_memoryPerLoop hencode
  have hcharged := (hstart.reaches hlast).memoryUsed
  rw [hmemory, hcharged, ChargesFit, ← hperLoop]
  constructor
  · intro hle
    by_cases hdvd : p.memoryPerLoop ∣ p.budget.maxMemoryMb
    · exact .inl hdvd
    · -- The run has not come up to the cap, so that it ends there without one too.
      have hbelow : last.state.memoryUsedMb < p.budget.maxMemoryMb := by
        rw [hcharged]
        apply lt_of_le_of_ne hle
        exact fun heq => hdvd ⟨last.loopIdx, by rw [← heq, Nat.mul_comm]⟩
      have hdone' : r.reasoningStep p.unmetered last = .done (.ok reasoned) := by
        rw [reasoningStep_unmetered (hstart.reaches hlast) hbelow, hdone]
      refine .inr fun p' start' l hencode' hreach => ?_
      obtain ⟨rfl, rfl⟩ : p = p' ∧ start = start' := by
        rw [hencode] at hencode'
        exact Prod.mk.inj (Except.ok.inj hencode')
      have hrest := (reaches_unmetered hstart hlast).to_last hdone' hreach
      exact (Nat.mul_le_mul_right _ (loopIdx_le hrest)).trans hle
  · rintro (⟨k, hk⟩ | hfit)
    · rcases hlast.cases_tail with rfl | ⟨l, hreach, hstep⟩
      · rw [hzero, Nat.zero_mul]
        exact Nat.zero_le _
      · obtain ⟨-, hgo, hidx, -, -⟩ := reasoningStep_more hstep
        have hbelow := Nat.lt_of_not_le hgo.2.1
        rw [(hstart.reaches hreach).memoryUsed, hk, Nat.mul_comm] at hbelow
        have hnext : l.loopIdx + 1 ≤ k := lt_of_mul_lt_mul_left hbelow (Nat.zero_le _)
        calc last.loopIdx * p.memoryPerLoop = (l.loopIdx + 1) * p.memoryPerLoop := by rw [hidx]
          _ ≤ k * p.memoryPerLoop := Nat.mul_le_mul_right _ hnext
          _ = p.budget.maxMemoryMb := by rw [hk, Nat.mul_comm]
    · exact hfit p start last hencode (reaches_unmetered hstart hlast)

/-! ### The budget -/

variable (r b world promptTokens budget requestId) in
/-- A run that reports this keeps to its budget. -/
structure WithinBudget (result : GenerationResult) : Prop
    extends Checked r b world promptTokens budget requestId where
  loops : result.reasoningLoopsUsed ≤ budget.maxLoops
  memory : result.reasoningMemoryMb ≤ budget.maxMemoryMb

/-- Loops and confidence are bounded in every run, and the memory exactly where the charges fit. -/
theorem generate_within_budget_iff (r : InferenceRunner B W ε) (b : B) (world : W)
    (promptTokens : List ℕ) (maxTokens : ℕ) (budget : ReasoningBudget) (requestId : String) :
    Checked r b world promptTokens budget requestId ∧
    ∀ result, r.generate b world promptTokens maxTokens budget requestId = some (.ok result) →
      (WithinBudget r b world promptTokens budget requestId result ↔
        ChargesFit r b world promptTokens budget requestId) := by
  have hchecked := checked r b world promptTokens budget requestId
  refine ⟨hchecked, fun result hrun => ⟨fun hwithin => ?_, fun hfit => ⟨hchecked, ?_, ?_⟩⟩⟩
  · exact (reported_memory_iff hrun).1 hwithin.memory
  · obtain ⟨p, start, last, reasoned, hencode, hlast, -, hloops, -⟩ := exists_last hrun
    obtain ⟨hstart, rfl, -⟩ := encode_counted hencode
    rw [hloops, (hstart.reaches hlast).loopsUsed]
    exact (hstart.reaches hlast).within
  · exact (reported_memory_iff hrun).2 hfit

/-- A runner of 16 layers, 8 of them for reasoning, 2048 wide, whose tensors are empty. -/
noncomputable def mute : InferenceRunner Unit Unit Unit where
  floats := .float32
  backend :=
    { nLayers := fun _ => 16
      embedTokens := fun _ _ => .ok []
      forwardLayer := fun b _ _ _ => .ok ([], b)
      computeLogits := fun _ _ => .ok [] }
  hooks := []
  dModel := 2048
  reasoningLayers := 8
  eosTokens := []
  draw := fun _ _ => 0

theorem mute_forwardLayers (seqLen : ℕ) (layers : List ℕ) :
    mute.forwardLayers seqLen layers ([], ()) = .ok ([], ()) := by
  induction layers with
  | nil => rfl
  | cons layerIdx layers ih => exact ih

theorem mute_reasoningLayersFrom (seqLen loopIdx : ℕ) (layers : List ℕ) (z : Zone Unit Unit)
    (hz : z.fired.hidden = []) :
    ∃ z', mute.reasoningLayersFrom seqLen loopIdx layers z = .ok (z', false) ∧
      z'.fired.hidden = [] := by
  induction layers generalizing z with
  | nil => exact ⟨z, rfl, hz⟩
  | cons layerIdx layers ih => exact ih _ rfl

/-- One loop is planned, run, counted and charged. -/
theorem mute_generate (n : ℕ) :
    ∃ result,
      mute.generate () () (List.replicate n 0) 0 (ReasoningBudget.fromTier .float32 "free") "" =
        some (.ok result) ∧
      result.reasoningMemoryMb = ReasoningBudget.estimateMemoryPerLoop n 2048 8 := by
  have hempty : importance mute.floats [] n = [] := by simp [importance]
  have hneeded : loopsNeeded mute.floats (ReasoningBudget.fromTier .float32 "free") [] [] = 1 := rfl
  have hcontinue : (ReasoningBudget.fromTier .float32 "free").shouldContinue
      { ReasoningState.new n with tokenImportances := [] } := by
    refine ⟨show ¬ 2 ≤ 0 by decide, show ¬ 64 ≤ 0 by decide, ?_⟩
    change ¬ Rounding.float32.lit (4 / 5) ≤ 0
    obtain ⟨a, ha, halow, -⟩ := Rounding.lit_mem (q := .float32) (r := 4 / 5) (k := 1)
      (by norm_num) (by norm_num) (by norm_num)
    rw [ha]
    intro hle
    have hnonpos : a ≤ 0 := Extended.fin_le_fin.mp hle
    linarith
  obtain ⟨p, start, hencode, hplan, hper, hzone, hidx, hstate, hgo⟩ :
      ∃ p start,
        mute.encode () () (List.replicate n 0) (ReasoningBudget.fromTier .float32 "free") "" =
        .ok (p, start) ∧ p.nLoopsNeeded = 1 ∧
        p.memoryPerLoop = ReasoningBudget.estimateMemoryPerLoop n 2048 8 ∧
        start.zone.fired.hidden = [] ∧ start.loopIdx = 0 ∧ start.state.memoryUsedMb = 0 ∧
        p.budget.shouldContinue start.state := by
    unfold encode
    have hembed : mute.backend.embedTokens () (List.replicate n 0) = .ok [] := rfl
    simp only [hembed, bind, Except.bind, pure, Except.pure, mute_forwardLayers,
      List.length_replicate, hempty, hneeded]
    exact ⟨_, _, rfl, rfl, rfl, rfl, rfl, rfl, hcontinue⟩
  -- The only loop, after which no further one is planned.
  obtain ⟨zone, hlayers, hhidden⟩ :=
    mute_reasoningLayersFrom p.seqLen start.loopIdx p.layers start.zone hzone
  set state := start.state.recordLoop p.memoryPerLoop
    (confidence mute.floats zone.fired.hidden)
  have hfirst : mute.reasoningStep p start =
      .more { loopIdx := start.loopIdx + 1, state, zone } := by
    rw [reasoningStep, if_pos ⟨by omega, hgo⟩, hlayers]
  have hstop : ¬ start.loopIdx + 1 < p.nLoopsNeeded := by omega
  have hsecond : mute.reasoningStep p { loopIdx := start.loopIdx + 1, state, zone } =
      .done (.ok { state, zone, earlyExit := false }) := by
    rw [reasoningStep, if_neg fun hlt => hstop hlt.1]
  obtain ⟨result, hfinish⟩ : ∃ result,
      mute.finish (List.replicate n 0) 0 p { state, zone, earlyExit := false } = .ok result := by
    unfold finish
    simp only [hhidden, show zone.backend = () from rfl, mute_forwardLayers]
    exact ⟨_, rfl⟩
  refine ⟨result, ?_, ?_⟩
  · unfold generate
    simp only [hencode, hplan, Loop.run, hfirst, hsecond, Option.map_some, Except.bind, hfinish]
  · rw [(finish_report hfinish).2]
    change start.state.memoryUsedMb + p.memoryPerLoop = _
    rw [hstate, Nat.zero_add, hper]

/-- The two megabytes for a prompt of 64 tokens fit. -/
theorem generate_within_budget_short :
    ∃ result,
      mute.generate () () (List.replicate 64 0) 0 (ReasoningBudget.fromTier .float32 "free") "" =
        some (.ok result) ∧
      WithinBudget mute () () (List.replicate 64 0) (ReasoningBudget.fromTier .float32 "free") ""
        result := by
  obtain ⟨result, hrun, hmemory⟩ := mute_generate 64
  refine ⟨result, hrun, ((generate_within_budget_iff mute () () (List.replicate 64 0) 0
    (ReasoningBudget.fromTier .float32 "free") "").2 result hrun).2 (chargesFit_of_maxLoops ?_)⟩
  change 2 * ReasoningBudget.estimateMemoryPerLoop (List.replicate 64 0).length 2048 8 ≤ 64
  rw [List.length_replicate]
  decide

/-- A prompt of 8192 tokens: the only loop of a free request is charged 256 of its 64 megabytes. -/
theorem generate_over_budget :
    ¬ ∀ (r : InferenceRunner Unit Unit Unit) (promptTokens : List ℕ) (maxTokens : ℕ)
      (budget : ReasoningBudget) (result : GenerationResult),
      r.generate () () promptTokens maxTokens budget "" = some (.ok result) →
        WithinBudget r () () promptTokens budget "" result := by
  intro hall
  obtain ⟨result, hrun, hmemory⟩ := mute_generate 8192
  have hle := (hall mute _ 0 _ result hrun).memory
  rw [hmemory] at hle
  exact absurd hle (by decide)

end InferenceRunner

end Zllm.Reasoning

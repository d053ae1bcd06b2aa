import Zllm.Gpu.ContextBound
import Zllm.Gpu.FullPool

/-!
# The rows of a speculative step

`step_pld` puts one row for each active sequence and one for each draft token into a single forward.
Nothing bounds their number by `m_max`, and a draft that takes up all a sequence may still produce
runs one position past the plain step's last.
-/

namespace Zllm.Gpu

open Outcome ContinuousBatcher

variable {M B L : Type} {dev : Device M B L} {mem : KvMemory dev} {cb roomy : ContinuousBatcher M B}
  {kv : Nat → SlotKv} {lookupLen draftK : Nat}

/-! ### The rows of a draft -/

theorem length_draftFor (lookupLen draftK : Nat) (s : CbSeq) :
    (draftFor lookupLen draftK s).length ≤ s.maxTokens - s.genIndex := by
  unfold draftFor
  dsimp only
  split
  case isFalse => exact Nat.zero_le _
  case isTrue =>
    cases hdraft : SpecDecode.lookupDraftBest s.tokens s.tokens lookupLen
        (min draftK (s.maxTokens - s.genIndex)) with
    | none => exact Nat.zero_le _
    | some draft => exact (SpecDecode.length_lookupDraftBest hdraft).trans (Nat.min_le_right _ _)

/-- The rows of the verification forward. -/
def verificationRows (lookupLen draftK : Nat) (active : List CbSeq) : List Row :=
  (active.map fun s => (s, draftFor lookupLen draftK s)).flatMap fun l => draftRows l.1 l.2

theorem length_verificationRows (lookupLen draftK : Nat) (active : List CbSeq) :
    (verificationRows lookupLen draftK active).length =
      active.length + (active.map fun s => (draftFor lookupLen draftK s).length).sum := by
  induction active with
  | nil => rfl
  | cons s active ih =>
      simp only [verificationRows, List.map_cons, List.flatMap_cons, List.length_append] at ih ⊢
      rw [ih]
      simp only [draftRows, List.length_mapIdx, List.length_cons, List.sum_cons]
      omega

theorem forall_draftRows_lt {s : CbSeq} {draft : List Token} {maxSeq : Nat} :
    (∀ row ∈ draftRows s draft, row.pos < maxSeq) ↔ s.pos + draft.length < maxSeq := by
  constructor
  · intro hrows
    refine hrows { tok := (s.next :: draft)[draft.length], pos := s.pos + draft.length, slot := s.slot } ?_
    exact List.mem_mapIdx.mpr ⟨draft.length, by simp, rfl⟩
  · intro hlast row hrow
    obtain ⟨j, hj, rfl⟩ := List.mem_mapIdx.mp hrow
    simp only [List.length_cons] at hj ⊢
    omega

theorem forall_verificationRows_lt {active : List CbSeq} {maxSeq : Nat} :
    (∀ row ∈ verificationRows lookupLen draftK active, row.pos < maxSeq) ↔
      ∀ s ∈ active, s.pos + (draftFor lookupLen draftK s).length < maxSeq := by
  simp only [verificationRows, List.mem_flatMap, List.mem_map, forall_exists_index, and_imp,
    forall_apply_eq_imp_iff₂]
  constructor
  · exact fun hrows s hs => forall_draftRows_lt.mp fun row hrow => hrows row s hs hrow
  · exact fun hlast row s hs hrow => forall_draftRows_lt.mpr (hlast s hs) row hrow

/-! ### When the forward is legal -/

theorem decodeActivePld_of_room (hne : cb.active ≠ []) (hroom : cb.makeRoom dev = .ok roomy) :
    cb.decodeActivePld dev lookupLen draftK = (do
      let (outs, dec) ← roomy.dec.stepSlotted dev (verificationRows lookupLen draftK roomy.active)
      let (pushed, events) :=
        commitDrafts (roomy.active.map fun s => (s, draftFor lookupLen draftK s)) outs
      let (active, dec, free) := retire pushed dec roomy.free
      return (events, { roomy with active, dec, free })) := by
  rw [decodeActivePld, if_neg (by simpa using hne), hroom]
  rfl

/-- The forward's two assertions hold exactly where its rows are few enough and all inside the
context. -/
theorem stepSlotted_legal_iff {dec : BatchedDecoder M} {rows : List Row} (hne : rows ≠ []) :
    (Avoids .rowCount (dec.stepSlotted dev rows) ∧
      Avoids .positionExceeds (dec.stepSlotted dev rows)) ↔
    rows.length ≤ dec.cfg.mMax ∧ ∀ row ∈ rows, row.pos < dec.cfg.maxSeq := by
  have hlen := List.length_pos_iff.mpr hne
  by_cases hcount : rows.length ≤ dec.cfg.mMax
  · have hcheck : BatchedDecoder.checkRows dec.cfg rows = .ok () := by
      rw [BatchedDecoder.checkRows, if_pos ⟨hcount, hlen⟩]
    by_cases hpos : ∀ row ∈ rows, row.pos < dec.cfg.maxSeq
    · refine iff_of_true ⟨?_, ?_⟩ ⟨hcount, hpos⟩
      · unfold BatchedDecoder.stepSlotted
        rw [hcheck]
        refine avoids_bind (avoids_ok _ _) fun _ _ => avoids_bind ?_ fun _ _ => avoids_pure _ _
        refine avoids_forwardLogits ?_ (avoids_preparePaging (by decide) (by decide) _ _)
        rw [writeInputs_of_lt hpos]
        exact avoids_ok _ _
      · exact avoids_stepSlotted (by decide) (avoids_forwardLogits_of_lt hpos)
    · have hfails : dec.stepSlotted dev rows = .error .positionExceeds := by
        unfold BatchedDecoder.stepSlotted BatchedDecoder.forwardLogits BatchedDecoder.writeInputs
        rw [hcheck, if_neg (by simpa using hpos)]
        rfl
      rw [hfails]
      exact iff_of_false (fun h => h.2 rfl) fun h => hpos h.2
  · have hfails : dec.stepSlotted dev rows = .error .rowCount := by
      unfold BatchedDecoder.stepSlotted BatchedDecoder.checkRows
      rw [if_neg fun h => hcount h.1]
      rfl
    rw [hfails]
    exact iff_of_false (fun h => h.1 rfl) fun h => hcount h.1

/-- The drafts leave the batch within `m_max` rows, and no draft takes up all its sequence may still
produce where that would fill the context. -/
def SpeculationFits (lookupLen draftK : Nat) (cb : ContinuousBatcher M B) : Prop :=
  cb.active.length + (cb.active.map fun s => (draftFor lookupLen draftK s).length).sum ≤
      cb.dec.cfg.mMax ∧
    ∀ s ∈ cb.active, s.promptLen + s.maxTokens = cb.dec.cfg.maxSeq + 1 →
      (draftFor lookupLen draftK s).length < s.maxTokens - s.genIndex

section

variable {hash : UInt64 → List Token → UInt64} {cfg : PoolConfig} {mMax maxSeq : Nat}
  {firstFit swapMode : Bool} {memory : M} {run : BatcherRun M B}
  {Admits : ContinuousBatcher M B → Call → Prop}

/-- An active sequence has more to produce. -/
theorem Served.genIndex_lt {s : CbSeq} (hserved : Served cfg run dev) (hs : s ∈ run.cb.active) :
    s.promptLen + s.genIndex = s.tokens.length ∧ s.genIndex < s.maxTokens := by
  obtain ⟨kv, h⟩ := hserved.serving
  have hproduced := (h.active s hs).produced
  have hjob : s.job ∈ run.cb.board := by
    simp only [ContinuousBatcher.board, Multiset.mem_add, Multiset.mem_coe]
    exact Or.inl (Or.inl (List.mem_map_of_mem hs))
  have hunfinished := (hserved.sized _ hjob).unfinished
  have hcount : s.job.produced.length = s.genIndex := s.length_produced_job
  have hpos : 0 < s.genIndex := by
    rw [CbSeq.genIndex]
    omega
  refine ⟨by rw [CbSeq.genIndex]; omega, ?_⟩
  rcases hunfinished with hnil | hlt
  · rw [hnil, List.length_nil] at hcount
    omega
  · rwa [hcount] at hlt

/-- **Speculative rows.** Over a full pool, in every state a run reaches in which the plain step is
legal for the whole life of its active sequences, the verification forward of `step_pld` is legal
exactly where the drafts fit. -/
theorem speculation_legal_iff (hnew : PoolConfig.new hash mMax maxSeq = .ok cfg)
    (hreach : BatcherReaches dev Admits (.new cfg firstFit swapMode memory) run)
    (hne : run.cb.active ≠ [])
    (hlegal : ∀ s ∈ run.cb.active, s.promptLen + s.maxTokens - 1 ≤ run.cb.dec.cfg.maxSeq) :
    (Avoids .rowCount (run.cb.decodeActivePld dev lookupLen draftK) ∧
      Avoids .positionExceeds (run.cb.decodeActivePld dev lookupLen draftK)) ↔
      SpeculationFits lookupLen draftK run.cb := by
  have hserved := served_of_reaches hreach
  obtain ⟨kv, h⟩ := hserved.serving
  have hfull : run.cb.dec.cfg.Full := by
    rw [hserved.cfg_eq]
    exact full_of_new hnew
  have hpos : ∀ s ∈ run.cb.active, s.pos < run.cb.dec.cfg.maxSeq := fun s hs => by
    obtain ⟨hlen, hmore⟩ := hserved.genIndex_lt hs
    have hproduced := (h.active s hs).produced
    have := hlegal s hs
    rw [CbSeq.pos]
    omega
  have hroom : run.cb.makeRoom dev = .ok run.cb := h.makeRoom_of_full hfull hpos
  have hrows : verificationRows lookupLen draftK run.cb.active ≠ [] := by
    have := List.length_pos_iff.mpr hne
    rw [← List.length_pos_iff, length_verificationRows]
    omega
  -- what follows the forward cannot fail
  have hforward : ∀ e, Avoids e (run.cb.decodeActivePld dev lookupLen draftK) ↔
      Avoids e (run.cb.dec.stepSlotted dev (verificationRows lookupLen draftK run.cb.active)) := by
    intro e
    rw [decodeActivePld_of_room hne hroom]
    constructor
    · intro hdecode hfails
      exact hdecode (by rw [hfails]; rfl)
    · exact fun hstep => avoids_bind hstep fun _ _ => avoids_pure _ _
  rw [hforward, hforward, stepSlotted_legal_iff hrows, length_verificationRows,
    forall_verificationRows_lt, SpeculationFits]
  refine and_congr_right fun _ => forall₂_congr fun s hs => ?_
  obtain ⟨hlen, hmore⟩ := hserved.genIndex_lt hs
  have hproduced := (h.active s hs).produced
  have hdraft := length_draftFor lookupLen draftK s
  have := hlegal s hs
  rw [CbSeq.pos]
  omega

end

/-! ### A draft that does not fit -/

/-- A request whose first token repeats a pair of its prompt. -/
def repetitiveRequest : Request := greedyRequest 1 [7, 4, 9, 7]

theorem speculation_legal_iff_repetitive :
    ∃ run : BatcherRun History (List Token),
      run.cb.active.map CbSeq.tokens = [[7, 4, 9, 7, 4]] ∧
        ((Avoids .rowCount (run.cb.decodeActivePld lengthModel.device 3 7) ∧
          Avoids .positionExceeds (run.cb.decodeActivePld lengthModel.device 3 7)) ↔
          SpeculationFits 3 7 run.cb) := by
  obtain ⟨run, hreach, hview⟩ : ∃ run, BatcherReaches lengthModel.device
      (FitsContext lengthModel.device) (.new fullPool false false fun _ => []) run ∧
        (run.cb.active.map CbSeq.tokens,
          run.cb.active.map fun s => s.promptLen + s.maxTokens, run.cb.dec.cfg.maxSeq) =
            ([[7, 4, 9, 7, 4]], [7], 32) :=
    exists_reaches_of_execAll (fun run => (run.cb.active.map CbSeq.tokens,
        run.cb.active.map fun s => s.promptLen + s.maxTokens, run.cb.dec.cfg.maxSeq))
      [.enqueue repetitiveRequest, .step] rfl
  simp only [Prod.mk.injEq] at hview
  obtain ⟨htokens, hlengths, hmax⟩ := hview
  refine ⟨run, htokens, speculation_legal_iff fullPool_eq_new hreach ?_ fun s hs => ?_⟩
  · rintro hnil
    simp [hnil] at htokens
  · have hmem := List.mem_map_of_mem (f := fun s : CbSeq => s.promptLen + s.maxTokens) hs
    rw [hlengths, List.mem_singleton] at hmem
    rw [hmem, hmax]
    decide

/-- One active sequence of two slots: the batch server's `step_pld(3, 7)` puts three rows into a
forward of at most two. -/
theorem speculation_exceeds_rows :
    ¬∀ (cfg : PoolConfig) (mMax maxSeq lookupLen draftK : Nat) (firstFit swapMode : Bool)
        (run : BatcherRun History (List Token)),
      PoolConfig.new cfg.prefixBlockHash mMax maxSeq = .ok cfg →
      BatcherReaches lengthModel.device (FitsContext lengthModel.device)
        (.new cfg firstFit swapMode fun _ => []) run →
      run.cb.allGreedy = true → run.cb.active ≠ [] →
      (∀ s ∈ run.cb.active, s.promptLen + s.maxTokens - 1 ≤ maxSeq) →
      Avoids .rowCount (run.cb.decodeActivePld lengthModel.device lookupLen draftK) := by
  intro hnever
  obtain ⟨run, hreach, hview⟩ : ∃ run, BatcherReaches lengthModel.device
      (FitsContext lengthModel.device) (.new fullPool false false fun _ => []) run ∧
        (run.cb.allGreedy, run.cb.active.map (fun s => s.promptLen + s.maxTokens),
          (run.cb.decodeActivePld lengthModel.device 3 7).map fun _ => ()) =
            (true, [7], .error .rowCount) :=
    exists_reaches_of_execAll (fun run => (run.cb.allGreedy,
        run.cb.active.map (fun s => s.promptLen + s.maxTokens),
        (run.cb.decodeActivePld lengthModel.device 3 7).map fun _ => ()))
      [.enqueue repetitiveRequest, .step] rfl
  simp only [Prod.mk.injEq] at hview
  obtain ⟨hgreedy, hlengths, hfails⟩ := hview
  have hne : run.cb.active ≠ [] := by
    rintro hnil
    simp [hnil] at hlengths
  have hlegal : ∀ s ∈ run.cb.active, s.promptLen + s.maxTokens - 1 ≤ 32 := by
    intro s hs
    have hmem := List.mem_map_of_mem (f := fun s : CbSeq => s.promptLen + s.maxTokens) hs
    rw [hlengths, List.mem_singleton] at hmem
    omega
  have havoids := hnever fullPool 2 32 3 7 false false run fullPool_eq_new hreach hgreedy hne hlegal
  cases hdecode : run.cb.decodeActivePld lengthModel.device 3 7 with
  | error panic =>
      rw [hdecode] at hfails havoids
      exact havoids (by simpa [Except.map] using hfails)
  | ok out => simp [hdecode, Except.map] at hfails

end Zllm.Gpu

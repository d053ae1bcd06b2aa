import Zllm.Gpu.ContextBound
import Zllm.Gpu.Overcommit

/-!
# Progress

A step that succeeds emits a token or moves the front prefill on, except in one state: everything
live is preempted, and the first in line needs more blocks than the pool has.
-/

namespace Zllm.Gpu

open Outcome ContinuousBatcher
open TokenService (tokensOf)

variable {M B L : Type} {dev : Device M B L} {mem : KvMemory dev} {cb cb' : ContinuousBatcher M B}
  {kv : Nat → SlotKv} {dec : BatchedDecoder M} {slot : Nat} {events : List Event}

/-! ### The loops of a step end -/

theorem next_prefillChunk {prompt : List Token} {start next : Nat} {first : Option Token}
    {samp : Option (ℚ × UInt32)} {dec' : BatchedDecoder M}
    (hok : dec.prefillChunk dev prompt slot start samp = .ok ((next, first), dec')) :
    start < next := by
  unfold BatchedDecoder.prefillChunk at hok
  split at hok
  case isFalse => cases hok
  case isTrue hstart =>
    obtain ⟨out, -, hok⟩ := bind_eq_ok.mp hok
    have hcap := dec.cfg.rowCap_pos
    simp only [pure_eq_ok, Prod.mk.injEq] at hok
    omega

theorem prefillLoop_fuel {prompt : List Token} {samp : Option (ℚ × UInt32)} {start fuel fuel' : Nat}
    {firstTok : Token} (hfuel : prompt.length - start ≤ fuel)
    (hfuel' : prompt.length - start ≤ fuel') :
    BatchedDecoder.prefillLoop dev prompt slot samp fuel start firstTok dec =
      BatchedDecoder.prefillLoop dev prompt slot samp fuel' start firstTok dec := by
  induction fuel generalizing fuel' start firstTok dec with
  | zero =>
      cases fuel' with
      | zero => rfl
      | succ fuel' =>
          rw [BatchedDecoder.prefillLoop, BatchedDecoder.prefillLoop, if_neg (by omega)]
  | succ fuel ih =>
      cases fuel' with
      | zero => rw [BatchedDecoder.prefillLoop, BatchedDecoder.prefillLoop, if_neg (by omega)]
      | succ fuel' =>
          rw [BatchedDecoder.prefillLoop, BatchedDecoder.prefillLoop]
          split
          case isFalse => rfl
          case isTrue hstart =>
            cases hchunk : dec.prefillChunk dev prompt slot start samp with
            | error panic => rfl
            | ok out =>
                obtain ⟨⟨next, first⟩, chunked⟩ := out
                have hlt := next_prefillChunk hchunk
                exact ih (by omega) (by omega)

theorem rescheduleLoop_fuel {fuel fuel' : Nat} (hfuel : cb.preempted.length ≤ fuel)
    (hfuel' : cb.preempted.length ≤ fuel') :
    rescheduleLoop dev fuel cb = rescheduleLoop dev fuel' cb := by
  induction fuel generalizing fuel' cb with
  | zero =>
      have hnil := List.length_eq_zero_iff.mp (by omega : cb.preempted.length = 0)
      cases fuel' <;> simp [rescheduleLoop, hnil]
  | succ fuel ih =>
      cases hpreempted : cb.preempted with
      | nil => cases fuel' <;> simp [rescheduleLoop, hpreempted]
      | cons p preempted =>
          rw [hpreempted, List.length_cons] at hfuel hfuel'
          obtain ⟨fuel', rfl⟩ := Nat.exists_eq_add_one_of_ne_zero (by omega : fuel' ≠ 0)
          cases hfree : cb.free with
          | nil => simp [rescheduleLoop, hpreempted, hfree]
          | cons slot free =>
              by_cases hfits : cb.dec.canFit p.tokens.length = true
              · rw [rescheduleLoop_succ fuel hpreempted hfree hfits,
                  rescheduleLoop_succ fuel' hpreempted hfree hfits]
                cases resumeSeq dev p slot cb.dec with
                | error panic => rfl
                | ok out =>
                    have hrest : ∀ rejoined : ContinuousBatcher M B, rejoined.preempted = preempted →
                        rescheduleLoop dev fuel rejoined = rescheduleLoop dev fuel' rejoined :=
                      fun rejoined hsame => ih (by rw [hsame]; omega) (by rw [hsame]; omega)
                    simp only [bind, Except.bind]
                    rw [hrest _ preempted_rejoin]
              · simp [rescheduleLoop, hpreempted, hfree, hfits]

/-- The bounds on the loops' iterations are never what ends them. -/
structure LoopsEnd (dev : Device M B L) (cb : ContinuousBatcher M B) : Prop where
  makeRoom : ∀ more, makeRoomLoop dev (cb.active.length + more) cb = cb.makeRoom dev
  makeChunkRoom : cb.prefilling ≠ [] → ∀ slot chunkEnd more,
    makeChunkRoom dev slot chunkEnd (cb.active.length + cb.prefilling.length + more) cb =
      makeChunkRoom dev slot chunkEnd (cb.active.length + cb.prefilling.length) cb
  reschedule : ∀ more, rescheduleLoop dev (cb.preempted.length + more) cb = cb.reschedule dev
  prefill : ∀ prompt slot samp start firstTok more,
    cb.dec.prefillLoop dev prompt slot samp (prompt.length + more) start firstTok =
      cb.dec.prefillLoop dev prompt slot samp prompt.length start firstTok

theorem loopsEnd (dev : Device M B L) (cb : ContinuousBatcher M B) : LoopsEnd dev cb where
  makeRoom := fun _ => makeRoomLoop_fuel (by omega) le_rfl
  makeChunkRoom := fun hne _ _ _ => makeChunkRoom_fuel hne (by omega) le_rfl
  reschedule := fun _ => rescheduleLoop_fuel (by omega) le_rfl
  prefill := fun _ _ _ _ _ _ => prefillLoop_fuel (by omega) (by omega)

/-! ### What each phase gets done -/

theorem length_recordLayers (cfg : PoolConfig) (blocks : BlockState) (rows : List Row)
    (memory : M) : (BatchedDecoder.recordLayers dev cfg blocks rows memory).2.length = rows.length := by
  induction rows generalizing memory with
  | nil => rfl
  | cons row rows ih => simp [BatchedDecoder.recordLayers, ih]

theorem length_decodeBatch {active : List CbSeq} {nexts : List Token} {dec' : BatchedDecoder M}
    (hok : decodeBatch dev active dec = .ok (nexts, dec')) : nexts.length = active.length := by
  obtain ⟨logits, hforward, hnexts⟩ := decodeBatch_eq_ok hok
  have hlen : logits.length = active.length := by
    unfold BatchedDecoder.forwardLogits at hforward
    obtain ⟨u, -, hforward⟩ := bind_eq_ok.mp hforward
    obtain ⟨blocks, -, hforward⟩ := bind_eq_ok.mp hforward
    simp only [pure_eq_ok, Prod.mk.injEq] at hforward
    rw [← hforward.1, length_recordLayers, decodeRows, List.length_map]
  rw [hnexts hlen, List.length_zipWith, hlen, Nat.min_self]

/-- A decode emits a token for each sequence it keeps, and it keeps one. -/
theorem Serving.events_decodeActive (h : Serving mem 0 cb kv) (hne : cb.active ≠ [])
    (hok : cb.decodeActive dev = .ok (events, cb')) : events ≠ [] := by
  obtain ⟨roomy, hroom, hmade⟩ := makeRoom_exits h
  rw [decodeActive_of_room hne hroom] at hok
  obtain ⟨⟨nexts, decoded⟩, hdecode, hok⟩ := bind_eq_ok.mp hok
  simp only [pure_eq_ok, Prod.mk.injEq] at hok
  have hpos := List.length_pos_iff.mpr (hmade.survivor hne)
  rw [← hok.1, ← List.length_pos_iff, List.length_map, List.length_zipWith,
    length_decodeBatch hdecode, Nat.min_self]
  exact hpos

theorem prefilling_rejoin {p : PreemptedSeq B} {tok : Token} {preempted : List (PreemptedSeq B)}
    {free : List Nat} : (rejoin cb p slot tok preempted free dec).prefilling = cb.prefilling := by
  unfold rejoin
  split <;> rfl

theorem prefilling_rescheduleLoop {fuel : Nat}
    (hok : rescheduleLoop dev fuel cb = .ok (events, cb')) : cb'.prefilling = cb.prefilling := by
  induction fuel generalizing cb events with
  | zero =>
      obtain ⟨-, rfl⟩ := by simpa [rescheduleLoop] using hok
      rfl
  | succ fuel ih =>
      cases hpreempted : cb.preempted with
      | nil =>
          obtain ⟨-, rfl⟩ := by simpa [rescheduleLoop, hpreempted] using hok
          rfl
      | cons p preempted =>
          cases hfree : cb.free with
          | nil =>
              obtain ⟨-, rfl⟩ := by simpa [rescheduleLoop, hpreempted, hfree] using hok
              rfl
          | cons slot free =>
              by_cases hfits : cb.dec.canFit p.tokens.length = true
              · rw [rescheduleLoop_succ fuel hpreempted hfree hfits] at hok
                obtain ⟨⟨g, resumed⟩, -, hok⟩ := bind_eq_ok.mp hok
                obtain ⟨⟨more, last⟩, hmore, hok⟩ := bind_eq_ok.mp hok
                obtain ⟨-, rfl⟩ := by simpa using hok
                rw [ih hmore, prefilling_rejoin]
              · obtain ⟨-, rfl⟩ := by simpa [rescheduleLoop, hpreempted, hfree, hfits] using hok
                rfl

theorem reschedule_events {p : PreemptedSeq B} {preempted : List (PreemptedSeq B)}
    {free : List Nat} (hpreempted : cb.preempted = p :: preempted) (hfree : cb.free = slot :: free)
    (hfits : cb.dec.canFit p.tokens.length = true)
    (hok : cb.reschedule dev = .ok (events, cb')) : events ≠ [] := by
  rw [reschedule, hpreempted, List.length_cons,
    rescheduleLoop_succ _ hpreempted hfree hfits] at hok
  obtain ⟨⟨g, resumed⟩, -, hok⟩ := bind_eq_ok.mp hok
  obtain ⟨⟨more, last⟩, -, hok⟩ := bind_eq_ok.mp hok
  obtain ⟨rfl, -⟩ := by simpa using hok
  exact List.cons_ne_nil _ _

theorem reschedule_of_not_fits {p : PreemptedSeq B} (hhead : cb.preempted.head? = some p)
    (hfits : cb.dec.canFit p.tokens.length = false) : cb.reschedule dev = .ok ([], cb) := by
  obtain ⟨preempted, hpreempted⟩ := List.head?_eq_some_iff.mp hhead
  rw [reschedule, hpreempted, List.length_cons, rescheduleLoop]
  cases hfree : cb.free <;> simp [hpreempted, hfits]

/-! ### Progress of a step -/

/-- A step emits a token, or moves the front prefill on. -/
def Progresses (cb : ContinuousBatcher M B) (events : List Event) (cb' : ContinuousBatcher M B) :
    Prop :=
  events ≠ [] ∨ ∃ front next, cb.prefilling.head? = some front ∧
    cb'.prefilling.head? = some { front with prefillPos := next } ∧ front.prefillPos < next

/-- Everything live is preempted, and the first in line needs more blocks than the pool has. -/
def Stuck (cb : ContinuousBatcher M B) : Prop :=
  cb.active = [] ∧ cb.prefilling = [] ∧ ∀ p ∈ cb.preempted.head?,
    cb.dec.cfg.nBlocks < p.tokens.length ⌈/⌉ cb.dec.cfg.blockSize

theorem board_eq_zero : cb.board = 0 ↔ cb.ids = [] := by
  rw [← Multiset.map_eq_zero (f := requestProtocol.jobKey), jobKey_board, Multiset.coe_eq_zero]

section

variable {cfg : PoolConfig} {firstFit swapMode : Bool} {memory : M} {run : BatcherRun M B}
  {Admits : ContinuousBatcher M B → Call → Prop}

/-- With every slot idle, exactly what fits the whole pool is resumed. -/
theorem Serving.canFit_idle {n : Nat} (h : Serving mem 0 cb kv) (hactive : cb.active = [])
    (hprefilling : cb.prefilling = []) :
    cb.dec.canFit n = decide (n ⌈/⌉ cb.dec.cfg.blockSize ≤ cb.dec.cfg.nBlocks) := by
  have hfree := h.freeBlocks_add_card
  have hnone : cb.dec.blocks.held cb.owners = ∅ := by
    simp [owners, hactive, hprefilling, BlockState.held]
  rw [hnone, Finset.card_empty, Nat.add_zero] at hfree
  rw [← hfree]
  rfl

/-- What a step that neither decodes nor prefills does. -/
theorem Served.step_idle (hserved : Served cfg run dev) (hlive : run.cb.ids ≠ [])
    (hactive : run.cb.active = []) (hprefilling : run.cb.prefilling = [])
    (hok : run.cb.reschedule dev = .ok (events, cb')) : events ≠ [] ↔ ¬Stuck run.cb := by
  obtain ⟨kv, h⟩ := hserved.serving
  obtain ⟨p, preempted, hpreempted⟩ : ∃ p preempted, run.cb.preempted = p :: preempted := by
    refine List.exists_cons_of_ne_nil fun hnil => hlive ?_
    simp [ids, hactive, hprefilling, hnil]
  have hfits := h.canFit_idle (n := p.tokens.length) hactive hprefilling
  by_cases hneed : p.tokens.length ⌈/⌉ run.cb.dec.cfg.blockSize ≤ run.cb.dec.cfg.nBlocks
  · have hjob : p.job ∈ run.cb.board := by simp [ContinuousBatcher.board, hpreempted]
    have hslots := h.length_add
    have hmMax := (hserved.sized _ hjob).mMax_pos
    rw [hactive, hprefilling, hserved.cfg_eq] at hslots
    obtain ⟨slot, free, hfree⟩ : ∃ slot free, run.cb.free = slot :: free := by
      refine List.exists_cons_of_ne_nil fun hnil => ?_
      simp only [hnil, List.length_nil] at hslots
      omega
    refine iff_of_true (reschedule_events hpreempted hfree ?_ hok) fun hstuck => ?_
    · rw [hfits]
      exact decide_eq_true hneed
    · have := hstuck.2.2 p (by simp [hpreempted])
      omega
  · have hbreaks : run.cb.reschedule dev = .ok ([], run.cb) := by
      refine reschedule_of_not_fits (by rw [hpreempted]; rfl) ?_
      rw [hfits]
      exact decide_eq_false hneed
    obtain ⟨rfl, -⟩ : [] = events ∧ run.cb = cb' := by simpa [hbreaks] using hok
    refine iff_of_false (by simp) (not_not.mpr ⟨hactive, hprefilling, fun q hq => ?_⟩)
    obtain rfl : p = q := by simpa [hpreempted] using hq
    omega

theorem step_phases (hok : cb.step dev = .ok (events, cb')) :
    ∃ decoded cb₁ prefilled cb₂ resumed, cb.decodeActive dev = .ok (decoded, cb₁) ∧
      cb₁.advancePrefill dev = .ok (prefilled, cb₂) ∧ cb₂.reschedule dev = .ok (resumed, cb') ∧
      events = decoded ++ prefilled ++ resumed := by
  obtain ⟨⟨decoded, cb₁⟩, hdecode, hok⟩ := bind_eq_ok.mp hok
  obtain ⟨⟨prefilled, cb₂⟩, hprefill, hok⟩ := bind_eq_ok.mp hok
  obtain ⟨⟨resumed, cb₃⟩, hresume, hok⟩ := bind_eq_ok.mp hok
  obtain ⟨rfl, rfl⟩ := by simpa only [pure_eq_ok, Prod.mk.injEq] using hok
  exact ⟨decoded, cb₁, prefilled, cb₂, resumed, hdecode, hprefill, hresume, rfl⟩

/-- The prefill phase of a step, where there is something to prefill. -/
theorem Served.advances {front : PrefillingSeq} {tail : List PrefillingSeq} {decoded prefilled : List Event}
    {cb₁ cb₂ : ContinuousBatcher M B} (hserved : Served cfg run dev)
    (hfront : run.cb.prefilling = front :: tail)
    (hdecode : run.cb.decodeActive dev = .ok (decoded, cb₁))
    (hprefill : cb₁.advancePrefill dev = .ok (prefilled, cb₂)) :
    ∃ rest, front :: rest <+: run.cb.prefilling ∧ Advances front rest prefilled cb₂.prefilling := by
  obtain ⟨kv, h⟩ := hserved.serving
  obtain ⟨kv₁, h₁, hprompts⟩ := hserved.decoded hdecode
  have hsame := h.prefilling_decodeActive hdecode
  have hfront₁ : cb₁.prefilling = front :: tail := hsame.trans hfront
  obtain ⟨roomy, rest, events, cb', -, hvacates, hrest, hok, hadvances, -⟩ :=
    advancePrefill_outcome h₁ hfront₁ (hprompts front (by simp [hfront₁]))
  obtain ⟨rfl, rfl⟩ : events = prefilled ∧ cb' = cb₂ := by simpa [hok] using hprefill
  refine ⟨rest, ?_, hadvances⟩
  rw [← hsame, ← hrest]
  exact hvacates.prefilling_initial

/-- A step that succeeds makes progress, except where it is stuck. -/
theorem Served.progresses_iff (hserved : Served cfg run dev) (hlive : run.cb.ids ≠ [])
    (hok : run.cb.step dev = .ok (events, cb')) :
    Progresses run.cb events cb' ↔ ¬Stuck run.cb := by
  obtain ⟨kv, h⟩ := hserved.serving
  obtain ⟨decoded, cb₁, prefilled, cb₂, resumed, hdecode, hprefill, hresume, rfl⟩ := step_phases hok
  by_cases hactive : run.cb.active = []
  · cases hfront : run.cb.prefilling with
    | nil =>
        have hidle : cb₁ = run.cb ∧ cb₂ = run.cb ∧ decoded = [] ∧ prefilled = [] := by
          rw [decodeActive, if_pos (by simpa using hactive)] at hdecode
          obtain ⟨rfl, rfl⟩ := by simpa using hdecode
          simp only [advancePrefill, hfront] at hprefill
          obtain ⟨rfl, rfl⟩ := by simpa using hprefill
          exact ⟨rfl, rfl, rfl, rfl⟩
        obtain ⟨rfl, rfl, rfl, rfl⟩ := hidle
        rw [← hserved.step_idle hlive hactive hfront hresume]
        simp [Progresses, hfront]
    | cons front tail =>
        refine iff_of_true ?_ fun hstuck => by simp [hstuck.2.1] at hfront
        obtain ⟨rest, -, hadvances⟩ := hserved.advances hfront hdecode hprefill
        have hlast : cb'.prefilling = cb₂.prefilling := prefilling_rescheduleLoop hresume
        cases hadvances' : cb₂.prefilling with
        | nil =>
            rw [hadvances'] at hadvances
            cases hadvances with
            | ended event => exact Or.inl (by simp)
        | cons moved others =>
            rw [hadvances'] at hadvances
            cases hadvances with
            | moved next hlt hle =>
                exact Or.inr ⟨front, next, by rw [hfront]; rfl, by rw [hlast, hadvances']; rfl, hlt⟩
            | ended event => exact Or.inl (by simp)
  · refine iff_of_true (Or.inl ?_) fun hstuck => hactive hstuck.1
    simp [h.events_decodeActive hactive hdecode]

/-! ### A bound on the steps -/

/-- The prompt tokens still to prefill. -/
def pending (prefilling : List PrefillingSeq) : Nat :=
  (prefilling.map fun pf => pf.promptLen - pf.prefillPos).sum

/-- The tokens still to produce, and the prompt tokens still to prefill. -/
def remaining (cb : ContinuousBatcher M B) : Nat :=
  (cb.board.map requestProtocol.outstanding).sum + pending cb.prefilling

theorem Advances.pending_lt {front : PrefillingSeq} {rest prefilling : List PrefillingSeq}
    (hadvances : Advances front rest events prefilling) (hfront : front.prefillPos < front.promptLen) :
    pending prefilling < pending (front :: rest) := by
  cases hadvances with
  | moved next hlt hle =>
      simp only [pending, List.map_cons, List.sum_cons]
      omega
  | ended event =>
      simp only [pending, List.map_cons, List.sum_cons]
      omega

theorem pending_le_of_initial {prefilling prefilling' : List PrefillingSeq}
    (hinitial : prefilling' <+: prefilling) : pending prefilling' ≤ pending prefilling := by
  obtain ⟨others, rfl⟩ := hinitial
  simp [pending]

theorem Sized.outstanding_pos {job : RequestJob} (hsized : Sized cfg job) :
    0 < requestProtocol.outstanding job := by
  simp only [TokenService.Protocol.outstanding, requestProtocol]
  rcases hsized.unfinished with hnil | hlt
  · simp [hnil]
  · omega

theorem length_tokensOf_events (events : List Event) :
    (tokensOf (events.map Event.entry)).length = events.length := by
  induction events with
  | nil => rfl
  | cons event events ih => simpa [Event.entry] using ih

/-- Prefilling moves on in every step that has something to prefill. -/
theorem Served.pending_step (hserved : Served cfg run dev)
    (hok : run.cb.step dev = .ok (events, cb')) :
    pending cb'.prefilling ≤ pending run.cb.prefilling ∧
      (run.cb.prefilling ≠ [] → pending cb'.prefilling < pending run.cb.prefilling) := by
  obtain ⟨kv, h⟩ := hserved.serving
  obtain ⟨decoded, cb₁, prefilled, cb₂, resumed, hdecode, hprefill, hresume, rfl⟩ := step_phases hok
  have hlast : cb'.prefilling = cb₂.prefilling := prefilling_rescheduleLoop hresume
  cases hfront : run.cb.prefilling with
  | nil =>
      have hsame := h.prefilling_decodeActive hdecode
      rw [hfront] at hsame
      simp only [advancePrefill, hsame] at hprefill
      obtain ⟨rfl, rfl⟩ := by simpa using hprefill
      simp [hlast, hsame]
  | cons front tail =>
      obtain ⟨rest, hinitial, hadvances⟩ := hserved.advances hfront hdecode hprefill
      have hheld := h.prefilling front (by simp [hfront])
      have hlt := hadvances.pending_lt (hheld.promptLen_eq ▸ hheld.unfinished)
      have hle := pending_le_of_initial hinitial
      rw [hfront] at hle
      rw [hlast]
      exact ⟨by omega, fun _ => by omega⟩

theorem Served.remaining_step (hserved : Served cfg run dev)
    (hok : run.cb.step dev = .ok (events, cb')) :
    remaining cb' ≤ remaining run.cb ∧
      (Progresses run.cb events cb' → remaining cb' < remaining run.cb) := by
  obtain ⟨kv, h⟩ := hserved.serving
  have hserves : Serves (KvMemory.vacuous dev) (fun _ _ => True) run.cb (events.map Event.entry) cb' :=
    afterDecode_spec (fun _ => trivial) (fun _ _ _ => trivial)
      (fun _ _ => decodeActive_spec h fun _ _ _ => trivial) hok
  have htokens := hserves.run.outstanding_add_le (by simp [Event.entry]) fun job hjob =>
    (hserved.sized job hjob).outstanding_pos
  rw [length_tokensOf_events] at htokens
  obtain ⟨hle, hlt⟩ := hserved.pending_step hok
  unfold remaining
  refine ⟨by omega, fun hprogress => ?_⟩
  rcases hprogress with hevents | ⟨front, next, hfront, -, -⟩
  · have := List.length_pos_iff.mpr hevents
    omega
  · have := hlt (List.ne_nil_of_mem (List.mem_of_mem_head? hfront))
    omega

/-- `n` steps, one after another. -/
def steps (dev : Device M B L) : Nat → ContinuousBatcher M B → Except Panic (ContinuousBatcher M B)
  | 0, cb => .ok cb
  | n + 1, cb => do
      let (_, cb) ← cb.step dev
      steps dev n cb

/-- Nothing remains only once nothing is live. -/
theorem Served.ids_eq_nil (hserved : Served cfg run dev) (hzero : remaining run.cb = 0) :
    run.cb.ids = [] := by
  rw [← board_eq_zero, Multiset.eq_zero_iff_forall_notMem]
  intro job hjob
  have hsum : (run.cb.board.map requestProtocol.outstanding).sum = 0 := by
    unfold remaining at hzero
    omega
  have hone := Multiset.le_sum_of_mem (Multiset.mem_map_of_mem requestProtocol.outstanding hjob)
  have := (hserved.sized job hjob).outstanding_pos
  omega

theorem Served.steps_complete {n : Nat} (hserved : Served cfg run dev) (hn : remaining run.cb ≤ n)
    (hunstuck : ∀ m < n, ∀ mid, steps dev m run.cb = .ok mid → mid.ids ≠ [] → ¬Stuck mid)
    (hok : steps dev n run.cb = .ok cb') : cb'.ids = [] := by
  induction n generalizing run with
  | zero =>
      obtain rfl := by simpa [steps] using hok
      exact hserved.ids_eq_nil (by omega)
  | succ n ih =>
      obtain ⟨⟨events, next⟩, hstep, hok⟩ := bind_eq_ok.mp hok
      have hexec : run.exec dev .step =
          .ok { cb := next, log := run.log ++ events.map Event.entry } := by
        rw [BatcherRun.exec, hstep]
        rfl
      have hfresh : Call.step.Fresh run.cb := trivial
      have hnext := hserved.step hfresh hexec
      obtain ⟨hle, hlt⟩ := hserved.remaining_step hstep
      refine ih hnext ?_ (fun m hm mid hmid => hunstuck (m + 1) (by omega) mid ?_) hok
      · simp only
        by_cases hlive : run.cb.ids = []
        · have hboard := board_eq_zero.mpr hlive
          have hprefilling : run.cb.prefilling = [] := by
            simp only [ids, List.append_eq_nil_iff, List.map_eq_nil_iff] at hlive
            exact hlive.1.2
          have hzero : remaining run.cb = 0 := by simp [remaining, hboard, hprefilling, pending]
          omega
        · have := hlt ((hserved.progresses_iff hlive hstep).mpr
            (hunstuck 0 (by omega) run.cb rfl hlive))
          omega
      · rw [steps, hstep]
        exact hmid

/-- What the scheduler gets done in the states of a run. -/
structure Schedules (dev : Device M B L) (cb : ContinuousBatcher M B) : Prop where
  terminates : ∀ cb : ContinuousBatcher M B, LoopsEnd dev cb
  fits : ∀ decoded cb₁ front rest, cb.decodeActive dev = .ok (decoded, cb₁) →
    cb₁.prefilling = front :: rest → ∃ roomy, makeChunkRoom dev front.slot
      (min (front.prefillPos + cb₁.dec.cfg.rowCap) front.promptLen)
      (cb₁.active.length + cb₁.prefilling.length) cb₁ = .ok (true, roomy)
  progress : ∀ events cb', cb.ids ≠ [] → cb.step dev = .ok (events, cb') →
    (Progresses cb events cb' ↔ ¬Stuck cb)
  completes : ∀ n cb', remaining cb ≤ n →
    (∀ m < n, ∀ mid, steps dev m cb = .ok mid → mid.ids ≠ [] → ¬Stuck mid) →
    steps dev n cb = .ok cb' → cb'.ids = []

/-- **Progress.** In every state a run reaches, the loops of a step end; a step that succeeds emits
a token or moves the front prefill on exactly where it is not stuck; and a run of unstuck steps
completes every live request within the tokens that remain. -/
theorem scheduler_progress
    (hreach : BatcherReaches dev Admits (.new cfg firstFit swapMode memory) run) :
    Schedules dev run.cb := by
  have hserved := served_of_reaches hreach
  refine ⟨loopsEnd dev, ?_, fun _ _ => hserved.progresses_iff, fun _ _ => hserved.steps_complete⟩
  intro decoded cb₁ front rest hdecode hfront
  obtain ⟨kv, h₁, hprompts⟩ := hserved.decoded hdecode
  obtain ⟨roomy, -, -, -, hroom, -⟩ :=
    advancePrefill_outcome h₁ hfront (hprompts front (by simp [hfront]))
  exact ⟨roomy, hroom⟩

/-- A run whose requests fit the context is never stuck. -/
theorem not_stuck_of_fits
    (hreach : BatcherReaches dev (FitsContext dev) (.new cfg firstFit swapMode memory) run)
    (hlive : run.cb.ids ≠ []) : ¬Stuck run.cb := by
  rintro ⟨hactive, hprefilling, hneed⟩
  obtain ⟨p, preempted, hpreempted⟩ : ∃ p preempted, run.cb.preempted = p :: preempted := by
    refine List.exists_cons_of_ne_nil fun hnil => hlive ?_
    simp [ids, hactive, hprefilling, hnil]
  have hjob : p.job ∈ run.cb.board := by simp [ContinuousBatcher.board, hpreempted]
  have hlen := ((withinContext_of_reaches hreach).2 _ hjob).length_le
  rw [PreemptedSeq.history_job] at hlen
  have hblocks := BlockState.PoolConfig.ceilDiv_le_maxBlocksPerSeq hlen
  have hpool := run.cb.dec.cfg.holdsOneSequence
  have := hneed p (by simp [hpreempted])
  unfold PoolConfig.maxBlocksPerSeq at hblocks
  omega

end

/-- One request decodes, one is prefilling and one is evicted. -/
theorem scheduler_progress_filling :
    ∃ run : BatcherRun History (List Token),
      run.cb.active.map CbSeq.id = [2] ∧ run.cb.prefilling.map PrefillingSeq.id = [3] ∧
        run.cb.preempted.map PreemptedSeq.id = [1] ∧ remaining run.cb = 9 ∧ ¬Stuck run.cb ∧
        Schedules lengthModel.device run.cb := by
  obtain ⟨run, hreach, hview⟩ : ∃ run,
      BatcherReaches lengthModel.device (FitsContext lengthModel.device) tightBatcher run ∧
        (run.cb.active.map CbSeq.id, run.cb.prefilling.map PrefillingSeq.id,
          run.cb.preempted.map PreemptedSeq.id, remaining run.cb) = ([2], [3], [1], 9) :=
    exists_reaches_of_execAll (fun run => (run.cb.active.map CbSeq.id,
      run.cb.prefilling.map PrefillingSeq.id, run.cb.preempted.map PreemptedSeq.id,
      remaining run.cb)) fillingCalls rfl
  simp only [Prod.mk.injEq] at hview
  obtain ⟨hactive, hprefilling, hpreempted, hremaining⟩ := hview
  have hlive : run.cb.ids ≠ [] := by simp [ids, hactive]
  exact ⟨run, hactive, hprefilling, hpreempted, hremaining, not_stuck_of_fits hreach hlive,
    scheduler_progress hreach⟩

/-! ### A stuck request -/

/-- Two slots of 16 positions over one block. -/
def oneBlock : PoolConfig where
  mMax := 2
  maxSeq := 16
  blockSize := defaultBlockSize
  nBlocks := 1
  prefixBlockHash := tightPool.prefixBlockHash
  blockSize_pos := defaultBlockSize_pos
  holdsOneSequence := by decide

/-- The first request, grown to 17 tokens, is evicted for the second, and no longer fits the pool.
-/
theorem scheduler_sticks :
    ¬∀ (cfg : PoolConfig) (mMax maxSeq nBlocks : Nat) (firstFit swapMode : Bool)
        (run : BatcherRun History (List Token)) (events : List Event)
        (cb' : ContinuousBatcher History (List Token)),
      PoolConfig.withPool cfg.prefixBlockHash mMax maxSeq nBlocks = .ok cfg →
      BatcherReaches lengthModel.device EnqueuesOnly (.new cfg firstFit swapMode fun _ => []) run →
      run.cb.ids ≠ [] → run.cb.step lengthModel.device = .ok (events, cb') →
      Progresses run.cb events cb' := by
  intro halways
  obtain ⟨run, hreach, hview⟩ : ∃ run, BatcherReaches lengthModel.device EnqueuesOnly
      (.new oneBlock false false fun _ => []) run ∧
        (run.cb.ids, run.cb.prefilling.length,
          (run.cb.step lengthModel.device).map Prod.fst) = ([1], 0, .ok []) :=
    exists_reaches_of_execAll (fun run => (run.cb.ids, run.cb.prefilling.length,
        (run.cb.step lengthModel.device).map Prod.fst))
      [.enqueue (greedyRequest 1 (List.replicate 15 5)),
        .enqueue { greedyRequest 2 [6] with maxTokens := 1 }, .step, .step] rfl
  simp only [Prod.mk.injEq] at hview
  obtain ⟨hids, hprefilling, hevents⟩ := hview
  cases hstep : run.cb.step lengthModel.device with
  | error panic => simp [hstep, Except.map] at hevents
  | ok out =>
      obtain ⟨events, cb'⟩ := out
      obtain rfl : events = [] := by simpa [hstep, Except.map] using hevents
      have hprogress := halways oneBlock 2 16 1 false false run [] cb' rfl hreach (by simp [hids])
        hstep
      simp [Progresses, List.length_eq_zero_iff.mp hprefilling] at hprogress

end Zllm.Gpu

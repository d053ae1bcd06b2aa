import Zllm.Gpu.Progress
import Zllm.Gpu.SpeculativeRows

/-!
# Work over the full pool

Over a full pool nothing live is stuck: what is preempted fits the pool again, and with one slot
nothing is ever preempted. So every step of either kind leaves less to do.
-/

namespace Zllm.Gpu

open Outcome ContinuousBatcher

variable {M B L : Type} {dev : Device M B L} {mem : KvMemory dev} {cb cb' cb₁ : ContinuousBatcher M B}
  {kv : Nat → SlotKv} {cfg : PoolConfig} {events : List Event}

/-! ### What is preempted can be resumed -/

/-- Whatever is preempted was, from a pool of several slots, and at most one position past the
context. -/
def Resumable (cb : ContinuousBatcher M B) : Prop :=
  ∀ p ∈ cb.preempted, 2 ≤ cb.dec.cfg.mMax ∧ p.tokens.length ≤ cb.dec.cfg.maxSeq + 1

theorem Serving.length_le (h : Serving mem 0 cb kv) {s : CbSeq} (hs : s ∈ cb.active) :
    s.tokens.length ≤ cb.dec.cfg.maxSeq + 1 := by
  have hfed := h.represents.resident.length_le s.slot
  rw [(h.active s hs).fed, List.length_dropLast] at hfed
  omega

theorem Resumable.concat {p : PreemptedSeq B} (hres : Resumable cb)
    (hcfg : cb'.dec.cfg = cb.dec.cfg) (hpreempted : cb'.preempted = cb.preempted ++ [p])
    (hslots : 2 ≤ cb.dec.cfg.mMax) (hlen : p.tokens.length ≤ cb.dec.cfg.maxSeq + 1) :
    Resumable cb' := by
  intro q hq
  rw [hpreempted, List.mem_append, List.mem_singleton] at hq
  rw [hcfg]
  rcases hq with hq | rfl
  · exact hres q hq
  · exact ⟨hslots, hlen⟩

theorem Resumable.mono (hres : Resumable cb) (hcfg : cb'.dec.cfg = cb.dec.cfg)
    (hpreempted : cb'.preempted ⊆ cb.preempted) : Resumable cb' := by
  intro p hp
  rw [hcfg]
  exact hres p (hpreempted hp)

theorem resumable_preemptLastActive {preempted : Bool} (h : Serving mem 0 cb kv)
    (hres : Resumable cb) (hslots : 2 ≤ cb.active.length + cb.prefilling.length)
    (hok : cb.preemptLastActive dev = .ok (preempted, cb')) : Resumable cb' := by
  cases hlast : cb.active.getLast? with
  | none =>
      rw [preemptLastActive_nil (List.getLast?_eq_none_iff.mp hlast)] at hok
      obtain ⟨-, rfl⟩ := by simpa using hok
      exact hres
  | some victim =>
      obtain ⟨saved, hpreempt⟩ := preemptLastActive_eq h hlast
      rw [hpreempt] at hok
      obtain ⟨-, rfl⟩ := by simpa using hok
      have hadd := h.length_add
      exact hres.concat rfl rfl (by omega) (h.length_le (List.mem_of_getLast? hlast))

theorem resumable_preemptLastPrefill {preempted : Bool} (h : Serving mem 0 cb kv)
    (hres : Resumable cb) (hprompts : ∀ pf ∈ cb.prefilling, pf.prompt.length ≤ cb.dec.cfg.maxSeq)
    (hok : cb.preemptLastPrefill = (preempted, cb')) : Resumable cb' := by
  by_cases hlen : cb.prefilling.length < 2
  · rw [preemptLastPrefill_short hlen] at hok
    obtain ⟨-, rfl⟩ := by simpa using hok
    exact hres
  · obtain ⟨pf, hlast⟩ : ∃ pf, cb.prefilling.getLast? = some pf :=
      ⟨_, List.getLast?_eq_some_getLast (List.length_pos_iff.mp (by omega))⟩
    rw [preemptLastPrefill_eq (by omega) hlast] at hok
    obtain ⟨-, rfl⟩ := by simpa using hok
    have hadd := h.length_add
    exact hres.concat rfl rfl (by omega) ((hprompts pf (List.mem_of_getLast? hlast)).trans (by omega))

theorem resumable_makeRoomLoop {fuel : Nat} (h : Serving mem 0 cb kv) (hres : Resumable cb)
    (hok : makeRoomLoop dev fuel cb = .ok cb') : Resumable cb' := by
  induction fuel generalizing cb kv with
  | zero =>
      obtain rfl := by simpa [makeRoomLoop] using hok
      exact hres
  | succ fuel ih =>
      rw [makeRoomLoop] at hok
      split at hok
      case isFalse =>
        obtain rfl := by simpa using hok
        exact hres
      case isTrue hshort =>
        obtain ⟨⟨preempted, evicted⟩, hpreempt, hok⟩ := bind_eq_ok.mp hok
        obtain ⟨kv', h'⟩ := (preemptLastActive_spec h hpreempt).serving
        exact ih h' (resumable_preemptLastActive h hres (by omega) hpreempt) hok

theorem resumable_makeChunkRoom {slot chunkEnd fuel : Nat} {fits : Bool} (h : Serving mem 0 cb kv)
    (hres : Resumable cb) (hne : cb.prefilling ≠ [])
    (hprompts : ∀ pf ∈ cb.prefilling, pf.prompt.length ≤ cb.dec.cfg.maxSeq)
    (hok : makeChunkRoom dev slot chunkEnd fuel cb = .ok (fits, cb')) : Resumable cb' := by
  induction fuel generalizing cb kv with
  | zero =>
      obtain ⟨-, rfl⟩ := by simpa [makeChunkRoom] using hok
      exact hres
  | succ fuel ih =>
      rw [makeChunkRoom] at hok
      split at hok
      case isFalse =>
        obtain ⟨-, rfl⟩ := by simpa using hok
        exact hres
      case isTrue =>
        have hpos := List.length_pos_iff.mpr hne
        by_cases hactive : cb.active = []
        · simp only [preemptLastActive_nil hactive, bind, Except.bind, Bool.false_eq_true,
            if_false] at hok
          cases hprefill : cb.preemptLastPrefill with
          | mk preempted evicted =>
              obtain ⟨kv', h'⟩ := (preemptLastPrefill_spec h hprefill).serving
              have hres' := resumable_preemptLastPrefill h hres hprompts hprefill
              simp only [hprefill] at hok
              cases preempted with
              | false =>
                  obtain ⟨-, rfl⟩ := by simpa using hok
                  exact hres'
              | true =>
                  have hevicts := preemptLastPrefill_spec h hprefill
                  obtain ⟨hlen, -, hprefilling⟩ := prefilling_preemptLastPrefill hprefill
                  refine ih h' hres' ?_ (fun pf hpf => ?_) hok
                  · have hdrop := congrArg List.length hprefilling
                    rw [List.length_dropLast] at hdrop
                    exact List.length_pos_iff.mp (by omega)
                  · rw [hevicts.cfg_eq]
                    exact hprompts pf (hevicts.prefilling_initial.subset hpf)
        · obtain ⟨⟨preempted, evicted⟩, hpreempt, hok⟩ := bind_eq_ok.mp hok
          have hevicts := preemptLastActive_spec h hpreempt
          obtain ⟨kv', h'⟩ := hevicts.serving
          obtain ⟨-, hprefilling, hpreempted⟩ := active_preemptLastActive hpreempt
          have hlen := List.length_pos_iff.mpr hactive
          obtain rfl : preempted = true := by
            rw [hpreempted, List.isEmpty_eq_false_iff.mpr hactive]
            rfl
          refine ih h' (resumable_preemptLastActive h hres (by omega) hpreempt)
            (by rwa [hprefilling]) (fun pf hpf => ?_) hok
          rw [hevicts.cfg_eq]
          exact hprompts pf (hprefilling ▸ hpf)

theorem preempted_rescheduleLoop {fuel : Nat}
    (hok : rescheduleLoop dev fuel cb = .ok (events, cb')) : cb'.preempted ⊆ cb.preempted := by
  induction fuel generalizing cb events with
  | zero =>
      obtain ⟨-, rfl⟩ := by simpa [rescheduleLoop] using hok
      exact List.Subset.refl _
  | succ fuel ih =>
      cases hpreempted : cb.preempted with
      | nil =>
          obtain ⟨-, rfl⟩ := by simpa [rescheduleLoop, hpreempted] using hok
          simp [hpreempted]
      | cons p preempted =>
          cases hfree : cb.free with
          | nil =>
              obtain ⟨-, rfl⟩ := by simpa [rescheduleLoop, hpreempted, hfree] using hok
              simp [hpreempted]
          | cons slot free =>
              by_cases hfits : cb.dec.canFit p.tokens.length = true
              · rw [rescheduleLoop_succ fuel hpreempted hfree hfits] at hok
                obtain ⟨⟨g, resumed⟩, -, hok⟩ := bind_eq_ok.mp hok
                obtain ⟨⟨more, last⟩, hmore, hok⟩ := bind_eq_ok.mp hok
                obtain ⟨-, rfl⟩ := by simpa using hok
                have hrest := ih hmore
                rw [preempted_rejoin] at hrest
                exact List.Subset.trans hrest (List.subset_cons_self _ _)
              · obtain ⟨-, rfl⟩ := by simpa [rescheduleLoop, hpreempted, hfree, hfits] using hok
                simp [hpreempted]

/-! ### The phases of a step of either kind -/

theorem length_stepSlotted {dec dec' : BatchedDecoder M} {rows : List Row} {outs : List Token}
    (hok : dec.stepSlotted dev rows = .ok (outs, dec')) : outs.length = rows.length := by
  unfold BatchedDecoder.stepSlotted BatchedDecoder.forwardLogits at hok
  obtain ⟨u, -, hok⟩ := bind_eq_ok.mp hok
  obtain ⟨⟨logits, forwarded⟩, hforward, hok⟩ := bind_eq_ok.mp hok
  obtain ⟨u, -, hforward⟩ := bind_eq_ok.mp hforward
  obtain ⟨blocks, -, hforward⟩ := bind_eq_ok.mp hforward
  simp only [pure_eq_ok, Prod.mk.injEq] at hforward hok
  rw [← hok.1, List.length_map, ← hforward.1, length_recordLayers]

theorem commitTokens_ne_nil {toks : List Token} (hne : toks ≠ []) (s : CbSeq) :
    (commitTokens toks s).2 ≠ [] := by
  cases toks with
  | nil => exact absurd rfl hne
  | cons tok toks =>
      rw [commitTokens]
      split <;> simp

theorem commitDrafts_ne_nil {layout : List (CbSeq × List Token)} {outs : List Token}
    (hlayout : layout ≠ []) (houts : outs ≠ []) : (commitDrafts layout outs).2 ≠ [] := by
  cases layout with
  | nil => exact absurd rfl hlayout
  | cons head layout =>
      have htake : (outs.take (1 + head.2.length)).take
          (acceptedLen (outs.take (1 + head.2.length)) head.2 + 1) ≠ [] := by
        simp [houts]
      simp only [commitDrafts, ne_eq, List.append_eq_nil_iff, not_and]
      intro hnil
      exact absurd hnil (commitTokens_ne_nil htake head.1)

/-- What a decode phase does, of whichever kind. -/
structure Decodes (mem : KvMemory dev) (cb : ContinuousBatcher M B) (events : List Event)
    (cb' : ContinuousBatcher M B) : Prop where
  serves : Serves mem (fun _ _ => True) cb (events.map Event.entry) cb'
  prefilling_eq : cb'.prefilling = cb.prefilling
  resumable : Resumable cb → Resumable cb'
  emits : cb.active ≠ [] → events ≠ []
  idle : cb.active = [] → cb' = cb

theorem decodes_decodeActive (h : Serving mem 0 cb kv)
    (hok : cb.decodeActive dev = .ok (events, cb')) : Decodes mem cb events cb' where
  serves := decodeActive_spec h (fun _ _ _ => trivial) hok
  prefilling_eq := h.prefilling_decodeActive hok
  resumable := by
    intro hres
    have hserves : Serves mem (fun _ _ => True) cb (events.map Event.entry) cb' :=
      decodeActive_spec h (fun _ _ _ => trivial) hok
    obtain ⟨-, -, rfl⟩ | ⟨roomy, -, hroom, -, hpreempted, -⟩ := decodeActive_frame hok
    · exact hres
    · have hroomy := resumable_makeRoomLoop h hres hroom
      have hcfg := (makeRoom_spec h hroom).cfg_eq
      exact hroomy.mono (hserves.cfg_eq.trans hcfg.symm) (hpreempted ▸ List.Subset.refl _)
  emits := fun hne => h.events_decodeActive hne hok
  idle := by
    intro hnil
    obtain ⟨-, -, rfl⟩ | ⟨roomy, hne, -⟩ := decodeActive_frame hok
    · rfl
    · exact absurd hnil hne

theorem decodes_decodeActivePld {lookupLen draftK : Nat} (h : Serving mem 0 cb kv)
    (hok : cb.decodeActivePld dev lookupLen draftK = .ok (events, cb')) :
    Decodes mem cb events cb' := by
  have hserves : Serves mem (fun _ _ => True) cb (events.map Event.entry) cb' :=
    decodeActivePld_spec h (fun _ _ _ _ => trivial) hok
  by_cases hnil : cb.active = []
  · rw [decodeActivePld, if_pos (by simpa using hnil)] at hok
    obtain ⟨rfl, rfl⟩ := by simpa using hok
    exact ⟨hserves, rfl, id, fun hne => absurd hnil hne, fun _ => rfl⟩
  · obtain ⟨roomy, hroom, hmade⟩ := makeRoom_exits h
    rw [decodeActivePld_of_room hnil hroom] at hok
    obtain ⟨⟨outs, decoded⟩, hforward, hok⟩ := bind_eq_ok.mp hok
    simp only [pure_eq_ok, Prod.mk.injEq] at hok
    have hactive := hmade.survivor hnil
    have houts : outs ≠ [] := by
      rw [← List.length_pos_iff, length_stepSlotted hforward, List.length_pos_iff]
      obtain ⟨s, rest, hcons⟩ := List.exists_cons_of_ne_nil hactive
      simp [verificationRows, hcons, draftRows, List.mapIdx_cons]
    obtain ⟨rfl, rfl⟩ := hok
    refine ⟨hserves, hmade.prefilling_eq, fun hres => ?_, fun _ => ?_, fun h => absurd h hnil⟩
    · have hroomy := resumable_makeRoomLoop h hres hroom
      have hcfg := (makeRoom_spec h hroom).cfg_eq
      exact hroomy.mono (hserves.cfg_eq.trans hcfg.symm) (List.Subset.refl _)
    · exact commitDrafts_ne_nil (by simpa using hactive) houts

/-! ### What is left to do -/

/-- Two slots of the full pool hold any sequence, and one position more. -/
theorem Resumable.not_stuck (hres : Resumable cb) (hfull : cb.dec.cfg.Full)
    (hpos : 0 < cb.dec.cfg.maxSeq) (hlive : cb.ids ≠ []) : ¬Stuck cb := by
  rintro ⟨hactive, hprefilling, hneed⟩
  obtain ⟨p, preempted, hpreempted⟩ : ∃ p preempted, cb.preempted = p :: preempted := by
    refine List.exists_cons_of_ne_nil fun hnil => hlive ?_
    simp [ids, hactive, hprefilling, hnil]
  obtain ⟨hslots, hlen⟩ := hres p (by simp [hpreempted])
  have hshort := hneed p (by simp [hpreempted])
  have hblock := cb.dec.cfg.blockSize_pos
  have hwhole : cb.dec.cfg.maxSeq ≤ cb.dec.cfg.blockSize * cb.dec.cfg.maxBlocksPerSeq :=
    (ceilDiv_le_iff_le_mul hblock).mp le_rfl
  have hblocks : 0 < cb.dec.cfg.maxBlocksPerSeq := by
    by_contra hzero
    rw [Nat.eq_zero_of_not_pos hzero, Nat.mul_zero] at hwhole
    omega
  have hfits : p.tokens.length ⌈/⌉ cb.dec.cfg.blockSize ≤ 2 * cb.dec.cfg.maxBlocksPerSeq := by
    rw [ceilDiv_le_iff_le_mul hblock]
    calc
      p.tokens.length ≤ cb.dec.cfg.maxSeq + 1 := hlen
      _ ≤ cb.dec.cfg.blockSize * cb.dec.cfg.maxBlocksPerSeq +
          cb.dec.cfg.blockSize * cb.dec.cfg.maxBlocksPerSeq :=
        Nat.add_le_add hwhole (Nat.mul_pos hblock hblocks)
      _ = cb.dec.cfg.blockSize * (2 * cb.dec.cfg.maxBlocksPerSeq) := by ring
  have hpool := (Nat.mul_le_mul_right cb.dec.cfg.maxBlocksPerSeq hslots).trans hfull
  omega

section

variable {run : BatcherRun M B} {decoded prefilled resumed : List Event}
  {cb₂ : ContinuousBatcher M B}

/-- The prefill phase that follows moves on wherever there is something to prefill. -/
theorem Decodes.pending_advancePrefill
    (hdecodes : Decodes (KvMemory.vacuous dev) run.cb decoded cb₁) (hserved : Served cfg run dev)
    (hprefill : cb₁.advancePrefill dev = .ok (prefilled, cb₂)) :
    pending cb₂.prefilling ≤ pending run.cb.prefilling ∧
      (run.cb.prefilling ≠ [] → pending cb₂.prefilling < pending run.cb.prefilling) ∧
      (Resumable cb₁ → Resumable cb₂) := by
  obtain ⟨kv₁, h₁⟩ := hdecodes.serves.serving
  cases hfront : run.cb.prefilling with
  | nil =>
      have hnil : cb₁.prefilling = [] := hdecodes.prefilling_eq.trans hfront
      simp only [advancePrefill, hnil] at hprefill
      obtain ⟨rfl, rfl⟩ := by simpa using hprefill
      simp [hnil]
  | cons front tail =>
      have hfront₁ : cb₁.prefilling = front :: tail := hdecodes.prefilling_eq.trans hfront
      have hprompts : ∀ pf ∈ cb₁.prefilling, pf.prompt.length ≤ cb₁.dec.cfg.maxSeq := by
        intro pf hpf
        rw [hdecodes.serves.cfg_eq]
        exact hserved.prompt_le (hdecodes.prefilling_eq ▸ hpf)
      obtain ⟨roomy, rest, events, cb', hroom, hvacates, hrest, hok, hadvances, hpreempted, -⟩ :=
        advancePrefill_outcome h₁ hfront₁ (hprompts front (by simp [hfront₁]))
      obtain ⟨rfl, rfl⟩ : events = prefilled ∧ cb' = cb₂ := by simpa [hok] using hprefill
      have hheld := h₁.prefilling front (by simp [hfront₁])
      have hlt := hadvances.pending_lt (hheld.promptLen_eq ▸ hheld.unfinished)
      have hle := pending_le_of_initial hvacates.prefilling_initial
      rw [hrest, hfront₁] at hle
      refine ⟨by omega, fun _ => by omega, fun hres => ?_⟩
      have hroomy := resumable_makeChunkRoom h₁ hres (by simp [hfront₁]) hprompts hroom
      have hserves : Serves (KvMemory.vacuous dev) (fun _ _ => True) cb₁ _ cb' :=
        advancePrefill_spec h₁ (fun _ _ => trivial) hok
      exact hroomy.mono (hserves.cfg_eq.trans hvacates.cfg_eq.symm)
        (hpreempted ▸ List.Subset.refl _)

theorem Decodes.serves_phases (hdecodes : Decodes mem cb decoded cb₁)
    (hprefill : cb₁.advancePrefill dev = .ok (prefilled, cb₂))
    (hresume : cb₂.reschedule dev = .ok (resumed, cb')) :
    Serves mem (fun _ _ => True) cb ((decoded ++ prefilled ++ resumed).map Event.entry) cb' := by
  obtain ⟨kv₁, h₁⟩ := hdecodes.serves.serving
  have hprefills : Serves mem (fun _ _ => True) cb₁ _ cb₂ :=
    advancePrefill_spec h₁ (fun _ _ => trivial) hprefill
  obtain ⟨kv₂, h₂⟩ := hprefills.serving
  have hresumes : Serves mem (fun _ _ => True) cb₂ _ cb' :=
    reschedule_spec h₂ (fun _ _ _ => trivial) hresume
  rw [List.map_append, List.map_append]
  exact (hdecodes.serves.trans hprefills).trans hresumes

/-- A step of either kind that is not stuck leaves less to do. -/
theorem Decodes.remaining_lt (hdecodes : Decodes (KvMemory.vacuous dev) run.cb decoded cb₁)
    (hserved : Served cfg run dev) (hunstuck : ¬Stuck run.cb) (hlive : run.cb.ids ≠ [])
    (hprefill : cb₁.advancePrefill dev = .ok (prefilled, cb₂))
    (hresume : cb₂.reschedule dev = .ok (resumed, cb')) :
    remaining cb' < remaining run.cb := by
  obtain ⟨hle, hlt, -⟩ := hdecodes.pending_advancePrefill hserved hprefill
  have hlast : cb'.prefilling = cb₂.prefilling := prefilling_rescheduleLoop hresume
  have hserves := hdecodes.serves_phases hprefill hresume
  have htokens := hserves.run.outstanding_add_le (by simp [Event.entry]) fun job hjob =>
    (hserved.sized job hjob).outstanding_pos
  rw [length_tokensOf_events] at htokens
  unfold remaining
  rw [hlast]
  by_cases hprefilling : run.cb.prefilling = []
  · -- something is emitted, by the decode phase or, where it is idle, by rescheduling
    have hemits : decoded ++ prefilled ++ resumed ≠ [] := by
      by_cases hactive : run.cb.active = []
      · have hsame : cb₂ = run.cb := by
          obtain rfl := hdecodes.idle hactive
          simp only [advancePrefill, hprefilling] at hprefill
          exact (by simpa using hprefill : _ ∧ run.cb = cb₂).2.symm
        rw [hsame] at hresume
        have := (hserved.step_idle hlive hactive hprefilling hresume).mpr hunstuck
        simp [this]
      · simp [hdecodes.emits hactive]
    have := List.length_pos_iff.mpr hemits
    omega
  · have := hlt hprefilling
    omega

theorem Decodes.resumable_reschedule
    (hdecodes : Decodes (KvMemory.vacuous dev) run.cb decoded cb₁) (hserved : Served cfg run dev)
    (hres : Resumable run.cb) (hprefill : cb₁.advancePrefill dev = .ok (prefilled, cb₂))
    (hresume : cb₂.reschedule dev = .ok (resumed, cb')) : Resumable cb' := by
  obtain ⟨-, -, hkeeps⟩ := hdecodes.pending_advancePrefill hserved hprefill
  have hcfg : cb'.dec.cfg = cb₂.dec.cfg := by
    obtain ⟨kv₁, h₁⟩ := hdecodes.serves.serving
    have hprefills : Serves (KvMemory.vacuous dev) (fun _ _ => True) cb₁ _ cb₂ :=
      advancePrefill_spec h₁ (fun _ _ => trivial) hprefill
    have hwhole := (hdecodes.serves_phases hprefill hresume).cfg_eq
    rw [hwhole, hprefills.cfg_eq, hdecodes.serves.cfg_eq]
  exact (hkeeps (hdecodes.resumable hres)).mono hcfg (preempted_rescheduleLoop hresume)

/-- The phases of a step of either kind. -/
theorem phases_of_ok {decodes : Except Panic (List Event × ContinuousBatcher M B)}
    (hok : (do
      let (decoded, cb) ← decodes
      let (prefilled, cb) ← cb.advancePrefill dev
      let (resumed, cb) ← cb.reschedule dev
      return (decoded ++ prefilled ++ resumed, cb)) = Except.ok (events, cb')) :
    ∃ decoded cb₁ prefilled cb₂ resumed, decodes = .ok (decoded, cb₁) ∧
      cb₁.advancePrefill dev = .ok (prefilled, cb₂) ∧ cb₂.reschedule dev = .ok (resumed, cb') := by
  obtain ⟨⟨decoded, cb₁⟩, hdecode, hok⟩ := bind_eq_ok.mp hok
  obtain ⟨⟨prefilled, cb₂⟩, hprefill, hok⟩ := bind_eq_ok.mp hok
  obtain ⟨⟨resumed, cb₃⟩, hresume, hok⟩ := bind_eq_ok.mp hok
  obtain ⟨-, rfl⟩ := by simpa only [pure_eq_ok, Prod.mk.injEq] using hok
  exact ⟨decoded, cb₁, prefilled, cb₂, resumed, hdecode, hprefill, hresume⟩

/-- What a step leaves: less to do where it can do something, and only what can be resumed. -/
structure Works (cb cb' : ContinuousBatcher M B) : Prop where
  remaining_lt : cb.ids ≠ [] → ¬Stuck cb → remaining cb' < remaining cb
  resumable : Resumable cb → Resumable cb'

theorem Served.works_step (hserved : Served cfg run dev)
    (hok : run.cb.step dev = .ok (events, cb')) : Works run.cb cb' := by
  obtain ⟨kv, h⟩ := hserved.serving
  obtain ⟨decoded, cb₁, prefilled, cb₂, resumed, hdecode, hprefill, hresume⟩ := phases_of_ok hok
  have hdecodes := decodes_decodeActive h hdecode
  exact ⟨fun hlive hunstuck => hdecodes.remaining_lt hserved hunstuck hlive hprefill hresume,
    fun hres => hdecodes.resumable_reschedule hserved hres hprefill hresume⟩

theorem Served.works_stepPld {lookupLen draftK : Nat} (hserved : Served cfg run dev)
    (hok : run.cb.stepPld dev lookupLen draftK = .ok (events, cb')) : Works run.cb cb' := by
  obtain ⟨kv, h⟩ := hserved.serving
  obtain ⟨decoded, cb₁, prefilled, cb₂, resumed, hdecode, hprefill, hresume⟩ := phases_of_ok hok
  have hdecodes := decodes_decodeActivePld h hdecode
  exact ⟨fun hlive hunstuck => hdecodes.remaining_lt hserved hunstuck hlive hprefill hresume,
    fun hres => hdecodes.resumable_reschedule hserved hres hprefill hresume⟩

end

/-! ### What clients add and take away -/

/-- The most that `req` adds to what is left to do. -/
def Request.weight (req : Request) : Nat := max 1 req.maxTokens + req.prompt.length

theorem remaining_concat (cb : ContinuousBatcher M B) (pf : PrefillingSeq) :
    remaining { cb with prefilling := cb.prefilling ++ [pf] } =
      remaining cb + (requestProtocol.outstanding pf.job + (pf.promptLen - pf.prefillPos)) := by
  unfold remaining pending
  rw [board_concat_prefilling, Multiset.map_cons, Multiset.sum_cons, List.map_append,
    List.sum_append, List.map_singleton, List.sum_singleton]
  omega

theorem enqueueParams_work (dev : Device M B L) (cb : ContinuousBatcher M B) (req : Request) :
    (cb.enqueueParams dev req).2.preempted = cb.preempted ∧
      remaining (cb.enqueueParams dev req).2 ≤ remaining cb + req.weight := by
  unfold enqueueParams
  split
  · exact ⟨rfl, Nat.le_add_right _ _⟩
  · split
    · exact ⟨rfl, Nat.le_add_right _ _⟩
    · next slot free hfree =>
        split
        · refine ⟨rfl, ?_⟩
          have hadded := remaining_concat cb (req.prefilling slot
            (cb.dec.prefillPrefixReuse dev req.prompt slot).1.1
            (cb.dec.prefillPrefixReuse dev req.prompt slot).1.2)
          rw [Request.job_prefilling] at hadded
          refine hadded.le.trans (Nat.add_le_add_left ?_ _)
          simp only [TokenService.Protocol.outstanding, requestProtocol, List.length_nil,
            Request.prefilling, Request.weight]
          omega
        · exact ⟨rfl, Nat.le_add_right _ _⟩

theorem cancel_work {id : Nat} (h : Serving mem 0 cb kv)
    (hsized : ∀ job ∈ cb.board, Sized cfg job) :
    (cb.cancel id).2.preempted ⊆ cb.preempted ∧ remaining (cb.cancel id).2 ≤ remaining cb := by
  have hserves : Serves mem (fun _ _ => True) cb _ (cb.cancel id).2 := cancel_spec h rfl
  have htokens := hserves.run.outstanding_add_le (by split <;> simp) fun job hjob =>
    (hsized job hjob).outstanding_pos
  have hprefilling : (cb.cancel id).2.prefilling.Sublist cb.prefilling := by
    unfold cancel
    split
    · exact List.Sublist.refl _
    · split
      · exact List.eraseP_sublist
      · split <;> exact List.Sublist.refl _
  have hpending : pending (cb.cancel id).2.prefilling ≤ pending cb.prefilling :=
    (hprefilling.map _).sum_le_sum (by simp)
  refine ⟨?_, by unfold remaining; omega⟩
  unfold cancel
  split
  · exact List.Subset.refl _
  · split
    · exact List.Subset.refl _
    · split
      · exact List.eraseP_subset
      · exact List.Subset.refl _

end Zllm.Gpu

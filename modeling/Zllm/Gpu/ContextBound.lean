import Zllm.Gpu.Aborts
import Zllm.Gpu.OwnPrefix

/-!
# Rows stay inside the context

`enqueue_params` checks a prompt against `max_seq`, but not the tokens the request may still
produce. As long as every accepted request fits with its tokens, no row is fed at a position that
`write_inputs` refuses.
-/

namespace Zllm.Gpu

open Outcome ContinuousBatcher

variable {M B L : Type} {dev : Device M B L} {mem : KvMemory dev} {cb : ContinuousBatcher M B}
  {kv : Nat → SlotKv} {dec : BatchedDecoder M} {rows : List Row} {slot : Nat}

/-! ### Calls that cannot exceed the context -/

theorem avoids_forwardLogits_of_lt (hpos : ∀ row ∈ rows, row.pos < dec.cfg.maxSeq) :
    Avoids .positionExceeds (dec.forwardLogits dev rows) := by
  have hinputs : BatchedDecoder.writeInputs dec.cfg rows = .ok () := by
    rw [BatchedDecoder.writeInputs, if_pos]
    simpa using hpos
  refine avoids_forwardLogits ?_ (avoids_preparePaging (by decide) (by decide) _ _)
  rw [hinputs]
  exact avoids_ok _ _

theorem avoids_prefillChunk_of_le {prompt : List Token} {start : Nat} {samp : Option (ℚ × UInt32)}
    (hlen : prompt.length ≤ dec.cfg.maxSeq) :
    Avoids .positionExceeds (dec.prefillChunk dev prompt slot start samp) := by
  refine avoids_prefillChunk (by decide) fun stop hstop => avoids_forwardLogits_of_lt ?_
  intro row hrow
  obtain ⟨i, hi, rfl⟩ := List.mem_mapIdx.mp hrow
  simp only [List.length_drop, List.length_take] at hi ⊢
  omega

/-! ### Sizes that do not change -/

theorem cfg_forwardLogits {logits : List L} {dec' : BatchedDecoder M}
    (hok : dec.forwardLogits dev rows = .ok (logits, dec')) : dec'.cfg = dec.cfg := by
  unfold BatchedDecoder.forwardLogits at hok
  obtain ⟨u, -, hok⟩ := bind_eq_ok.mp hok
  obtain ⟨blocks, -, hok⟩ := bind_eq_ok.mp hok
  simp only [pure_eq_ok, Prod.mk.injEq] at hok
  rw [← hok.2]

theorem cfg_prefillChunk {prompt : List Token} {start : Nat} {samp : Option (ℚ × UInt32)}
    {out : Nat × Option Token} {dec' : BatchedDecoder M}
    (hok : dec.prefillChunk dev prompt slot start samp = .ok (out, dec')) :
    dec'.cfg = dec.cfg := by
  unfold BatchedDecoder.prefillChunk at hok
  split at hok
  case isFalse => cases hok
  case isTrue =>
    obtain ⟨⟨logits, forwarded⟩, hforward, hok⟩ := bind_eq_ok.mp hok
    simp only [pure_eq_ok, Prod.mk.injEq] at hok
    rw [← hok.2, cfg_forwardLogits hforward]

theorem cfg_swapIn {host : HostKv B} {restored : Bool} {dec' : BatchedDecoder M}
    (hok : dec.swapIn dev slot host = .ok (restored, dec')) : dec'.cfg = dec.cfg := by
  unfold BatchedDecoder.swapIn at hok
  obtain ⟨⟨phys?, blocks⟩, -, hok⟩ := bind_eq_ok.mp hok
  cases phys? with
  | none =>
      simp only [pure_eq_ok, Prod.mk.injEq] at hok
      rw [← hok.2]
  | some phys =>
      simp only [pure_eq_ok, Prod.mk.injEq] at hok
      rw [← hok.2]

/-! ### Phases that stay inside the context -/

theorem avoids_prefillLoop {prompt : List Token} {samp : Option (ℚ × UInt32)}
    (fuel start : Nat) (firstTok : Token) (dec : BatchedDecoder M)
    (hlen : prompt.length ≤ dec.cfg.maxSeq) :
    Avoids .positionExceeds
      (BatchedDecoder.prefillLoop dev prompt slot samp fuel start firstTok dec) := by
  induction fuel generalizing start firstTok dec with
  | zero => exact avoids_ok _ _
  | succ fuel ih =>
      rw [BatchedDecoder.prefillLoop]
      split
      case isFalse => exact avoids_ok _ _
      case isTrue =>
        refine avoids_bind (avoids_prefillChunk_of_le hlen) fun out hout => ih _ _ _ ?_
        rwa [cfg_prefillChunk hout]

theorem avoids_prefillSlotCached {prompt : List Token} {samp : Option (ℚ × UInt32)} :
    Avoids .positionExceeds (dec.prefillSlotCached dev prompt slot samp) := by
  unfold BatchedDecoder.prefillSlotCached
  split
  case isFalse => exact avoids_error (by decide)
  case isTrue hprompt =>
    refine avoids_bind ?_ fun _ _ => ?_
    · unfold BatchedDecoder.prefillSlotFrom
      split
      · exact avoids_prefillLoop _ _ _ _ hprompt.2
      · exact avoids_error (by decide)
    · exact avoids_bind (avoids_prefillRegister (by decide)) fun _ _ => avoids_pure _ _

theorem avoids_decodeBatch_of_lt {active : List CbSeq}
    (hpos : ∀ s ∈ active, s.pos < dec.cfg.maxSeq) :
    Avoids .positionExceeds (decodeBatch dev active dec) := by
  refine avoids_decodeBatch (by decide) (avoids_forwardLogits_of_lt fun row hrow => ?_)
  obtain ⟨s, hs, rfl⟩ := List.mem_map.mp hrow
  exact hpos s hs

theorem avoids_resumeSeq {p : PreemptedSeq B} (hlen : p.tokens.length ≤ dec.cfg.maxSeq)
    (hkv : p.kv ≠ none → p.promptLen < p.tokens.length) :
    Avoids .positionExceeds (resumeSeq dev p slot dec) := by
  unfold resumeSeq
  dsimp only
  split
  case h_1 host hhost =>
    have hpos := hkv (by simp [hhost])
    refine avoids_bind (avoids_swapIn (by decide)) fun out hout =>
      avoids_decodeOne (by decide) (by decide) (avoids_forwardLogits_of_lt ?_)
    simp only [List.mem_singleton, forall_eq, cfg_swapIn hout]
    omega
  case h_2 => exact avoids_bind avoids_prefillSlotCached fun _ _ => avoids_pure _ _

/-! ### Requests that fit -/

/-- Every token that `req` may be fed lies inside the context. -/
def Request.WithinContext (cfg : PoolConfig) (req : Request) : Prop :=
  req.prompt.length ≤ cfg.maxSeq ∧
    (req.maxTokens ≤ 1 ∨ req.prompt.length + req.maxTokens ≤ cfg.maxSeq + 1)

/-- The job of such a request, while it is served. -/
def WithinContext (cfg : PoolConfig) (job : RequestJob) : Prop :=
  job.req.WithinContext cfg ∧
    (job.produced = [] ∨ job.produced.length < job.req.maxTokens)

theorem WithinContext.length_le {cfg : PoolConfig} {job : RequestJob}
    (hjob : WithinContext cfg job) : (history job).length ≤ cfg.maxSeq := by
  obtain ⟨⟨hprompt, hfits⟩, hproduced⟩ := hjob
  rw [history, List.length_append]
  rcases hproduced with hnil | hlt
  · simpa [hnil] using hprompt
  · omega

theorem WithinContext.push {cfg : PoolConfig} {job : RequestJob} {tok : Token}
    (hjob : WithinContext cfg job) (hmore : requestProtocol.completes job tok = false) :
    WithinContext cfg (job.push tok) := by
  simp only [TokenService.Protocol.completes, Bool.or_eq_false_iff,
    decide_eq_false_iff_not] at hmore
  refine ⟨hjob.1, Or.inr ?_⟩
  have := hmore.2
  simp only [requestProtocol] at this
  simp only [TokenService.Job.push, List.length_append, List.length_singleton]
  omega

theorem Serves.withinContext {events : List Event} {Allowed : RequestJob → Kernel → Prop}
    {cb' : ContinuousBatcher M B} (hserves : Serves mem Allowed cb (events.map Event.entry) cb')
    (hboard : ∀ job ∈ cb.board, WithinContext cb.dec.cfg job) :
    ∀ job ∈ cb'.board, WithinContext cb'.dec.cfg job := by
  rw [hserves.cfg_eq]
  refine hserves.run.forall_board ?_ (fun _ _ => WithinContext.push) hboard
  intro req hreq
  obtain ⟨event, -, hentry⟩ := List.mem_map.mp hreq
  cases hentry

theorem avoids_decodeActive (h : Serving mem 0 cb kv)
    (hboard : ∀ job ∈ cb.board, WithinContext cb.dec.cfg job) :
    Avoids .positionExceeds (cb.decodeActive dev) := by
  unfold decodeActive
  split
  case isTrue => exact avoids_ok _ _
  case isFalse =>
    refine avoids_bind (avoids_makeRoomLoop (by decide) _ _) fun roomy hroom => ?_
    have hevicts := makeRoom_spec h hroom
    obtain ⟨kv', h'⟩ := hevicts.serving
    refine avoids_bind (avoids_decodeBatch_of_lt ?_) fun _ _ => avoids_pure _ _
    intro s hs
    have hjob : s.job ∈ roomy.board := by
      simp only [ContinuousBatcher.board, Multiset.mem_add, Multiset.mem_coe]
      exact Or.inl (Or.inl (List.mem_map_of_mem hs))
    have hlen := (hboard s.job (hevicts.board_eq ▸ hjob)).length_le
    have hproduced := (h'.active s hs).produced
    rw [CbSeq.history_job] at hlen
    rw [hevicts.cfg_eq, CbSeq.pos]
    omega

theorem avoids_advancePrefill (h : Serving mem 0 cb kv)
    (hboard : ∀ job ∈ cb.board, WithinContext cb.dec.cfg job) :
    Avoids .positionExceeds (cb.advancePrefill dev) := by
  unfold advancePrefill
  split
  case h_1 => exact avoids_ok _ _
  case h_2 =>
    refine avoids_bind (avoids_makeChunkRoom (by decide) _ _ _) fun out hroom => ?_
    obtain ⟨fits, roomy⟩ := out
    have hevicts := makeChunkRoom_spec h hroom
    cases fits with
    | false => exact avoids_pure _ _
    | true =>
        simp only [Bool.not_true, Bool.false_eq_true, if_false]
        split
        case h_1 => exact avoids_error (by decide)
        case h_2 pf rest hprefilling =>
          have hjob : pf.job ∈ roomy.board := by
            simp [ContinuousBatcher.board, hprefilling]
          have hlen := (hboard pf.job (hevicts.board_eq ▸ hjob)).length_le
          rw [PrefillingSeq.history_job, ← hevicts.cfg_eq] at hlen
          refine avoids_bind (avoids_prefillChunk_of_le hlen) fun chunk _ => ?_
          obtain ⟨⟨next, first⟩, chunked⟩ := chunk
          cases first with
          | none => exact avoids_pure _ _
          | some g =>
              refine avoids_bind (avoids_prefillRegister (by decide)) fun _ _ => ?_
              split <;> exact avoids_pure _ _

theorem avoids_rescheduleLoop (fuel : Nat) (cb : ContinuousBatcher M B) {kv : Nat → SlotKv}
    (h : Serving mem 0 cb kv) (hboard : ∀ job ∈ cb.board, WithinContext cb.dec.cfg job) :
    Avoids .positionExceeds (rescheduleLoop dev fuel cb) := by
  induction fuel generalizing cb kv with
  | zero => exact avoids_ok _ _
  | succ fuel ih =>
      cases hpreempted : cb.preempted with
      | nil => simpa [rescheduleLoop, hpreempted] using avoids_ok _ _
      | cons p preempted =>
          cases hfree : cb.free with
          | nil => simpa [rescheduleLoop, hpreempted, hfree] using avoids_ok _ _
          | cons slot free =>
              by_cases hfits : cb.dec.canFit p.tokens.length = true
              · rw [rescheduleLoop_succ fuel hpreempted hfree hfits]
                have hjob : p.job ∈ cb.board := by
                  simp [ContinuousBatcher.board, hpreempted]
                have hlen := (hboard p.job hjob).length_le
                rw [PreemptedSeq.history_job] at hlen
                have hkept := h.preempted p (by simp [hpreempted])
                refine avoids_bind (avoids_resumeSeq hlen hkept.length_lt) fun out hresume => ?_
                have hserves : Serves mem (fun _ _ => True) cb
                    ([eventOf ((p.resumed slot).push out.1)].map Event.entry) _ :=
                  rejoin_spec h hpreempted hfree (fun _ => trivial) hfits hresume
                obtain ⟨kv', h'⟩ := hserves.serving
                exact avoids_bind (ih _ h' (hserves.withinContext hboard)) fun _ _ =>
                  avoids_pure _ _
              · simpa [rescheduleLoop, hpreempted, hfree, hfits] using avoids_ok _ _

theorem avoids_step (h : Serving mem 0 cb kv)
    (hboard : ∀ job ∈ cb.board, WithinContext cb.dec.cfg job) :
    Avoids .positionExceeds (cb.step dev) := by
  unfold step
  refine avoids_bind (avoids_decodeActive h hboard) fun out hdecode => ?_
  have hserves : Serves mem (fun _ _ => True) cb _ _ :=
    decodeActive_spec h (fun _ _ _ => trivial) hdecode
  obtain ⟨kv₁, h₁⟩ := hserves.serving
  have hboard₁ := hserves.withinContext hboard
  refine avoids_bind (avoids_advancePrefill h₁ hboard₁) fun out' hprefill => ?_
  have hserves' : Serves mem (fun _ _ => True) _ _ _ :=
    advancePrefill_spec h₁ (fun _ _ => trivial) hprefill
  obtain ⟨kv₂, h₂⟩ := hserves'.serving
  exact avoids_bind (avoids_rescheduleLoop _ _ h₂ (hserves'.withinContext hboard₁)) fun _ _ =>
    avoids_pure _ _

/-! ### Runs that fit -/

section

variable {cfg : PoolConfig} {firstFit swapMode : Bool} {memory : M} {run run' : BatcherRun M B}

/-- Requests are enqueued, cancelled and stepped. -/
def EnqueuesOnly (_ : ContinuousBatcher M B) : Call → Prop
  | .admitParams _ => False
  | .stepPld _ _ => False
  | _ => True

/-- And each request that is accepted fits the context with all but the last of its tokens, which
is never fed. -/
def FitsContext (dev : Device M B L) (cb : ContinuousBatcher M B) : Call → Prop
  | .enqueue req => (cb.enqueueParams dev req).1 = true →
      req.maxTokens ≤ 1 ∨ req.prompt.length + req.maxTokens ≤ cb.dec.cfg.maxSeq + 1
  | .cancel _ => True
  | .step => True
  | .admitParams _ => False
  | .stepPld _ _ => False

theorem withinContext_exec {call : Call} (h : Serving mem 0 run.cb kv)
    (hboard : ∀ job ∈ run.cb.board, WithinContext run.cb.dec.cfg job)
    (hfresh : call.Fresh run.cb) (hfits : FitsContext dev run.cb call)
    (hok : run.exec dev call = .ok run') :
    (∃ kv, Serving mem 0 run'.cb kv) ∧
      ∀ job ∈ run'.cb.board, WithinContext run'.cb.dec.cfg job := by
  cases call with
  | enqueue req =>
      obtain rfl := by simpa [BatcherRun.exec] using hok
      have hserves : Serves mem (fun _ _ => True) run.cb
          (if (run.cb.enqueueParams dev req).1 then [.accepted req] else [])
          (run.cb.enqueueParams dev req).2 :=
        enqueueParams_spec h hfresh rfl
      refine ⟨hserves.serving, ?_⟩
      rw [hserves.cfg_eq]
      refine hserves.run.forall_board ?_ (fun _ _ => WithinContext.push) hboard
      intro other hother
      split at hother
      case isFalse => simp at hother
      case isTrue haccepted =>
        obtain rfl := by simpa using hother
        exact ⟨⟨(enqueueParams_accepts haccepted).1, hfits haccepted⟩, Or.inl rfl⟩
  | cancel id =>
      obtain rfl := by simpa [BatcherRun.exec] using hok
      have hserves : Serves mem (fun _ _ => True) run.cb
          (if (run.cb.cancel id).1 then [.cancelled id] else []) (run.cb.cancel id).2 :=
        cancel_spec h rfl
      refine ⟨hserves.serving, ?_⟩
      rw [hserves.cfg_eq]
      refine hserves.run.forall_board ?_ (fun _ _ => WithinContext.push) hboard
      intro other hother
      split at hother <;> simp at hother
  | step =>
      obtain ⟨⟨events, cb⟩, hstep, hok⟩ := bind_eq_ok.mp hok
      obtain rfl := by simpa using hok
      have hserves : Serves mem (fun _ _ => True) run.cb (events.map Event.entry) cb :=
        afterDecode_spec (fun _ => trivial) (fun _ _ _ => trivial)
          (fun _ _ => decodeActive_spec h fun _ _ _ => trivial) hstep
      exact ⟨hserves.serving, hserves.withinContext hboard⟩
  | admitParams => exact hfits.elim
  | stepPld => exact hfits.elim

theorem withinContext_of_reaches
    (hreach : BatcherReaches dev (FitsContext dev) (.new cfg firstFit swapMode memory) run) :
    (∃ kv, Serving (KvMemory.vacuous dev) 0 run.cb kv) ∧
      ∀ job ∈ run.cb.board, WithinContext run.cb.dec.cfg job := by
  induction hreach with
  | refl => exact ⟨⟨_, serving_new trivial⟩, by
      simp [BatcherRun.new, ContinuousBatcher.new, ContinuousBatcher.board]⟩
  | tail _ hstep ih =>
      obtain ⟨⟨kv, h⟩, hboard⟩ := ih
      obtain ⟨call, hfresh, hfits, hok⟩ := hstep
      exact withinContext_exec h hboard hfresh hfits hok

/-- **No row past the context.** Where every accepted request fits the context with its tokens, no
step of the run fails the position assertion of `write_inputs`. -/
theorem step_within_context
    (hreach : BatcherReaches dev (FitsContext dev) (.new cfg firstFit swapMode memory) run) :
    Avoids .positionExceeds (run.cb.step dev) := by
  obtain ⟨⟨kv, h⟩, hboard⟩ := withinContext_of_reaches hreach
  exact avoids_step h hboard

end

/-! ### A request that does not fit -/

/-- The full pool of one slot of one position. -/
def onePosition : PoolConfig where
  mMax := 1
  maxSeq := 1
  blockSize := defaultBlockSize
  nBlocks := 1
  prefixBlockHash := fun prev tokens => prev * 31 + UInt64.ofNat (tokens.headD 0) + 1
  blockSize_pos := defaultBlockSize_pos
  holdsOneSequence := by decide

def onePositionRequest (maxTokens : Nat) : Request where
  id := 1
  prompt := [5]
  maxTokens := maxTokens
  eos := 100
  params := .greedy
  seed := 0

instance (cb : ContinuousBatcher M B) : (call : Call) → Decidable (EnqueuesOnly cb call)
  | .enqueue _ => inferInstanceAs (Decidable True)
  | .admitParams _ => inferInstanceAs (Decidable False)
  | .cancel _ => inferInstanceAs (Decidable True)
  | .step => inferInstanceAs (Decidable True)
  | .stepPld _ _ => inferInstanceAs (Decidable False)

instance (cb : ContinuousBatcher M B) : (call : Call) → Decidable (FitsContext dev cb call)
  | .enqueue req => inferInstanceAs (Decidable ((cb.enqueueParams dev req).1 = true →
      req.maxTokens ≤ 1 ∨ req.prompt.length + req.maxTokens ≤ cb.dec.cfg.maxSeq + 1))
  | .admitParams _ => inferInstanceAs (Decidable False)
  | .cancel _ => inferInstanceAs (Decidable True)
  | .step => inferInstanceAs (Decidable True)
  | .stepPld _ _ => inferInstanceAs (Decidable False)

/-- A request of four prompt tokens that fills the context of `tightPool`, its last token not fed. -/
def fillingRequest (id : Nat) (prompt : List Token) : Request :=
  { greedyRequest id prompt with maxTokens := 5 }

/-- Two such requests take the pool from one another, and a third request joins them. -/
def fillingCalls : List Call :=
  [.enqueue (fillingRequest 1 [7, 7, 7, 7]), .enqueue (fillingRequest 2 [8, 8, 8, 8]),
    .step, .step, .step, .step, .enqueue (greedyRequest 3 [9])]

/-- Evicted and resumed, the first request is about to feed the last position. -/
theorem step_within_context_filling :
    ∃ run : BatcherRun History (List Token),
      BatcherReaches lengthModel.device (FitsContext lengthModel.device) tightBatcher run ∧
        run.cb.active.map CbSeq.tokens = [[7, 7, 7, 7, 4, 5, 6, 7]] ∧
        Avoids .positionExceeds (run.cb.step lengthModel.device) := by
  obtain ⟨run, hreach, hactive⟩ : ∃ run,
      BatcherReaches lengthModel.device (FitsContext lengthModel.device) tightBatcher run ∧
        run.cb.active.map CbSeq.tokens = [[7, 7, 7, 7, 4, 5, 6, 7]] :=
    exists_reaches_of_execAll (fun run => run.cb.active.map CbSeq.tokens)
      (fillingCalls ++ [.step, .step, .step]) rfl
  exact ⟨run, hreach, hactive, step_within_context hreach⟩

/-- A request of one prompt token and two more is accepted, and its second token is fed past the
context. -/
theorem step_exceeds_context :
    ¬∀ (cfg : PoolConfig) (mMax maxSeq : Nat) (firstFit swapMode : Bool)
        (run : BatcherRun History (List Token)),
      PoolConfig.new cfg.prefixBlockHash mMax maxSeq = .ok cfg →
      BatcherReaches lengthModel.device EnqueuesOnly (.new cfg firstFit swapMode fun _ => []) run →
      Avoids .positionExceeds (run.cb.step lengthModel.device) := by
  intro hnever
  obtain ⟨run, hreach, hfails⟩ : ∃ run,
      BatcherReaches lengthModel.device EnqueuesOnly (.new onePosition false false fun _ => []) run ∧
        (run.cb.step lengthModel.device).map (fun _ => ()) = .error .positionExceeds :=
    exists_reaches_of_execAll (fun run => (run.cb.step lengthModel.device).map fun _ => ())
      [.enqueue (onePositionRequest 2), .step] rfl
  have havoids := hnever onePosition 1 1 false false run rfl hreach
  cases hstep : run.cb.step lengthModel.device with
  | error panic =>
      rw [hstep] at hfails havoids
      exact havoids (by simpa [Except.map] using hfails)
  | ok out => simp [hstep, Except.map] at hfails

end Zllm.Gpu

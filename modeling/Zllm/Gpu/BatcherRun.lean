import Zllm.Gpu.Admission
import Mathlib.Logic.Relation

/-!
# Runs of the batcher

A run makes any calls in any order, and its log is what the clients see. Whatever a run does, the
batcher serves on and the log is a run of the request protocol.
-/

namespace Zllm.Gpu

open Outcome ContinuousBatcher
open TokenService (Run)

inductive Call where
  | enqueue (req : Request)
  | admitParams (req : Request)
  | cancel (id : Nat)
  | step
  | stepPld (lookupLen draftK : Nat)

structure BatcherRun (M B : Type) where
  cb : ContinuousBatcher M B
  log : List LogEntry

variable {M B L : Type}

def BatcherRun.new (cfg : PoolConfig) (firstFit swapMode : Bool) (memory : M) : BatcherRun M B where
  cb := .new cfg firstFit swapMode memory
  log := []

/-- Make one call and log what it shows its client. -/
def BatcherRun.exec (dev : Device M B L) (call : Call) (run : BatcherRun M B) :
    Except Panic (BatcherRun M B) :=
  match call with
  | .enqueue req =>
      let (accepted, cb) := run.cb.enqueueParams dev req
      .ok { cb, log := run.log ++ if accepted then [.accepted req] else [] }
  | .admitParams req => do
      let (outcome, cb) ← run.cb.admitParams dev req
      return { cb, log := run.log ++ admitEntries req outcome }
  | .cancel id =>
      let (found, cb) := run.cb.cancel id
      .ok { cb, log := run.log ++ if found then [.cancelled id] else [] }
  | .step => do
      let (events, cb) ← run.cb.step dev
      return { cb, log := run.log ++ events.map Event.entry }
  | .stepPld lookupLen draftK => do
      let (events, cb) ← run.cb.stepPld dev lookupLen draftK
      return { cb, log := run.log ++ events.map Event.entry }

/-- A request comes with an id that is not live. -/
def Call.Fresh (cb : ContinuousBatcher M B) : Call → Prop
  | .enqueue req => req.id ∉ cb.ids
  | .admitParams req => req.id ∉ cb.ids
  | _ => True

def Call.isFresh (cb : ContinuousBatcher M B) : Call → Bool
  | .enqueue req => !cb.ids.contains req.id
  | .admitParams req => !cb.ids.contains req.id
  | _ => true

theorem Call.isFresh_iff {cb : ContinuousBatcher M B} {call : Call} :
    call.isFresh cb = true ↔ call.Fresh cb := by
  cases call <;> simp [Call.isFresh, Call.Fresh]

/-- One call that succeeds, among those that `Admits` lets the run make. -/
def BatcherStep (dev : Device M B L) (Admits : ContinuousBatcher M B → Call → Prop)
    (run run' : BatcherRun M B) : Prop :=
  ∃ call : Call, call.Fresh run.cb ∧ Admits run.cb call ∧ run.exec dev call = .ok run'

/-- The runs from a fresh batcher. -/
def BatcherReaches (dev : Device M B L) (Admits : ContinuousBatcher M B → Call → Prop)
    (start run : BatcherRun M B) : Prop :=
  Relation.ReflTransGen (BatcherStep dev Admits) start run

/-! ### What a call does -/

section

variable {dev : Device M B L} {mem : KvMemory dev} {Allowed : RequestJob → Kernel → Prop}
  {cb cb' : ContinuousBatcher M B} {kv : Nat → SlotKv}

/-- The sequences that a step resumes after the decode phase `decoded`: the reschedule phase takes
the front of the queue, one sequence for each of its events. -/
def resumed (dev : Device M B L) (decoded : Except Panic (List Event × ContinuousBatcher M B)) :
    List (PreemptedSeq B) :=
  match decoded with
  | .error _ => []
  | .ok (_, cb) =>
      match cb.advancePrefill dev with
      | .error _ => []
      | .ok (_, cb) =>
          match cb.reschedule dev with
          | .error _ => []
          | .ok (events, _) => cb.preempted.take events.length

/-- The sequences that a step resumes are resumed as `Allowed` admits. -/
def ResumesAllowed (dev : Device M B L) (Allowed : RequestJob → Kernel → Prop)
    (decoded : Except Panic (List Event × ContinuousBatcher M B)) : Prop :=
  ∀ p ∈ resumed dev decoded, (p.kv ≠ none → p.promptLen < p.tokens.length) →
    Allowed p.job (resumeKernel p)

/-- Every token the call selects is selected by a kernel that `Allowed` admits. -/
def Call.Permits (dev : Device M B L) (Allowed : RequestJob → Kernel → Prop)
    (cb : ContinuousBatcher M B) : Call → Prop
  | .step => (∀ s ∈ cb.batch dev, s.promptLen < s.tokens.length →
        Allowed s.job (batchKernel (cb.batch dev))) ∧
      ResumesAllowed dev Allowed (cb.decodeActive dev)
  | .stepPld lookupLen draftK =>
      (∀ s ∈ cb.batch dev, ∀ job, job.req = s.job.req → Allowed job .argmax) ∧
      ResumesAllowed dev Allowed (cb.decodeActivePld dev lookupLen draftK)
  | _ => True

/-- The two phases that follow every decode phase. -/
theorem afterDecode_spec {decoded : Except Panic (List Event × ContinuousBatcher M B)}
    {events : List Event} (hfirst : ∀ req, Allowed ⟨req, []⟩ (firstKernel req.params))
    (hresume : ResumesAllowed dev Allowed decoded)
    (hdecode : ∀ events cb', decoded = .ok (events, cb') →
      Serves mem Allowed cb (events.map Event.entry) cb')
    (hok : (do
      let (decoded, cb) ← decoded
      let (prefilled, cb) ← cb.advancePrefill dev
      let (resumed, cb) ← cb.reschedule dev
      return (decoded ++ prefilled ++ resumed, cb)) = Except.ok (events, cb')) :
    Serves mem Allowed cb (events.map Event.entry) cb' := by
  obtain ⟨⟨events₁, cb₁⟩, hdecoded, hok⟩ := bind_eq_ok.mp hok
  obtain ⟨⟨events₂, cb₂⟩, hprefilled, hok⟩ := bind_eq_ok.mp hok
  obtain ⟨⟨events₃, cb₃⟩, hresumed, hok⟩ := bind_eq_ok.mp hok
  simp only [pure_eq_ok, Prod.mk.injEq] at hok
  obtain ⟨rfl, rfl⟩ := hok
  have hserves₁ := hdecode _ _ hdecoded
  obtain ⟨kv₁, h₁⟩ := hserves₁.serving
  have hpending : ∀ pf ∈ cb₁.prefilling, Allowed pf.job (firstKernel pf.params) := by
    intro pf hpf
    have hproduced := (h₁.prefilling pf hpf).history_eq.2
    have hjob : pf.job = ⟨pf.job.req, []⟩ := by rw [← hproduced]
    rw [hjob]
    exact hfirst _
  have hserves₂ := advancePrefill_spec h₁ hpending hprefilled
  obtain ⟨kv₂, h₂⟩ := hserves₂.serving
  have htaken : resumed dev decoded = cb₂.preempted.take events₃.length := by
    simp [resumed, hdecoded, hprefilled, hresumed]
  rw [ResumesAllowed, htaken] at hresume
  have hserves₃ := reschedule_spec h₂ hresume hresumed
  rw [List.map_append, List.map_append]
  exact (hserves₁.trans hserves₂).trans hserves₃

theorem exec_spec {run run' : BatcherRun M B} {call : Call} (h : Serving mem 0 run.cb kv)
    (hfresh : call.Fresh run.cb) (hfirst : ∀ req, Allowed ⟨req, []⟩ (firstKernel req.params))
    (hpermits : call.Permits dev Allowed run.cb) (hok : run.exec dev call = .ok run') :
    ∃ entries, run'.log = run.log ++ entries ∧ Serves mem Allowed run.cb entries run'.cb := by
  cases call with
  | enqueue req =>
      obtain rfl := by simpa [BatcherRun.exec] using hok
      exact ⟨_, rfl, enqueueParams_spec h hfresh rfl⟩
  | admitParams req =>
      obtain ⟨⟨outcome, cb⟩, hadmit, hok⟩ := bind_eq_ok.mp hok
      obtain rfl := by simpa using hok
      exact ⟨_, rfl, admitParams_spec h hfresh (hfirst req) hadmit⟩
  | cancel id =>
      obtain rfl := by simpa [BatcherRun.exec] using hok
      exact ⟨_, rfl, cancel_spec h rfl⟩
  | step =>
      obtain ⟨⟨events, cb⟩, hstep, hok⟩ := bind_eq_ok.mp hok
      obtain rfl := by simpa using hok
      exact ⟨_, rfl, afterDecode_spec hfirst hpermits.2
        (fun _ _ => decodeActive_spec h hpermits.1) hstep⟩
  | stepPld lookupLen draftK =>
      obtain ⟨⟨events, cb⟩, hstep, hok⟩ := bind_eq_ok.mp hok
      obtain rfl := by simpa using hok
      exact ⟨_, rfl, afterDecode_spec hfirst hpermits.2
        (fun _ _ => decodeActivePld_spec h hpermits.1) hstep⟩

end

/-! ### What a run does -/

section

variable {dev : Device M B L} {mem : KvMemory dev} {Allowed : RequestJob → Kernel → Prop}
  {Admits : ContinuousBatcher M B → Call → Prop} {cfg : PoolConfig} {firstFit swapMode : Bool}
  {memory : M} {run run' : BatcherRun M B}

theorem serving_new
    (hholds : mem.Holds cfg (BlockState.new cfg firstFit) memory fun _ => SlotKv.empty) :
    Serving mem 0 (ContinuousBatcher.new cfg firstFit swapMode memory) fun _ => SlotKv.empty where
  represents := ⟨resident_new firstFit, hholds⟩
  slots := by simp [ContinuousBatcher.new, ContinuousBatcher.slots, Multiset.range]
  idle := by simp [ContinuousBatcher.new, BlockState.new]
  active := by simp [ContinuousBatcher.new]
  prefilling := by simp [ContinuousBatcher.new]
  preempted := by simp [ContinuousBatcher.new]

/-- What holds of the batcher and the log after any run. -/
structure Ran (mem : KvMemory dev) (Allowed : RequestJob → Kernel → Prop) (cfg : PoolConfig)
    (run : BatcherRun M B) : Prop where
  serving : ∃ kv, Serving mem 0 run.cb kv
  log : Run requestProtocol (Picks mem Allowed) 0 run.log run.cb.board
  cfg_eq : run.cb.dec.cfg = cfg

theorem ran_new
    (hholds : mem.Holds cfg (BlockState.new cfg firstFit) memory fun _ => SlotKv.empty) :
    Ran mem Allowed cfg (BatcherRun.new cfg firstFit swapMode memory) :=
  ⟨⟨_, serving_new hholds⟩, .refl _, rfl⟩

theorem Ran.step {call : Call} (hran : Ran mem Allowed cfg run)
    (hfirst : ∀ req, Allowed ⟨req, []⟩ (firstKernel req.params)) (hfresh : call.Fresh run.cb)
    (hpermits : call.Permits dev Allowed run.cb) (hok : run.exec dev call = .ok run') :
    Ran mem Allowed cfg run' := by
  obtain ⟨kv, h⟩ := hran.serving
  obtain ⟨entries, hlog, hserves⟩ := exec_spec h hfresh hfirst hpermits hok
  exact ⟨hserves.serving, hlog ▸ hran.log.trans hserves.run, hserves.cfg_eq.trans hran.cfg_eq⟩

theorem ran_of_reaches (mem : KvMemory dev) (Allowed : RequestJob → Kernel → Prop)
    (hfirst : ∀ req, Allowed ⟨req, []⟩ (firstKernel req.params))
    (hpermits : ∀ cb call, Admits cb call → call.Permits dev Allowed cb)
    (hholds : mem.Holds cfg (BlockState.new cfg firstFit) memory fun _ => SlotKv.empty)
    (hreach : BatcherReaches dev Admits (.new cfg firstFit swapMode memory) run) :
    Ran mem Allowed cfg run := by
  induction hreach with
  | refl => exact ran_new hholds
  | tail _ hstep ih =>
      obtain ⟨call, hfresh, hadmits, hok⟩ := hstep
      exact ih.step hfirst hfresh (hpermits _ _ hadmits) hok

end

/-! ### The jobs of a run -/

section

variable {dev : Device M B L} {Admits : ContinuousBatcher M B → Call → Prop} {cfg : PoolConfig}
  {cb : ContinuousBatcher M B} {firstFit swapMode : Bool} {memory : M} {run run' : BatcherRun M B}

theorem enqueueParams_accepts {req : Request} (haccepted : (cb.enqueueParams dev req).1 = true) :
    req.prompt.length ≤ cb.dec.cfg.maxSeq ∧ cb.free ≠ [] := by
  unfold enqueueParams at haccepted
  split at haccepted
  case isTrue => cases haccepted
  case isFalse hprompt =>
    simp only [not_or, not_lt] at hprompt
    split at haccepted
    case h_1 => cases haccepted
    case h_2 slot free hfree => exact ⟨hprompt.2, by simp [hfree]⟩

theorem admitParams_accepts {req : Request} {out : Token × Bool} {cb' : ContinuousBatcher M B}
    (hok : cb.admitParams dev req = .ok (some out, cb')) :
    req.prompt.length ≤ cb.dec.cfg.maxSeq ∧ cb.free ≠ [] := by
  unfold admitParams at hok
  split at hok
  case isFalse => simp at hok
  case isTrue =>
    split at hok
    case h_1 => simp at hok
    case h_2 slot free hfree =>
      obtain ⟨prefilled, hprefill, -⟩ := bind_eq_ok.mp hok
      unfold BatchedDecoder.prefillSlotCached at hprefill
      split at hprefill
      case isFalse => cases hprefill
      case isTrue hprompt => exact ⟨hprompt.2, by simp [hfree]⟩

/-- A call accepts a request only into a free slot, and only if its prompt fits the context. -/
theorem exec_accepts {call : Call} {entries : List LogEntry} {req : Request}
    (hok : run.exec dev call = .ok run') (hlog : run'.log = run.log ++ entries)
    (hreq : .accepted req ∈ entries) :
    req.prompt.length ≤ run.cb.dec.cfg.maxSeq ∧ run.cb.free ≠ [] := by
  cases call with
  | enqueue other =>
      obtain rfl := by simpa [BatcherRun.exec] using hok
      obtain rfl := List.append_cancel_left hlog
      split at hreq
      case isTrue haccepted =>
        obtain rfl : req = other := by simpa using hreq
        exact enqueueParams_accepts haccepted
      case isFalse => simp at hreq
  | admitParams other =>
      obtain ⟨⟨outcome, cb⟩, hadmit, hok⟩ := bind_eq_ok.mp hok
      obtain rfl := by simpa using hok
      obtain rfl := List.append_cancel_left hlog
      cases outcome with
      | none => simp [admitEntries] at hreq
      | some out =>
          obtain rfl : req = other := by simpa [admitEntries] using hreq
          exact admitParams_accepts hadmit
  | cancel id =>
      obtain rfl := by simpa [BatcherRun.exec] using hok
      obtain rfl := List.append_cancel_left hlog
      split at hreq <;> simp at hreq
  | step =>
      obtain ⟨⟨events, cb⟩, -, hok⟩ := bind_eq_ok.mp hok
      obtain rfl := by simpa using hok
      obtain rfl := List.append_cancel_left hlog
      simp [Event.entry] at hreq
  | stepPld lookupLen draftK =>
      obtain ⟨⟨events, cb⟩, -, hok⟩ := bind_eq_ok.mp hok
      obtain rfl := by simpa using hok
      obtain rfl := List.append_cancel_left hlog
      simp [Event.entry] at hreq

/-- What holds of every job on the board: its prompt fits the context, it has tokens to produce, and
there was a slot to accept it into. -/
structure Sized (cfg : PoolConfig) (job : RequestJob) : Prop where
  prompt_le : job.req.prompt.length ≤ cfg.maxSeq
  unfinished : job.produced = [] ∨ job.produced.length < job.req.maxTokens
  mMax_pos : 0 < cfg.mMax

theorem Sized.push {job : RequestJob} {tok : Token} (hsized : Sized cfg job)
    (hmore : requestProtocol.completes job tok = false) : Sized cfg (job.push tok) := by
  simp only [TokenService.Protocol.completes, Bool.or_eq_false_iff,
    decide_eq_false_iff_not] at hmore
  refine { hsized with unfinished := Or.inr ?_ }
  have := hmore.2
  simp only [requestProtocol] at this
  simp only [TokenService.Job.push, List.length_append, List.length_singleton]
  omega

/-- What every run leaves, whatever calls it made. -/
structure Served (cfg : PoolConfig) (run : BatcherRun M B) (dev : Device M B L) : Prop where
  serving : ∃ kv, Serving (KvMemory.vacuous dev) 0 run.cb kv
  cfg_eq : run.cb.dec.cfg = cfg
  sized : ∀ job ∈ run.cb.board, Sized cfg job

theorem Call.permits_all (call : Call) :
    call.Permits dev (fun _ _ => True) cb := by
  cases call with
  | step => exact ⟨fun _ _ _ => trivial, fun _ _ _ => trivial⟩
  | stepPld => exact ⟨fun _ _ _ _ => trivial, fun _ _ _ => trivial⟩
  | enqueue => trivial
  | admitParams => trivial
  | cancel => trivial

theorem Served.step {call : Call} (hserved : Served cfg run dev) (hfresh : call.Fresh run.cb)
    (hok : run.exec dev call = .ok run') : Served cfg run' dev := by
  obtain ⟨kv, h⟩ := hserved.serving
  obtain ⟨entries, hlog, hserves⟩ := exec_spec h hfresh (fun _ => trivial) call.permits_all hok
  refine ⟨hserves.serving, hserves.cfg_eq.trans hserved.cfg_eq, ?_⟩
  refine hserves.run.forall_board (fun req hreq => ?_) (fun _ _ => Sized.push) hserved.sized
  obtain ⟨hprompt, hfree⟩ := exec_accepts hok hlog hreq
  obtain ⟨slot, free, hfree⟩ := List.exists_cons_of_ne_nil hfree
  rw [hserved.cfg_eq] at hprompt
  exact ⟨hprompt, Or.inl rfl, hserved.cfg_eq ▸ Nat.zero_lt_of_lt (h.takeFree hfree).slot_lt⟩

theorem served_new : Served cfg (.new cfg firstFit swapMode memory : BatcherRun M B) dev :=
  ⟨⟨_, serving_new trivial⟩, rfl, by
    simp [BatcherRun.new, ContinuousBatcher.new, ContinuousBatcher.board]⟩

theorem served_of_reaches
    (hreach : BatcherReaches dev Admits (.new cfg firstFit swapMode memory) run) :
    Served cfg run dev := by
  induction hreach with
  | refl => exact served_new
  | tail _ hstep ih =>
      obtain ⟨call, hfresh, -, hok⟩ := hstep
      exact ih.step hfresh hok

end

/-! ### Given runs -/

section

variable {dev : Device M B L} {Admits : ContinuousBatcher M B → Call → Prop}
  {start run : BatcherRun M B}

/-- Make the given calls, each of which must be admitted and come with an id that is not live. -/
def BatcherRun.execAll (dev : Device M B L) (Admits : ContinuousBatcher M B → Call → Prop)
    [∀ cb call, Decidable (Admits cb call)] :
    List Call → BatcherRun M B → Except Panic (Option (BatcherRun M B))
  | [], run => .ok (some run)
  | call :: calls, run =>
      if call.isFresh run.cb ∧ Admits run.cb call then do
        execAll dev Admits calls (← run.exec dev call)
      else
        .ok none

variable [∀ cb call, Decidable (Admits cb call)]

theorem reaches_of_execAll {calls : List Call}
    (hok : start.execAll dev Admits calls = .ok (some run)) :
    BatcherReaches dev Admits start run := by
  induction calls generalizing start with
  | nil =>
      obtain rfl := by simpa [BatcherRun.execAll] using hok
      exact .refl
  | cons call calls ih =>
      rw [BatcherRun.execAll] at hok
      split at hok
      case isFalse => simp at hok
      case isTrue hcall =>
        obtain ⟨next, hnext, hok⟩ := bind_eq_ok.mp hok
        exact .head ⟨call, Call.isFresh_iff.mp hcall.1, hcall.2, hnext⟩ (ih hok)

/-- A run of the given calls, by what `view` shows of its end. -/
theorem exists_reaches_of_execAll {α : Type} (view : BatcherRun M B → α) (calls : List Call) {a : α}
    (hview : (start.execAll dev Admits calls).map (Option.map view) = .ok (some a)) :
    ∃ run, BatcherReaches dev Admits start run ∧ view run = a := by
  cases hrun : start.execAll dev Admits calls with
  | error panic => simp [hrun, Except.map] at hview
  | ok last =>
      rw [hrun] at hview
      obtain ⟨run, rfl, hrunView⟩ : ∃ run, last = some run ∧ view run = a := by
        simpa [Except.map] using hview
      exact ⟨run, reaches_of_execAll hrun, hrunView⟩

end

end Zllm.Gpu

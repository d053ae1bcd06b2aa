import Zllm.Gpu.BatchServer

/-!
# The batch server's invariant

What holds of the batch server in any interleaving of its moves and its handlers'. The batcher is
one the run of a batcher could have left; the log of all batchers is one run of the request
protocol; the requests not yet admitted wait in the channel in the order they were submitted; and
every admitted one is streamed on its own channel.
-/

namespace Zllm.Gpu

open Function (update update_of_ne update_self)
open Outcome ContinuousBatcher
open Delivery (Router Streams Carries tokensFor acceptedKeys)
open Engine (IterOrder)
open TokenService (Run Step)

variable {Model M B L : Type} {d : Deployment Model M B L}
  {mem : ∀ model, KvMemory (d.device model)} {model : Model} {cb : ContinuousBatcher M B}
  {s s' : Server Model M B} {board : TokenService.Board Request Token}

/-! ### The batcher of the moment -/

/-- A token is selected, on one of the models, from the logits of its request's history. -/
def Deployment.Picks (d : Deployment Model M B L) (mem : ∀ model, KvMemory (d.device model))
    (job : RequestJob) (tok : Token) : Prop :=
  ∃ model, Gpu.Picks (mem model) (fun _ _ => True) job tok

/-- A batcher that serves non-empty prompts. -/
structure Batching (d : Deployment Model M B L) (mem : ∀ model, KvMemory (d.device model))
    (model : Model) (cb : ContinuousBatcher M B) : Prop where
  serving : ∃ kv, Serving (mem model) 0 cb kv
  served : Served d.cfg ⟨cb, []⟩ (d.device model)
  prompts : ∀ job ∈ cb.board, job.req.prompt ≠ []
  resumable : Resumable cb

theorem batching_new
    (hholds : ∀ model, (mem model).Holds d.cfg (BlockState.new d.cfg d.firstFit) (d.memory model)
      fun _ => SlotKv.empty) (model : Model) : Batching d mem model (d.batcher model) where
  serving := ⟨_, serving_new (hholds model)⟩
  served := served_new
  prompts := by simp [Deployment.batcher, ContinuousBatcher.new, ContinuousBatcher.board]
  resumable := by simp [Deployment.batcher, ContinuousBatcher.new, Resumable]

/-- The calls that the server makes. -/
def Call.Server : Call → Prop
  | .admitParams _ => False
  | _ => True

theorem enqueueParams_prompt {dev : Device M B L} {req : Request}
    (haccepted : (cb.enqueueParams dev req).1 = true) : req.prompt ≠ [] := by
  unfold enqueueParams at haccepted
  split at haccepted
  case isTrue => cases haccepted
  case isFalse hprompt => exact fun hnil => hprompt (Or.inl hnil)

theorem Batching.exec {log : List LogEntry} {run : BatcherRun M B}
    (h : Batching d mem model cb) (call : Call) (hfresh : call.Fresh cb) (hserver : call.Server)
    (hok : BatcherRun.exec (d.device model) call ⟨cb, log⟩ = .ok run) :
    ∃ entries, run.log = log ++ entries ∧ Batching d mem model run.cb ∧
      Run requestProtocol (d.Picks mem) cb.board entries run.cb.board := by
  obtain ⟨kv, hserving⟩ := h.serving
  obtain ⟨entries, hlog, hserves⟩ : ∃ entries, run.log = log ++ entries ∧
      Serves (mem model) (fun _ _ => True) cb entries run.cb :=
    exec_spec hserving hfresh (fun _ => trivial) call.permits_all hok
  have hserved : Served d.cfg ⟨cb, log⟩ (d.device model) :=
    ⟨h.served.serving, h.served.cfg_eq, h.served.sized⟩
  have hserved' := hserved.step hfresh hok
  refine ⟨entries, hlog, ⟨hserves.serving, ⟨hserved'.serving, hserved'.cfg_eq, hserved'.sized⟩,
    ?_, ?_⟩, hserves.run.mono fun job tok hpick => ⟨model, hpick⟩⟩
  · refine hserves.run.forall_board (fun req hreq => ?_) (fun _ _ hprompt _ => hprompt) h.prompts
    cases call with
    | enqueue other =>
        obtain rfl := by simpa [BatcherRun.exec] using hok
        obtain rfl := List.append_cancel_left hlog
        split at hreq
        case isTrue haccepted =>
          obtain rfl : req = other := by simpa using hreq
          exact enqueueParams_prompt haccepted
        case isFalse => simp at hreq
    | admitParams => exact hserver.elim
    | cancel id =>
        obtain rfl := by simpa [BatcherRun.exec] using hok
        obtain rfl := List.append_cancel_left hlog
        split at hreq <;> simp at hreq
    | step =>
        obtain ⟨⟨events, cb'⟩, -, hok⟩ := bind_eq_ok.mp hok
        obtain rfl := by simpa using hok
        obtain rfl := List.append_cancel_left hlog
        simp [Event.entry] at hreq
    | stepPld =>
        obtain ⟨⟨events, cb'⟩, -, hok⟩ := bind_eq_ok.mp hok
        obtain rfl := by simpa using hok
        obtain rfl := List.append_cancel_left hlog
        simp [Event.entry] at hreq
  · have hcfg := hserves.cfg_eq
    cases call with
    | enqueue req =>
        obtain rfl := by simpa [BatcherRun.exec] using hok
        refine h.resumable.mono hcfg ?_
        change (cb.enqueueParams (d.device model) req).2.preempted ⊆ cb.preempted
        rw [(enqueueParams_work _ cb req).1]
        exact List.Subset.refl _
    | admitParams => exact hserver.elim
    | cancel id =>
        obtain rfl := by simpa [BatcherRun.exec] using hok
        exact h.resumable.mono hcfg (cancel_work hserving h.served.sized).1
    | step =>
        obtain ⟨⟨events, cb'⟩, hstep, hok⟩ := bind_eq_ok.mp hok
        obtain rfl := by simpa using hok
        exact (h.served.works_step hstep).resumable h.resumable
    | stepPld =>
        obtain ⟨⟨events, cb'⟩, hstep, hok⟩ := bind_eq_ok.mp hok
        obtain rfl := by simpa using hok
        exact (h.served.works_stepPld hstep).resumable h.resumable

/-! ### What clients have been sent -/

namespace Server

/-- The channel of the request that was admitted under `id`. -/
def owner (submitted : List GenReq) (nextId id : Nat) : Option Nat :=
  ((submitted.take nextId)[id]?).map GenReq.tokTx

/-- What the requests submitted so far have seen, with `board` still being served. -/
structure Told (d : Deployment Model M B L) (mem : ∀ model, KvMemory (d.device model))
    (board : TokenService.Board Request Token) (s : Server Model M B) : Prop where
  run : Run requestProtocol (d.Picks mem) 0 s.log board
  nodup : (acceptedKeys requestProtocol s.log).Nodup
  logged : ∀ req, .accepted req ∈ s.log → req.id < s.nextId ∧
    ∃ gen, s.submitted[req.id]? = some gen ∧ req = gen.request req.id
  numbered : ∀ (id : Nat) (req : GenReq), s.submitted[id]? = some req → req.tokTx = id
  nextId_le : s.nextId ≤ s.submitted.length
  waiting : s.rx.filterMap CbMsg.gen? = s.submitted.drop s.nextId
  streams : Streams requestProtocol (owner s.submitted s.nextId) (· ∈ s.hungUp) s.log
    (board.map requestProtocol.jobKey) s.out

theorem told_spawn (model : Model) : Told d mem 0 (spawn d model) where
  run := .refl 0
  nodup := List.nodup_nil
  logged := by simp [spawn]
  numbered := by simp [spawn]
  nextId_le := le_rfl
  waiting := rfl
  streams := by
    have howner : owner [] 0 = fun _ => none := by
      funext id
      simp [owner]
    simp only [spawn, howner]
    exact Delivery.streams_empty _

theorem Told.nodup_board (h : Told d mem board s) : (board.map requestProtocol.jobKey).Nodup :=
  h.run.nodup (by simp)

theorem owner_eq_none {submitted : List GenReq} {nextId id : Nat} (hid : nextId ≤ id) :
    owner submitted nextId id = none := by
  rw [owner, List.getElem?_eq_none (by rw [List.length_take]; omega)]
  rfl

theorem owner_of_lt {submitted : List GenReq} {nextId id : Nat} {req : GenReq} (hid : id < nextId)
    (hreq : submitted[id]? = some req) : owner submitted nextId id = some req.tokTx := by
  rw [owner, List.getElem?_take_of_lt hid, hreq]
  rfl

theorem owner_succ {submitted : List GenReq} {nextId : Nat} {req : GenReq}
    (hreq : submitted[nextId]? = some req) :
    owner submitted (nextId + 1) = update (owner submitted nextId) nextId (some req.tokTx) := by
  funext id
  by_cases hid : id = nextId
  · rw [hid, update_self]
    exact owner_of_lt (Nat.lt_succ_self nextId) hreq
  · rw [update_of_ne hid]
    unfold owner
    by_cases hlt : id < nextId
    · rw [List.getElem?_take_of_lt hlt, List.getElem?_take_of_lt (by omega)]
    · rw [List.getElem?_take_eq_none (by omega), List.getElem?_take_eq_none (by omega)]

theorem Told.owner_eq (h : Told d mem board s) {id chan : Nat}
    (howner : owner s.submitted s.nextId id = some chan) : chan = id := by
  obtain ⟨req, hreq, rfl⟩ := Option.map_eq_some_iff.mp howner
  by_cases hid : id < s.nextId
  · rw [List.getElem?_take_of_lt hid] at hreq
    exact h.numbered id req hreq
  · rw [List.getElem?_eq_none (by rw [List.length_take]; omega)] at hreq
    cases hreq

/-- What the log gains without a new request. -/
theorem Told.extend {entries : List LogEntry} {board' : TokenService.Board Request Token}
    {out : Router Token Nat Nat} (h : Told d mem board s)
    (haccepted : acceptedKeys requestProtocol entries = [])
    (hrun : Run requestProtocol (d.Picks mem) board entries board')
    (hstreams : Streams requestProtocol (owner s.submitted s.nextId) (· ∈ s.hungUp)
      (s.log ++ entries) (board'.map requestProtocol.jobKey) out) :
    Told d mem board' { s with out, log := s.log ++ entries } where
  run := h.run.trans hrun
  nodup := by
    rw [Delivery.acceptedKeys_append, haccepted, List.append_nil]
    exact h.nodup
  logged := by
    intro req hreq
    rcases List.mem_append.mp hreq with hold | hnew
    · exact h.logged req hold
    · have hkey : req.id ∈ acceptedKeys requestProtocol entries :=
        List.mem_filterMap.mpr ⟨_, hnew, rfl⟩
      simp [haccepted] at hkey
  numbered := h.numbered
  nextId_le := h.nextId_le
  waiting := h.waiting
  streams := hstreams

/-- The thread is still serving. -/
structure Alive (d : Deployment Model M B L) (mem : ∀ model, KvMemory (d.device model))
    (s : Server Model M B) : Prop where
  told : Told d mem s.cb.board s
  batching : Batching d mem s.model s.cb

theorem Alive.setPhase (h : Alive d mem s) (phase : Phase) : Alive d mem { s with phase } where
  told := ⟨h.told.run, h.told.nodup, h.told.logged, h.told.numbered, h.told.nextId_le,
    h.told.waiting, h.told.streams⟩
  batching := h.batching

/-! ### Receiving a message -/

/-- The id to be given next is no one's, and neither is the channel of the next request. -/
theorem Alive.next_fresh (h : Alive d mem s) {req : GenReq}
    (hreq : s.submitted[s.nextId]? = some req) :
    s.nextId ∉ s.cb.ids ∧ owner s.submitted s.nextId s.nextId = none ∧
      ∀ other, owner s.submitted s.nextId other ≠ some req.tokTx := by
  have hnone : owner s.submitted s.nextId s.nextId = none := owner_eq_none le_rfl
  refine ⟨fun hmem => ?_, hnone, fun other hother => ?_⟩
  · rw [← Multiset.mem_coe, ← jobKey_board] at hmem
    exact h.told.streams.owned s.nextId hmem hnone
  · have hchan := h.told.owner_eq hother
    rw [h.told.numbered s.nextId req hreq] at hchan
    rw [← hchan, hnone] at hother
    cases hother

theorem Alive.receive {msg : CbMsg} {rx : List CbMsg} (h : Alive d mem s) (hrx : s.rx = msg :: rx) :
    Alive d mem (s.receive d msg rx) := by
  have hwaiting := h.told.waiting
  rw [hrx] at hwaiting
  cases msg with
  | swap path ack =>
      exact ⟨⟨h.told.run, h.told.nodup, h.told.logged, h.told.numbered, h.told.nextId_le,
        hwaiting, h.told.streams⟩, h.batching⟩
  | gen req =>
      rw [List.filterMap_cons_some (by rfl : CbMsg.gen? (.gen req) = some req)] at hwaiting
      have hreq : s.submitted[s.nextId]? = some req := by
        rw [← List.head?_drop, ← hwaiting]
        rfl
      have hrest : rx.filterMap CbMsg.gen? = s.submitted.drop (s.nextId + 1) := by
        rw [← List.tail_drop, ← hwaiting]
        rfl
      have hlt : s.nextId < s.submitted.length := (List.getElem?_eq_some_iff.mp hreq).1
      obtain ⟨hfresh, hnone, hclient⟩ := h.next_fresh hreq
      obtain ⟨accepted, cb', henqueue⟩ : ∃ accepted cb',
          s.cb.enqueueParams (d.device s.model) (req.request s.nextId) = (accepted, cb') :=
        ⟨_, _, rfl⟩
      have hexec : BatcherRun.exec (d.device s.model) (.enqueue (req.request s.nextId))
          ⟨s.cb, s.log⟩ =
            .ok ⟨cb', s.log ++ if accepted then [.accepted (req.request s.nextId)] else []⟩ := by
        rw [BatcherRun.exec, henqueue]
      obtain ⟨entries, hlog, hbatching, hrun⟩ := h.batching.exec (.enqueue (req.request s.nextId)) hfresh trivial hexec
      obtain rfl := List.append_cancel_left hlog
      simp only at hbatching hrun
      have hstreams := h.told.streams
      unfold Server.receive admitReq
      simp only [henqueue]
      cases accepted with
      | false =>
          have hboard : cb'.board = s.cb.board := hrun.board_eq
          simp only [Bool.false_eq_true, if_false]
          refine ⟨⟨?_, h.told.nodup, fun r hr => ?_, h.told.numbered, hlt, hrest, ?_⟩, hbatching⟩
          · rw [hboard]
            exact h.told.run
          · obtain ⟨hid, hgen⟩ := h.told.logged r hr
            exact ⟨hid.trans (Nat.lt_succ_self _), hgen⟩
          · rw [hboard, owner_succ hreq]
            exact hstreams.reject hnone hclient
      | true =>
          have hkeys : cb'.board.map requestProtocol.jobKey =
              s.nextId ::ₘ s.cb.board.map requestProtocol.jobKey :=
            hrun.step_of_singleton.liveAfter
          simp only [if_true]
          refine ⟨⟨h.told.run.trans hrun, ?_, fun r hr => ?_, h.told.numbered, hlt, hrest, ?_⟩,
            hbatching⟩
          · refine Delivery.nodup_acceptedKeys_concat h.told.nodup fun hmem => ?_
            obtain ⟨entry, hentry, hkey⟩ := List.mem_filterMap.mp hmem
            cases entry with
            | accepted r =>
                have hid := (h.told.logged r hentry).1
                have heq : r.id = s.nextId := Option.some.inj hkey
                omega
            | emitted => cases hkey
            | cancelled => cases hkey
          · rcases List.mem_append.mp hr with hold | hnew
            · obtain ⟨hid, hgen⟩ := h.told.logged r hold
              exact ⟨hid.trans (Nat.lt_succ_self _), hgen⟩
            · obtain rfl : r = req.request s.nextId := by simpa using hnew
              exact ⟨Nat.lt_succ_self _, req, hreq, rfl⟩
          · rw [hkeys, owner_succ hreq]
            exact hstreams.accept (req.request s.nextId) hnone hclient

/-! ### A step of the batcher -/

theorem acceptedKeys_events (events : List Event) :
    acceptedKeys requestProtocol (events.map Event.entry) = [] := by
  induction events with
  | nil => rfl
  | cons event events ih => exact ih

/-- The call that a step of the server makes. -/
def scheduled (d : Deployment Model M B L) (s : Server Model M B) : Call :=
  if d.pld && s.cb.allGreedy then .stepPld 3 7 else .step

theorem exec_scheduled {events : List Event} (hok : s.schedule d = .ok (events, cb)) :
    BatcherRun.exec (d.device s.model) (scheduled d s) ⟨s.cb, s.log⟩ =
      .ok ⟨cb, s.log ++ events.map Event.entry⟩ := by
  unfold schedule at hok
  unfold scheduled
  split at hok
  case isTrue hpld =>
    rw [if_pos hpld, BatcherRun.exec, hok]
    rfl
  case isFalse hpld =>
    rw [if_neg hpld, BatcherRun.exec, hok]
    rfl

theorem Alive.schedule {events : List Event} (h : Alive d mem s)
    (hok : s.schedule d = .ok (events, cb)) :
    Alive d mem { s with
      cb, phase := .reclaim
      out := s.out.deliverAll (events.map fun event => (event.id, event.tok, event.done))
      log := s.log ++ events.map Event.entry } := by
  have hcall : (scheduled d s).Fresh s.cb ∧ (scheduled d s).Server := by
    unfold scheduled
    split <;> exact ⟨trivial, trivial⟩
  obtain ⟨entries, hlog, hbatching, hrun⟩ :=
    h.batching.exec _ hcall.1 hcall.2 (exec_scheduled hok)
  obtain rfl := List.append_cancel_left hlog
  have hentries : events.map Event.entry =
      (events.map fun event => (event.id, event.tok, event.done)).map
        fun event => .emitted event.1 event.2.1 event.2.2 := by
    rw [List.map_map]
    rfl
  have hstreams := h.told.streams.deliverAll h.told.nodup_board (hentries ▸ hrun)
  rw [← hentries] at hstreams
  have htold := h.told.extend (acceptedKeys_events events) hrun hstreams
  exact ⟨⟨htold.run, htold.nodup, htold.logged, htold.numbered, htold.nextId_le, htold.waiting,
    htold.streams⟩, hbatching⟩

/-! ### Reclaiming and aborting -/

theorem cancel_found {id : Nat} (hid : id ∈ cb.ids) : (cb.cancel id).1 = true := by
  unfold cancel
  split
  · rfl
  · next hactive =>
      split
      · rfl
      · next hprefilling =>
          split
          · rfl
          · next hpreempted =>
              simp only [List.find?_eq_none, beq_iff_eq] at hactive hprefilling hpreempted
              simp only [ids, List.mem_append, List.mem_map] at hid
              obtain (⟨seq, hseq, hkey⟩ | ⟨seq, hseq, hkey⟩) | ⟨seq, hseq, hkey⟩ := hid
              · exact absurd hkey (hactive seq hseq)
              · exact absurd hkey (hprefilling seq hseq)
              · exact absurd hkey (hpreempted seq hseq)

theorem Alive.reclaim {entries : List (Sigma fun _ : Nat => Nat)} (h : Alive d mem s)
    (hkeys : (entries.map Sigma.fst).Nodup)
    (hentries : ∀ entry ∈ entries, s.out.chans.lookup entry.1 = some entry.2) :
    Alive d mem (reclaim entries s) := by
  induction entries generalizing s with
  | nil => exact h
  | cons entry entries ih =>
      obtain ⟨hhead, htail⟩ := List.nodup_cons.mp hkeys
      have hlookup := hentries entry List.mem_cons_self
      have hrest : ∀ other ∈ entries, s.out.chans.lookup other.1 = some other.2 :=
        fun other hother => hentries other (List.mem_cons_of_mem _ hother)
      rw [Server.reclaim]
      split
      case isFalse => exact ih h htail hrest
      case isTrue hhung =>
        have hlive := ((h.told.streams.routed entry.1 entry.2).mp hlookup).1
        rw [jobKey_board, Multiset.mem_coe] at hlive
        obtain ⟨cb', hcancel⟩ : ∃ cb', s.cb.cancel entry.1 = (true, cb') :=
          ⟨_, Prod.ext (cancel_found hlive) rfl⟩
        have hexec : BatcherRun.exec (d.device s.model) (.cancel entry.1) ⟨s.cb, s.log⟩ =
            .ok ⟨cb', s.log ++ [.cancelled entry.1]⟩ := by
          rw [BatcherRun.exec, hcancel]
          rfl
        obtain ⟨others, hlog, hbatching, hrun⟩ :=
          h.batching.exec (.cancel entry.1) trivial trivial hexec
        obtain rfl := List.append_cancel_left hlog
        have hforget := h.told.streams.forget hlookup h.told.nodup_board hhung
        have hstreams : Streams requestProtocol (owner s.submitted s.nextId) (· ∈ s.hungUp)
            (s.log ++ [.cancelled entry.1]) (cb'.board.map requestProtocol.jobKey)
            (s.out.forget entry.1) := by
          rw [hrun.step_of_singleton.liveAfter]
          exact hforget.relog fun _ => Delivery.tokensFor_concat_of_token?_eq_none rfl
        have htold := h.told.extend rfl hrun hstreams
        simp only [hcancel, if_true]
        refine ih ⟨⟨htold.run, htold.nodup, htold.logged, htold.numbered, htold.nextId_le,
          htold.waiting, htold.streams⟩, hbatching⟩ htail fun other hother => ?_
        have hne : other.1 ≠ entry.1 := fun heq => hhead (heq ▸ List.mem_map_of_mem hother)
        exact (Router.lookup_forget_ne hne).trans (hrest other hother)

theorem lookup_arrange (order : IterOrder (Sigma fun _ : Nat => Nat))
    (chans : Ledger.Table Nat Nat) :
    ((order.arrange chans.entries).map Sigma.fst).Nodup ∧
      ∀ entry, entry ∈ order.arrange chans.entries ↔ chans.lookup entry.1 = some entry.2 := by
  have hperm := order.perm chans.entries
  refine ⟨(hperm.map Sigma.fst).nodup_iff.mpr chans.nodupKeys, fun entry => ?_⟩
  rw [hperm.mem_iff, ← Option.mem_def, AList.mem_lookup_iff]

theorem acceptedKeys_cancelled (entries : List (Sigma fun _ : Nat => Nat)) :
    acceptedKeys requestProtocol (entries.map fun entry => .cancelled entry.1) = [] := by
  induction entries with
  | nil => rfl
  | cons entry entries ih => exact ih

/-- Nothing is being served once every channel is drained. -/
theorem Told.abort (h : Told d mem board s) (order : IterOrder (Sigma fun _ : Nat => Nat)) :
    Told d mem 0 (s.abort (order.arrange s.out.chans.entries)) := by
  obtain ⟨hnodup, hmem⟩ := lookup_arrange order s.out.chans
  obtain ⟨board', hrun, hstreams, hgone⟩ := h.streams.drain (d.Picks mem) h.nodup_board
    hnodup fun entry hentry => (hmem entry).mp hentry
  have hzero : board' = 0 := by
    rw [← Multiset.map_eq_zero (f := requestProtocol.jobKey), Multiset.eq_zero_iff_forall_notMem]
    intro key hkey
    obtain ⟨hlive, hnot⟩ := hgone key hkey
    obtain ⟨chan, howner⟩ := Option.ne_none_iff_exists'.mp (h.streams.owned key hlive)
    have hlookup := (h.streams.routed key chan).mpr ⟨hlive, howner⟩
    exact hnot (List.mem_map.mpr ⟨⟨key, chan⟩, (hmem ⟨key, chan⟩).mpr hlookup, rfl⟩)
  rw [hzero] at hrun hstreams
  exact h.extend (acceptedKeys_cancelled _) hrun hstreams

/-! ### Any interleaving -/

/-- What holds after any actions: the thread is serving, or it has ended and serves nothing. -/
inductive Sound (d : Deployment Model M B L) (mem : ∀ model, KvMemory (d.device model))
    (s : Server Model M B) : Prop where
  | alive (hphase : s.phase ≠ .ended) (h : Alive d mem s)
  | ended (hphase : s.phase = .ended) (h : Told d mem 0 s)

theorem not_busy_iff : s.busy = false ↔ s.cb.ids = [] := by
  rw [busy, decide_eq_false_iff_not, Nat.not_lt, Nat.le_zero, Nat.add_eq_zero_iff,
    Nat.add_eq_zero_iff]
  simp [ids, and_assoc]

theorem board_of_not_busy (hidle : s.busy = false) : s.cb.board = 0 :=
  board_eq_zero.mpr (not_busy_iff.mp hidle)

theorem Alive.stop (h : Alive d mem s) (hidle : s.busy = false) :
    Told d mem 0 { s with phase := .ended } := by
  have htold := h.told
  rw [board_of_not_busy hidle] at htold
  exact ⟨htold.run, htold.nodup, htold.logged, htold.numbered, htold.nextId_le, htold.waiting,
    htold.streams⟩

theorem phase_receive (msg : CbMsg) (rx : List CbMsg) : (s.receive d msg rx).phase ≠ .ended := by
  cases msg with
  | swap path ack => simp [Server.receive]
  | gen req =>
      unfold Server.receive admitReq
      dsimp only
      split <;> simp

theorem phase_reclaim (entries : List (Sigma fun _ : Nat => Nat)) :
    (reclaim entries s).phase = s.phase := by
  induction entries generalizing s with
  | nil => rfl
  | cons entry entries ih =>
      rw [reclaim]
      split
      · rw [ih]
      · exact ih

section

variable {order : IterOrder (Sigma fun _ : Nat => Nat)} {loaded : Option Model}

theorem Alive.serve
    (hholds : ∀ model, (mem model).Holds d.cfg (BlockState.new d.cfg d.firstFit) (d.memory model)
      fun _ => SlotKv.empty)
    (h : Alive d mem s) (hok : s.serve d order loaded = .ok (some s')) : Sound d mem s' := by
  unfold Server.serve at hok
  split at hok
  case h_1 hphase =>
    split at hok
    case isTrue =>
      obtain rfl := by simpa using hok
      exact .alive (by simp) (h.setPhase _)
    case isFalse hidle =>
      split at hok
      case h_1 msg rx hrx =>
        obtain rfl := by simpa using hok
        exact .alive (phase_receive msg rx) (h.receive hrx)
      case h_2 hrx =>
        split at hok
        case isTrue => cases hok
        case isFalse =>
          obtain rfl := by simpa using hok
          exact .ended rfl (h.stop (by simpa using hidle))
  case h_2 hphase =>
    split at hok
    case isTrue =>
      obtain rfl := by simpa using hok
      exact .alive (by simp) (h.setPhase _)
    case isFalse =>
      split at hok
      case h_1 msg rx hrx =>
        obtain rfl := by simpa using hok
        exact .alive (phase_receive msg rx) (h.receive hrx)
      case h_2 hrx =>
        split at hok
        case isTrue =>
          obtain rfl := by simpa using hok
          exact .alive (by simp) (h.setPhase _)
        case isFalse hidle =>
          obtain rfl := by simpa using hok
          exact .ended rfl (h.stop (by simp at hidle; exact hidle.2))
  case h_3 hphase =>
    split at hok
    case isTrue =>
      obtain ⟨⟨events, cb⟩, hschedule, hok⟩ := bind_eq_ok.mp hok
      obtain rfl := by simpa using hok
      exact .alive (by simp) (h.schedule hschedule)
    case isFalse =>
      obtain rfl := by simpa using hok
      exact .alive (by simp) (h.setPhase _)
  case h_4 hphase =>
    obtain rfl := by simpa using hok
    obtain ⟨hnodup, hmem⟩ := lookup_arrange order s.out.chans
    refine .alive (by rw [phase_reclaim]; simp) ((h.setPhase .top).reclaim hnodup ?_)
    exact fun entry hentry => (hmem entry).mp hentry
  case h_5 path ack hphase =>
    have htold := h.told.abort order
    split at hok
    case h_1 model =>
      obtain rfl := by simpa using hok
      refine .alive (by simp) ⟨?_, batching_new hholds model⟩
      have hboard : (d.batcher model).board = 0 := by
        simp [Deployment.batcher, ContinuousBatcher.new, ContinuousBatcher.board]
      simp only [hboard]
      exact ⟨htold.run, htold.nodup, htold.logged, htold.numbered, htold.nextId_le, htold.waiting,
        htold.streams⟩
    case h_2 =>
      obtain rfl := by simpa using hok
      exact .ended rfl ⟨htold.run, htold.nodup, htold.logged, htold.numbered, htold.nextId_le,
        htold.waiting, htold.streams⟩
  case h_6 => cases hok

theorem Told.submit (h : Told d mem board s) (req : GenReq) (hreq : req.tokTx = s.submitted.length) :
    Told d mem board { s with rx := s.rx ++ [.gen req], submitted := s.submitted ++ [req] } where
  run := h.run
  nodup := h.nodup
  logged := by
    intro r hr
    obtain ⟨hid, gen, hgen, heq⟩ := h.logged r hr
    refine ⟨hid, gen, ?_, heq⟩
    rw [List.getElem?_append_left (List.getElem?_eq_some_iff.mp hgen).1]
    exact hgen
  numbered := by
    intro id other hother
    by_cases hid : id < s.submitted.length
    · rw [List.getElem?_append_left hid] at hother
      exact h.numbered id other hother
    · rw [List.getElem?_append_right (by omega), List.getElem?_singleton] at hother
      split at hother
      case isTrue hlast =>
        obtain rfl := Option.some.inj hother
        omega
      case isFalse => cases hother
  nextId_le := by
    rw [List.length_append]
    exact h.nextId_le.trans (Nat.le_add_right _ _)
  waiting := by
    rw [List.filterMap_append, h.waiting, List.drop_append_of_le_length h.nextId_le]
    rfl
  streams := by
    have howner : owner (s.submitted ++ [req]) s.nextId = owner s.submitted s.nextId := by
      funext id
      rw [owner, owner, List.take_append_of_le_length h.nextId_le]
    simp only [howner]
    exact h.streams

theorem Told.swapModel (h : Told d mem board s) (path : String) (ack : Nat) :
    Told d mem board { s with rx := s.rx ++ [.swap path ack] } where
  run := h.run
  nodup := h.nodup
  logged := h.logged
  numbered := h.numbered
  nextId_le := h.nextId_le
  waiting := by
    rw [List.filterMap_append, h.waiting]
    exact List.append_nil _
  streams := h.streams

theorem Told.hangUp (h : Told d mem board s) (chan : Nat) :
    Told d mem board { s with hungUp := chan :: s.hungUp } where
  run := h.run
  nodup := h.nodup
  logged := h.logged
  numbered := h.numbered
  nextId_le := h.nextId_le
  waiting := h.waiting
  streams := h.streams.hangUp fun _ hhung => List.mem_cons_of_mem _ hhung

theorem Told.disconnect (h : Told d mem board s) :
    Told d mem board { s with connected := false } where
  run := h.run
  nodup := h.nodup
  logged := h.logged
  numbered := h.numbered
  nextId_le := h.nextId_le
  waiting := h.waiting
  streams := h.streams

theorem Sound.act (h : Sound d mem s) (action : Action Model)
    (hholds : ∀ model, (mem model).Holds d.cfg (BlockState.new d.cfg d.firstFit) (d.memory model)
      fun _ => SlotKv.empty)
    (hok : s.act d action = .ok (some s')) : Sound d mem s' := by
  cases action with
  | serve order loaded =>
      cases h with
      | alive hphase h => exact h.serve hholds hok
      | ended hphase h =>
          simp only [Server.act, Server.serve, hphase] at hok
          cases hok
  | submit prompt maxTokens eos params seed =>
      simp only [Server.act] at hok
      split at hok
      case isFalse => cases hok
      case isTrue =>
        obtain rfl := by simpa using hok
        cases h with
        | alive hphase h => exact .alive hphase ⟨h.told.submit _ rfl, h.batching⟩
        | ended hphase h => exact .ended hphase (h.submit _ rfl)
  | swapModel path ack =>
      simp only [Server.act] at hok
      split at hok
      case isFalse => cases hok
      case isTrue =>
        obtain rfl := by simpa using hok
        cases h with
        | alive hphase h => exact .alive hphase ⟨h.told.swapModel path ack, h.batching⟩
        | ended hphase h => exact .ended hphase (h.swapModel path ack)
  | hangUp chan =>
      obtain rfl := by simpa [Server.act] using hok
      cases h with
      | alive hphase h => exact .alive hphase ⟨h.told.hangUp chan, h.batching⟩
      | ended hphase h => exact .ended hphase (h.hangUp chan)
  | disconnect =>
      obtain rfl := by simpa [Server.act] using hok
      cases h with
      | alive hphase h => exact .alive hphase ⟨h.told.disconnect, h.batching⟩
      | ended hphase h => exact .ended hphase h.disconnect

theorem sound_spawn
    (hholds : ∀ model, (mem model).Holds d.cfg (BlockState.new d.cfg d.firstFit) (d.memory model)
      fun _ => SlotKv.empty) (model : Model) : Sound d mem (spawn d model) := by
  refine .alive (by simp [spawn]) ⟨?_, batching_new hholds model⟩
  have hboard : (spawn d model).cb.board = 0 := by
    simp [spawn, Deployment.batcher, ContinuousBatcher.new, ContinuousBatcher.board]
  rw [hboard]
  exact told_spawn model

theorem sound_of_reaches
    (hholds : ∀ model, (mem model).Holds d.cfg (BlockState.new d.cfg d.firstFit) (d.memory model)
      fun _ => SlotKv.empty)
    (hreach : Reaches d (spawn d model) s) : Sound d mem s := by
  induction hreach with
  | refl => exact sound_spawn hholds model
  | tail _ hstep ih =>
      obtain ⟨action, hok⟩ := hstep
      exact ih.act action hholds hok

end

end Server

end Zllm.Gpu

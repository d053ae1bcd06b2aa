import Zllm.Gpu.ServerSound

/-!
# Every request is answered once

In every interleaving an open channel carries its request's own tokens, and the end after them once
the server has dropped it. Left to itself the server comes to rest, and then every request it
has not been stopped from reading is answered.
-/

namespace Zllm.Gpu

open Function (update update_of_ne update_self)
open Outcome ContinuousBatcher
open Delivery (Router Streams Carries tokensFor acceptedKeys)
open Engine (IterOrder)
open TokenService (Run Session tokensOf)

variable {Model M B L : Type} {d : Deployment Model M B L}
  {mem : ∀ model, KvMemory (d.device model)} {model : Model} {cb : ContinuousBatcher M B}
  {s s' : Server Model M B} {board : TokenService.Board Request Token} {id : Nat} {req : GenReq}

namespace Server

/-! ### What a channel carries -/

/-- The tokens produced for the request that was submitted as number `id`. -/
def tokens (s : Server Model M B) (id : Nat) : List Token := tokensFor requestProtocol id s.log

/-- A sender of the channel is left, in the map of channels or in a message not yet read. -/
def Holds (s : Server Model M B) (chan : Nat) : Prop :=
  s.phase ≠ .ended ∧ ((∃ id, s.out.chans.lookup id = some chan) ∨
    ∃ req ∈ s.rx.filterMap CbMsg.gen?, req.tokTx = chan)

/-- What the open channel of the request that was submitted as number `id` has been sent. -/
inductive Answer (s : Server Model M B) (id : Nat) (req : GenReq) : Prop where
  | streaming (hholds : s.Holds req.tokTx)
      (hsent : s.out.sent req.tokTx = (s.tokens id).map some)
  | answered (hdropped : ¬s.Holds req.tokTx)
      (hsent : s.out.sent req.tokTx = (s.tokens id).map some ++ [none])
  | abandoned (hended : s.phase = .ended) (hunread : s.nextId ≤ id)
      (hsent : s.out.sent req.tokTx = [])

theorem Told.unadmitted (h : Told d mem board s) (hreq : s.submitted[id]? = some req)
    (hid : s.nextId ≤ id) : s.tokens id = [] ∧ s.out.sent req.tokTx = [] := by
  have hnone : owner s.submitted s.nextId id = none := owner_eq_none hid
  refine ⟨h.streams.silent id hnone, h.streams.unsent _ fun other hother => ?_⟩
  have hchan := h.owner_eq hother
  rw [h.numbered id req hreq] at hchan
  rw [← hchan, hnone] at hother
  cases hother

theorem Told.admitted (h : Told d mem board s) (hreq : s.submitted[id]? = some req)
    (hopen : req.tokTx ∉ s.hungUp) (hid : id < s.nextId) :
    (id ∈ board.map requestProtocol.jobKey ∧ s.out.chans.lookup id = some req.tokTx ∧
      s.out.sent req.tokTx = (s.tokens id).map some) ∨
    (id ∉ board.map requestProtocol.jobKey ∧
      s.out.sent req.tokTx = (s.tokens id).map some ++ [none]) := by
  have howner := owner_of_lt hid hreq
  rcases h.streams.carries id req.tokTx howner with ⟨hlive, hsent⟩ | ⟨hover, hsent | ⟨hhung, -⟩⟩
  · exact Or.inl ⟨hlive, (h.streams.routed id req.tokTx).mpr ⟨hlive, howner⟩, hsent⟩
  · exact Or.inr ⟨hover, hsent⟩
  · exact absurd hhung hopen

/-- The channel of an admitted request that is over has been dropped. -/
theorem Told.not_holds (h : Told d mem board s) (hreq : s.submitted[id]? = some req)
    (hid : id < s.nextId) (hover : id ∉ board.map requestProtocol.jobKey) : ¬s.Holds req.tokTx := by
  rintro ⟨-, ⟨other, hlookup⟩ | ⟨queued, hqueued, hchan⟩⟩
  · obtain ⟨hlive, howner⟩ := (h.streams.routed other req.tokTx).mp hlookup
    have hsame := h.streams.injective howner (owner_of_lt hid hreq)
    exact hover (hsame ▸ hlive)
  · rw [h.waiting] at hqueued
    obtain ⟨i, hi⟩ := List.mem_iff_getElem?.mp hqueued
    rw [List.getElem?_drop] at hi
    have hnumber := h.numbered _ queued hi
    have hown := h.numbered id req hreq
    omega

theorem Sound.answer (h : Sound d mem s) (hreq : s.submitted[id]? = some req)
    (hopen : req.tokTx ∉ s.hungUp) : Answer s id req := by
  cases h with
  | alive hphase h =>
      by_cases hid : id < s.nextId
      · rcases h.told.admitted hreq hopen hid with ⟨-, hlookup, hsent⟩ | ⟨hover, hsent⟩
        · exact .streaming ⟨hphase, Or.inl ⟨id, hlookup⟩⟩ hsent
        · exact .answered (h.told.not_holds hreq hid hover) hsent
      · obtain ⟨htokens, hsent⟩ := h.told.unadmitted hreq (by omega)
        refine .streaming ⟨hphase, Or.inr ⟨req, ?_, rfl⟩⟩ (by rw [htokens, hsent]; rfl)
        rw [h.told.waiting, List.mem_iff_getElem?]
        refine ⟨id - s.nextId, ?_⟩
        rw [List.getElem?_drop, Nat.add_sub_cancel' (by omega)]
        exact hreq
  | ended hphase h =>
      by_cases hid : id < s.nextId
      · rcases h.admitted hreq hopen hid with ⟨hlive, -⟩ | ⟨hover, hsent⟩
        · simp at hlive
        · exact .answered (h.not_holds hreq hid hover) hsent
      · exact .abandoned hphase (by omega) (h.unadmitted hreq (by omega)).2

/-- The tokens of a request are selected one after another from its own history. -/
theorem Told.own (h : Told d mem board s) (hreq : s.submitted[id]? = some req) :
    ∃ entries last, Session requestProtocol (d.Picks mem) ⟨req.request id, []⟩ entries last ∧
      s.tokens id = tokensOf entries := by
  by_cases hid : id ∈ acceptedKeys requestProtocol s.log
  · obtain ⟨entry, hentry, hkey⟩ := List.mem_filterMap.mp hid
    cases entry with
    | accepted r =>
        obtain rfl : r.id = id := Option.some.inj hkey
        obtain ⟨-, gen, hgen, heq⟩ := h.logged r hentry
        obtain rfl : req = gen := by simpa [hreq] using hgen
        obtain ⟨entries, last, hsession, htokens⟩ :=
          Delivery.session_of_accepted h.run h.nodup hentry
        exact ⟨entries, last, heq ▸ hsession, htokens⟩
    | emitted => cases hkey
    | cancelled => cases hkey
  · refine ⟨[], some ⟨req.request id, []⟩, .waiting _, ?_⟩
    exact Delivery.tokensFor_of_notMem h.run hid

/-! ### The work left -/

def messageWeight : CbMsg → Nat
  | .gen req => 5 * (req.request 0).weight + 5
  | .swap _ _ => 5

/-- How far the thread is from its next step, or from waiting. -/
def rank (s : Server Model M B) : Nat :=
  match s.phase with
  | .top => if s.busy then 4 else 1
  | .fill => 3
  | .work => 2
  | .reclaim => 5
  | .reload _ _ => 2
  | .ended => 0

/-- A bound on the moves that the thread makes before it waits. -/
def work (s : Server Model M B) : Nat :=
  5 * remaining s.cb + (s.rx.map messageWeight).sum + s.rank

theorem weight_request (req : GenReq) (id : Nat) :
    (req.request id).weight = (req.request 0).weight := rfl

theorem rank_le (s : Server Model M B) : s.rank ≤ 5 := by
  unfold rank
  split
  · split <;> omega
  all_goals omega

theorem rank_top (hphase : s.phase = .top) : 1 ≤ s.rank ∧ s.rank ≤ 4 := by
  simp only [rank, hphase]
  split <;> omega

theorem work_receive {msg : CbMsg} {rx : List CbMsg} (hrx : s.rx = msg :: rx) :
    (s.receive d msg rx).work + 2 ≤ s.work - s.rank := by
  unfold work
  rw [hrx, List.map_cons, List.sum_cons]
  cases msg with
  | swap path ack =>
      simp only [Server.receive, rank, messageWeight]
      omega
  | gen req =>
      have hwork := (enqueueParams_work (d.device s.model) s.cb (req.request s.nextId)).2
      rw [weight_request] at hwork
      unfold Server.receive admitReq
      dsimp only
      split
      · simp only [rank, messageWeight]
        omega
      · simp only [rank, messageWeight]
        omega

end Server

/-- The requests in flight are not stuck. -/
theorem Batching.not_stuck (h : Batching d mem model cb) (hlive : cb.ids ≠ []) : ¬Stuck cb := by
  have hcfg : cb.dec.cfg = d.cfg := h.served.cfg_eq
  obtain ⟨job, hjob⟩ : ∃ job, job ∈ cb.board := by
    apply Multiset.exists_mem_of_ne_zero
    exact fun hzero => hlive (board_eq_zero.mp hzero)
  have hprompt := List.length_pos_iff.mpr (h.prompts job hjob)
  have hfits := (h.served.sized job hjob).prompt_le
  refine h.resumable.not_stuck ?_ ?_ hlive
  · rw [hcfg]
    exact full_of_new d.cfg_new
  · rw [hcfg]
    omega

theorem Batching.work_schedule {events : List Event} (h : Batching d mem s.model s.cb)
    (hbusy : s.busy = true) (hok : s.schedule d = .ok (events, cb)) :
    remaining cb < remaining s.cb := by
  have hlive : s.cb.ids ≠ [] := by
    intro hnil
    rw [Server.not_busy_iff.mpr hnil] at hbusy
    cases hbusy
  have hunstuck := h.not_stuck hlive
  unfold Server.schedule at hok
  split at hok
  · exact (h.served.works_stepPld hok).remaining_lt hlive hunstuck
  · exact (h.served.works_step hok).remaining_lt hlive hunstuck

theorem Batching.work_reclaim (h : Batching d mem s.model s.cb)
    (entries : List (Sigma fun _ : Nat => Nat)) :
    remaining (s.reclaim entries).cb ≤ remaining s.cb ∧ (s.reclaim entries).rx = s.rx := by
  induction entries generalizing s with
  | nil => exact ⟨le_rfl, rfl⟩
  | cons entry entries ih =>
      rw [Server.reclaim]
      split
      · obtain ⟨kv, hserving⟩ := h.serving
        have hexec : BatcherRun.exec (d.device s.model) (.cancel entry.1) ⟨s.cb, s.log⟩ =
            .ok ⟨(s.cb.cancel entry.1).2,
              s.log ++ if (s.cb.cancel entry.1).1 then [.cancelled entry.1] else []⟩ := rfl
        obtain ⟨-, -, hbatching, -⟩ := h.exec (.cancel entry.1) trivial trivial hexec
        obtain ⟨hle, hrx⟩ := ih (s := { s with
          cb := (s.cb.cancel entry.1).2, out := s.out.forget entry.1
          log := s.log ++ if (s.cb.cancel entry.1).1 then [.cancelled entry.1] else [] }) hbatching
        exact ⟨hle.trans (cancel_work hserving h.served.sized).2, hrx⟩
      · exact ih h

namespace Server

section

variable {order : IterOrder (Sigma fun _ : Nat => Nat)} {loaded : Option Model}

/-- Every move of the thread leaves less of them. -/
theorem Alive.work_serve (h : Alive d mem s) (hok : s.serve d order loaded = .ok (some s')) :
    s'.work < s.work := by
  have hrank := rank_le s
  unfold Server.serve at hok
  split at hok
  case h_1 hphase =>
    have htop := rank_top hphase
    split at hok
    case isTrue hbusy =>
      obtain rfl := by simpa using hok
      simp [work, rank, hphase, hbusy]
    case isFalse hidle =>
      split at hok
      case h_1 msg rx hrx =>
        obtain rfl := by simpa using hok
        have := work_receive (d := d) hrx
        omega
      case h_2 hrx =>
        split at hok
        case isTrue => cases hok
        case isFalse =>
          obtain rfl := by simpa using hok
          simp [work, rank, hphase, hidle]
  case h_2 hphase =>
    split at hok
    case isTrue =>
      obtain rfl := by simpa using hok
      simp [work, rank, hphase]
    case isFalse =>
      split at hok
      case h_1 msg rx hrx =>
        obtain rfl := by simpa using hok
        have := work_receive (d := d) hrx
        have hpos : s.rank = 3 := by simp [rank, hphase]
        omega
      case h_2 hrx =>
        obtain rfl := by simpa using hok
        by_cases hgoes : s.connected = true ∨ s.busy = true <;> simp [work, rank, hphase, hgoes]
  case h_3 hphase =>
    split at hok
    case isTrue hbusy =>
      obtain ⟨⟨events, cb⟩, hschedule, hok⟩ := bind_eq_ok.mp hok
      obtain rfl := by simpa using hok
      have hlt := h.batching.work_schedule hbusy hschedule
      simp only [work, rank, hphase]
      omega
    case isFalse hidle =>
      obtain rfl := by simpa using hok
      have hbusy : s.busy = false := by simpa using hidle
      have htop : ({ s with phase := .top } : Server Model M B).rank = 1 := by
        simp only [rank]
        exact if_neg (by rw [busy] at hbusy ⊢; simpa using hbusy)
      have hpos : s.rank = 2 := by simp [rank, hphase]
      unfold work
      rw [htop, hpos]
      dsimp only
      omega
  case h_4 hphase =>
    obtain rfl := by simpa using hok
    obtain ⟨hle, hrx⟩ := (h.setPhase .top).batching.work_reclaim
      (order.arrange s.out.chans.entries)
    have htop := rank_top (phase_reclaim (s := { s with phase := .top })
      (order.arrange s.out.chans.entries))
    have hpos : s.rank = 5 := by simp [rank, hphase]
    unfold work
    rw [hrx, hpos]
    dsimp only at hle ⊢
    omega
  case h_5 path ack hphase =>
    split at hok
    case h_1 model =>
      obtain rfl := by simpa using hok
      have hnone : remaining (d.batcher model) = 0 := by
        simp [remaining, pending, Deployment.batcher, ContinuousBatcher.new,
          ContinuousBatcher.board]
      have hbatcher : (d.batcher model).active.length + (d.batcher model).prefilling.length +
          (d.batcher model).preempted.length = 0 := rfl
      simp only [work, rank, hphase, hnone, busy, hbatcher, Server.abort]
      simp
    case h_2 =>
      obtain rfl := by simpa using hok
      simp [work, rank, hphase, Server.abort]
  case h_6 => cases hok

/-- Where the thread waits for a message, it has read every one and nothing is in flight. -/
theorem serve_waits (hok : s.serve d order loaded = .ok none) :
    s.phase = .ended ∨ s.cb.ids = [] ∧ s.rx = [] := by
  unfold Server.serve at hok
  split at hok
  case h_1 hphase =>
    split at hok
    case isTrue => cases hok
    case isFalse hidle =>
      split at hok
      case h_1 => cases hok
      case h_2 hrx => exact Or.inr ⟨not_busy_iff.mp (by simpa using hidle), hrx⟩
  case h_2 =>
    split at hok
    case isTrue => cases hok
    case isFalse => split at hok <;> cases hok
  case h_3 =>
    split at hok
    case isTrue =>
      obtain ⟨out, -, hok⟩ := bind_eq_ok.mp hok
      cases hok
    case isFalse => cases hok
  case h_4 => cases hok
  case h_5 => split at hok <;> cases hok
  case h_6 hphase => exact Or.inl hphase

end

/-! ### The server left to itself -/

/-- `n` moves of the thread, while handlers send nothing. -/
inductive QuietRun (d : Deployment Model M B L) : Nat → Server Model M B → Server Model M B → Prop
  | refl (s : Server Model M B) : QuietRun d 0 s s
  | serve {n : Nat} {s s' s'' : Server Model M B} (order : IterOrder (Sigma fun _ : Nat => Nat))
      (loaded : Option Model) (hok : s.serve d order loaded = .ok (some s'))
      (hrun : QuietRun d n s' s'') : QuietRun d (n + 1) s s''
  | hangUp {n : Nat} {s s' : Server Model M B} (chan : Nat)
      (hrun : QuietRun d n { s with hungUp := chan :: s.hungUp } s') : QuietRun d n s s'
  | disconnect {n : Nat} {s s' : Server Model M B}
      (hrun : QuietRun d n { s with connected := false } s') : QuietRun d n s s'

theorem QuietRun.sound_and_work {n : Nat}
    (hholds : ∀ model, (mem model).Holds d.cfg (BlockState.new d.cfg d.firstFit) (d.memory model)
      fun _ => SlotKv.empty)
    (hrun : QuietRun d n s s') (h : Sound d mem s) : Sound d mem s' ∧ n + s'.work ≤ s.work := by
  induction hrun with
  | refl => exact ⟨h, by omega⟩
  | @serve n s s' s'' order loaded hok hrun ih =>
      cases h with
      | alive hphase h =>
          obtain ⟨hsound, hle⟩ := ih (h.serve hholds hok)
          have hlt := h.work_serve hok
          exact ⟨hsound, by omega⟩
      | ended hphase h =>
          simp only [Server.serve, hphase] at hok
          cases hok
  | hangUp chan _ ih =>
      have hact : Sound d mem _ := h.act (.hangUp chan) hholds rfl
      exact ih hact
  | disconnect _ ih =>
      have hact : Sound d mem _ := h.act (.disconnect) hholds rfl
      exact ih hact

/-- What every request gets out of the server from here on. -/
structure AnswersOnce (d : Deployment Model M B L) (s : Server Model M B) : Prop where
  answer : ∀ (id : Nat) (req : GenReq), s.submitted[id]? = some req → req.tokTx ∉ s.hungUp →
    Answer s id req
  own : ∀ mem : (∀ model, KvMemory (d.device model)),
    (∀ model, (mem model).Holds d.cfg (BlockState.new d.cfg d.firstFit) (d.memory model)
      fun _ => SlotKv.empty) →
    ∀ (id : Nat) (req : GenReq), s.submitted[id]? = some req →
      ∃ entries last, Session requestProtocol (d.Picks mem) ⟨req.request id, []⟩ entries last ∧
        s.tokens id = tokensOf entries
  others : ∀ chan, (∀ req ∈ s.submitted, req.tokTx ≠ chan) → s.out.sent chan = []
  distinct : (s.submitted.map GenReq.tokTx).Nodup
  settles : ∀ n s', QuietRun d n s s' → n ≤ s.work
  rest : ∀ n s' order loaded, QuietRun d n s s' → s'.serve d order loaded = .ok none →
    s'.phase ≠ .ended → ∀ (id : Nat) (req : GenReq), s'.submitted[id]? = some req →
      req.tokTx ∉ s'.hungUp →
        ¬s'.Holds req.tokTx ∧ s'.out.sent req.tokTx = (s'.tokens id).map some ++ [none]
  swap : ∀ path ack order model, s.phase = .reload path ack →
    ∃ s', s.serve d order (some model) = .ok (some s') ∧ s'.phase = .top ∧ s'.model = model ∧
      s'.rx = s.rx ∧ s'.submitted = s.submitted ∧ s'.nextId = s.nextId

theorem Sound.others (h : Sound d mem s) {chan : Nat}
    (hchan : ∀ req ∈ s.submitted, req.tokTx ≠ chan) : s.out.sent chan = [] := by
  have hunowned : ∀ id, owner s.submitted s.nextId id ≠ some chan := by
    intro id howner
    obtain ⟨req, hreq, rfl⟩ := Option.map_eq_some_iff.mp howner
    exact hchan req (List.mem_of_mem_take (List.mem_of_getElem? hreq)) rfl
  cases h with
  | alive hphase h => exact h.told.streams.unsent chan hunowned
  | ended hphase h => exact h.streams.unsent chan hunowned

theorem Sound.numbered (h : Sound d mem s) :
    ∀ (id : Nat) (req : GenReq), s.submitted[id]? = some req → req.tokTx = id := by
  cases h with
  | alive hphase h => exact h.told.numbered
  | ended hphase h => exact h.numbered

theorem Sound.distinct (h : Sound d mem s) : (s.submitted.map GenReq.tokTx).Nodup := by
  rw [List.nodup_iff_getElem?_ne_getElem?]
  intro i j hlt hlen heq
  rw [List.length_map] at hlen
  rw [List.getElem?_map, List.getElem?_map, List.getElem?_eq_getElem (by omega),
    List.getElem?_eq_getElem hlen] at heq
  have hi := h.numbered i _ (List.getElem?_eq_getElem (by omega))
  have hj := h.numbered j _ (List.getElem?_eq_getElem hlen)
  have := Option.some.inj heq
  omega

/-- A server that waits has answered whoever it was not stopped from reading. -/
theorem Sound.rest {order : IterOrder (Sigma fun _ : Nat => Nat)} {loaded : Option Model}
    (h : Sound d mem s) (hwaits : s.serve d order loaded = .ok none) (hphase : s.phase ≠ .ended)
    (hreq : s.submitted[id]? = some req) (hopen : req.tokTx ∉ s.hungUp) :
    ¬s.Holds req.tokTx ∧ s.out.sent req.tokTx = (s.tokens id).map some ++ [none] := by
  rcases serve_waits hwaits with hended | ⟨hids, hrx⟩
  · exact absurd hended hphase
  · cases h with
    | ended hended => exact absurd hended hphase
    | alive hphase h =>
        have hboard : s.cb.board = 0 := board_eq_zero.mpr hids
        have hread := h.told.waiting
        rw [hrx, List.filterMap_nil] at hread
        have hid : id < s.nextId := by
          have hlen := (List.getElem?_eq_some_iff.mp hreq).1
          have hall := List.drop_eq_nil_iff.mp hread.symm
          omega
        have hover : id ∉ s.cb.board.map requestProtocol.jobKey := by simp [hboard]
        rcases h.told.admitted hreq hopen hid with ⟨hlive, -⟩ | ⟨-, hsent⟩
        · exact absurd hlive hover
        · exact ⟨h.told.not_holds hreq hid hover, hsent⟩

/-- **Every request is answered once.** After any interleaving of submissions, swaps, hang-ups and
moves of the thread that fails no assertion: an open channel carries the tokens selected for its own
request in their order, with the end after them exactly once the server has let go of it, and
nothing at all where the server ended before reading the request; and no channel carries anything
else. Without new messages the thread makes a bounded number of moves, after which every request is
answered unless it has ended; and a swap that loads its model goes on with the messages that were
waiting. -/
theorem gpu_batch_server_answers_once (hreach : Reaches d (spawn d model) s) : AnswersOnce d s := by
  have hvacuous : ∀ model, (KvMemory.vacuous (d.device model)).Holds d.cfg
      (BlockState.new d.cfg d.firstFit) (d.memory model) fun _ => SlotKv.empty :=
    fun _ => trivial
  have hsound := sound_of_reaches hvacuous hreach
  refine ⟨fun id req hreq hopen => hsound.answer hreq hopen, ?_, fun chan => hsound.others,
    hsound.distinct, ?_, ?_, ?_⟩
  · intro mem hholds id req hreq
    cases sound_of_reaches hholds hreach with
    | alive hphase h => exact h.told.own hreq
    | ended hphase h => exact h.own hreq
  · intro n s' hrun
    have := (hrun.sound_and_work hvacuous hsound).2
    omega
  · intro n s' order loaded hrun hwaits hphase id req hreq hopen
    exact (hrun.sound_and_work hvacuous hsound).1.rest hwaits hphase hreq hopen
  · intro path ack order model hphase
    simp only [Server.serve, hphase]
    exact ⟨_, rfl, rfl, rfl, rfl, rfl, rfl⟩

/-! ### A run -/

/-- Take the given actions, none of which may be refused. -/
def actAll (d : Deployment Model M B L) :
    List (Action Model) → Server Model M B → Except Panic (Option (Server Model M B))
  | [], s => .ok (some s)
  | action :: actions, s => do
      match ← s.act d action with
      | some s => actAll d actions s
      | none => return none

theorem reaches_of_actAll {actions : List (Action Model)}
    (hok : actAll d actions s = .ok (some s')) : Reaches d s s' := by
  induction actions generalizing s with
  | nil =>
      obtain rfl := by simpa [actAll] using hok
      exact .refl
  | cons action actions ih =>
      obtain ⟨next, hact, hok⟩ := bind_eq_ok.mp hok
      cases next with
      | none => cases hok
      | some next => exact .head ⟨action, hact⟩ (ih hok)

/-- A run of the given actions, by what `view` shows of its end. -/
theorem exists_reaches_of_actAll {α : Type} (view : Server Model M B → α)
    (actions : List (Action Model)) {a : α}
    (hview : (actAll d actions s).map (Option.map view) = .ok (some a)) :
    ∃ s', Reaches d s s' ∧ view s' = a := by
  cases hrun : actAll d actions s with
  | error panic => simp [hrun, Except.map] at hview
  | ok last =>
      rw [hrun] at hview
      obtain ⟨s', rfl, hlast⟩ : ∃ s', last = some s' ∧ view s' = a := by
        simpa [Except.map] using hview
      exact ⟨s', reaches_of_actAll hrun, hlast⟩

/-- Two models on the full pool of two slots of 32 positions. -/
def twoModels : Deployment Bool History (List Token) Nat where
  device := fun _ => lengthModel.device
  memory := fun _ _ => []
  prefixBlockHash := fullPool.prefixBlockHash
  mMax := 2
  maxSeq := 32
  cfg := fullPool
  cfg_new := rfl
  firstFit := false
  swapMode := false
  pld := false

def inOrder : IterOrder (Sigma fun _ : Nat => Nat) := ⟨fun entries => entries, fun _ => List.Perm.refl _⟩

/-- A request of two tokens is answered; the next one has its first token when a swap cuts it off.
-/
def swapActions : List (Action Bool) :=
  [.submit [7] 2 100 .greedy 0, .submit [7, 7] 9 100 .greedy 0] ++
    List.replicate 9 (.serve inOrder none) ++ [.swapModel "b.gguf" 0] ++
    List.replicate 3 (.serve inOrder (some true))

theorem gpu_batch_server_answers_once_swapped :
    ∃ s, (s.out.sent 0, s.out.sent 1, s.model) =
      ([some 1, some 2, none], [some 2, none], true) ∧ AnswersOnce twoModels s := by
  obtain ⟨s, hreach, hview⟩ := exists_reaches_of_actAll
    (fun s : Server Bool History (List Token) => (s.out.sent 0, s.out.sent 1, s.model))
    swapActions (rfl : (actAll twoModels swapActions (spawn twoModels false)).map _ = _)
  exact ⟨s, hview, gpu_batch_server_answers_once hreach⟩

end Server

end Zllm.Gpu

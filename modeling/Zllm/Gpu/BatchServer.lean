import Zllm.Engine.LogitFsm
import Zllm.Gpu.Unstuck
import Zllm.Lib.Delivery

/-!
# The batch server

`GpuBatchServer` of `backend/gpu/batch.rs`: the serving thread with its channel of messages, the map
from request ids to clients' channels, and the moves of `serve` between two reads of the channel.
Handlers submit requests, ask for a swap, and hang up at any time.
-/

namespace Zllm.Gpu

open ContinuousBatcher
open Delivery (Router)
open Engine (IterOrder)

/-- A submitted request; `tokTx` names the channel its tokens are to be sent on. -/
structure GenReq where
  prompt : List Token
  maxTokens : Nat
  eos : Token
  params : SamplingParams
  seed : UInt32
  tokTx : Nat

def GenReq.request (req : GenReq) (id : Nat) : Request where
  id := id
  prompt := req.prompt
  maxTokens := req.maxTokens
  eos := req.eos
  params := req.params
  seed := req.seed

inductive CbMsg where
  | gen (req : GenReq)
  | swap (path : String) (ack : Nat)

def CbMsg.gen? : CbMsg → Option GenReq
  | gen req => some req
  | swap _ _ => none

/-- What `serve` works with: a device and its fresh memory for each model, and the sizes and
environment switches that every batcher is built with. -/
structure Deployment (Model M B L : Type) where
  device : Model → Device M B L
  memory : Model → M
  prefixBlockHash : UInt64 → List Token → UInt64
  mMax : Nat
  maxSeq : Nat
  cfg : PoolConfig
  cfg_new : PoolConfig.new prefixBlockHash mMax maxSeq = .ok cfg
  firstFit : Bool
  swapMode : Bool
  pld : Bool

/-- Where the thread is in `serve`. -/
inductive Phase where
  /-- At the head of `'serve`. -/
  | top
  /-- At the head of `while cb.has_free()`. -/
  | fill
  /-- Past that loop. -/
  | work
  /-- At the `retain` that follows a step. -/
  | reclaim
  /-- Out of `'serve`, with `reload` set. -/
  | reload (path : String) (ack : Nat)
  /-- The thread has returned: what it held is dropped. -/
  | ended
  deriving DecidableEq

/-- The thread's variables, and what its handlers hold: whether the sender is alive, the channels
whose receiver is gone, the answers to swaps. The requests submitted so far and the log of every
batcher are kept as history; the ids, a `u64`, are counted without bound. -/
structure Server (Model M B : Type) where
  model : Model
  cb : ContinuousBatcher M B
  out : Router Token Nat Nat
  nextId : Nat
  rx : List CbMsg
  phase : Phase
  connected : Bool
  hungUp : List Nat
  acks : List (Nat × Bool)
  submitted : List GenReq
  log : List LogEntry

variable {Model M B L : Type}

def Deployment.batcher (d : Deployment Model M B L) (model : Model) : ContinuousBatcher M B :=
  .new d.cfg d.firstFit d.swapMode (d.memory model)

namespace Server

/-- `GpuBatchServer::spawn`. -/
def spawn (d : Deployment Model M B L) (model : Model) : Server Model M B where
  model := model
  cb := d.batcher model
  out := .empty
  nextId := 0
  rx := []
  phase := .top
  connected := true
  hungUp := []
  acks := []
  submitted := []
  log := []

/-! ### The serving thread -/

/-- Something is active, prefilling or preempted. -/
def busy (s : Server Model M B) : Bool :=
  0 < s.cb.active.length + s.cb.prefilling.length + s.cb.preempted.length

def admitReq (d : Deployment Model M B L) (req : GenReq) (s : Server Model M B) :
    Server Model M B :=
  let (accepted, cb) := s.cb.enqueueParams (d.device s.model) (req.request s.nextId)
  if accepted then
    { s with
      cb, nextId := s.nextId + 1, out := s.out.route s.nextId req.tokTx
      log := s.log ++ [.accepted (req.request s.nextId)] }
  else
    { s with cb, nextId := s.nextId + 1, out := s.out.send req.tokTx none }

/-- Take a message off the channel: a request is admitted, a swap ends `'serve`. -/
def receive (d : Deployment Model M B L) (msg : CbMsg) (rx : List CbMsg) (s : Server Model M B) :
    Server Model M B :=
  match msg with
  | .gen req => { s with rx, phase := .fill }.admitReq d req
  | .swap path ack => { s with rx, phase := .reload path ack }

/-- One scheduler step, and the tokens it produced. -/
def schedule (d : Deployment Model M B L) (s : Server Model M B) :
    Except Panic (List Event × ContinuousBatcher M B) :=
  if d.pld && s.cb.allGreedy then s.cb.stepPld (d.device s.model) 3 7
  else s.cb.step (d.device s.model)

/-- The `retain` over `entries`: cancel the requests whose client has hung up. -/
def reclaim : List (Sigma fun _ : Nat => Nat) → Server Model M B → Server Model M B
  | [], s => s
  | entry :: entries, s =>
      if entry.2 ∈ s.hungUp then
        let (found, cb) := s.cb.cancel entry.1
        reclaim entries { s with
          cb, out := s.out.forget entry.1
          log := s.log ++ if found then [.cancelled entry.1] else [] }
      else
        reclaim entries s

/-- Drop the batcher: what was in flight is told that it is over. -/
def abort (entries : List (Sigma fun _ : Nat => Nat)) (s : Server Model M B) : Server Model M B :=
  { s with
    out := s.out.drain entries, log := s.log ++ entries.map fun entry => .cancelled entry.1 }

/-- One move of the thread; `none` where it waits for a message or has ended. The map of channels is
read in the order `order`, and a swap loads `loaded`. -/
def serve (d : Deployment Model M B L) (order : IterOrder (Sigma fun _ : Nat => Nat))
    (loaded : Option Model) (s : Server Model M B) : Except Panic (Option (Server Model M B)) :=
  match s.phase with
  | .top =>
      if s.busy then
        .ok (some { s with phase := .fill })
      else
        match s.rx with
        | msg :: rx => .ok (some (s.receive d msg rx))
        | [] => .ok (if s.connected then none else some { s with phase := .ended })
  | .fill =>
      if s.cb.free.isEmpty then
        .ok (some { s with phase := .work })
      else
        match s.rx with
        | msg :: rx => .ok (some (s.receive d msg rx))
        | [] => .ok (some { s with phase := if s.connected || s.busy then .work else .ended })
  | .work =>
      if s.busy then do
        let (events, cb) ← s.schedule d
        return some { s with
          cb, phase := .reclaim
          out := s.out.deliverAll (events.map fun event => (event.id, event.tok, event.done))
          log := s.log ++ events.map Event.entry }
      else
        .ok (some { s with phase := .top })
  | .reclaim =>
      .ok (some (reclaim (order.arrange s.out.chans.entries) { s with phase := .top }))
  | .reload _ ack =>
      let aborted := s.abort (order.arrange s.out.chans.entries)
      match loaded with
      | some model =>
          .ok (some { aborted with
            model, cb := d.batcher model, phase := .top, acks := s.acks ++ [(ack, true)] })
      | none => .ok (some { aborted with phase := .ended, acks := s.acks ++ [(ack, false)] })
  | .ended => .ok none

/-! ### Its handlers -/

/-- What can happen next: a move of the thread, or of a handler. -/
inductive Action (Model : Type) where
  | serve (order : IterOrder (Sigma fun _ : Nat => Nat)) (loaded : Option Model)
  | submit (prompt : List Token) (maxTokens : Nat) (eos : Token) (params : SamplingParams)
      (seed : UInt32)
  | swapModel (path : String) (ack : Nat)
  | hangUp (chan : Nat)
  | disconnect

/-- Handlers can send while a sender is left and the receiving thread has not ended. -/
def open? (s : Server Model M B) : Bool := s.connected && s.phase != .ended

/-- `none` where the action is refused. -/
def act (d : Deployment Model M B L) (s : Server Model M B) :
    Action Model → Except Panic (Option (Server Model M B))
  | .serve order loaded => s.serve d order loaded
  | .submit prompt maxTokens eos params seed =>
      let req := { prompt, maxTokens, eos, params, seed, tokTx := s.submitted.length }
      .ok (if s.open? then
        some { s with rx := s.rx ++ [.gen req], submitted := s.submitted ++ [req] }
      else none)
  | .swapModel path ack =>
      .ok (if s.open? then some { s with rx := s.rx ++ [.swap path ack] } else none)
  | .hangUp chan => .ok (some { s with hungUp := chan :: s.hungUp })
  | .disconnect => .ok (some { s with connected := false })

/-- Any interleaving of actions, none of which fails an assertion. -/
def Reaches (d : Deployment Model M B L) (start s : Server Model M B) : Prop :=
  Relation.ReflTransGen (fun s s' => ∃ action, s.act d action = .ok (some s')) start s

end Server

end Zllm.Gpu

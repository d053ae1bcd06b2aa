import Zllm.Basic
import Zllm.Lib.Saturation

/-!
# The grammar mask

`LogitFSM` over a compiled regex: the byte DFA of the generated text, the mask of the tokens that
keep a match reachable, and the two memo tables keyed by the DFA's states. A `HashMap` is a function
on its keys, and a `HashSet` a finite set.
-/

namespace Zllm.Engine

open Function (update)

/-- What a `dense::DFA` offers, over its state ids. -/
structure RegexDfa (σ : Type) where
  start : σ
  nextState : σ → UInt8 → σ
  nextEoiState : σ → σ
  isDeadState : σ → Bool
  isQuitState : σ → Bool
  isMatchState : σ → Bool

structure TokenByteTable where
  bytes : List (Option (List UInt8))
  eos : Token

/-- The order in which a `HashMap` yields its entries, which is not specified. -/
structure IterOrder (α : Type) where
  arrange : List α → List α
  perm : ∀ entries, (arrange entries).Perm entries

structure RegexEngine (σ : Type) where
  dfa : RegexDfa σ
  state : σ
  table : TokenByteTable
  maskCache : σ → Option (List Bool)
  liveCache : σ → Option Bool

/-- `0..=255u8`. -/
def allBytes : List UInt8 := (List.range 256).map UInt8.ofNat

namespace RegexDfa

variable {σ : Type} (dfa : RegexDfa σ)

/-- The successor of a state, unless it is dead or quit. -/
def stepByte (s : σ) (b : UInt8) : Option σ :=
  let next := dfa.nextState s b
  if dfa.isDeadState next || dfa.isQuitState next then none else some next

def walk (s : σ) (bytes : List UInt8) : Option σ := bytes.foldlM dfa.stepByte s

def isAccept (s : σ) : Bool := dfa.isMatchState (dfa.nextEoiState s)

end RegexDfa

namespace RegexEngine

variable {σ : Type}

/-- The engine that `RegexEngine::compile` builds around the pattern's DFA. -/
def new (dfa : RegexDfa σ) (table : TokenByteTable) : RegexEngine σ where
  dfa := dfa
  state := dfa.start
  table := table
  maskCache := fun _ => none
  liveCache := fun _ => none

variable [DecidableEq σ] [Fintype σ]

/-- The subgraph that `is_live` explores. A state is visited once, so as many rounds as there are
states are enough. -/
def subgraph (dfa : RegexDfa σ) (s : σ) : Saturation.Worklist σ :=
  Saturation.explore dfa.stepByte allBytes (Fintype.card σ) ⟨[s], {s}, []⟩

/-- The reverse fixpoint of `is_live` over a subgraph. Each pass but the last marks a state. -/
def liveStates (order : IterOrder (σ × List σ)) (dfa : RegexDfa σ)
    (work : Saturation.Worklist σ) : σ → Bool :=
  Saturation.saturate (order.arrange work.succ) (work.succ.length + 1)
    fun u => decide (u ∈ work.seen) && dfa.isAccept u

def isLive (order : IterOrder (σ × List σ)) (s : σ) (rx : RegexEngine σ) :
    Bool × RegexEngine σ :=
  match rx.liveCache s with
  | some live => (live, rx)
  | none =>
      let work := subgraph rx.dfa s
      let live := liveStates order rx.dfa work
      (live s, { rx with
        liveCache := fun u => if u ∈ work.seen then some (live u) else rx.liveCache u })

def tokenAllowed (order : IterOrder (σ × List σ)) (s : σ) (entry : Option (List UInt8))
    (rx : RegexEngine σ) : Bool × RegexEngine σ :=
  match entry with
  | none => (false, rx)
  | some bytes =>
      match rx.dfa.walk s bytes with
      | none => (false, rx)
      | some t => rx.isLive order t

def maskOf (order : IterOrder (σ × List σ)) (s : σ) :
    List (Option (List UInt8)) → RegexEngine σ → List Bool × RegexEngine σ
  | [], rx => ([], rx)
  | entry :: entries, rx =>
      let (allowed, rx) := rx.tokenAllowed order s entry
      let (rest, rx) := maskOf order s entries rx
      (allowed :: rest, rx)

def allowedMask (order : IterOrder (σ × List σ)) (s : σ) (rx : RegexEngine σ) :
    List Bool × RegexEngine σ :=
  match rx.maskCache s with
  | some mask => (mask, rx)
  | none =>
      let (mask, rx) := maskOf order s rx.table.bytes rx
      (mask, { rx with maskCache := update rx.maskCache s (some mask) })

end RegexEngine

structure LogitFsm (σ : Type) where
  banned : List Token
  regex : Option (RegexEngine σ)

namespace LogitFsm

variable {σ : Type}

/-- What `LogitFSM::compile` makes of a grammar that compiles to a regex. -/
def compileRegex (dfa : RegexDfa σ) (table : TokenByteTable) : LogitFsm σ where
  banned := []
  regex := some (.new dfa table)

/-- Whether the mask leaves a token open: EOS where the text matches, or where nothing else can be
sampled. -/
def isOpen (rx : RegexEngine σ) (allowed : List Bool) (token : Token) : Bool :=
  if token = rx.table.eos then rx.dfa.isAccept rx.state || !allowed.any id
  else allowed.getD token false

def maskLogits (rx : RegexEngine σ) (allowed : List Bool) (logits : List Logit) : List Logit :=
  logits.mapIdx fun token slot => if isOpen rx allowed token then slot else ⊥

def applyMask [DecidableEq σ] [Fintype σ] (order : IterOrder (σ × List σ)) (logits : List Logit) (fsm : LogitFsm σ) :
    List Logit × LogitFsm σ :=
  let logits := fsm.banned.foldl (fun logits id => logits.set id ⊥) logits
  match fsm.regex with
  | none => (logits, fsm)
  | some rx =>
      let (allowed, rx) := rx.allowedMask order rx.state
      (maskLogits rx allowed logits, { fsm with regex := some rx })

def advance (tokenId : Token) (fsm : LogitFsm σ) : LogitFsm σ :=
  match fsm.regex with
  | none => fsm
  | some rx =>
      if tokenId = rx.table.eos then fsm
      else
        match rx.table.bytes.getD tokenId none with
        | none => fsm
        | some bytes =>
            match rx.dfa.walk rx.state bytes with
            | some next => { fsm with regex := some { rx with state := next } }
            | none => fsm

end LogitFsm

end Zllm.Engine

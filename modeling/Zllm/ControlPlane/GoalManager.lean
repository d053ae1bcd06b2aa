import Zllm.Engine.MemoryStore

/-!
# The goal manager

`GoalManager`: goals, tasks and the rolling status as entries of the memory store. Each definition
below is what one acquisition of the store's lock covers. The uuids, the encoder's answers, the
readings of the clock and the orders of the maps are arguments.
-/

namespace Zllm.ControlPlane

open Engine

def tagCurrent : String := "current"

def statusTtlSeconds : Nat := 3600

def pinnedNoTtl : StoreOptions := { pinned := true, ttlSeconds := none }

inductive TaskStatus
  | active
  | done
  | blocked
  deriving DecidableEq

namespace TaskStatus

def tag : TaskStatus → String
  | active => "active"
  | done => "done"
  | blocked => "blocked"

def fromTag (tag : String) : Option TaskStatus :=
  if tag = "active" then some active
  else if tag = "done" then some done
  else if tag = "blocked" then some blocked
  else none

end TaskStatus

structure Goal where
  goalId : String
  text : String
  isCurrent : Bool
  deriving DecidableEq

structure Task where
  taskId : String
  goalId : String
  text : String
  status : TaskStatus
  deriving DecidableEq

structure StatusEntry where
  text : String
  goalId : String
  deriving DecidableEq

structure PersistedState where
  goals : List Goal
  tasks : List Task
  status : Option StatusEntry
  deriving DecidableEq

def goalKey (goalId : String) : String := "goal:" ++ goalId

def taskKey (taskId : String) : String := "task:" ++ taskId

def statusKey : String := "status:current"

/-- `str::strip_prefix`. -/
def stripStart (start tag : String) : Option String :=
  (tag.toList.dropPrefix? start.toList).map String.ofList

def extractId (tags : List String) (start : String) : Option String :=
  tags.findSome? (stripStart start)

section

variable {F : Type}

/-- The manager's encoder as it answers during a call, and the width it falls back to. -/
structure GoalManager (F : Type) where
  dModel : Nat
  encoder : Option (String → Option (List F))

def GoalManager.encode [Zero F] (m : GoalManager F) (text : String) : List F :=
  match m.encoder.bind fun encoder => encoder text with
  | some v => if v.isEmpty then List.replicate m.dModel 0 else v
  | none => List.replicate m.dModel 0

/-! ### What a call finds around it -/

/-- The clock at a query, and the order of the key set it goes through. -/
structure Sight where
  now : Nat
  keys : IterOrder String

/-- The clock when an entry is looked up and when it is stored, and the order of the entries. -/
structure Moment (F : Type) where
  got : Nat
  stored : Nat
  order : EntryOrder F

/-- A call that queries, rewrites some keys and then stores one. -/
structure Ambient (F : Type) where
  found : Nat
  query : Sight
  each : String → Moment F
  last : Moment F

/-! ### Entries as goals, tasks and status -/

def isCurrent (metadata : MemoryMetadata) : Bool := metadata.tags.any fun t => t == tagCurrent

def taskStatus (metadata : MemoryMetadata) : TaskStatus :=
  (metadata.tags.findSome? TaskStatus.fromTag).getD .active

def toGoal (metadata : MemoryMetadata) : Goal where
  goalId := (extractId metadata.tags "goal:").getD ""
  text := metadata.textSummary
  isCurrent := isCurrent metadata

def toTask (metadata : MemoryMetadata) : Task where
  taskId := (extractId metadata.tags "task:").getD ""
  goalId := (extractId metadata.tags "goal:").getD ""
  text := metadata.textSummary
  status := taskStatus metadata

def toStatus (metadata : MemoryMetadata) : StatusEntry where
  text := metadata.textSummary
  goalId := (extractId metadata.tags "goal:").getD ""

def goalMetadata (g : Goal) : MemoryMetadata where
  sourceRequestId := goalKey g.goalId
  layerCaptured := 0
  category := .goal
  tags := ("goal:" ++ g.goalId) :: if g.isCurrent then [tagCurrent] else []
  textSummary := g.text

def taskMetadata (t : Task) : MemoryMetadata where
  sourceRequestId := taskKey t.taskId
  layerCaptured := 0
  category := .task
  tags := ["goal:" ++ t.goalId, "task:" ++ t.taskId, t.status.tag]
  textSummary := t.text

def statusMetadata (st : StatusEntry) : MemoryMetadata where
  sourceRequestId := statusKey
  layerCaptured := 0
  category := .status
  tags := ["goal:" ++ st.goalId]
  textSummary := st.text

/-- A finished task can be evicted. -/
def taskOptions : TaskStatus → StoreOptions
  | .done => { pinned := false, ttlSeconds := none }
  | .active => pinnedNoTtl
  | .blocked => pinnedNoTtl

/-! ### Saving and restoring -/

/-- `max_by_key` keeps the last of the greatest. -/
def latest (entries : List (MemoryEntry F)) : Option (MemoryEntry F) :=
  List.argmax MemoryEntry.createdAt entries.reverse

def snapshotForSave (goals tasks status : Sight) (s : MemoryStore F) : PersistedState where
  goals := (s.queryByCategory goals.keys goals.now .goal).map fun e => toGoal e.metadata
  tasks := (s.queryByCategory tasks.keys tasks.now .task).map fun e => toTask e.metadata
  status := (latest (s.queryByCategory status.keys status.now .status)).map fun e =>
    toStatus e.metadata

section Calls

variable [Zero F] (m : GoalManager F)

def restoreGoal (moment : Moment F) (g : Goal) (s : MemoryStore F) : MemoryStore F :=
  (s.storeWithOptions moment.order moment.stored (goalKey g.goalId) (m.encode g.text)
    (goalMetadata g) pinnedNoTtl).2

def restoreTask (moment : Moment F) (t : Task) (s : MemoryStore F) : MemoryStore F :=
  (s.storeWithOptions moment.order moment.stored (taskKey t.taskId) (m.encode t.text)
    (taskMetadata t) (taskOptions t.status)).2

def restoreStatus (moment : Moment F) (st : StatusEntry) (s : MemoryStore F) : MemoryStore F :=
  (s.storeWithOptions moment.order moment.stored statusKey (m.encode st.text)
    (statusMetadata st) { pinned := false, ttlSeconds := some statusTtlSeconds }).2

end Calls

/-! ### Rewriting an entry's tags -/

/-- Looks a key up and stores its entry again with other tags; whether the key was there. -/
def retag (moment : Moment F) (s : MemoryStore F) (key : String)
    (tags : List String → List String) (options : StoreOptions) : Bool × MemoryStore F :=
  match s.get moment.got key with
  | (none, s) => (false, s)
  | (some e, s) =>
    (true,
      (s.storeWithOptions moment.order moment.stored key e.vector
        { e.metadata with tags := tags e.metadata.tags } options).2)

def dropCurrent (tags : List String) : List String := tags.filter fun t => t != tagCurrent

def addCurrent (tags : List String) : List String :=
  if tags.any fun t => t == tagCurrent then tags else tags ++ [tagCurrent]

def withStatus (status : TaskStatus) (tags : List String) : List String :=
  (tags.filter fun t => (TaskStatus.fromTag t).isNone) ++ [status.tag]

/-! ### Goals -/

/-- The keys of the goals that are current. -/
def currentKeys (query : Sight) (s : MemoryStore F) : List String :=
  ((s.queryByCategory query.keys query.now .goal).filter fun e => isCurrent e.metadata).map
    MemoryEntry.key

def clearCurrent (each : String → Moment F) (s : MemoryStore F) (keys : List String) :
    MemoryStore F :=
  keys.foldl (fun s key => (retag (each key) s key dropCurrent pinnedNoTtl).2) s

/-- The new goal's id is the answer. -/
def setGoal [Zero F] (m : GoalManager F) (amb : Ambient F) (goalId text : String)
    (s : MemoryStore F) : String × MemoryStore F :=
  (goalId,
    restoreGoal m amb.last { goalId, text, isCurrent := true }
      (clearCurrent amb.each s (currentKeys amb.query s)))

def setCurrent (amb : Ambient F) (goalId : String) (s : MemoryStore F) : Bool × MemoryStore F :=
  match s.get amb.found (goalKey goalId) with
  | (none, s) => (false, s)
  | (some _, s) =>
    retag amb.last (clearCurrent amb.each s (currentKeys amb.query s)) (goalKey goalId) addCurrent
      pinnedNoTtl

/-! ### Tasks -/

def addTask [Zero F] (m : GoalManager F) (moment : Moment F) (taskId goalId text : String)
    (s : MemoryStore F) : String × MemoryStore F :=
  (taskId, restoreTask m moment { taskId, goalId, text, status := .active } s)

def updateTask (moment : Moment F) (taskId : String) (status : TaskStatus) (s : MemoryStore F) :
    Bool × MemoryStore F :=
  retag moment s (taskKey taskId) (withStatus status) (taskOptions status)

/-! ### Status -/

def setStatus [Zero F] (m : GoalManager F) (amb : Ambient F) (text : String)
    (s : MemoryStore F) : MemoryStore F :=
  let current := (s.queryByCategory amb.query.keys amb.query.now .goal).find? fun e =>
    isCurrent e.metadata
  let goalId := (current.bind fun e => extractId e.metadata.tags "goal:").getD "none"
  restoreStatus m amb.last { text, goalId } s

end

end Zllm.ControlPlane

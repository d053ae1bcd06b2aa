import Zllm.Lib.Publication
import Zllm.ControlPlane.GoalRecords

/-!
# The goal file

The calls that change goals, each under the store's lock, and what `save` then does outside it:
`snapshot_for_save`, the write of the temporary file and its rename, in any order among the callers.
-/

namespace Zllm.ControlPlane

open Engine Engine.MemoryStore Publication

variable {F ω : Type}

/-- A call that changes the goal state, with what it finds. -/
inductive Mutation (F : Type)
  | setGoal (m : GoalManager F) (amb : Ambient F) (goalId text : String)
  | setCurrent (amb : Ambient F) (goalId : String)
  | addTask (m : GoalManager F) (moment : Moment F) (taskId goalId text : String)
  | updateTask (moment : Moment F) (taskId : String) (status : TaskStatus)
  | setStatus (m : GoalManager F) (amb : Ambient F) (text : String)

/-- The call up to the release of the lock, and whether it goes on to save. -/
def Mutation.call [Zero F] : Mutation F → MemoryStore F → Bool × MemoryStore F
  | setGoal m amb goalId text, s => (true, (ControlPlane.setGoal m amb goalId text s).2)
  | setCurrent amb goalId, s => ControlPlane.setCurrent amb goalId s
  | addTask m moment taskId goalId text, s =>
    (true, (ControlPlane.addTask m moment taskId goalId text s).2)
  | updateTask moment taskId status, s => ControlPlane.updateTask moment taskId status s
  | setStatus m amb text, s => (true, ControlPlane.setStatus m amb text s)

/-- The store, the temporary file and the file as `load_from_disk` reads it, which without a file
finds the empty state, under the callers `ω`. -/
abbrev GoalDisk (ω F : Type) := Publication.State ω (MemoryStore F) PersistedState

abbrev GoalStep (ω F : Type) := Publication.Step ω (Mutation F) SnapshotSight

/-! ### What a file says of a store -/

/-- An entry of the status category that has not expired at this reading of the clock. -/
def StatusAt (now : Nat) (s : MemoryStore F) (entry : MemoryEntry F) : Prop :=
  ∃ key, s.entries.lookup key = some entry ∧ entry.metadata.category = .status ∧
    entry.isExpired now = false

/-- A state with the goals and tasks of a store, each once, and with a status that none created
later has replaced, or none, as it was at some reading of the clock. -/
structure Describes (state : PersistedState) (s : MemoryStore F) : Prop where
  goals : ∀ g, g ∈ state.goals ↔ ∃ entry, s.entries.lookup (goalKey g.goalId) = some entry ∧
    entry.metadata = goalMetadata g
  goalsOnce : (state.goals.map Goal.goalId).Nodup
  tasks : ∀ t, t ∈ state.tasks ↔ ∃ entry, s.entries.lookup (taskKey t.taskId) = some entry ∧
    entry.metadata = taskMetadata t
  tasksOnce : (state.tasks.map Task.taskId).Nodup
  status : ∃ now, match state.status with
    | some st => ∃ entry, StatusAt now s entry ∧ toStatus entry.metadata = st ∧
        ∀ other, StatusAt now s other → other.createdAt ≤ entry.createdAt
    | none => ∀ entry, ¬StatusAt now s entry

section

variable {s : MemoryStore F}

theorem latest_mem {entries : List (MemoryEntry F)} {entry : MemoryEntry F}
    (h : latest entries = some entry) : entry ∈ entries :=
  List.mem_reverse.mp (List.argmax_mem (Option.mem_def.mpr h))

theorem latest_ne_none {entries : List (MemoryEntry F)} {entry : MemoryEntry F}
    (h : entry ∈ entries) : latest entries ≠ none := by
  intro hnone
  rw [latest, List.argmax_eq_none, List.reverse_eq_nil_iff] at hnone
  rw [hnone] at h
  cases h

theorem mem_query_status (hs : Managed s) {sight : Sight} {entry : MemoryEntry F} :
    entry ∈ s.queryByCategory sight.keys sight.now .status ↔ StatusAt sight.now s entry :=
  mem_queryByCategory hs.accounted

/-- Every snapshot describes the store it was taken of. -/
theorem snapshot_describes (hs : Managed s) (sight : SnapshotSight) :
    Describes (sight.snapshot s) s := by
  refine {
    goals := fun g => ?_
    goalsOnce := ?_
    tasks := fun t => ?_
    tasksOnce := ?_
    status := ⟨sight.status.now, ?_⟩
  }
  · rw [mem_snapshot_goals sight hs]
    constructor
    · rintro ⟨key, entry, hlookup, hg⟩
      exact ⟨entry, hg.key ▸ hlookup, hg.metadata⟩
    · rintro ⟨entry, hlookup, hmetadata⟩
      obtain ⟨g', hg', -⟩ := hs.goal_of_key hlookup
      exact ⟨_, entry, hlookup, rfl, hmetadata, hg'.pinned, hg'.expiresAt⟩
  · apply List.Nodup.of_map goalKey
    rw [List.map_map]
    have hkeys : (sight.snapshot s).goals.map (goalKey ∘ Goal.goalId) = _ := snapshot_goalKeys hs
    rw [hkeys]
    exact nodup_queryByCategory hs sight.goals .goal
  · rw [mem_snapshot_tasks sight hs]
    constructor
    · rintro ⟨key, entry, hlookup, ht⟩
      exact ⟨entry, ht.key ▸ hlookup, ht.metadata⟩
    · rintro ⟨entry, hlookup, hmetadata⟩
      obtain ⟨t', ht', -⟩ := hs.task_of_key hlookup
      have hsame : t' = t := by
        rw [← toTask_taskMetadata t', ← ht'.metadata, hmetadata, toTask_taskMetadata]
      exact ⟨_, entry, hlookup, hsame ▸ ht'⟩
  · apply List.Nodup.of_map taskKey
    rw [List.map_map]
    have hkeys : (sight.snapshot s).tasks.map (taskKey ∘ Task.taskId) = _ := snapshot_taskKeys hs
    rw [hkeys]
    exact nodup_queryByCategory hs sight.tasks .task
  · have hstatus : (sight.snapshot s).status =
        (latest (s.queryByCategory sight.status.keys sight.status.now .status)).map fun entry =>
          toStatus entry.metadata := rfl
    rw [hstatus]
    cases hlatest : latest (s.queryByCategory sight.status.keys sight.status.now .status) with
    | none =>
      intro entry hentry
      exact latest_ne_none ((mem_query_status hs).mpr hentry) hlatest
    | some entry =>
      refine ⟨entry, ?_, rfl, fun other hother => ?_⟩
      · exact (mem_query_status hs).mp (latest_mem hlatest)
      · exact List.le_of_mem_argmax (List.mem_reverse.mpr ((mem_query_status hs).mpr hother))
          (Option.mem_def.mpr hlatest)

end

/-! ### The calls -/

section

variable [Zero F] {s : MemoryStore F}

theorem Mutation.section (call : Mutation F) (s : MemoryStore F) : Section s (call.call s).2 := by
  cases call with
  | setGoal m amb goalId text => exact .setGoal m amb goalId text s
  | setCurrent amb goalId => exact .setCurrent amb goalId s
  | addTask m moment taskId goalId text => exact .addTask m moment taskId goalId text s
  | updateTask moment taskId status => exact .updateTask moment taskId status s
  | setStatus m amb text => exact .setStatus m amb text s

/-- A call that does not save has changed nothing. -/
theorem Mutation.quiet (hs : Managed s) (call : Mutation F) (hfalse : (call.call s).1 = false) :
    (call.call s).2 = s := by
  cases call with
  | setGoal m amb goalId text => cases hfalse
  | setCurrent amb goalId =>
    rw [Mutation.call] at hfalse ⊢
    cases hlookup : s.entries.lookup (goalKey goalId) with
    | none => rw [setCurrent_of_lookup_eq_none amb hlookup]
    | some entry =>
      rw [(setCurrent_sets hs amb hlookup).1] at hfalse
      cases hfalse
  | addTask m moment taskId goalId text => cases hfalse
  | updateTask moment taskId status =>
    rw [Mutation.call, ControlPlane.updateTask] at hfalse ⊢
    cases hlookup : s.entries.lookup (taskKey taskId) with
    | none => rw [retag_of_lookup_eq_none moment _ _ hlookup]
    | some entry =>
      obtain ⟨t, ht, -⟩ := hs.task_of_key hlookup
      obtain ⟨s', heq, -⟩ := retag_of_lookup moment (withStatus status) (taskOptions status) hs
        hlookup ht.expiresAt
      rw [heq] at hfalse
      cases hfalse
  | setStatus m amb text => cases hfalse

end

/-- A store that a manager reaches, the file that describes it, and no call under way. -/
structure GoalDisk.Settled [Zero F] (s : GoalDisk ω F) : Prop where
  reachable : GoalReachable s.value
  idle : ∀ w, s.writers w = .idle
  tmp : s.tmp = none
  version : s.file.version = s.version
  describes : Describes s.file.content s.value

/-- Where no save writes its snapshot over a newer one, or renames it over a newer file, the file
describes the store whenever all calls have returned. -/
theorem file_describes_store [DecidableEq ω] [Zero F] {s s' : GoalDisk ω F}
    (steps : List (GoalStep ω F)) (hsettled : s.Settled)
    (horder : s.inOrderRun Mutation.call SnapshotSight.snapshot steps = true)
    (hrun : s.run Mutation.call SnapshotSight.snapshot steps = some s')
    (hreturned : ∀ w, s'.writers w = .idle) : Describes s'.file.content s'.value := by
  have hpublishing : s.Publishing GoalReachable Describes :=
    State.publishing_of_idle hsettled.reachable hsettled.idle hsettled.tmp hsettled.version
      hsettled.describes
  have hreached : s'.Publishing GoalReachable Describes := by
    refine hpublishing.run ?_ ?_ ?_ horder hrun
    · intro call store hstore
      exact .call hstore (call.section store)
    · intro call store hstore hfalse
      exact call.quiet hstore.managed hfalse
    · intro sight store hstore
      exact snapshot_describes hstore.managed sight
  exact hreached.settled hreturned

/-- Two callers over an empty store and no file. -/
def emptyDisk : GoalDisk Bool ℚ where
  value := withBudget 4 64 fun _ => none
  version := 0
  tmp := none
  file := ⟨0, ⟨[], [], none⟩⟩
  writers := fun _ => .idle

theorem emptyDisk_settled : emptyDisk.Settled where
  reachable := .withBudget 4 64 fun _ => none
  idle _ := rfl
  tmp := rfl
  version := rfl
  describes := snapshot_describes (managed_withBudget 4 64 fun _ => none) sightAtOnce

def setFirst : Mutation ℚ := .setGoal unencoded undisturbed "first" "find"

def addSecond : Mutation ℚ := .addTask unencoded atOnce "second" "first" "fix"

/-- The saves overlap, but the newer snapshot is renamed last. -/
def newestLast : List (GoalStep Bool ℚ) :=
  [.change true setFirst, .snapshot true sightAtOnce, .change false addSecond,
    .snapshot false sightAtOnce, .write true, .rename true, .write false, .rename false]

theorem file_describes_store_newestLast :
    ∃ s', emptyDisk.run Mutation.call SnapshotSight.snapshot newestLast = some s' ∧
      Describes s'.file.content s'.value :=
  ⟨_, rfl, file_describes_store newestLast emptyDisk_settled rfl rfl fun w => by cases w <;> rfl⟩

/-- The first call's snapshot is held back until the second call's has been renamed. -/
def overlapping : List (GoalStep Bool ℚ) :=
  [.change true setFirst, .snapshot true sightAtOnce, .change false addSecond,
    .snapshot false sightAtOnce, .write false, .rename false, .write true, .rename true]

/-- Both calls have returned and the file is without the second one's task. -/
theorem older_snapshot_last :
    ¬ ∀ (s s' : GoalDisk Bool ℚ) (steps : List (GoalStep Bool ℚ)), s.Settled →
      s.run Mutation.call SnapshotSight.snapshot steps = some s' → (∀ w, s'.writers w = .idle) →
      Describes s'.file.content s'.value := by
  intro hclaim
  have hdescribes := hclaim emptyDisk _ overlapping emptyDisk_settled rfl
    fun w => by cases w <;> rfl
  have hs : Managed (addSecond.call (setFirst.call emptyDisk.value).2).2 :=
    (GoalReachable.call (.call emptyDisk_settled.reachable (setFirst.section _))
      (addSecond.section _)).managed
  have hheld : ((addSecond.call (setFirst.call emptyDisk.value).2).2.entries.lookup
      (taskKey "second")).isSome = true := by decide +kernel
  obtain ⟨entry, hlookup⟩ := Option.isSome_iff_exists.mp hheld
  obtain ⟨t, ht, -⟩ := hs.task_of_key hlookup
  have hmem := (hdescribes.tasks t).mpr ⟨entry, ht.key ▸ hlookup, ht.metadata⟩
  have hnone : (sightAtOnce.snapshot (setFirst.call emptyDisk.value).2).tasks.length = 0 := by
    decide +kernel
  rw [List.length_eq_zero_iff] at hnone
  have htasks : t ∈ (sightAtOnce.snapshot (setFirst.call emptyDisk.value).2).tasks := hmem
  rw [hnone] at htasks
  cases htasks

end Zllm.ControlPlane

import Zllm.ControlPlane.GoalEffects

/-!
# Concurrent calls of the goal manager

Calls on one manager interleave at the acquisitions of the store's lock. All but `reencode_all`
change the store under one acquisition, and then read it again to save. `reencode_all` takes a
snapshot and writes its records back under one acquisition each.
-/

namespace Zllm.ControlPlane

open Engine Engine.MemoryStore Ledger
open Function (update)

variable {F : Type} [Zero F]

/-! ### Threads -/

/-- Where a thread is between two acquisitions of the lock. -/
inductive Phase
  | idle
  | saving
  | reencoding (rest : PersistedState)

structure System (F : Type) where
  store : MemoryStore F
  threads : Nat → Phase

inductive Event (F : Type)
  | setGoal (m : GoalManager F) (amb : Ambient F) (goalId text : String)
  | setCurrent (amb : Ambient F) (goalId : String)
  | addTask (m : GoalManager F) (moment : Moment F) (taskId goalId text : String)
  | updateTask (moment : Moment F) (taskId : String) (status : TaskStatus)
  | setStatus (m : GoalManager F) (amb : Ambient F) (text : String)
  | save
  | snapshot (goals tasks status : Sight)
  | restoreGoal (m : GoalManager F) (moment : Moment F)
  | restoreTask (m : GoalManager F) (moment : Moment F)
  | restoreStatus (m : GoalManager F) (moment : Moment F)
  | reencoded
  | otherStore (order : EntryOrder F) (now : Nat) (key : String) (vector : List F)
      (metadata : MemoryMetadata) (options : StoreOptions)

/-- Whether `reencode_all` writes a record back. -/
def Event.restores : Event F → Bool
  | .restoreGoal .. | .restoreTask .. | .restoreStatus .. => true
  | _ => false

namespace Phase

def goals : Phase → List Goal
  | reencoding rest => rest.goals
  | _ => []

def tasks : Phase → List Task
  | reencoding rest => rest.tasks
  | _ => []

end Phase

namespace System

/-- A goal that some `reencode_all` has still to write back. -/
def PendingGoal (σ : System F) (g : Goal) : Prop := ∃ thread, g ∈ (σ.threads thread).goals

def PendingTask (σ : System F) (t : Task) : Prop := ∃ thread, t ∈ (σ.threads thread).tasks

/-- The store after a step, with one thread moved on. -/
def move (σ : System F) (store : MemoryStore F) (thread : Nat) (phase : Phase) : System F where
  store := store
  threads := update σ.threads thread phase

omit [Zero F] in
theorem threads_move_self (σ : System F) (store : MemoryStore F) (thread : Nat) (phase : Phase) :
    (σ.move store thread phase).threads thread = phase := by
  show update σ.threads thread phase thread = phase
  exact Function.update_self thread phase σ.threads

omit [Zero F] in
theorem threads_move_of_ne (σ : System F) (store : MemoryStore F) (phase : Phase)
    {thread other : Nat} (hne : other ≠ thread) :
    (σ.move store thread phase).threads other = σ.threads other := by
  show update σ.threads thread phase other = σ.threads other
  exact Function.update_of_ne hne phase σ.threads

/-- One thread acquires the lock once. A new uuid is nowhere in use. -/
inductive Step (σ : System F) (thread : Nat) : Event F → System F → Prop
  | setGoal (hidle : σ.threads thread = .idle) (m : GoalManager F) (amb : Ambient F)
      {goalId : String} (text : String)
      (hfresh : σ.store.entries.lookup (goalKey goalId) = none ∧
        ∀ g, σ.PendingGoal g → g.goalId ≠ goalId) :
      Step σ thread (.setGoal m amb goalId text)
        (σ.move (setGoal m amb goalId text σ.store).2 thread .saving)
  | setCurrent (hidle : σ.threads thread = .idle) (amb : Ambient F) (goalId : String) :
      Step σ thread (.setCurrent amb goalId)
        (σ.move (setCurrent amb goalId σ.store).2 thread
          (if (setCurrent amb goalId σ.store).1 then .saving else .idle))
  | addTask (hidle : σ.threads thread = .idle) (m : GoalManager F) (moment : Moment F)
      {taskId : String} (goalId text : String)
      (hfresh : σ.store.entries.lookup (taskKey taskId) = none ∧
        ∀ t, σ.PendingTask t → t.taskId ≠ taskId) :
      Step σ thread (.addTask m moment taskId goalId text)
        (σ.move (addTask m moment taskId goalId text σ.store).2 thread .saving)
  | updateTask (hidle : σ.threads thread = .idle) (moment : Moment F) (taskId : String)
      (status : TaskStatus) :
      Step σ thread (.updateTask moment taskId status)
        (σ.move (updateTask moment taskId status σ.store).2 thread
          (if (updateTask moment taskId status σ.store).1 then .saving else .idle))
  | setStatus (hidle : σ.threads thread = .idle) (m : GoalManager F) (amb : Ambient F)
      (text : String) :
      Step σ thread (.setStatus m amb text)
        (σ.move (setStatus m amb text σ.store) thread .saving)
  | save (hsaving : σ.threads thread = .saving) :
      Step σ thread .save (σ.move σ.store thread .idle)
  | snapshot (hidle : σ.threads thread = .idle) (goals tasks status : Sight) :
      Step σ thread (.snapshot goals tasks status)
        (σ.move σ.store thread (.reencoding (snapshotForSave goals tasks status σ.store)))
  | restoreGoal {g : Goal} {goals : List Goal} {tasks : List Task} {status : Option StatusEntry}
      (hnext : σ.threads thread = .reencoding { goals := g :: goals, tasks, status })
      (m : GoalManager F) (moment : Moment F) :
      Step σ thread (.restoreGoal m moment)
        (σ.move (restoreGoal m moment g σ.store) thread (.reencoding { goals, tasks, status }))
  | restoreTask {t : Task} {tasks : List Task} {status : Option StatusEntry}
      (hnext : σ.threads thread = .reencoding { goals := [], tasks := t :: tasks, status })
      (m : GoalManager F) (moment : Moment F) :
      Step σ thread (.restoreTask m moment)
        (σ.move (restoreTask m moment t σ.store) thread
          (.reencoding { goals := [], tasks, status }))
  | restoreStatus {st : StatusEntry}
      (hnext : σ.threads thread = .reencoding { goals := [], tasks := [], status := some st })
      (m : GoalManager F) (moment : Moment F) :
      Step σ thread (.restoreStatus m moment)
        (σ.move (restoreStatus m moment st σ.store) thread
          (.reencoding { goals := [], tasks := [], status := none }))
  | reencoded
      (hdone : σ.threads thread = .reencoding { goals := [], tasks := [], status := none }) :
      Step σ thread .reencoded (σ.move σ.store thread .idle)
  | otherStore (hidle : σ.threads thread = .idle) (order : EntryOrder F) (now : Nat)
      {key : String} (vector : List F) {metadata : MemoryMetadata} (options : StoreOptions)
      (hforeign : Foreign key metadata.category) :
      Step σ thread (.otherStore order now key vector metadata options)
        (σ.move (σ.store.storeWithOptions order now key vector metadata options).2 thread .idle)

/-- The systems reached from an empty store of any limits by steps of a kind, in any order. -/
inductive Reached (Admissible : System F → Event F → Prop) : System F → Prop
  | start (maxEntries byteBudget : Nat) (categoryBudgets : MemoryCategory → Option Nat) :
      Reached Admissible
        { store := withBudget maxEntries byteBudget categoryBudgets, threads := fun _ => .idle }
  | step {σ σ' : System F} {thread : Nat} {event : Event F} (hreached : Reached Admissible σ)
      (hstep : Step σ thread event σ') (hadmissible : Admissible σ event) : Reached Admissible σ'

/-- A call that sets a current goal or a task's status disagrees with no record that some
`reencode_all` has still to write back. -/
def Undisturbed (σ : System F) : Event F → Prop
  | .setGoal .. => ∀ g, σ.PendingGoal g → g.isCurrent = false
  | .setCurrent _ goalId => σ.store.entries.lookup (goalKey goalId) ≠ none →
      ∀ g, σ.PendingGoal g → (g.isCurrent = true ↔ g.goalId = goalId)
  | .updateTask _ taskId status => σ.store.entries.lookup (taskKey taskId) ≠ none →
      ∀ t, σ.PendingTask t → t.taskId = taskId → t.status = status
  | _ => True

end System

/-! ### Flags and statuses -/

omit [Zero F]

/-- At most one goal carries the current tag. -/
def AtMostOneCurrent (s : MemoryStore F) : Prop :=
  ∀ {key key' entry entry'}, s.entries.lookup key = some entry →
    s.entries.lookup key' = some entry' → entry.metadata.category = .goal →
      entry'.metadata.category = .goal → isCurrent entry.metadata = true →
        isCurrent entry'.metadata = true → key = key'

/-- The goals and tasks of both stores have the same flag and status in both. -/
def SameFlags (s s' : MemoryStore F) : Prop :=
  ∀ {key entry entry'}, s.entries.lookup key = some entry →
    s'.entries.lookup key = some entry' →
      (entry.metadata.category = .goal → isCurrent entry'.metadata = isCurrent entry.metadata) ∧
        (entry.metadata.category = .task →
          taskStatus entry'.metadata = taskStatus entry.metadata)

/-- The store's goals and tasks have the flags and statuses that were set last. -/
structure StoreAgrees (s : MemoryStore F) (current : Option String)
    (statuses : String → TaskStatus) : Prop where
  managed : Managed s
  goal : ∀ {key entry g}, s.entries.lookup key = some entry → GoalEntry key entry g →
    (g.isCurrent = true ↔ current = some g.goalId)
  task : ∀ {key entry t}, s.entries.lookup key = some entry → TaskEntry key entry t →
    t.status = statuses t.taskId

/-- So do the records that are still to be written back. -/
structure Agrees (σ : System F) (current : Option String) (statuses : String → TaskStatus) :
    Prop where
  store : StoreAgrees σ.store current statuses
  pendingGoal : ∀ {g}, σ.PendingGoal g → (g.isCurrent = true ↔ current = some g.goalId)
  pendingTask : ∀ {t}, σ.PendingTask t → t.status = statuses t.taskId

section

variable {s s' : MemoryStore F} {σ : System F} {current : Option String}
  {statuses : String → TaskStatus}

theorem StoreAgrees.atMostOneCurrent (hagrees : StoreAgrees s current statuses) :
    AtMostOneCurrent s := by
  intro key key' entry entry' hlookup hlookup' hcategory hcategory' hcurrent hcurrent'
  obtain ⟨g, hg⟩ := hagrees.managed.goal_of_category hlookup hcategory
  obtain ⟨g', hg'⟩ := hagrees.managed.goal_of_category hlookup' hcategory'
  rw [hg.metadata, isCurrent_goalMetadata] at hcurrent
  rw [hg'.metadata, isCurrent_goalMetadata] at hcurrent'
  have hid := (hagrees.goal hlookup hg).mp hcurrent
  rw [(hagrees.goal hlookup' hg').mp hcurrent', Option.some.injEq] at hid
  rw [hg.key, hg'.key, hid]

/-- Two stores that agree with the same flags and statuses have them in common. -/
theorem StoreAgrees.sameFlags (hagrees : StoreAgrees s current statuses)
    (hagrees' : StoreAgrees s' current statuses) : SameFlags s s' := by
  intro key entry entry' hlookup hlookup'
  constructor
  · intro hcategory
    obtain ⟨g, hg⟩ := hagrees.managed.goal_of_category hlookup hcategory
    obtain rfl := hg.key
    obtain ⟨g', hg', hid⟩ := hagrees'.managed.goal_of_key hlookup'
    rw [hg.metadata, hg'.metadata, isCurrent_goalMetadata, isCurrent_goalMetadata,
      Bool.eq_iff_iff, hagrees.goal hlookup hg, hagrees'.goal hlookup' hg', hid]
  · intro hcategory
    obtain ⟨t, ht⟩ := hagrees.managed.task_of_category hlookup hcategory
    obtain rfl := ht.key
    obtain ⟨t', ht', hid⟩ := hagrees'.managed.task_of_key hlookup'
    rw [ht.metadata, ht'.metadata, taskStatus_taskMetadata, taskStatus_taskMetadata,
      hagrees.task hlookup ht, hagrees'.task hlookup' ht', hid]

theorem pendingGoal_move {thread : Nat} {phase : Phase} {g : Goal}
    (hpending : (σ.move s thread phase).PendingGoal g) : g ∈ phase.goals ∨ σ.PendingGoal g := by
  obtain ⟨other, hmem⟩ := hpending
  by_cases hthread : other = thread
  · subst hthread
    rw [System.threads_move_self] at hmem
    exact .inl hmem
  · rw [System.threads_move_of_ne σ s phase hthread] at hmem
    exact .inr ⟨other, hmem⟩

theorem pendingTask_move {thread : Nat} {phase : Phase} {t : Task}
    (hpending : (σ.move s thread phase).PendingTask t) : t ∈ phase.tasks ∨ σ.PendingTask t := by
  obtain ⟨other, hmem⟩ := hpending
  by_cases hthread : other = thread
  · subst hthread
    rw [System.threads_move_self] at hmem
    exact .inl hmem
  · rw [System.threads_move_of_ne σ s phase hthread] at hmem
    exact .inr ⟨other, hmem⟩

/-- A step keeps agreement if its store agrees and so does what it leaves to write back. -/
theorem agrees_move {thread : Nat} {phase : Phase} (hstore : StoreAgrees s current statuses)
    (hgoals : ∀ g, σ.PendingGoal g ∨ g ∈ phase.goals →
      (g.isCurrent = true ↔ current = some g.goalId))
    (htasks : ∀ t, σ.PendingTask t ∨ t ∈ phase.tasks → t.status = statuses t.taskId) :
    Agrees (σ.move s thread phase) current statuses where
  store := hstore
  pendingGoal hpending := hgoals _ (pendingGoal_move hpending).symm
  pendingTask hpending := htasks _ (pendingTask_move hpending).symm

/-- Storing an entry that agrees keeps agreement, whatever is evicted. -/
theorem StoreAgrees.stores {order : EntryOrder F} {now : Nat} {key : String} {vector : List F}
    {metadata : MemoryMetadata} {options : StoreOptions}
    (hagrees : StoreAgrees s current statuses)
    (hok : EntryOk key (newEntry now key vector metadata options))
    (hgoal : ∀ {g}, GoalEntry key (newEntry now key vector metadata options) g →
      (g.isCurrent = true ↔ current = some g.goalId))
    (htask : ∀ {t}, TaskEntry key (newEntry now key vector metadata options) t →
      t.status = statuses t.taskId) :
    StoreAgrees (s.storeWithOptions order now key vector metadata options).2 current statuses := by
  have hmanaged := hagrees.managed.stores order hok
  obtain ⟨answer, s', heq, hstores⟩ :=
    storeWithOptions_stores order now s key vector metadata options
  rw [heq] at hmanaged ⊢
  refine ⟨hmanaged, fun hlookup hg => ?_, fun hlookup ht => ?_⟩
  · rcases hstores.lookup hlookup with hbefore | ⟨rfl, rfl⟩
    · exact hagrees.goal hbefore hg
    · exact hgoal hg
  · rcases hstores.lookup hlookup with hbefore | ⟨rfl, rfl⟩
    · exact hagrees.task hbefore ht
    · exact htask ht

theorem StoreAgrees.storesForeign {key : String} {metadata : MemoryMetadata}
    (hagrees : StoreAgrees s current statuses) (hforeign : Foreign key metadata.category)
    (order : EntryOrder F) (now : Nat) (vector : List F) (options : StoreOptions) :
    StoreAgrees (s.storeWithOptions order now key vector metadata options).2 current statuses := by
  apply hagrees.stores (entryOk_foreign hforeign now vector options)
  · intro g hg
    exact absurd hg.key (hforeign.ne_goalKey g.goalId)
  · intro t ht
    exact absurd ht.key (hforeign.ne_taskKey t.taskId)

variable [Zero F]

theorem StoreAgrees.restoreGoal (hagrees : StoreAgrees s current statuses) {g : Goal}
    (hg : g.isCurrent = true ↔ current = some g.goalId) (m : GoalManager F) (moment : Moment F) :
    StoreAgrees (restoreGoal m moment g s) current statuses := by
  apply hagrees.stores (entryOk_goal _ _ g)
  · intro g' hg'
    rwa [hg'.unique ⟨rfl, rfl, rfl, rfl⟩]
  · intro t ht
    exact absurd ht.key (goalKey_ne_taskKey g.goalId t.taskId)

theorem StoreAgrees.restoreTask (hagrees : StoreAgrees s current statuses) {t : Task}
    (ht : t.status = statuses t.taskId) (m : GoalManager F) (moment : Moment F) :
    StoreAgrees (restoreTask m moment t s) current statuses := by
  apply hagrees.stores (.inr (.inl ⟨t, taskEntry_new _ _ t⟩))
  · intro g hg
    exact absurd hg.key.symm (goalKey_ne_taskKey g.goalId t.taskId)
  · intro t' ht'
    rwa [ht'.unique (taskEntry_new _ _ t)]

omit [Zero F] in
/-- A snapshot's records have the flags and statuses of the entries they are taken from. -/
theorem snapshot_agrees (hagrees : StoreAgrees s current statuses) (goals tasks status : Sight) :
    (∀ g ∈ (snapshotForSave goals tasks status s).goals,
        (g.isCurrent = true ↔ current = some g.goalId)) ∧
      ∀ t ∈ (snapshotForSave goals tasks status s).tasks, t.status = statuses t.taskId := by
  constructor
  · intro g hmem
    obtain ⟨entry, hentry, rfl⟩ := List.mem_map.mp hmem
    obtain ⟨key, hlookup, hcategory, -⟩ :=
      (mem_queryByCategory hagrees.managed.accounted).mp hentry
    obtain ⟨g, hg⟩ := hagrees.managed.goal_of_category hlookup hcategory
    rw [hg.metadata, toGoal_goalMetadata]
    exact hagrees.goal hlookup hg
  · intro t hmem
    obtain ⟨entry, hentry, rfl⟩ := List.mem_map.mp hmem
    obtain ⟨key, hlookup, hcategory, -⟩ :=
      (mem_queryByCategory hagrees.managed.accounted).mp hentry
    obtain ⟨t, ht⟩ := hagrees.managed.task_of_category hlookup hcategory
    rw [ht.metadata, toTask_taskMetadata]
    exact hagrees.task hlookup ht

/-- Setting a new goal makes it the one that is current. -/
theorem StoreAgrees.setGoal (hagrees : StoreAgrees s current statuses) (m : GoalManager F)
    (amb : Ambient F) {goalId : String} (text : String)
    (hfresh : s.entries.lookup (goalKey goalId) = none) :
    StoreAgrees (setGoal m amb goalId text s).2 (some goalId) statuses := by
  obtain ⟨hclears, hnone⟩ := clears_currentKeys hagrees.managed amb.each amb.query
  have hcleared : StoreAgrees (clearCurrent amb.each s (currentKeys amb.query s)) (some goalId)
      statuses := by
    refine ⟨hclears.managed, fun {key entry g} hlookup hg => ?_, fun {key entry t} hlookup ht => ?_⟩
    · rw [hnone hlookup hg]
      apply iff_of_false Bool.false_ne_true
      intro hsame
      rw [hg.key, ← Option.some.inj hsame, hclears.absent hfresh] at hlookup
      cases hlookup
    · apply hagrees.task _ ht
      rw [← hclears.other, hlookup]
      intro id hkey
      exact goalKey_ne_taskKey id t.taskId (hkey.symm.trans ht.key)
  exact hcleared.restoreGoal (by simp) m amb.last

theorem StoreAgrees.addTask (hagrees : StoreAgrees s current statuses) (m : GoalManager F)
    (moment : Moment F) {taskId : String} (goalId text : String)
    (hfresh : s.entries.lookup (taskKey taskId) = none) :
    StoreAgrees (addTask m moment taskId goalId text s).2 current
      (update statuses taskId .active) := by
  have hbefore : StoreAgrees s current (update statuses taskId .active) := by
    refine ⟨hagrees.managed, hagrees.goal, fun {key entry t} hlookup ht => ?_⟩
    rw [Function.update_of_ne, hagrees.task hlookup ht]
    rintro rfl
    rw [ht.key, hfresh] at hlookup
    cases hlookup
  exact hbefore.restoreTask (by rw [Function.update_self]) m moment

omit [Zero F]

theorem StoreAgrees.updateTask (hagrees : StoreAgrees s current statuses) (moment : Moment F)
    (taskId : String) (status : TaskStatus) :
    StoreAgrees (updateTask moment taskId status s).2 current
      (if s.entries.lookup (taskKey taskId) = none then statuses
        else update statuses taskId status) := by
  cases hlookup : s.entries.lookup (taskKey taskId) with
  | none =>
    rw [ControlPlane.updateTask, retag_of_lookup_eq_none moment _ _ hlookup, if_pos rfl]
    exact hagrees
  | some entry =>
    have hmanaged := managed_updateTask hagrees.managed moment taskId status
    obtain ⟨t, ht, hid⟩ := hagrees.managed.task_of_key hlookup
    obtain ⟨s', heq, hrewritten⟩ := retag_of_lookup moment (withStatus status) (taskOptions status)
      hagrees.managed hlookup ht.expiresAt
    have hnew := taskEntry_retagged moment ht status
    rw [ControlPlane.updateTask, heq] at hmanaged ⊢
    rw [if_neg (Option.some_ne_none entry)]
    refine ⟨hmanaged, fun {key other g} hother hg => ?_, fun {key other t'} hother ht' => ?_⟩
    · rw [hrewritten.others key] at hother
      · exact hagrees.goal hother hg
      · rintro rfl
        exact goalKey_ne_taskKey g.goalId taskId hg.key.symm
    · by_cases hkey : key = taskKey taskId
      · subst hkey
        rw [hrewritten.same] at hother
        obtain rfl := Option.some.inj hother
        rw [ht'.unique hnew, hid, Function.update_self]
      · rw [hrewritten.others key hkey] at hother
        rw [Function.update_of_ne, hagrees.task hother ht']
        rintro rfl
        exact hkey ht'.key

theorem StoreAgrees.setCurrent (hagrees : StoreAgrees s current statuses) (amb : Ambient F)
    (goalId : String) :
    StoreAgrees (setCurrent amb goalId s).2
      (if s.entries.lookup (goalKey goalId) = none then current else some goalId) statuses := by
  have hmanaged := managed_setCurrent hagrees.managed amb goalId
  cases hlookup : s.entries.lookup (goalKey goalId) with
  | none =>
    rw [setCurrent_of_lookup_eq_none amb hlookup, if_pos rfl]
    exact hagrees
  | some entry =>
    obtain ⟨-, hset, hother⟩ := setCurrent_sets hagrees.managed amb hlookup
    rw [if_neg (Option.some_ne_none entry)]
    refine ⟨hmanaged, fun {key other g} hgoal hg => ?_, fun {key other t} htask ht => ?_⟩
    · have hcurrent := hset.only hgoal (by rw [hg.metadata]; rfl)
      rw [hg.metadata, isCurrent_goalMetadata, hg.key, goalKey_inj] at hcurrent
      rw [hcurrent, Option.some.injEq, eq_comm]
    · rw [hother] at htask
      · exact hagrees.task htask ht
      · intro id hkey
        exact goalKey_ne_taskKey id t.taskId (hkey.symm.trans ht.key)

end

/-! ### Runs -/

section

variable [Zero F] {σ σ' : System F} {thread : Nat} {event : Event F} {current : Option String}
  {statuses : String → TaskStatus}

omit [Zero F] in
/-- The records a thread has in hand are pending. -/
theorem pendingGoal_of_phase {phase : Phase} {g : Goal} (hphase : σ.threads thread = phase)
    (hmem : g ∈ phase.goals) : σ.PendingGoal g :=
  ⟨thread, by rwa [hphase]⟩

omit [Zero F] in
theorem pendingTask_of_phase {phase : Phase} {t : Task} (hphase : σ.threads thread = phase)
    (hmem : t ∈ phase.tasks) : σ.PendingTask t :=
  ⟨thread, by rwa [hphase]⟩

/-- Writing a record back keeps the flags and statuses that were set last. -/
theorem Agrees.restore (hagrees : Agrees σ current statuses)
    (hstep : System.Step σ thread event σ') (hrestores : event.restores = true) :
    Agrees σ' current statuses := by
  cases hstep with
  | @restoreGoal g goals tasks status hnext m moment =>
    have hg := hagrees.pendingGoal (pendingGoal_of_phase hnext (List.mem_cons_self (a := g)))
    apply agrees_move (hagrees.store.restoreGoal hg m moment)
    · rintro g' (hpending | hmem)
      · exact hagrees.pendingGoal hpending
      · exact hagrees.pendingGoal (pendingGoal_of_phase hnext (List.mem_cons_of_mem g hmem))
    · rintro t (hpending | hmem)
      · exact hagrees.pendingTask hpending
      · exact hagrees.pendingTask (pendingTask_of_phase hnext hmem)
  | @restoreTask t tasks status hnext m moment =>
    have ht := hagrees.pendingTask (pendingTask_of_phase hnext (List.mem_cons_self (a := t)))
    apply agrees_move (hagrees.store.restoreTask ht m moment)
    · rintro g (hpending | hmem)
      · exact hagrees.pendingGoal hpending
      · exact absurd hmem List.not_mem_nil
    · rintro t' (hpending | hmem)
      · exact hagrees.pendingTask hpending
      · exact hagrees.pendingTask (pendingTask_of_phase hnext (List.mem_cons_of_mem t hmem))
  | restoreStatus hnext m moment =>
    apply agrees_move (hagrees.store.storesForeign foreign_status _ _ _ _)
    · rintro g (hpending | hmem)
      · exact hagrees.pendingGoal hpending
      · exact absurd hmem List.not_mem_nil
    · rintro t (hpending | hmem)
      · exact hagrees.pendingTask hpending
      · exact absurd hmem List.not_mem_nil
  | setGoal | setCurrent | addTask | updateTask | setStatus | save | snapshot | reencoded
  | otherStore => cases hrestores

omit [Zero F] in
/-- A phase in which nothing is left to write back. -/
theorem Agrees.move_quiet {s : MemoryStore F} {phase : Phase} (hagrees : Agrees σ current statuses)
    (hstore : StoreAgrees s current statuses) (hgoals : phase.goals = [])
    (htasks : phase.tasks = []) : Agrees (σ.move s thread phase) current statuses := by
  apply agrees_move hstore
  · rintro g (hpending | hmem)
    · exact hagrees.pendingGoal hpending
    · rw [hgoals] at hmem
      exact absurd hmem List.not_mem_nil
  · rintro t (hpending | hmem)
    · exact hagrees.pendingTask hpending
    · rw [htasks] at hmem
      exact absurd hmem List.not_mem_nil

theorem goals_answered (b : Bool) : (if b then Phase.saving else Phase.idle).goals = [] := by
  cases b <;> rfl

theorem tasks_answered (b : Bool) : (if b then Phase.saving else Phase.idle).tasks = [] := by
  cases b <;> rfl

/-- What a step of an undisturbed run keeps: flags and statuses agree, perhaps as newly set. -/
theorem Agrees.step (hagrees : Agrees σ current statuses) (hstep : System.Step σ thread event σ')
    (hundisturbed : System.Undisturbed σ event) :
    ∃ current' statuses', Agrees σ' current' statuses' := by
  cases hstep with
  | @setGoal hidle m amb goalId text hfresh =>
    refine ⟨some goalId, statuses, agrees_move (hagrees.store.setGoal m amb text hfresh.1) ?_ ?_⟩
    · rintro g (hpending | hmem)
      · rw [hundisturbed g hpending]
        apply iff_of_false Bool.false_ne_true
        intro hsame
        exact hfresh.2 g hpending (Option.some.inj hsame).symm
      · exact absurd hmem List.not_mem_nil
    · rintro t (hpending | hmem)
      · exact hagrees.pendingTask hpending
      · exact absurd hmem List.not_mem_nil
  | setCurrent hidle amb goalId =>
    refine ⟨_, statuses, agrees_move (hagrees.store.setCurrent amb goalId) ?_ ?_⟩
    · intro g hg
      rw [goals_answered] at hg
      have hpending := hg.resolve_right List.not_mem_nil
      by_cases hlookup : σ.store.entries.lookup (goalKey goalId) = none
      · rw [if_pos hlookup]
        exact hagrees.pendingGoal hpending
      · rw [if_neg hlookup, hundisturbed hlookup g hpending, Option.some.injEq, eq_comm]
    · intro t ht
      rw [tasks_answered] at ht
      exact hagrees.pendingTask (ht.resolve_right List.not_mem_nil)
  | @addTask hidle m moment taskId goalId text hfresh =>
    refine ⟨current, _,
      agrees_move (hagrees.store.addTask m moment goalId text hfresh.1) ?_ ?_⟩
    · rintro g (hpending | hmem)
      · exact hagrees.pendingGoal hpending
      · exact absurd hmem List.not_mem_nil
    · rintro t (hpending | hmem)
      · rw [Function.update_of_ne (hfresh.2 t hpending)]
        exact hagrees.pendingTask hpending
      · exact absurd hmem List.not_mem_nil
  | updateTask hidle moment taskId status =>
    refine ⟨current, _, agrees_move (hagrees.store.updateTask moment taskId status) ?_ ?_⟩
    · intro g hg
      rw [goals_answered] at hg
      exact hagrees.pendingGoal (hg.resolve_right List.not_mem_nil)
    · intro t ht
      rw [tasks_answered] at ht
      have hpending := ht.resolve_right List.not_mem_nil
      by_cases hlookup : σ.store.entries.lookup (taskKey taskId) = none
      · rw [if_pos hlookup]
        exact hagrees.pendingTask hpending
      · rw [if_neg hlookup]
        by_cases htask : t.taskId = taskId
        · rw [htask, Function.update_self]
          exact hundisturbed hlookup t hpending htask
        · rw [Function.update_of_ne htask]
          exact hagrees.pendingTask hpending
  | setStatus hidle m amb text =>
    exact ⟨current, statuses,
      hagrees.move_quiet (hagrees.store.storesForeign foreign_status _ _ _ _) rfl rfl⟩
  | save hsaving => exact ⟨current, statuses, hagrees.move_quiet hagrees.store rfl rfl⟩
  | snapshot hidle goals tasks status =>
    obtain ⟨hgoals, htasks⟩ := snapshot_agrees hagrees.store goals tasks status
    refine ⟨current, statuses, agrees_move hagrees.store ?_ ?_⟩
    · rintro g (hpending | hmem)
      · exact hagrees.pendingGoal hpending
      · exact hgoals g hmem
    · rintro t (hpending | hmem)
      · exact hagrees.pendingTask hpending
      · exact htasks t hmem
  | restoreGoal hnext m moment =>
    exact ⟨current, statuses, hagrees.restore (.restoreGoal hnext m moment) rfl⟩
  | restoreTask hnext m moment =>
    exact ⟨current, statuses, hagrees.restore (.restoreTask hnext m moment) rfl⟩
  | restoreStatus hnext m moment =>
    exact ⟨current, statuses, hagrees.restore (.restoreStatus hnext m moment) rfl⟩
  | reencoded hdone => exact ⟨current, statuses, hagrees.move_quiet hagrees.store rfl rfl⟩
  | otherStore hidle order now vector options hforeign =>
    exact ⟨current, statuses,
      hagrees.move_quiet (hagrees.store.storesForeign hforeign order now vector options) rfl rfl⟩

theorem Reached.agrees (hreached : System.Reached System.Undisturbed σ) :
    ∃ current statuses, Agrees σ current statuses := by
  induction hreached with
  | start maxEntries byteBudget categoryBudgets =>
    refine ⟨none, fun _ => .active, ⟨managed_withBudget maxEntries byteBudget categoryBudgets,
      fun hlookup => ?_, fun hlookup => ?_⟩, ?_, ?_⟩
    · cases hlookup
    · cases hlookup
    · rintro g ⟨thread, hmem⟩
      exact absurd hmem List.not_mem_nil
    · rintro t ⟨thread, hmem⟩
      exact absurd hmem List.not_mem_nil
  | step _ hstep hadmissible ih =>
    obtain ⟨current, statuses, hagrees⟩ := ih
    exact hagrees.step hstep hadmissible

/-- In every run in which no call disagrees with a record still to be written back, at most one
goal is current, and writing a record back changes no flag and no status. -/
theorem undisturbed_keeps_current (hreached : System.Reached System.Undisturbed σ) :
    AtMostOneCurrent σ.store ∧ ∀ {thread : Nat} {event : Event F} {σ' : System F},
      event.restores = true → System.Step σ thread event σ' → SameFlags σ.store σ'.store := by
  obtain ⟨current, statuses, hagrees⟩ := Reached.agrees hreached
  refine ⟨hagrees.store.atMostOneCurrent, fun {thread event σ'} hrestores hstep => ?_⟩
  exact hagrees.store.sameFlags (hagrees.restore hstep hrestores).store

end

/-! ### A disturbed run -/

/-- No thread is in a call and the store is empty. -/
def quiet : System ℚ where
  store := withBudget 8 64 fun _ => none
  threads := fun _ => .idle

def goalStored : System ℚ :=
  quiet.move (setGoal unencoded undisturbed "first" "find" quiet.store).2 0 .saving

/-- A second thread has begun to reencode. -/
def snapshotTaken : System ℚ :=
  goalStored.move goalStored.store 1
    (.reencoding (snapshotForSave undisturbed.query undisturbed.query undisturbed.query
      goalStored.store))

/-- A third thread has set another goal. -/
def overtaken : System ℚ :=
  snapshotTaken.move (setGoal unencoded undisturbed "second" "fix" snapshotTaken.store).2 2 .saving

def firstGoal : Goal where
  goalId := "first"
  text := "find"
  isCurrent := true

/-- The second thread has written its record of the first goal back. -/
def reverted : System ℚ :=
  overtaken.move (restoreGoal unencoded atOnce firstGoal overtaken.store) 1
    (.reencoding { goals := [], tasks := [], status := none })

theorem snapshot_goalStored :
    snapshotForSave undisturbed.query undisturbed.query undisturbed.query goalStored.store =
      { goals := [firstGoal], tasks := [], status := none } := by
  decide +kernel

theorem snapshotTaken_phase : snapshotTaken.threads 1 =
    .reencoding { goals := [firstGoal], tasks := [], status := none } := by
  rw [snapshotTaken, System.threads_move_self, snapshot_goalStored]

theorem not_pendingGoal_goalStored (g : Goal) : ¬goalStored.PendingGoal g := by
  intro hpending
  rcases pendingGoal_move hpending with hmem | ⟨thread, hmem⟩
  · exact List.not_mem_nil hmem
  · exact List.not_mem_nil hmem

theorem pendingGoal_snapshotTaken {g : Goal} (hpending : snapshotTaken.PendingGoal g) :
    g = firstGoal := by
  rcases pendingGoal_move hpending with hmem | hbefore
  · rw [snapshot_goalStored] at hmem
    exact List.mem_singleton.mp hmem
  · exact absurd hbefore (not_pendingGoal_goalStored g)

/-- Up to the snapshot the run is undisturbed. -/
theorem reached_snapshotTaken {Admissible : System ℚ → Event ℚ → Prop}
    (hadmissible : ∀ σ event, System.Undisturbed σ event → Admissible σ event) :
    System.Reached Admissible snapshotTaken := by
  have hquiet : ∀ g, ¬quiet.PendingGoal g := by
    rintro g ⟨thread, hmem⟩
    exact List.not_mem_nil hmem
  have hset : System.Step quiet 0 (.setGoal unencoded undisturbed "first" "find") goalStored :=
    .setGoal rfl unencoded undisturbed "find" ⟨rfl, fun g hpending => absurd hpending (hquiet g)⟩
  have hsnapshot : System.Step goalStored 1
      (.snapshot undisturbed.query undisturbed.query undisturbed.query) snapshotTaken :=
    .snapshot rfl _ _ _
  refine .step (.step (.start 8 64 fun _ => none) hset ?_) hsnapshot ?_
  · exact hadmissible quiet _ fun g hpending => absurd hpending (hquiet g)
  · exact hadmissible goalStored _ trivial

theorem undisturbed_keeps_current_snapshot :
    AtMostOneCurrent snapshotTaken.store ∧ ∀ {thread : Nat} {event : Event ℚ} {σ' : System ℚ},
      event.restores = true → System.Step snapshotTaken thread event σ' →
        SameFlags snapshotTaken.store σ'.store :=
  undisturbed_keeps_current (reached_snapshotTaken fun _ _ hundisturbed => hundisturbed)

/-- Over all runs, a record written back can leave two goals current. -/
theorem reencode_reverts_current :
    ¬∀ {σ : System ℚ}, System.Reached (fun _ _ => True) σ →
      AtMostOneCurrent σ.store ∧ ∀ {thread : Nat} {event : Event ℚ} {σ' : System ℚ},
        event.restores = true → System.Step σ thread event σ' → SameFlags σ.store σ'.store := by
  intro hall
  have hovertake : System.Step snapshotTaken 2 (.setGoal unencoded undisturbed "second" "fix")
      overtaken := by
    refine .setGoal ?_ unencoded undisturbed "fix" ⟨?_, fun g hpending => ?_⟩
    · rfl
    · exact Option.isNone_iff_eq_none.mp (by decide +kernel)
    · rw [pendingGoal_snapshotTaken hpending]
      decide +kernel
  have hphase : overtaken.threads 1 =
      .reencoding { goals := [firstGoal], tasks := [], status := none } := by
    rw [overtaken, System.threads_move_of_ne _ _ _ (by decide), snapshotTaken_phase]
  have hrevert : System.Step overtaken 1 (.restoreGoal unencoded atOnce) reverted :=
    .restoreGoal hphase unencoded atOnce
  have hreached : System.Reached (fun _ _ => True) reverted :=
    .step (.step (reached_snapshotTaken fun _ _ _ => trivial) hovertake trivial) hrevert trivial
  have hcurrent : ∀ id, (reverted.store.entries.lookup (goalKey id)).any
      (fun entry => decide (entry.metadata.category = .goal) && isCurrent entry.metadata) = true →
      ∃ entry, reverted.store.entries.lookup (goalKey id) = some entry ∧
        entry.metadata.category = .goal ∧ isCurrent entry.metadata = true := by
    intro id hany
    obtain ⟨entry, hlookup, hboth⟩ := Option.any_eq_true _ _ |>.mp hany
    obtain ⟨hcategory, hflag⟩ := Bool.and_eq_true _ _ ▸ hboth
    exact ⟨entry, hlookup, of_decide_eq_true hcategory, hflag⟩
  obtain ⟨entry, hlookup, hcategory, hflag⟩ := hcurrent "first" (by decide +kernel)
  obtain ⟨entry', hlookup', hcategory', hflag'⟩ := hcurrent "second" (by decide +kernel)
  have hsame := (hall hreached).1 hlookup hlookup' hcategory hcategory' hflag hflag'
  exact absurd hsame (by decide +kernel)

end Zllm.ControlPlane

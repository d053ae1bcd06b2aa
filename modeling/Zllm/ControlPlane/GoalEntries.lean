import Zllm.ControlPlane.GoalManager
import Zllm.Engine.StoreRoom

/-!
# Goals and tasks in the store

Whatever the manager and the other users of the store do, a goal's entry is the record of a goal
under that goal's key, pinned and without expiry; a task's is the record of a task, pinned unless
the task is done. Rewriting the tags of such an entry changes that record and nothing else.
-/

namespace Zllm.ControlPlane

open Engine Engine.MemoryStore Ledger

variable {F : Type}

/-! ### Keys and tags -/

theorem goalKey_inj {a b : String} : goalKey a = goalKey b ↔ a = b := by
  simp [goalKey]

theorem taskKey_inj {a b : String} : taskKey a = taskKey b ↔ a = b := by
  simp [taskKey]

theorem append_ne {first second : String} {c d : Char} {cs ds : List Char}
    (hfirst : first.toList = c :: cs) (hsecond : second.toList = d :: ds) (hne : c ≠ d)
    (rest rest' : String) : first ++ rest ≠ second ++ rest' := by
  intro heq
  have hlist := congrArg String.toList heq
  rw [String.toList_append, String.toList_append, hfirst, hsecond, List.cons_append,
    List.cons_append] at hlist
  exact hne (List.cons.inj hlist).1

theorem goalKey_ne_taskKey (a b : String) : goalKey a ≠ taskKey b :=
  append_ne rfl rfl (by decide) a b

theorem statusKey_ne_goalKey (a : String) : statusKey ≠ goalKey a := by
  intro heq
  have hlist := congrArg String.toList heq
  simp [statusKey, goalKey] at hlist

theorem statusKey_ne_taskKey (a : String) : statusKey ≠ taskKey a := by
  intro heq
  have hlist := congrArg String.toList heq
  simp [statusKey, taskKey] at hlist

theorem stripStart_append (start rest : String) : stripStart start (start ++ rest) = some rest := by
  rw [stripStart, String.toList_append, List.dropPrefix?_append_of_beq _ (beq_self_eq_true _),
    Option.map_some, String.ofList_toList]

theorem stripStart_task_goal (rest : String) : stripStart "task:" ("goal:" ++ rest) = none := by
  simp [stripStart, List.dropPrefix?]

theorem fromTag_tag (status : TaskStatus) : TaskStatus.fromTag status.tag = some status := by
  cases status <;> rfl

theorem fromTag_eq_none {tag : String} (hne : ∀ status : TaskStatus, tag ≠ status.tag) :
    TaskStatus.fromTag tag = none := by
  have hactive : tag ≠ "active" := hne .active
  have hdone : tag ≠ "done" := hne .done
  have hblocked : tag ≠ "blocked" := hne .blocked
  rw [TaskStatus.fromTag, if_neg hactive, if_neg hdone, if_neg hblocked]

theorem fromTag_goal (rest : String) : TaskStatus.fromTag ("goal:" ++ rest) = none := by
  apply fromTag_eq_none
  intro status heq
  have hlist := congrArg String.toList heq
  cases status <;> simp [TaskStatus.tag] at hlist

theorem fromTag_task (rest : String) : TaskStatus.fromTag ("task:" ++ rest) = none := by
  apply fromTag_eq_none
  intro status heq
  have hlist := congrArg String.toList heq
  cases status <;> simp [TaskStatus.tag] at hlist

theorem goalTag_ne_current (rest : String) : "goal:" ++ rest ≠ tagCurrent := by
  intro heq
  have hlist := congrArg String.toList heq
  simp [tagCurrent] at hlist

theorem isCurrent_goalMetadata (g : Goal) : isCurrent (goalMetadata g) = g.isCurrent := by
  cases hcurrent : g.isCurrent <;>
    simp [isCurrent, goalMetadata, hcurrent, goalTag_ne_current]

theorem taskStatus_taskMetadata (t : Task) : taskStatus (taskMetadata t) = t.status := by
  simp [taskStatus, taskMetadata, fromTag_goal, fromTag_task, fromTag_tag]

theorem toGoal_goalMetadata (g : Goal) : toGoal (goalMetadata g) = g := by
  have hid : extractId (goalMetadata g).tags "goal:" = some g.goalId := by
    rw [extractId, goalMetadata, List.findSome?_cons, stripStart_append]
  rw [toGoal, hid, isCurrent_goalMetadata]
  rfl

theorem toTask_taskMetadata (t : Task) : toTask (taskMetadata t) = t := by
  have hgoal : extractId (taskMetadata t).tags "goal:" = some t.goalId := by
    rw [extractId, taskMetadata, List.findSome?_cons, stripStart_append]
  have htask : extractId (taskMetadata t).tags "task:" = some t.taskId := by
    rw [extractId, taskMetadata, List.findSome?_cons, stripStart_task_goal, List.findSome?_cons,
      stripStart_append]
  rw [toTask, hgoal, htask, taskStatus_taskMetadata]
  rfl

theorem dropCurrent_goalMetadata (g : Goal) :
    { goalMetadata g with tags := dropCurrent (goalMetadata g).tags } =
      goalMetadata { g with isCurrent := false } := by
  cases hcurrent : g.isCurrent <;>
    simp [dropCurrent, goalMetadata, hcurrent, goalTag_ne_current]

theorem addCurrent_goalMetadata (g : Goal) :
    { goalMetadata g with tags := addCurrent (goalMetadata g).tags } =
      goalMetadata { g with isCurrent := true } := by
  cases hcurrent : g.isCurrent <;>
    simp [addCurrent, goalMetadata, hcurrent, goalTag_ne_current]

theorem withStatus_taskMetadata (status : TaskStatus) (t : Task) :
    { taskMetadata t with tags := withStatus status (taskMetadata t).tags } =
      taskMetadata { t with status := status } := by
  simp [withStatus, taskMetadata, fromTag_goal, fromTag_task, fromTag_tag]

/-! ### Well-kept stores -/

/-- The entry of a goal. -/
structure GoalEntry (key : String) (entry : MemoryEntry F) (g : Goal) : Prop where
  key : key = goalKey g.goalId
  metadata : entry.metadata = goalMetadata g
  pinned : entry.pinned = true
  expiresAt : entry.expiresAt = none

/-- The entry of a task. -/
structure TaskEntry (key : String) (entry : MemoryEntry F) (t : Task) : Prop where
  key : key = taskKey t.taskId
  metadata : entry.metadata = taskMetadata t
  pinned : t.status ≠ .done → entry.pinned = true
  expiresAt : entry.expiresAt = none

theorem GoalEntry.unique {key : String} {entry : MemoryEntry F} {g g' : Goal}
    (hg : GoalEntry key entry g) (hg' : GoalEntry key entry g') : g = g' := by
  rw [← toGoal_goalMetadata g, ← hg.metadata, hg'.metadata, toGoal_goalMetadata]

theorem TaskEntry.unique {key : String} {entry : MemoryEntry F} {t t' : Task}
    (ht : TaskEntry key entry t) (ht' : TaskEntry key entry t') : t = t' := by
  rw [← toTask_taskMetadata t, ← ht.metadata, ht'.metadata, toTask_taskMetadata]

/-- Neither the key nor the category is one of goals or tasks. -/
structure Foreign (key : String) (category : MemoryCategory) : Prop where
  not_goal : category ≠ .goal
  not_task : category ≠ .task
  ne_goalKey : ∀ id, key ≠ goalKey id
  ne_taskKey : ∀ id, key ≠ taskKey id

def EntryOk (key : String) (entry : MemoryEntry F) : Prop :=
  (∃ g, GoalEntry key entry g) ∨ (∃ t, TaskEntry key entry t) ∨ Foreign key entry.metadata.category

/-- The store's accounting is exact, and its goals and tasks are records. -/
structure Managed (s : MemoryStore F) : Prop where
  accounted : Accounted s
  sound : Sound s
  entryOk : ∀ {key entry}, s.entries.lookup key = some entry → EntryOk key entry

theorem managed_withBudget (maxEntries byteBudget : Nat)
    (categoryBudgets : MemoryCategory → Option Nat) :
    Managed (withBudget maxEntries byteBudget categoryBudgets : MemoryStore F) where
  accounted := accounted_withBudget maxEntries byteBudget categoryBudgets
  sound := {
    key := fun hlookup => by cases hlookup
    byteSize := fun hlookup => by cases hlookup
  }
  entryOk hlookup := by cases hlookup

section

variable {s s' : MemoryStore F} {key : String} {entry : MemoryEntry F}

theorem Managed.stores (order : EntryOrder F) {now : Nat} {vector : List F}
    {metadata : MemoryMetadata} {options : StoreOptions} (hs : Managed s)
    (hok : EntryOk key (newEntry now key vector metadata options)) :
    Managed (s.storeWithOptions order now key vector metadata options).2 := by
  obtain ⟨answer, s', heq, hstores⟩ :=
    storeWithOptions_stores order now s key vector metadata options
  rw [heq]
  refine ⟨hstores.accounted hs.accounted, ⟨fun hlookup => ?_, fun hlookup => ?_⟩, fun hlookup => ?_⟩
  · rcases hstores.lookup hlookup with hbefore | ⟨rfl, rfl⟩
    · exact hs.sound.key hbefore
    · rfl
  · rcases hstores.lookup hlookup with hbefore | ⟨rfl, rfl⟩
    · exact hs.sound.byteSize hbefore
    · rfl
  · rcases hstores.lookup hlookup with hbefore | ⟨rfl, rfl⟩
    · exact hs.entryOk hbefore
    · exact hok

theorem EntryOk.accessed (hok : EntryOk key entry) : EntryOk key entry.accessed := by
  rcases hok with ⟨g, hg⟩ | ⟨t, ht⟩ | hforeign
  · exact .inl ⟨g, hg.key, hg.metadata, hg.pinned, hg.expiresAt⟩
  · exact .inr (.inl ⟨t, ht.key, ht.metadata, ht.pinned, ht.expiresAt⟩)
  · exact .inr (.inr hforeign)

/-- Storing an entry again only counts the access. -/
theorem Managed.access (hs : Managed s) (hlookup : s.entries.lookup key = some entry) :
    Managed { s with entries := s.entries.insert key entry.accessed } := by
  have hget : Accounted { s with entries := s.entries.insert key entry.accessed } :=
    hs.accounted.access hlookup
  refine ⟨hget, ⟨fun hother => ?_, fun hother => ?_⟩, fun hother => ?_⟩
  · rcases lookup_insert_eq_some.mp hother with ⟨rfl, rfl⟩ | ⟨-, hbefore⟩
    · show entry.key = _
      exact hs.sound.key hlookup
    · exact hs.sound.key hbefore
  · rcases lookup_insert_eq_some.mp hother with ⟨rfl, rfl⟩ | ⟨-, hbefore⟩
    · show entry.byteSize = entry.vector.length * sizeOfF32
      exact hs.sound.byteSize hlookup
    · exact hs.sound.byteSize hbefore
  · rcases lookup_insert_eq_some.mp hother with ⟨rfl, rfl⟩ | ⟨-, hbefore⟩
    · exact (hs.entryOk hlookup).accessed
    · exact hs.entryOk hbefore

theorem Managed.get (hs : Managed s) (now : Nat) (key : String) : Managed (s.get now key).2 := by
  rcases get_snd now s key with heq | ⟨entry, hlookup, heq⟩
  · rwa [heq]
  · rw [heq]
    exact hs.access hlookup

theorem Managed.removeInternal (hs : Managed s) (key : String) :
    Managed (s.removeInternal key).2 := by
  have hbefore : ∀ {other entry},
      (s.removeInternal key).2.entries.lookup other = some entry →
        s.entries.lookup other = some entry := by
    intro other entry hlookup
    rw [removeInternal_entries] at hlookup
    exact (lookup_erase_eq_some.mp hlookup).2
  exact ⟨hs.accounted.removeInternal key,
    ⟨fun hlookup => hs.sound.key (hbefore hlookup),
      fun hlookup => hs.sound.byteSize (hbefore hlookup)⟩,
    fun hlookup => hs.entryOk (hbefore hlookup)⟩

/-- An entry in the goals' category is a goal's. -/
theorem Managed.goal_of_category (hs : Managed s) (hlookup : s.entries.lookup key = some entry)
    (hcategory : entry.metadata.category = .goal) : ∃ g, GoalEntry key entry g := by
  rcases hs.entryOk hlookup with hgoal | ⟨t, ht⟩ | hforeign
  · exact hgoal
  · rw [ht.metadata] at hcategory
    cases hcategory
  · exact absurd hcategory hforeign.not_goal

theorem Managed.task_of_category (hs : Managed s) (hlookup : s.entries.lookup key = some entry)
    (hcategory : entry.metadata.category = .task) : ∃ t, TaskEntry key entry t := by
  rcases hs.entryOk hlookup with ⟨g, hg⟩ | htask | hforeign
  · rw [hg.metadata] at hcategory
    cases hcategory
  · exact htask
  · exact absurd hcategory hforeign.not_task

/-- An entry under a goal's key is that goal's. -/
theorem Managed.goal_of_key (hs : Managed s) {id : String}
    (hlookup : s.entries.lookup (goalKey id) = some entry) :
    ∃ g, GoalEntry (goalKey id) entry g ∧ g.goalId = id := by
  rcases hs.entryOk hlookup with ⟨g, hg⟩ | ⟨t, ht⟩ | hforeign
  · exact ⟨g, hg, (goalKey_inj.mp hg.key).symm⟩
  · exact absurd ht.key (goalKey_ne_taskKey id t.taskId)
  · exact absurd rfl (hforeign.ne_goalKey id)

theorem Managed.task_of_key (hs : Managed s) {id : String}
    (hlookup : s.entries.lookup (taskKey id) = some entry) :
    ∃ t, TaskEntry (taskKey id) entry t ∧ t.taskId = id := by
  rcases hs.entryOk hlookup with ⟨g, hg⟩ | ⟨t, ht⟩ | hforeign
  · exact absurd hg.key.symm (goalKey_ne_taskKey g.goalId id)
  · exact ⟨t, ht, (taskKey_inj.mp ht.key).symm⟩
  · exact absurd rfl (hforeign.ne_taskKey id)

theorem isExpired_of_none (hexpires : entry.expiresAt = none) (now : Nat) :
    entry.isExpired now = false := by
  rw [MemoryEntry.isExpired, hexpires]

end

/-! ### New entries -/

theorem entryOk_goal (now : Nat) (vector : List F) (g : Goal) :
    EntryOk (goalKey g.goalId)
      (newEntry now (goalKey g.goalId) vector (goalMetadata g) pinnedNoTtl) :=
  .inl ⟨g, rfl, rfl, rfl, rfl⟩

theorem taskOptions_pinned {status : TaskStatus} (hstatus : status ≠ .done) :
    taskOptions status = pinnedNoTtl := by
  cases status with
  | active => rfl
  | done => exact absurd rfl hstatus
  | blocked => rfl

theorem taskOptions_ttl (status : TaskStatus) : (taskOptions status).ttlSeconds = none := by
  cases status <;> rfl

theorem taskEntry_new (now : Nat) (vector : List F) (t : Task) :
    TaskEntry (taskKey t.taskId)
      (newEntry now (taskKey t.taskId) vector (taskMetadata t) (taskOptions t.status)) t where
  key := rfl
  metadata := rfl
  pinned hstatus := by
    rw [taskOptions_pinned hstatus]
    rfl
  expiresAt := by
    rw [newEntry, taskOptions_ttl]
    rfl

theorem entryOk_foreign {key : String} {metadata : MemoryMetadata}
    (hforeign : Foreign key metadata.category) (now : Nat) (vector : List F)
    (options : StoreOptions) : EntryOk key (newEntry now key vector metadata options) :=
  .inr (.inr hforeign)

theorem foreign_status : Foreign statusKey .status where
  not_goal := by decide
  not_task := by decide
  ne_goalKey := statusKey_ne_goalKey
  ne_taskKey := statusKey_ne_taskKey

end Zllm.ControlPlane

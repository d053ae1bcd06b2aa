import Zllm.ControlPlane.GoalEffects

/-!
# Goals and tasks as records

A snapshot lists a record for each goal and task of the store; writing the records back, into the
same store or another, is what restoring from disk and re-encoding share.
-/

namespace Zllm.ControlPlane

open Engine Engine.MemoryStore Ledger

variable {F : Type}

/-! ### Snapshots -/

/-- What the three queries of a snapshot find. -/
structure SnapshotSight where
  goals : Sight
  tasks : Sight
  status : Sight

def SnapshotSight.snapshot (sight : SnapshotSight) (s : MemoryStore F) : PersistedState :=
  snapshotForSave sight.goals sight.tasks sight.status s

def sightAtOnce : SnapshotSight where
  goals := undisturbed.query
  tasks := undisturbed.query
  status := undisturbed.query

section

variable {s : MemoryStore F} {sight : SnapshotSight}

theorem mem_snapshot_goals (sight : SnapshotSight) {g : Goal} (hs : Managed s) :
    g ∈ (sight.snapshot s).goals ↔
      ∃ key entry, s.entries.lookup key = some entry ∧ GoalEntry key entry g := by
  simp only [SnapshotSight.snapshot, snapshotForSave, List.mem_map,
    mem_queryByCategory hs.accounted]
  constructor
  · rintro ⟨entry, ⟨key, hlookup, hcategory, -⟩, rfl⟩
    obtain ⟨g, hg⟩ := hs.goal_of_category hlookup hcategory
    rw [hg.metadata, toGoal_goalMetadata]
    exact ⟨key, entry, hlookup, hg⟩
  · rintro ⟨key, entry, hlookup, hg⟩
    refine ⟨entry, ⟨key, hlookup, ?_, isExpired_of_none hg.expiresAt _⟩, ?_⟩
    · rw [hg.metadata]
      rfl
    · rw [hg.metadata, toGoal_goalMetadata]

theorem mem_snapshot_tasks (sight : SnapshotSight) {t : Task} (hs : Managed s) :
    t ∈ (sight.snapshot s).tasks ↔
      ∃ key entry, s.entries.lookup key = some entry ∧ TaskEntry key entry t := by
  simp only [SnapshotSight.snapshot, snapshotForSave, List.mem_map,
    mem_queryByCategory hs.accounted]
  constructor
  · rintro ⟨entry, ⟨key, hlookup, hcategory, -⟩, rfl⟩
    obtain ⟨t, ht⟩ := hs.task_of_category hlookup hcategory
    rw [ht.metadata, toTask_taskMetadata]
    exact ⟨key, entry, hlookup, ht⟩
  · rintro ⟨key, entry, hlookup, ht⟩
    refine ⟨entry, ⟨key, hlookup, ?_, isExpired_of_none ht.expiresAt _⟩, ?_⟩
    · rw [ht.metadata]
      rfl
    · rw [ht.metadata, toTask_taskMetadata]

/-- A query answers at most one entry for each key. -/
theorem nodup_queryByCategory (hs : Managed s) (sight : Sight) (category : MemoryCategory) :
    ((s.queryByCategory sight.keys sight.now category).map MemoryEntry.key).Nodup := by
  unfold queryByCategory query
  cases s.byCategory category with
  | none => exact List.nodup_nil
  | some keys =>
    have hnodup : (sight.keys.arrange keys.keys).Nodup :=
      (sight.keys.perm keys.keys).nodup_iff.mpr keys.nodup
    apply List.Nodup.sublist _ hnodup
    refine (List.filter_sublist.map MemoryEntry.key).trans ?_
    generalize sight.keys.arrange keys.keys = order
    induction order with
    | nil => exact .refl _
    | cons key order ih =>
      rw [List.filterMap_cons]
      cases hlookup : s.entries.lookup key with
      | none => exact ih.cons key
      | some entry =>
        rw [List.map_cons, hs.sound.key hlookup]
        exact ih.cons_cons key

theorem snapshot_goalKeys (hs : Managed s) :
    (sight.snapshot s).goals.map (fun g => goalKey g.goalId) =
      (s.queryByCategory sight.goals.keys sight.goals.now .goal).map MemoryEntry.key := by
  rw [SnapshotSight.snapshot, snapshotForSave, List.map_map]
  apply List.map_congr_left
  intro entry hmem
  obtain ⟨key, hlookup, hcategory, -⟩ := (mem_queryByCategory hs.accounted).mp hmem
  obtain ⟨g, hg⟩ := hs.goal_of_category hlookup hcategory
  rw [hs.sound.key hlookup, hg.key, Function.comp_apply, hg.metadata, toGoal_goalMetadata]

theorem snapshot_taskKeys (hs : Managed s) :
    (sight.snapshot s).tasks.map (fun t => taskKey t.taskId) =
      (s.queryByCategory sight.tasks.keys sight.tasks.now .task).map MemoryEntry.key := by
  rw [SnapshotSight.snapshot, snapshotForSave, List.map_map]
  apply List.map_congr_left
  intro entry hmem
  obtain ⟨key, hlookup, hcategory, -⟩ := (mem_queryByCategory hs.accounted).mp hmem
  obtain ⟨t, ht⟩ := hs.task_of_category hlookup hcategory
  rw [hs.sound.key hlookup, ht.key, Function.comp_apply, ht.metadata, toTask_taskMetadata]

end

/-! ### Writing records -/

/-- What `restore_goal`, `restore_task` and `restore_status` store, but for the vector, which
encodes the text summary. -/
structure Record where
  key : String
  metadata : MemoryMetadata
  options : StoreOptions

def goalRecord (g : Goal) : Record := ⟨goalKey g.goalId, goalMetadata g, pinnedNoTtl⟩

def taskRecord (t : Task) : Record := ⟨taskKey t.taskId, taskMetadata t, taskOptions t.status⟩

def statusRecord (st : StatusEntry) : Record :=
  ⟨statusKey, statusMetadata st, { pinned := false, ttlSeconds := some statusTtlSeconds }⟩

def records (state : PersistedState) : List Record :=
  state.goals.map goalRecord ++ state.tasks.map taskRecord ++ state.status.toList.map statusRecord

/-- The record of a goal or a task. -/
def Record.durable (r : Record) : Bool := r.options.ttlSeconds.isNone

section Write

variable [Zero F] (m : GoalManager F) (each : String → Moment F)

def Record.vector (r : Record) : List F := m.encode r.metadata.textSummary

def Record.entry (r : Record) : MemoryEntry F :=
  newEntry (each r.key).stored r.key (r.vector m) r.metadata r.options

def Record.write (s : MemoryStore F) (r : Record) : MemoryStore F :=
  (s.storeWithOptions (each r.key).order (each r.key).stored r.key (r.vector m) r.metadata
    r.options).2

/-- The loops of `load_from_disk` and `reencode_all`. -/
def restoreAll (state : PersistedState) (s : MemoryStore F) : MemoryStore F :=
  let s := state.goals.foldl (fun s g => restoreGoal m (each (goalKey g.goalId)) g s) s
  let s := state.tasks.foldl (fun s t => restoreTask m (each (taskKey t.taskId)) t s) s
  match state.status with
  | some st => restoreStatus m (each statusKey) st s
  | none => s

theorem restoreAll_eq (state : PersistedState) (s : MemoryStore F) :
    restoreAll m each state s = (records state).foldl (Record.write m each) s := by
  rw [records, List.foldl_append, List.foldl_append, List.foldl_map, List.foldl_map,
    List.foldl_map]
  cases hstatus : state.status with
  | none =>
    rw [restoreAll, hstatus]
    rfl
  | some st =>
    rw [restoreAll, hstatus]
    rfl

end Write

/-! ### The pins of tasks -/

/-- A task is pinned just when it is not done. -/
structure TaskPins (s : MemoryStore F) : Prop where
  pinned : ∀ {key entry t}, s.entries.lookup key = some entry → TaskEntry key entry t →
    entry.pinned = (taskOptions t.status).pinned

section

variable {s s' : MemoryStore F}

theorem TaskEntry.not_goalKey {key : String} {entry : MemoryEntry F} {t : Task}
    (ht : TaskEntry key entry t) (id : String) : key ≠ goalKey id := by
  rw [ht.key]
  exact (goalKey_ne_taskKey id t.taskId).symm

theorem TaskPins.stores (hpins : TaskPins s) (order : EntryOrder F) (now : Nat) {key : String}
    (vector : List F) {metadata : MemoryMetadata} {options : StoreOptions}
    (hnew : ∀ {t}, TaskEntry key (newEntry now key vector metadata options) t →
      options.pinned = (taskOptions t.status).pinned) :
    TaskPins (s.storeWithOptions order now key vector metadata options).2 := by
  refine ⟨fun hlookup ht => ?_⟩
  rcases lookup_storeWithOptions hlookup with hbefore | ⟨rfl, rfl⟩
  · exact hpins.pinned hbefore ht
  · exact hnew ht

theorem TaskPins.of_lookup (hpins : TaskPins s)
    (hsame : ∀ {key}, (∀ id, key ≠ goalKey id) →
      s'.entries.lookup key = s.entries.lookup key) : TaskPins s' := by
  refine ⟨fun hlookup ht => ?_⟩
  rw [hsame ht.not_goalKey] at hlookup
  exact hpins.pinned hlookup ht

theorem TaskPins.get (hpins : TaskPins s) (now : Nat) (key : String) :
    TaskPins (s.get now key).2 := by
  rcases get_snd now s key with heq | ⟨entry, hlookup, heq⟩
  · rw [heq]
    exact hpins
  · rw [heq]
    refine ⟨fun hcurrent ht => ?_⟩
    rcases lookup_insert_eq_some.mp hcurrent with ⟨rfl, rfl⟩ | ⟨-, hbefore⟩
    · show entry.pinned = _
      exact hpins.pinned hlookup ⟨ht.key, ht.metadata, ht.pinned, ht.expiresAt⟩
    · exact hpins.pinned hbefore ht

theorem not_goal_task {key : String} {entry : MemoryEntry F} {g : Goal} {t : Task}
    (hmetadata : entry.metadata = goalMetadata g) : ¬TaskEntry key entry t := by
  intro ht
  rw [ht.metadata] at hmetadata
  cases congrArg MemoryMetadata.category hmetadata

theorem not_foreign_task {key : String} {entry : MemoryEntry F} {t : Task}
    (hforeign : Foreign key entry.metadata.category) : ¬TaskEntry key entry t :=
  fun ht => hforeign.ne_taskKey t.taskId ht.key

variable [Zero F]

theorem TaskPins.restoreGoal (hpins : TaskPins s) (m : GoalManager F) (moment : Moment F)
    (g : Goal) : TaskPins (restoreGoal m moment g s) :=
  hpins.stores _ _ _ fun ht => absurd ht (not_goal_task rfl)

theorem TaskPins.restoreTask (hpins : TaskPins s) (m : GoalManager F) (moment : Moment F)
    (t : Task) : TaskPins (restoreTask m moment t s) := by
  apply hpins.stores
  intro t' ht'
  rw [(taskEntry_new _ _ t).unique ht']

theorem TaskPins.restoreStatus (hpins : TaskPins s) (m : GoalManager F) (moment : Moment F)
    (st : StatusEntry) : TaskPins (restoreStatus m moment st s) :=
  hpins.stores _ _ _ fun ht => absurd ht (not_foreign_task foreign_status)

theorem TaskPins.section (hs : Managed s) (hpins : TaskPins s) (hsection : Section s s') :
    TaskPins s' := by
  cases hsection with
  | setGoal m amb goalId text =>
    have hclears := (clears_currentKeys hs amb.each amb.query).1
    exact (hpins.of_lookup hclears.other).restoreGoal m amb.last _
  | setCurrent amb goalId =>
    cases hlookup : s.entries.lookup (goalKey goalId) with
    | none =>
      rw [setCurrent_of_lookup_eq_none amb hlookup]
      exact hpins
    | some entry => exact hpins.of_lookup (setCurrent_sets hs amb hlookup).2.2
  | addTask m moment taskId goalId text => exact hpins.restoreTask m moment _
  | updateTask moment taskId status =>
    rw [updateTask]
    cases hlookup : s.entries.lookup (taskKey taskId) with
    | none =>
      rw [retag_of_lookup_eq_none moment _ _ hlookup]
      exact hpins
    | some entry =>
      obtain ⟨t, ht, -⟩ := hs.task_of_key hlookup
      obtain ⟨s', heq, hrewritten⟩ := retag_of_lookup moment (withStatus status)
        (taskOptions status) hs hlookup ht.expiresAt
      rw [heq]
      refine ⟨fun {key other t'} hother ht' => ?_⟩
      by_cases hkey : key = taskKey taskId
      · subst hkey
        rw [hrewritten.same] at hother
        obtain rfl := Option.some.inj hother
        rw [ht'.unique (taskEntry_retagged moment ht status)]
        rfl
      · rw [hrewritten.others key hkey] at hother
        exact hpins.pinned hother ht'
  | setStatus m amb text => exact hpins.restoreStatus m amb.last _
  | restoreGoal m moment g => exact hpins.restoreGoal m moment g
  | restoreTask m moment t => exact hpins.restoreTask m moment t
  | restoreStatus m moment st => exact hpins.restoreStatus m moment st
  | otherStore order now _ vector options hforeign =>
    exact hpins.stores _ _ _ fun ht => absurd ht (not_foreign_task hforeign)
  | otherGet now _ key => exact hpins.get now key
  | otherRemove _ key =>
    refine ⟨fun hlookup ht => ?_⟩
    rw [MemoryStore.remove, removeInternal_entries] at hlookup
    exact hpins.pinned (lookup_erase_eq_some.mp hlookup).2 ht

theorem GoalReachable.taskPins (hreachable : GoalReachable s) : TaskPins s := by
  induction hreachable with
  | withBudget maxEntries byteBudget categoryBudgets =>
    exact ⟨fun hlookup => by cases hlookup⟩
  | call hbefore hsection ih => exact TaskPins.section hbefore.managed ih hsection

end

/-! ### Entries and their records -/

/-- The entry of a goal or a task. -/
def Durable (key : String) (entry : MemoryEntry F) : Prop :=
  (∃ g, GoalEntry key entry g) ∨ ∃ t, TaskEntry key entry t

theorem goalRecord_durable (g : Goal) : (goalRecord g).durable = true := rfl

theorem taskRecord_durable (t : Task) : (taskRecord t).durable = true := by
  rw [Record.durable, taskRecord, taskOptions_ttl]
  rfl

theorem mem_records {state : PersistedState} {r : Record} :
    r ∈ records state ↔ (∃ g ∈ state.goals, goalRecord g = r) ∨
      (∃ t ∈ state.tasks, taskRecord t = r) ∨ ∃ st, state.status = some st ∧ statusRecord st = r := by
  simp [records]

theorem mem_records_durable {state : PersistedState} {r : Record} (hr : r ∈ records state)
    (hdurable : r.durable = true) :
    (∃ g ∈ state.goals, goalRecord g = r) ∨ ∃ t ∈ state.tasks, taskRecord t = r := by
  rcases mem_records.mp hr with hgoal | htask | ⟨st, -, rfl⟩
  · exact .inl hgoal
  · exact .inr htask
  · cases hdurable

section

variable {s : MemoryStore F} {sight : SnapshotSight} {key : String} {entry : MemoryEntry F}

theorem Durable.expiresAt (hdurable : Durable key entry) : entry.expiresAt = none := by
  rcases hdurable with ⟨g, hg⟩ | ⟨t, ht⟩
  · exact hg.expiresAt
  · exact ht.expiresAt

theorem Durable.ne_statusKey (hdurable : Durable key entry) : key ≠ statusKey := by
  rcases hdurable with ⟨g, hg⟩ | ⟨t, ht⟩
  · rw [hg.key]
    exact (statusKey_ne_goalKey g.goalId).symm
  · rw [ht.key]
    exact (statusKey_ne_taskKey t.taskId).symm

/-- Every goal and task of a store has its record in a snapshot. -/
theorem record_of_durable (sight : SnapshotSight) (hs : Managed s) (hpins : TaskPins s)
    (hlookup : s.entries.lookup key = some entry) (hdurable : Durable key entry) :
    ∃ r ∈ records (sight.snapshot s), r.durable = true ∧ r.key = key ∧
      r.metadata = entry.metadata ∧ r.options.pinned = entry.pinned := by
  rcases hdurable with ⟨g, hg⟩ | ⟨t, ht⟩
  · have hmem : g ∈ (sight.snapshot s).goals :=
      (mem_snapshot_goals sight hs).mpr ⟨key, entry, hlookup, hg⟩
    refine ⟨goalRecord g, mem_records.mpr (.inl ⟨g, hmem, rfl⟩), rfl, hg.key.symm,
      hg.metadata.symm, hg.pinned.symm⟩
  · have hmem : t ∈ (sight.snapshot s).tasks :=
      (mem_snapshot_tasks sight hs).mpr ⟨key, entry, hlookup, ht⟩
    refine ⟨taskRecord t, mem_records.mpr (.inr (.inl ⟨t, hmem, rfl⟩)), taskRecord_durable t,
      ht.key.symm, ht.metadata.symm, (hpins.pinned hlookup ht).symm⟩

theorem durable_of_record (hs : Managed s) (hpins : TaskPins s) {r : Record}
    (hr : r ∈ records (sight.snapshot s)) (hdurable : r.durable = true) :
    ∃ entry, s.entries.lookup r.key = some entry ∧ Durable r.key entry ∧
      entry.metadata = r.metadata ∧ entry.pinned = r.options.pinned := by
  rcases mem_records_durable hr hdurable with ⟨g, hmem, rfl⟩ | ⟨t, hmem, rfl⟩
  · obtain ⟨key, entry, hlookup, hg⟩ := (mem_snapshot_goals sight hs).mp hmem
    obtain rfl := hg.key
    exact ⟨entry, hlookup, .inl ⟨g, hg⟩, hg.metadata, hg.pinned⟩
  · obtain ⟨key, entry, hlookup, ht⟩ := (mem_snapshot_tasks sight hs).mp hmem
    obtain rfl := ht.key
    exact ⟨entry, hlookup, .inr ⟨t, ht⟩, ht.metadata, hpins.pinned hlookup ht⟩

/-- A snapshot has one record for each key. -/
theorem nodup_records (hs : Managed s) :
    ((records (sight.snapshot s)).map Record.key).Nodup := by
  rw [records, List.map_append, List.map_append, List.map_map, List.map_map, List.map_map]
  have hgoals : (List.map (Record.key ∘ goalRecord) (sight.snapshot s).goals).Nodup := by
    show (List.map (fun g => goalKey g.goalId) (sight.snapshot s).goals).Nodup
    rw [snapshot_goalKeys hs]
    exact nodup_queryByCategory hs sight.goals .goal
  have htasks : (List.map (Record.key ∘ taskRecord) (sight.snapshot s).tasks).Nodup := by
    show (List.map (fun t => taskKey t.taskId) (sight.snapshot s).tasks).Nodup
    rw [snapshot_taskKeys hs]
    exact nodup_queryByCategory hs sight.tasks .task
  have hstatus : (List.map (Record.key ∘ statusRecord)
      (sight.snapshot s).status.toList).Nodup := by
    cases (sight.snapshot s).status with
    | none => exact List.nodup_nil
    | some st => exact List.nodup_singleton _
  apply List.Nodup.append (List.Nodup.append hgoals htasks ?_) hstatus ?_
  · intro key hgoal htask
    obtain ⟨g, -, rfl⟩ := List.mem_map.mp hgoal
    obtain ⟨t, -, heq⟩ := List.mem_map.mp htask
    exact goalKey_ne_taskKey g.goalId t.taskId heq.symm
  · intro key hdurable hkey
    obtain ⟨st, -, rfl⟩ := List.mem_map.mp hkey
    rcases List.mem_append.mp hdurable with hgoal | htask
    · obtain ⟨g, -, heq⟩ := List.mem_map.mp hgoal
      exact statusKey_ne_goalKey g.goalId heq.symm
    · obtain ⟨t, -, heq⟩ := List.mem_map.mp htask
      exact statusKey_ne_taskKey t.taskId heq.symm

end

/-! ### What writing records leaves -/

section

variable [Zero F] {m : GoalManager F} {each : String → Moment F} {s : MemoryStore F}
  {key : String} {entry : MemoryEntry F}

theorem Record.lookup_write {r : Record}
    (hlookup : (r.write m each s).entries.lookup key = some entry) :
    s.entries.lookup key = some entry ∨ key = r.key ∧ entry = r.entry m each :=
  lookup_storeWithOptions hlookup

/-- What writing records leaves was there before or is one of their entries. -/
theorem lookup_writes {rest : List Record}
    (hlookup : (rest.foldl (Record.write m each) s).entries.lookup key = some entry) :
    s.entries.lookup key = some entry ∨
      ∃ r ∈ rest, r.key = key ∧ entry = r.entry m each := by
  induction rest generalizing s with
  | nil => exact .inl hlookup
  | cons r rest ih =>
    rcases ih hlookup with hwrite | ⟨other, hother, hkey, hentry⟩
    · rcases Record.lookup_write hwrite with hbefore | ⟨rfl, hentry⟩
      · exact .inl hbefore
      · exact .inr ⟨r, List.mem_cons_self, rfl, hentry⟩
    · exact .inr ⟨other, List.mem_cons_of_mem _ hother, hkey, hentry⟩

omit [Zero F] in
theorem record_durable {state : PersistedState} {r : Record} (hr : r ∈ records state)
    (hkey : r.key ≠ statusKey) : r.durable = true := by
  rcases mem_records.mp hr with ⟨g, -, rfl⟩ | ⟨t, -, rfl⟩ | ⟨st, -, rfl⟩
  · exact goalRecord_durable g
  · exact taskRecord_durable t
  · exact absurd rfl hkey

theorem goalEntry_record (m : GoalManager F) (each : String → Moment F) (g : Goal) :
    GoalEntry (goalKey g.goalId) ((goalRecord g).entry m each) g :=
  ⟨rfl, rfl, rfl, rfl⟩

theorem taskEntry_record (m : GoalManager F) (each : String → Moment F) (t : Task) :
    TaskEntry (taskKey t.taskId) ((taskRecord t).entry m each) t :=
  taskEntry_new _ _ t

theorem entryOk_record {state : PersistedState} {r : Record} (hr : r ∈ records state)
    (m : GoalManager F) (each : String → Moment F) : EntryOk r.key (r.entry m each) := by
  rcases mem_records.mp hr with ⟨g, -, rfl⟩ | ⟨t, -, rfl⟩ | ⟨st, -, rfl⟩
  · exact .inl ⟨g, goalEntry_record m each g⟩
  · exact .inr (.inl ⟨t, taskEntry_record m each t⟩)
  · exact entryOk_foreign foreign_status _ _ _

end

end Zllm.ControlPlane

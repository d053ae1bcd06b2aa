import Zllm.ControlPlane.GoalCalls

/-!
# Goal mutations take effect

The stores that a manager reaches, whatever else they hold and whatever their limits, and when a
call of the manager does what it reports.
-/

namespace Zllm.ControlPlane

open Engine Engine.MemoryStore Ledger

variable {F : Type} [Zero F]

/-! ### Reachable stores -/

/-- One acquisition of the store's lock that may change the store, by a call of the manager or by
another user of the store, who keeps off the goals' and tasks' keys and categories. -/
inductive Section : MemoryStore F → MemoryStore F → Prop
  | setGoal (m : GoalManager F) (amb : Ambient F) (goalId text : String) (s : MemoryStore F) :
      Section s (setGoal m amb goalId text s).2
  | setCurrent (amb : Ambient F) (goalId : String) (s : MemoryStore F) :
      Section s (setCurrent amb goalId s).2
  | addTask (m : GoalManager F) (moment : Moment F) (taskId goalId text : String)
      (s : MemoryStore F) : Section s (addTask m moment taskId goalId text s).2
  | updateTask (moment : Moment F) (taskId : String) (status : TaskStatus) (s : MemoryStore F) :
      Section s (updateTask moment taskId status s).2
  | setStatus (m : GoalManager F) (amb : Ambient F) (text : String) (s : MemoryStore F) :
      Section s (setStatus m amb text s)
  | restoreGoal (m : GoalManager F) (moment : Moment F) (g : Goal) (s : MemoryStore F) :
      Section s (restoreGoal m moment g s)
  | restoreTask (m : GoalManager F) (moment : Moment F) (t : Task) (s : MemoryStore F) :
      Section s (restoreTask m moment t s)
  | restoreStatus (m : GoalManager F) (moment : Moment F) (st : StatusEntry)
      (s : MemoryStore F) : Section s (restoreStatus m moment st s)
  | otherStore (order : EntryOrder F) (now : Nat) (s : MemoryStore F) {key : String}
      (vector : List F) {metadata : MemoryMetadata} (options : StoreOptions)
      (hforeign : Foreign key metadata.category) :
      Section s (s.storeWithOptions order now key vector metadata options).2
  | otherGet (now : Nat) (s : MemoryStore F) (key : String) : Section s (s.get now key).2
  | otherRemove (s : MemoryStore F) (key : String) : Section s (s.remove key).2

/-- The stores under a manager, from an empty one of any limits. -/
inductive GoalReachable : MemoryStore F → Prop
  | withBudget (maxEntries byteBudget : Nat) (categoryBudgets : MemoryCategory → Option Nat) :
      GoalReachable (withBudget maxEntries byteBudget categoryBudgets)
  | call {s s' : MemoryStore F} (hreachable : GoalReachable s) (hsection : Section s s') :
      GoalReachable s'

section

variable {s : MemoryStore F}

theorem managed_restoreGoal (hs : Managed s) (m : GoalManager F) (moment : Moment F) (g : Goal) :
    Managed (restoreGoal m moment g s) :=
  hs.stores _ (entryOk_goal _ _ g)

theorem managed_restoreTask (hs : Managed s) (m : GoalManager F) (moment : Moment F) (t : Task) :
    Managed (restoreTask m moment t s) :=
  hs.stores _ (.inr (.inl ⟨t, taskEntry_new _ _ t⟩))

theorem managed_restoreStatus (hs : Managed s) (m : GoalManager F) (moment : Moment F)
    (st : StatusEntry) : Managed (restoreStatus m moment st s) :=
  hs.stores _ (entryOk_foreign foreign_status _ _ _)

omit [Zero F] in
theorem taskEntry_retagged {key : String} {entry : MemoryEntry F} {t : Task} (moment : Moment F)
    (ht : TaskEntry key entry t) (status : TaskStatus) :
    TaskEntry key (retagged moment key entry (withStatus status) (taskOptions status))
      { t with status := status } where
  key := ht.key
  metadata := by
    show { entry.metadata with tags := withStatus status entry.metadata.tags } = _
    rw [ht.metadata, withStatus_taskMetadata]
  pinned hstatus := by
    rw [taskOptions_pinned hstatus]
    rfl
  expiresAt := by
    rw [retagged, newEntry, taskOptions_ttl]
    rfl

omit [Zero F] in
theorem managed_setCurrent (hs : Managed s) (amb : Ambient F) (goalId : String) :
    Managed (setCurrent amb goalId s).2 := by
  have hget := hs.get amb.found (goalKey goalId)
  rw [setCurrent]
  generalize s.get amb.found (goalKey goalId) = found at hget
  obtain ⟨answer, read⟩ := found
  cases answer with
  | none => exact hget
  | some entry =>
    have hcleared := (clears_currentKeys hget amb.each amb.query).1.managed
    apply managed_retag amb.last addCurrent pinnedNoTtl hcleared
    intro current hcurrent
    obtain ⟨g, hg, -⟩ := hcleared.goal_of_key hcurrent
    exact .inl ⟨_, entryOk_retagged_goal amb.last hg (addCurrent_goalMetadata g)⟩

omit [Zero F] in
theorem managed_updateTask (hs : Managed s) (moment : Moment F) (taskId : String)
    (status : TaskStatus) : Managed (updateTask moment taskId status s).2 := by
  apply managed_retag moment (withStatus status) (taskOptions status) hs
  intro entry hlookup
  obtain ⟨t, ht, -⟩ := hs.task_of_key hlookup
  exact .inr (.inl ⟨_, taskEntry_retagged moment ht status⟩)

theorem Managed.section {s' : MemoryStore F} (hs : Managed s) (hsection : Section s s') :
    Managed s' := by
  cases hsection with
  | setGoal m amb goalId text =>
    exact managed_restoreGoal (clears_currentKeys hs amb.each amb.query).1.managed m amb.last _
  | setCurrent amb goalId => exact managed_setCurrent hs amb goalId
  | addTask m moment taskId goalId text => exact managed_restoreTask hs m moment _
  | updateTask moment taskId status => exact managed_updateTask hs moment taskId status
  | setStatus m amb text => exact managed_restoreStatus hs m amb.last _
  | restoreGoal m moment g => exact managed_restoreGoal hs m moment g
  | restoreTask m moment t => exact managed_restoreTask hs m moment t
  | restoreStatus m moment st => exact managed_restoreStatus hs m moment st
  | otherStore order now _ vector options hforeign =>
    exact hs.stores _ (entryOk_foreign hforeign now vector options)
  | otherGet now _ key => exact hs.get now key
  | otherRemove _ key => exact hs.removeInternal key

theorem GoalReachable.managed (hreachable : GoalReachable s) : Managed s := by
  induction hreachable with
  | withBudget maxEntries byteBudget categoryBudgets =>
    exact managed_withBudget maxEntries byteBudget categoryBudgets
  | call _ hsection ih => exact ih.section hsection

end

/-! ### Effects -/

omit [Zero F]

/-- Goals and unfinished tasks under other keys than the named one are still there. -/
structure OthersKept (s s' : MemoryStore F) (named : String) : Prop where
  goal : ∀ {key entry}, key ≠ named → s.entries.lookup key = some entry →
    entry.metadata.category = .goal → ∃ entry', s'.entries.lookup key = some entry' ∧
      entry'.metadata.category = .goal ∧
      { toGoal entry'.metadata with isCurrent := false } =
        { toGoal entry.metadata with isCurrent := false }
  task : ∀ {key entry}, key ≠ named → s.entries.lookup key = some entry →
    entry.metadata.category = .task → taskStatus entry.metadata ≠ .done →
    ∃ entry', s'.entries.lookup key = some entry' ∧ entry'.metadata = entry.metadata ∧
      entry'.pinned = true

/-- Of the goals in a store, the one under this key is current and no other. -/
def OnlyCurrent (s : MemoryStore F) (named : String) : Prop :=
  ∀ {key entry}, s.entries.lookup key = some entry → entry.metadata.category = .goal →
    (isCurrent entry.metadata = true ↔ key = named)

structure GoalSet (s s' : MemoryStore F) (goalId text : String) : Prop where
  held : ∃ entry, s'.entries.lookup (goalKey goalId) = some entry ∧
    entry.metadata = goalMetadata { goalId, text, isCurrent := true } ∧ entry.expiresAt = none
  only : OnlyCurrent s' (goalKey goalId)
  others : OthersKept s s' (goalKey goalId)

structure CurrentSet (s s' : MemoryStore F) (goalId : String) : Prop where
  held : ∃ entry, s'.entries.lookup (goalKey goalId) = some entry ∧
    entry.metadata.category = .goal ∧ entry.expiresAt = none
  only : OnlyCurrent s' (goalKey goalId)
  others : OthersKept s s' (goalKey goalId)

structure TaskAdded (s s' : MemoryStore F) (taskId goalId text : String) : Prop where
  held : ∃ entry, s'.entries.lookup (taskKey taskId) = some entry ∧
    entry.metadata = taskMetadata { taskId, goalId, text, status := .active } ∧
    entry.pinned = true ∧ entry.expiresAt = none
  others : OthersKept s s' (taskKey taskId)

structure TaskUpdated (s s' : MemoryStore F) (taskId : String) (status : TaskStatus) : Prop where
  held : ∃ entry, s'.entries.lookup (taskKey taskId) = some entry ∧
    entry.metadata.category = .task ∧ taskStatus entry.metadata = status ∧
    entry.expiresAt = none
  others : OthersKept s s' (taskKey taskId)

section

variable {s s' s'' : MemoryStore F} {named : String}

theorem OthersKept.trans (hfirst : OthersKept s s' named) (hsecond : OthersKept s' s'' named) :
    OthersKept s s'' named where
  goal hne hlookup hcategory := by
    obtain ⟨entry', hlookup', hcategory', hrecord⟩ := hfirst.goal hne hlookup hcategory
    obtain ⟨entry'', hlookup'', hcategory'', hrecord'⟩ := hsecond.goal hne hlookup' hcategory'
    exact ⟨entry'', hlookup'', hcategory'', hrecord'.trans hrecord⟩
  task hne hlookup hcategory hstatus := by
    obtain ⟨entry', hlookup', hmetadata, -⟩ := hfirst.task hne hlookup hcategory hstatus
    obtain ⟨entry'', hlookup'', hmetadata', hpinned⟩ := hsecond.task hne hlookup'
      (by rw [hmetadata, hcategory]) (by rwa [hmetadata])
    exact ⟨entry'', hlookup'', hmetadata'.trans hmetadata, hpinned⟩

/-- A call that keeps the lookups of goals and unfinished tasks keeps them. -/
theorem othersKept_of_lookup (hs : Managed s)
    (hkept : ∀ {key entry}, key ≠ named → s.entries.lookup key = some entry →
      (∀ now, ¬entry.Evictable now) → s'.entries.lookup key = some entry) :
    OthersKept s s' named where
  goal hne hlookup hcategory := by
    obtain ⟨g, hg⟩ := hs.goal_of_category hlookup hcategory
    exact ⟨_, hkept hne hlookup hg.firm, hcategory, rfl⟩
  task hne hlookup hcategory hstatus := by
    obtain ⟨t, ht⟩ := hs.task_of_category hlookup hcategory
    rw [ht.metadata, taskStatus_taskMetadata] at hstatus
    exact ⟨_, hkept hne hlookup (ht.firm hstatus), rfl, ht.pinned hstatus⟩

theorem Stores.othersKept {now : Nat} {entry : MemoryEntry F} {answer : Except StoreError Unit}
    (hs : Managed s) (hstores : Stores now s entry answer s') :
    OthersKept s s' entry.key :=
  othersKept_of_lookup hs fun hne hlookup hfirm =>
    lookup_stores_other hstores hne hlookup (hfirm now)

theorem Rewritten.othersKept {key : String} {entry entry' : MemoryEntry F} (hs : Managed s)
    (hrewritten : Rewritten s s' key entry entry') : OthersKept s s' key :=
  othersKept_of_lookup hs fun hne hlookup _ => (hrewritten.others _ hne).trans hlookup

theorem Clears.othersKept (hs : Managed s) (hclears : Clears s s') (named : String) :
    OthersKept s s' named where
  goal {key entry} hne hlookup hcategory := by
    obtain ⟨g, hg⟩ := hs.goal_of_category hlookup hcategory
    obtain ⟨entry', flag, hlookup', hg', -⟩ := hclears.goal hlookup hg
    refine ⟨entry', hlookup', ?_, ?_⟩
    · rw [hg'.metadata]
      rfl
    · rw [hg'.metadata, hg.metadata, toGoal_goalMetadata, toGoal_goalMetadata]
  task {key entry} hne hlookup hcategory hstatus := by
    obtain ⟨t, ht⟩ := hs.task_of_category hlookup hcategory
    rw [ht.metadata, taskStatus_taskMetadata] at hstatus
    refine ⟨entry, ?_, rfl, ht.pinned hstatus⟩
    rw [hclears.other, hlookup]
    intro id hkey
    exact goalKey_ne_taskKey id t.taskId (hkey.symm.trans ht.key)

end

/-! ### Calls -/

section

variable {s : MemoryStore F}

/-- A new goal is set exactly if there is room for it beside what is pinned. -/
theorem goalSet_iff [Zero F] (hs : Managed s) (m : GoalManager F) (amb : Ambient F)
    {goalId : String} (text : String) (hfresh : s.entries.lookup (goalKey goalId) = none) :
    GoalSet s (setGoal m amb goalId text s).2 goalId text ↔
      s.Room amb.last.stored .goal ((m.encode text).length * sizeOfF32) := by
  obtain ⟨hclears, hnone⟩ := clears_currentKeys hs amb.each amb.query
  have hkept := hclears.othersKept hs (goalKey goalId)
  rw [← hclears.room]
  rw [setGoal, restoreGoal]
  generalize clearCurrent amb.each s (currentKeys amb.query s) = cleared at hclears hnone hkept ⊢
  obtain ⟨answer, s', heq, hstores⟩ := storeWithOptions_stores amb.last.order amb.last.stored
    cleared (goalKey goalId) (m.encode text) (goalMetadata { goalId, text, isCurrent := true })
    pinnedNoTtl
  have hfree := hclears.absent hfresh
  have hroom := hstores.ok_iff hclears.managed.accounted hfree
  dsimp only
  rw [heq]
  rcases lookup_stores_new hstores hfree with ⟨hlookup, hok⟩ | ⟨hlookup, hfailed⟩
  · refine iff_of_true ?_ (hroom.mp hok)
    refine ⟨⟨_, hlookup, rfl, rfl⟩, ?_, hkept.trans (Stores.othersKept hclears.managed hstores)⟩
    intro key entry hother hcategory
    rcases hstores.lookup hother with hbefore | ⟨rfl, rfl⟩
    · obtain ⟨g, hg⟩ := hclears.managed.goal_of_category hbefore hcategory
      rw [hg.metadata, isCurrent_goalMetadata, hnone hbefore hg]
      apply iff_of_false Bool.false_ne_true
      rintro rfl
      rw [hfree] at hbefore
      cases hbefore
    · exact iff_of_true (isCurrent_goalMetadata _) rfl
  · apply iff_of_false
    · rintro ⟨⟨entry, hheld, -⟩, -, -⟩
      exact Option.some_ne_none entry (hheld.symm.trans hlookup)
    · exact fun habsurd => hfailed (hroom.mpr habsurd)

theorem taskAdded_iff [Zero F] (hs : Managed s) (m : GoalManager F) (moment : Moment F)
    {taskId : String} (goalId text : String)
    (hfresh : s.entries.lookup (taskKey taskId) = none) :
    TaskAdded s (addTask m moment taskId goalId text s).2 taskId goalId text ↔
      s.Room moment.stored .task ((m.encode text).length * sizeOfF32) := by
  rw [addTask, restoreTask]
  obtain ⟨answer, s', heq, hstores⟩ := storeWithOptions_stores moment.order moment.stored s
    (taskKey taskId) (m.encode text) (taskMetadata { taskId, goalId, text, status := .active })
    (taskOptions .active)
  have hroom := hstores.ok_iff hs.accounted hfresh
  dsimp only
  rw [heq]
  rcases lookup_stores_new hstores hfresh with ⟨hlookup, hok⟩ | ⟨hlookup, hfailed⟩
  · exact iff_of_true ⟨⟨_, hlookup, rfl, rfl, rfl⟩, Stores.othersKept hs hstores⟩ (hroom.mp hok)
  · apply iff_of_false
    · rintro ⟨⟨entry, hheld, -⟩, -⟩
      exact Option.some_ne_none entry (hheld.symm.trans hlookup)
    · exact fun habsurd => hfailed (hroom.mpr habsurd)

theorem taskUpdated_of_true (hs : Managed s) (moment : Moment F) (taskId : String)
    (status : TaskStatus) (htrue : (updateTask moment taskId status s).1 = true) :
    TaskUpdated s (updateTask moment taskId status s).2 taskId status := by
  rw [updateTask] at htrue ⊢
  cases hlookup : s.entries.lookup (taskKey taskId) with
  | none =>
    rw [retag_of_lookup_eq_none moment _ _ hlookup] at htrue
    cases htrue
  | some entry =>
    obtain ⟨t, ht, -⟩ := hs.task_of_key hlookup
    obtain ⟨s', heq, hrewritten⟩ := retag_of_lookup moment (withStatus status) (taskOptions status)
      hs hlookup ht.expiresAt
    have hnew := taskEntry_retagged moment ht status
    rw [heq]
    refine ⟨⟨_, hrewritten.same, ?_, ?_, hnew.expiresAt⟩, hrewritten.othersKept hs⟩
    · rw [hnew.metadata]
      rfl
    · rw [hnew.metadata, taskStatus_taskMetadata]

/-- Looking a goal up only counts the access. -/
theorem setCurrent_of_lookup (hs : Managed s) (amb : Ambient F) {goalId : String}
    {entry : MemoryEntry F} (hlookup : s.entries.lookup (goalKey goalId) = some entry) :
    setCurrent amb goalId s =
      retag amb.last
        (clearCurrent amb.each
          { s with entries := s.entries.insert (goalKey goalId) entry.accessed }
          (currentKeys amb.query
            { s with entries := s.entries.insert (goalKey goalId) entry.accessed }))
        (goalKey goalId) addCurrent pinnedNoTtl := by
  obtain ⟨g, hg, -⟩ := hs.goal_of_key hlookup
  rw [setCurrent, MemoryStore.get, hlookup]
  dsimp only
  rw [if_neg (by rw [isExpired_of_none hg.expiresAt]; exact Bool.false_ne_true)]

theorem othersKept_access (hs : Managed s) (key : String) (entry : MemoryEntry F) :
    OthersKept s { s with entries := s.entries.insert key entry.accessed } key :=
  othersKept_of_lookup hs fun hne hother _ => lookup_insert_eq_some.mpr (.inr ⟨hne, hother⟩)

/-- Making a goal that is there current succeeds, and changes nothing but goals. -/
theorem setCurrent_sets (hs : Managed s) (amb : Ambient F) {goalId : String}
    {entry : MemoryEntry F} (hlookup : s.entries.lookup (goalKey goalId) = some entry) :
    (setCurrent amb goalId s).1 = true ∧ CurrentSet s (setCurrent amb goalId s).2 goalId ∧
      ∀ {key}, (∀ id, key ≠ goalKey id) →
        (setCurrent amb goalId s).2.entries.lookup key = s.entries.lookup key := by
  rw [setCurrent_of_lookup hs amb hlookup]
  have hread := hs.access hlookup
  have hkept := othersKept_access hs (goalKey goalId) entry
  have hsame : ∀ {key}, key ≠ goalKey goalId → ({ s with
      entries := s.entries.insert (goalKey goalId) entry.accessed } :
        MemoryStore F).entries.lookup key = s.entries.lookup key := AList.lookup_insert_ne
  have hfound : ({ s with
      entries := s.entries.insert (goalKey goalId) entry.accessed } :
        MemoryStore F).entries.lookup (goalKey goalId) = some entry.accessed :=
    AList.lookup_insert s.entries
  generalize ({ s with
    entries := s.entries.insert (goalKey goalId) entry.accessed } : MemoryStore F) = read
    at hread hkept hsame hfound ⊢
  obtain ⟨hclears, hnone⟩ := clears_currentKeys hread amb.each amb.query
  have hcleared := hclears.othersKept hread (goalKey goalId)
  obtain ⟨g, hg, -⟩ := hread.goal_of_key hfound
  obtain ⟨current, flag, hcurrent, hg', -⟩ := hclears.goal hfound hg
  generalize clearCurrent amb.each read (currentKeys amb.query read) = cleared
    at hclears hnone hcleared hcurrent ⊢
  obtain ⟨s', heq, hrewritten⟩ := retag_of_lookup amb.last addCurrent pinnedNoTtl hclears.managed
    hcurrent hg'.expiresAt
  have hnew := entryOk_retagged_goal amb.last hg' (addCurrent_goalMetadata _)
  rw [heq]
  refine ⟨rfl, ⟨⟨_, hrewritten.same, ?_, hnew.expiresAt⟩, ?_,
    (hkept.trans hcleared).trans (hrewritten.othersKept hclears.managed)⟩, ?_⟩
  · rw [hnew.metadata]
    rfl
  · intro key other hother hcategory
    by_cases hkey : key = goalKey goalId
    · subst hkey
      rw [hrewritten.same] at hother
      obtain rfl := Option.some.inj hother
      rw [hnew.metadata]
      exact iff_of_true (isCurrent_goalMetadata _) rfl
    · rw [hrewritten.others key hkey] at hother
      obtain ⟨g₀, hg₀⟩ := hclears.managed.goal_of_category hother hcategory
      rw [hg₀.metadata, isCurrent_goalMetadata, hnone hother hg₀]
      exact iff_of_false Bool.false_ne_true hkey
  · intro key hkey
    rw [hrewritten.others key (hkey goalId), hclears.other hkey, hsame (hkey goalId)]

theorem setCurrent_of_lookup_eq_none (amb : Ambient F) {goalId : String}
    (hlookup : s.entries.lookup (goalKey goalId) = none) :
    setCurrent amb goalId s = (false, s) := by
  rw [setCurrent, MemoryStore.get, hlookup]

theorem currentSet_of_true (hs : Managed s) (amb : Ambient F) (goalId : String)
    (htrue : (setCurrent amb goalId s).1 = true) :
    CurrentSet s (setCurrent amb goalId s).2 goalId := by
  cases hlookup : s.entries.lookup (goalKey goalId) with
  | none =>
    rw [setCurrent_of_lookup_eq_none amb hlookup] at htrue
    cases htrue
  | some entry => exact (setCurrent_sets hs amb hlookup).2.1

end

/-! ### Every call -/

/-- In every reachable store, and for fresh ids: a goal is set, and a task added, exactly if there
is room beside what is pinned and has not expired; updates that report success take effect. -/
theorem mutations_take_effect [Zero F] {s : MemoryStore F} (hreachable : GoalReachable s) :
    (∀ (m : GoalManager F) (amb : Ambient F) (goalId text : String),
        s.entries.lookup (goalKey goalId) = none →
          (GoalSet s (setGoal m amb goalId text s).2 goalId text ↔
            s.Room amb.last.stored .goal ((m.encode text).length * sizeOfF32))) ∧
      (∀ (m : GoalManager F) (moment : Moment F) (taskId goalId text : String),
        s.entries.lookup (taskKey taskId) = none →
          (TaskAdded s (addTask m moment taskId goalId text s).2 taskId goalId text ↔
            s.Room moment.stored .task ((m.encode text).length * sizeOfF32))) ∧
      (∀ (moment : Moment F) (taskId : String) (status : TaskStatus),
        (updateTask moment taskId status s).1 = true →
          TaskUpdated s (updateTask moment taskId status s).2 taskId status) ∧
      ∀ (amb : Ambient F) (goalId : String), (setCurrent amb goalId s).1 = true →
        CurrentSet s (setCurrent amb goalId s).2 goalId := by
  have hs := hreachable.managed
  refine ⟨fun m amb goalId text hfresh => ?_, fun m moment taskId goalId text hfresh => ?_,
    fun moment taskId status htrue => ?_, fun amb goalId htrue => ?_⟩
  · exact goalSet_iff hs m amb text hfresh
  · exact taskAdded_iff hs m moment goalId text hfresh
  · exact taskUpdated_of_true hs moment taskId status htrue
  · exact currentSet_of_true hs amb goalId htrue

def atOnce : Moment ℚ where
  got := 0
  stored := 0
  order := asListed

def undisturbed : Ambient ℚ where
  found := 0
  query := { now := 0, keys := ⟨id, fun _ => .refl _⟩ }
  each := fun _ => atOnce
  last := atOnce

/-- A manager without an encoder: entries are zero vectors of one float. -/
def unencoded : GoalManager ℚ where
  dModel := 1
  encoder := none

/-- A store of two entries that holds one goal. -/
def oneGoal (maxEntries : Nat) : MemoryStore ℚ :=
  (setGoal unencoded undisturbed "first" "find" (withBudget maxEntries 64 fun _ => none)).2

theorem reachable_oneGoal (maxEntries : Nat) : GoalReachable (oneGoal maxEntries) :=
  .call (.withBudget maxEntries 64 fun _ => none) (.setGoal unencoded undisturbed "first" "find" _)

theorem mutations_take_effect_oneGoal :
    (GoalSet (oneGoal 2) (setGoal unencoded undisturbed "second" "fix" (oneGoal 2)).2 "second"
        "fix" ↔ (oneGoal 2).Room 0 .goal 4) ∧
      CurrentSet (oneGoal 2) (setCurrent undisturbed "first" (oneGoal 2)).2 "first" := by
  obtain ⟨hset, -, -, hcurrent⟩ := mutations_take_effect (reachable_oneGoal 2)
  refine ⟨hset unencoded undisturbed "second" "fix" ?_, hcurrent undisturbed "first" ?_⟩
  · exact Option.isNone_iff_eq_none.mp (by decide +kernel)
  · decide +kernel

/-- In a store for one entry the second goal is lost, and with it the current goal. -/
theorem setGoal_loses_current :
    ¬∀ {s : MemoryStore ℚ}, GoalReachable s →
      ∀ (m : GoalManager ℚ) (amb : Ambient ℚ) (goalId text : String),
        s.entries.lookup (goalKey goalId) = none →
          GoalSet s (setGoal m amb goalId text s).2 goalId text := by
  intro hall
  have hfresh : (oneGoal 1).entries.lookup (goalKey "second") = none :=
    Option.isNone_iff_eq_none.mp (by decide +kernel)
  obtain ⟨⟨entry, hheld, -⟩, -, -⟩ :=
    hall (reachable_oneGoal 1) unencoded undisturbed "second" "fix" hfresh
  have hlost : ((setGoal unencoded undisturbed "second" "fix" (oneGoal 1)).2.entries.lookup
      (goalKey "second")).isNone = true := by decide +kernel
  rw [hheld] at hlost
  cases hlost

end Zllm.ControlPlane

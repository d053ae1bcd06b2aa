import Zllm.Engine.StoreRejected
import Zllm.ControlPlane.GoalRecords

/-!
# Re-encoding goals

`reencode_all` writes the record of every goal and task, and the status, over its own entry with a
vector of the current encoder. A write that fails for want of room has already removed the old
entry, and a write that makes room may evict a finished task.
-/

namespace Zllm.ControlPlane

open Engine Engine.MemoryStore Ledger

variable {F : Type} [Zero F]

def reencodeAll (m : GoalManager F) (each : String → Moment F) (sight : SnapshotSight)
    (s : MemoryStore F) : MemoryStore F :=
  restoreAll m each (sight.snapshot s) s

/-- The goals and tasks are the same, each with its old entry or with the new vector. -/
structure Reencoded (m : GoalManager F) (s s' : MemoryStore F) : Prop where
  kept : ∀ {key entry}, s.entries.lookup key = some entry → Durable key entry →
    ∃ entry', s'.entries.lookup key = some entry' ∧ entry'.metadata = entry.metadata ∧
      entry'.pinned = entry.pinned ∧
      (entry' = entry ∨ entry'.vector = m.encode entry.metadata.textSummary)
  no_other : ∀ {key entry'}, s'.entries.lookup key = some entry' → Durable key entry' →
    ∃ entry, s.entries.lookup key = some entry ∧ Durable key entry

section Write

variable (m : GoalManager F) (each : String → Moment F)

/-- A store when room has been made for a record's vector. -/
def Record.cleared (r : Record) (s : MemoryStore F) : MemoryStore F :=
  s.clearedFor (each r.key).order (each r.key).stored r.key r.metadata.category
    ((r.vector m).length * sizeOfF32)

/-- Whether, with its old entry out, there is room for a record's vector beside what is pinned. -/
def Record.HasRoom (r : Record) (s : MemoryStore F) : Prop :=
  (s.removeInternal r.key).2.Room (each r.key).stored r.metadata.category
    ((r.vector m).length * sizeOfF32)

/-- Whether a record's vector is within the budgets before the entry of a key has to go. -/
def Record.Spares (r : Record) (s : MemoryStore F) (key : String) : Prop :=
  Spared (each r.key).order (each r.key).stored r.metadata.category
    ((r.vector m).length * sizeOfF32) key (s.removeInternal r.key).2

/-- A step that loses no goal or task: a vector that is too big for its budgets leaves an entry that
is still there, any other has room, and the goals and tasks written before that may be given up,
which are the tasks without a pin, do not have to go for it. -/
def Record.Keeps (r : Record) (written : List Record) (s : MemoryStore F) : Prop :=
  (TooBig s r.metadata.category (r.vector m) →
    r.durable = true → (s.entries.lookup r.key).isSome = true) ∧
  (¬TooBig s r.metadata.category (r.vector m) →
    (r.durable = true → r.HasRoom m each s) ∧
      ∀ other ∈ written, other.durable = true →
        ∀ entry, s.entries.lookup other.key = some entry →
          entry.Evictable (each r.key).stored → r.Spares m each s other.key)

/-- Every step of writing `rest` after `written` loses nothing. -/
def KeepsAll : List Record → List Record → MemoryStore F → Prop
  | _, [], _ => True
  | written, r :: rest, s =>
    r.Keeps m each written s ∧ KeepsAll (written ++ [r]) rest (r.write m each s)

section

variable {m each} {r : Record} {s : MemoryStore F}

theorem Record.write_tooBig (hbig : TooBig s r.metadata.category (r.vector m)) :
    r.write m each s = s := by
  have hsize : s.categoryBudget r.metadata.category < (r.vector m).length * sizeOfF32 ∨
      s.byteBudget < (r.vector m).length * sizeOfF32 := hbig
  rw [Record.write, storeWithOptions]
  dsimp only
  rw [if_pos hsize]

theorem Record.write_cases (haccounted : Accounted s)
    (hbig : ¬TooBig s r.metadata.category (r.vector m)) :
    r.HasRoom m each s ∧
        r.write m each s = (r.cleared m each s).insertEntry (r.entry m each) ∨
      ¬r.HasRoom m each s ∧ r.write m each s = r.cleared m each s :=
  storeWithOptions_clearedFor haccounted _ _ _ _ _ _ hbig

theorem Record.lookup_write_other (haccounted : Accounted s)
    (hbig : ¬TooBig s r.metadata.category (r.vector m)) {key : String} (hne : key ≠ r.key) :
    (r.write m each s).entries.lookup key = (r.cleared m each s).entries.lookup key := by
  rcases Record.write_cases haccounted hbig with ⟨-, heq⟩ | ⟨-, heq⟩
  · rw [heq]
    exact AList.lookup_insert_ne hne
  · rw [heq]

/-- A record that is not too big is there after its write just when there was room for it. -/
theorem Record.isSome_write (haccounted : Accounted s)
    (hbig : ¬TooBig s r.metadata.category (r.vector m)) :
    ((r.write m each s).entries.lookup r.key).isSome = true ↔ r.HasRoom m each s := by
  rcases Record.write_cases haccounted hbig with ⟨hroom, heq⟩ | ⟨hroom, heq⟩
  · apply iff_of_true _ hroom
    rw [heq]
    exact Option.isSome_iff_exists.mpr ⟨r.entry m each, AList.lookup_insert _⟩
  · apply iff_of_false _ hroom
    have hcleared : Cleared (each r.key).stored (s.removeInternal r.key).2 (r.cleared m each s) :=
      cleared_clearedFor ..
    rw [heq, hcleared.lookup_removed]
    exact Bool.false_ne_true

/-- Of what is there under another key, making room leaves what may not go or does not have to. -/
theorem Record.isSome_cleared (haccounted : Accounted s) {key : String} (hne : key ≠ r.key)
    (hthere : (s.entries.lookup key).isSome = true) :
    ((r.cleared m each s).entries.lookup key).isSome = true ↔
      ∀ entry, s.entries.lookup key = some entry → entry.Evictable (each r.key).stored →
        r.Spares m each s key := by
  have hspared : ((r.cleared m each s).entries.lookup key).isSome = true ↔ r.Spares m each s key :=
    isSome_clearedFor haccounted ..
  constructor
  · intro hleft entry hlookup hevictable
    exact hspared.mp hleft
  · intro hspares
    obtain ⟨entry, hlookup⟩ := Option.isSome_iff_exists.mp hthere
    by_cases hevictable : entry.Evictable (each r.key).stored
    · exact hspared.mpr (hspares entry hlookup hevictable)
    · have hcleared : Cleared (each r.key).stored (s.removeInternal r.key).2 (r.cleared m each s) :=
        cleared_clearedFor ..
      rw [lookup_cleared hcleared hlookup hne hevictable]
      rfl

theorem Record.accounted_write (haccounted : Accounted s) : Accounted (r.write m each s) := by
  obtain ⟨answer, s', heq, hstores⟩ := storeWithOptions_stores (each r.key).order
    (each r.key).stored s r.key (r.vector m) r.metadata r.options
  rw [Record.write, heq]
  exact hstores.accounted haccounted

/-- A step loses nothing just when what was there, and what it writes, is there afterwards. -/
theorem Record.keeps_iff (haccounted : Accounted s) {written : List Record}
    (hkey : ∀ other ∈ written, other.key ≠ r.key)
    (hheld : ∀ other ∈ written, other.durable = true →
      (s.entries.lookup other.key).isSome = true) :
    r.Keeps m each written s ↔ ∀ other ∈ written ++ [r], other.durable = true →
      ((r.write m each s).entries.lookup other.key).isSome = true := by
  simp only [List.mem_append, List.mem_singleton, or_imp, forall_and, forall_eq]
  by_cases hbig : TooBig s r.metadata.category (r.vector m)
  · rw [Record.write_tooBig hbig, Record.Keeps]
    constructor
    · rintro ⟨hthere, -⟩
      exact ⟨hheld, hthere hbig⟩
    · rintro ⟨-, hthere⟩
      exact ⟨fun _ => hthere, fun habsurd => absurd hbig habsurd⟩
  · rw [Record.Keeps, Record.isSome_write haccounted hbig]
    have hothers : (∀ other ∈ written, other.durable = true →
          ((r.write m each s).entries.lookup other.key).isSome = true) ↔
        ∀ other ∈ written, other.durable = true →
          ∀ entry, s.entries.lookup other.key = some entry →
            entry.Evictable (each r.key).stored → r.Spares m each s other.key := by
      apply forall₃_congr
      intro other hother hdurable
      rw [Record.lookup_write_other haccounted hbig (hkey other hother),
        Record.isSome_cleared haccounted (hkey other hother) (hheld other hother hdurable)]
    rw [hothers]
    constructor
    · rintro ⟨-, hkeeps⟩
      exact ⟨(hkeeps hbig).2, (hkeeps hbig).1⟩
    · rintro ⟨hkept, hroom⟩
      exact ⟨fun habsurd => absurd habsurd hbig, fun _ => ⟨hroom, hkept⟩⟩

end

section

variable {m each}

/-- A run of writes loses nothing just when none of its steps does. -/
theorem keepsAll_iff (written rest : List Record) {s : MemoryStore F} (haccounted : Accounted s)
    (hnodup : ((written ++ rest).map Record.key).Nodup)
    (hheld : ∀ r ∈ written, r.durable = true → (s.entries.lookup r.key).isSome = true) :
    KeepsAll m each written rest s ↔ ∀ r ∈ written ++ rest, r.durable = true →
      ((rest.foldl (Record.write m each) s).entries.lookup r.key).isSome = true := by
  induction rest generalizing written s with
  | nil =>
    rw [List.append_nil]
    exact iff_of_true trivial hheld
  | cons r rest ih =>
    have hsplit : written ++ r :: rest = written ++ [r] ++ rest := by simp
    rw [hsplit] at hnodup ⊢
    have hkeys := List.disjoint_of_nodup_append (by rwa [List.map_append] at hnodup)
    have hkey : ∀ other ∈ written, other.key ≠ r.key := by
      rw [List.map_append, List.map_append] at hnodup
      have hfirst := List.disjoint_of_nodup_append (List.Nodup.of_append_left hnodup)
      intro other hother heq
      exact hfirst (List.mem_map_of_mem hother) (by simp [heq])
    rw [KeepsAll, Record.keeps_iff haccounted hkey hheld]
    constructor
    · rintro ⟨hstep, hrest⟩
      exact (ih _ (Record.accounted_write haccounted) hnodup hstep).mp hrest
    · intro hall
      rw [List.foldl_cons] at hall
      -- what is lost at this step is written by no later one
      have hstep : ∀ other ∈ written ++ [r], other.durable = true →
          ((r.write m each s).entries.lookup other.key).isSome = true := by
        intro other hother hdurable
        obtain ⟨entry, hentry⟩ := Option.isSome_iff_exists.mp
          (hall other (List.mem_append_left _ hother) hdurable)
        rcases lookup_writes hentry with hbefore | ⟨later, hlater, heq, -⟩
        · exact Option.isSome_iff_exists.mpr ⟨entry, hbefore⟩
        · exact absurd (heq ▸ List.mem_map_of_mem hlater) (hkeys (List.mem_map_of_mem hother))
      exact ⟨hstep, (ih _ (Record.accounted_write haccounted) hnodup hstep).mpr hall⟩

/-- Re-encoding has worked when every goal and task still has an entry. -/
theorem reencoded_iff {s : MemoryStore F} (hs : Managed s) (hpins : TaskPins s)
    (sight : SnapshotSight) :
    Reencoded m s (reencodeAll m each sight s) ↔
      ∀ r ∈ records (sight.snapshot s), r.durable = true →
        ((reencodeAll m each sight s).entries.lookup r.key).isSome = true := by
  rw [reencodeAll, restoreAll_eq]
  constructor
  · intro hreencoded r hr hdurable
    obtain ⟨entry, hlookup, hentry, -⟩ := durable_of_record hs hpins hr hdurable
    obtain ⟨entry', hlookup', -⟩ := hreencoded.kept hlookup hentry
    exact Option.isSome_iff_exists.mpr ⟨entry', hlookup'⟩
  · intro hheld
    refine ⟨fun {key entry} hlookup hdurable => ?_, fun {key entry'} hlookup' hdurable' => ?_⟩
    · obtain ⟨r, hr, hrecord, rfl, hmetadata, hpinned⟩ :=
        record_of_durable sight hs hpins hlookup hdurable
      obtain ⟨entry', hlookup'⟩ := Option.isSome_iff_exists.mp (hheld r hr hrecord)
      refine ⟨entry', hlookup', ?_⟩
      rcases lookup_writes hlookup' with hbefore | ⟨other, hother, hkey, rfl⟩
      · obtain rfl := Option.some.inj (hlookup.symm.trans hbefore)
        exact ⟨rfl, rfl, .inl rfl⟩
      · obtain rfl := List.inj_on_of_nodup_map (nodup_records hs) hother hr hkey
        refine ⟨hmetadata, hpinned, .inr ?_⟩
        rw [← hmetadata]
        rfl
    · rcases lookup_writes hlookup' with hbefore | ⟨r, hr, rfl, -⟩
      · exact ⟨entry', hbefore, hdurable'⟩
      · obtain ⟨entry, hlookup, hentry, -⟩ :=
          durable_of_record hs hpins hr (record_durable hr hdurable'.ne_statusKey)
        exact ⟨entry, hlookup, hentry⟩

end

end Write

/-- In every store a manager reaches, re-encoding keeps the goals and tasks just when each write of
its run finds room for what it has taken out, and evicts none that has been written. -/
theorem reencode_keeps_goals_iff {s : MemoryStore F} (hreachable : GoalReachable s)
    (m : GoalManager F) (each : String → Moment F) (sight : SnapshotSight) :
    Reencoded m s (reencodeAll m each sight s) ↔
      KeepsAll m each [] (records (sight.snapshot s)) s := by
  have hs := hreachable.managed
  rw [reencoded_iff hs hreachable.taskPins, reencodeAll, restoreAll_eq]
  exact (keepsAll_iff [] _ hs.accounted (nodup_records hs) (by simp)).symm

/-- A manager with an encoder of two floats. -/
def encoded : GoalManager ℚ where
  dModel := 1
  encoder := some fun _ => some [1, 1]

/-- A store with two goals of four bytes. -/
def twoGoals (byteBudget : Nat) : MemoryStore ℚ :=
  (setGoal unencoded undisturbed "second" "fix"
    (setGoal unencoded undisturbed "first" "find" (withBudget 4 byteBudget fun _ => none)).2).2

theorem reachable_twoGoals (byteBudget : Nat) : GoalReachable (twoGoals byteBudget) :=
  .call (.call (.withBudget 4 byteBudget fun _ => none)
    (.setGoal unencoded undisturbed "first" "find" _))
    (.setGoal unencoded undisturbed "second" "fix" _)

theorem reencoded_sixteenBytes :
    Reencoded encoded (twoGoals 16) (reencodeAll encoded (fun _ => atOnce) sightAtOnce
      (twoGoals 16)) := by
  have hreachable := reachable_twoGoals 16
  rw [reencoded_iff hreachable.managed hreachable.taskPins]
  decide +kernel

/-- With two floats each, one goal takes the room of the other, which is removed and not stored. -/
theorem not_reencoded_twelveBytes :
    ¬Reencoded encoded (twoGoals 12) (reencodeAll encoded (fun _ => atOnce) sightAtOnce
      (twoGoals 12)) := by
  have hreachable := reachable_twoGoals 12
  rw [reencoded_iff hreachable.managed hreachable.taskPins]
  decide +kernel

/-- Two floats for each goal are kept in sixteen bytes and not in twelve. -/
theorem reencode_keeps_goals_iff_twoGoals :
    KeepsAll encoded (fun _ => atOnce) [] (records (sightAtOnce.snapshot (twoGoals 16)))
        (twoGoals 16) ∧
      ¬KeepsAll encoded (fun _ => atOnce) [] (records (sightAtOnce.snapshot (twoGoals 12)))
        (twoGoals 12) := by
  constructor
  · exact (reencode_keeps_goals_iff (reachable_twoGoals 16) encoded (fun _ => atOnce)
      sightAtOnce).mp reencoded_sixteenBytes
  · intro hkeeps
    exact not_reencoded_twelveBytes ((reencode_keeps_goals_iff (reachable_twoGoals 12) encoded
      (fun _ => atOnce) sightAtOnce).mpr hkeeps)

theorem reencode_loses_goal :
    ¬ ∀ (s : MemoryStore ℚ) (m : GoalManager ℚ) (each : String → Moment ℚ)
      (sight : SnapshotSight), GoalReachable s → Reencoded m s (reencodeAll m each sight s) := by
  intro hclaim
  exact not_reencoded_twelveBytes
    (hclaim (twoGoals 12) encoded (fun _ => atOnce) sightAtOnce (reachable_twoGoals 12))

end Zllm.ControlPlane

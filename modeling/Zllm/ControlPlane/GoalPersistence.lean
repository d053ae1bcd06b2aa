import Zllm.ControlPlane.GoalFile

/-!
# Goals across a restart

`save` writes a snapshot to the file, `load_from_disk` reads it back and restores its records into
an empty store. What a store held under its budgets fits there again, vector by vector of the same
width, so nothing is evicted or refused.
-/

namespace Zllm.ControlPlane

open Engine Engine.MemoryStore Ledger

variable {F : Type} [Zero F]

/-- How a state is written to a file and read from it: `serde_json::to_string_pretty` and
`from_str`. -/
structure StateFormat where
  toStringPretty : PersistedState → String
  fromStr : String → Option PersistedState

omit [Zero F] in
def save (format : StateFormat) (sight : SnapshotSight) (s : MemoryStore F) : String :=
  format.toStringPretty (sight.snapshot s)

/-- A file that is not there, or that does not parse, leaves the store as it is. -/
def loadFromDisk (format : StateFormat) (m : GoalManager F) (each : String → Moment F)
    (file : Option String) (s : MemoryStore F) : MemoryStore F :=
  match file.bind format.fromStr with
  | some state => restoreAll m each state s
  | none => s

/-- The stores a manager's own calls reach, with no other user. -/
inductive CallReachable : MemoryStore F → Prop
  | withBudget (maxEntries byteBudget : Nat) (categoryBudgets : MemoryCategory → Option Nat) :
      CallReachable (withBudget maxEntries byteBudget categoryBudgets)
  | call {s : MemoryStore F} (hreachable : CallReachable s) (call : Mutation F) :
      CallReachable (call.call s).2

/-- An empty store of the same limits. -/
def emptied (s : MemoryStore F) : MemoryStore F :=
  withBudget s.maxEntries s.byteBudget s.categoryBudgets

/-- What an entry says of its goal or task: its record, its pin and its expiry. -/
def held (s : MemoryStore F) (key : String) : Option (MemoryMetadata × Bool × Option Nat) :=
  (s.entries.lookup key).map fun entry => (entry.metadata, entry.pinned, entry.expiresAt)

/-- The record under a key, unless it has expired at this reading of the clock. -/
def unexpired (now : Nat) (s : MemoryStore F) (key : String) : Option MemoryMetadata :=
  ((s.entries.lookup key).filter fun entry => !entry.isExpired now).map MemoryEntry.metadata

/-- The entries of `s'` are those of the goals and tasks of `s`, with the records and pins they have
there, and up to an expiry that of the status, if it had not expired in `s` at the reading `now`. -/
structure SamePicture (now expiry : Nat) (s s' : MemoryStore F) : Prop where
  goals : ∀ goalId, held s' (goalKey goalId) = held s (goalKey goalId)
  tasks : ∀ taskId, held s' (taskKey taskId) = held s (taskKey taskId)
  status : ∀ later, later < expiry → unexpired later s' statusKey = unexpired now s statusKey
  no_other : ∀ {key entry}, s'.entries.lookup key = some entry →
    (∃ goalId, key = goalKey goalId) ∨ (∃ taskId, key = taskKey taskId) ∨ key = statusKey

/-! ### The status entry -/

/-- Beside goals and tasks there is only the status. -/
structure OnlyStatus (s : MemoryStore F) : Prop where
  status : ∀ {key entry}, s.entries.lookup key = some entry →
    Foreign key entry.metadata.category →
    key = statusKey ∧ ∃ st, entry.metadata = statusMetadata st

section

variable {s : MemoryStore F}

theorem CallReachable.goalReachable (hreachable : CallReachable s) : GoalReachable s := by
  induction hreachable with
  | withBudget maxEntries byteBudget categoryBudgets =>
    exact .withBudget maxEntries byteBudget categoryBudgets
  | call _ call ih => exact .call ih (call.section _)

/-- A call leaves an entry that is no goal's or task's as it was, or is the new status. -/
theorem Mutation.lookup_foreign (hs : Managed s) (call : Mutation F) {key : String}
    {entry : MemoryEntry F} (hlookup : (call.call s).2.entries.lookup key = some entry)
    (hforeign : Foreign key entry.metadata.category) :
    s.entries.lookup key = some entry ∨
      key = statusKey ∧ ∃ st, entry.metadata = statusMetadata st := by
  cases call with
  | setGoal m amb goalId text =>
    rcases lookup_storeWithOptions hlookup with hbefore | ⟨rfl, -⟩
    · rw [(clears_currentKeys hs amb.each amb.query).1.other hforeign.ne_goalKey] at hbefore
      exact .inl hbefore
    · exact absurd rfl (hforeign.ne_goalKey goalId)
  | setCurrent amb goalId =>
    rw [Mutation.call] at hlookup
    cases hgoal : s.entries.lookup (goalKey goalId) with
    | none =>
      rw [setCurrent_of_lookup_eq_none amb hgoal] at hlookup
      exact .inl hlookup
    | some goal =>
      rw [(setCurrent_sets hs amb hgoal).2.2 hforeign.ne_goalKey] at hlookup
      exact .inl hlookup
  | addTask m moment taskId goalId text =>
    rcases lookup_storeWithOptions hlookup with hbefore | ⟨rfl, -⟩
    · exact .inl hbefore
    · exact absurd rfl (hforeign.ne_taskKey taskId)
  | updateTask moment taskId status =>
    rw [Mutation.call, ControlPlane.updateTask] at hlookup
    cases htask : s.entries.lookup (taskKey taskId) with
    | none =>
      rw [retag_of_lookup_eq_none moment _ _ htask] at hlookup
      exact .inl hlookup
    | some task =>
      obtain ⟨t, ht, -⟩ := hs.task_of_key htask
      obtain ⟨s', heq, hrewritten⟩ := retag_of_lookup moment (withStatus status)
        (taskOptions status) hs htask ht.expiresAt
      rw [heq, hrewritten.others key (hforeign.ne_taskKey taskId)] at hlookup
      exact .inl hlookup
  | setStatus m amb text =>
    rcases lookup_storeWithOptions hlookup with hbefore | ⟨rfl, rfl⟩
    · exact .inl hbefore
    · exact .inr ⟨rfl, _, rfl⟩

theorem CallReachable.onlyStatus (hreachable : CallReachable s) : OnlyStatus s := by
  induction hreachable with
  | withBudget maxEntries byteBudget categoryBudgets =>
    exact ⟨fun hlookup => by cases hlookup⟩
  | call hbefore call ih =>
    refine ⟨fun hlookup hforeign => ?_⟩
    rcases call.lookup_foreign hbefore.goalReachable.managed hlookup hforeign with hsame | hstatus
    · exact ih.status hsame hforeign
    · exact hstatus

omit [Zero F] in
theorem toStatus_statusMetadata (st : StatusEntry) : toStatus (statusMetadata st) = st := by
  have hid : extractId (statusMetadata st).tags "goal:" = some st.goalId := by
    rw [extractId, statusMetadata, List.findSome?_cons, stripStart_append]
  rw [toStatus, hid]
  rfl

omit [Zero F] in
/-- The status stands under its key alone. -/
theorem OnlyStatus.statusAt_iff (honly : OnlyStatus s) (hs : Managed s) {now : Nat}
    {entry : MemoryEntry F} :
    StatusAt now s entry ↔ ∃ st, s.entries.lookup statusKey = some entry ∧
      entry.metadata = statusMetadata st ∧ entry.isExpired now = false := by
  constructor
  · rintro ⟨key, hlookup, hcategory, hexpired⟩
    have hforeign : Foreign key entry.metadata.category := by
      rcases hs.entryOk hlookup with ⟨g, hg⟩ | ⟨t, ht⟩ | hforeign
      · rw [hg.metadata] at hcategory
        cases hcategory
      · rw [ht.metadata] at hcategory
        cases hcategory
      · exact hforeign
    obtain ⟨rfl, st, hmetadata⟩ := honly.status hlookup hforeign
    exact ⟨st, hlookup, hmetadata, hexpired⟩
  · rintro ⟨st, hlookup, hmetadata, hexpired⟩
    refine ⟨statusKey, hlookup, ?_, hexpired⟩
    rw [hmetadata]
    rfl

omit [Zero F] in
/-- A snapshot's status is that of the entry that has not expired. -/
theorem snapshot_status (hs : Managed s) (honly : OnlyStatus s) {sight : SnapshotSight}
    {st : StatusEntry} :
    (sight.snapshot s).status = some st ↔ ∃ entry, s.entries.lookup statusKey = some entry ∧
      entry.metadata = statusMetadata st ∧ entry.isExpired sight.status.now = false := by
  have hmem : ∀ entry, entry ∈ s.queryByCategory sight.status.keys sight.status.now .status ↔
      ∃ st, s.entries.lookup statusKey = some entry ∧ entry.metadata = statusMetadata st ∧
        entry.isExpired sight.status.now = false :=
    fun entry => (mem_query_status hs).trans (honly.statusAt_iff hs)
  have hlatest : (sight.snapshot s).status =
      (latest (s.queryByCategory sight.status.keys sight.status.now .status)).map fun entry =>
        toStatus entry.metadata := rfl
  rw [hlatest, Option.map_eq_some_iff]
  constructor
  · rintro ⟨entry, hentry, rfl⟩
    obtain ⟨st, hlookup, hmetadata, hexpired⟩ := (hmem entry).mp (latest_mem hentry)
    rw [hmetadata, toStatus_statusMetadata]
    exact ⟨entry, hlookup, hmetadata, hexpired⟩
  · rintro ⟨entry, hlookup, hmetadata, hexpired⟩
    have hentry := (hmem entry).mpr ⟨st, hlookup, hmetadata, hexpired⟩
    refine ⟨entry, ?_, by rw [hmetadata, toStatus_statusMetadata]⟩
    cases hcase : latest (s.queryByCategory sight.status.keys sight.status.now .status) with
    | none => exact absurd hcase (latest_ne_none hentry)
    | some other =>
      obtain ⟨-, hother, -⟩ := (hmem other).mp (latest_mem hcase)
      exact hother.symm.trans hlookup

end

/-! ### Restoring into an empty store -/

section

variable {s t : MemoryStore F} {width : Nat}

omit [Zero F] in
/-- A store of vectors of one width whose entries are all found in `s`, under its limits. -/
structure Within (width : Nat) (s t : MemoryStore F) : Prop where
  managed : Managed t
  limits : SameLimits s t
  copied : ∀ {key entry}, t.entries.lookup key = some entry →
    ∃ source, s.entries.lookup key = some source ∧
      entry.metadata.category = source.metadata.category
  width : ∀ {key entry}, t.entries.lookup key = some entry →
    entry.byteSize = width * sizeOfF32

omit [Zero F] in
theorem within_emptied (width : Nat) (s : MemoryStore F) : Within width s (emptied s) where
  managed := managed_withBudget _ _ _
  limits := ⟨rfl, rfl, rfl⟩
  copied hlookup := by cases hlookup
  width hlookup := by cases hlookup

omit [Zero F] in
/-- Beside what is found in `s` under other keys there is room for what `s` has under this one. -/
theorem Within.fits (hwithin : Within width s t) (hs : Managed s)
    (hwidth : ∀ {key entry}, s.entries.lookup key = some entry → entry.vector.length = width)
    {key : String} {source : MemoryEntry F} (hsource : s.entries.lookup key = some source) :
    (t.removeInternal key).2.fits source.metadata.category (width * sizeOfF32) = true := by
  have hsize : ∀ {key entry}, s.entries.lookup key = some entry →
      entry.byteSize = width * sizeOfF32 := by
    intro key entry hlookup
    rw [hs.sound.byteSize hlookup, hwidth hlookup]
  have hlookup : ∀ {other entry}, (t.entries.erase key).lookup other = some entry →
      ∃ found, (s.entries.erase key).lookup other = some found ∧
        entry.metadata.category = found.metadata.category ∧ entry.byteSize = found.byteSize := by
    intro other entry hentry
    obtain ⟨hne, hentry⟩ := lookup_erase_eq_some.mp hentry
    obtain ⟨found, hfound, hcategory⟩ := hwithin.copied hentry
    exact ⟨found, lookup_erase_eq_some.mpr ⟨hne, hfound⟩, hcategory,
      (hwithin.width hentry).trans (hsize hfound).symm⟩
  have hbytes : total MemoryEntry.byteSize (t.entries.erase key) ≤
      total MemoryEntry.byteSize (s.entries.erase key) := by
    apply total_le_of_lookup
    intro other entry hentry
    obtain ⟨found, hfound, -, heq⟩ := hlookup hentry
    exact ⟨found, hfound, heq.le⟩
  have hcategory : totalOf (fun entry => entry.metadata.category) MemoryEntry.byteSize
      source.metadata.category (t.entries.erase key) ≤
        totalOf (fun entry => entry.metadata.category) MemoryEntry.byteSize
          source.metadata.category (s.entries.erase key) := by
    apply total_le_of_lookup
    intro other entry hentry
    obtain ⟨found, hfound, hcategory, heq⟩ := hlookup hentry
    refine ⟨found, hfound, ?_⟩
    simp only [hcategory, heq, le_refl]
  have hcount : total (fun _ => 1) (t.entries.erase key) ≤
      total (fun _ => 1) (s.entries.erase key) := by
    apply total_le_of_lookup
    intro other entry hentry
    obtain ⟨found, hfound, -⟩ := hlookup hentry
    exact ⟨found, hfound, le_rfl⟩
  -- the same entry goes into `s` where it has been taken out
  have hfits := fits_removed hs.accounted hsource
  rw [hsize hsource, fits_iff_totals (hs.accounted.removeInternal key), removeInternal_entries,
    (removeInternal_limits s key).byteBudget, (removeInternal_limits s key).categoryBudget,
    (removeInternal_limits s key).maxEntries] at hfits
  rw [fits_iff_totals (hwithin.managed.accounted.removeInternal key), removeInternal_entries,
    (removeInternal_limits t key).byteBudget, (removeInternal_limits t key).categoryBudget,
    (removeInternal_limits t key).maxEntries, hwithin.limits.byteBudget,
    hwithin.limits.categoryBudget, hwithin.limits.maxEntries]
  obtain ⟨hfitsBytes, hfitsCategory, hfitsCount⟩ := hfits
  refine ⟨?_, ?_, ?_⟩
  · omega
  · omega
  · omega

/-- The source of a record: the entry it was taken from. -/
def HasSource (s : MemoryStore F) (r : Record) : Prop :=
  ∃ source, s.entries.lookup r.key = some source ∧ source.metadata = r.metadata

omit [Zero F] in
theorem hasSource_of_mem (hs : Managed s) (hpins : TaskPins s) (honly : OnlyStatus s)
    {sight : SnapshotSight} {r : Record} (hr : r ∈ records (sight.snapshot s)) : HasSource s r := by
  rcases mem_records.mp hr with ⟨g, -, rfl⟩ | ⟨t, -, rfl⟩ | ⟨st, hstatus, rfl⟩
  · obtain ⟨source, hlookup, -, hmetadata, -⟩ :=
      durable_of_record hs hpins hr (goalRecord_durable g)
    exact ⟨source, hlookup, hmetadata⟩
  · obtain ⟨source, hlookup, -, hmetadata, -⟩ :=
      durable_of_record hs hpins hr (taskRecord_durable t)
    exact ⟨source, hlookup, hmetadata⟩
  · obtain ⟨source, hlookup, hmetadata, -⟩ := (snapshot_status hs honly).mp hstatus
    exact ⟨source, hlookup, hmetadata⟩

variable {m : GoalManager F} (each : String → Moment F) {state : PersistedState}

/-- Writing a record back only adds its entry. -/
theorem Within.write (hwithin : Within width s t) (hs : Managed s)
    (hwidth : ∀ {key entry}, s.entries.lookup key = some entry → entry.vector.length = width)
    (hencode : ∀ text, (m.encode text).length = width) {r : Record} (hr : r ∈ records state)
    (hsource : HasSource s r) :
    Within width s (r.write m each t) ∧
      (r.write m each t).entries.lookup r.key = some (r.entry m each) ∧
      ∀ {key}, key ≠ r.key → (r.write m each t).entries.lookup key = t.entries.lookup key := by
  obtain ⟨source, hlookup, hmetadata⟩ := hsource
  have hvector : (r.vector m).length = width := hencode _
  have hfits := hwithin.fits hs hwidth hlookup
  rw [hmetadata, ← hvector] at hfits
  have hwrite : r.write m each t = (t.removeInternal r.key).2.insertEntry (r.entry m each) :=
    congrArg Prod.snd (storeWithOptions_of_fits t (each r.key).order (each r.key).stored r.key
      (r.vector m) r.metadata r.options hfits)
  have hentries : (r.write m each t).entries =
      (t.entries.erase r.key).insert r.key (r.entry m each) := by
    rw [hwrite, ← removeInternal_entries]
    rfl
  have hsame : (r.write m each t).entries.lookup r.key = some (r.entry m each) := by
    rw [hentries]
    exact AList.lookup_insert _
  have hother : ∀ {key}, key ≠ r.key →
      (r.write m each t).entries.lookup key = t.entries.lookup key := by
    intro key hne
    rw [hentries, AList.lookup_insert_ne hne, AList.lookup_erase_ne hne]
  refine ⟨?_, hsame, hother⟩
  refine {
    managed := hwithin.managed.stores _ (entryOk_record hr m each)
    limits := ?_
    copied := ?_
    width := ?_
  }
  · have hremoved := removeInternal_limits t r.key
    rw [hwrite]
    exact hwithin.limits.trans
      ⟨hremoved.maxEntries, hremoved.byteBudget, hremoved.categoryBudgets⟩
  · intro key entry hentry
    rcases Record.lookup_write hentry with hbefore | ⟨rfl, rfl⟩
    · exact hwithin.copied hbefore
    · exact ⟨source, hlookup, congrArg MemoryMetadata.category hmetadata.symm⟩
  · intro key entry hentry
    rcases Record.lookup_write hentry with hbefore | ⟨rfl, rfl⟩
    · exact hwithin.width hbefore
    · show (r.vector m).length * sizeOfF32 = _
      rw [hvector]

theorem Within.writes (hwithin : Within width s t) (hs : Managed s)
    (hwidth : ∀ {key entry}, s.entries.lookup key = some entry → entry.vector.length = width)
    (hencode : ∀ text, (m.encode text).length = width) {rest : List Record}
    (hrest : ∀ r ∈ rest, r ∈ records state) (hsource : ∀ r ∈ rest, HasSource s r)
    (hnodup : (rest.map Record.key).Nodup) :
    Within width s (rest.foldl (Record.write m each) t) ∧
      (∀ r ∈ rest, (rest.foldl (Record.write m each) t).entries.lookup r.key =
        some (r.entry m each)) ∧
      ∀ key, (∀ r ∈ rest, key ≠ r.key) →
        (rest.foldl (Record.write m each) t).entries.lookup key = t.entries.lookup key := by
  induction rest generalizing t with
  | nil => exact ⟨hwithin, fun _ hmem => absurd hmem List.not_mem_nil, fun _ _ => rfl⟩
  | cons r rest ih =>
    rw [List.forall_mem_cons] at hrest hsource
    obtain ⟨hstep, hsame, hother⟩ := hwithin.write each hs hwidth hencode hrest.1 hsource.1
    rw [List.map_cons, List.nodup_cons] at hnodup
    obtain ⟨hfinal, hwritten, hframe⟩ := ih hstep hrest.2 hsource.2 hnodup.2
    refine ⟨hfinal, ?_, ?_⟩
    · intro other hmem
      rcases List.mem_cons.mp hmem with rfl | hmem
      · rw [List.foldl_cons, hframe other.key, hsame]
        intro later hlater heq
        exact hnodup.1 (heq ▸ List.mem_map_of_mem hlater)
      · exact hwritten other hmem
    · intro key hkey
      rw [List.forall_mem_cons] at hkey
      rw [List.foldl_cons, hframe key hkey.2, hother hkey.1]

/-- A store restored from a snapshot holds the entries of its records, and nothing else. -/
theorem lookup_restored (hs : Managed s) (hpins : TaskPins s) (honly : OnlyStatus s)
    (hwidth : ∀ {key entry}, s.entries.lookup key = some entry → entry.vector.length = width)
    (hencode : ∀ text, (m.encode text).length = width) (sight : SnapshotSight) :
    ∀ {key entry},
      (restoreAll m each (sight.snapshot s) (emptied s)).entries.lookup key = some entry ↔
        ∃ r ∈ records (sight.snapshot s), r.key = key ∧ entry = r.entry m each := by
  rw [restoreAll_eq]
  obtain ⟨-, hwritten, -⟩ := (within_emptied width s).writes each hs hwidth hencode
    (fun r hr => hr) (fun r hr => hasSource_of_mem hs hpins honly hr) (nodup_records hs)
  refine fun {key entry} => ⟨fun hlookup => ?_, ?_⟩
  · rcases lookup_writes hlookup with habsurd | hrecord
    · cases habsurd
    · exact hrecord
  · rintro ⟨r, hr, rfl, rfl⟩
    exact hwritten r hr

/-! ### The restored picture -/

/-- The entries of a store restored from a snapshot of `s`. -/
def Restored (m : GoalManager F) (each : String → Moment F) (sight : SnapshotSight)
    (s t : MemoryStore F) : Prop :=
  ∀ {key entry}, t.entries.lookup key = some entry ↔
    ∃ r ∈ records (sight.snapshot s), r.key = key ∧ entry = r.entry m each

variable {each} {sight : SnapshotSight}

theorem Record.expiresAt_entry {r : Record} (hdurable : r.durable = true) :
    (r.entry m each).expiresAt = none := by
  have hnone : r.options.ttlSeconds = none := Option.isNone_iff_eq_none.mp hdurable
  show r.options.ttlSeconds.map _ = none
  rw [hnone, Option.map_none]

/-- A goal's or task's key has after the restart what it had before. -/
theorem Restored.held (hrestored : Restored m each sight s t) (hs : Managed s)
    (hpins : TaskPins s) {key : String} (hne : key ≠ statusKey)
    (hdurable : ∀ {entry}, s.entries.lookup key = some entry → Durable key entry) :
    held t key = held s key := by
  rw [ControlPlane.held, ControlPlane.held]
  cases hlookup : s.entries.lookup key with
  | none =>
    rw [Option.map_none, Option.map_eq_none_iff, Option.eq_none_iff_forall_ne_some]
    intro entry hentry
    obtain ⟨r, hr, rfl, -⟩ := hrestored.mp hentry
    obtain ⟨source, hsource, -⟩ := durable_of_record hs hpins hr (record_durable hr hne)
    rw [hlookup] at hsource
    cases hsource
  | some entry =>
    have hentry := hdurable hlookup
    obtain ⟨r, hr, hrecord, hkey, hmetadata, hpinned⟩ :=
      record_of_durable sight hs hpins hlookup hentry
    have hwritten : t.entries.lookup key = some (r.entry m each) :=
      hrestored.mpr ⟨r, hr, hkey, rfl⟩
    rw [hwritten, Option.map_some, Option.map_some, hentry.expiresAt,
      Record.expiresAt_entry hrecord, ← hmetadata, ← hpinned]
    rfl

omit [Zero F] in
theorem unexpired_eq_some {now : Nat} {key : String} {metadata : MemoryMetadata} :
    unexpired now s key = some metadata ↔ ∃ entry, s.entries.lookup key = some entry ∧
      entry.metadata = metadata ∧ entry.isExpired now = false := by
  simp [unexpired, Option.map_eq_some_iff, Option.filter_eq_some_iff, and_assoc, and_comm]

/-- The restored status lasts until its own expiry, which counts from when it was restored. -/
theorem Restored.status (hrestored : Restored m each sight s t) (hs : Managed s)
    (honly : OnlyStatus s) {later : Nat}
    (hlater : later < ((each statusKey).stored + statusTtlSeconds) % 2 ^ 64) :
    unexpired later t statusKey = unexpired sight.status.now s statusKey := by
  ext metadata
  rw [unexpired_eq_some, unexpired_eq_some]
  constructor
  · rintro ⟨entry, hlookup, rfl, -⟩
    obtain ⟨r, hr, hkey, rfl⟩ := hrestored.mp hlookup
    rcases mem_records.mp hr with ⟨g, -, rfl⟩ | ⟨task, -, rfl⟩ | ⟨st, hstatus, rfl⟩
    · exact absurd hkey.symm (statusKey_ne_goalKey g.goalId)
    · exact absurd hkey.symm (statusKey_ne_taskKey task.taskId)
    · exact (snapshot_status hs honly).mp hstatus
  · rintro ⟨entry, hlookup, rfl, hexpired⟩
    have hforeign : Foreign statusKey entry.metadata.category := by
      rcases hs.entryOk hlookup with ⟨g, hg⟩ | ⟨task, ht⟩ | hforeign
      · exact absurd hg.key (statusKey_ne_goalKey g.goalId)
      · exact absurd ht.key (statusKey_ne_taskKey task.taskId)
      · exact hforeign
    obtain ⟨-, st, hst⟩ := honly.status hlookup hforeign
    have hstatus : (sight.snapshot s).status = some st :=
      (snapshot_status hs honly).mpr ⟨entry, hlookup, hst, hexpired⟩
    refine ⟨(statusRecord st).entry m each,
      hrestored.mpr ⟨_, mem_records.mpr (.inr (.inr ⟨st, hstatus, rfl⟩)), rfl, rfl⟩, hst.symm, ?_⟩
    have hexpires : ((statusRecord st).entry m each).expiresAt =
        some (((each statusKey).stored + statusTtlSeconds) % 2 ^ 64) := rfl
    rw [MemoryEntry.isExpired, hexpires]
    exact decide_eq_false (Nat.not_le.mpr hlater)

theorem Restored.no_other (hrestored : Restored m each sight s t) {key : String}
    {entry : MemoryEntry F} (hlookup : t.entries.lookup key = some entry) :
    (∃ goalId, key = goalKey goalId) ∨ (∃ taskId, key = taskKey taskId) ∨ key = statusKey := by
  obtain ⟨r, hr, rfl, -⟩ := hrestored.mp hlookup
  rcases mem_records.mp hr with ⟨g, -, rfl⟩ | ⟨task, -, rfl⟩ | ⟨st, -, rfl⟩
  · exact .inl ⟨g.goalId, rfl⟩
  · exact .inr (.inl ⟨task.taskId, rfl⟩)
  · exact .inr (.inr rfl)

end

/-- A store that a manager's calls reach, with vectors of one width, is the same after its file has
been loaded into an empty store of its limits with an encoder of that width. -/
theorem persistence_round_trips {format : StateFormat} {m : GoalManager F} {s : MemoryStore F}
    {sight : SnapshotSight} {width : Nat} (each : String → Moment F)
    (hreachable : CallReachable s)
    (hwidth : ∀ {key entry}, s.entries.lookup key = some entry → entry.vector.length = width)
    (hencode : ∀ text, (m.encode text).length = width)
    (hformat : format.fromStr (format.toStringPretty (sight.snapshot s)) =
      some (sight.snapshot s)) :
    SamePicture sight.status.now (((each statusKey).stored + statusTtlSeconds) % 2 ^ 64) s
      (loadFromDisk format m each (some (save format sight s)) (emptied s)) := by
  have hs := hreachable.goalReachable.managed
  have hpins := hreachable.goalReachable.taskPins
  have hload : loadFromDisk format m each (some (save format sight s)) (emptied s) =
      restoreAll m each (sight.snapshot s) (emptied s) := by
    rw [loadFromDisk, save, Option.bind_some, hformat]
  have hrestored : Restored m each sight s
      (loadFromDisk format m each (some (save format sight s)) (emptied s)) := by
    rw [hload]
    exact lookup_restored each hs hpins hreachable.onlyStatus hwidth hencode sight
  refine {
    goals := fun goalId => ?_
    tasks := fun taskId => ?_
    status := fun later hlater => hrestored.status hs hreachable.onlyStatus hlater
    no_other := hrestored.no_other
  }
  · apply hrestored.held hs hpins (statusKey_ne_goalKey goalId).symm
    intro entry hlookup
    obtain ⟨g, hg, -⟩ := hs.goal_of_key hlookup
    exact .inl ⟨g, hg⟩
  · apply hrestored.held hs hpins (statusKey_ne_taskKey taskId).symm
    intro entry hlookup
    obtain ⟨task, ht, -⟩ := hs.task_of_key hlookup
    exact .inr ⟨task, ht⟩

/-! ### A file -/

/-- An object or a list as `to_string_pretty` lays it out at a depth. -/
def layOut (opening closing : String) (depth : Nat) (items : List String) : String :=
  let indent := fun depth => "".pushn ' ' (2 * depth)
  if items = [] then opening ++ closing
  else
    opening ++ "\n" ++ ",\n".intercalate (items.map fun item => indent (depth + 1) ++ item) ++
      "\n" ++ indent depth ++ closing

def objectText (depth : Nat) (fields : List (String × String)) : String :=
  layOut "\x7b" "\x7d" depth (fields.map fun field => "\"" ++ field.1 ++ "\": " ++ field.2)

/-- A string without characters to escape. -/
def plainText (text : String) : String := "\"" ++ text ++ "\""

def TaskStatus.variantName : TaskStatus → String
  | active => "Active"
  | done => "Done"
  | blocked => "Blocked"

def plainState (state : PersistedState) : String :=
  objectText 0
    [("goals", layOut "[" "]" 1 (state.goals.map fun g =>
        objectText 2 [("goal_id", plainText g.goalId), ("text", plainText g.text),
          ("is_current", toString g.isCurrent)])),
      ("tasks", layOut "[" "]" 1 (state.tasks.map fun t =>
        objectText 2 [("task_id", plainText t.taskId), ("goal_id", plainText t.goalId),
          ("text", plainText t.text), ("status", plainText t.status.variantName)])),
      ("status", match state.status with
        | some st => objectText 1 [("text", plainText st.text), ("goal_id", plainText st.goalId)]
        | none => "null")]

/-- The format on one state. -/
def plainFormat (state : PersistedState) : StateFormat where
  toStringPretty := plainState
  fromStr text := if text = plainState state then some state else none

theorem fromStr_plainFormat (state : PersistedState) :
    (plainFormat state).fromStr ((plainFormat state).toStringPretty state) = some state :=
  if_pos rfl

/-- A goal with a finished task and a status. -/
def finished : MemoryStore ℚ :=
  ((Mutation.setStatus unencoded undisturbed "shipped").call
    ((Mutation.updateTask atOnce "second" .done).call
      (addSecond.call (setFirst.call (withBudget 4 64 fun _ => none)).2).2).2).2

theorem finished_reachable : CallReachable finished :=
  .call (.call (.call (.call (.withBudget 4 64 fun _ => none) setFirst) addSecond) _) _

theorem finished_width {key : String} {entry : MemoryEntry ℚ}
    (hlookup : finished.entries.lookup key = some entry) : entry.vector.length = 1 := by
  have hall : ∀ held ∈ finished.entries.entries, held.2.vector.length = 1 := by decide +kernel
  exact hall ⟨key, entry⟩ (AList.mem_lookup_iff.mp hlookup)

theorem persistence_round_trips_finished :
    SamePicture sightAtOnce.status.now ((atOnce.stored + statusTtlSeconds) % 2 ^ 64) finished
      (loadFromDisk (plainFormat (sightAtOnce.snapshot finished)) unencoded (fun _ => atOnce)
        (some (save (plainFormat (sightAtOnce.snapshot finished)) sightAtOnce finished))
        (emptied finished)) :=
  persistence_round_trips (fun _ => atOnce) finished_reachable finished_width (fun _ => rfl)
    (fromStr_plainFormat _)

end Zllm.ControlPlane

import Zllm.ControlPlane.GoalEntries

/-!
# What the goal manager's calls do

An entry whose tags are rewritten goes back in over its own size, so nothing is evicted; a new one
may evict what is not pinned, which no goal and no unfinished task is.
-/

namespace Zllm.ControlPlane

open Engine Engine.MemoryStore Ledger

variable {F : Type}

/-! ### Storing beside other entries -/

section

variable {s s' : MemoryStore F} {now : Nat} {entry : MemoryEntry F}
  {answer : Except StoreError Unit}

/-- An entry under another key stays, unless it was one that making room may give up. -/
theorem lookup_stores_other (hstores : Stores now s entry answer s') {key : String}
    {other : MemoryEntry F} (hne : key ≠ entry.key) (hlookup : s.entries.lookup key = some other)
    (hfirm : ¬other.Evictable now) : s'.entries.lookup key = some other := by
  have hroom : ∀ {room : MemoryStore F}, Cleared now (s.removeInternal entry.key).2 room →
      room.entries.lookup key = some other := by
    intro room hcleared
    apply hcleared.drains.keeps _ hfirm
    rw [removeInternal_entries]
    exact lookup_erase_eq_some.mpr ⟨hne, hlookup⟩
  cases hstores with
  | oversize hsize => exact hlookup
  | full hsize hcleared hfits hfirm => exact hroom hcleared
  | stored hcleared hfits =>
    exact lookup_insert_eq_some.mpr (.inr ⟨hne, hroom hcleared⟩)

/-- The new entry is in the store just when the call succeeded, if its key was free. -/
theorem lookup_stores_new (hstores : Stores now s entry answer s')
    (hnew : s.entries.lookup entry.key = none) :
    s'.entries.lookup entry.key = some entry ∧ answer = .ok () ∨
      s'.entries.lookup entry.key = none ∧ answer ≠ .ok () := by
  cases hstores with
  | oversize hsize => exact .inr ⟨hnew, by simp⟩
  | full hsize hcleared hfits hfirm => exact .inr ⟨hcleared.lookup_removed, by simp⟩
  | stored hcleared hfits => exact .inl ⟨AList.lookup_insert _, rfl⟩

theorem GoalEntry.firm {key : String} {g : Goal} (hg : GoalEntry key entry g) (now : Nat) :
    ¬entry.Evictable now := by
  rintro (hexpired | hpinned)
  · rw [isExpired_of_none hg.expiresAt] at hexpired
    cases hexpired
  · rw [hg.pinned] at hpinned
    cases hpinned

theorem TaskEntry.firm {key : String} {t : Task} (ht : TaskEntry key entry t)
    (hstatus : t.status ≠ .done) (now : Nat) : ¬entry.Evictable now := by
  rintro (hexpired | hpinned)
  · rw [isExpired_of_none ht.expiresAt] at hexpired
    cases hexpired
  · rw [ht.pinned hstatus] at hpinned
    cases hpinned

end

/-! ### Rewriting tags -/

/-- The entry `entry` under a key has become `entry'`, of the same size, and nothing else has
changed. -/
structure Rewritten (s s' : MemoryStore F) (key : String) (entry entry' : MemoryEntry F) :
    Prop where
  same : s'.entries.lookup key = some entry'
  others : ∀ other ≠ key, s'.entries.lookup other = s.entries.lookup other
  limits : SameLimits s s'
  total_eq : ∀ f : MemoryEntry F → Nat, f entry.accessed = f entry → f entry' = f entry →
    total f s'.entries = total f s.entries

section Retag

variable {s : MemoryStore F} {key : String} {entry : MemoryEntry F}

theorem retag_of_lookup_eq_none (moment : Moment F) (tags : List String → List String)
    (options : StoreOptions) (hlookup : s.entries.lookup key = none) :
    retag moment s key tags options = (false, s) := by
  rw [retag, MemoryStore.get, hlookup]

/-- The entry that rewriting the tags of another leaves. -/
def retagged (moment : Moment F) (key : String) (entry : MemoryEntry F)
    (tags : List String → List String) (options : StoreOptions) : MemoryEntry F :=
  newEntry moment.stored key entry.vector
    { entry.metadata with tags := tags entry.metadata.tags } options

theorem retag_of_lookup (moment : Moment F) (tags : List String → List String)
    (options : StoreOptions) (hs : Managed s) (hlookup : s.entries.lookup key = some entry)
    (hexpires : entry.expiresAt = none) :
    ∃ s', retag moment s key tags options = (true, s') ∧
      Rewritten s s' key entry (retagged moment key entry tags options) := by
  let read : MemoryStore F := { s with entries := s.entries.insert key entry.accessed }
  have hget : s.get moment.got key = (some entry.accessed, read) := by
    rw [MemoryStore.get, hlookup]
    dsimp only
    rw [if_neg (by rw [isExpired_of_none hexpires]; exact Bool.false_ne_true)]
  have hread := hs.access hlookup
  have hsame : read.entries.lookup key = some entry.accessed := AList.lookup_insert s.entries
  have hstore : read.storeWithOptions moment.order moment.stored key entry.vector
      { entry.metadata with tags := tags entry.metadata.tags } options =
      (some (.ok ()),
        (read.removeInternal key).2.insertEntry (retagged moment key entry tags options)) :=
    storeWithOptions_replaces hread.accounted hread.sound hsame moment.order moment.stored options
      rfl rfl
  refine ⟨(read.removeInternal key).2.insertEntry (retagged moment key entry tags options), ?_, ?_⟩
  · rw [retag, hget]
    exact congrArg (fun outcome => (true, outcome.2)) hstore
  · have hfree : (read.entries.erase key).lookup key = none := AList.lookup_erase key read.entries
    have hentries : ((read.removeInternal key).2.insertEntry
        (retagged moment key entry tags options)).entries =
        (read.entries.erase key).insert key (retagged moment key entry tags options) := by
      rw [← removeInternal_entries]
      rfl
    refine {
      same := ?_
      others := ?_
      limits := ?_
      total_eq := ?_
    }
    · rw [hentries]
      exact AList.lookup_insert _
    · intro other hne
      rw [hentries, AList.lookup_insert_ne hne, AList.lookup_erase_ne hne]
      exact AList.lookup_insert_ne hne
    · have hremoved := removeInternal_limits read key
      exact ⟨hremoved.maxEntries, hremoved.byteBudget, hremoved.categoryBudgets⟩
    · intro f haccessed hnew
      have hread : total f read.entries = total f s.entries :=
        total_overwrite f hlookup haccessed
      have herase := total_erase f hsame
      rw [hentries, total_insert f _ hfree, ← hread, hnew, ← haccessed]
      exact herase.symm

theorem managed_retag (moment : Moment F) (tags : List String → List String)
    (options : StoreOptions) (hs : Managed s)
    (hok : ∀ {entry}, s.entries.lookup key = some entry →
      EntryOk key (retagged moment key entry tags options)) :
    Managed (retag moment s key tags options).2 := by
  have hget := hs.get moment.got key
  rw [retag]
  cases hlookup : s.entries.lookup key with
  | none =>
    rw [MemoryStore.get, hlookup]
    exact hs
  | some entry =>
    rw [MemoryStore.get, hlookup] at hget ⊢
    dsimp only at hget ⊢
    split
    · next heq =>
      split at heq
      · cases heq
        exact hs
      · cases heq
    · next heq =>
      split at heq
      · cases heq
      · cases heq
        have hnew : EntryOk key (retagged moment key entry tags options) := hok hlookup
        exact (hs.access hlookup).stores _ hnew

end Retag

/-! ### Clearing the current goal -/

/-- What rewriting goals as not current leaves of a store. -/
structure Clears (s s' : MemoryStore F) : Prop where
  managed : Managed s'
  limits : SameLimits s s'
  room : ∀ now category byteSize, s'.Room now category byteSize ↔ s.Room now category byteSize
  goal : ∀ {key entry g}, s.entries.lookup key = some entry → GoalEntry key entry g →
    ∃ entry' flag, s'.entries.lookup key = some entry' ∧
      GoalEntry key entry' { g with isCurrent := flag } ∧ (flag = true → g.isCurrent = true)
  other : ∀ {key}, (∀ id, key ≠ goalKey id) → s'.entries.lookup key = s.entries.lookup key
  absent : ∀ {key}, s.entries.lookup key = none → s'.entries.lookup key = none

section

variable {s s' s'' : MemoryStore F}

theorem Clears.refl (hs : Managed s) : Clears s s where
  managed := hs
  limits := SameLimits.refl s
  room _ _ _ := Iff.rfl
  goal {_ entry g} hlookup hg := ⟨entry, g.isCurrent, hlookup, hg, id⟩
  other _ := rfl
  absent := id

theorem Clears.trans (hfirst : Clears s s') (hsecond : Clears s' s'') : Clears s s'' where
  managed := hsecond.managed
  limits := hfirst.limits.trans hsecond.limits
  room now category byteSize :=
    (hsecond.room now category byteSize).trans (hfirst.room now category byteSize)
  goal hlookup hg := by
    obtain ⟨entry', flag, hlookup', hg', hflag⟩ := hfirst.goal hlookup hg
    obtain ⟨entry'', flag', hlookup'', hg'', hflag'⟩ := hsecond.goal hlookup' hg'
    exact ⟨entry'', flag', hlookup'', hg'', fun hcurrent => hflag (hflag' hcurrent)⟩
  other hkey := (hsecond.other hkey).trans (hfirst.other hkey)
  absent hlookup := hsecond.absent (hfirst.absent hlookup)

/-- A goal held afterwards was held before, perhaps as the current one. -/
theorem Clears.back (hclears : Clears s s') (hs : Managed s) {key : String}
    {entry' : MemoryEntry F} {g : Goal} (hlookup : s'.entries.lookup key = some entry')
    (hg : GoalEntry key entry' g) :
    ∃ entry flag, s.entries.lookup key = some entry ∧
      GoalEntry key entry { g with isCurrent := flag } ∧ (g.isCurrent = true → flag = true) := by
  cases hbefore : s.entries.lookup key with
  | none =>
    rw [hclears.absent hbefore] at hlookup
    cases hlookup
  | some entry =>
    obtain rfl := hg.key
    obtain ⟨g₀, hg₀, hid⟩ := hs.goal_of_key hbefore
    obtain ⟨entry'', flag, hlookup', hg', hflag⟩ := hclears.goal hbefore hg₀
    rw [hlookup] at hlookup'
    obtain rfl := Option.some.inj hlookup'
    obtain rfl := hg.unique hg'
    exact ⟨entry, g₀.isCurrent, rfl, hg₀, hflag⟩

theorem entryOk_retagged_goal {key : String} {entry : MemoryEntry F} {g : Goal} {flag : Bool}
    {tags : List String → List String} (moment : Moment F) (hg : GoalEntry key entry g)
    (htags : { goalMetadata g with tags := tags (goalMetadata g).tags } =
      goalMetadata { g with isCurrent := flag }) :
    GoalEntry key (retagged moment key entry tags pinnedNoTtl) { g with isCurrent := flag } where
  key := hg.key
  metadata := by
    show { entry.metadata with tags := tags entry.metadata.tags } = _
    rw [hg.metadata, htags]
  pinned := rfl
  expiresAt := rfl

/-- Making room counts a goal the same before and after its tags are rewritten. -/
theorem Rewritten.room {key : String} {entry entry' : MemoryEntry F} {g g' : Goal}
    (hrewritten : Rewritten s s' key entry entry') (hg : GoalEntry key entry g)
    (hg' : GoalEntry key entry' g') (hsize : entry'.byteSize = entry.byteSize) (now : Nat)
    (category : MemoryCategory) (byteSize : Nat) :
    s'.Room now category byteSize ↔ s.Room now category byteSize := by
  have hfirm : entry'.firm now = entry.firm now := by
    rw [MemoryEntry.firm_iff.mpr (hg.firm now), MemoryEntry.firm_iff.mpr (hg'.firm now)]
  have hbytes : entry'.firmBytes now = entry.firmBytes now := by
    rw [MemoryEntry.firmBytes, MemoryEntry.firmBytes, hfirm, hsize]
  have hcategory : entry'.metadata.category = entry.metadata.category := by
    rw [hg.metadata, hg'.metadata]
    rfl
  have htotal := hrewritten.total_eq (MemoryEntry.firmBytes now) rfl hbytes
  have htotalOf : totalOf (fun entry => entry.metadata.category) (MemoryEntry.firmBytes now) category
      s'.entries = totalOf (fun entry => entry.metadata.category) (MemoryEntry.firmBytes now)
        category s.entries := by
    apply hrewritten.total_eq _ rfl
    simp only [hcategory, hbytes]
  have hcount := hrewritten.total_eq (fun entry => if entry.firm now then 1 else 0) rfl
    (by rw [hfirm])
  rw [Room, Room, htotal, htotalOf, hcount, hrewritten.limits.byteBudget,
    hrewritten.limits.categoryBudget, hrewritten.limits.maxEntries]

theorem byteSize_retagged {key : String} {entry : MemoryEntry F} (hs : Managed s)
    (hlookup : s.entries.lookup key = some entry) (moment : Moment F)
    (tags : List String → List String) (options : StoreOptions) :
    (retagged moment key entry tags options).byteSize = entry.byteSize :=
  (hs.sound.byteSize hlookup).symm

theorem managed_retag_goal {key : String} {entry : MemoryEntry F} {g : Goal} {flag : Bool}
    {tags : List String → List String} (hs : Managed s)
    (hlookup : s.entries.lookup key = some entry) (hg : GoalEntry key entry g) (moment : Moment F)
    (htags : { goalMetadata g with tags := tags (goalMetadata g).tags } =
      goalMetadata { g with isCurrent := flag }) :
    Managed (retag moment s key tags pinnedNoTtl).2 := by
  apply managed_retag moment tags pinnedNoTtl hs
  intro other hother
  rw [hlookup] at hother
  obtain rfl := Option.some.inj hother
  exact .inl ⟨_, entryOk_retagged_goal moment hg htags⟩

theorem clears_retag {key : String} {entry : MemoryEntry F} {g : Goal} (hs : Managed s)
    (hlookup : s.entries.lookup key = some entry) (hg : GoalEntry key entry g)
    (moment : Moment F) :
    Clears s (retag moment s key dropCurrent pinnedNoTtl).2 ∧
      ∃ entry', (retag moment s key dropCurrent pinnedNoTtl).2.entries.lookup key = some entry' ∧
        GoalEntry key entry' { g with isCurrent := false } := by
  have hmanaged := managed_retag_goal hs hlookup hg moment (dropCurrent_goalMetadata g)
  obtain ⟨s', heq, hrewritten⟩ :=
    retag_of_lookup moment dropCurrent pinnedNoTtl hs hlookup hg.expiresAt
  rw [heq] at hmanaged ⊢
  have hnew := entryOk_retagged_goal moment hg (dropCurrent_goalMetadata g)
  refine ⟨?_, _, hrewritten.same, hnew⟩
  exact {
    managed := hmanaged
    limits := hrewritten.limits
    room := hrewritten.room hg hnew (byteSize_retagged hs hlookup moment _ _)
    goal := by
      intro other current g₀ hcurrent hg₀
      by_cases hkey : other = key
      · subst hkey
        rw [hlookup] at hcurrent
        obtain rfl := Option.some.inj hcurrent
        obtain rfl := hg₀.unique hg
        exact ⟨_, false, hrewritten.same, hnew, fun habsurd => by cases habsurd⟩
      · rw [← hrewritten.others other hkey] at hcurrent
        exact ⟨current, g₀.isCurrent, hcurrent, hg₀, id⟩
    other := by
      intro other hother
      apply hrewritten.others
      rintro rfl
      exact hother g.goalId hg.key
    absent := by
      intro other hother
      rw [hrewritten.others other, hother]
      rintro rfl
      rw [hlookup] at hother
      cases hother
  }

/-- The loop over the current goals' keys leaves the goals under them not current. -/
theorem clears_clearCurrent (each : String → Moment F) (keys : List String) (hs : Managed s)
    (hgoals : ∀ key ∈ keys, ∃ entry g, s.entries.lookup key = some entry ∧ GoalEntry key entry g) :
    Clears s (clearCurrent each s keys) ∧ ∀ key ∈ keys, ∀ {entry g},
      (clearCurrent each s keys).entries.lookup key = some entry → GoalEntry key entry g →
        g.isCurrent = false := by
  induction keys generalizing s with
  | nil => exact ⟨Clears.refl hs, fun _ hmem => absurd hmem List.not_mem_nil⟩
  | cons first keys ih =>
    obtain ⟨entry, g, hlookup, hg⟩ := hgoals first List.mem_cons_self
    obtain ⟨hfirst, entry', hlookup', hg'⟩ := clears_retag hs hlookup hg (each first)
    have hrest : ∀ key ∈ keys, ∃ entry g,
        (retag (each first) s first dropCurrent pinnedNoTtl).2.entries.lookup key = some entry ∧
          GoalEntry key entry g := by
      intro key hmem
      obtain ⟨current, g₀, hcurrent, hg₀⟩ := hgoals key (List.mem_cons_of_mem _ hmem)
      obtain ⟨current', flag, hcurrent', hg₀', -⟩ := hfirst.goal hcurrent hg₀
      exact ⟨current', _, hcurrent', hg₀'⟩
    obtain ⟨hclears, hcleared⟩ := ih hfirst.managed hrest
    refine ⟨hfirst.trans hclears, ?_⟩
    intro key hmem current g₀ hcurrent hg₀
    rcases List.mem_cons.mp hmem with rfl | hmem
    · obtain ⟨current', flag, hcurrent', hg₀', hflag⟩ := hclears.goal hlookup' hg'
      have hsame : clearCurrent each s (key :: keys) =
          clearCurrent each (retag (each key) s key dropCurrent pinnedNoTtl).2 keys := rfl
      rw [hsame, hcurrent'] at hcurrent
      obtain rfl := Option.some.inj hcurrent
      rw [hg₀.unique hg₀']
      exact Bool.eq_false_iff.mpr fun habsurd => Bool.false_ne_true (hflag habsurd)
    · exact hcleared key hmem hcurrent hg₀

/-- The keys the source collects are those of the current goals. -/
theorem mem_currentKeys {key : String} (hs : Managed s) (query : Sight) :
    key ∈ currentKeys query s ↔ ∃ entry g, s.entries.lookup key = some entry ∧
      GoalEntry key entry g ∧ g.isCurrent = true := by
  rw [currentKeys]
  simp only [List.mem_map, List.mem_filter, mem_queryByCategory hs.accounted]
  constructor
  · rintro ⟨entry, ⟨⟨other, hlookup, hcategory, -⟩, hcurrent⟩, rfl⟩
    obtain ⟨g, hg⟩ := hs.goal_of_category hlookup hcategory
    rw [hs.sound.key hlookup]
    refine ⟨entry, g, hlookup, hg, ?_⟩
    rwa [hg.metadata, isCurrent_goalMetadata] at hcurrent
  · rintro ⟨entry, g, hlookup, hg, hcurrent⟩
    refine ⟨entry, ⟨⟨key, hlookup, ?_, isExpired_of_none hg.expiresAt _⟩, ?_⟩,
      hs.sound.key hlookup⟩
    · rw [hg.metadata]
      rfl
    · rw [hg.metadata, isCurrent_goalMetadata]
      exact hcurrent

/-- After the loop no goal is current. -/
theorem clears_currentKeys (hs : Managed s) (each : String → Moment F) (query : Sight) :
    Clears s (clearCurrent each s (currentKeys query s)) ∧ ∀ {key entry g},
      (clearCurrent each s (currentKeys query s)).entries.lookup key = some entry →
        GoalEntry key entry g → g.isCurrent = false := by
  obtain ⟨hclears, hcleared⟩ := clears_clearCurrent each (currentKeys query s) hs (by
    intro key hmem
    obtain ⟨entry, g, hlookup, hg, -⟩ := (mem_currentKeys hs query).mp hmem
    exact ⟨entry, g, hlookup, hg⟩)
  refine ⟨hclears, fun {key entry g} hlookup hg => ?_⟩
  by_contra hcurrent
  obtain ⟨entry₀, flag, hlookup₀, hg₀, hflag⟩ := hclears.back hs hlookup hg
  have hmem : key ∈ currentKeys query s :=
    (mem_currentKeys hs query).mpr
      ⟨entry₀, _, hlookup₀, hg₀, hflag (Bool.not_eq_false _ |>.mp hcurrent)⟩
  exact hcurrent (hcleared key hmem hlookup hg)

end

end Zllm.ControlPlane

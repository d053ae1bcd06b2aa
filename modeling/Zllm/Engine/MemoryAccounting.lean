import Zllm.Engine.MemoryStore

/-!
# The memory store's accounting

What an operation of the store does to its entries, and the counters and indexes that follow from
the entries in every reachable store.
-/

namespace Zllm.Engine

open Ledger

variable {F : Type}

/-- What making room may give up: expired entries and those that are not pinned. -/
def MemoryEntry.Evictable (now : Nat) (entry : MemoryEntry F) : Prop :=
  entry.isExpired now = true ∨ entry.pinned = false

namespace MemoryStore

/-- The counters and the indexes are those of the entries, within the limits. -/
structure Accounted (s : MemoryStore F) : Prop where
  bytesUsed : s.bytesUsed = total MemoryEntry.byteSize s.entries
  bytesUsed_le : s.bytesUsed ≤ s.byteBudget
  categoryBytes : s.categoryBytes.Exact (fun entry => entry.metadata.category)
    MemoryEntry.byteSize s.entries
  categoryUsed_le : ∀ category, s.categoryUsed category ≤ s.categoryBudget category
  entryCount_le : s.entryCount ≤ s.maxEntries
  byCategory : s.byCategory.Exact (fun entry => [entry.metadata.category]) s.entries
  byTag : s.byTag.Exact (fun entry => entry.metadata.tags) s.entries

/-- Each entry is as `store_with_options` made it, up to accesses. -/
structure Sound (s : MemoryStore F) : Prop where
  key : ∀ {key entry}, s.entries.lookup key = some entry → entry.key = key
  byteSize : ∀ {key entry}, s.entries.lookup key = some entry →
    entry.byteSize = entry.vector.length * sizeOfF32

/-- The limits of a store, which no operation changes. -/
structure SameLimits (s s' : MemoryStore F) : Prop where
  maxEntries : s'.maxEntries = s.maxEntries
  byteBudget : s'.byteBudget = s.byteBudget
  categoryBudgets : s'.categoryBudgets = s.categoryBudgets

theorem SameLimits.refl (s : MemoryStore F) : SameLimits s s := ⟨rfl, rfl, rfl⟩

theorem SameLimits.trans {s s' s'' : MemoryStore F} (hfirst : SameLimits s s')
    (hsecond : SameLimits s' s'') : SameLimits s s'' where
  maxEntries := hsecond.maxEntries.trans hfirst.maxEntries
  byteBudget := hsecond.byteBudget.trans hfirst.byteBudget
  categoryBudgets := hsecond.categoryBudgets.trans hfirst.categoryBudgets

theorem SameLimits.categoryBudget {s s' : MemoryStore F} (hlimits : SameLimits s s')
    (category : MemoryCategory) : s'.categoryBudget category = s.categoryBudget category := by
  rw [MemoryStore.categoryBudget, MemoryStore.categoryBudget, hlimits.categoryBudgets,
    hlimits.byteBudget]

/-! ### Removing -/

section Remove

variable {s : MemoryStore F} {key : String} {entry : MemoryEntry F}

theorem removeInternal_entries (s : MemoryStore F) (key : String) :
    (s.removeInternal key).2.entries = s.entries.erase key := by
  rw [removeInternal]
  cases hlookup : s.entries.lookup key with
  | none => exact (erase_of_lookup_eq_none hlookup).symm
  | some entry => rfl

theorem removeInternal_limits (s : MemoryStore F) (key : String) :
    SameLimits s (s.removeInternal key).2 := by
  rw [removeInternal]
  cases s.entries.lookup key with
  | none => exact SameLimits.refl s
  | some entry => exact ⟨rfl, rfl, rfl⟩

theorem removeInternal_of_lookup_eq_none (hlookup : s.entries.lookup key = none) :
    s.removeInternal key = (false, s) := by
  rw [removeInternal, hlookup]

theorem entryCount_removeInternal (hlookup : s.entries.lookup key = some entry) :
    (s.removeInternal key).2.entryCount + 1 = s.entryCount := by
  rw [entryCount, removeInternal_entries, entryCount, length_erase hlookup]

theorem Accounted.removeInternal (haccounted : Accounted s) (key : String) :
    Accounted (s.removeInternal key).2 := by
  cases hlookup : s.entries.lookup key with
  | none =>
    rw [removeInternal_of_lookup_eq_none hlookup]
    exact haccounted
  | some entry =>
    have herase := total_erase MemoryEntry.byteSize hlookup
    have hcount := entryCount_removeInternal hlookup
    have hcategory : ∀ category, (s.removeInternal key).2.categoryUsed category ≤
        s.categoryUsed category := by
      intro category
      rw [MemoryStore.removeInternal, hlookup, categoryUsed, categoryUsed, Tally.read_debit]
      exact Nat.sub_le _ _
    have hentryCount := haccounted.entryCount_le
    have hbytes := haccounted.bytesUsed
    have hbudget := haccounted.bytesUsed_le
    refine {
      bytesUsed := ?_
      bytesUsed_le := ?_
      categoryBytes := ?_
      categoryUsed_le := fun category => by
        rw [(removeInternal_limits s key).categoryBudget]
        exact (hcategory category).trans (haccounted.categoryUsed_le category)
      entryCount_le := ?_
      byCategory := ?_
      byTag := ?_
    }
    · rw [removeInternal_entries, MemoryStore.removeInternal, hlookup]
      show s.bytesUsed - entry.byteSize = _
      omega
    · rw [MemoryStore.removeInternal, hlookup]
      show s.bytesUsed - entry.byteSize ≤ s.byteBudget
      omega
    · rw [removeInternal_entries, MemoryStore.removeInternal, hlookup]
      exact haccounted.categoryBytes.erase hlookup
    · rw [(removeInternal_limits s key).maxEntries]
      omega
    · rw [removeInternal_entries, MemoryStore.removeInternal, hlookup]
      exact haccounted.byCategory.erase hlookup
    · rw [removeInternal_entries, MemoryStore.removeInternal, hlookup]
      exact haccounted.byTag.erase hlookup

end Remove

/-! ### Making room -/

/-- One entry that may be given up is removed. -/
def GivesUp (now : Nat) (s s' : MemoryStore F) : Prop :=
  ∃ key entry, s.entries.lookup key = some entry ∧ entry.Evictable now ∧
    s' = (s.removeInternal key).2

section MakeRoom

variable {order : EntryOrder F} {now : Nat} {s s' : MemoryStore F}

theorem mem_arrange {entry : Sigma fun _ : String => MemoryEntry F} :
    entry ∈ order.arrange s.entries.entries ↔ s.entries.lookup entry.1 = some entry.2 :=
  (order.perm s.entries.entries).mem_iff.trans AList.mem_lookup_iff.symm

theorem dropOneExpired_gives_up (hdrop : s.dropOneExpired order now = some s') :
    GivesUp now s s' := by
  obtain ⟨entry, hfind, rfl⟩ := Option.map_eq_some_iff.mp hdrop
  have hexpired := List.find?_some hfind
  exact ⟨entry.1, entry.2, mem_arrange.mp (List.mem_of_find?_eq_some hfind), .inl hexpired, rfl⟩

theorem dropOneExpired_eq_none (hdrop : s.dropOneExpired order now = none) {key : String}
    {entry : MemoryEntry F} (hlookup : s.entries.lookup key = some entry) :
    entry.isExpired now = false := by
  rw [dropOneExpired, Option.map_eq_none_iff, List.find?_eq_none] at hdrop
  have hlive := hdrop ⟨key, entry⟩ (mem_arrange.mpr hlookup)
  exact Bool.eq_false_iff.mpr hlive

theorem lowestScoreKey_eq_some {onlyCategory : Option MemoryCategory} {key : String}
    (hkey : s.lowestScoreKey order onlyCategory = some key) :
    ∃ entry, s.entries.lookup key = some entry ∧ entry.pinned = false := by
  obtain ⟨entry, hargmin, rfl⟩ := Option.map_eq_some_iff.mp hkey
  have hmem := (List.mem_filter.mp (List.argmin_mem hargmin)).1
  obtain ⟨hentry, hpinned⟩ := List.mem_filter.mp hmem
  exact ⟨entry.2, mem_arrange.mp hentry, Bool.not_eq_true' _ |>.mp hpinned⟩

theorem lowestScoreKey_eq_none (hkey : s.lowestScoreKey order none = none) {key : String}
    {entry : MemoryEntry F} (hlookup : s.entries.lookup key = some entry) :
    entry.pinned = true := by
  rw [lowestScoreKey, Option.map_eq_none_iff, List.argmin_eq_none, List.filter_eq_nil_iff] at hkey
  by_contra hpinned
  refine hkey ⟨key, entry⟩ (List.mem_filter.mpr ⟨mem_arrange.mpr hlookup, ?_⟩) rfl
  simpa using hpinned

theorem evictOne_gives_up {prefer : Option MemoryCategory}
    (hevict : s.evictOne order prefer = some s') : GivesUp now s s' := by
  obtain ⟨key, hkey, rfl⟩ := Option.map_eq_some_iff.mp hevict
  have hvictim : ∃ onlyCategory, s.lowestScoreKey order onlyCategory = some key := by
    rcases Option.or_eq_some_iff.mp hkey with hprefer | ⟨-, hany⟩
    · obtain ⟨category, -, hcategory⟩ := Option.bind_eq_some_iff.mp hprefer
      exact ⟨some category, hcategory⟩
    · exact ⟨none, hany⟩
  obtain ⟨onlyCategory, hvictim⟩ := hvictim
  obtain ⟨entry, hlookup, hpinned⟩ := lowestScoreKey_eq_some hvictim
  exact ⟨key, entry, hlookup, .inr hpinned, rfl⟩

theorem evictOne_eq_none {prefer : Option MemoryCategory}
    (hevict : s.evictOne order prefer = none) {key : String} {entry : MemoryEntry F}
    (hlookup : s.entries.lookup key = some entry) : entry.pinned = true := by
  rw [evictOne, Option.map_eq_none_iff, Option.or_eq_none_iff] at hevict
  exact lowestScoreKey_eq_none hevict.2 hlookup

/-- What making room leaves: entries that had to go are gone, the limits and the accounting stay. -/
structure Cleared (now : Nat) (s s' : MemoryStore F) : Prop where
  drains : Drains (MemoryEntry.Evictable now) s.entries s'.entries
  limits : SameLimits s s'
  accounted : Accounted s → Accounted s'

theorem Cleared.refl (now : Nat) (s : MemoryStore F) : Cleared now s s :=
  ⟨.refl, SameLimits.refl s, id⟩

theorem GivesUp.cleared (hgives : GivesUp now s s') : Cleared now s s' := by
  obtain ⟨key, entry, hlookup, hevictable, rfl⟩ := hgives
  refine ⟨.single ⟨key, entry, hlookup, hevictable, ?_⟩, removeInternal_limits s key,
    fun haccounted => haccounted.removeInternal key⟩
  exact removeInternal_entries s key

theorem GivesUp.entryCount (hgives : GivesUp now s s') : s'.entryCount + 1 = s.entryCount := by
  obtain ⟨key, entry, hlookup, -, rfl⟩ := hgives
  exact entryCount_removeInternal hlookup

theorem Cleared.trans {s'' : MemoryStore F} (hfirst : Cleared now s s')
    (hsecond : Cleared now s' s'') : Cleared now s s'' where
  drains := hfirst.drains.trans hsecond.drains
  limits := hfirst.limits.trans hsecond.limits
  accounted haccounted := hsecond.accounted (hfirst.accounted haccounted)

variable (order now) (category : MemoryCategory) (byteSize : Nat)

/-- One round of the loop: it ends because the entry fits or because nothing can be given up, or
gives up one entry and goes on. -/
theorem makeRoom_succ (rounds : Nat) (s : MemoryStore F) :
    s.fits category byteSize = true ∧
        makeRoom order now category byteSize (rounds + 1) s = (some true, s) ∨
      s.fits category byteSize = false ∧
        (∀ {key entry}, s.entries.lookup key = some entry → ¬entry.Evictable now) ∧
        makeRoom order now category byteSize (rounds + 1) s = (some false, s) ∨
      ∃ s', s.fits category byteSize = false ∧ GivesUp now s s' ∧
        makeRoom order now category byteSize (rounds + 1) s =
          makeRoom order now category byteSize rounds s' := by
  rw [makeRoom]
  cases hfits : s.fits category byteSize with
  | true => exact .inl ⟨rfl, rfl⟩
  | false =>
    refine .inr ?_
    cases hdrop : s.dropOneExpired order now with
    | some s' => exact .inr ⟨s', rfl, dropOneExpired_gives_up hdrop, rfl⟩
    | none =>
      cases hevict : s.evictOne order (some category) with
      | some s' => exact .inr ⟨s', rfl, evictOne_gives_up hevict, rfl⟩
      | none =>
        refine .inl ⟨rfl, fun hlookup hevictable => ?_, rfl⟩
        rcases hevictable with hexpired | hpinned
        · rw [dropOneExpired_eq_none hdrop hlookup] at hexpired
          cases hexpired
        · rw [evictOne_eq_none hevict hlookup] at hpinned
          cases hpinned

theorem makeRoom_cleared (rounds : Nat) (s : MemoryStore F) :
    Cleared now s (makeRoom order now category byteSize rounds s).2 := by
  induction rounds generalizing s with
  | zero => exact Cleared.refl now s
  | succ rounds ih =>
    rcases makeRoom_succ order now category byteSize rounds s with
      ⟨-, heq⟩ | ⟨-, -, heq⟩ | ⟨s', -, hgives, heq⟩
    · rw [heq]
      exact Cleared.refl now s
    · rw [heq]
      exact Cleared.refl now s
    · rw [heq]
      exact hgives.cleared.trans (ih s')

theorem makeRoom_fits (rounds : Nat) (s : MemoryStore F)
    (hroom : (makeRoom order now category byteSize rounds s).1 = some true) :
    (makeRoom order now category byteSize rounds s).2.fits category byteSize = true := by
  induction rounds generalizing s with
  | zero => cases hroom
  | succ rounds ih =>
    rcases makeRoom_succ order now category byteSize rounds s with
      ⟨hfits, heq⟩ | ⟨-, -, heq⟩ | ⟨s', -, hgives, heq⟩
    · rw [heq]
      exact hfits
    · rw [heq] at hroom
      cases hroom
    · rw [heq] at hroom ⊢
      exact ih s' hroom

/-- The loop gives up only when it has given up all that it may. -/
theorem makeRoom_full (rounds : Nat) (s : MemoryStore F)
    (hroom : (makeRoom order now category byteSize rounds s).1 = some false) :
    (makeRoom order now category byteSize rounds s).2.fits category byteSize = false ∧
      ∀ {key entry},
        (makeRoom order now category byteSize rounds s).2.entries.lookup key = some entry →
          ¬entry.Evictable now := by
  induction rounds generalizing s with
  | zero => cases hroom
  | succ rounds ih =>
    rcases makeRoom_succ order now category byteSize rounds s with
      ⟨-, heq⟩ | ⟨hfits, hfirm, heq⟩ | ⟨s', -, hgives, heq⟩
    · rw [heq] at hroom
      cases hroom
    · rw [heq]
      exact ⟨hfits, hfirm⟩
    · rw [heq] at hroom ⊢
      exact ih s' hroom

/-- Each round but the last removes an entry. -/
theorem makeRoom_ends (rounds : Nat) (s : MemoryStore F) (hrounds : s.entryCount < rounds) :
    (makeRoom order now category byteSize rounds s).1 ≠ none := by
  induction rounds generalizing s with
  | zero => exact absurd hrounds (Nat.not_lt_zero _)
  | succ rounds ih =>
    rcases makeRoom_succ order now category byteSize rounds s with
      ⟨-, heq⟩ | ⟨-, -, heq⟩ | ⟨s', -, hgives, heq⟩
    · rw [heq]
      exact Option.some_ne_none true
    · rw [heq]
      exact Option.some_ne_none false
    · rw [heq]
      have hcount := hgives.entryCount
      exact ih s' (by omega)

theorem makeRoom_of_fits (rounds : Nat) (hfits : s.fits category byteSize = true) :
    makeRoom order now category byteSize (rounds + 1) s = (some true, s) := by
  rw [makeRoom, if_pos hfits]

end MakeRoom

/-! ### Storing -/

theorem fits_iff {s : MemoryStore F} {category : MemoryCategory} {byteSize : Nat} :
    s.fits category byteSize = true ↔ s.bytesUsed + byteSize ≤ s.byteBudget ∧
      s.categoryUsed category + byteSize ≤ s.categoryBudget category ∧
      s.entryCount < s.maxEntries := by
  simp [fits, and_assoc]

theorem Accounted.insertEntry {s : MemoryStore F} {entry : MemoryEntry F}
    (haccounted : Accounted s) (hlookup : s.entries.lookup entry.key = none)
    (hfits : s.fits entry.metadata.category entry.byteSize = true) :
    Accounted (s.insertEntry entry) := by
  obtain ⟨hbytes, hcategory, hcount⟩ := fits_iff.mp hfits
  refine {
    bytesUsed := ?_
    bytesUsed_le := hbytes
    categoryBytes := haccounted.categoryBytes.insert hlookup
    categoryUsed_le := ?_
    entryCount_le := ?_
    byCategory := haccounted.byCategory.insert hlookup
    byTag := haccounted.byTag.insert hlookup
  }
  · show s.bytesUsed + entry.byteSize = total MemoryEntry.byteSize (s.entries.insert _ entry)
    rw [total_insert _ entry hlookup, haccounted.bytesUsed, Nat.add_comm]
  · intro category
    show (s.categoryBytes.credit _ _).read category ≤ s.categoryBudget category
    rw [Tally.read_credit]
    split
    · next hsame =>
      rw [← hsame]
      exact hcategory
    · exact haccounted.categoryUsed_le category
  · show (s.entries.insert entry.key entry).entries.length ≤ s.maxEntries
    rw [← total_one, total_insert _ entry hlookup, total_one, Nat.add_comm]
    exact hcount

/-- A call of `store_with_options`: it changes nothing, or removes the old entry, makes room and
then has to give up or puts the new entry in. -/
inductive Stores (now : Nat) (s : MemoryStore F) (entry : MemoryEntry F) :
    Except StoreError Unit → MemoryStore F → Prop
  | oversize
      (hsize : s.categoryBudget entry.metadata.category < entry.byteSize ∨
        s.byteBudget < entry.byteSize) :
      Stores now s entry (.error .oversize) s
  | full {room : MemoryStore F}
      (hsize : ¬(s.categoryBudget entry.metadata.category < entry.byteSize ∨
        s.byteBudget < entry.byteSize))
      (hcleared : Cleared now (s.removeInternal entry.key).2 room)
      (hfits : room.fits entry.metadata.category entry.byteSize = false)
      (hfirm : ∀ {key other}, room.entries.lookup key = some other → ¬other.Evictable now) :
      Stores now s entry (.error .full) room
  | stored {room : MemoryStore F} (hcleared : Cleared now (s.removeInternal entry.key).2 room)
      (hfits : room.fits entry.metadata.category entry.byteSize = true) :
      Stores now s entry (.ok ()) (room.insertEntry entry)

section Store

variable (order : EntryOrder F) (now : Nat) (s : MemoryStore F) (key : String) (vector : List F)
  (metadata : MemoryMetadata) (options : StoreOptions)

/-- Every call ends, in one of three ways. -/
theorem storeWithOptions_stores :
    ∃ answer s', s.storeWithOptions order now key vector metadata options = (some answer, s') ∧
      Stores now s (newEntry now key vector metadata options) answer s' := by
  rw [storeWithOptions]
  dsimp only
  split
  · next hsize => exact ⟨_, _, rfl, .oversize hsize⟩
  · next hsize =>
    have hcleared := makeRoom_cleared order now metadata.category (vector.length * sizeOfF32)
      ((s.removeInternal key).2.entryCount + 1) (s.removeInternal key).2
    have hfits := makeRoom_fits order now metadata.category (vector.length * sizeOfF32)
      ((s.removeInternal key).2.entryCount + 1) (s.removeInternal key).2
    have hfull := makeRoom_full order now metadata.category (vector.length * sizeOfF32)
      ((s.removeInternal key).2.entryCount + 1) (s.removeInternal key).2
    have hends := makeRoom_ends order now metadata.category (vector.length * sizeOfF32)
      ((s.removeInternal key).2.entryCount + 1) (s.removeInternal key).2 (Nat.lt_succ_self _)
    generalize makeRoom order now metadata.category (vector.length * sizeOfF32)
      ((s.removeInternal key).2.entryCount + 1) (s.removeInternal key).2 = outcome
      at hcleared hfits hfull hends ⊢
    obtain ⟨answer, room⟩ := outcome
    cases answer with
    | none => exact absurd rfl hends
    | some fit =>
      cases fit with
      | true => exact ⟨_, _, rfl, .stored hcleared (hfits rfl)⟩
      | false => exact ⟨_, _, rfl, .full hsize hcleared (hfull rfl).1 (hfull rfl).2⟩

end Store

section Stores

variable {now : Nat} {s s' : MemoryStore F} {entry : MemoryEntry F}
  {answer : Except StoreError Unit}

theorem Cleared.lookup_removed {room : MemoryStore F} {key : String}
    (hcleared : Cleared now (s.removeInternal key).2 room) : room.entries.lookup key = none := by
  rw [Option.eq_none_iff_forall_ne_some]
  intro other hother
  have hbefore := hcleared.drains.subset hother
  rw [removeInternal_entries, AList.lookup_erase] at hbefore
  cases hbefore

theorem Stores.accounted (hstores : Stores now s entry answer s') (haccounted : Accounted s) :
    Accounted s' := by
  cases hstores with
  | oversize hsize => exact haccounted
  | full hsize hcleared hfits hfirm => exact hcleared.accounted (haccounted.removeInternal _)
  | stored hcleared hfits =>
    exact (hcleared.accounted (haccounted.removeInternal _)).insertEntry hcleared.lookup_removed
      hfits

theorem Stores.limits (hstores : Stores now s entry answer s') : SameLimits s s' := by
  cases hstores with
  | oversize hsize => exact SameLimits.refl s
  | full hsize hcleared hfits hfirm => exact (removeInternal_limits s _).trans hcleared.limits
  | stored hcleared hfits =>
    exact ((removeInternal_limits s _).trans hcleared.limits).trans ⟨rfl, rfl, rfl⟩

/-- What a store holds after a call was there before or is the new entry. -/
theorem Stores.lookup (hstores : Stores now s entry answer s') {key : String}
    {other : MemoryEntry F} (hlookup : s'.entries.lookup key = some other) :
    s.entries.lookup key = some other ∨ key = entry.key ∧ other = entry := by
  have hbefore : ∀ {room : MemoryStore F}, Cleared now (s.removeInternal entry.key).2 room →
      room.entries.lookup key = some other → s.entries.lookup key = some other := by
    intro room hcleared hroom
    have hremoved := hcleared.drains.subset hroom
    rw [removeInternal_entries] at hremoved
    exact (lookup_erase_eq_some.mp hremoved).2
  cases hstores with
  | oversize hsize => exact .inl hlookup
  | full hsize hcleared hfits hfirm => exact .inl (hbefore hcleared hlookup)
  | stored hcleared hfits =>
    rcases lookup_insert_eq_some.mp hlookup with ⟨hkey, hentry⟩ | ⟨-, hroom⟩
    · exact .inr ⟨hkey, hentry.symm⟩
    · exact .inl (hbefore hcleared hroom)

theorem lookup_storeWithOptions {order : EntryOrder F} {key other : String} {vector : List F}
    {metadata : MemoryMetadata} {options : StoreOptions} {entry : MemoryEntry F}
    (hlookup : (s.storeWithOptions order now key vector metadata options).2.entries.lookup other =
      some entry) :
    s.entries.lookup other = some entry ∨
      other = key ∧ entry = newEntry now key vector metadata options := by
  obtain ⟨answer, s', heq, hstores⟩ :=
    storeWithOptions_stores order now s key vector metadata options
  rw [heq] at hlookup
  exact hstores.lookup hlookup

end Stores

/-! ### Reading -/

theorem get_snd (now : Nat) (s : MemoryStore F) (key : String) :
    (s.get now key).2 = s ∨ ∃ entry, s.entries.lookup key = some entry ∧
      (s.get now key).2 = { s with entries := s.entries.insert key entry.accessed } := by
  rw [get]
  cases hlookup : s.entries.lookup key with
  | none => exact .inl rfl
  | some entry =>
    dsimp only
    by_cases hexpired : entry.isExpired now
    · exact .inl (by rw [if_pos hexpired])
    · exact .inr ⟨entry, rfl, by rw [if_neg hexpired]⟩

theorem Accounted.access {s : MemoryStore F} {key : String} {entry : MemoryEntry F}
    (haccounted : Accounted s) (hlookup : s.entries.lookup key = some entry) :
    Accounted { s with entries := s.entries.insert key entry.accessed } where
  bytesUsed := by
    rw [haccounted.bytesUsed]
    exact (total_overwrite MemoryEntry.byteSize hlookup rfl).symm
  bytesUsed_le := haccounted.bytesUsed_le
  categoryBytes := haccounted.categoryBytes.overwrite hlookup rfl rfl
  categoryUsed_le := haccounted.categoryUsed_le
  entryCount_le := by
    show (s.entries.insert key entry.accessed).entries.length ≤ s.maxEntries
    rw [← total_one, total_overwrite (fun _ => 1) hlookup rfl, total_one]
    exact haccounted.entryCount_le
  byCategory := haccounted.byCategory.overwrite hlookup rfl
  byTag := haccounted.byTag.overwrite hlookup rfl

theorem Accounted.get {s : MemoryStore F} (haccounted : Accounted s) (now : Nat) (key : String) :
    Accounted (s.get now key).2 := by
  rcases get_snd now s key with heq | ⟨entry, hlookup, heq⟩
  · rw [heq]
    exact haccounted
  · rw [heq]
    exact haccounted.access hlookup

/-- A query by category answers the unexpired entries of that category. -/
theorem mem_queryByCategory {s : MemoryStore F} (haccounted : Accounted s) {order : IterOrder String}
    {now : Nat} {category : MemoryCategory} {entry : MemoryEntry F} :
    entry ∈ s.queryByCategory order now category ↔ ∃ key, s.entries.lookup key = some entry ∧
      entry.metadata.category = category ∧ entry.isExpired now = false := by
  have hindex : ∀ key, s.byCategory.Holds category key ↔
      ∃ entry, s.entries.lookup key = some entry ∧ entry.metadata.category = category := by
    intro key
    rw [haccounted.byCategory category key]
    simp [eq_comm]
  unfold queryByCategory query
  cases hset : s.byCategory category with
  | none =>
    apply iff_of_false List.not_mem_nil
    rintro ⟨key, hlookup, hcategory, -⟩
    have hholds := (hindex key).mpr ⟨entry, hlookup, hcategory⟩
    rw [Index.Holds, hset] at hholds
    exact KeySet.notMem_empty key hholds
  | some keys =>
    have hmem : ∀ key, key ∈ order.arrange keys.keys ↔
        ∃ entry, s.entries.lookup key = some entry ∧ entry.metadata.category = category := by
      intro key
      rw [(order.perm keys.keys).mem_iff, ← hindex key, Index.Holds, hset]
      rfl
    simp only [List.mem_filter, List.mem_filterMap, hmem, Bool.not_eq_true']
    constructor
    · rintro ⟨⟨key, ⟨current, hcurrent, hcategory⟩, hlookup⟩, hexpired⟩
      rw [hlookup] at hcurrent
      obtain rfl := Option.some.inj hcurrent
      exact ⟨key, hlookup, hcategory, hexpired⟩
    · rintro ⟨key, hlookup, hcategory, hexpired⟩
      exact ⟨⟨key, ⟨entry, hlookup, hcategory⟩, hlookup⟩, hexpired⟩

/-! ### Every run -/

/-- A call that may change the store. Queries do not. -/
inductive Call : MemoryStore F → MemoryStore F → Prop
  | storeWithOptions (order : EntryOrder F) (now : Nat) (s : MemoryStore F) (key : String)
      (vector : List F) (metadata : MemoryMetadata) (options : StoreOptions) :
      Call s (s.storeWithOptions order now key vector metadata options).2
  | store (order : EntryOrder F) (now : Nat) (s : MemoryStore F) (key : String)
      (vector : List F) (metadata : MemoryMetadata) :
      Call s (s.store order now key vector metadata)
  | get (now : Nat) (s : MemoryStore F) (key : String) : Call s (s.get now key).2
  | remove (s : MemoryStore F) (key : String) : Call s (s.remove key).2

/-- The states of a store over all its runs, at any readings of the clock and in any orders of its
map. -/
inductive Reachable : MemoryStore F → Prop
  | withBudget (maxEntries byteBudget : Nat) (categoryBudgets : MemoryCategory → Option Nat) :
      Reachable (withBudget maxEntries byteBudget categoryBudgets)
  | call {s s' : MemoryStore F} (hreachable : Reachable s) (hcall : Call s s') : Reachable s'

theorem accounted_withBudget (maxEntries byteBudget : Nat)
    (categoryBudgets : MemoryCategory → Option Nat) :
    Accounted (withBudget maxEntries byteBudget categoryBudgets : MemoryStore F) where
  bytesUsed := rfl
  bytesUsed_le := Nat.zero_le _
  categoryBytes := Tally.Exact.empty
  categoryUsed_le _ := Nat.zero_le _
  entryCount_le := Nat.zero_le _
  byCategory := Index.Exact.empty
  byTag := Index.Exact.empty

theorem Accounted.call {s s' : MemoryStore F} (haccounted : Accounted s) (hcall : Call s s') :
    Accounted s' := by
  cases hcall with
  | storeWithOptions order now s key vector metadata options =>
    obtain ⟨answer, s', heq, hstores⟩ :=
      storeWithOptions_stores order now s key vector metadata options
    rw [heq]
    exact hstores.accounted haccounted
  | store order now s key vector metadata =>
    obtain ⟨answer, s', heq, hstores⟩ := storeWithOptions_stores order now s key vector metadata {}
    rw [MemoryStore.store, heq]
    exact hstores.accounted haccounted
  | get now s key => exact haccounted.get now key
  | remove s key => exact haccounted.removeInternal key

theorem Reachable.accounted {s : MemoryStore F} (hreachable : Reachable s) : Accounted s := by
  induction hreachable with
  | withBudget maxEntries byteBudget categoryBudgets =>
    exact accounted_withBudget maxEntries byteBudget categoryBudgets
  | call _ hcall ih => exact ih.call hcall

/-- In every reachable store the accounting is exact and within the limits, and every call of
`store_with_options` ends. -/
theorem reachable_accounted {s : MemoryStore F} (hreachable : Reachable s) :
    Accounted s ∧ ∀ (order : EntryOrder F) (now : Nat) (key : String) (vector : List F)
      (metadata : MemoryMetadata) (options : StoreOptions),
      ∃ answer s', s.storeWithOptions order now key vector metadata options =
        (some answer, s') := by
  refine ⟨hreachable.accounted, fun order now key vector metadata options => ?_⟩
  obtain ⟨answer, s', heq, -⟩ := storeWithOptions_stores order now s key vector metadata options
  exact ⟨answer, s', heq⟩

/-- The order in which the entries are listed. -/
def asListed : EntryOrder F := ⟨id, fun _ => List.Perm.refl _⟩

def chatMetadata : MemoryMetadata where
  sourceRequestId := "request"
  layerCaptured := 0
  category := .context
  tags := ["chat", "chat"]
  textSummary := ""

theorem reachable_accounted_overwritten :
    let first : MemoryStore ℚ :=
      (withBudget 1 8 fun _ => none).store asListed 0 "request" [1] chatMetadata
    let second := (first.storeWithOptions asListed 1 "request" [1, 1]
      { chatMetadata with category := .finding, tags := ["chat"] } { pinned := true }).2
    Accounted second ∧ ∀ (order : EntryOrder ℚ) (now : Nat) (key : String) (vector : List ℚ)
      (metadata : MemoryMetadata) (options : StoreOptions),
      ∃ answer s', second.storeWithOptions order now key vector metadata options =
        (some answer, s') :=
  reachable_accounted (.call (.call (.withBudget 1 8 fun _ => none) (.store ..))
    (.storeWithOptions ..))

end MemoryStore

end Zllm.Engine

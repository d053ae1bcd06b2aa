import Zllm.Engine.StoreRejected

/-!
# Pinned memories

Making room gives up only entries that have expired or are not pinned, so that a pinned entry is
there through any run of the store in which it does not expire and its own key is neither stored to
nor removed. Reading it counts the access and changes nothing else.
-/

namespace Zllm.Engine.MemoryStore

open Ledger

variable {F : Type}

/-- The operations of a store. -/
inductive Operation (F : Type)
  | storeWithOptions (order : EntryOrder F) (key : String) (vector : List F)
      (metadata : MemoryMetadata) (options : StoreOptions)
  | store (order : EntryOrder F) (key : String) (vector : List F) (metadata : MemoryMetadata)
  | get (key : String)
  | remove (key : String)
  | queryByCategory (category : MemoryCategory)
  | queryByTag (tag : String)

namespace Operation

/-- The store after an operation, by the clock's reading. A query changes nothing. -/
def run (now : Nat) (s : MemoryStore F) : Operation F → MemoryStore F
  | storeWithOptions order key vector metadata options =>
    (s.storeWithOptions order now key vector metadata options).2
  | store order key vector metadata => s.store order now key vector metadata
  | get key => (s.get now key).2
  | remove key => (s.remove key).2
  | queryByCategory _ | queryByTag _ => s

/-- An operation stores to a key or removes it. -/
def Claims (key : String) : Operation F → Prop
  | storeWithOptions _ other _ _ _ | store _ other _ _ | remove other => other = key
  | get _ | queryByCategory _ | queryByTag _ => False

end Operation

/-- The store after operations, each at its own reading of the clock. -/
def runAll (calls : List (Nat × Operation F)) (s : MemoryStore F) : MemoryStore F :=
  calls.foldl (fun s call => call.2.run call.1 s) s

/-- Two entries differ in their accesses only. -/
structure SameMemory (entry other : MemoryEntry F) : Prop where
  key : other.key = entry.key
  vector : other.vector = entry.vector
  metadata : other.metadata = entry.metadata
  createdAt : other.createdAt = entry.createdAt
  expiresAt : other.expiresAt = entry.expiresAt
  pinned : other.pinned = entry.pinned
  byteSize : other.byteSize = entry.byteSize

theorem SameMemory.refl (entry : MemoryEntry F) : SameMemory entry entry :=
  ⟨rfl, rfl, rfl, rfl, rfl, rfl, rfl⟩

theorem SameMemory.accessed {entry other : MemoryEntry F} (hsame : SameMemory entry other) :
    SameMemory entry other.accessed :=
  ⟨hsame.key, hsame.vector, hsame.metadata, hsame.createdAt, hsame.expiresAt, hsame.pinned,
    hsame.byteSize⟩

theorem SameMemory.evictable_iff {entry other : MemoryEntry F} (hsame : SameMemory entry other)
    (now : Nat) : other.Evictable now ↔ entry.Evictable now := by
  simp only [MemoryEntry.Evictable, MemoryEntry.isExpired, hsame.expiresAt, hsame.pinned]

section

variable {now : Nat} {s s' : MemoryStore F} {key : String} {entry : MemoryEntry F}

/-- A store to another key keeps what making room does not give up. -/
theorem Stores.keeps {stored : MemoryEntry F} {answer : Except StoreError Unit}
    (hstores : Stores now s stored answer s') (hne : key ≠ stored.key)
    (hlookup : s.entries.lookup key = some entry) (hfirm : ¬entry.Evictable now) :
    s'.entries.lookup key = some entry := by
  cases hstores with
  | oversize hsize => exact hlookup
  | full hsize hcleared hfits hall => exact lookup_cleared hcleared hlookup hne hfirm
  | stored hcleared hfits =>
    have hroom := lookup_cleared hcleared hlookup hne hfirm
    exact (AList.lookup_insert_ne hne).trans hroom

theorem storeWithOptions_keeps (order : EntryOrder F) {other : String} (vector : List F)
    (metadata : MemoryMetadata) (options : StoreOptions) (hne : key ≠ other)
    (hlookup : s.entries.lookup key = some entry) (hfirm : ¬entry.Evictable now) :
    (s.storeWithOptions order now other vector metadata options).2.entries.lookup key =
      some entry := by
  obtain ⟨answer, s', heq, hstores⟩ :=
    storeWithOptions_stores order now s other vector metadata options
  rw [heq]
  exact hstores.keeps hne hlookup hfirm

theorem removeInternal_keeps {other : String} (hne : key ≠ other)
    (hlookup : s.entries.lookup key = some entry) :
    (s.removeInternal other).2.entries.lookup key = some entry := by
  rw [removeInternal_entries]
  exact lookup_erase_eq_some.mpr ⟨hne, hlookup⟩

theorem get_keeps (now : Nat) (other : String) (hlookup : s.entries.lookup key = some entry) :
    ∃ kept, (s.get now other).2.entries.lookup key = some kept ∧
      (kept = entry ∨ kept = entry.accessed) := by
  rcases get_snd now s other with hsame | ⟨read, hread, hget⟩
  · exact ⟨entry, by rw [hsame, hlookup], .inl rfl⟩
  · rw [hget]
    by_cases hkey : key = other
    · subst hkey
      obtain rfl := Option.some.inj (hread.symm.trans hlookup)
      exact ⟨read.accessed, AList.lookup_insert _, .inr rfl⟩
    · exact ⟨entry, (AList.lookup_insert_ne hkey).trans hlookup, .inl rfl⟩

/-- One operation that does not claim the key of an entry that is pinned and has not expired. -/
theorem Operation.keeps (call : Operation F) (hlookup : s.entries.lookup key = some entry)
    (hfirm : ¬entry.Evictable now) (hother : ¬ call.Claims key) :
    ∃ kept, (call.run now s).entries.lookup key = some kept ∧
      (kept = entry ∨ kept = entry.accessed) := by
  cases call with
  | storeWithOptions order other vector metadata options =>
    have hkept := storeWithOptions_keeps order vector metadata options (Ne.symm hother) hlookup
      hfirm
    exact ⟨entry, hkept, .inl rfl⟩
  | store order other vector metadata =>
    have hkept := storeWithOptions_keeps order vector metadata {} (Ne.symm hother) hlookup hfirm
    exact ⟨entry, hkept, .inl rfl⟩
  | get other => exact get_keeps now other hlookup
  | remove other => exact ⟨entry, removeInternal_keeps (Ne.symm hother) hlookup, .inl rfl⟩
  | queryByCategory category => exact ⟨entry, hlookup, .inl rfl⟩
  | queryByTag tag => exact ⟨entry, hlookup, .inl rfl⟩

theorem runAll_keeps (calls : List (Nat × Operation F)) {other : MemoryEntry F}
    (hsame : SameMemory entry other) (hlookup : s.entries.lookup key = some other)
    (hfirm : ∀ call ∈ calls, ¬entry.Evictable call.1)
    (hother : ∀ call ∈ calls, ¬ call.2.Claims key) :
    ∃ kept, (s.runAll calls).entries.lookup key = some kept ∧ SameMemory entry kept := by
  induction calls generalizing s other with
  | nil => exact ⟨other, hlookup, hsame⟩
  | cons call calls ih =>
    have hfirm' : ¬other.Evictable call.1 := by
      rw [hsame.evictable_iff]
      exact hfirm call List.mem_cons_self
    obtain ⟨kept, hkept, hcase⟩ :=
      call.2.keeps hlookup hfirm' (hother call List.mem_cons_self)
    have hsame' : SameMemory entry kept := by
      rcases hcase with rfl | rfl
      · exact hsame
      · exact hsame.accessed
    exact ih hsame' hkept (fun call hcall => hfirm call (List.mem_cons_of_mem _ hcall))
      fun call hcall => hother call (List.mem_cons_of_mem _ hcall)

/-- **Pinned memories survive.** Through any operations at whose times it has not expired, a pinned
entry stays as it is but for its accesses, unless its own key is stored to or removed. -/
theorem pinned_survives (s : MemoryStore F) (key : String) (entry : MemoryEntry F)
    (hlookup : s.entries.lookup key = some entry) (hpinned : entry.pinned = true)
    (calls : List (Nat × Operation F))
    (hunexpired : ∀ call ∈ calls, entry.isExpired call.1 = false)
    (hother : ∀ call ∈ calls, ¬ call.2.Claims key) :
    ∃ kept, (s.runAll calls).entries.lookup key = some kept ∧ SameMemory entry kept := by
  refine runAll_keeps calls (.refl entry) hlookup (fun call hcall => ?_) hother
  rintro (hexpired | hloose)
  · exact absurd hexpired (by simp [hunexpired call hcall])
  · exact absurd hpinned (by simp [hloose])

end

/-- A store for one entry holds a pinned goal until the goal is removed. -/
theorem pinned_survives_goal :
    let goal : MemoryEntry ℚ := newEntry 0 "goal" [1] chatMetadata { pinned := true }
    let s : MemoryStore ℚ := (withBudget 1 8 fun _ => none).insertEntry goal
    ∃ kept, (s.runAll [(1, .store asListed "chat" [1] chatMetadata), (2, .get "goal"),
        (3, .remove "chat")]).entries.lookup "goal" = some kept ∧ SameMemory goal kept :=
  pinned_survives _ "goal" _ (AList.lookup_insert _) rfl _ (fun _ _ => rfl)
    (by simp [Operation.Claims])

end Zllm.Engine.MemoryStore

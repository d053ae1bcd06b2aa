import Zllm.Engine.MemoryAccounting

/-!
# Rejected stores

What a call of `store_with_options` that fails has done to the entries that had not expired.
-/

namespace Zllm.Engine.MemoryStore

open Ledger

variable {F : Type}

/-- An entry under a key that has not expired. -/
def Live (now : Nat) (s : MemoryStore F) (key : String) (entry : MemoryEntry F) : Prop :=
  s.entries.lookup key = some entry ∧ entry.isExpired now = false

/-- Two stores hold the same unexpired entries, contents and pins included. -/
def SameLive (now : Nat) (s s' : MemoryStore F) : Prop :=
  ∀ key entry, Live now s key entry ↔ Live now s' key entry

/-- Whether there is an unexpired entry under a key. -/
def holds (now : Nat) (s : MemoryStore F) (key : String) : Bool :=
  (s.entries.lookup key).any fun entry => !entry.isExpired now

theorem holds_iff {now : Nat} {s : MemoryStore F} {key : String} :
    s.holds now key = true ↔ ∃ entry, Live now s key entry := by
  rw [holds, Option.any_eq_true]
  simp [Live]

theorem SameLive.holds {now : Nat} {s s' : MemoryStore F} (hsame : SameLive now s s')
    (key : String) : s.holds now key = s'.holds now key := by
  rw [Bool.eq_iff_iff, holds_iff, holds_iff]
  exact exists_congr (hsame key)

/-- A vector that the category's budget or the store's is too small for. -/
def TooBig (s : MemoryStore F) (category : MemoryCategory) (vector : List F) : Prop :=
  s.categoryBudget category < vector.length * sizeOfF32 ∨
    s.byteBudget < vector.length * sizeOfF32

/-- Nothing unexpired could be replaced or evicted by an entry under this key. -/
def NothingToLose (now : Nat) (s : MemoryStore F) (key : String) : Prop :=
  (∀ entry, ¬Live now s key entry) ∧ ∀ other entry, Live now s other entry → entry.pinned = true

section

variable {now : Nat} {s room : MemoryStore F} {key : String}

theorem lookup_of_cleared (hcleared : Cleared now (s.removeInternal key).2 room) {other : String}
    {entry : MemoryEntry F} (hlookup : room.entries.lookup other = some entry) :
    other ≠ key ∧ s.entries.lookup other = some entry := by
  have hremoved := hcleared.drains.subset hlookup
  rw [removeInternal_entries] at hremoved
  exact lookup_erase_eq_some.mp hremoved

theorem lookup_cleared (hcleared : Cleared now (s.removeInternal key).2 room) {other : String}
    {entry : MemoryEntry F} (hlookup : s.entries.lookup other = some entry) (hne : other ≠ key)
    (hfirm : ¬entry.Evictable now) : room.entries.lookup other = some entry := by
  apply hcleared.drains.keeps _ hfirm
  rw [removeInternal_entries]
  exact lookup_erase_eq_some.mpr ⟨hne, hlookup⟩

/-- Giving up all that may go, and the old entry, loses nothing only if there was nothing. -/
theorem sameLive_cleared_iff (hcleared : Cleared now (s.removeInternal key).2 room)
    (hfirm : ∀ {other entry}, room.entries.lookup other = some entry → ¬entry.Evictable now) :
    SameLive now s room ↔ NothingToLose now s key := by
  constructor
  · intro hsame
    refine ⟨fun entry hlive => ?_, fun other entry hlive => ?_⟩
    · exact (lookup_of_cleared hcleared ((hsame key entry).mp hlive).1).1 rfl
    · have hkept := hfirm ((hsame other entry).mp hlive).1
      exact Bool.not_eq_false _ |>.mp fun hpinned => hkept (.inr hpinned)
  · rintro ⟨hkey, hpinned⟩ other entry
    constructor
    · rintro ⟨hlookup, hexpired⟩
      refine ⟨lookup_cleared hcleared hlookup ?_ ?_, hexpired⟩
      · rintro rfl
        exact hkey entry ⟨hlookup, hexpired⟩
      · rintro (hgone | hloose)
        · rw [hexpired] at hgone
          cases hgone
        · rw [hpinned other entry ⟨hlookup, hexpired⟩] at hloose
          cases hloose
    · rintro ⟨hlookup, hexpired⟩
      exact ⟨(lookup_of_cleared hcleared hlookup).2, hexpired⟩

end

/-- A rejected store leaves the unexpired entries as they were just when the entry was too big for
its budgets, or there was nothing to replace and nothing to evict. -/
theorem rejected_atomic_iff {order : EntryOrder F} {now : Nat} {s s' : MemoryStore F}
    {key : String} {vector : List F} {metadata : MemoryMetadata} {options : StoreOptions}
    {e : StoreError}
    (hcall : s.storeWithOptions order now key vector metadata options = (some (.error e), s')) :
    SameLive now s s' ↔ TooBig s metadata.category vector ∨ NothingToLose now s key := by
  obtain ⟨answer, after, heq, hstores⟩ :=
    storeWithOptions_stores order now s key vector metadata options
  rw [hcall, Prod.mk.injEq, Option.some.injEq] at heq
  obtain ⟨rfl, rfl⟩ := heq
  cases hstores with
  | oversize hsize =>
    exact iff_of_true (fun _ _ => Iff.rfl) (.inl hsize)
  | full hsize hcleared hfits hfirm =>
    rw [sameLive_cleared_iff hcleared hfirm]
    exact (or_iff_right hsize).symm

/-- A store of eight bytes with one pinned and one unpinned entry of four. -/
def halfPinned : MemoryStore ℚ :=
  ((withBudget 2 8 fun _ => none).storeWithOptions asListed 0 "pinned" [1] chatMetadata
    { pinned := true }).2.store asListed 0 "capture" [1] chatMetadata

theorem reachable_halfPinned : Reachable halfPinned :=
  .call (.call (.withBudget ..) (.storeWithOptions ..)) (.store ..)

theorem rejected_atomic_iff_large :
    SameLive 0 halfPinned
        (halfPinned.storeWithOptions asListed 0 "large" [1, 1] chatMetadata {}).2 ↔
      TooBig halfPinned .context [(1 : ℚ), 1] ∨ NothingToLose 0 halfPinned "large" := by
  have hrejected : (halfPinned.storeWithOptions asListed 0 "large" [1, 1] chatMetadata {}).1 =
      some (.error .full) := by decide +kernel
  exact rejected_atomic_iff (Prod.ext hrejected rfl)

/-- Eight more bytes are refused, and the unpinned entry is gone. -/
theorem rejected_not_atomic :
    ¬∀ {s : MemoryStore ℚ}, Reachable s → ∀ {order : EntryOrder ℚ} {now : Nat} {s' : MemoryStore ℚ}
      {key : String} {vector : List ℚ} {metadata : MemoryMetadata} {options : StoreOptions}
      {e : StoreError},
      s.storeWithOptions order now key vector metadata options = (some (.error e), s') →
        SameLive now s s' := by
  intro hatomic
  have hrejected : (halfPinned.storeWithOptions asListed 0 "large" [1, 1] chatMetadata {}).1 =
      some (.error .full) := by decide +kernel
  have hsame : SameLive 0 halfPinned
      (halfPinned.storeWithOptions asListed 0 "large" [1, 1] chatMetadata {}).2 :=
    hatomic reachable_halfPinned (Prod.ext hrejected rfl)
  have hkept := hsame.holds "capture"
  revert hkept
  decide +kernel

end Zllm.Engine.MemoryStore

import Zllm.Engine.MemoryAccounting

/-!
# Room in the memory store

When a new entry gets in, and that an entry always goes back in over one of its own size.
-/

namespace Zllm.Engine

open Ledger

variable {F : Type}

/-- An entry that making room keeps. -/
def MemoryEntry.firm (now : Nat) (entry : MemoryEntry F) : Bool :=
  entry.pinned && !entry.isExpired now

theorem MemoryEntry.firm_iff {now : Nat} {entry : MemoryEntry F} :
    entry.firm now = true ↔ ¬entry.Evictable now := by
  simp [MemoryEntry.firm, MemoryEntry.Evictable, and_comm]

/-- The bytes of an entry that making room keeps. -/
def MemoryEntry.firmBytes (now : Nat) (entry : MemoryEntry F) : Nat :=
  if entry.firm now then entry.byteSize else 0

theorem MemoryEntry.firmBytes_le (now : Nat) (entry : MemoryEntry F) :
    entry.firmBytes now ≤ entry.byteSize := by
  rw [MemoryEntry.firmBytes]
  split
  · exact le_rfl
  · exact Nat.zero_le _

namespace MemoryStore

/-- Beside the entries that are pinned and have not expired, `byteSize` bytes of a category fit in
the store's budget, in the category's and in the number of entries. -/
def Room (s : MemoryStore F) (now : Nat) (category : MemoryCategory) (byteSize : Nat) : Prop :=
  total (MemoryEntry.firmBytes now) s.entries + byteSize ≤ s.byteBudget ∧
    totalOf (fun entry => entry.metadata.category) (MemoryEntry.firmBytes now) category s.entries +
      byteSize ≤ s.categoryBudget category ∧
    total (fun entry => if entry.firm now then 1 else 0) s.entries < s.maxEntries

section

variable {s room : MemoryStore F} {now : Nat} {category : MemoryCategory} {byteSize : Nat}

theorem fits_iff_totals (haccounted : Accounted s) :
    s.fits category byteSize = true ↔
      total MemoryEntry.byteSize s.entries + byteSize ≤ s.byteBudget ∧
        totalOf (fun entry => entry.metadata.category) MemoryEntry.byteSize category s.entries +
          byteSize ≤ s.categoryBudget category ∧
        total (fun _ => 1) s.entries < s.maxEntries := by
  rw [fits_iff, haccounted.bytesUsed, categoryUsed, haccounted.categoryBytes category, total_one]
  rfl

theorem room_of_fits (haccounted : Accounted s) (hfits : s.fits category byteSize = true) :
    s.Room now category byteSize := by
  obtain ⟨hbytes, hcategory, hcount⟩ := (fits_iff_totals haccounted).mp hfits
  have hfirm := total_mono (MemoryEntry.firmBytes_le now) s.entries
  have hfirmOf : totalOf (fun entry => entry.metadata.category) (MemoryEntry.firmBytes now) category
      s.entries ≤
      totalOf (fun entry => entry.metadata.category) MemoryEntry.byteSize category s.entries := by
    apply total_mono
    intro entry
    split
    · exact entry.firmBytes_le now
    · exact le_rfl
  have hfirmCount : total (fun entry => if entry.firm now then 1 else 0) s.entries ≤
      total (fun _ => 1) s.entries := by
    apply total_mono
    intro entry
    split
    · exact le_rfl
    · exact Nat.zero_le _
  refine ⟨?_, ?_, ?_⟩
  · omega
  · omega
  · omega

/-- Where nothing may be given up, what fits is what there is room for. -/
theorem fits_of_room (haccounted : Accounted s)
    (hfirm : ∀ {key entry}, s.entries.lookup key = some entry → ¬entry.Evictable now)
    (hroom : s.Room now category byteSize) : s.fits category byteSize = true := by
  have hkept : ∀ key entry, s.entries.lookup key = some entry → entry.firm now = true :=
    fun key entry hlookup => MemoryEntry.firm_iff.mpr (hfirm hlookup)
  obtain ⟨hbytes, hcategory, hcount⟩ := hroom
  rw [fits_iff_totals haccounted]
  refine ⟨?_, ?_, ?_⟩
  · rw [total_congr (g := MemoryEntry.byteSize) fun key entry hlookup => by
      rw [MemoryEntry.firmBytes, if_pos (hkept key entry hlookup)]] at hbytes
    exact hbytes
  · rw [totalOf, total_congr (g := fun entry =>
      if entry.metadata.category = category then entry.byteSize else 0) fun key entry hlookup => by
      rw [MemoryEntry.firmBytes, if_pos (hkept key entry hlookup)]] at hcategory
    exact hcategory
  · rw [total_congr (g := fun _ => 1) fun key entry hlookup => by
      rw [if_pos (hkept key entry hlookup)]] at hcount
    exact hcount

/-- Room is counted in entries that making room keeps. -/
theorem room_cleared_iff (hcleared : Cleared now s room) :
    room.Room now category byteSize ↔ s.Room now category byteSize := by
  have hloose : ∀ entry : MemoryEntry F, entry.Evictable now → entry.firm now = false := by
    intro entry hevictable
    rw [Bool.eq_false_iff, ne_eq, MemoryEntry.firm_iff, not_not]
    exact hevictable
  have hbytes : ∀ entry : MemoryEntry F, entry.Evictable now → entry.firmBytes now = 0 := by
    intro entry hevictable
    rw [MemoryEntry.firmBytes, hloose entry hevictable]
    rfl
  have htotal := hcleared.drains.total_eq hbytes
  have htotalOf : totalOf (fun entry => entry.metadata.category) (MemoryEntry.firmBytes now) category
      room.entries = totalOf (fun entry => entry.metadata.category) (MemoryEntry.firmBytes now)
        category s.entries := by
    apply hcleared.drains.total_eq
    intro entry hevictable
    rw [hbytes entry hevictable, ite_self]
  have hcount : total (fun entry => if entry.firm now then 1 else 0) room.entries =
      total (fun entry => if entry.firm now then 1 else 0) s.entries := by
    apply hcleared.drains.total_eq
    intro entry hevictable
    rw [hloose entry hevictable]
    rfl
  rw [Room, Room, htotal, htotalOf, hcount, hcleared.limits.byteBudget,
    hcleared.limits.categoryBudget, hcleared.limits.maxEntries]

/-- A new entry gets in exactly if there is room for it. -/
theorem Stores.ok_iff {entry : MemoryEntry F} {answer : Except StoreError Unit}
    {s' : MemoryStore F} (hstores : Stores now s entry answer s') (haccounted : Accounted s)
    (hnew : s.entries.lookup entry.key = none) :
    answer = .ok () ↔ s.Room now entry.metadata.category entry.byteSize := by
  have hremoved : (s.removeInternal entry.key).2 = s := by
    rw [removeInternal_of_lookup_eq_none hnew]
  cases hstores with
  | oversize hsize =>
    apply iff_of_false (by simp)
    rintro ⟨hbytes, hcategory, -⟩
    omega
  | full hsize hcleared hfits hfirm =>
    apply iff_of_false (by simp)
    rw [hremoved] at hcleared
    intro hroom
    rw [fits_of_room (hcleared.accounted haccounted) hfirm
      ((room_cleared_iff hcleared).mpr hroom)] at hfits
    cases hfits
  | stored hcleared hfits =>
    rw [hremoved] at hcleared
    exact iff_of_true rfl
      ((room_cleared_iff hcleared).mp (room_of_fits (hcleared.accounted haccounted) hfits))

end

/-! ### What has to go -/

section Spared

variable (order : EntryOrder F) (now : Nat) (category : MemoryCategory) (byteSize : Nat)

/-- The entry that is given up next: one that has expired, else one of the least score among those
that are not pinned, of the category where that has any. -/
def nextToGo (s : MemoryStore F) : Option String :=
  (((order.arrange s.entries.entries).find? fun entry => entry.2.isExpired now).map Sigma.fst).or
    ((s.lowestScoreKey order (some category)).or (s.lowestScoreKey order none))

/-- A store without the first `gone` entries that are given up. -/
def without : Nat → MemoryStore F → MemoryStore F
  | 0, s => s
  | gone + 1, s =>
    match s.nextToGo order now category with
    | some key => without gone (s.removeInternal key).2
    | none => s

/-- Beside all that a store holds, `byteSize` bytes of a category are within its budgets. -/
def WithinBudgets (s : MemoryStore F) : Prop :=
  total MemoryEntry.byteSize s.entries + byteSize ≤ s.byteBudget ∧
    totalOf (fun entry => entry.metadata.category) MemoryEntry.byteSize category s.entries +
      byteSize ≤ s.categoryBudget category ∧
    total (fun _ => 1) s.entries < s.maxEntries

/-- By the time that a key's entry would be given up, fewer that are gone are enough. -/
def Spared (key : String) (s : MemoryStore F) : Prop :=
  ∀ gone, (without order now category gone s).entries.lookup key = none →
    ∃ fewer < gone, (without order now category fewer s).WithinBudgets category byteSize

variable {order now category byteSize} {s : MemoryStore F} {key : String}

theorem nextToGo_gives_up (hnext : s.nextToGo order now category = some key) :
    GivesUp now s (s.removeInternal key).2 := by
  rcases Option.or_eq_some_iff.mp hnext with hexpired | ⟨-, hlowest⟩
  · obtain ⟨entry, hfind, rfl⟩ := Option.map_eq_some_iff.mp hexpired
    have hdrop : s.dropOneExpired order now = some (s.removeInternal entry.1).2 := by
      rw [dropOneExpired, hfind, Option.map_some]
    exact dropOneExpired_gives_up hdrop
  · have hevict : s.evictOne order (some category) = some (s.removeInternal key).2 := by
      rw [evictOne, Option.bind_some, hlowest, Option.map_some]
    exact evictOne_gives_up hevict

theorem makeRoom_nextToGo (rounds : Nat) (hfits : s.fits category byteSize = false) :
    makeRoom order now category byteSize (rounds + 1) s =
      match s.nextToGo order now category with
      | some key => makeRoom order now category byteSize rounds (s.removeInternal key).2
      | none => (some false, s) := by
  rw [makeRoom, if_neg (Bool.eq_false_iff.mp hfits), nextToGo, dropOneExpired, evictOne,
    Option.bind_some]
  cases (order.arrange s.entries.entries).find? fun entry => entry.2.isExpired now with
  | some entry => rfl
  | none =>
    rw [Option.map_none, Option.map_none, Option.none_or]
    cases (s.lowestScoreKey order (some category)).or (s.lowestScoreKey order none) with
    | some key => rfl
    | none => rfl

theorem spared_of_fits (haccounted : Accounted s) (hfits : s.fits category byteSize = true) :
    Spared order now category byteSize key s ↔ (s.entries.lookup key).isSome = true := by
  rw [Option.isSome_iff_ne_none]
  constructor
  · intro hspared hnone
    obtain ⟨fewer, hfewer, -⟩ := hspared 0 hnone
    exact absurd hfewer (Nat.not_lt_zero fewer)
  · intro hthere gone hnone
    cases gone with
    | zero => exact absurd hnone hthere
    | succ gone => exact ⟨0, Nat.succ_pos gone, (fits_iff_totals haccounted).mp hfits⟩

theorem spared_of_none (hnext : s.nextToGo order now category = none)
    (hbudgets : ¬s.WithinBudgets category byteSize) :
    Spared order now category byteSize key s ↔ (s.entries.lookup key).isSome = true := by
  have hall : ∀ gone, without order now category gone s = s := by
    intro gone
    cases gone with
    | zero => rfl
    | succ gone => rw [without, hnext]
  simp only [Spared, hall, hbudgets, and_false, exists_false, Option.isSome_iff_ne_none, ne_eq]
  exact ⟨fun hspared => hspared 0, fun hthere _ => hthere⟩

theorem spared_of_some {first : String} (hnext : s.nextToGo order now category = some first)
    (hbudgets : ¬s.WithinBudgets category byteSize) :
    Spared order now category byteSize key s ↔
      Spared order now category byteSize key (s.removeInternal first).2 := by
  have hsucc : ∀ gone, without order now category (gone + 1) s =
      without order now category gone (s.removeInternal first).2 := by
    intro gone
    rw [without, hnext]
  constructor
  · intro hspared gone hnone
    obtain ⟨fewer, hfewer, hwithin⟩ := hspared (gone + 1) (by rwa [hsucc])
    cases fewer with
    | zero => exact absurd hwithin hbudgets
    | succ fewer => exact ⟨fewer, Nat.lt_of_succ_lt_succ hfewer, by rwa [hsucc] at hwithin⟩
  · intro hspared gone hnone
    cases gone with
    | zero =>
      -- what is not in `s` is not there when one more is gone
      have hgone : (s.removeInternal first).2.entries.lookup key = none := by
        rw [removeInternal_entries, Option.eq_none_iff_forall_ne_some]
        intro entry hentry
        have hbefore : s.entries.lookup key = some entry := (lookup_erase_eq_some.mp hentry).2
        rw [show s.entries.lookup key = none from hnone] at hbefore
        cases hbefore
      obtain ⟨fewer, hfewer, -⟩ := hspared 0 hgone
      exact absurd hfewer (Nat.not_lt_zero fewer)
    | succ gone =>
      obtain ⟨fewer, hfewer, hwithin⟩ := hspared gone (by rwa [hsucc] at hnone)
      exact ⟨fewer + 1, Nat.succ_lt_succ hfewer, by rwa [hsucc]⟩

/-- The loop keeps just the entries that are spared. -/
theorem isSome_makeRoom (rounds : Nat) (haccounted : Accounted s)
    (hrounds : s.entryCount < rounds) :
    ((makeRoom order now category byteSize rounds s).2.entries.lookup key).isSome = true ↔
      Spared order now category byteSize key s := by
  induction rounds generalizing s with
  | zero => exact absurd hrounds (Nat.not_lt_zero _)
  | succ rounds ih =>
    cases hfits : s.fits category byteSize with
    | true => rw [makeRoom_of_fits order now category byteSize rounds hfits,
        spared_of_fits haccounted hfits]
    | false =>
      have hbudgets : ¬s.WithinBudgets category byteSize := by
        intro hwithin
        rw [(fits_iff_totals haccounted).mpr hwithin] at hfits
        cases hfits
      rw [makeRoom_nextToGo rounds hfits]
      cases hnext : s.nextToGo order now category with
      | none => rw [spared_of_none hnext hbudgets]
      | some first =>
        have hcount := (nextToGo_gives_up hnext).entryCount
        rw [spared_of_some hnext hbudgets]
        exact ih (haccounted.removeInternal first) (by omega)

end Spared

/-- A store that room has been made in for an entry, whose old one has been taken out. -/
def clearedFor (order : EntryOrder F) (now : Nat) (s : MemoryStore F) (key : String)
    (category : MemoryCategory) (byteSize : Nat) : MemoryStore F :=
  (makeRoom order now category byteSize ((s.removeInternal key).2.entryCount + 1)
    (s.removeInternal key).2).2

theorem cleared_clearedFor (order : EntryOrder F) (now : Nat) (s : MemoryStore F) (key : String)
    (category : MemoryCategory) (byteSize : Nat) :
    Cleared now (s.removeInternal key).2 (s.clearedFor order now key category byteSize) :=
  makeRoom_cleared order now category byteSize _ _

theorem isSome_clearedFor {s : MemoryStore F} (haccounted : Accounted s) (order : EntryOrder F)
    (now : Nat) (key : String) (category : MemoryCategory) (byteSize : Nat) {other : String} :
    ((s.clearedFor order now key category byteSize).entries.lookup other).isSome = true ↔
      Spared order now category byteSize other (s.removeInternal key).2 :=
  isSome_makeRoom _ (haccounted.removeInternal key) (Nat.lt_succ_self _)

/-- An entry that is not too big on its own goes in exactly if there is room once the old one is
out; either way what room was made of is gone. -/
theorem storeWithOptions_clearedFor {s : MemoryStore F} (haccounted : Accounted s)
    (order : EntryOrder F) (now : Nat) (key : String) (vector : List F)
    (metadata : MemoryMetadata) (options : StoreOptions)
    (hsize : ¬(s.categoryBudget metadata.category < vector.length * sizeOfF32 ∨
      s.byteBudget < vector.length * sizeOfF32)) :
    let room := s.clearedFor order now key metadata.category (vector.length * sizeOfF32)
    (s.removeInternal key).2.Room now metadata.category (vector.length * sizeOfF32) ∧
        (s.storeWithOptions order now key vector metadata options).2 =
          room.insertEntry (newEntry now key vector metadata options) ∨
      ¬(s.removeInternal key).2.Room now metadata.category (vector.length * sizeOfF32) ∧
        (s.storeWithOptions order now key vector metadata options).2 = room := by
  intro room
  rw [storeWithOptions]
  dsimp only
  rw [if_neg hsize]
  have hremoved := haccounted.removeInternal key
  have hcleared : Cleared now (s.removeInternal key).2 room := cleared_clearedFor ..
  have hfits := makeRoom_fits order now metadata.category (vector.length * sizeOfF32)
    ((s.removeInternal key).2.entryCount + 1) (s.removeInternal key).2
  have hfull := makeRoom_full order now metadata.category (vector.length * sizeOfF32)
    ((s.removeInternal key).2.entryCount + 1) (s.removeInternal key).2
  have hends := makeRoom_ends order now metadata.category (vector.length * sizeOfF32)
    ((s.removeInternal key).2.entryCount + 1) (s.removeInternal key).2 (Nat.lt_succ_self _)
  have hroom : (makeRoom order now metadata.category (vector.length * sizeOfF32)
    ((s.removeInternal key).2.entryCount + 1) (s.removeInternal key).2).2 = room := rfl
  rw [hroom] at hfits hfull
  generalize makeRoom order now metadata.category (vector.length * sizeOfF32)
    ((s.removeInternal key).2.entryCount + 1) (s.removeInternal key).2 = outcome
    at hfits hfull hends hroom ⊢
  obtain ⟨answer, after⟩ := outcome
  obtain rfl : after = room := hroom
  cases answer with
  | none => exact absurd rfl hends
  | some fit =>
    cases fit with
    | true =>
      have hfit : room.Room now metadata.category (vector.length * sizeOfF32) :=
        room_of_fits (hcleared.accounted hremoved) (hfits rfl)
      exact .inl ⟨(room_cleared_iff hcleared).mp hfit, rfl⟩
    | false =>
      obtain ⟨hnofit, hfirm⟩ := hfull rfl
      refine .inr ⟨fun habsurd => ?_, rfl⟩
      rw [fits_of_room (hcleared.accounted hremoved) hfirm
        ((room_cleared_iff hcleared).mpr habsurd)] at hnofit
      cases hnofit

theorem storeWithOptions_of_fits (s : MemoryStore F) (order : EntryOrder F) (now : Nat)
    (key : String) (vector : List F) (metadata : MemoryMetadata) (options : StoreOptions)
    (hfits : (s.removeInternal key).2.fits metadata.category (vector.length * sizeOfF32) = true) :
    s.storeWithOptions order now key vector metadata options =
      (some (.ok ()),
        (s.removeInternal key).2.insertEntry (newEntry now key vector metadata options)) := by
  have hremoved := removeInternal_limits s key
  obtain ⟨hbytes, hcategory, -⟩ := fits_iff.mp hfits
  rw [hremoved.byteBudget] at hbytes
  rw [hremoved.categoryBudget] at hcategory
  rw [storeWithOptions]
  dsimp only
  rw [if_neg (by omega), makeRoom_of_fits order now _ _ _ hfits]

/-! ### Replacing -/

section Replace

variable {s : MemoryStore F} {key : String} {entry : MemoryEntry F}

/-- Where an entry has been taken out, one of its size and category fits. -/
theorem fits_removed (haccounted : Accounted s) (hlookup : s.entries.lookup key = some entry) :
    (s.removeInternal key).2.fits entry.metadata.category entry.byteSize = true := by
  rw [fits_iff_totals (haccounted.removeInternal key), removeInternal_entries,
    (removeInternal_limits s key).byteBudget, (removeInternal_limits s key).categoryBudget,
    (removeInternal_limits s key).maxEntries]
  have hbytes := total_erase MemoryEntry.byteSize hlookup
  have hcategory := total_erase (fun other : MemoryEntry F =>
    if other.metadata.category = entry.metadata.category then other.byteSize else 0) hlookup
  rw [if_pos rfl] at hcategory
  have hcount := total_erase (fun _ : MemoryEntry F => 1) hlookup
  have husedOf := haccounted.categoryUsed_le entry.metadata.category
  rw [categoryUsed, haccounted.categoryBytes, totalOf, hcategory] at husedOf
  have hused := haccounted.bytesUsed_le
  rw [haccounted.bytesUsed, hbytes] at hused
  have hentries := haccounted.entryCount_le
  rw [entryCount, ← total_one, hcount] at hentries
  refine ⟨by omega, ?_, by omega⟩
  rw [totalOf]
  omega

/-- Storing over an entry of the same size and category evicts nothing and succeeds. -/
theorem storeWithOptions_replaces (haccounted : Accounted s) (hsound : Sound s)
    (hlookup : s.entries.lookup key = some entry) (order : EntryOrder F) (now : Nat)
    {vector : List F} {metadata : MemoryMetadata} (options : StoreOptions)
    (hvector : vector.length = entry.vector.length)
    (hcategory : metadata.category = entry.metadata.category) :
    s.storeWithOptions order now key vector metadata options =
      (some (.ok ()),
        (s.removeInternal key).2.insertEntry (newEntry now key vector metadata options)) := by
  have hsize : vector.length * sizeOfF32 = entry.byteSize := by
    rw [hvector, hsound.byteSize hlookup]
  apply storeWithOptions_of_fits
  rw [hsize, hcategory]
  exact fits_removed haccounted hlookup

end Replace

end MemoryStore

end Zllm.Engine

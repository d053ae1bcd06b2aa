import Mathlib.Data.List.AList
import Mathlib.Logic.Relation
import Mathlib.Tactic

/-!
# Ledgers

Totals over a finite map and sets of keys kept as lists: what inserting and erasing a key does to
them, and what is left when entries of one kind are given up one after another.
-/

namespace Zllm.Ledger

open Function (update)

variable {κ β : Type} [DecidableEq κ]

/-- A finite map whose entries are listed in some order. -/
abbrev Table (κ β : Type) := AList (fun _ : κ => β)

/-! ### Totals -/

/-- The sum of `f` over the values of a map. -/
def total (f : β → Nat) (table : Table κ β) : Nat :=
  (table.entries.map fun entry => f entry.2).sum

omit [DecidableEq κ] in
@[simp]
theorem total_empty (f : β → Nat) : total f (∅ : Table κ β) = 0 := by
  simp [total]

omit [DecidableEq κ] in
theorem total_one (table : Table κ β) : total (fun _ => 1) table = table.entries.length := by
  simp [total]

private theorem sum_kerase (f : β → Nat) {key : κ} {value : β} :
    ∀ {entries : List (Sigma fun _ : κ => β)}, entries.dlookup key = some value →
      (entries.map fun entry => f entry.2).sum =
        f value + ((entries.kerase key).map fun entry => f entry.2).sum := by
  intro entries
  induction entries with
  | nil =>
    intro hlookup
    simp at hlookup
  | cons entry entries ih =>
    intro hlookup
    by_cases hkey : key = entry.1
    · subst hkey
      rw [List.dlookup_cons_eq] at hlookup
      rw [List.kerase_cons_eq rfl, List.map_cons, List.sum_cons, Option.some.inj hlookup]
    · rw [List.dlookup_cons_ne _ _ hkey] at hlookup
      rw [List.kerase_cons_ne hkey, List.map_cons, List.sum_cons, List.map_cons, List.sum_cons,
        ih hlookup]
      omega

theorem total_erase (f : β → Nat) {table : Table κ β} {key : κ} {value : β}
    (hlookup : table.lookup key = some value) :
    total f table = f value + total f (table.erase key) :=
  sum_kerase f hlookup

theorem erase_of_lookup_eq_none {table : Table κ β} {key : κ}
    (hlookup : table.lookup key = none) : table.erase key = table := by
  apply AList.ext
  exact List.kerase_of_notMem_keys (AList.lookup_eq_none.mp hlookup)

theorem total_insert (f : β → Nat) {table : Table κ β} {key : κ} (value : β)
    (hlookup : table.lookup key = none) :
    total f (table.insert key value) = f value + total f table := by
  unfold total
  rw [AList.entries_insert_of_notMem (AList.lookup_eq_none.mp hlookup), List.map_cons,
    List.sum_cons]

theorem total_overwrite (f : β → Nat) {table : Table κ β} {key : κ} {value value' : β}
    (hlookup : table.lookup key = some value) (hf : f value' = f value) :
    total f (table.insert key value') = total f table := by
  have hinsert : table.insert key value' = (table.erase key).insert key value' := by
    apply AList.ext
    rw [AList.entries_insert, AList.entries_insert_of_notMem (by simp)]
    rfl
  rw [hinsert, total_insert f value' (AList.lookup_erase key table), hf, total_erase f hlookup]

theorem total_congr {f g : β → Nat} {table : Table κ β}
    (hvalues : ∀ key value, table.lookup key = some value → f value = g value) :
    total f table = total g table := by
  unfold total
  congr 1
  apply List.map_congr_left
  intro entry hentry
  exact hvalues entry.1 entry.2 (AList.mem_lookup_iff.mpr hentry)

omit [DecidableEq κ] in
theorem total_mono {f g : β → Nat} (hle : ∀ value, f value ≤ g value) (table : Table κ β) :
    total f table ≤ total g table := by
  unfold total
  apply List.sum_le_sum
  intro entry _
  exact hle entry.2

theorem length_erase {table : Table κ β} {key : κ} {value : β}
    (hlookup : table.lookup key = some value) :
    table.entries.length = (table.erase key).entries.length + 1 := by
  have herase := total_erase (fun _ => 1) hlookup
  rw [total_one, total_one] at herase
  omega

theorem lookup_erase_eq_some {table : Table κ β} {key other : κ} {value : β} :
    (table.erase key).lookup other = some value ↔
      other ≠ key ∧ table.lookup other = some value := by
  by_cases hkey : other = key
  · subst hkey
    simp
  · rw [AList.lookup_erase_ne hkey]
    simp [hkey]

theorem lookup_insert_eq_some {table : Table κ β} {key other : κ} {value current : β} :
    (table.insert key value).lookup other = some current ↔
      other = key ∧ value = current ∨ other ≠ key ∧ table.lookup other = some current := by
  by_cases hkey : other = key
  · subst hkey
    simp
  · rw [AList.lookup_insert_ne hkey]
    simp [hkey]

/-- A map whose entries another map has too, weighing no less, weighs no more. -/
theorem total_le_of_lookup {f g : β → Nat} {table table' : Table κ β}
    (hle : ∀ key value, table.lookup key = some value →
      ∃ value', table'.lookup key = some value' ∧ f value ≤ g value') :
    total f table ≤ total g table' := by
  induction table using AList.insertRec generalizing table' with
  | H0 =>
    rw [total_empty]
    exact Nat.zero_le _
  | IH key value table hkey ih =>
    obtain ⟨value', hlookup', hvalue⟩ := hle key value (AList.lookup_insert table)
    have hrest : total f table ≤ total g (table'.erase key) := by
      apply ih
      intro other current hcurrent
      have hne : other ≠ key := by
        rintro rfl
        rw [AList.lookup_eq_none.mpr hkey] at hcurrent
        cases hcurrent
      obtain ⟨current', hcurrent', hle'⟩ := hle other current (by
        rwa [AList.lookup_insert_ne hne])
      exact ⟨current', lookup_erase_eq_some.mpr ⟨hne, hcurrent'⟩, hle'⟩
    rw [total_insert f value (AList.lookup_eq_none.mpr hkey), total_erase g hlookup']
    exact Nat.add_le_add hvalue hrest

/-! ### Giving entries up -/

/-- One entry of the kind `loose` is given up. -/
def Drop (loose : β → Prop) (table table' : Table κ β) : Prop :=
  ∃ key value, table.lookup key = some value ∧ loose value ∧ table' = table.erase key

/-- Entries of the kind `loose` are given up, one after another. -/
def Drains (loose : β → Prop) : Table κ β → Table κ β → Prop :=
  Relation.ReflTransGen (Drop loose)

section

variable {loose : β → Prop} {table table' : Table κ β}

theorem Drains.subset (hdrains : Drains loose table table') {key : κ} {value : β}
    (hlookup : table'.lookup key = some value) : table.lookup key = some value := by
  induction hdrains with
  | refl => exact hlookup
  | tail _ hdrop ih =>
    obtain ⟨victim, given, hvictim, hloose, rfl⟩ := hdrop
    exact ih (lookup_erase_eq_some.mp hlookup).2

theorem Drains.keeps (hdrains : Drains loose table table') {key : κ} {value : β}
    (hlookup : table.lookup key = some value) (hfirm : ¬loose value) :
    table'.lookup key = some value := by
  induction hdrains with
  | refl => exact hlookup
  | tail _ hdrop ih =>
    obtain ⟨victim, given, hvictim, hloose, rfl⟩ := hdrop
    apply lookup_erase_eq_some.mpr
    refine ⟨?_, ih⟩
    rintro rfl
    rw [hvictim] at ih
    exact hfirm (Option.some.inj ih ▸ hloose)

/-- A total that the given-up entries do not count in is unchanged. -/
theorem Drains.total_eq (hdrains : Drains loose table table') {f : β → Nat}
    (hzero : ∀ value, loose value → f value = 0) : total f table' = total f table := by
  induction hdrains with
  | refl => rfl
  | tail _ hdrop ih =>
    obtain ⟨victim, given, hvictim, hloose, rfl⟩ := hdrop
    have herase := total_erase f hvictim
    rw [hzero given hloose, Nat.zero_add] at herase
    rw [← herase, ih]

end

/-! ### Key sets -/

/-- A set of keys as a list without repetition. -/
structure KeySet (κ : Type) where
  keys : List κ
  nodup : keys.Nodup

namespace KeySet

def empty : KeySet κ := ⟨[], List.nodup_nil⟩

def insert (key : κ) (set : KeySet κ) : KeySet κ :=
  ⟨List.insert key set.keys, set.nodup.insert⟩

def erase (key : κ) (set : KeySet κ) : KeySet κ :=
  ⟨set.keys.erase key, set.nodup.erase key⟩

instance : Membership κ (KeySet κ) := ⟨fun set key => key ∈ set.keys⟩

omit [DecidableEq κ] in
theorem mem_def {key : κ} {set : KeySet κ} : key ∈ set ↔ key ∈ set.keys := Iff.rfl

omit [DecidableEq κ] in
@[simp]
theorem notMem_empty (key : κ) : key ∉ (empty : KeySet κ) := List.not_mem_nil

@[simp]
theorem mem_insert {key other : κ} {set : KeySet κ} :
    other ∈ set.insert key ↔ other = key ∨ other ∈ set := by
  simp [mem_def, insert]

@[simp]
theorem mem_erase {key other : κ} {set : KeySet κ} :
    other ∈ set.erase key ↔ other ≠ key ∧ other ∈ set := by
  simp only [mem_def, erase]
  exact set.nodup.mem_erase_iff

end KeySet

/-! ### Indexes -/

/-- For each label, the set of the keys filed under it. -/
abbrev Index (ι κ : Type) := ι → Option (KeySet κ)

namespace Index

variable {ι : Type} [DecidableEq ι]

def add (key : κ) (index : Index ι κ) (label : ι) : Index ι κ :=
  update index label (some (((index label).getD KeySet.empty).insert key))

def drop (key : κ) (index : Index ι κ) (label : ι) : Index ι κ :=
  update index label ((index label).map (KeySet.erase key))

omit [DecidableEq κ] [DecidableEq ι] in
/-- A key is filed under a label. -/
def Holds (index : Index ι κ) (label : ι) (key : κ) : Prop :=
  key ∈ (index label).getD KeySet.empty

theorem holds_add {index : Index ι κ} {key other : κ} {label label' : ι} :
    (index.add key label).Holds label' other ↔
      index.Holds label' other ∨ other = key ∧ label' = label := by
  by_cases hlabel : label' = label
  · subst hlabel
    simp [Holds, add, or_comm]
  · simp [Holds, add, hlabel]

theorem holds_drop {index : Index ι κ} {key other : κ} {label label' : ι} :
    (index.drop key label).Holds label' other ↔
      index.Holds label' other ∧ ¬(other = key ∧ label' = label) := by
  by_cases hlabel : label' = label
  · subst hlabel
    cases hset : index label' with
    | none => simp [Holds, drop, hset]
    | some set => simp [Holds, drop, hset, and_comm]
  · simp [Holds, drop, hlabel]

theorem holds_addAll {key other : κ} {label : ι} (labels : List ι) (index : Index ι κ) :
    (labels.foldl (add key) index).Holds label other ↔
      index.Holds label other ∨ other = key ∧ label ∈ labels := by
  induction labels generalizing index with
  | nil => simp
  | cons first labels ih =>
    rw [List.foldl_cons, ih, holds_add, List.mem_cons, or_assoc, ← and_or_left]

theorem holds_dropAll {key other : κ} {label : ι} (labels : List ι) (index : Index ι κ) :
    (labels.foldl (drop key) index).Holds label other ↔
      index.Holds label other ∧ ¬(other = key ∧ label ∈ labels) := by
  induction labels generalizing index with
  | nil => simp
  | cons first labels ih =>
    rw [List.foldl_cons, ih, holds_drop, List.mem_cons, and_assoc, ← not_or, ← and_or_left]

/-- An index files each key of a map under exactly the labels of its value. -/
def Exact (labels : β → List ι) (index : Index ι κ) (table : Table κ β) : Prop :=
  ∀ label key, index.Holds label key ↔
    ∃ value, table.lookup key = some value ∧ label ∈ labels value

variable {labels : β → List ι} {index : Index ι κ} {table : Table κ β} {key : κ} {value : β}

theorem Exact.erase (hexact : Exact labels index table) (hlookup : table.lookup key = some value) :
    Exact labels ((labels value).foldl (drop key) index) (table.erase key) := by
  intro label other
  rw [holds_dropAll, hexact label other]
  constructor
  · rintro ⟨⟨current, hcurrent, hlabel⟩, hother⟩
    refine ⟨current, lookup_erase_eq_some.mpr ⟨?_, hcurrent⟩, hlabel⟩
    rintro rfl
    rw [hlookup] at hcurrent
    exact hother ⟨rfl, Option.some.inj hcurrent ▸ hlabel⟩
  · rintro ⟨current, hcurrent, hlabel⟩
    obtain ⟨hne, hcurrent⟩ := lookup_erase_eq_some.mp hcurrent
    exact ⟨⟨current, hcurrent, hlabel⟩, fun hother => hne hother.1⟩

theorem Exact.insert (hexact : Exact labels index table) (hlookup : table.lookup key = none) :
    Exact labels ((labels value).foldl (add key) index) (table.insert key value) := by
  intro label other
  rw [holds_addAll, hexact label other]
  constructor
  · rintro (⟨current, hcurrent, hlabel⟩ | ⟨rfl, hlabel⟩)
    · refine ⟨current, lookup_insert_eq_some.mpr (.inr ⟨?_, hcurrent⟩), hlabel⟩
      rintro rfl
      rw [hlookup] at hcurrent
      cases hcurrent
    · exact ⟨value, AList.lookup_insert _, hlabel⟩
  · rintro ⟨current, hcurrent, hlabel⟩
    rcases lookup_insert_eq_some.mp hcurrent with ⟨rfl, rfl⟩ | ⟨-, hcurrent⟩
    · exact .inr ⟨rfl, hlabel⟩
    · exact .inl ⟨current, hcurrent, hlabel⟩

omit [DecidableEq ι] in
/-- Rewriting a value under its key keeps an index that does not tell the two values apart. -/
theorem Exact.overwrite (hexact : Exact labels index table) {value' : β}
    (hlookup : table.lookup key = some value) (hlabels : labels value' = labels value) :
    Exact labels index (table.insert key value') := by
  intro label other
  rw [hexact label other]
  by_cases hkey : other = key
  · subst hkey
    simp [hlookup, hlabels]
  · rw [AList.lookup_insert_ne hkey]

omit [DecidableEq ι] in
theorem Exact.empty : Exact labels (fun _ => none) (∅ : Table κ β) := by
  intro label key
  simp [Holds]

end Index

/-! ### Tallies -/

/-- The values' total of one class. -/
def totalOf {ι : Type} [DecidableEq ι] (classOf : β → ι) (f : β → Nat) (label : ι)
    (table : Table κ β) : Nat :=
  total (fun value => if classOf value = label then f value else 0) table

/-- For each class, a running total. -/
abbrev Tally (ι : Type) := ι → Option Nat

namespace Tally

variable {ι : Type} [DecidableEq ι]

def read (tally : Tally ι) (label : ι) : Nat := (tally label).getD 0

def credit (tally : Tally ι) (label : ι) (amount : Nat) : Tally ι :=
  update tally label (some (tally.read label + amount))

/-- Taking an amount off a running total, never below zero. -/
def debit (tally : Tally ι) (label : ι) (amount : Nat) : Tally ι :=
  update tally label ((tally label).map fun balance => balance - amount)

theorem read_credit (tally : Tally ι) (label label' : ι) (amount : Nat) :
    (tally.credit label amount).read label' =
      tally.read label' + if label = label' then amount else 0 := by
  by_cases hlabel : label = label'
  · subst hlabel
    simp [read, credit]
  · simp [read, credit, hlabel, Ne.symm hlabel]

theorem read_debit (tally : Tally ι) (label label' : ι) (amount : Nat) :
    (tally.debit label amount).read label' =
      tally.read label' - if label = label' then amount else 0 := by
  by_cases hlabel : label = label'
  · subst hlabel
    cases hbalance : tally label with
    | none => simp [read, debit, hbalance]
    | some balance => simp [read, debit, hbalance]
  · simp [read, debit, hlabel, Ne.symm hlabel]

/-- The running totals are those of the map's values. -/
def Exact (classOf : β → ι) (f : β → Nat) (tally : Tally ι) (table : Table κ β) : Prop :=
  ∀ label, tally.read label = totalOf classOf f label table

variable {classOf : β → ι} {f : β → Nat} {tally : Tally ι} {table : Table κ β} {key : κ}
  {value : β}

theorem Exact.erase (hexact : Exact classOf f tally table)
    (hlookup : table.lookup key = some value) :
    Exact classOf f (tally.debit (classOf value) (f value)) (table.erase key) := by
  intro label
  have herase := total_erase (fun value => if classOf value = label then f value else 0) hlookup
  rw [read_debit, hexact label, totalOf, herase, Nat.add_sub_cancel_left]
  rfl

theorem Exact.insert (hexact : Exact classOf f tally table) (hlookup : table.lookup key = none) :
    Exact classOf f (tally.credit (classOf value) (f value)) (table.insert key value) := by
  intro label
  rw [read_credit, hexact label, totalOf, totalOf, total_insert _ value hlookup, Nat.add_comm]

theorem Exact.overwrite (hexact : Exact classOf f tally table) {value' : β}
    (hlookup : table.lookup key = some value) (hclass : classOf value' = classOf value)
    (hf : f value' = f value) : Exact classOf f tally (table.insert key value') := by
  intro label
  rw [hexact label, totalOf, totalOf]
  apply Eq.symm
  apply total_overwrite _ hlookup
  rw [hclass, hf]

omit [DecidableEq κ] in
theorem Exact.empty : Exact classOf f (fun _ => none) (∅ : Table κ β) := by
  intro label
  simp [read, totalOf]

end Tally

end Zllm.Ledger

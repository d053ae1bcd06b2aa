import Zllm.Lib.Ledger
import Zllm.Engine.LogitFsm
import Mathlib.Data.List.MinMax

/-!
# The memory store

`MemoryStore`: entries under keys, byte accounting per store and per category, and the two indexes.
A `HashMap` that is iterated is a table, any other a function on its keys. The clock's reading and
the order in which the map is iterated are arguments of the calls that ask for them.
-/

namespace Zllm.Engine

open Ledger (Table KeySet Index Tally)

inductive MemoryCategory
  | finding
  | context
  | pattern
  | correction
  | knowledge
  | goal
  | task
  | status
  deriving DecidableEq

structure MemoryMetadata where
  sourceRequestId : String
  layerCaptured : Nat
  category : MemoryCategory
  tags : List String
  textSummary : String

/-- An entry, over the type `F` of the floats in its vector. -/
structure MemoryEntry (F : Type) where
  key : String
  vector : List F
  metadata : MemoryMetadata
  createdAt : Nat
  accessCount : Nat
  relevanceScore : ℚ
  expiresAt : Option Nat
  pinned : Bool
  byteSize : Nat

structure StoreOptions where
  pinned : Bool := false
  ttlSeconds : Option Nat := none

inductive StoreError
  | oversize
  | full
  deriving DecidableEq

/-- `mem::size_of::<f32>()`. -/
def sizeOfF32 : Nat := 4

/-- The order in which the entries of a store come out of its map. -/
abbrev EntryOrder (F : Type) := IterOrder (Sigma fun _ : String => MemoryEntry F)

structure MemoryStore (F : Type) where
  entries : Table String (MemoryEntry F)
  maxEntries : Nat
  bytesUsed : Nat
  byteBudget : Nat
  categoryBudgets : MemoryCategory → Option Nat
  categoryBytes : Tally MemoryCategory
  byCategory : Index MemoryCategory String
  byTag : Index String String

namespace MemoryEntry

variable {F : Type}

def isExpired (entry : MemoryEntry F) (now : Nat) : Bool :=
  match entry.expiresAt with
  | some t => decide (t ≤ now)
  | none => false

/-- The entry after one more access; the counter is a `u32`. -/
def accessed (entry : MemoryEntry F) : MemoryEntry F :=
  { entry with
    accessCount := (entry.accessCount + 1) % 2 ^ 32
    relevanceScore := min (entry.relevanceScore + 1 / 10) 1 }

end MemoryEntry

namespace MemoryStore

variable {F : Type}

def withBudget (maxEntries byteBudget : Nat) (categoryBudgets : MemoryCategory → Option Nat) :
    MemoryStore F where
  entries := ∅
  maxEntries := maxEntries
  bytesUsed := 0
  byteBudget := byteBudget
  categoryBudgets := categoryBudgets
  categoryBytes := fun _ => none
  byCategory := fun _ => none
  byTag := fun _ => none

def entryCount (s : MemoryStore F) : Nat := s.entries.entries.length

/-- The category's budget, the store's where the category has none. -/
def categoryBudget (s : MemoryStore F) (category : MemoryCategory) : Nat :=
  (s.categoryBudgets category).getD s.byteBudget

def categoryUsed (s : MemoryStore F) (category : MemoryCategory) : Nat :=
  s.categoryBytes.read category

/-! ### Removing -/

def removeInternal (s : MemoryStore F) (key : String) : Bool × MemoryStore F :=
  match s.entries.lookup key with
  | none => (false, s)
  | some entry =>
    let category := entry.metadata.category
    (true,
      { s with
        entries := s.entries.erase key
        -- `saturating_sub`, here and in the category's tally
        bytesUsed := s.bytesUsed - entry.byteSize
        categoryBytes := s.categoryBytes.debit category entry.byteSize
        byCategory := s.byCategory.drop key category
        byTag := entry.metadata.tags.foldl (Index.drop key) s.byTag })

def remove (s : MemoryStore F) (key : String) : Bool × MemoryStore F := s.removeInternal key

/-- Drops one expired entry, if there is any. -/
def dropOneExpired (order : EntryOrder F) (now : Nat) (s : MemoryStore F) :
    Option (MemoryStore F) :=
  ((order.arrange s.entries.entries).find? fun entry => entry.2.isExpired now).map
    fun entry => (s.removeInternal entry.1).2

/-- `min_by` keeps the first of the least scores. -/
def lowestScoreKey (order : EntryOrder F) (s : MemoryStore F)
    (onlyCategory : Option MemoryCategory) : Option String :=
  (List.argmin (fun entry => entry.2.relevanceScore)
    (((order.arrange s.entries.entries).filter fun entry => !entry.2.pinned).filter fun entry =>
      onlyCategory.all fun category => entry.2.metadata.category = category)).map Sigma.fst

/-- Evicts one entry that is not pinned, of the preferred category where it has one. -/
def evictOne (order : EntryOrder F) (s : MemoryStore F)
    (preferCategory : Option MemoryCategory) : Option (MemoryStore F) :=
  ((preferCategory.bind fun category => s.lowestScoreKey order (some category)).or
    (s.lowestScoreKey order none)).map fun key => (s.removeInternal key).2

/-! ### Storing -/

/-- Whether `byteSize` more bytes of a category fit, in the store, the category and the count. -/
def fits (s : MemoryStore F) (category : MemoryCategory) (byteSize : Nat) : Bool :=
  decide (s.bytesUsed + byteSize ≤ s.byteBudget) &&
    decide (s.categoryUsed category + byteSize ≤ s.categoryBudget category) &&
    decide (s.entryCount < s.maxEntries)

/-- The loop of `store_with_options`: `some true` once the entry fits, `some false` when nothing is
left to evict, `none` when it has not ended after `rounds` rounds. -/
def makeRoom (order : EntryOrder F) (now : Nat) (category : MemoryCategory) (byteSize : Nat) :
    Nat → MemoryStore F → Option Bool × MemoryStore F
  | 0, s => (none, s)
  | rounds + 1, s =>
    if s.fits category byteSize then (some true, s)
    else
      match s.dropOneExpired order now with
      | some s' => makeRoom order now category byteSize rounds s'
      | none =>
        match s.evictOne order (some category) with
        | some s' => makeRoom order now category byteSize rounds s'
        | none => (some false, s)

/-- The entry a call makes; the expiry is a `u64`. -/
def newEntry (now : Nat) (key : String) (vector : List F) (metadata : MemoryMetadata)
    (options : StoreOptions) : MemoryEntry F where
  key := key
  vector := vector
  metadata := metadata
  createdAt := now
  accessCount := 0
  relevanceScore := 1
  expiresAt := options.ttlSeconds.map fun t => (now + t) % 2 ^ 64
  pinned := options.pinned
  byteSize := vector.length * sizeOfF32

def insertEntry (s : MemoryStore F) (entry : MemoryEntry F) : MemoryStore F :=
  let category := entry.metadata.category
  { s with
    entries := s.entries.insert entry.key entry
    bytesUsed := s.bytesUsed + entry.byteSize
    categoryBytes := s.categoryBytes.credit category entry.byteSize
    byCategory := s.byCategory.add entry.key category
    byTag := entry.metadata.tags.foldl (Index.add entry.key) s.byTag }

/-- The answer is `none` when the loop has not ended after one round more than there are entries. -/
def storeWithOptions (order : EntryOrder F) (now : Nat) (s : MemoryStore F) (key : String)
    (vector : List F) (metadata : MemoryMetadata) (options : StoreOptions) :
    Option (Except StoreError Unit) × MemoryStore F :=
  let byteSize := vector.length * sizeOfF32
  let category := metadata.category
  if s.categoryBudget category < byteSize ∨ s.byteBudget < byteSize then
    (some (.error .oversize), s)
  else
    -- replacing: the old entry's bytes and indexes go first
    let s := (s.removeInternal key).2
    match makeRoom order now category byteSize (s.entryCount + 1) s with
    | (some true, s) =>
      (some (.ok ()), s.insertEntry (newEntry now key vector metadata options))
    | (some false, s) => (some (.error .full), s)
    | (none, s) => (none, s)

def store (order : EntryOrder F) (now : Nat) (s : MemoryStore F) (key : String)
    (vector : List F) (metadata : MemoryMetadata) : MemoryStore F :=
  (s.storeWithOptions order now key vector metadata {}).2

/-! ### Reading -/

def get (now : Nat) (s : MemoryStore F) (key : String) : Option (MemoryEntry F) × MemoryStore F :=
  match s.entries.lookup key with
  | none => (none, s)
  | some entry =>
    if entry.isExpired now then (none, s)
    else (some entry.accessed, { s with entries := s.entries.insert key entry.accessed })

/-- The entries of an index's key set that have not expired. -/
def query (order : IterOrder String) (now : Nat) (s : MemoryStore F)
    (keys : Option (KeySet String)) : List (MemoryEntry F) :=
  match keys with
  | none => []
  | some keys =>
    ((order.arrange keys.keys).filterMap s.entries.lookup).filter fun entry =>
      !entry.isExpired now

def queryByCategory (order : IterOrder String) (now : Nat) (s : MemoryStore F)
    (category : MemoryCategory) : List (MemoryEntry F) :=
  s.query order now (s.byCategory category)

def queryByTag (order : IterOrder String) (now : Nat) (s : MemoryStore F) (tag : String) :
    List (MemoryEntry F) :=
  s.query order now (s.byTag tag)

end MemoryStore

end Zllm.Engine

/-
# A cache of bounded size

The cache keeps its entries in a chain of cells in the order of their last use, and an
index of the cells by their keys, so that an entry is found without a search along the
chain. When the cache is full, a new entry takes the place of the one whose last use
is the longest ago.
-/
import CPreprocessor.Text

namespace CPreprocessor

/-- Why there is no cache. -/
inductive CacheError where
  /-- A cache must have room for one entry. -/
  | zeroCapacity
  deriving DecidableEq, Repr

/-- The message for a cache that cannot be made. -/
def CacheError.message : CacheError → Text
  | .zeroCapacity => "LRU cache max size cannot be zero!".toList

/-- A cell of the chain. The number tells it apart from every other cell, wherever it is moved. -/
structure Cell (κ ν : Type) where
  number : Nat
  key : κ
  value : ν

/-- A cache, with counts of the lookups that found something and of those that did not. -/
structure Cache (κ ν : Type) where
  capacity : Nat
  capacity_pos : 0 < capacity
  /-- The cells, the one used last first. -/
  cells : List (Cell κ ν) := []
  /-- The number of the cell of each key. -/
  index : List (κ × Nat) := []
  /-- How many cells were made, which is the number of the next one. -/
  made : Nat := 0
  hits : Nat := 0
  misses : Nat := 0

namespace Cell

variable {κ ν : Type}

/-- The key and the value that the cell holds. -/
def entry (cell : Cell κ ν) : κ × ν :=
  (cell.key, cell.value)

/-- The key with the number of the cell, as the index has them. -/
def label (cell : Cell κ ν) : κ × Nat :=
  (cell.key, cell.number)

/-- The chain with a cell moved to its front. -/
def toFront (cells : List (Cell κ ν)) (number : Nat) : List (Cell κ ν) :=
  cells.filter (·.number = number) ++ cells.filter (·.number ≠ number)

/-- The chain with another value in a cell. -/
def assign (cells : List (Cell κ ν)) (number : Nat) (value : ν) : List (Cell κ ν) :=
  cells.map fun cell => if cell.number = number then { cell with value } else cell

/-- The chain without a cell. -/
def remove (cells : List (Cell κ ν)) (number : Nat) : List (Cell κ ν) :=
  cells.filter (·.number ≠ number)

end Cell

namespace Cache

variable {κ ν : Type} [DecidableEq κ]

/-- An empty cache. -/
def empty? (capacity : Nat) : Except CacheError (Cache κ ν) :=
  if h : 0 < capacity then .ok { capacity, capacity_pos := h } else .error .zeroCapacity

/-- The number of entries. -/
def size (cache : Cache κ ν) : Nat :=
  cache.cells.length

/-- The entries, the one used last first. -/
def entries (cache : Cache κ ν) : List (κ × ν) :=
  cache.cells.map Cell.entry

/-- The pairs of other keys. -/
def others {α : Type} (pairs : List (κ × α)) (key : κ) : List (κ × α) :=
  pairs.filter (·.1 ≠ key)

/-- A key has an entry. Asking does not count as a use. -/
def contains (cache : Cache κ ν) (key : κ) : Bool :=
  (cache.index.lookup key).isSome

/-- The value of a key. An entry that is found counts as used. -/
def get (cache : Cache κ ν) (key : κ) : Option ν × Cache κ ν :=
  match cache.index.lookup key with
  | some number =>
    ((cache.cells.find? (·.number = number)).map Cell.value,
      { cache with cells := Cell.toFront cache.cells number, hits := cache.hits + 1 })
  | none => (none, { cache with misses := cache.misses + 1 })

/-- The cache without the entry that was used the longest ago. -/
def evict (cache : Cache κ ν) : Cache κ ν :=
  match cache.cells.getLast? with
  | some last =>
    { cache with cells := cache.cells.dropLast, index := others cache.index last.key }
  | none => cache

/-- The cache with room for one more entry. -/
def makeRoom (cache : Cache κ ν) : Cache κ ν :=
  if cache.capacity ≤ cache.cells.length then cache.evict else cache

/-- The cache with a new cell in front. -/
def insert (cache : Cache κ ν) (key : κ) (value : ν) : Cache κ ν :=
  { cache with
    cells := ⟨cache.made, key, value⟩ :: cache.cells
    index := (key, cache.made) :: others cache.index key
    made := cache.made + 1 }

/-- Give a key a value. A new key in a full cache takes the place of the entry that was used the
longest ago. -/
def put (cache : Cache κ ν) (key : κ) (value : ν) : Cache κ ν :=
  match cache.index.lookup key with
  | some number =>
    { cache with cells := Cell.toFront (Cell.assign cache.cells number value) number }
  | none => cache.makeRoom.insert key value

/-- Remove the entry of a key. -/
def erase (cache : Cache κ ν) (key : κ) : Cache κ ν :=
  match cache.index.lookup key with
  | some number =>
    { cache with cells := Cell.remove cache.cells number, index := others cache.index key }
  | none => cache

/-- Remove every entry. The counts stay. -/
def clear (cache : Cache κ ν) : Cache κ ν :=
  { cache with cells := [], index := [] }

end Cache

end CPreprocessor

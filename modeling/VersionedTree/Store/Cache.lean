import VersionedTree.Bytes

/-!
# Caches — the values used last

A cache holds the values of a limited number of keys. Using a key and putting a value make the key the latest one; when
there are too many keys, the one that was not used for longest is dropped.
-/

namespace VersionedTree

/-- Values by key, the latest used first. -/
structure Cache where
  capacity : Nat
  entries : List (Bytes × Bytes)
deriving DecidableEq, Repr

namespace Cache

/-- A cache that holds nothing yet. -/
def empty (capacity : Nat) : Cache :=
  ⟨capacity, []⟩

/-- The value of a key. -/
def find? (cache : Cache) (key : Bytes) : Option Bytes :=
  cache.entries.lookup key

/-- The cache without a key. -/
def erase (cache : Cache) (key : Bytes) : Cache :=
  { cache with entries := cache.entries.filter fun entry => entry.1 != key }

/-- The cache with a value under a key, as the latest one. -/
def put (cache : Cache) (key value : Bytes) : Cache :=
  { cache with entries := ((key, value) :: (cache.erase key).entries).take cache.capacity }

/-- The value of a key, and the cache in which that key is the latest one. -/
def use? (cache : Cache) (key : Bytes) : Option (Bytes × Cache) :=
  (cache.find? key).map fun value => (value, cache.put key value)

end Cache

end VersionedTree

import VersionedTree.Store.Cache
import VersionedTree.Store.Records
import VersionedTree.Config

/-!
# Cached stores — node records kept at hand

Walking a path reads every directory on the way, so a persistent store keeps the node records used last in a cache. A
batch reaches the store below first, and the cache only if that succeeded.

* **`Cached`** puts a cache over any store.
* **`Persistent`** is a cached store of records on disk, and **`Persistent.openAt`** opens one.
-/

namespace VersionedTree

/-- A store with a cache of node records. -/
structure Cached (σ : Type) where
  store : σ
  cache : Cache

namespace Cached

variable {σ : Type}

/-- The cache after a write to the store. -/
def follow (cache : Cache) : Write → Cache
  | .put ⟨.nodes, name⟩ value => cache.put name value
  | .delete ⟨.nodes, name⟩ => cache.erase name
  | _ => cache

/-- Reads a record of the store below; a node record is kept in the cache. -/
def readThrough [RecordStore σ] (s : Cached σ) (key : Key) : Except StorageError (Option Bytes) × Cached σ :=
  match RecordStore.read s.store key with
  | (.ok (some value), store) => (.ok (some value), ⟨store, follow s.cache (.put key value)⟩)
  | (result, store) => (result, ⟨store, s.cache⟩)

instance [RecordStore σ] : RecordStore (Cached σ) where
  read s key :=
    match key.table with
    | .nodes =>
      match s.cache.use? key.name with
      | some (value, cache) => (.ok (some value), { s with cache := cache })
      | none => s.readThrough key
    | _ => s.readThrough key
  apply s batch :=
    match RecordStore.apply s.store batch with
    | (.ok (), store) => (.ok (), ⟨store, batch.foldl follow s.cache⟩)
    | (.error e, store) => (.error e, ⟨store, s.cache⟩)
  bound s := RecordStore.bound s.store

end Cached

/-- What is found at the path of a configuration. -/
inductive Place where
  /-- A directory with these records, or nothing, where an empty directory can be made. -/
  | directory (records : Records)
  /-- Something that is no directory. -/
  | occupied

/-- Records on disk with a cache of node records. -/
abbrev Persistent := Cached Records

/-- Opens the persistent store at a place. -/
def Persistent.openAt (config : Config) : Place → Except StorageError Persistent
  | .occupied => .error .io
  | .directory records =>
    if config.nodeCacheCapacity = 0 then
      .error (.backend "node cache capacity must be positive")
    else
      .ok ⟨records, .empty config.nodeCacheCapacity⟩

end VersionedTree

import VersionedTree.Store.SortedMap
import VersionedTree.Store.Table
import VersionedTree.Error

/-!
# Record stores — reading records and applying batches

A record store reads single records and applies batches of writes; all structure is in the records themselves. Reading
may change the store's state, because a store may keep a cache, and both operations may fail.

* **`RecordStore`** is what the rest of the library knows of a store.
* **`Records`** is a store that holds its records in memory, and never fails.
-/

namespace VersionedTree

/-- A store of records, as a state. -/
class RecordStore (σ : Type) where
  /-- Reads one record. -/
  read : σ → Key → Except StorageError (Option Bytes) × σ
  /-- Applies a batch of writes in order. -/
  apply : σ → List Write → Except StorageError Unit × σ
  /-- How many records the store holds at most; no search of its keys takes more steps. -/
  bound : σ → Nat

/-- Records by key. -/
abbrev Records := SortedMap Key Bytes

namespace Records

/-- The records after one write. -/
def applyWrite (records : Records) : Write → Records
  | .put key value => records.insert key value
  | .delete key => records.erase key

/-- The records after a batch of writes, applied in order. -/
def applyBatch (records : Records) (batch : List Write) : Records :=
  batch.foldl applyWrite records

/-- The number of records in one table. -/
def count (records : Records) (table : Table) : Nat :=
  records.pairs.countP fun record => record.1.table = table

instance : RecordStore Records where
  read records key := (.ok (records.find? key), records)
  apply records batch := (.ok (), records.applyBatch batch)
  bound records := records.size

end Records

end VersionedTree

import VersionedTree.Config
import VersionedTree.Store.Cached
import VersionedTree.Tree.Commit
import VersionedTree.Tree.Root

/-!
# Filesystems — transactions and revisions over a store

A filesystem is a record store with a configuration and metadata. Every operation runs in one trail, so it takes effect
as a whole or not at all.

* **`openOver`** opens a store; a store that has no metadata becomes an empty filesystem at revision 0.
* **`begin`**, **`commit`** and **`abort`** are the life of a transaction.
* **`run`** and **`runClient`** run any computation in a trail.

The time and the identity of a new filesystem come from outside, as arguments.
-/

namespace VersionedTree

/-- What is known about a filesystem as a whole. -/
structure Metadata where
  uuid : String
  /-- The time when the filesystem was made, in seconds since 1970. -/
  createdAt : Int
deriving DecidableEq, Repr

namespace Metadata

/-- The key of the metadata record. -/
def key : Key :=
  .ofText .globals "metadata"

/-- The names of the fields of the record, in order. -/
def fieldNames : List String :=
  ["uuid", "created_at"]

/-- The text of the metadata record. -/
def encode (metadata : Metadata) : Bytes :=
  Text.toBytes (Json.compact (fieldNames.zip [Json.quoted metadata.uuid, toString metadata.createdAt]))

/-- Reads the text of a metadata record, in which both fields have to be present. -/
def decode? (value : Bytes) : Option Metadata := do
  match ← Json.fields? fieldNames (← Json.Value.ofText? value) with
  | [some uuid, some createdAt] =>
    return { uuid := ← uuid.asText?, createdAt := ← createdAt.asInteger? Int64.minValue.toInt Int64.maxValue.toInt }
  | _ => none

variable {σ : Type} [RecordStore σ]

/-- The metadata of the store. A store without them gets the given ones, and its first revision. -/
def readOrInit (new : Metadata) (date : String) : TrailM σ Metadata := do
  match ← Trail.read key with
  | some value =>
    match decode? value with
    | some metadata => return metadata
    | none => throw (.corrupt .metadata)
  | none =>
    Revision.makeFirst date
    Trail.put key new.encode
    return new

end Metadata

/-- A filesystem. -/
structure Filesystem (σ : Type) where
  store : σ
  config : Config
  metadata : Metadata

/-- A computation on a filesystem. -/
abbrev FilesystemM (σ α : Type) : Type :=
  ExceptT Error (StateM (Filesystem σ)) α

namespace Filesystem

variable {σ ω α : Type} [RecordStore σ]

/-- Opens a store as a filesystem. `new` and `date` are for a store that is no filesystem yet. -/
def openOver (config : Config) (new : Metadata) (date : String) (store : σ) : Except Error (Filesystem σ) × σ :=
  match config.validate with
  | .error e => (.error (.config e), store)
  | .ok () =>
    match Trail.run (Metadata.readOrInit new date) store with
    | (.error e, store) => (.error e, store)
    | (.ok metadata, store) => (.ok ⟨store, config, metadata⟩, store)

/-- Opens the persistent store of a configuration, which is found at `place`. -/
def openAt (config : Config) (new : Metadata) (date : String) (place : Place) :
    Except Error (Filesystem Persistent) :=
  match config.validate with
  | .error e => .error (.config e)
  | .ok () =>
    match Persistent.openAt config place with
    | .error e => .error (.storage e)
    | .ok store => (openOver config new date store).1

/-- Runs a computation in a trail. -/
def run (m : TrailM σ α) : FilesystemM σ α :=
  ExceptT.mk fun fs =>
    match Trail.run m fs.store with
    | (result, store) => (result, { fs with store := store })

/-- Runs a computation of a client in a trail. -/
def runClient (m : ClientM ω σ α) (held : ω) : StateM (Filesystem σ) (Except Error α × ω) :=
  fun fs =>
    match Trail.runClient m held fs.store with
    | (result, store) => (result, { fs with store := store })

/-- The number of the youngest revision. -/
def youngest : FilesystemM σ UInt64 :=
  run Revision.youngest

/-- Begins a transaction that is based on a revision, and gives its name. -/
def begin (base : UInt64) : FilesystemM σ String :=
  run (Transaction.create base)

/-- Commits a transaction at a date, and gives the number of the new revision. -/
def commit (txn date : String) : FilesystemM σ UInt64 :=
  run (Transaction.commit txn date)

/-- Throws a transaction away. The nodes made for it stay, so their ids are not used again. -/
def abort (txn : String) : FilesystemM σ Unit :=
  run (Transaction.close txn)

/-- The root directory of a revision. -/
def revisionRoot (number : UInt64) : FilesystemM σ Node :=
  run (Root.ofRevision number)

/-- The properties of a revision. -/
def revisionProps (number : UInt64) : FilesystemM σ PropList :=
  run do return (← Revision.read number).props

/-- The contents of the file at a path in a revision. -/
def fileContents (number : UInt64) (path : String) : FilesystemM σ Bytes :=
  run (Root.fileContents number path)

end Filesystem

end VersionedTree

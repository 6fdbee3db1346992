import VersionedTree.Store.Records

/-!
# Trails — writes that take effect together

Every operation on the filesystem runs in a trail. Writes are staged in the trail, reads see the staged writes, and the
store is written only when the trail is complete.

* **`TrailM`** is a computation in a trail. When it fails, what it has staged so far stays staged.
* **`TrailM.lift`** runs such a computation for a client that holds a state of its own; that state, too, outlasts a
  failure.
* **`Trail.batch`** is the batch that a complete trail applies to the store: one write for each key written.
* **`Trail.run`** runs a computation in a trail of its own. If it fails, nothing of what it staged reaches the store.
-/

namespace VersionedTree

/-- A store and the writes that are staged over it; a key without a value is to be deleted. -/
structure Trail (σ : Type) where
  store : σ
  staged : SortedMap Key (Option Bytes)

/-- A computation in a trail, by a client that holds a state `ω`. The state and the trail outlast a failure. -/
abbrev ClientM (ω σ α : Type) : Type :=
  ExceptT Error (StateT ω (StateM (Trail σ))) α

/-- A computation in a trail. -/
abbrev TrailM (σ α : Type) : Type :=
  ExceptT Error (StateM (Trail σ)) α

variable {σ ω α ε : Type}

/-- A computation in a trail, for a client whose state it does not touch. -/
def TrailM.lift (m : TrailM σ α) : ClientM ω σ α :=
  ExceptT.mk fun held => do
    let result ← m.run
    return (result, held)

instance : MonadLift (TrailM σ) (ClientM ω σ) := ⟨TrailM.lift⟩

/-- The value of a result, or its failure as an error of the trail. -/
def TrailM.ofExcept (asError : ε → Error) : Except ε α → TrailM σ α
  | .ok a => pure a
  | .error e => throw (asError e)

/-- The value of a result, or its error. -/
def TrailM.ofResult : Except Error α → TrailM σ α
  | .ok a => pure a
  | .error e => throw e

/-- Reads the value of a stored form. -/
def TrailM.ofStored (result : Except Malformed α) : TrailM σ α :=
  ofExcept .malformed result

namespace Trail

/-- A trail with nothing staged. -/
def start (store : σ) : Trail σ :=
  ⟨store, .empty⟩

/-- The write that is staged for a key. -/
def write : Key × Option Bytes → Write
  | (key, some value) => .put key value
  | (key, none) => .delete key

/-- The staged writes, in the order of their keys. -/
def batch (t : Trail σ) : List Write :=
  t.staged.pairs.map write

/-- The number of staged writes. -/
def pending (t : Trail σ) : Nat :=
  t.staged.size

/-- The trail with a write staged, in the place of any earlier write to the key. -/
def stage (t : Trail σ) (key : Key) (value : Option Bytes) : Trail σ :=
  { t with staged := t.staged.insert key value }

/-- Puts a record. -/
def put (key : Key) (value : Bytes) : TrailM σ Unit :=
  modify fun t => t.stage key (some value)

/-- Deletes a record. -/
def delete (key : Key) : TrailM σ Unit :=
  modify fun t => t.stage key none

variable [RecordStore σ]

/-- Reads a record, as staged or else from the store. -/
def read (key : Key) : TrailM σ (Option Bytes) :=
  ExceptT.mk fun t =>
    match t.staged.find? key with
    | some value => (.ok value, t)
    | none =>
      match RecordStore.read t.store key with
      | (result, store) => (result.mapError .storage, { t with store := store })

/-- True if there is such a record. -/
def contains (key : Key) : TrailM σ Bool := do
  return (← read key).isSome

/-- Applies what was staged to the store, unless the computation has failed. -/
def complete (result : Except Error α) (t : Trail σ) : Except Error α × σ :=
  match result with
  | .error e => (.error e, t.store)
  | .ok a =>
    match RecordStore.apply t.store t.batch with
    | (.ok (), store) => (.ok a, store)
    | (.error e, store) => (.error (.storage e), store)

/-- Runs a computation in a new trail over a store, and completes the trail. -/
def run (m : TrailM σ α) (store : σ) : Except Error α × σ :=
  match m (start store) with
  | (result, t) => t.complete result

/-- Runs a computation of a client in a new trail over a store, and completes the trail. -/
def runClient (m : ClientM ω σ α) (held : ω) (store : σ) : (Except Error α × ω) × σ :=
  match m held (start store) with
  | ((result, held), t) =>
    match t.complete result with
    | (result, store) => ((result, held), store)

/-- How many records there are at most, those staged included. -/
def bound : TrailM σ Nat := do
  let t ← getThe (Trail σ)
  return t.staged.size + RecordStore.bound t.store

end Trail

end VersionedTree

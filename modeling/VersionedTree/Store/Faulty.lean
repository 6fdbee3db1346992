import VersionedTree.Store.Records

/-!
# Faulty stores — failures on demand

A store over which one failure can be placed, either of the next read or of the next application of a batch. A placed
failure happens once, in the place of the operation, which then has no effect. Placing another failure takes the first
one away.
-/

namespace VersionedTree

/-- A failure that is placed over a store. -/
inductive Fault where
  /-- The next read fails. -/
  | read (error : StorageError)
  /-- The next application of a batch fails. -/
  | apply (error : StorageError)
deriving DecidableEq, Repr

/-- A store with the failure that is placed over it. -/
structure Faulty (σ : Type) where
  store : σ
  fault : Option Fault

namespace Faulty

variable {σ : Type}

/-- A store over which no failure is placed. -/
def ofStore (store : σ) : Faulty σ :=
  ⟨store, none⟩

/-- The store with a failure placed over it, in the place of any other. -/
def inject (s : Faulty σ) (fault : Fault) : Faulty σ :=
  { s with fault := some fault }

instance [RecordStore σ] : RecordStore (Faulty σ) where
  read s key :=
    match s.fault with
    | some (.read error) => (.error error, { s with fault := none })
    | _ =>
      let (result, store) := RecordStore.read s.store key
      (result, { s with store := store })
  apply s batch :=
    match s.fault with
    | some (.apply error) => (.error error, { s with fault := none })
    | _ =>
      let (result, store) := RecordStore.apply s.store batch
      (result, { s with store := store })
  bound s := RecordStore.bound s.store

end Faulty

end VersionedTree

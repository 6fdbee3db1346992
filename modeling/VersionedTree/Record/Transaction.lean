import VersionedTree.Record.Revision

/-!
# Transaction records — what is being edited

An open transaction is based on a revision. It has the root directory that it edits and the root directory it started
from, and the two are the same until something is edited. It is stored as
`(transaction ROOT-ID BASE-ROOT-ID BASE-REVISION)` under its name.
-/

namespace VersionedTree

/-- An open transaction. -/
structure Transaction where
  /-- The root directory as it is edited. -/
  root : NodeId
  /-- The root directory of the revision that the transaction is based on. -/
  baseRoot : NodeId
  /-- The revision that the transaction is based on. -/
  baseRevision : UInt64
deriving DecidableEq, Repr

namespace Transaction

variable {σ : Type} [RecordStore σ]

/-- The first element of a transaction record. -/
def tag : String := "transaction"

/-- The stored form of a transaction. -/
def toSkel (txn : Transaction) : Skel :=
  .list [.ofText tag, .ofText txn.root.text, .ofText txn.baseRoot.text,
    .ofText (Decimal.text txn.baseRevision.toNat)]

/-- Reads the number of a base revision. -/
def baseOfText (s : String) : Except Malformed UInt64 :=
  match Decimal.readSigned? s.toList with
  | some number => .ok number
  | none => .error .baseRevision

/-- Reads a transaction. -/
def ofSkel (s : Skel) : Except Malformed Transaction :=
  match s with
  | .list [word, root, baseRoot, base] =>
    if word.isText tag then do
      let root ← NodeId.parse (← root.text)
      let baseRoot ← NodeId.parse (← baseRoot.text)
      let base ← baseOfText (← base.text)
      return ⟨root, baseRoot, base⟩
    else
      .error .transactionShape
  | _ => .error .transactionShape

/-- The key of the record of a transaction. -/
def key (name : String) : Key :=
  .ofText .transactions name

/-- The stored text of a transaction. -/
def encode (txn : Transaction) : Bytes :=
  txn.toSkel.print

/-- Reads the stored text of a transaction. -/
def decode (value : Bytes) : Except Malformed Transaction := do
  ofSkel (← Skel.parse value)

/-- The open transaction with this name. -/
def read (name : String) : TrailM σ Transaction := do
  match ← Trail.read (key name) with
  | none => throw (.notFound (.transaction name))
  | some value => TrailM.ofStored (decode value)

/-- Opens a transaction that is based on a revision, and gives its name. -/
def create (base : UInt64) : TrailM σ String := do
  let revision ← Revision.read base
  let name ← Counter.allocateKey (Counter.key Counter.nextTransaction)
  Trail.put (key name) (encode ⟨revision.root, revision.root, base⟩)
  return name

/-- Makes another directory the root that a transaction edits. -/
def setRoot (name : String) (root : NodeId) : TrailM σ Unit := do
  let txn ← read name
  Trail.put (key name) (encode { txn with root := root })

/-- Closes a transaction. -/
def close (name : String) : TrailM σ Unit := do
  let _ ← read name
  Trail.delete (key name)

end Transaction

end VersionedTree

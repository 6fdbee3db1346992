import VersionedTree.Record.Transaction
import VersionedTree.Tree.Path

/-!
# Roots — where trees are entered

A tree is entered at the root directory of a revision, to read it, or at the root directory of a transaction, to edit
it. **`ofTransaction`** makes the root of a transaction mutable when it is entered for the first time.
-/

namespace VersionedTree.Root

variable {σ : Type} [RecordStore σ]

/-- The root directory of a revision. -/
def ofRevision (number : UInt64) : TrailM σ Node := do
  let revision ← Revision.read number
  Node.load revision.root

/-- The root directory of a transaction, which is mutable. -/
def ofTransaction (name : String) : TrailM σ Node := do
  let txn ← Transaction.read name
  if txn.root = txn.baseRoot then
    let base ← Node.load txn.baseRoot
    let root ← base.cloneFor name
    Transaction.setRoot name root.id
    return root
  else
    Node.load txn.root

/-- The contents of the file at a path in a revision. -/
def fileContents (number : UInt64) (path : String) : TrailM σ Bytes := do
  let root ← ofRevision number
  let node ← Path.openFrom root path
  node.contents

end VersionedTree.Root

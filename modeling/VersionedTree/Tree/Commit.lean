import VersionedTree.Record.Transaction
import VersionedTree.Tree.Freeze

/-!
# Commits — transactions that become revisions

A transaction becomes the next revision only if it is based on the youngest one. Its tree is frozen, its root becomes the
root of the new revision, and the transaction is closed.
-/

namespace VersionedTree.Transaction

variable {σ : Type} [RecordStore σ]

/-- Commits a transaction at a date, and gives the number of the new revision. -/
def commit (name date : String) : TrailM σ UInt64 := do
  let txn ← read name
  let youngest ← Revision.youngest
  if txn.baseRevision ≠ youngest then
    throw (.outOfDate name txn.baseRevision.toNat youngest.toNat)
  let _ ← NodeRecord.freeze txn.root
  let number ← Revision.append ⟨txn.root, Revision.propsAt date⟩
  close name
  return number

end VersionedTree.Transaction

import VersionedTree.NodeRevision
import VersionedTree.Skel.Parser
import VersionedTree.Skel.Printer
import VersionedTree.Record.Counter

/-!
# Node records — node revisions by id

The table of nodes holds a node revision under its id. A node revision gets a fresh id in one of two ways: as the first
revision of a new node (**`create`**), or as a successor of a given revision (**`createSuccessor`**), which is the next
one on its line if that is free, and else the first free fork. No record is ever written over by either.
-/

namespace VersionedTree.NodeRecord

variable {σ : Type} [RecordStore σ]

/-- The key of the record of a node revision. -/
def key (id : NodeId) : Key :=
  .ofText .nodes id.text

/-- The stored text of a node revision. -/
def encode (node : NodeRevision) : Bytes :=
  node.toSkel.print

/-- Reads the stored text of a node revision. -/
def decode (value : Bytes) : Except Malformed NodeRevision := do
  NodeRevision.ofSkel (← Skel.parse value)

/-- The node revision with this id. -/
def read (id : NodeId) : TrailM σ NodeRevision := do
  match ← Trail.read (key id) with
  | none => throw (.notFound (.node id))
  | some value => TrailM.ofStored (decode value)

/-- Puts a node revision under an id. -/
def put (id : NodeId) (node : NodeRevision) : TrailM σ Unit :=
  Trail.put (key id) (encode node)

/-- True if the id is taken. -/
def isTaken (id : NodeId) : TrailM σ Bool :=
  Trail.contains (key id)

/-- Puts a node revision as the first one of a new node. The first node has number 1. -/
def create (node : NodeRevision) : TrailM σ NodeId := do
  let number := (← Counter.readNumber Counter.nextNode).getD 1
  Counter.writeNumber Counter.nextNode (← Counter.successor Counter.nextNode number)
  let id := NodeId.ofNode number
  if ← isTaken id then
    throw (.corrupt (.nodeExists id))
  put id node
  return id

/-- The first free fork of a revision from number `branch` on, among `steps` forks. -/
def freeFork (base : NodeId) : (steps : Nat) → (branch : UInt64) → TrailM σ NodeId
  | 0, _ => throw (.corrupt (.noForkLeft base))
  | steps + 1, branch => do
    if ← isTaken (base.branch branch) then
      freeFork base steps (branch + 1)
    else
      return base.branch branch

/-- The id of a new successor: the next revision on the line, or else the first free fork. One fork more than there are
    records has to be tried at most. -/
def successorId (base : NodeId) : TrailM σ NodeId := do
  if ← isTaken base.next then
    freeFork base ((← Trail.bound) + 1) 1
  else
    return base.next

/-- Puts a node revision as a new successor of another. -/
def createSuccessor (base : NodeId) (node : NodeRevision) : TrailM σ NodeId := do
  let id ← successorId base
  put id node
  return id

end VersionedTree.NodeRecord

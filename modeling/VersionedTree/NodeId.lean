import VersionedTree.Text.Decimal
import VersionedTree.Malformed

/-!
# Node ids — lines of history and their forks

A node has a line of revisions, and any revision can be forked: a fork is a new line that starts at that revision. The
id of a revision is written as the numbers on the way to it, joined by dots: `4.2` is revision 2 of node 4, and `4.2.1.3`
is revision 3 on fork 1 of it. So an id has an even number of components, and never none.

* **`next`** is the following revision on the same line, **`branch`** the first revision of a fork.
* **`text`** and **`ofText?`** write and read an id. Ids are ordered component by component.
-/

namespace VersionedTree

/-- The id of a node revision. -/
inductive NodeId where
  /-- A revision on the first line of a node. -/
  | first (node revision : UInt64)
  /-- A revision on the fork number `branch` of the revision `base`. -/
  | fork (base : NodeId) (branch revision : UInt64)
deriving DecidableEq, Repr

namespace NodeId

/-- The root directory of revision 0. -/
def root : NodeId :=
  first 0 0

/-- The first revision of a new node. -/
def ofNode (node : UInt64) : NodeId :=
  first node 1

/-- The number of the node whose revision this is. -/
def node : NodeId → UInt64
  | first node _ => node
  | fork base _ _ => base.node

/-- The next revision on the same line. After the greatest number the sum wraps around. It is not checked here as it is for
    a counter (`Counter.successor`), whose numbers run out no later. -/
def next : NodeId → NodeId
  | first node revision => first node (revision + 1)
  | fork base branch revision => fork base branch (revision + 1)

/-- The first revision of fork number `branch` of this revision. -/
def branch (id : NodeId) (branch : UInt64) : NodeId :=
  fork id branch 1

/-- The components of an id, in the order they are written. -/
def parts : NodeId → List UInt64
  | first node revision => [node, revision]
  | fork base branch revision => base.parts ++ [branch, revision]

/-- The id that goes on from `id` with these components, if their number is even. -/
def extend (id : NodeId) : List UInt64 → Option NodeId
  | [] => some id
  | [_] => none
  | branch :: revision :: rest => (fork id branch revision).extend rest

/-- The id with these components, if their number is even and not zero. -/
def ofParts? : List UInt64 → Option NodeId
  | node :: revision :: rest => (first node revision).extend rest
  | _ => none

/-- The written form of an id. -/
def text (id : NodeId) : String :=
  String.ofList (['.'].intercalate (id.parts.map fun part => (Decimal.text part.toNat).toList))

instance : ToString NodeId := ⟨text⟩

/-- Ids compare component by component. -/
instance : Ord NodeId := ⟨fun a b => compare a.parts b.parts⟩

/-- Reads an id: components of digits joined by single dots, each below 2^64. -/
def ofText? (s : String) : Option NodeId :=
  ((s.toList.splitOn '.').mapM Decimal.read?).bind ofParts?

/-- Reads an id, or says that the text is none. -/
def parse (s : String) : Except Malformed NodeId :=
  match ofText? s with
  | some id => .ok id
  | none => .error (.nodeId s)

end NodeId

end VersionedTree

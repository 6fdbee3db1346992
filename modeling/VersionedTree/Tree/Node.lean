import VersionedTree.Contents.Chain
import VersionedTree.Contents.Frame
import VersionedTree.Record.Node

/-!
# Nodes — handles on the tree

A node is a handle: the id of a node revision, with the node revision as it was read last. Node revisions form a
directed graph without cycles. Those of a committed revision are never changed; a transaction edits the tree by cloning
the way to what it changes, from the root down, into mutable successors, and changes these in place.

An operation that changes a node reads it again before it checks anything, so it also refreshes the handle, even if it
fails. Operations that only look use what the handle holds.

* **`change`** is the common form of all operations that change a node.
* **`cloneChild`** makes a child mutable, **`make`** adds an empty child, **`delete`** removes an entry.
* **`setProps`** and **`setContents`** replace what a node holds.
-/

namespace VersionedTree

/-- The id of a node revision, and the node revision as it was read last. -/
structure Node where
  id : NodeId
  revision : NodeRevision
deriving DecidableEq, Repr

namespace Node

variable {σ : Type}

/-! ## Looking -/

/-- True of a file. -/
def isFile (node : Node) : Bool :=
  node.revision.kind = .file

/-- True of a directory. -/
def isDir (node : Node) : Bool :=
  node.revision.kind = .dir

/-- True of a node that may be changed in place. -/
def isMutable (node : Node) : Bool :=
  node.revision.isMutable

/-- The entries of a directory. -/
def entries (node : Node) : Except Error (List Entry) :=
  match node.revision.entries? with
  | some entries => .ok entries
  | none => .error (.notDirectory node.id)

/-- The entry of a directory with this name. -/
def entry (node : Node) (name : String) : Except Error Entry := do
  match (← node.entries).find? fun entry => entry.name = name with
  | some entry => return entry
  | none => throw (.notFound (.entry name node.id))

variable [RecordStore σ]

/-- The node with this id. -/
def load (id : NodeId) : TrailM σ Node := do
  return ⟨id, ← NodeRecord.read id⟩

/-- The child of a directory with this name. -/
def openChild (node : Node) (name : String) : TrailM σ Node := do
  let entry ← TrailM.ofResult (node.entry name)
  load entry.id

/-- The contents of a file, which are empty if none were ever set. -/
def contents (node : Node) : TrailM σ Bytes :=
  match node.revision.body with
  | .dir _ => throw (.notFile node.id)
  | .file none => return []
  | .file (some key) => Representation.readContents key

/-! ## Steps on a fresh node

Each step is given the node as it is now, and gives the node as it is afterwards together with its result. -/

/-- Refuses a node that may not be changed. -/
def requireMutable (node : Node) : TrailM σ Unit :=
  if node.isMutable then pure () else throw (.notMutable node.id)

/-- Puts the node revision of a node. -/
def save (node : Node) : TrailM σ Unit :=
  NodeRecord.put node.id node.revision

/-- A mutable successor of a node, made for an owner. -/
def cloneFor (owner : String) (node : Node) : TrailM σ Node := do
  let revision := node.revision.toMutable owner
  let id ← NodeRecord.createSuccessor node.id revision
  return ⟨id, revision⟩

/-- Entries with the first entry of a name made to stand for another id. -/
def redirect (name : String) (id : NodeId) : List Entry → List Entry
  | [] => []
  | entry :: rest => if entry.name = name then { entry with id := id } :: rest else entry :: redirect name id rest

/-- Makes the child of this name mutable, and gives it. A child that is mutable already is given as it is. -/
def cloneChildStep (name : String) (node : Node) : TrailM σ (Node × Node) := do
  requireMutable node
  let entry ← TrailM.ofResult (node.entry name)
  let child ← load entry.id
  if child.isMutable then
    return (child, node)
  let clone ← cloneFor node.id.text child
  let node := { node with revision := node.revision.mapEntries (redirect name clone.id) }
  save node
  return (clone, node)

/-- Adds an empty mutable child of this name and kind, and gives it. -/
def makeStep (name : String) (kind : Kind) (node : Node) : TrailM σ (Node × Node) := do
  requireMutable node
  let entries ← TrailM.ofResult node.entries
  if entries.any fun entry => entry.name = name then
    throw (.alreadyExists name)
  let revision := NodeRevision.newMutable kind node.id.text
  let id ← NodeRecord.create revision
  let node := { node with revision := node.revision.mapEntries fun entries => entries ++ [⟨name, id⟩] }
  save node
  return (⟨id, revision⟩, node)

/-- True of a mutable directory that is not empty. -/
def holdsChanges (node : Node) : Bool :=
  node.isMutable && node.revision.entries?.any fun entries => !entries.isEmpty

/-- Removes the entry of this name. A mutable child directory has to be empty; an immutable child is unlinked whatever
    it holds. -/
def deleteStep (name : String) (node : Node) : TrailM σ (Unit × Node) := do
  let entries ← TrailM.ofResult node.entries
  requireMutable node
  match entries.find? fun entry => entry.name = name with
  | none => throw (.noSuchEntry name)
  | some entry =>
    let child ← load entry.id
    if child.holdsChanges then
      throw (.dirNotEmpty name)
    let remaining := entries.eraseP fun entry => entry.name = name
    let node := { node with revision := { node.revision with body := .dir remaining } }
    save node
    return ((), node)

/-- Replaces the properties of a node by those of a skel. -/
def setPropsStep (props : Skel) (node : Node) : TrailM σ (Unit × Node) := do
  requireMutable node
  let props ← TrailM.ofStored (PropList.ofSkel props)
  let node := { node with revision := { node.revision with props := props } }
  save node
  return ((), node)

/-- Replaces the contents of a file. -/
def setContentsStep (config : Config) (data : Bytes) (node : Node) : TrailM σ (Unit × Node) := do
  match node.revision.body with
  | .dir _ => throw (.notFile node.id)
  | .file previous =>
    requireMutable node
    let key ← Representation.storeContents config previous data
    let node := { node with revision := { node.revision with body := .file (some key) } }
    save node
    return ((), node)

/-! ## Operations through a handle -/

/-- An operation through a handle. The handle may be refreshed by it, also if it fails. -/
abbrev HandleM (σ α : Type) : Type :=
  ClientM Node σ α

/-- Reads the node revision of the handle again. -/
def reload : HandleM σ Unit := do
  let node ← getThe Node
  let fresh ← TrailM.lift (load node.id)
  set fresh

/-- Reads the node again and takes a step on it. If the step fails, the handle holds the node as it was read. -/
def change {α : Type} (step : Node → TrailM σ (α × Node)) : HandleM σ α := do
  reload
  let node ← getThe Node
  let (result, node) ← TrailM.lift (step node)
  set node
  return result

/-- Makes the child of this name mutable, and gives it. -/
def cloneChild (name : String) : HandleM σ Node :=
  change (cloneChildStep name)

/-- Adds an empty mutable child of this name and kind, and gives it. -/
def make (name : String) (kind : Kind) : HandleM σ Node :=
  change (makeStep name kind)

/-- Removes the entry of this name. -/
def delete (name : String) : HandleM σ Unit :=
  change (deleteStep name)

/-- Replaces the properties of the node by those of a skel. -/
def setProps (props : Skel) : HandleM σ Unit :=
  change (setPropsStep props)

/-- Replaces the contents of the file. -/
def setContents (config : Config) (data : Bytes) : HandleM σ Unit :=
  change (setContentsStep config data)

end Node

end VersionedTree

import VersionedTree.Filesystem

/-!
# Clients — steps on the tree through named handles

A client works on the tree in steps. It keeps the nodes that steps give it under names of its own, from one trail to the
next, also when a trail fails, so a handle may be older than the records it stands for.

* **`Step`** lists what a client can do, **`Step.run`** does it.
-/

namespace VersionedTree.Client

/-- The nodes that a client holds, by name. -/
abbrev Handles := SortedMap String Node

/-- A step on the tree. `h` is the handle it goes through, and `keep` the name under which a node that it gives is
    kept. -/
inductive Step where
  /-- Enters the root of a transaction. -/
  | cloneRoot (txn : String) (keep : Option String)
  /-- Enters the root of a revision. -/
  | revisionRoot (number : UInt64) (keep : Option String)
  /-- Takes the node with a given id. -/
  | load (id : NodeId) (keep : Option String)
  | openChild (h name : String) (keep : Option String)
  | openPath (h path : String) (keep : Option String)
  | cloneChild (h name : String) (keep : Option String)
  | make (h name : String) (kind : Kind) (keep : Option String)
  /-- Takes another handle on the same node. -/
  | copy (h : String) (keep : Option String)
  | delete (h name : String)
  | setContents (h : String) (data : Bytes)
  | setProps (h : String) (props : Skel)
  | reload (h : String)
  | contents (h : String)
  | prop (h name : String)
  | entries (h : String)
  /-- Asks whether the node is a file, a directory, and mutable. -/
  | inspect (h : String)
  /-- Asks whether two handles hold the same. -/
  | same (h other : String)
deriving DecidableEq, Repr

/-- What a step answers. -/
inductive Answer where
  | done
  | node (node : Node)
  | bytes (data : Bytes)
  | prop (value : Option Bytes)
  | entries (entries : List Entry)
  | inspected (isFile isDir isMutable : Bool)
  | truth (b : Bool)
  /-- There is no handle of that name, and nothing was done. -/
  | noHandle
deriving DecidableEq, Repr

variable {σ α : Type}

/-- Does something through the handle that holds `node`, and keeps the handle as it is left. -/
def through (h : String) (node : Node) (m : Node.HandleM σ α) : ClientM Handles σ α :=
  ExceptT.mk fun handles => do
    let (result, node) ← m node
    return (result, handles.insert h node)

/-- Keeps a node under a name, if there is one, and answers with it. -/
def give (keep : Option String) (node : Node) : ClientM Handles σ Answer := do
  match keep with
  | none => return .node node
  | some name =>
    modifyThe Handles fun handles => handles.insert name node
    return .node node

/-- Does something with the node of a handle. -/
def withHandle (h : String) (f : Node → ClientM Handles σ Answer) : ClientM Handles σ Answer := do
  match (← getThe Handles).find? h with
  | none => return .noHandle
  | some node => f node

/-- Takes a step. -/
def Step.run [RecordStore σ] (config : Config) : Step → ClientM Handles σ Answer
  | cloneRoot txn keep => do give keep (← (Root.ofTransaction txn).lift)
  | revisionRoot number keep => do give keep (← (Root.ofRevision number).lift)
  | load id keep => do give keep (← (Node.load id).lift)
  | openChild h name keep => withHandle h fun node => do give keep (← (node.openChild name).lift)
  | openPath h path keep => withHandle h fun node => do give keep (← (Path.openFrom node path).lift)
  | cloneChild h name keep => withHandle h fun node => do give keep (← through h node (Node.cloneChild name))
  | make h name kind keep => withHandle h fun node => do give keep (← through h node (Node.make name kind))
  | copy h keep => withHandle h fun node => give keep node
  | delete h name => withHandle h fun node => do
    through h node (Node.delete name)
    return .done
  | setContents h data => withHandle h fun node => do
    through h node (Node.setContents config data)
    return .done
  | setProps h props => withHandle h fun node => do
    through h node (Node.setProps props)
    return .done
  | reload h => withHandle h fun node => do
    through h node Node.reload
    return .done
  | contents h => withHandle h fun node => do return .bytes (← node.contents.lift)
  | prop h name => withHandle h fun node => return .prop (node.revision.props.get? name)
  | entries h => withHandle h fun node => do return .entries (← (TrailM.ofResult node.entries).lift)
  | inspect h => withHandle h fun node => return .inspected node.isFile node.isDir node.isMutable
  | same h other => withHandle h fun node => do
    return .truth ((← getThe Handles).find? other == some node)

end VersionedTree.Client

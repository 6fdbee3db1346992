import VersionedTree.NodeId
import VersionedTree.PropList

/-!
# Node revisions — one version of a file or a directory

A node revision has properties, flags and a body: the entries of a directory, or the key under which the contents of a
file are stored. A node revision that carries a mutable flag belongs to an open transaction and may be changed in
place; all others never change. It is stored as the skel

    (HEADER BODY)    HEADER = (KIND PROPLIST FLAG ...)

where the kind is `file` or `dir`, a mutable flag is `(mutable OWNER)`, the body of a directory is a list of
`(NAME ID)`, and the body of a file is the key of its contents, or the empty atom if it has none.
-/

namespace VersionedTree

/-- What a node is. -/
inductive Kind where
  | file
  | dir
deriving DecidableEq, Repr

/-- The word for a kind in a stored header. -/
def Kind.text : Kind → String
  | file => "file"
  | dir => "dir"

/-- A flag in a header. -/
inductive Flag where
  /-- The node may be changed in place. `owner` names the directory or the transaction that it was made for. -/
  | mutable (owner : String)
  /-- Any other flag, kept as it was read. -/
  | other (skel : Skel)
deriving DecidableEq, Repr

namespace Flag

/-- The first element of a mutable flag. -/
def mutableTag : String :=
  "mutable"

/-- True of a mutable flag. -/
def isMutable : Flag → Bool
  | mutable _ => true
  | other _ => false

/-- The stored form of a flag. -/
def toSkel : Flag → Skel
  | mutable owner => .list [.ofText mutableTag, .ofText owner]
  | other s => s

/-- Reads a flag: a list which, if it starts as a mutable flag does, names one owner and nothing else. -/
def ofSkel (s : Skel) : Except Malformed Flag :=
  match s with
  | .atom _ => .error .flagNotList
  | .list [] => .ok (.other s)
  | .list (tag :: rest) =>
    if tag.isText mutableTag then
      match rest with
      | [owner] => mutable <$> owner.text
      | _ => .error .flagOwner
    else
      .ok (.other s)

end Flag

/-- A name in a directory and the node revision it stands for. -/
structure Entry where
  name : String
  id : NodeId
deriving DecidableEq, Repr

namespace Entry

/-- The stored form of an entry. -/
def toSkel (entry : Entry) : Skel :=
  .list [.ofText entry.name, .ofText entry.id.text]

/-- Reads an entry: a list of a name and an id. -/
def ofSkel (s : Skel) : Except Malformed Entry :=
  match s with
  | .list [name, id] => do
    let name ← name.text
    let id ← NodeId.parse (← id.text)
    return ⟨name, id⟩
  | _ => .error .entryShape

end Entry

/-- What a node revision holds, by kind. -/
inductive Body where
  /-- The entries of a directory, in order. -/
  | dir (entries : List Entry)
  /-- The key of the contents of a file, if any were ever set. -/
  | file (contents : Option String)
deriving DecidableEq, Repr

namespace Body

/-- The kind of node that has such a body. -/
def kind : Body → Kind
  | dir _ => .dir
  | file _ => .file

/-- The stored form of a body. -/
def toSkel : Body → Skel
  | dir entries => .list (entries.map Entry.toSkel)
  | file contents => .ofText (contents.getD "")

/-- Reads the body of a directory. -/
def dirOfSkel (s : Skel) : Except Malformed Body :=
  match s with
  | .atom _ => .error .entriesNotList
  | .list items => dir <$> items.mapM Entry.ofSkel

/-- Reads the body of a file. -/
def fileOfSkel (s : Skel) : Except Malformed Body := do
  let key ← s.text
  return file (if key = "" then none else some key)

end Body

/-- One version of a file or a directory. -/
structure NodeRevision where
  props : PropList
  flags : List Flag
  body : Body
deriving DecidableEq, Repr

namespace NodeRevision

/-- The empty directory that nobody may change. -/
def emptyDir : NodeRevision :=
  ⟨.empty, [], .dir []⟩

/-- A new node of this kind, empty and mutable. -/
def newMutable (kind : Kind) (owner : String) : NodeRevision where
  props := .empty
  flags := [.mutable owner]
  body :=
    match kind with
    | .file => .file none
    | .dir => .dir []

/-- File or directory. -/
def kind (node : NodeRevision) : Kind :=
  node.body.kind

/-- True of a node revision with a mutable flag. -/
def isMutable (node : NodeRevision) : Bool :=
  node.flags.any Flag.isMutable

/-- The node revision without its mutable flags. -/
def freeze (node : NodeRevision) : NodeRevision :=
  { node with flags := node.flags.filter fun flag => !flag.isMutable }

/-- The node revision made mutable for this owner, and for nobody else. -/
def toMutable (node : NodeRevision) (owner : String) : NodeRevision :=
  { node with flags := node.freeze.flags ++ [.mutable owner] }

/-- The entries of a directory. -/
def entries? (node : NodeRevision) : Option (List Entry) :=
  match node.body with
  | .dir entries => some entries
  | .file _ => none

/-- The node revision with the entries of its directory changed; a file stays as it is. -/
def mapEntries (node : NodeRevision) (f : List Entry → List Entry) : NodeRevision :=
  match node.body with
  | .dir entries => { node with body := .dir (f entries) }
  | .file _ => node

/-- The first entry with this name. -/
def findEntry? (node : NodeRevision) (name : String) : Option Entry :=
  node.entries?.bind fun entries => entries.find? fun entry => entry.name = name

/-- The key of the contents of a file, if any were set. -/
def contents? (node : NodeRevision) : Option String :=
  match node.body with
  | .dir _ => none
  | .file contents => contents

/-- The stored form of a node revision. -/
def toSkel (node : NodeRevision) : Skel :=
  .list [
    .list (.ofText node.kind.text :: node.props.toSkel :: node.flags.map Flag.toSkel),
    node.body.toSkel]

/-- Reads the body that goes with a word for a kind. -/
def bodyOfSkel (kind body : Skel) : Except Malformed Body :=
  if kind.isText Kind.dir.text then Body.dirOfSkel body
  else if kind.isText Kind.file.text then Body.fileOfSkel body
  else .error .unknownKind

/-- Reads a node revision. -/
def ofSkel (s : Skel) : Except Malformed NodeRevision :=
  match s with
  | .list [header, body] =>
    match header with
    | .list (kind :: props :: flags) => do
      let props ← PropList.ofSkel props
      let flags ← flags.mapM Flag.ofSkel
      let body ← bodyOfSkel kind body
      return ⟨props, flags, body⟩
    | _ => .error .headerShape
  | _ => .error .nodeShape

end NodeRevision

end VersionedTree

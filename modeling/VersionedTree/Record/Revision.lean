import VersionedTree.Record.Node

/-!
# Revision records — what was committed

Revisions are numbered from 0 without gaps. A revision has the id of its root directory and properties; it is stored as
`(revision ROOT-ID PROPLIST)` under its number. **`append`** records a new revision after the youngest one, and
**`makeFirst`** makes revision 0.
-/

namespace VersionedTree

/-- A committed revision. -/
structure Revision where
  root : NodeId
  props : PropList
deriving DecidableEq, Repr

namespace Revision

variable {σ : Type} [RecordStore σ]

/-- The property that holds the time of the commit. -/
def dateProperty : String := "svn:date"

/-- The properties of a revision that was made at this time. -/
def propsAt (date : String) : PropList :=
  PropList.empty.insert dateProperty (Text.toBytes date)

/-- The first element of a revision record. -/
def tag : String := "revision"

/-- The stored form of a revision. -/
def toSkel (revision : Revision) : Skel :=
  .list [.ofText tag, .ofText revision.root.text, revision.props.toSkel]

/-- Reads a revision. -/
def ofSkel (s : Skel) : Except Malformed Revision :=
  match s with
  | .list [word, root, props] =>
    if word.isText tag then do
      let root ← NodeId.parse (← root.text)
      let props ← PropList.ofSkel props
      return ⟨root, props⟩
    else
      .error .revisionShape
  | _ => .error .revisionShape

/-- The key of the record of a revision. -/
def key (number : UInt64) : Key :=
  .ofText .revisions (Decimal.text number.toNat)

/-- The stored text of a revision. -/
def encode (revision : Revision) : Bytes :=
  revision.toSkel.print

/-- Reads the stored text of a revision. -/
def decode (value : Bytes) : Except Malformed Revision := do
  ofSkel (← Skel.parse value)

/-- The revision with this number. -/
def read (number : UInt64) : TrailM σ Revision := do
  match ← Trail.read (key number) with
  | none => throw (.notFound (.revision number.toNat))
  | some value => TrailM.ofStored (decode value)

/-- The number of the youngest revision, if there is any. -/
def youngest? : TrailM σ (Option UInt64) :=
  Counter.readNumber Counter.youngest

/-- The number of the youngest revision. -/
def youngest : TrailM σ UInt64 := do
  match ← youngest? with
  | some number => return number
  | none => throw (.corrupt .noRevisions)

/-- The number of the revision after the youngest one, which is 0 if there is none. -/
def nextNumber : TrailM σ UInt64 := do
  match ← youngest? with
  | some number => Counter.successor Counter.youngest number
  | none => return 0

/-- Records a revision after the youngest one, and gives its number. -/
def append (revision : Revision) : TrailM σ UInt64 := do
  let number ← nextNumber
  Trail.put (key number) (encode revision)
  Counter.writeNumber Counter.youngest number
  return number

/-- Makes the first revision of a filesystem, whose root is an empty directory. -/
def makeFirst (date : String) : TrailM σ Unit := do
  NodeRecord.put .root .emptyDir
  let number ← append ⟨.root, propsAt date⟩
  if number ≠ 0 then
    throw (.corrupt (.initialRevision number.toNat))

end Revision

end VersionedTree

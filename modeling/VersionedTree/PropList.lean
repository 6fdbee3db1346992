import VersionedTree.Skel.Basic

/-!
# Property lists — values by name, in order

A property list pairs names with values and keeps the order in which names were first set. It is stored as a flat list
of atoms, names and values in turn. Setting a name that is there replaces its value in place. A stored list may name a
property twice; then every operation means the first occurrence.
-/

namespace VersionedTree

/-- Pairs of a name and a value, in order. -/
structure PropList where
  pairs : List (Bytes × Bytes)
deriving DecidableEq, Repr

namespace PropList

/-- The list without properties. -/
def empty : PropList :=
  ⟨[]⟩

/-- The number of pairs. -/
def length (props : PropList) : Nat :=
  props.pairs.length

/-- True of the list without properties. -/
def isEmpty (props : PropList) : Bool :=
  props.pairs.isEmpty

/-- The value of the first property with this name. -/
def get? (props : PropList) (name : String) : Option Bytes :=
  (props.pairs.find? fun pair => pair.1 = Text.toBytes name).map Prod.snd

/-- Replaces the value of the first pair named `name`, or adds a pair at the end. -/
def insertPair (name value : Bytes) : List (Bytes × Bytes) → List (Bytes × Bytes)
  | [] => [(name, value)]
  | pair :: rest => if pair.1 = name then (name, value) :: rest else pair :: insertPair name value rest

/-- The list with `name` set to `value`. -/
def insert (props : PropList) (name : String) (value : Bytes) : PropList :=
  ⟨insertPair (Text.toBytes name) value props.pairs⟩

/-- The list without its first property of this name. -/
def erase (props : PropList) (name : String) : PropList :=
  ⟨props.pairs.eraseP fun pair => pair.1 = Text.toBytes name⟩

/-- The value of the first property of this name, and the list without that property. Its position is found first, and
    then what stands there is taken out. -/
def remove (props : PropList) (name : String) : Option Bytes × PropList :=
  match props.pairs.findIdx? fun pair => pair.1 = Text.toBytes name with
  | none => (none, props)
  | some i => (props.pairs[i]?.map Prod.snd, ⟨props.pairs.eraseIdx i⟩)

/-- The flat list of names and values. -/
def toSkel (props : PropList) : Skel :=
  .list (props.pairs.flatMap fun pair => [.atom pair.1, .atom pair.2])

/-- Reads names and values in turn. -/
def pairsOfItems : List Skel → Except Malformed (List (Bytes × Bytes))
  | [] => .ok []
  | .atom name :: .atom value :: rest => do
    let pairs ← pairsOfItems rest
    return (name, value) :: pairs
  | _ => .error .propListElement

/-- Reads a property list: a list of an even number of elements, all of them atoms. -/
def ofSkel (s : Skel) : Except Malformed PropList :=
  match s with
  | .atom _ => .error .propListNotList
  | .list items =>
    if items.length % 2 = 0 then
      PropList.mk <$> pairsOfItems items
    else
      .error .propListOdd

end PropList

end VersionedTree

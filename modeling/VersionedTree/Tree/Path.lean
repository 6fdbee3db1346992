import VersionedTree.Tree.Node

/-!
# Paths — names on the way down

A path is written as names joined by slashes. Empty names do not count, so a path may start and end with a slash, slashes
may be doubled, and the empty path stands for the node that it starts at.
-/

namespace VersionedTree.Path

variable {σ : Type} [RecordStore σ]

/-- The names on a path, in order. -/
def names (path : String) : List String :=
  ((path.toList.splitOn '/').filter fun name => !name.isEmpty).map String.ofList

/-- Opens one child after the other. -/
def follow : Node → List String → TrailM σ Node
  | node, [] => return node
  | node, name :: rest => do
    let child ← node.openChild name
    follow child rest

/-- The node that a path leads to. -/
def openFrom (node : Node) (path : String) : TrailM σ Node :=
  follow node (names path)

end VersionedTree.Path

import VersionedTree.Record.Node

/-!
# Freezing — making a tree immutable

Committing a transaction makes its mutable nodes immutable. Mutable nodes are only found below mutable nodes, so the walk
stops at the first immutable node on each way down. A node is frozen before its children are visited, so the walk ends
even where entries lead back up.
-/

namespace VersionedTree.NodeRecord

variable {σ : Type} [RecordStore σ]

/-- Freezes the mutable nodes that `id` leads to through mutable nodes, and counts them. The walk goes `depth` nodes deep
    at most. -/
def freezeWithin : (depth : Nat) → (id : NodeId) → TrailM σ Nat
  | 0, id => throw (.notFound (.node id))
  | depth + 1, id => do
    let node ← read id
    if node.isMutable then
      put id node.freeze
      let counts ← (node.entries?.getD []).mapM fun entry => freezeWithin depth entry.id
      return counts.sum + 1
    else
      return 0

/-- Freezes the mutable nodes that `id` leads to through mutable nodes, and counts them. Every node on the way down from
    `id` is another one, so the walk goes no deeper than there are records. -/
def freeze (id : NodeId) : TrailM σ Nat := do
  freezeWithin ((← Trail.bound) + 1) id

end VersionedTree.NodeRecord

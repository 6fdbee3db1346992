import VersionedTree.Proofs.Filesystem.Reachable

/-!
# Owners — the mutable part of a filesystem

What the invariant of the records says about mutable nodes: below an immutable directory there are none, each of them is
referred to at most once, and whatever refers to it is its owner.

* **`Reference`** — the places that can refer to a node: an entry of a directory, or the root of a transaction.
* **`Reachable.mutable_nodes_owned`** — the theorem, for everything a filesystem can become.
-/

namespace VersionedTree

/-- A place that refers to a node. -/
inductive Reference where
  /-- The entry at a position in a directory. -/
  | entry (dir : NodeId) (position : Nat)
  /-- The root of an open transaction. -/
  | root (txn : String)
deriving DecidableEq, Repr

namespace View

/-- True if what stands at a place is this node. -/
def RefersTo (v : View) : Reference → NodeId → Prop
  | .entry dir position, id => ∃ node entry, v.node dir = some node ∧ node.children[position]? = some entry ∧ entry.id = id
  | .root name, id => ∃ txn, v.txn name = some txn ∧ txn.root = id

/-- An entry that refers to a node is a link to it. -/
theorem RefersTo.links {v : View} {dir id : NodeId} {position : Nat} (h : v.RefersTo (.entry dir position) id) :
    v.Links dir id := by
  obtain ⟨node, entry, hnode, hentry, hid⟩ := h
  exact ⟨node, entry, hnode, List.mem_of_getElem? hentry, hid⟩

namespace Consistent

variable {v : View} {id dir : NodeId} {node : NodeRevision} {owner name : String}

/-- Two entries of one directory that stand for one mutable node are the same entry. -/
theorem position_unique (h : v.Consistent) (hnode : v.node dir = some node) (hmutable : v.IsMutable id) {i j : Nat}
    {entry entry' : Entry} (hi : node.children[i]? = some entry) (hj : node.children[j]? = some entry')
    (hentry : entry.id = id) (hentry' : entry'.id = id) : i = j := by
  obtain ⟨hilt, rfl⟩ := List.getElem?_eq_some_iff.1 hi
  obtain ⟨hjlt, rfl⟩ := List.getElem?_eq_some_iff.1 hj
  have hpairs := List.pairwise_iff_getElem.1 (h.single hnode)
  rcases Nat.lt_trichotomy i j with hlt | heq | hlt
  · exact absurd (hentry ▸ hmutable) (hpairs i j hilt hjlt hlt (hentry.trans hentry'.symm))
  · exact heq
  · exact absurd (hentry' ▸ hmutable) (hpairs j i hjlt hilt hlt (hentry'.trans hentry.symm))

/-- Whatever refers to a mutable node is its owner, so nothing else does. -/
theorem reference_unique (h : v.Consistent) (hnode : v.node id = some node) (hmutable : node.isMutable = true)
    {ref ref' : Reference} (href : v.RefersTo ref id) (href' : v.RefersTo ref' id) : ref = ref' := by
  cases ref with
  | entry dir position =>
    have howner := h.owner href.links hnode hmutable
    cases ref' with
    | entry dir' position' =>
      -- both directories are the owner, which has one entry for the node
      have hsame : dir.text = dir'.text := by simpa using howner.symm.trans (h.owner href'.links hnode hmutable)
      cases NodeId.text_injective hsame
      obtain ⟨dirNode, entry, hdir, hentry, hid⟩ := href
      obtain ⟨dirNode', entry', hdir', hentry', hid'⟩ := href'
      cases hdir.symm.trans hdir'
      rw [h.position_unique hdir ⟨node, hnode, hmutable⟩ hentry hentry' hid hid']
    | root name =>
      obtain ⟨txn, htxn, rfl⟩ := href'
      exact absurd (h.owner_of_txnRoot htxn hnode hmutable) (h.txn_not_owner_of_link href.links hnode (htxn ▸ nofun))
  | root name =>
    obtain ⟨txn, htxn, rfl⟩ := href
    have howner := h.owner_of_txnRoot htxn hnode hmutable
    cases ref' with
    | entry dir position =>
      exact absurd howner (h.txn_not_owner_of_link href'.links hnode (htxn ▸ nofun))
    | root name' =>
      obtain ⟨txn', htxn', hroot⟩ := href'
      have hsame := howner.symm.trans (h.owner_of_txnRoot htxn' (hroot ▸ hnode) hmutable)
      have : name = name' := by simpa using hsame
      rw [this]

end Consistent

end View

namespace Filesystem

variable {σ : Type} [RecordStore σ] [LawfulStore σ]

/-- **MUTABLE NODES ARE OWNED.** In every filesystem that can come about: (a) the children of an immutable directory are
    immutable; (b) a mutable node has exactly one mutable flag, and is referred to by at most one entry or transaction;
    (c) a directory that refers to it is mutable and is its owner, and so is a transaction whose root it is; (d) the
    base root of a transaction is immutable, and its root is the base root or mutable. -/
theorem Reachable.mutable_nodes_owned {fs : Filesystem σ} (h : Reachable fs) :
    (∀ dir node, fs.view.node dir = some node → node.isMutable = false → ∀ entry ∈ node.children,
      ∃ child, fs.view.node entry.id = some child ∧ child.isMutable = false) ∧
    (∀ id node, fs.view.node id = some node → node.isMutable = true →
      ∃ owner, node.flags.filter Flag.isMutable = [.mutable owner] ∧
        (∀ ref ref', fs.view.RefersTo ref id → fs.view.RefersTo ref' id → ref = ref') ∧
        (∀ dir position, fs.view.RefersTo (.entry dir position) id → fs.view.IsMutable dir ∧ owner = dir.text) ∧
        ∀ name, fs.view.RefersTo (.root name) id → owner = name) ∧
    ∀ name txn, fs.view.txn name = some txn →
      (∃ base, fs.view.node txn.baseRoot = some base ∧ base.isMutable = false) ∧
        (txn.root = txn.baseRoot ∨ fs.view.IsMutable txn.root) := by
  have hv := h.healthy.consistent
  refine ⟨?_, ?_, ?_⟩
  · intro dir node hnode himmutable entry hentry
    exact hv.immutable_child hnode himmutable ⟨node, entry, hnode, hentry, rfl⟩
  · intro id node hnode hmutable
    obtain ⟨owner, hflags⟩ := hv.flags_of_mutable hnode hmutable
    refine ⟨owner, by simp [hflags, Flag.isMutable], fun _ _ => hv.reference_unique hnode hmutable, ?_, ?_⟩
    · intro dir position href
      -- the flags of the child name the directory that holds it, and there is one owner among them
      have howner := hv.owner href.links hnode hmutable
      exact ⟨hv.mutable_of_child href.links ⟨node, hnode, hmutable⟩, by simpa using hflags.symm.trans howner⟩
    · rintro name ⟨txn, htxn, rfl⟩
      have howner := hv.owner_of_txnRoot htxn hnode hmutable
      simpa using hflags.symm.trans howner
  · intro name txn htxn
    refine ⟨hv.baseRoot_immutable htxn, ?_⟩
    rcases hv.txnRoot htxn with hroot | ⟨node, hnode, hflags⟩
    · exact .inl hroot
    · exact .inr ⟨node, hnode, NodeRevision.isMutable_of_flags hflags⟩

/-- The file of an open transaction is owned by its root directory, and no other entry refers to it. -/
theorem Sample.file_owned :
    Sample.edited.view.node (.ofNode 1) = some ⟨.empty, [.mutable "0.1"], .file none⟩ ∧
      ∀ ref ref', Sample.edited.view.RefersTo ref (.ofNode 1) → Sample.edited.view.RefersTo ref' (.ofNode 1) → ref = ref' := by
  have hnode : Sample.edited.view.node (.ofNode 1) = some ⟨.empty, [.mutable "0.1"], .file none⟩ := by decide +kernel
  obtain ⟨-, hmutable, -⟩ := Sample.reachable_edited.mutable_nodes_owned
  obtain ⟨owner, -, hunique, -⟩ := hmutable (.ofNode 1) _ hnode rfl
  exact ⟨hnode, hunique⟩

end Filesystem

end VersionedTree

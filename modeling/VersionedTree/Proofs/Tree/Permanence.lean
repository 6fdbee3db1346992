import Mathlib.Logic.Relation
import VersionedTree.Proofs.Tree.Ownership

/-!
# Permanence — what no edit changes

Immutable nodes, revisions and representations are there for good. Everything that can be read below a revision is made
of these.

* **`View.Keeps`** — one view has all of these that another has.
* **`Consistent.keeps_of_edited`** — what comes from a view by edits keeps what it has.
* **`Consistent.immutable_of_leads`** and **`Keeps.leads_iff`** — below an immutable node all nodes are immutable, so what
  it leads to stays the same.
-/

namespace VersionedTree.View

/-- True if immutable nodes, revisions and representations of `v` are in `w`, too. -/
structure Keeps (v w : View) : Prop where
  node : ∀ id node, v.node id = some node → node.isMutable = false → w.node id = some node
  revision : ∀ number revision, v.revision number = some revision → w.revision number = some revision
  rep : ∀ key rep, v.rep key = some rep → w.rep key = some rep

/-- True if entries lead from one node down to another. -/
def Leads (v : View) : NodeId → NodeId → Prop :=
  Relation.ReflTransGen v.Links

variable {u v w : View} {id : NodeId} {m : NodeRevision}

namespace Keeps

theorem refl (v : View) : v.Keeps v :=
  ⟨fun _ _ h _ => h, fun _ _ h => h, fun _ _ h => h⟩

/-- Transactions and globals do not matter. -/
theorem of_eq (hnode : w.node = v.node) (hrevision : w.revision = v.revision) (hrep : w.rep = v.rep) : v.Keeps w where
  node id _ h _ := (congrFun hnode id).trans h
  revision number _ h := (congrFun hrevision number).trans h
  rep key _ h := (congrFun hrep key).trans h

theorem trans (h : u.Keeps v) (h' : v.Keeps w) : u.Keeps w where
  node id node hnode himmutable := h'.node id node (h.node id node hnode himmutable) himmutable
  revision number revision hrevision := h'.revision number revision (h.revision number revision hrevision)
  rep key rep hrep := h'.rep key rep (h.rep key rep hrep)

/-- A node may be put where there is none yet, or a mutable one. -/
theorem setNode (h : ∀ old, v.node id = some old → old.isMutable = true) : v.Keeps (v.setNode id m) where
  node id' node hnode himmutable := by
    have hne : id' ≠ id := by
      rintro rfl
      exact nomatch himmutable.symm.trans (h node hnode)
    exact (setNode_node_of_ne hne).trans hnode
  revision _ _ hrevision := hrevision
  rep _ _ hrep := hrep

/-- A new node is no loss. -/
theorem addNode (h : v.node id = none) : v.Keeps (v.setNode id m) :=
  setNode fun _ hold => nomatch h.symm.trans hold

/-- A mutable node may be changed. -/
theorem revise {node : NodeRevision} (h : v.node id = some node) (hmutable : node.isMutable = true) :
    v.Keeps (v.setNode id m) :=
  setNode fun _ hold => by cases h.symm.trans hold; exact hmutable

/-- A new node may come before the revision of a mutable one. -/
theorem addAndRevise {dir : NodeId} {node m' : NodeRevision} (hfree : v.node id = none) (hnode : v.node dir = some node)
    (hmutable : node.isMutable = true) : v.Keeps ((v.setNode id m).setNode dir m') := by
  have hput : (v.setNode id m).node dir = some node := (setNode_node_of_ne (ne_of_free hfree (hnode ▸ nofun))).trans hnode
  exact (addNode hfree).trans (revise hput hmutable)

/-- A representation may be put under a key that is free. -/
theorem setRep {key : String} {rep : Representation} (h : v.rep key = none) : v.Keeps (v.setRep key rep) where
  node _ _ hnode _ := hnode
  revision _ _ hrevision := hrevision
  rep key' rep' hrep' := by
    have hne : key' ≠ key := by
      rintro rfl
      exact nomatch h.symm.trans hrep'
    simpa [hne] using hrep'

/-- A new revision is no loss. -/
theorem setRevision {number : UInt64} {revision : Revision} (h : v.revision number = none) :
    v.Keeps (v.setRevision number revision) where
  node _ _ hnode _ := hnode
  revision number' revision' hrevision' := by
    have hne : number' ≠ number := by
      rintro rfl
      exact nomatch h.symm.trans hrevision'
    simpa [hne] using hrevision'
  rep _ _ hrep := hrep

/-- Freezing changes mutable nodes only. -/
theorem freeze (v : View) (root : NodeId) : v.Keeps (v.freeze root) where
  node id node hnode himmutable := by
    have hid : ¬ v.Editable root id := fun hreach => not_isMutable hnode himmutable hreach.isMutable
    exact (node_freezeAll_of_not_mem hid).trans hnode
  revision _ _ hrevision := hrevision
  rep _ _ hrep := hrep

end Keeps

namespace Consistent

/-- **NO EDIT** takes away what is there for good. -/
theorem keeps_of_edited (h : v.Consistent) {edit : Edit} (hedit : v.Edited edit w) : v.Keeps w := by
  cases hedit with
  | skip _ _ => exact .of_eq rfl rfl rfl
  | strand _ _ _ hfree _ => exact .addNode hfree
  | cloneRoot _ _ _ hfree _ => exact (Keeps.addNode hfree).trans (.of_eq rfl rfl rfl)
  | cloneChild hnode hmutable _ _ _ _ hfree _ =>
    exact .addAndRevise hfree hnode hmutable
  | @make dir node entries name kind n hnode hmutable _ _ _ _ hfree =>
    have hskip : v.Keeps (v.setNumber Counter.nextNode (n + 1)) := .of_eq rfl rfl rfl
    exact hskip.trans (.addAndRevise hfree hnode hmutable)
  | delete hnode hmutable _ _ _ _ => exact .revise hnode hmutable
  | setProps hnode hmutable => exact .revise hnode hmutable
  | @setContents id node previous data key next rep n hnode hmutable _ hkey hnext _ =>
    have hnext' : v.Keeps (v.setGlobal Counter.nextRepresentation (Text.toBytes next)) := .of_eq rfl rfl rfl
    have hfree : (v.setGlobal Counter.nextRepresentation (Text.toBytes next)).rep key = none :=
      (h.repKey_free hkey hnext).1
    exact hnext'.trans ((Keeps.setRep hfree).trans (Keeps.revise hnode hmutable))
  | begin _ _ _ => exact .of_eq rfl rfl rfl
  | close _ => exact .of_eq rfl rfl rfl
  | @commit name date txn htxn hyoungest hleft =>
    have hfree : (v.freeze txn.root).revision (txn.baseRevision + 1) = none := h.nextRevision_free hyoungest hleft
    exact (Keeps.freeze v txn.root).trans ((Keeps.setRevision hfree).trans (.of_eq rfl rfl rfl))

/-! ## What an immutable node leads to -/

/-- All that an immutable node leads to is there and immutable. -/
theorem immutable_of_leads (h : v.Consistent) {root : NodeId} {node : NodeRevision} (hroot : v.node root = some node)
    (himmutable : node.isMutable = false) (hleads : v.Leads root id) :
    ∃ node', v.node id = some node' ∧ node'.isMutable = false := by
  induction hleads with
  | refl => exact ⟨node, hroot, himmutable⟩
  | tail _ hlink ih =>
    obtain ⟨dir, hdir, hdirImmutable⟩ := ih
    exact h.immutable_child hdir hdirImmutable hlink

end Consistent

/-- A directory that is kept leads where it led. -/
theorem Links.of_node_eq {dir : NodeId} {node : NodeRevision} (hlink : v.Links dir id) (hv : v.node dir = some node)
    (hw : w.node dir = some node) : w.Links dir id := by
  obtain ⟨node', entry, hnode', hentry, hid⟩ := hlink
  cases hv.symm.trans hnode'
  exact ⟨node, entry, hw, hentry, hid⟩

/-- What an immutable node leads to stays the same. -/
theorem Keeps.leads_iff (h : v.Keeps w) (hv : v.Consistent) {root : NodeId} {node : NodeRevision}
    (hroot : v.node root = some node) (himmutable : node.isMutable = false) : w.Leads root id ↔ v.Leads root id := by
  constructor
  · intro hleads
    induction hleads with
    | refl => exact .refl
    | tail _ hlink ih =>
      obtain ⟨dir, hdir, hdirImmutable⟩ := hv.immutable_of_leads hroot himmutable ih
      exact ih.tail (hlink.of_node_eq (h.node _ _ hdir hdirImmutable) hdir)
  · intro hleads
    induction hleads with
    | refl => exact .refl
    | tail hbelow hlink ih =>
      obtain ⟨dir, hdir, hdirImmutable⟩ := hv.immutable_of_leads hroot himmutable hbelow
      exact ih.tail (hlink.of_node_eq hdir (h.node _ _ hdir hdirImmutable))

end VersionedTree.View

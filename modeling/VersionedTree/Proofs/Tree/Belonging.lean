import VersionedTree.Proofs.Trail.Retention
import VersionedTree.Proofs.Tree.Answers
import VersionedTree.Proofs.Tree.Order

/-!
# Belonging — whose a mutable node is

The owner of a mutable node is a directory or a transaction, and the owner of the directory is the next one up, so going
from owner to owner ends at a transaction, if it ends at something mutable at all. The node belongs to this transaction.
It does so from when it is made until it is frozen, also when no entry leads to it any more.

* **`View.Belongs`** — the owners of a node end at a transaction. **`Belongs.unique`** — at one transaction.
* **`Consistent.belongs_of_leads`** — whatever mutable node a transaction leads to belongs to it.
* **`Ordered.belongs_of_edited`** and **`Belongs.edited`** — no edit gives away what is there.
* **`Works.hasTree`** — an operation on a node that does not belong to a transaction is not seen in its tree.
-/

namespace VersionedTree.View

/-- True of the mutable nodes whose owners end at the transaction. -/
inductive Belongs (v : View) (name : String) : NodeId → Prop where
  | root {id : NodeId} {node : NodeRevision} (hnode : v.node id = some node) (hflags : node.flags = [.mutable name]) :
      v.Belongs name id
  | child {dir id : NodeId} {node : NodeRevision} (hnode : v.node id = some node)
      (hflags : node.flags = [.mutable dir.text]) (hdir : v.Belongs name dir) : v.Belongs name id

/-- True of what can be the name of a transaction. -/
def IsTxnName (name : String) : Prop :=
  ∃ n, name = Base36.keyAt n

variable {v w : View} {name other : String} {id dir target : NodeId} {node m : NodeRevision} {edit : Edit}

/-- The name of a transaction is never the text of an id. -/
theorem IsTxnName.ne_text (h : IsTxnName name) (dir : NodeId) : name ≠ dir.text := by
  obtain ⟨n, rfl⟩ := h
  exact (NodeId.text_ne_keyAt dir n).symm

/-- What is open has the name of a transaction. -/
theorem Consistent.isTxnName (h : v.Consistent) (hname : v.txn name ≠ none) : IsTxnName name := by
  obtain ⟨n, -, hused⟩ := h.txnNames
  obtain ⟨k, -, rfl⟩ := hused name hname
  exact ⟨k, rfl⟩

/-! ## Owners -/

namespace Belongs

/-- What belongs to a transaction is mutable. -/
theorem isMutable (h : v.Belongs name id) : v.IsMutable id := by
  cases h with
  | root hnode hflags => exact ⟨_, hnode, NodeRevision.isMutable_of_flags hflags⟩
  | child hnode hflags _ => exact ⟨_, hnode, NodeRevision.isMutable_of_flags hflags⟩

/-- What a transaction owns belongs to it, and to no other. -/
theorem eq_of_root (h : v.Belongs name id) (hother : IsTxnName other) (hnode : v.node id = some node)
    (hflags : node.flags = [.mutable other]) : name = other := by
  cases h with
  | root hnode' hflags' =>
    cases hnode.symm.trans hnode'
    simpa using hflags'.symm.trans hflags
  | @child dir _ _ hnode' hflags' _ =>
    cases hnode.symm.trans hnode'
    have hsame : other = dir.text := by simpa using hflags.symm.trans hflags'
    exact absurd hsame (hother.ne_text dir)

/-- What a directory owns belongs to whom the directory belongs to. -/
theorem of_child (h : v.Belongs name id) (hname : IsTxnName name) (hnode : v.node id = some node)
    (hflags : node.flags = [.mutable dir.text]) : v.Belongs name dir := by
  cases h with
  | root hnode' hflags' =>
    cases hnode.symm.trans hnode'
    have hsame : name = dir.text := by simpa using hflags'.symm.trans hflags
    exact absurd hsame (hname.ne_text dir)
  | @child dir' _ _ hnode' hflags' hdir =>
    cases hnode.symm.trans hnode'
    have hsame : dir'.text = dir.text := by simpa using hflags'.symm.trans hflags
    exact NodeId.text_injective hsame ▸ hdir

/-- **ONE TRANSACTION** is what a node belongs to. -/
theorem unique (h : v.Belongs name id) (hname : IsTxnName name) (hother : IsTxnName other) (h' : v.Belongs other id) :
    name = other := by
  induction h with
  | root hnode hflags => exact (h'.eq_of_root hname hnode hflags).symm
  | child hnode hflags _ ih => exact ih (h'.of_child hother hnode hflags)

end Belongs

/-- **WHAT A TRANSACTION LEADS TO** belongs to it, as far as it is mutable. -/
theorem Consistent.belongs_of_leads (h : v.Consistent) {txn : Transaction} (htxn : v.txn name = some txn)
    (hleads : v.Leads txn.root id) (hmutable : v.IsMutable id) : v.Belongs name id := by
  induction hleads with
  | refl =>
    obtain ⟨node, hnode, hmutable⟩ := hmutable
    exact .root hnode (h.owner_of_txnRoot htxn hnode hmutable)
  | tail _ hlink ih =>
    obtain ⟨node, hnode, hmutable'⟩ := hmutable
    exact .child hnode (h.owner hlink hnode hmutable') (ih (h.mutable_of_child hlink ⟨node, hnode, hmutable'⟩))

/-- A mutable child belongs to whom its directory belongs to. -/
theorem Belongs.of_links (h : v.Belongs name dir) (hv : v.Consistent) (hlink : v.Links dir id) (hmutable : v.IsMutable id) :
    v.Belongs name id := by
  obtain ⟨node, hnode, hmutable⟩ := hmutable
  exact .child hnode (hv.owner hlink hnode hmutable) h

/-! ## Edits -/

/-- What can be edited from a root is led to from there, and is mutable. -/
theorem leads_of_editable {root : NodeId} (h : v.Editable root id) : v.Leads root id ∧ v.IsMutable id := by
  induction h with
  | root h => exact ⟨.refl, h⟩
  | child _ hlink h ih => exact ⟨ih.1.tail hlink, h⟩

/-- The flags of a node stay as they are, unless it is frozen with the tree of a transaction that is committed. -/
theorem Edited.flags_cases (h : v.Edited edit w) (hnode : v.node id = some node) :
    ∃ node', w.node id = some node' ∧ (node'.flags = node.flags ∨
      ∃ name date number txn, edit = .commit name date number ∧ v.txn name = some txn ∧ v.Editable txn.root id ∧
        node'.isMutable = false) := by
  by_cases hcommit : ∃ name date number, edit = .commit name date number
  · obtain ⟨name, date, number, rfl⟩ := hcommit
    cases h with
    | @commit _ _ txn htxn _ _ =>
      by_cases hreach : v.Editable txn.root id
      · refine ⟨node.freeze, ?_, .inr ⟨name, date, _, txn, rfl, htxn, hreach, node.isMutable_freeze⟩⟩
        show (v.freezeAll (v.Editable txn.root)).node id = some node.freeze
        rw [node_freezeAll_of_mem hreach, hnode]
        rfl
      · refine ⟨node, ?_, .inl rfl⟩
        exact (node_freezeAll_of_not_mem hreach).trans hnode
  · obtain ⟨node', hnode', hflags⟩ := h.keepsFlags (fun txn date number heq => hcommit ⟨txn, date, number, heq⟩) id node hnode
    exact ⟨node', hnode', .inl hflags⟩

/-- **NO EDIT GIVES A NODE TO A TRANSACTION** that it did not belong to. -/
theorem Ordered.belongs_of_edited (h : v.Ordered) (hedit : v.Edited edit w) (hid : v.node id ≠ none)
    (hbelongs : w.Belongs name id) : v.Belongs name id := by
  have hflags : ∀ {id node}, v.node id ≠ none → w.node id = some node → node.isMutable = true →
      ∃ old, v.node id = some old ∧ old.flags = node.flags := by
    intro id node hid hnode hmutable
    obtain ⟨old, hold⟩ := Option.ne_none_iff_exists'.1 hid
    obtain ⟨node', hnode', hkept | ⟨_, _, _, _, -, -, -, himmutable⟩⟩ := hedit.flags_cases hold
    · cases hnode.symm.trans hnode'
      exact ⟨old, hold, hkept.symm⟩
    · cases hnode.symm.trans hnode'
      exact nomatch hmutable.symm.trans himmutable
  induction hbelongs with
  | root hnode howner =>
    obtain ⟨old, hold, hkept⟩ := hflags hid hnode (NodeRevision.isMutable_of_flags howner)
    exact .root hold (hkept.trans howner)
  | @child dir _ _ hnode howner _ ih =>
    obtain ⟨old, hold, hkept⟩ := hflags hid hnode (NodeRevision.isMutable_of_flags howner)
    -- the owner was there before, or it would not have been the owner
    have hdir : v.node dir ≠ none := by
      rcases h.owners hold (hkept.trans howner) with ⟨n, htext⟩ | ⟨dir', hdir', htext⟩
      · exact absurd htext (NodeId.text_ne_keyAt dir n)
      · exact NodeId.text_injective htext ▸ hdir'
    exact .child hold (hkept.trans howner) (ih hdir)

/-- **NO EDIT TAKES A NODE AWAY** from a transaction that stays open. -/
theorem Belongs.edited (h : v.Belongs name id) (hv : v.Consistent) (hname : IsTxnName name) (hedit : v.Edited edit w)
    (hopen : ∀ date number, edit ≠ .commit name date number) : w.Belongs name id := by
  induction h with
  | @root id node hnode howner =>
    obtain ⟨node', hnode', hkept | ⟨other, date, number, txn, rfl, htxn, hreach, -⟩⟩ := hedit.flags_cases hnode
    · exact .root hnode' (hkept.trans howner)
    · obtain ⟨hleads, hmutable⟩ := leads_of_editable hreach
      obtain rfl := Belongs.unique (.root hnode howner) hname (hv.isTxnName (htxn ▸ nofun))
        (hv.belongs_of_leads htxn hleads hmutable)
      exact absurd rfl (hopen date number)
  | @child dir id node hnode howner hdir ih =>
    obtain ⟨node', hnode', hkept | ⟨other, date, number, txn, rfl, htxn, hreach, -⟩⟩ := hedit.flags_cases hnode
    · exact .child hnode' (hkept.trans howner) ih
    · obtain ⟨hleads, hmutable⟩ := leads_of_editable hreach
      obtain rfl := Belongs.unique (.child hnode howner hdir) hname (hv.isTxnName (htxn ▸ nofun))
        (hv.belongs_of_leads htxn hleads hmutable)
      exact absurd rfl (hopen date number)

/-! ## New nodes -/

/-- A cloned root belongs to its transaction, which is open. -/
theorem Edited.owner_cloneRoot (hv : v.Consistent) (h : v.Edited (.cloneRoot name id) w) :
    v.txn name ≠ none ∧ ∃ node, w.node id = some node ∧ node.flags = [.mutable name] := by
  cases h with
  | @cloneRoot _ txn base _ htxn hfirst hbase _ _ =>
    obtain ⟨base', hbase', himmutable⟩ := hv.baseRoot_immutable htxn
    cases hbase.symm.trans hbase'
    refine ⟨htxn ▸ nofun, base.toMutable name, setNode_node_self v id _, ?_⟩
    simp [NodeRevision.toMutable, NodeRevision.freeze, hv.flags_of_immutable hbase himmutable]

/-- A cloned child belongs to its directory, which is there. -/
theorem Edited.owner_cloneChild (hv : v.Consistent) (h : v.Edited (.cloneChild dir name id) w) :
    v.node dir ≠ none ∧ ∃ node, w.node id = some node ∧ node.flags = [.mutable dir.text] := by
  cases h with
  | @cloneChild _ _ _ _ _ child _ hdir _ _ _ hchild himmutable hfree _ =>
    have hne : id ≠ dir := (ne_of_free hfree (hdir ▸ nofun)).symm
    refine ⟨hdir ▸ nofun, child.toMutable dir.text, (setNode_node_of_ne hne).trans (setNode_node_self v id _), ?_⟩
    simp [NodeRevision.toMutable, NodeRevision.freeze, hv.flags_of_immutable hchild himmutable]

/-- A child that was made belongs to its directory, which is there. -/
theorem Edited.owner_make {kind : Kind} (h : v.Edited (.make dir name kind id) w) :
    v.node dir ≠ none ∧ ∃ node, w.node id = some node ∧ node.flags = [.mutable dir.text] := by
  cases h with
  | @make _ _ _ _ _ n hdir _ _ _ _ _ hfree =>
    have hne : NodeId.ofNode n ≠ dir := (ne_of_free hfree (hdir ▸ nofun)).symm
    exact ⟨hdir ▸ nofun, .newMutable kind dir.text, (setNode_node_of_ne hne).trans (setNode_node_self _ _ _), rfl⟩

/-! ## Nodes that belong to no other transaction -/

/-- True of a node that is there and belongs to this transaction, if to any. -/
def Confined (v : View) (name : String) (id : NodeId) : Prop :=
  v.node id ≠ none ∧ ∀ other, IsTxnName other → v.Belongs other id → other = name

namespace Confined

/-- What a transaction owns is confined to it. -/
theorem of_root (hname : IsTxnName name) (hnode : v.node id = some node) (hflags : node.flags = [.mutable name]) :
    v.Confined name id :=
  ⟨hnode ▸ nofun, fun _ _ hbelongs => hbelongs.eq_of_root hname hnode hflags⟩

/-- What a directory owns is confined as the directory is. -/
theorem of_child (h : v.Confined name dir) (hnode : v.node id = some node) (hflags : node.flags = [.mutable dir.text]) :
    v.Confined name id :=
  ⟨hnode ▸ nofun, fun other hother hbelongs => h.2 other hother (hbelongs.of_child hother hnode hflags)⟩

/-- No edit takes a node out of its transaction. -/
theorem edited (h : v.Confined name id) (ho : v.Ordered) (hedit : v.Edited edit w) : w.Confined name id :=
  ⟨hedit.node_ne_none h.1, fun other hother hbelongs => h.2 other hother (ho.belongs_of_edited hedit h.1 hbelongs)⟩

/-- Clients do not give nodes away, so what is confined after a step was so before, if it was there. -/
theorem of_clientStep (h : w.Confined name id) (hv : v.Consistent) (hstep : v.ClientStep w) (hid : v.node id ≠ none) :
    v.Confined name id := by
  rcases hstep with rfl | ⟨edit, hclient, hedit⟩
  · exact h
  · refine ⟨hid, fun other hother hbelongs => h.2 other hother (hbelongs.edited hv hother hedit ?_)⟩
    rintro date number rfl
    exact hclient

end Confined

/-! ## Operations through handles -/

/-- What is changed through a handle is mutable. -/
theorem ChangedBy.isMutable {change : Change} (h : v.ChangedBy target w change) : w = v ∨ v.IsMutable target := by
  cases h with
  | nothing heq => exact .inl heq
  | make hedit =>
    cases hedit with
    | make hnode hmutable _ _ _ _ _ => exact .inr ⟨_, hnode, hmutable⟩
  | delete hedit =>
    cases hedit with
    | delete hnode hmutable _ _ _ _ => exact .inr ⟨_, hnode, hmutable⟩
  | setProps _ hedit =>
    cases hedit with
    | setProps hnode hmutable => exact .inr ⟨_, hnode, hmutable⟩
  | setContents hedit =>
    cases hedit with
    | setContents hnode hmutable _ _ _ _ => exact .inr ⟨_, hnode, hmutable⟩

/-- **AN OPERATION IS NOT SEEN** in the tree of a transaction that its node does not belong to. -/
theorem Works.hasTree (h : v.Works target w) (hv : v.Consistent) {txn : Transaction} (htxn : v.txn name = some txn)
    (hnot : ¬ v.Belongs name target) : w.txn name = some txn ∧ ∀ T, w.HasTree txn.root T ↔ v.HasTree txn.root T := by
  have hbeside : v.ChangedAt w target → v.IsMutable target → ∀ T, w.HasTree txn.root T ↔ v.HasTree txn.root T := by
    intro hchanged hmutable T
    refine hv.hasTree_of_not_leads hchanged (hv.txnRoot_exists htxn) fun hleads => ?_
    exact hnot (hv.belongs_of_leads htxn hleads hmutable)
  cases h with
  | nothing heq =>
    subst heq
    exact ⟨htxn, fun _ => .rfl⟩
  | skip hedit =>
    cases hedit
    exact ⟨htxn, fun T => ⟨fun hT => hT.congr rfl rfl, fun hT => hT.congr rfl rfl⟩⟩
  | cloneChild hedit =>
    have hchanged := hedit.changedAt_cloneChild
    cases hedit with
    | cloneChild hdir hmutable _ _ _ _ _ _ => exact ⟨htxn, hbeside hchanged ⟨_, hdir, hmutable⟩⟩
  | change hchange =>
    refine ⟨hchange.txn_eq ▸ htxn, ?_⟩
    rcases hchange.isMutable with rfl | hmutable
    · exact fun _ => .rfl
    · exact hbeside (hchange.changedAt hv) hmutable

end VersionedTree.View

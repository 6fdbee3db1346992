import VersionedTree.Proofs.Tree.NodeEdits

/-!
# Ownership — every edit keeps the invariant

A commit freezes what its transaction reaches. That is the one way in which nodes lose their owner, and no other
transaction reaches any of them.

* **`Consistent.freezeAll`** — nodes are frozen. **`Consistent.commit`** — with all else that a commit does.
* **`Consistent.edited`** — every edit keeps the invariant.
-/

namespace VersionedTree.View

variable {v : View}

/-- Freezing gives no node another owner. -/
theorem KeepsOwners.freezeAll (v : View) (ids : NodeId → Prop) : v.KeepsOwners (v.freezeAll ids) := by
  intro id old hold
  by_cases hid : ids id
  · exact ⟨old.freeze, by rw [node_freezeAll_of_mem hid, hold]; rfl, .inr old.isMutable_freeze⟩
  · exact ⟨old, (node_freezeAll_of_not_mem hid).trans hold, .inl rfl⟩

/-- Files stay backed, as freezing leaves their contents alone. -/
theorem Backed.freezeAll (h : v.Backed) (ids : NodeId → Prop) : (v.freezeAll ids).Backed := by
  intro id node hnode key hbody
  obtain ⟨data, n, hholds⟩ : ∃ data n, v.Holds key data n := by
    rcases node_freezeAll_cases hnode with ⟨-, old, hold, rfl⟩ | ⟨-, hold⟩
    · exact h id old hold key hbody
    · exact h id node hold key hbody
  exact ⟨data, n, hholds.mono fun _ _ hrep => hrep⟩

namespace Consistent

/-- Mutable nodes are frozen together with all mutable nodes that they lead to, and no root of a transaction is among
    them. -/
theorem freezeAll (h : v.Consistent) {ids : NodeId → Prop}
    (hclosed : ∀ dir id, ids dir → v.Links dir id → v.IsMutable id → ids id)
    (htxns : ∀ {name txn}, v.txn name = some txn → txn.root ≠ txn.baseRoot → ¬ ids txn.root) :
    (v.freezeAll ids).Consistent := by
  have hkept := KeepsOwners.freezeAll v ids
  -- a frozen directory holds what it held, and its children are frozen or were immutable
  have hheld : ∀ {dir node}, (v.freezeAll ids).node dir = some node → (v.freezeAll ids).MayHold dir node.children := by
    intro dir node hnode
    rcases node_freezeAll_cases hnode with ⟨-, old, hold, rfl⟩ | ⟨-, hold⟩
    · exact (h.mayHold hold).keep hkept
    · exact (h.mayHold hold).keep hkept
  exact {
    h with
    flags := by
      intro id node hnode
      rcases node_freezeAll_cases hnode with ⟨-, old, hold, rfl⟩ | ⟨-, hold⟩
      · rcases h.flags hold with hflags | ⟨owner, hflags⟩
        · exact .inl (by simp [NodeRevision.freeze, hflags])
        · exact .inl (by simp [NodeRevision.freeze, hflags, Flag.isMutable])
      · exact h.flags hold
    closed := by
      rintro dir _ ⟨node, entry, hnode, hentry, rfl⟩
      exact (hheld hnode).closed entry hentry
    mutable_of_child := by
      intro dir id hlink hmutable
      obtain ⟨hmutable, hid⟩ := isMutable_freezeAll.1 hmutable
      have hlink := links_freezeAll.1 hlink
      exact isMutable_freezeAll.2 ⟨h.mutable_of_child hlink hmutable, fun hdir => hid (hclosed _ _ hdir hlink hmutable)⟩
    owner := by
      rintro dir _ child ⟨node, entry, hnode, hentry, rfl⟩ hchild hmutable
      exact (hheld hnode).owner entry hentry child hchild hmutable
    single := fun hnode => (hheld hnode).single
    txnRoot := by
      intro name txn htxn
      by_cases hroot : txn.root = txn.baseRoot
      · exact .inl hroot
      · obtain ⟨root, hnode, hflags⟩ := (h.txnRoot htxn).resolve_left hroot
        exact .inr ⟨root, (node_freezeAll_of_not_mem (htxns htxn hroot)).trans hnode, hflags⟩
    revisionRoot := by
      intro number revision hrevision
      obtain ⟨root, hroot, himmutable⟩ := h.revisionRoot hrevision
      exact hkept.immutable hroot himmutable
    backed := h.backed.freezeAll ids
    ranked := by
      obtain ⟨rank, hrank⟩ := h.ranked
      exact ⟨rank, fun _ _ hlink => hrank _ _ (links_freezeAll.1 hlink)⟩ }

/-- The root of a transaction becomes the root of a revision, and the transaction is gone. -/
theorem commit (h : v.Consistent) {name : String} (date : String) {txn : Transaction} (htxn : v.txn name = some txn)
    (hyoungest : v.number Counter.youngest = some txn.baseRevision)
    (hleft : txn.baseRevision.toNat + 1 < UInt64.size) :
    ((((v.freeze txn.root).setRevision (txn.baseRevision + 1) ⟨txn.root, Revision.propsAt date⟩).setNumber
      Counter.youngest (txn.baseRevision + 1)).setTxn name none).Consistent := by
  -- the transaction is closed first, because its root does not stay mutable
  have hfrozen : ((v.setTxn name none).freezeAll (v.Editable txn.root)).Consistent := by
    refine (h.closeTxn name).freezeAll (fun dir id hdir hlink hmutable => .child hdir hlink hmutable) ?_
    intro other txn' hother hroot
    have hne : other ≠ name := by
      rintro rfl
      simp at hother
    exact h.not_editable_of_txn htxn (by simpa [hne] using hother) hne hroot
  obtain ⟨root, hroot⟩ := Option.ne_none_iff_exists'.1 (h.txnRoot_exists htxn)
  obtain ⟨root', hroot', himmutable⟩ := node_freeze_self hroot
  have hrevision : ((v.freeze txn.root).node (Revision.mk txn.root (Revision.propsAt date)).root) = some root' := hroot'
  exact hfrozen.addRevision hyoungest hleft hrevision himmutable

/-- **EVERY EDIT** keeps the invariant. -/
theorem edited (h : v.Consistent) {edit : Edit} {w : View} (hedit : v.Edited edit w) : w.Consistent := by
  -- the base root of a transaction is immutable, so its clone may be added; all others edit a mutable node
  cases hedit with
  | skip _ _ => exact h.setNextNode _
  | @strand name txn base id htxn hfirst hbase hfree hid =>
    obtain ⟨base', hbase', himmutable⟩ := h.baseRoot_immutable htxn
    cases hbase.symm.trans hbase'
    exact h.addClone hbase himmutable hfree name
  | @cloneRoot name txn base id htxn hfirst hbase hfree hid =>
    obtain ⟨base', hbase', himmutable⟩ := h.baseRoot_immutable htxn
    cases hbase.symm.trans hbase'
    refine (h.addClone hbase himmutable hfree name).setTxnRoot htxn (setNode_node_self v id _) ?_
    exact h.flags_toMutable hbase himmutable name
  | cloneChild hnode hmutable hdir hentry hchild himmutable hfree _ =>
    exact h.cloneChild hnode hmutable hdir hentry hchild himmutable hfree
  | make hnode hmutable hdir _ _ _ hfree => exact h.make _ _ _ hnode hmutable hdir hfree
  | delete hnode hmutable hdir _ _ _ =>
    refine h.reviseWithin hnode hmutable rfl ?_ ?_
    · rw [NodeRevision.children_of_dir hdir]
      exact List.eraseP_sublist
    · intro key hbody
      cases hbody
  | setProps hnode hmutable =>
    exact h.reviseWithin hnode hmutable rfl (List.Sublist.refl _) fun key hbody => h.backed _ _ hnode key hbody
  | setContents hnode hmutable hfile hkey hnext hheld =>
    obtain ⟨hfree, -⟩ := h.repKey_free hkey hnext
    refine (h.addRep _ hkey hnext).reviseWithin hnode hmutable rfl (List.nil_sublist _) fun key hbody => ?_
    cases hbody
    exact ⟨_, _, hheld hfree⟩
  | begin hrevision hname hnext => exact h.beginTxn hrevision hname hnext
  | close _ => exact h.closeTxn _
  | commit htxn hyoungest hleft => exact h.commit _ htxn hyoungest hleft

end Consistent

end VersionedTree.View

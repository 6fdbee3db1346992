import VersionedTree.Proofs.Tree.Entries
import VersionedTree.Proofs.Tree.RecordEdits

/-!
# NodeEdits — nodes that are put

Nodes are added and revised, and both come to the same: a mutable node is put, under an id that was free or in the place
of a node with the same flags. What has to be known of it is that its directory may hold its entries.

* **`View.KeepsFlags`** — every node stays, and keeps its flags. **`Edited.keepsFlags`** — so it is with all edits but commits.
* **`Consistent.putNode`** — a mutable node is put.
* **`Consistent.addClone`**, **`Consistent.cloneChild`**, **`Consistent.make`** and **`Consistent.reviseWithin`** — the
  edits of nodes.
-/

namespace VersionedTree.View

variable {v w u : View} {id dir : NodeId} {node m : NodeRevision} {entries : List Entry} {name : String}

/-! ## The view with a node -/

/-- The node that was put is there. -/
theorem setNode_node_self (v : View) (id : NodeId) (node : NodeRevision) : (v.setNode id node).node id = some node := by
  simp

/-- All other nodes are as before. -/
theorem setNode_node_of_ne {id' : NodeId} (h : id' ≠ id) : (v.setNode id node).node id' = v.node id' := by
  simp [h]

/-- A node of a view where one was put is that one, or was there before. -/
theorem node_setNode_cases {id' : NodeId} {node' : NodeRevision} (h : (v.setNode id m).node id' = some node') :
    (id' = id ∧ node' = m) ∨ (id' ≠ id ∧ v.node id' = some node') := by
  by_cases hid : id' = id
  · subst hid
    cases (setNode_node_self v id' m).symm.trans h
    exact .inl ⟨rfl, rfl⟩
  · exact .inr ⟨hid, (setNode_node_of_ne hid).symm.trans h⟩

/-- The links from a node that is put are its entries; all others are as before. -/
theorem links_setNode {dir' id' : NodeId} : (v.setNode id node).Links dir' id' ↔
    (dir' = id ∧ ∃ entry ∈ node.children, entry.id = id') ∨ (dir' ≠ id ∧ v.Links dir' id') := by
  constructor
  · rintro ⟨node', entry, hnode', hentry, hid⟩
    rcases node_setNode_cases hnode' with ⟨rfl, rfl⟩ | ⟨hne, hold⟩
    · exact .inl ⟨rfl, entry, hentry, hid⟩
    · exact .inr ⟨hne, node', entry, hold, hentry, hid⟩
  · rintro (⟨rfl, entry, hentry, hid⟩ | ⟨hne, node', entry, hold, hentry, hid⟩)
    · exact ⟨node, entry, setNode_node_self v dir' node, hentry, hid⟩
    · exact ⟨node', entry, (setNode_node_of_ne hne).trans hold, hentry, hid⟩

/-- What was there is still there when a node is put. -/
theorem node_setNode_ne_none {id' : NodeId} (h : v.node id' ≠ none) : (v.setNode id m).node id' ≠ none := by
  by_cases hid : id' = id
  · subst hid
    rw [setNode_node_self]
    exact Option.some_ne_none m
  · rwa [setNode_node_of_ne hid]

/-- Files stay backed if a node is put whose contents are there. -/
theorem Backed.setNode (h : v.Backed) (hm : ∀ key, m.body = .file (some key) → ∃ data n, v.Holds key data n) :
    (v.setNode id m).Backed := by
  intro id' node' hnode' key hbody
  obtain ⟨data, n, hholds⟩ : ∃ data n, v.Holds key data n := by
    rcases node_setNode_cases hnode' with ⟨rfl, rfl⟩ | ⟨-, hold⟩
    · exact hm key hbody
    · exact h id' node' hold key hbody
  exact ⟨data, n, hholds.mono fun _ _ hrep => hrep⟩

/-! ## Flags -/

/-- True if every node stays, and keeps its flags. -/
def KeepsFlags (v w : View) : Prop :=
  ∀ id old, v.node id = some old → ∃ node, w.node id = some node ∧ node.flags = old.flags

namespace KeepsFlags

/-- A node that keeps its flags keeps its owner. -/
theorem keepsOwners (h : v.KeepsFlags w) : v.KeepsOwners w := by
  intro id old hold
  obtain ⟨node, hnode, hflags⟩ := h id old hold
  exact ⟨node, hnode, .inl hflags⟩

/-- What was mutable still is. -/
theorem isMutable (h : v.KeepsFlags w) : v.IsMutable id → w.IsMutable id := by
  rintro ⟨old, hold, hmutable⟩
  obtain ⟨node, hnode, hflags⟩ := h id old hold
  exact ⟨node, hnode, (NodeRevision.isMutable_congr hflags).trans hmutable⟩

/-- Nodes that are not touched keep their flags. -/
theorem of_eq (h : w.node = v.node) : v.KeepsFlags w :=
  fun _ old hold => ⟨old, (congrFun h _).trans hold, rfl⟩

theorem trans (h : v.KeepsFlags w) (h' : w.KeepsFlags u) : v.KeepsFlags u := by
  intro id old hold
  obtain ⟨node, hnode, hflags⟩ := h id old hold
  obtain ⟨node', hnode', hflags'⟩ := h' id node hnode
  exact ⟨node', hnode', hflags'.trans hflags⟩

/-- A new node is put beside the others. -/
theorem add (hfree : v.node id = none) : v.KeepsFlags (v.setNode id m) := by
  intro id' old hold
  exact ⟨old, (setNode_node_of_ne (ne_of_free hfree (hold ▸ nofun))).trans hold, rfl⟩

/-- A node is put in the place of one that has the same flags. -/
theorem revise (hnode : v.node id = some node) (hflags : m.flags = node.flags) : v.KeepsFlags (v.setNode id m) := by
  intro id' old hold
  by_cases hid : id' = id
  · subst hid
    cases hnode.symm.trans hold
    exact ⟨m, setNode_node_self v id' m, hflags⟩
  · exact ⟨old, (setNode_node_of_ne hid).trans hold, rfl⟩

/-- A new node is put, and after it one in the place of another with the same flags. -/
theorem addRevise {m' : NodeRevision} (hfree : v.node id = none) (hnode : v.node dir = some node)
    (hflags : m'.flags = node.flags) : v.KeepsFlags ((v.setNode id m).setNode dir m') :=
  (add hfree).trans (revise ((setNode_node_of_ne (ne_of_free hfree (hnode ▸ nofun))).trans hnode) hflags)

end KeepsFlags

/-- Only a commit changes the flags of nodes that are there. -/
theorem Edited.keepsFlags {edit : Edit} (h : v.Edited edit w) (hcommit : ∀ txn date number, edit ≠ .commit txn date number) :
    v.KeepsFlags w := by
  cases h with
  | skip _ _ => exact .of_eq rfl
  | strand _ _ _ hfree _ => exact .add hfree
  | cloneRoot _ _ _ hfree _ => exact .add hfree
  | cloneChild hnode _ _ _ _ _ hfree _ => exact .addRevise hfree hnode rfl
  | make hnode _ _ _ _ _ hfree => exact .addRevise hfree hnode rfl
  | delete hnode _ _ _ _ _ => exact .revise hnode rfl
  | setProps hnode _ => exact .revise hnode rfl
  | setContents hnode _ _ _ _ _ => exact .revise hnode rfl
  | begin _ _ _ => exact .of_eq rfl
  | close _ => exact .of_eq rfl
  | commit _ _ _ => exact absurd rfl (hcommit _ _ _)

/-! ## Ranks -/

/-- Ranks stay if the node that is put stands above its entries. -/
theorem Ranked.setNode {rank : NodeId → Nat} (h : v.Ranked rank) (hm : ∀ entry ∈ m.children, rank entry.id < rank id) :
    (v.setNode id m).Ranked rank := by
  intro dir' id' hlink
  rcases links_setNode.1 hlink with ⟨rfl, entry, hentry, rfl⟩ | ⟨-, hlink⟩
  · exact hm entry hentry
  · exact h _ _ hlink

namespace Consistent

/-- A clone has the rank of what it is a clone of. -/
theorem ranked_clone (h : v.Consistent) {rank : NodeId → Nat} (hranked : v.Ranked rank) (hfree : v.node id = none)
    {base : NodeId} (hbase : v.node base = some node) (hchildren : m.children = node.children) :
    (v.setNode id m).Ranked (Function.update rank id (rank base)) := by
  intro dir' id' hlink
  rcases links_setNode.1 hlink with ⟨rfl, entry, hentry, rfl⟩ | ⟨hdir, hlink⟩
  · have hold : v.Links base entry.id := ⟨node, entry, hbase, hchildren ▸ hentry, rfl⟩
    rw [Function.update_self, Function.update_of_ne (ne_of_free hfree (h.closed hold))]
    exact hranked _ _ hold
  · rw [Function.update_of_ne hdir, Function.update_of_ne (ne_of_free hfree (h.closed hlink))]
    exact hranked _ _ hlink

/-- A node without children has the lowest rank, below all others. -/
theorem ranked_leaf (id : NodeId) {rank : NodeId → Nat} (hranked : v.Ranked rank) (hchildren : m.children = []) :
    (v.setNode id m).Ranked fun id' => if id' = id then 0 else rank id' + 1 := by
  intro dir' id' hlink
  rcases links_setNode.1 hlink with ⟨-, entry, hentry, -⟩ | ⟨hdir, hlink⟩
  · rw [hchildren] at hentry
    exact nomatch hentry
  · have := hranked _ _ hlink
    show (if id' = id then 0 else rank id' + 1) < if dir' = id then 0 else rank dir' + 1
    rw [if_neg hdir]
    split <;> omega

/-! ## Putting a node -/

/-- **A MUTABLE NODE IS PUT**, new or in the place of one with the same flags. -/
theorem putNode (h : v.Consistent) (hkept : v.KeepsFlags (v.setNode id m)) (howned : ∃ owner, m.flags = [.mutable owner])
    (hentries : v.MayHold id m.children) (hbacked : ∀ key, m.body = .file (some key) → ∃ data n, v.Holds key data n)
    (hranked : ∃ rank, (v.setNode id m).Ranked rank) : (v.setNode id m).Consistent := by
  -- the directory that is put holds what it may, and all others hold what they held
  have hheld : ∀ {dir' node'}, (v.setNode id m).node dir' = some node' →
      (v.setNode id m).MayHold dir' node'.children := by
    intro dir' node' hnode'
    rcases node_setNode_cases hnode' with ⟨rfl, rfl⟩ | ⟨-, hold⟩
    · exact hentries.keep hkept.keepsOwners
    · exact (h.mayHold hold).keep hkept.keepsOwners
  exact {
    h with
    flags := by
      intro id' node' hnode'
      rcases node_setNode_cases hnode' with ⟨-, rfl⟩ | ⟨-, hold⟩
      · exact .inr howned
      · exact h.flags hold
    closed := by
      rintro dir' _ ⟨node', entry, hnode', hentry, rfl⟩
      exact (hheld hnode').closed entry hentry
    mutable_of_child := by
      intro dir' id' hlink hmutable
      rcases links_setNode.1 hlink with ⟨rfl, -⟩ | ⟨-, hlink⟩
      · obtain ⟨owner, hflags⟩ := howned
        exact ⟨m, setNode_node_self v dir' m, NodeRevision.isMutable_of_flags hflags⟩
      · have hold := hkept.keepsOwners.isMutable_before (h.closed hlink) hmutable
        exact hkept.isMutable (h.mutable_of_child hlink hold)
    owner := by
      rintro dir' _ child ⟨node', entry, hnode', hentry, rfl⟩ hchild hmutable
      exact (hheld hnode').owner entry hentry child hchild hmutable
    single := fun hnode' => (hheld hnode').single
    txnRoot := by
      intro name txn htxn
      refine (h.txnRoot htxn).imp_right ?_
      rintro ⟨root, hroot, hflags⟩
      obtain ⟨root', hroot', hsame⟩ := hkept _ root hroot
      exact ⟨root', hroot', hsame.trans hflags⟩
    revisionRoot := by
      intro number revision hrevision
      obtain ⟨root, hroot, himmutable⟩ := h.revisionRoot hrevision
      exact hkept.keepsOwners.immutable hroot himmutable
    backed := h.backed.setNode hbacked
    ranked := hranked }

/-! ## Edits of nodes -/

/-- A clone belongs to the one that it is made for. -/
theorem flags_toMutable (h : v.Consistent) (hnode : v.node id = some node) (himmutable : node.isMutable = false)
    (owner : String) : (node.toMutable owner).flags = [.mutable owner] := by
  simp [NodeRevision.toMutable, NodeRevision.freeze, h.flags_of_immutable hnode himmutable]

/-- A mutable clone of an immutable node, which nothing leads to. -/
theorem addClone (h : v.Consistent) {base : NodeId} (hbase : v.node base = some node)
    (himmutable : node.isMutable = false) (hfree : v.node id = none) (owner : String) :
    (v.setNode id (node.toMutable owner)).Consistent := by
  obtain ⟨rank, hrank⟩ := h.ranked
  refine h.putNode (.add hfree) ⟨owner, h.flags_toMutable hbase himmutable owner⟩ (.of_immutable ?_) ?_
    ⟨_, h.ranked_clone hrank hfree hbase rfl⟩
  · intro entry hentry
    exact h.immutable_child hbase himmutable ⟨node, entry, hbase, hentry, rfl⟩
  · intro key hbody
    exact h.backed base node hbase key hbody

/-- A mutable node keeps its flags and some of its entries. -/
theorem reviseWithin (h : v.Consistent) (hnode : v.node dir = some node) (hmutable : node.isMutable = true)
    (hflags : m.flags = node.flags) (hchildren : m.children.Sublist node.children)
    (hbacked : ∀ key, m.body = .file (some key) → ∃ data n, v.Holds key data n) : (v.setNode dir m).Consistent := by
  obtain ⟨rank, hrank⟩ := h.ranked
  have howned : ∃ owner, m.flags = [.mutable owner] := hflags ▸ h.flags_of_mutable hnode hmutable
  refine h.putNode (.revise hnode hflags) howned ((h.mayHold hnode).sublist hchildren) hbacked ⟨rank, hrank.setNode ?_⟩
  intro entry hentry
  exact hrank _ _ ⟨node, entry, hnode, hchildren.subset hentry, rfl⟩

/-- A mutable directory gets an entry for a clone of a child. The clone is added first, and then the entry redirected. -/
theorem cloneChild (h : v.Consistent) {entry : Entry} {child : NodeRevision} (hnode : v.node dir = some node)
    (hmutable : node.isMutable = true) (hdir : node.body = .dir entries)
    (hentry : entries.find? (fun entry => entry.name = name) = some entry) (hchild : v.node entry.id = some child)
    (himmutable : child.isMutable = false) (hfree : v.node id = none) :
    ((v.setNode id (child.toMutable dir.text)).setNode dir
      { node with body := .dir (Node.redirect name id entries) }).Consistent := by
  obtain rfl := NodeRevision.children_of_dir hdir
  have hclone := h.addClone hchild himmutable hfree dir.text
  have hnode' : (v.setNode id (child.toMutable dir.text)).node dir = some node :=
    hnode ▸ setNode_node_of_ne (ne_of_free hfree (hnode ▸ nofun))
  have howned : ∃ owner, node.flags = [.mutable owner] := h.flags_of_mutable hnode hmutable
  refine hclone.putNode (.revise hnode' rfl) howned ?_ nofun ?_
  · exact (hclone.mayHold hnode').redirect name (setNode_node_self v id _) (h.flags_toMutable hchild himmutable dir.text)
      (h.entry_ne_of_free hfree hnode)
  · -- the clone has the rank of the child, so it is below the directory, too
    obtain ⟨rank, hrank⟩ := h.ranked
    have hrank' := h.ranked_clone hrank hfree hchild (m := child.toMutable dir.text) rfl
    refine ⟨_, hrank'.setNode ?_⟩
    intro other hother
    rcases Node.mem_redirect hother with hother | rfl
    · exact hrank' _ _ ⟨node, other, hnode', hother, rfl⟩
    · have hbelow := hrank' _ _ ⟨node, entry, hnode', List.mem_of_find?_eq_some hentry, rfl⟩
      rw [Function.update_of_ne (ne_of_free hfree (hchild ▸ nofun))] at hbelow
      rwa [Function.update_self]

/-- A mutable directory gets an entry for a new node, which is added first. -/
theorem make (h : v.Consistent) (name : String) (kind : Kind) (n : UInt64) (hnode : v.node dir = some node)
    (hmutable : node.isMutable = true) (hdir : node.body = .dir entries) (hfree : v.node id = none) :
    (((v.setNumber Counter.nextNode n).setNode id (.newMutable kind dir.text)).setNode dir
      { node with body := .dir (entries ++ [⟨name, id⟩]) }).Consistent := by
  obtain rfl := NodeRevision.children_of_dir hdir
  have hleaf : (NodeRevision.newMutable kind dir.text).children = [] := by cases kind <;> rfl
  have hcounted := h.setNextNode n
  obtain ⟨rank, hrank⟩ := hcounted.ranked
  have hrank' := ranked_leaf id hrank hleaf
  -- the new node stands alone first, and then the directory takes it in
  have hmade : ((v.setNumber Counter.nextNode n).setNode id (.newMutable kind dir.text)).Consistent := by
    refine hcounted.putNode (.add hfree) ⟨dir.text, rfl⟩ (hleaf ▸ .nil _ id) ?_ ⟨_, hrank'⟩
    intro key hbody
    cases kind <;> exact nomatch hbody
  have hdirne : dir ≠ id := ne_of_free hfree (hnode ▸ nofun)
  have hnode' : ((v.setNumber Counter.nextNode n).setNode id (.newMutable kind dir.text)).node dir = some node :=
    hnode ▸ setNode_node_of_ne hdirne
  have howned : ∃ owner, node.flags = [.mutable owner] := h.flags_of_mutable hnode hmutable
  refine hmade.putNode (.revise hnode' rfl) howned ?_ nofun ⟨_, hrank'.setNode ?_⟩
  · exact (hmade.mayHold hnode').append name (setNode_node_self _ id _) rfl (h.entry_ne_of_free hfree hnode)
  · intro other hother
    rcases List.mem_append.1 hother with hother | hother
    · exact hrank' _ _ ⟨node, other, hnode', hother, rfl⟩
    · cases List.mem_singleton.1 hother
      show (if id = id then 0 else rank id + 1) < if dir = id then 0 else rank dir + 1
      rw [if_pos rfl, if_neg hdirne]
      exact Nat.succ_pos _

end Consistent

end VersionedTree.View

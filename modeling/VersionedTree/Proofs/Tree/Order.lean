import Mathlib.Data.List.Nodup
import VersionedTree.Proofs.Tree.Ownership

/-!
# Order — names, numbers and owners

Consistent records are in order, too: what is found by a name is found in one place, trees are entered at directories,
and nothing new can be taken for something that is there already.

* **`View.Ordered`** — the invariant.
* **`Ordered.setNode`** — the one way in which nodes change. The other changes have lemmas of their own.
* **`Ordered.edited`** — every edit keeps the order.
-/

namespace VersionedTree

namespace NodeId

/-- The next id is of the same node. -/
theorem node_next (id : NodeId) : id.next.node = id.node := by
  cases id <;> rfl

/-- A successor is of the same node. -/
theorem IsSuccessor.node_eq {base id : NodeId} (h : base.IsSuccessor id) : id.node = base.node := by
  rcases h with rfl | ⟨branch, rfl⟩
  · exact base.node_next
  · rfl

end NodeId

namespace Node

/-- Entries keep their names when one of them is redirected. -/
theorem map_name_redirect (name : String) (id : NodeId) (entries : List Entry) :
    (redirect name id entries).map Entry.name = entries.map Entry.name := by
  induction entries with
  | nil => rfl
  | cons entry rest ih =>
    rw [redirect]
    split
    case isTrue => rfl
    case isFalse => rw [List.map_cons, List.map_cons, ih]

end Node

namespace View

/-- The number of the next node. -/
def nextNode (v : View) : UInt64 :=
  (v.number Counter.nextNode).getD 1

/-- True of what can own a mutable node: a transaction, open or not, or a directory that is there. -/
def IsOwner (v : View) (owner : String) : Prop :=
  (∃ n, owner = Base36.keyAt n) ∨ ∃ dir, v.node dir ≠ none ∧ owner = dir.text

/-- True of an id at which there is a directory. -/
def IsDir (v : View) (id : NodeId) : Prop :=
  ∃ node, v.node id = some node ∧ node.kind = .dir

/-- What holds of names, numbers and owners at all times. -/
structure Ordered (v : View) : Prop where
  /-- No two entries of a directory have the same name. -/
  names : ∀ {dir node}, v.node dir = some node → (node.children.map Entry.name).Nodup
  revisionDir : ∀ {number revision}, v.revision number = some revision → v.IsDir revision.root
  txnDir : ∀ {name txn}, v.txn name = some txn → v.IsDir txn.root
  /-- No node has the number of the next node, or one above. -/
  numbers : ∀ {id}, v.node id ≠ none → id.node < v.nextNode
  /-- The counter of nodes holds a number, or was never written. -/
  counter : v.number Counter.nextNode = none → v.global Counter.nextNode = none
  owners : ∀ {id node owner}, v.node id = some node → node.flags = [.mutable owner] → v.IsOwner owner

variable {v w : View} {id dir : NodeId} {node m : NodeRevision}

/-- The number of the next node is the one that was set. -/
theorem nextNode_setNumber (v : View) (n : UInt64) : (v.setNumber Counter.nextNode n).nextNode = n := by
  rw [nextNode, number_setNumber]
  rfl

namespace Ordered

/-- The first revision of the next node is free. -/
theorem nextNode_free (h : v.Ordered) : v.node (.ofNode v.nextNode) = none := by
  refine Classical.byContradiction fun hsome => ?_
  exact absurd (h.numbers hsome) (UInt64.lt_irrefl _)

/-! ## Single changes -/

/-- A node is put that is of the same kind as the one that was there, if any. -/
theorem setNode (h : v.Ordered) (hnames : (m.children.map Entry.name).Nodup)
    (hkind : ∀ old, v.node id = some old → m.kind = old.kind) (hnumber : id.node < v.nextNode)
    (howner : ∀ owner, m.flags = [.mutable owner] → v.IsOwner owner) : (v.setNode id m).Ordered := by
  -- a directory stays one, since no edit changes the kind of a node
  have hdir : ∀ {root}, v.IsDir root → (v.setNode id m).IsDir root := by
    rintro root ⟨node, hnode, hisDir⟩
    by_cases hid : root = id
    · subst hid
      exact ⟨m, setNode_node_self v root m, (hkind node hnode).trans hisDir⟩
    · exact ⟨node, (setNode_node_of_ne hid).trans hnode, hisDir⟩
  have hisOwner : ∀ {owner}, v.IsOwner owner → (v.setNode id m).IsOwner owner := by
    rintro owner (hkey | ⟨dir, hdir, rfl⟩)
    · exact .inl hkey
    · exact .inr ⟨dir, node_setNode_ne_none hdir, rfl⟩
  constructor
  case names =>
    intro dir node hnode
    rcases node_setNode_cases hnode with ⟨-, rfl⟩ | ⟨-, hold⟩
    · exact hnames
    · exact h.names hold
  case revisionDir => exact fun hrevision => hdir (h.revisionDir hrevision)
  case txnDir => exact fun htxn => hdir (h.txnDir htxn)
  case numbers =>
    intro id' hid'
    by_cases hid : id' = id
    · exact hid ▸ hnumber
    · rw [setNode_node_of_ne hid] at hid'
      exact h.numbers hid'
  case counter => exact h.counter
  case owners =>
    intro id' node' owner hnode' hflags
    rcases node_setNode_cases hnode' with ⟨-, rfl⟩ | ⟨-, hold⟩
    · exact hisOwner (howner owner hflags)
    · exact hisOwner (h.owners hold hflags)

/-- A mutable node is put again, with the same flags. -/
theorem revise (h : v.Ordered) (hnode : v.node id = some node) (hflags : m.flags = node.flags)
    (hkind : m.kind = node.kind) (hnames : (m.children.map Entry.name).Nodup) : (v.setNode id m).Ordered := by
  refine h.setNode hnames ?_ (h.numbers (hnode ▸ nofun)) fun owner howner => h.owners hnode (hflags ▸ howner)
  intro old hold
  cases hnode.symm.trans hold
  exact hkind

/-- A successor of a node is made mutable for an owner. -/
theorem addClone (h : v.Ordered) {base : NodeId} (hbase : v.node base = some node) (hfree : v.node id = none)
    (hid : base.IsSuccessor id) {owner : String} (howner : v.IsOwner owner) :
    (v.setNode id (node.toMutable owner)).Ordered := by
  have hnames : ((node.toMutable owner).children.map Entry.name).Nodup := @Ordered.names v h _ node hbase
  refine h.setNode hnames (fun old hold => nomatch hfree.symm.trans hold) ?_ ?_
  · rw [hid.node_eq]
    exact h.numbers (hbase ▸ nofun)
  · intro owner' hflags
    have hlast : Flag.mutable owner ∈ [Flag.mutable owner'] := by
      rw [← hflags]
      exact List.mem_append_right _ List.mem_cons_self
    cases List.mem_singleton.1 hlast
    exact howner

/-- Other counters may be anything. -/
theorem setGlobal (h : v.Ordered) {name : String} (hname : Counter.nextNode ≠ name) (value : Bytes) :
    (v.setGlobal name value).Ordered := by
  have hglobal : (v.setGlobal name value).global Counter.nextNode = v.global Counter.nextNode := by simp [hname]
  have hnumber : (v.setGlobal name value).number Counter.nextNode = v.number Counter.nextNode := by
    rw [number, hglobal, number]
  exact {
    names := h.names
    revisionDir := h.revisionDir
    txnDir := h.txnDir
    numbers := by
      intro id hid
      rw [nextNode, hnumber]
      exact h.numbers hid
    counter := by
      rw [hnumber, hglobal]
      exact h.counter
    owners := h.owners }

/-- Representations may be anything. -/
theorem setRep (h : v.Ordered) (key : String) (rep : Representation) : (v.setRep key rep).Ordered :=
  ⟨h.names, h.revisionDir, h.txnDir, h.numbers, h.counter, h.owners⟩

/-- The number of the next node is counted up. -/
theorem skip (h : v.Ordered) (hleft : v.nextNode.toNat + 1 < UInt64.size) :
    (v.setNumber Counter.nextNode (v.nextNode + 1)).Ordered where
  names := h.names
  revisionDir := h.revisionDir
  txnDir := h.txnDir
  numbers := by
    intro id hid
    have hlt := UInt64.lt_iff_toNat_lt.1 (h.numbers hid)
    rw [nextNode_setNumber, UInt64.lt_iff_toNat_lt, Counter.toNat_succ hleft]
    exact Nat.lt_succ_of_lt hlt
  counter hnone := nomatch (number_setNumber _ _ _).symm.trans hnone
  owners := h.owners

/-- Transactions may have any directory as their root. -/
theorem setTxn (h : v.Ordered) {name : String} {txn : Option Transaction}
    (htxn : ∀ txn', txn = some txn' → v.IsDir txn'.root) : (v.setTxn name txn).Ordered :=
  { h with
    txnDir := by
      intro other txn' hother
      by_cases heq : other = name
      · subst heq
        exact htxn txn' (by simpa using hother)
      · exact h.txnDir (by simpa [heq] using hother) }

/-- Revisions may have any directory as their root. -/
theorem setRevision (h : v.Ordered) {number : UInt64} {revision : Revision} (hroot : v.IsDir revision.root) :
    (v.setRevision number revision).Ordered :=
  { h with
    revisionDir := by
      intro number' revision' hrevision'
      by_cases heq : number' = number
      · have : revision' = revision := by simpa [heq] using hrevision'.symm
        exact this ▸ hroot
      · exact h.revisionDir (by simpa [heq] using hrevision') }

/-- A directory is still one when it is frozen. -/
theorem isDir_freezeAll {ids : NodeId → Prop} {root : NodeId} (h : v.IsDir root) : (v.freezeAll ids).IsDir root := by
  obtain ⟨node, hnode, hisDir⟩ := h
  by_cases hid : ids root
  · exact ⟨node.freeze, by rw [node_freezeAll_of_mem hid, hnode]; rfl, hisDir⟩
  · exact ⟨node, (node_freezeAll_of_not_mem hid).trans hnode, hisDir⟩

/-- Freezing keeps the order. -/
theorem freezeAll (h : v.Ordered) (ids : NodeId → Prop) : (v.freezeAll ids).Ordered := by
  have hexists : ∀ {id}, (v.freezeAll ids).node id ≠ none ↔ v.node id ≠ none := by
    intro id
    by_cases hid : ids id
    · rw [node_freezeAll_of_mem hid, Ne, Option.map_eq_none_iff]
    · rw [node_freezeAll_of_not_mem hid]
  constructor
  case names =>
    intro dir node hnode
    rcases node_freezeAll_cases hnode with ⟨-, old, hold, rfl⟩ | ⟨-, hold⟩
    · exact @Ordered.names v h dir old hold
    · exact h.names hold
  case revisionDir => exact fun hrevision => isDir_freezeAll (h.revisionDir hrevision)
  case txnDir => exact fun htxn => isDir_freezeAll (h.txnDir htxn)
  case numbers => exact fun hid => h.numbers (hexists.1 hid)
  case counter => exact h.counter
  case owners =>
    intro id node owner hnode hflags
    have howner : v.IsOwner owner := by
      rcases node_freezeAll_cases hnode with ⟨-, old, -, rfl⟩ | ⟨-, hold⟩
      · exact nomatch (NodeRevision.isMutable_of_flags hflags).symm.trans old.isMutable_freeze
      · exact h.owners hold hflags
    exact howner.imp_right fun ⟨dir, hdir, heq⟩ => ⟨dir, hexists.2 hdir, heq⟩

/-! ## Every edit -/

/-- The name of an open transaction owns what is made for it. -/
theorem isOwner_txn (hv : v.Consistent) {name : String} (hname : v.txn name ≠ none) : v.IsOwner name := by
  obtain ⟨n, -, hused⟩ := hv.txnNames
  obtain ⟨k, -, heq⟩ := hused name hname
  exact .inl ⟨k, heq⟩

/-- The clone of a directory becomes the root of a transaction. -/
theorem cloneRoot (h : v.Ordered) {name : String} {txn : Transaction} (htxn : v.txn name = some txn)
    (hfirst : txn.root = txn.baseRoot) (hbase : v.node txn.baseRoot = some node) (hfree : v.node id = none)
    (hid : txn.baseRoot.IsSuccessor id) (howner : v.IsOwner name) :
    ((v.setNode id (node.toMutable name)).setTxn name (some { txn with root := id })).Ordered := by
  refine (h.addClone hbase hfree hid howner).setTxn fun txn' htxn' => ?_
  cases htxn'
  obtain ⟨base, hbase', hisDir⟩ := h.txnDir htxn
  cases hbase.symm.trans (hfirst ▸ hbase')
  exact ⟨node.toMutable name, setNode_node_self v id _, hisDir⟩

/-- A directory gets an entry for a clone of a child, under the name that the entry had. -/
theorem cloneChild (h : v.Ordered) {entries : List Entry} {name : String} {base : NodeId} {child : NodeRevision}
    (hnode : v.node dir = some node) (hdir : node.body = .dir entries) (hchild : v.node base = some child)
    (hfree : v.node id = none) (hid : base.IsSuccessor id) :
    ((v.setNode id (child.toMutable dir.text)).setNode dir
      { node with body := .dir (Node.redirect name id entries) }).Ordered := by
  have hdirne : dir ≠ id := ne_of_free hfree (hnode ▸ Option.some_ne_none node)
  have hclone := h.addClone hchild hfree hid (.inr ⟨dir, hnode ▸ Option.some_ne_none node, rfl⟩)
  refine hclone.revise ((setNode_node_of_ne hdirne).trans hnode) rfl ?_ ?_
  · simp [NodeRevision.kind, hdir, Body.kind]
  · show ((Node.redirect name id entries).map Entry.name).Nodup
    rw [Node.map_name_redirect, ← NodeRevision.children_of_dir hdir]
    exact h.names hnode

/-- A new node gets the next number, which is counted up. -/
theorem addNew (h : v.Ordered) (kind : Kind) (hdir : v.node dir ≠ none) (hleft : v.nextNode.toNat + 1 < UInt64.size) :
    ((v.setNumber Counter.nextNode (v.nextNode + 1)).setNode (.ofNode v.nextNode)
      (.newMutable kind dir.text)).Ordered := by
  refine (h.skip hleft).setNode ?_ (fun old hold => nomatch h.nextNode_free.symm.trans hold) ?_ ?_
  · cases kind <;> exact List.nodup_nil
  · rw [nextNode_setNumber, UInt64.lt_iff_toNat_lt, Counter.toNat_succ hleft]
    exact Nat.lt_succ_self _
  · intro owner hflags
    cases hflags
    exact .inr ⟨dir, hdir, rfl⟩

/-- A directory gets an entry for a new node, under a name that no other entry has. -/
theorem make (h : v.Ordered) {entries : List Entry} {name : String} (kind : Kind) (hnode : v.node dir = some node)
    (hdir : node.body = .dir entries) (hnew : ∀ entry ∈ entries, entry.name ≠ name)
    (hleft : v.nextNode.toNat + 1 < UInt64.size) :
    (((v.setNumber Counter.nextNode (v.nextNode + 1)).setNode (.ofNode v.nextNode) (.newMutable kind dir.text)).setNode
      dir { node with body := .dir (entries ++ [⟨name, .ofNode v.nextNode⟩]) }).Ordered := by
  have hexists : v.node dir ≠ none := hnode ▸ Option.some_ne_none node
  have hdirne : dir ≠ .ofNode v.nextNode := ne_of_free h.nextNode_free hexists
  refine (h.addNew kind hexists hleft).revise ((setNode_node_of_ne hdirne).trans hnode) rfl ?_ ?_
  · simp [NodeRevision.kind, hdir, Body.kind]
  · show ((entries ++ [(⟨name, .ofNode v.nextNode⟩ : Entry)]).map Entry.name).Nodup
    rw [List.map_append, List.nodup_append]
    refine ⟨NodeRevision.children_of_dir hdir ▸ h.names hnode, List.nodup_singleton _, ?_⟩
    intro name' hold other hother heq
    obtain ⟨entry, hentry, rfl⟩ := List.mem_map.1 hold
    exact hnew entry hentry (heq.trans (List.mem_singleton.1 hother))

/-- **EVERY EDIT** keeps the order. -/
theorem edited (h : v.Ordered) (hv : v.Consistent) {edit : Edit} (hedit : v.Edited edit w) : w.Ordered := by
  cases hedit with
  | skip hnumber hleft =>
    subst hnumber
    exact h.skip hleft
  | strand htxn hfirst hbase hfree hid => exact h.addClone hbase hfree hid (isOwner_txn hv (htxn ▸ Option.some_ne_none _))
  | cloneRoot htxn hfirst hbase hfree hid =>
    exact h.cloneRoot htxn hfirst hbase hfree hid (isOwner_txn hv (htxn ▸ Option.some_ne_none _))
  | cloneChild hnode hmutable hdir hentry hchild himmutable hfree hid => exact h.cloneChild hnode hdir hchild hfree hid
  | @make dir node entries name kind n hnode hmutable hdir hnew hnumber hleft hfree =>
    obtain rfl : n = v.nextNode := hnumber
    exact h.make kind hnode hdir hnew hleft
  | @delete dir node entries name entry child hnode hmutable hdir hentry hchild hempty =>
    refine h.revise hnode rfl ?_ ?_
    · simp [NodeRevision.kind, hdir, Body.kind]
    · have hold := NodeRevision.children_of_dir hdir ▸ h.names hnode
      exact hold.sublist (List.eraseP_sublist.map Entry.name)
  | @setProps id node props hnode hmutable => exact h.revise hnode rfl rfl (@Ordered.names v h id node hnode)
  | @setContents id node previous data key next rep n hnode hmutable hfile hkey hnext hheld =>
    have hrep : ((v.setGlobal Counter.nextRepresentation (Text.toBytes next)).setRep key rep).Ordered :=
      (@Ordered.setGlobal v h Counter.nextRepresentation (by decide) (Text.toBytes next)).setRep key rep
    refine hrep.revise hnode rfl ?_ List.nodup_nil
    simp [NodeRevision.kind, hfile, Body.kind]
  | begin hrevision hname hnext =>
    refine (h.setGlobal (by decide) _).setTxn fun txn htxn => ?_
    cases htxn
    exact h.revisionDir hrevision
  | close htxn => exact h.setTxn fun txn hnone => by cases hnone
  | commit htxn hyoungest hleft =>
    refine (((h.freezeAll _).setRevision ?_).setGlobal (by decide) _).setTxn fun txn hnone => by cases hnone
    exact isDir_freezeAll (h.txnDir htxn)

end Ordered

end View

/-! ## New nodes -/

namespace TrailM

variable {σ : Type} [RecordStore σ] [LawfulStore σ] {v : View}

/-- Where records are in order a new node can be made, unless the store fails or there is no number left. -/
theorem Ends.createFree (h : v.Ordered) {node : NodeRevision} (hnode : node.Storable) :
    (NodeRecord.create node : TrailM σ NodeId).Ends v
      (fun id w => id = .ofNode v.nextNode ∧ v.nextNode.toNat + 1 < UInt64.size ∧
        w = (v.setNumber Counter.nextNode (v.nextNode + 1)).setNode id node)
      (fun e w => (w = v ∨ v.Edited .skip w) ∧ (e.IsFault σ ∨ e = .corrupt (.noNumberLeft Counter.nextNode))) := by
  refine Ends.mono (Ends.create hnode) ?_ ?_
  · rintro id w ⟨n, rfl, hleft, rfl, -, rfl⟩
    exact ⟨rfl, hleft, rfl⟩
  · rintro e w (⟨rfl, hfault | hlimit | ⟨hnone, hsome⟩⟩ | ⟨n, rfl, hleft, rfl, hfault | htaken⟩)
    · exact ⟨.inl rfl, .inl hfault⟩
    · exact ⟨.inl rfl, .inr hlimit⟩
    · exact absurd (h.counter hnone) hsome
    · exact ⟨.inr (.skip rfl hleft), .inl hfault⟩
    · exact absurd h.nextNode_free htaken

end TrailM

end VersionedTree

import VersionedTree.Proofs.Tree.Belonging

/-!
# Clones — where a clone stands, and what can take it away

A node is cloned at a site in the tree of a transaction: at the root, or at an entry of a directory. The clone stands there
from then on, and it stays mutable. Another name in the same directory, another transaction and the contents of the clone
itself have nothing to do with that. Only removing the entry, or ending the transaction, does.

* **`Site`** — where a node can be cloned. **`View.StandsAt`** — what is there now.
* **`Edit.Undoes`** — the edits that can take a clone away.
* **`Names.edited`** — no other edit makes an entry stand for anything else than the clone.
* **`Cloned.edited`** — no other edit takes the clone away.
* **`Ends.cloneRoot_cloned`** and **`Ends.cloneChild_cloned`** — what a client is given is a clone.
-/

namespace VersionedTree

/-- A place in the tree of a transaction where a node can be cloned. -/
inductive Site where
  | root
  | entry (dir : NodeId) (name : String)
deriving DecidableEq, Repr

/-- True of the edits that end a transaction, or remove the entry of a site. -/
def Edit.Undoes (txn : String) (site : Site) : Edit → Prop
  | .delete dir name => site = .entry dir name
  | .close name | .commit name _ _ => name = txn
  | _ => False

/-! ## Entries by name -/

/-- Only a directory has entries. -/
theorem NodeRevision.body_of_find? {node : NodeRevision} {p : Entry → Bool} {entry : Entry}
    (h : node.children.find? p = some entry) : ∃ entries, node.body = .dir entries ∧ entries.find? p = some entry := by
  cases hbody : node.body with
  | dir entries => exact ⟨entries, rfl, children_of_dir hbody ▸ h⟩
  | file contents =>
    rw [children, entries?, hbody] at h
    cases h

/-- If an entry is removed, those of other names are still found. -/
theorem Node.find?_eraseP_of_ne {name other : String} {entries : List Entry} (h : other ≠ name) :
    (entries.eraseP fun entry => entry.name = name).find? (fun entry => entry.name = other) =
      entries.find? fun entry => entry.name = other := by
  induction entries with
  | nil => rfl
  | cons head rest ih =>
    by_cases heq : head.name = name
    · simp [heq, h.symm]
    · rw [List.eraseP_cons_of_neg (by simpa using heq), List.find?_cons, List.find?_cons, ih]

namespace View

/-- True if the entry of this name in a directory stands for `id`. -/
def Names (v : View) (dir : NodeId) (name : String) (id : NodeId) : Prop :=
  ∃ node entry, v.node dir = some node ∧ node.children.find? (fun entry => entry.name = name) = some entry ∧ entry.id = id

/-- True of the node that is at a site in the tree of a transaction. -/
def StandsAt (v : View) (txn : String) : Site → NodeId → Prop
  | .root, id => ∃ record, v.txn txn = some record ∧ record.root = id
  | .entry dir name, id => v.Names dir name id

/-- True of a clone that was made for the transaction and is at the site. -/
structure Cloned (v : View) (txn : String) (site : Site) (id : NodeId) : Prop where
  stands : v.StandsAt txn site id
  belongs : v.Belongs txn id

variable {v w : View} {dir id target : NodeId} {name txn : String} {m : NodeRevision} {site : Site} {edit : Edit}

namespace Names

/-- A directory leads to what it names. -/
theorem links (h : v.Names dir name id) : v.Links dir id := by
  obtain ⟨node, entry, hnode, hentry, hid⟩ := h
  exact ⟨node, entry, hnode, List.mem_of_find?_eq_some hentry, hid⟩

/-- The entry that is found under a name is named. -/
theorem of_find? {node : NodeRevision} {entries : List Entry} {entry : Entry} (hnode : v.node dir = some node)
    (hdir : node.body = .dir entries) (hentry : entries.find? (fun entry => entry.name = name) = some entry) :
    v.Names dir name entry.id :=
  ⟨node, entry, hnode, NodeRevision.children_of_dir hdir ▸ hentry, rfl⟩

/-- A new node is not the directory. -/
theorem setNode_of_free (h : v.Names dir name id) (hfree : v.node target = none) :
    (v.setNode target m).Names dir name id := by
  obtain ⟨node, entry, hnode, hentry, hid⟩ := h
  have hne : dir ≠ target := ne_of_free hfree (hnode ▸ Option.some_ne_none node)
  exact ⟨node, entry, (setNode_node_of_ne hne).trans hnode, hentry, hid⟩

/-- If a node is put again, it keeps the entry if it is the directory. -/
theorem setNode (h : v.Names dir name id) {old : NodeRevision} (hold : v.node target = some old)
    (hkept : target = dir → ∀ entry, old.children.find? (fun entry => entry.name = name) = some entry → entry.id = id →
      m.children.find? (fun entry => entry.name = name) = some entry) : (v.setNode target m).Names dir name id := by
  obtain ⟨node, entry, hnode, hentry, hid⟩ := h
  by_cases hdir : target = dir
  · subst hdir
    cases hold.symm.trans hnode
    exact ⟨m, entry, setNode_node_self v target m, hkept rfl entry hentry hid, hid⟩
  · exact ⟨node, entry, (setNode_node_of_ne (Ne.symm hdir)).trans hnode, hentry, hid⟩

/-- The same after a new node was put. -/
theorem setNode_both (h : v.Names dir name id) {new : NodeId} {node old : NodeRevision} (hfree : v.node new = none)
    (hold : v.node target = some old)
    (hkept : target = dir → ∀ entry, old.children.find? (fun entry => entry.name = name) = some entry → entry.id = id →
      m.children.find? (fun entry => entry.name = name) = some entry) :
    ((v.setNode new node).setNode target m).Names dir name id :=
  (h.setNode_of_free hfree).setNode
    ((setNode_node_of_ne (ne_of_free hfree (hold ▸ Option.some_ne_none old))).trans hold) hkept

/-- Freezing leaves names alone. -/
theorem freezeAll {ids : NodeId → Prop} (h : v.Names dir name id) : (v.freezeAll ids).Names dir name id := by
  obtain ⟨node, entry, hnode, hentry, hid⟩ := h
  by_cases hdir : ids dir
  · refine ⟨node.freeze, entry, ?_, hentry, hid⟩
    rw [node_freezeAll_of_mem hdir, hnode]
    rfl
  · exact ⟨node, entry, (node_freezeAll_of_not_mem hdir).trans hnode, hentry, hid⟩

/-- **AN ENTRY STAYS** with the mutable node that it stands for, unless it is removed. -/
theorem edited (h : v.Names dir name id) (hmutable : v.IsMutable id) (hedit : v.Edited edit w)
    (hremoved : edit ≠ .delete dir name) : w.Names dir name id := by
  cases hedit with
  | skip _ _ => exact h
  | begin _ _ _ => exact h
  | close _ => exact h
  | strand _ _ _ hfree _ => exact h.setNode_of_free hfree
  | cloneRoot _ _ _ hfree _ => exact h.setNode_of_free hfree
  | @cloneChild dir' node entries other entry child id' hnode _ hdir hentry hchild himmutable hfree _ =>
    refine h.setNode_both hfree hnode ?_
    rintro rfl found hfound rfl
    rw [NodeRevision.children_of_dir hdir] at hfound
    -- the entry that is cloned stood for an immutable node
    have hother : name ≠ other := by
      rintro rfl
      cases hentry.symm.trans hfound
      exact not_isMutable hchild himmutable hmutable
    rw [NodeRevision.children_of_dir rfl, Node.find?_redirect_of_ne hother]
    exact hfound
  | @make dir' node entries other kind n hnode _ hdir _ _ _ hfree =>
    have hnumbered : (v.setNumber Counter.nextNode (n + 1)).Names dir name id := h
    refine hnumbered.setNode_both hfree hnode ?_
    rintro rfl found hfound -
    rw [NodeRevision.children_of_dir hdir] at hfound
    rw [NodeRevision.children_of_dir rfl, List.find?_append, hfound]
    rfl
  | @delete dir' node entries other entry child hnode _ hdir _ _ _ =>
    refine h.setNode hnode ?_
    rintro rfl found hfound -
    rw [NodeRevision.children_of_dir hdir] at hfound
    have hother : name ≠ other := fun hsame => hremoved (hsame ▸ rfl)
    rw [NodeRevision.children_of_dir rfl, Node.find?_eraseP_of_ne hother]
    exact hfound
  | setProps hnode _ => exact h.setNode hnode fun _ found hfound _ => hfound
  | @setContents id' node previous data key next rep _ hnode _ hfile _ _ _ =>
    have hstored : ((v.setGlobal Counter.nextRepresentation (Text.toBytes next)).setRep key rep).Names dir name id := h
    refine hstored.setNode hnode ?_
    rintro rfl found hfound -
    obtain ⟨entries, hdir, -⟩ := NodeRevision.body_of_find? hfound
    cases hfile.symm.trans hdir
  | commit _ _ _ => exact h.freezeAll

end Names

/-- **A SITE KEEPS ITS CLONE**, unless the edit undoes that. -/
theorem StandsAt.edited (h : v.StandsAt txn site id) (hv : v.Consistent) (hmutable : v.IsMutable id)
    (hedit : v.Edited edit w) (hkept : ¬ edit.Undoes txn site) : w.StandsAt txn site id := by
  cases site with
  | entry dir name =>
    refine Names.edited h hmutable hedit ?_
    rintro rfl
    exact hkept rfl
  | root =>
    obtain ⟨record, htxn, rfl⟩ := h
    have hother : ∀ {u : View} {other value}, u.txn = v.txn → other ≠ txn →
        (u.setTxn other value).StandsAt txn .root record.root :=
      fun hsame hne => ⟨record, (Function.update_of_ne hne.symm _ _).trans (hsame ▸ htxn), rfl⟩
    cases hedit with
    | @cloneRoot other _ _ _ htxn' hfirst _ _ _ =>
      refine hother rfl ?_
      -- the root that is cloned is immutable
      rintro rfl
      cases htxn.symm.trans htxn'
      obtain ⟨base, hbase, himmutable⟩ := hv.baseRoot_immutable htxn
      exact not_isMutable (hfirst ▸ hbase) himmutable hmutable
    | begin _ hname hnext =>
      refine hother rfl ?_
      rintro rfl
      cases htxn.symm.trans (hv.txnName_free hname hnext).1
    | close _ => exact hother rfl hkept
    | commit _ _ _ => exact hother rfl hkept
    | _ => exact ⟨record, htxn, rfl⟩

namespace Cloned

/-- A clone is mutable. -/
theorem isMutable (h : v.Cloned txn site id) : v.IsMutable id :=
  h.belongs.isMutable

/-- **A CLONE STAYS** where it is, and mutable, unless its entry is removed or its transaction ends. -/
theorem edited (h : v.Cloned txn site id) (hv : v.Consistent) (hname : IsTxnName txn) (hedit : v.Edited edit w)
    (hkept : ¬ edit.Undoes txn site) : w.Cloned txn site id where
  stands := h.stands.edited hv h.isMutable hedit hkept
  belongs := by
    refine h.belongs.edited hv hname hedit ?_
    rintro date number rfl
    exact hkept rfl

end Cloned

/-! ## New clones -/

/-- True of a directory in the tree of an open transaction. One that was removed from the tree belongs to the transaction
    still. -/
def Reaches (v : View) (txn : String) (dir : NodeId) : Prop :=
  ∃ record, v.txn txn = some record ∧ (v.Leads record.root dir ∨ v.Belongs txn dir)

/-- A mutable directory that a transaction reaches belongs to it. -/
theorem Reaches.belongs (h : v.Reaches txn dir) (hv : v.Consistent) (hmutable : v.IsMutable dir) : v.Belongs txn dir := by
  obtain ⟨record, htxn, hleads | hbelongs⟩ := h
  · exact hv.belongs_of_leads htxn hleads hmutable
  · exact hbelongs

/-- What reaches anything is a transaction. -/
theorem Reaches.isTxnName (h : v.Reaches txn dir) (hv : v.Consistent) : IsTxnName txn := by
  obtain ⟨record, htxn, -⟩ := h
  exact hv.isTxnName (htxn ▸ Option.some_ne_none record)

/-- A root that is not the base root is a clone. -/
theorem Consistent.cloned_root (h : v.Consistent) {record : Transaction} (htxn : v.txn txn = some record)
    (hown : record.root ≠ record.baseRoot) : v.Cloned txn .root record.root where
  stands := ⟨record, htxn, rfl⟩
  belongs := by
    obtain ⟨node, hnode, hflags⟩ := (h.txnRoot htxn).resolve_left hown
    exact .root hnode hflags

/-- A mutable child is a clone, or was made there. -/
theorem Belongs.cloned_entry (h : v.Belongs txn dir) (hv : v.Consistent) (hnames : v.Names dir name id)
    (hmutable : v.IsMutable id) : v.Cloned txn (.entry dir name) id where
  stands := hnames
  belongs := h.of_links hv hnames.links hmutable

/-- The clone of a root stands at the root. -/
theorem Edited.cloned_root (h : v.Edited (.cloneRoot txn id) w) (hv : v.Consistent) : w.Cloned txn .root id where
  stands := by
    cases h with
    | @cloneRoot _ record _ _ _ _ _ _ _ => exact ⟨{ record with root := id }, by simp, rfl⟩
  belongs := by
    obtain ⟨-, node, hnode, hflags⟩ := h.owner_cloneRoot hv
    exact .root hnode hflags

/-- The clone of a child stands under its name. -/
theorem Edited.cloned_entry (h : v.Edited (.cloneChild dir name id) w) (hv : v.Consistent) (hname : IsTxnName txn)
    (hdir : v.Belongs txn dir) : w.Cloned txn (.entry dir name) id where
  stands := by
    cases h with
    | @cloneChild _ node entries _ entry _ _ _ _ _ hentry _ _ _ _ =>
      exact ⟨_, { entry with id := id }, setNode_node_self _ dir _, Node.find?_redirect hentry, rfl⟩
  belongs := by
    obtain ⟨-, node, hnode, hflags⟩ := h.owner_cloneChild hv
    exact .child hnode hflags (hdir.edited hv hname h fun _ _ heq => by cases heq)

end View

namespace ClientM

variable {σ : Type} [RecordStore σ] [LawfulStore σ] {v : View} {handles : Client.Handles} {h name txn : String}
  {node : Node}

/-- What is given for the root of a transaction is a clone, and the node as it is then. -/
theorem Ends.cloneRoot_cloned (hv : v.Consistent) (config : Config) (txn : String) (keep : Option String) :
    ((Client.Step.cloneRoot txn keep).run config : ClientM Client.Handles σ Client.Answer).Ends handles v
      (fun answer _ w => ∃ root, answer = .node root ∧ w.Current root ∧ v.txn txn ≠ none ∧ w.Cloned txn .root root.id)
      (fun _ _ _ => True) := by
  refine Ends.bind (Ends.lift (Q := fun root _ w => w.Current root ∧ v.txn txn ≠ none ∧ w.Cloned txn .root root.id)
    (TrailM.Ends.ofTransaction txn) ?_ fun _ _ _ => trivial) ?_ fun _ _ _ h => h
  · rintro root w ⟨hroot, ⟨rfl, record, htxn, hown, hid⟩ | hedit⟩
    · exact ⟨hroot, htxn ▸ Option.some_ne_none record, hid ▸ hv.cloned_root htxn hown⟩
    · exact ⟨hroot, (hedit.owner_cloneRoot hv).1, hedit.cloned_root hv⟩
  · intro root handles' w hroot
    refine Ends.mono (Ends.give keep root) ?_ fun _ _ _ he => he.elim
    rintro answer handles'' w' ⟨rfl, rfl, -⟩
    exact ⟨root, rfl, hroot⟩

/-- What is given for an entry is a clone, and the node as it is then. -/
theorem Ends.cloneChild_cloned (hv : v.Consistent) (config : Config) (hfind : handles.find? h = some node)
    (hreaches : v.Reaches txn node.id) (name : String) (keep : Option String) :
    ((Client.Step.cloneChild h name keep).run config : ClientM Client.Handles σ Client.Answer).Ends handles v
      (fun answer _ w => ∃ child, answer = .node child ∧ w.Current child ∧ w.Cloned txn (.entry node.id name) child.id)
      (fun _ _ _ => True) := by
  refine Ends.withHandle hfind (Ends.throughGive (E := fun _ => True)
    (Q := fun child w => w.Current child ∧ w.Cloned txn (.entry node.id name) child.id) ?_ trivial)
  intro fresh hid hfresh hstorable
  refine TrailM.Ends.mono (TrailM.Ends.cloneChildStep name hfresh hstorable) ?_ fun _ _ _ => trivial
  rw [View.Current, hid] at hfresh
  rw [hid]
  rintro ⟨child, dir⟩ w ⟨hchild, hmutable, -, -, ⟨rfl, hdir, entries, entry, hbody, hentry, hsame⟩ | hedit⟩
  · refine ⟨hchild, (hreaches.belongs hv ⟨_, hfresh, hdir⟩).cloned_entry hv ?_ ⟨_, hchild, hmutable⟩⟩
    exact hsame ▸ .of_find? hfresh hbody hentry
  · have hdir : v.IsMutable node.id := by
      cases hedit with
      | cloneChild hnode hdir _ _ _ _ _ _ => exact ⟨_, hnode, hdir⟩
    exact ⟨hchild, hedit.cloned_entry hv (hreaches.isTxnName hv) (hreaches.belongs hv hdir)⟩

end ClientM

end VersionedTree

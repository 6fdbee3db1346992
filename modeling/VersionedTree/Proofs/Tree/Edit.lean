import VersionedTree.Proofs.Contents.Chain
import VersionedTree.Proofs.Tree.Freeze
import VersionedTree.Tree.Commit

/-!
# Edits — all that operations do to a view

What an operation does to the records is one of a few changes, with everything the operation has checked before.

* **`Edit`** — the changes by name.
* **`View.Edited`** — one view comes from another by a change. A case for each change holds all that is known when an
  operation makes it, so this is where facts about operations start from.
* **`Ends.cloneChildStep`** and its siblings — each operation makes its change or none. Only two leave something behind
  when they fail: a node number that is not used, or a clone that nothing leads to.
-/

namespace VersionedTree

/-- The changes that operations make. -/
inductive Edit where
  /-- The number of the next node is counted up, and no node is made. -/
  | skip
  /-- The root directory of a transaction is cloned, but the clone does not become its root. -/
  | strand (txn : String) (id : NodeId)
  /-- The root directory of a transaction is cloned into `id`. -/
  | cloneRoot (txn : String) (id : NodeId)
  /-- The child of this name is cloned into `id`. -/
  | cloneChild (dir : NodeId) (name : String) (id : NodeId)
  /-- An empty child `id` is added under a name. -/
  | make (dir : NodeId) (name : String) (kind : Kind) (id : NodeId)
  | delete (dir : NodeId) (name : String)
  | setProps (id : NodeId) (props : PropList)
  | setContents (id : NodeId) (data : Bytes)
  | begin (base : UInt64) (txn : String)
  | close (txn : String)
  | commit (txn date : String) (number : UInt64)

/-- True of the changes that clients make in their trails, where no transaction begins or ends. -/
def Edit.ByClient : Edit → Prop
  | .begin _ _ | .close _ | .commit _ _ _ => False
  | _ => True

namespace View

/-- True of a handle that holds its node as the view has it. -/
def Current (v : View) (node : Node) : Prop :=
  v.node node.id = some node.revision

/-- A handle on a node that is there does not have an id that is free. -/
theorem Current.ne_of_free {v : View} {node : Node} (h : v.Current node) {id : NodeId} (hfree : v.node id = none) :
    id ≠ node.id := by
  rintro rfl
  exact nomatch hfree.symm.trans h

/-- True if the contents of every file are there. -/
def Backed (v : View) : Prop :=
  ∀ id node, v.node id = some node → ∀ key, node.body = .file (some key) → ∃ data n, v.Holds key data n

/-- True if the edit is possible in a view, and leads to another. -/
inductive Edited (v : View) : Edit → View → Prop where
  | skip {n : UInt64} (hnumber : n = (v.number Counter.nextNode).getD 1) (hleft : n.toNat + 1 < UInt64.size) :
      v.Edited .skip (v.setNumber Counter.nextNode (n + 1))
  | strand {name : String} {txn : Transaction} {base : NodeRevision} {id : NodeId} (htxn : v.txn name = some txn)
      (hfirst : txn.root = txn.baseRoot) (hbase : v.node txn.baseRoot = some base) (hfree : v.node id = none)
      (hid : txn.baseRoot.IsSuccessor id) :
      v.Edited (.strand name id) (v.setNode id (base.toMutable name))
  | cloneRoot {name : String} {txn : Transaction} {base : NodeRevision} {id : NodeId} (htxn : v.txn name = some txn)
      (hfirst : txn.root = txn.baseRoot) (hbase : v.node txn.baseRoot = some base) (hfree : v.node id = none)
      (hid : txn.baseRoot.IsSuccessor id) :
      v.Edited (.cloneRoot name id)
        ((v.setNode id (base.toMutable name)).setTxn name (some { txn with root := id }))
  | cloneChild {dir : NodeId} {node : NodeRevision} {entries : List Entry} {name : String} {entry : Entry}
      {child : NodeRevision} {id : NodeId} (hnode : v.node dir = some node) (hmutable : node.isMutable = true)
      (hdir : node.body = .dir entries) (hentry : entries.find? (fun entry => entry.name = name) = some entry)
      (hchild : v.node entry.id = some child) (himmutable : child.isMutable = false) (hfree : v.node id = none)
      (hid : entry.id.IsSuccessor id) :
      v.Edited (.cloneChild dir name id)
        ((v.setNode id (child.toMutable dir.text)).setNode dir
          { node with body := .dir (Node.redirect name id entries) })
  | make {dir : NodeId} {node : NodeRevision} {entries : List Entry} {name : String} {kind : Kind} {n : UInt64}
      (hnode : v.node dir = some node) (hmutable : node.isMutable = true) (hdir : node.body = .dir entries)
      (hnew : ∀ entry ∈ entries, entry.name ≠ name) (hnumber : n = (v.number Counter.nextNode).getD 1)
      (hleft : n.toNat + 1 < UInt64.size) (hfree : v.node (.ofNode n) = none) :
      v.Edited (.make dir name kind (.ofNode n))
        (((v.setNumber Counter.nextNode (n + 1)).setNode (.ofNode n) (.newMutable kind dir.text)).setNode dir
          { node with body := .dir (entries ++ [⟨name, .ofNode n⟩]) })
  | delete {dir : NodeId} {node : NodeRevision} {entries : List Entry} {name : String} {entry : Entry}
      {child : NodeRevision} (hnode : v.node dir = some node) (hmutable : node.isMutable = true)
      (hdir : node.body = .dir entries) (hentry : entries.find? (fun entry => entry.name = name) = some entry)
      (hchild : v.node entry.id = some child) (hempty : child.isMutable = true → child.children = []) :
      v.Edited (.delete dir name)
        (v.setNode dir { node with body := .dir (entries.eraseP fun entry => entry.name = name) })
  | setProps {id : NodeId} {node : NodeRevision} {props : PropList} (hnode : v.node id = some node)
      (hmutable : node.isMutable = true) :
      v.Edited (.setProps id props) (v.setNode id { node with props := props })
  | setContents {id : NodeId} {node : NodeRevision} {previous : Option String} {data : Bytes} {key next : String}
      {rep : Representation} {n : Nat} (hnode : v.node id = some node) (hmutable : node.isMutable = true)
      (hfile : node.body = .file previous)
      (hkey : Counter.currentKey (v.global Counter.nextRepresentation) = .ok key) (hnext : Base36.next? key = some next)
      (hheld : v.rep key = none →
        ((v.setGlobal Counter.nextRepresentation (Text.toBytes next)).setRep key rep).Holds key data n) :
      v.Edited (.setContents id data)
        (((v.setGlobal Counter.nextRepresentation (Text.toBytes next)).setRep key rep).setNode id
          { node with body := .file (some key) })
  | begin {base : UInt64} {revision : Revision} {name next : String} (hrevision : v.revision base = some revision)
      (hname : Counter.currentKey (v.global Counter.nextTransaction) = .ok name) (hnext : Base36.next? name = some next) :
      v.Edited (.begin base name)
        ((v.setGlobal Counter.nextTransaction (Text.toBytes next)).setTxn name
          (some ⟨revision.root, revision.root, base⟩))
  | close {name : String} {txn : Transaction} (htxn : v.txn name = some txn) :
      v.Edited (.close name) (v.setTxn name none)
  | commit {name date : String} {txn : Transaction} (htxn : v.txn name = some txn)
      (hyoungest : v.number Counter.youngest = some txn.baseRevision)
      (hleft : txn.baseRevision.toNat + 1 < UInt64.size) :
      v.Edited (.commit name date (txn.baseRevision + 1))
        ((((v.freeze txn.root).setRevision (txn.baseRevision + 1) ⟨txn.root, Revision.propsAt date⟩).setNumber
          Counter.youngest (txn.baseRevision + 1)).setTxn name none)

/-- True if at most one edit lies between two views. -/
def Follows (v w : View) : Prop :=
  w = v ∨ ∃ edit, v.Edited edit w

/-- True if at most one edit by a client lies between two views. -/
def ClientStep (v w : View) : Prop :=
  w = v ∨ ∃ edit : Edit, edit.ByClient ∧ v.Edited edit w

/-- An edit is at most one edit. -/
theorem Edited.follows {v w : View} {edit : Edit} (h : v.Edited edit w) : v.Follows w :=
  .inr ⟨edit, h⟩

/-- An edit by a client is at most one. -/
theorem Edited.clientStep {v w : View} {edit : Edit} (h : v.Edited edit w) (hclient : edit.ByClient) : v.ClientStep w :=
  .inr ⟨edit, hclient, h⟩

/-- At most one edit by a client is at most one edit. -/
theorem ClientStep.follows {v w : View} (h : v.ClientStep w) : v.Follows w := by
  rcases h with rfl | ⟨edit, -, hedit⟩
  · exact .inl rfl
  · exact hedit.follows

end View

/-! ## Node revisions that can be stored -/

namespace NodeRevision.Storable

variable {node : NodeRevision}

/-- A clone can be stored if the node could. -/
theorem toMutable (h : node.Storable) (owner : String) : (node.toMutable owner).Storable where
  flags flag hflag := by
    rcases List.mem_append.1 hflag with hflag | hflag
    · exact h.freeze.flags flag hflag
    · cases List.mem_singleton.1 hflag
      trivial
  body := h.body

/-- New nodes can be stored. -/
theorem newMutable (kind : Kind) (owner : String) : (NodeRevision.newMutable kind owner).Storable where
  flags flag hflag := by
    cases List.mem_singleton.1 hflag
    trivial
  body := by cases kind <;> simp [NodeRevision.newMutable, Body.Storable]

/-- A directory can be stored with any entries. -/
theorem withEntries (h : node.Storable) (entries : List Entry) : { node with body := .dir entries }.Storable where
  flags := h.flags
  body := trivial

/-- A node can still be stored when its entries change. -/
theorem mapEntries (h : node.Storable) (f : List Entry → List Entry) : (node.mapEntries f).Storable := by
  rw [NodeRevision.mapEntries]
  split
  case h_1 => exact h.withEntries _
  case h_2 => exact h

end NodeRevision.Storable

/-! ## Entries -/

namespace Node

variable {node : Node} {name : String} {entry : Entry}

/-- A handle has entries just if it holds a directory. -/
theorem entries_eq_ok {entries : List Entry} : node.entries = .ok entries ↔ node.revision.body = .dir entries := by
  cases h : node.revision.body <;> simp [Node.entries, NodeRevision.entries?, h]

/-- A handle has an entry just if it holds a directory with one of that name. -/
theorem entry_eq_ok : node.entry name = .ok entry ↔
    ∃ entries, node.revision.body = .dir entries ∧ entries.find? (fun entry => entry.name = name) = some entry := by
  cases h : node.revision.body with
  | file contents => simp [Node.entry, Node.entries, NodeRevision.entries?, h, bind, Except.bind]
  | dir entries =>
    cases hfind : entries.find? (fun entry => entry.name = name) with
    | none => simp [Node.entry, Node.entries, NodeRevision.entries?, h, hfind, bind, Except.bind, throw, throwThe,
        MonadExceptOf.throw]
    | some entry' => simp [Node.entry, Node.entries, NodeRevision.entries?, h, hfind, bind, Except.bind, pure,
        Except.pure]

end Node

namespace TrailM

variable {σ : Type} [RecordStore σ] [LawfulStore σ] {v : View} {node : Node}

/-! ## Looking -/

/-- A handle is loaded that holds its node as the view has it. If there is none, that is the error. -/
theorem Reads.load (id : NodeId) :
    (Node.load id : TrailM σ Node).Reads v (fun node => node.id = id ∧ v.Current node ∧ node.revision.Storable)
      (fun e => e.IsFault σ ∨ v.node id = none ∧ e = .notFound (.node id)) := by
  refine Reads.bind (Reads.node id) ?_ fun e he => he
  rintro revision ⟨hnode, hstorable⟩
  exact Reads.pure ⟨rfl, hnode, hstorable⟩

/-- A child is opened as the view has it. -/
theorem Reads.openChild (node : Node) (name : String) :
    (node.openChild name : TrailM σ Node).Reads v v.Current (fun _ => True) := by
  refine Reads.bind (Reads.ofResult (Q := fun _ => True) (fun _ _ => trivial) fun _ _ => trivial) ?_ fun _ he => he
  intro entry _
  exact Reads.mono (Reads.load entry.id) (fun child h => h.2.1) fun _ _ => trivial

/-- A handle that holds an immutable node is the one error. -/
theorem Reads.requireMutable (node : Node) :
    (node.requireMutable : TrailM σ Unit).Reads v (fun _ => node.revision.isMutable = true)
      (fun e => node.revision.isMutable = false ∧ e = .notMutable node.id) := by
  rw [Node.requireMutable, Node.isMutable]
  cases hmutable : node.revision.isMutable with
  | true => exact Reads.pure rfl
  | false => exact Reads.throw ⟨rfl, rfl⟩

/-! ## Steps on a fresh node -/

/-- A clone is put under the id of a successor, which was free. -/
theorem Ends.cloneFor (owner : String) (h : node.revision.Storable) :
    (node.cloneFor owner : TrailM σ Node).Ends v
      (fun clone w => v.node clone.id = none ∧ node.id.IsSuccessor clone.id ∧
        clone.revision = node.revision.toMutable owner ∧ w = v.setNode clone.id (node.revision.toMutable owner))
      (fun e w => w = v ∧ (e.IsFault σ ∨ e = .corrupt (.noForkLeft node.id))) := by
  refine Ends.bind (Ends.createSuccessor (h.toMutable owner)) ?_ fun _ _ he => he
  rintro id w ⟨hfree, hid, rfl⟩
  exact Ends.pure ⟨hfree, hid, rfl, rfl⟩

/-- A child is made mutable, or is mutable already. -/
theorem Ends.cloneChildStep (name : String) (hnode : v.Current node) (hstorable : node.revision.Storable) :
    (node.cloneChildStep name : TrailM σ (Node × Node)).Ends v
      (fun r w => w.Current r.1 ∧ r.1.revision.isMutable = true ∧ w.Current r.2 ∧ r.2.id = node.id ∧
        ((w = v ∧ node.revision.isMutable = true ∧ ∃ entries entry, node.revision.body = .dir entries ∧
            entries.find? (fun entry => entry.name = name) = some entry ∧ r.1.id = entry.id) ∨
          v.Edited (.cloneChild node.id name r.1.id) w))
      (fun _ w => w = v) := by
  refine Ends.after (Reads.requireMutable node) ?_ fun _ _ => rfl
  intro _ hmutable
  refine Ends.after (Reads.ofResult (fun entry h => h) fun _ _ => trivial) ?_ fun e (_ : True) => rfl
  intro entry hentry
  obtain ⟨entries, hdir, hfind⟩ := Node.entry_eq_ok.1 hentry
  refine Ends.after (Reads.load entry.id) ?_ fun _ _ => rfl
  rintro child ⟨hid, hchild, hchildStorable⟩
  cases hchildMutable : child.revision.isMutable with
  | true =>
    -- the child was cloned before, or made here
    simp only [Node.isMutable, hchildMutable, if_true]
    exact Ends.pure ⟨hchild, hchildMutable, hnode, rfl, .inl ⟨rfl, hmutable, entries, entry, hdir, hfind, hid⟩⟩
  | false =>
    simp only [Node.isMutable, hchildMutable]
    refine Ends.bind (Ends.cloneFor node.id.text hchildStorable) ?_ fun _ _ he => he.1
    rintro clone w ⟨hfree, hsuccessor, hrevision, rfl⟩
    have hbody : (node.revision.mapEntries (Node.redirect name clone.id)) =
        { node.revision with body := .dir (Node.redirect name clone.id entries) } := by
      simp [NodeRevision.mapEntries, hdir]
    have hne := hnode.ne_of_free hfree
    rw [hbody]
    -- the entry is put without fail, so the clone is never left behind
    refine Ends.andThen (Writes.putNode (hstorable.withEntries _)) fun _ => Ends.pure ⟨?_, ?_, ?_, rfl, .inr ?_⟩
    · simp [View.Current, hne, hrevision]
    · simp [hrevision, NodeRevision.isMutable, NodeRevision.toMutable, Flag.isMutable]
    · simp [View.Current]
    · rw [hid] at hsuccessor
      exact .cloneChild hnode hmutable hdir hfind (hid ▸ hchild) hchildMutable hfree hsuccessor

/-- An empty child is added. -/
theorem Ends.makeStep (name : String) (kind : Kind) (hnode : v.Current node) (hstorable : node.revision.Storable) :
    (node.makeStep name kind : TrailM σ (Node × Node)).Ends v
      (fun r w => w.Current r.1 ∧ w.Current r.2 ∧ r.2.id = node.id ∧ v.Edited (.make node.id name kind r.1.id) w)
      (fun _ w => w = v ∨ v.Edited .skip w) := by
  refine Ends.after (Reads.requireMutable node) ?_ fun _ _ => .inl rfl
  intro _ hmutable
  refine Ends.after (Reads.ofResult (fun entries h => h) fun _ _ => trivial) ?_ fun e (_ : True) => .inl rfl
  intro entries hentries
  have hdir := Node.entries_eq_ok.1 hentries
  cases hname : entries.any (fun entry => entry.name = name) with
  | true =>
    simp only [if_true]
    exact Ends.throw (.inl rfl)
  | false =>
    refine Ends.bind (Ends.create (NodeRevision.Storable.newMutable kind node.id.text)) ?_ ?_
    · rintro id w ⟨n, hnumber, hleft, rfl, hfree, rfl⟩
      have hbody : (node.revision.mapEntries fun entries => entries ++ [⟨name, .ofNode n⟩]) =
          { node.revision with body := .dir (entries ++ [⟨name, .ofNode n⟩]) } := by
        simp [NodeRevision.mapEntries, hdir]
      have hne := hnode.ne_of_free hfree
      have hnew : ∀ entry ∈ entries, entry.name ≠ name := by
        intro entry hentry heq
        have := List.any_eq_false.1 hname entry hentry
        simp [heq] at this
      rw [hbody]
      refine Ends.andThen (Writes.putNode (hstorable.withEntries _)) fun _ => Ends.pure ⟨?_, ?_, rfl, ?_⟩
      · simp [View.Current, hne]
      · simp [View.Current]
      · exact .make hnode hmutable hdir hnew hnumber hleft hfree
    · -- the number of the node may be used up although there is no node
      rintro e w (⟨rfl, -⟩ | ⟨n, hnumber, hleft, rfl, -⟩)
      · exact .inl rfl
      · exact .inr (.skip hnumber hleft)

/-- An entry is removed. -/
theorem Ends.deleteStep (name : String) (hnode : v.Current node) (hstorable : node.revision.Storable) :
    (node.deleteStep name : TrailM σ (Unit × Node)).Ends v
      (fun r w => w.Current r.2 ∧ r.2.id = node.id ∧ v.Edited (.delete node.id name) w)
      (fun _ w => w = v) := by
  refine Ends.after (Reads.ofResult (fun entries h => h) fun _ _ => trivial) ?_ fun e (_ : True) => rfl
  intro entries hentries
  have hdir := Node.entries_eq_ok.1 hentries
  refine Ends.after (Reads.requireMutable node) ?_ fun _ _ => rfl
  intro _ hmutable
  cases hfind : entries.find? (fun entry => entry.name = name) with
  | none => exact Ends.throw rfl
  | some entry =>
    refine Ends.after (Reads.load entry.id) ?_ fun _ _ => rfl
    rintro child ⟨hid, hchild, -⟩
    cases hholds : child.holdsChanges with
    | true =>
      simp only [if_true]
      exact Ends.throw rfl
    | false =>
      -- a child that holds no changes is immutable, or a file, or a directory without entries
      have hempty : child.revision.isMutable = true → child.revision.children = [] := by
        intro hchildMutable
        cases hentries : child.revision.entries? with
        | none => simp [NodeRevision.children, hentries]
        | some list =>
          simpa [Node.holdsChanges, Node.isMutable, hchildMutable, hentries, NodeRevision.children] using hholds
      refine Ends.andThen (Writes.putNode (hstorable.withEntries _)) fun _ => Ends.pure ⟨?_, rfl, ?_⟩
      · simp [View.Current]
      · exact .delete hnode hmutable hdir hfind (hid ▸ hchild) hempty

/-- The properties are replaced. -/
theorem Ends.setPropsStep (props : Skel) (hnode : v.Current node) (hstorable : node.revision.Storable) :
    (node.setPropsStep props : TrailM σ (Unit × Node)).Ends v
      (fun r w => w.Current r.2 ∧ r.2.id = node.id ∧
        ∃ list, PropList.ofSkel props = .ok list ∧ v.Edited (.setProps node.id list) w)
      (fun _ w => w = v) := by
  refine Ends.after (Reads.requireMutable node) ?_ fun _ _ => rfl
  intro _ hmutable
  refine Ends.after (Reads.ofExcept (fun list h => h) fun _ _ => trivial) ?_ fun e (_ : True) => rfl
  intro list hlist
  refine Ends.andThen (Writes.putNode ⟨hstorable.flags, hstorable.body⟩) fun _ => Ends.pure ⟨?_, rfl, list, hlist, ?_⟩
  · simp [View.Current]
  · exact .setProps hnode hmutable

/-- The contents are replaced, if the old ones can be read. -/
theorem Ends.setContentsStep (config : Config) (data : Bytes) (hnode : v.Current node)
    (hstorable : node.revision.Storable)
    (hheld : ∀ key, node.revision.body = .file (some key) → ∃ source n, v.Holds key source n) :
    (node.setContentsStep config data : TrailM σ (Unit × Node)).Ends v
      (fun r w => w.Current r.2 ∧ r.2.id = node.id ∧ v.Edited (.setContents node.id data) w)
      (fun _ w => w = v) := by
  rw [Node.setContentsStep]
  cases hbody : node.revision.body with
  | dir entries => exact Ends.throw rfl
  | file previous =>
    refine Ends.after (Reads.requireMutable node) ?_ fun _ _ => rfl
    intro _ hmutable
    have hprevious : ∀ base, previous = some base → ∃ source n, v.Holds base source n := by
      rintro base rfl
      exact hheld base hbody
    refine Ends.bind (Ends.storeContents config data hprevious) ?_ fun _ _ he => he.1
    rintro key w ⟨next, rep, n, hrep, hkey, hnext, rfl⟩
    have hne : key ≠ "" := by
      rintro rfl
      exact nomatch hnext
    have hstorable' : { node.revision with body := .file (some key) }.Storable :=
      ⟨hstorable.flags, fun heq => hne (Option.some.inj heq)⟩
    refine Ends.andThen (Writes.putNode hstorable') fun _ => Ends.pure ⟨?_, rfl, ?_⟩
    · simp [View.Current]
    · exact .setContents hnode hmutable hbody hkey hnext hrep.holds_stored

end TrailM

end VersionedTree

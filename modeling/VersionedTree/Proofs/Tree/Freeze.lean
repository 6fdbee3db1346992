import VersionedTree.Proofs.Trail.Records
import VersionedTree.Tree.Freeze

/-!
# Freezing — what a commit makes immutable

The walk of a commit goes down from a root through mutable nodes. While it goes it changes what it walks over, so what it
reaches has to be said in terms of the view from before.

* **`View.Editable`** — the nodes that a root leads to through mutable nodes.
* **`View.freeze`** — the view in which they are frozen. Nothing else is changed, and the entries are what they were.
* **`Ends.freeze`** — this is the view that the walk ends in, whatever the nodes look like.
-/

namespace VersionedTree

/-- The entries of a directory; a file has none. -/
def NodeRevision.children (node : NodeRevision) : List Entry :=
  node.entries?.getD []

namespace NodeRevision

/-- A frozen node is immutable. -/
@[simp] theorem isMutable_freeze (node : NodeRevision) : node.freeze.isMutable = false := by
  simp [isMutable, freeze]

/-- Freezing twice is freezing. -/
@[simp] theorem freeze_freeze (node : NodeRevision) : node.freeze.freeze = node.freeze := by
  simp [freeze]

/-- A frozen node can be stored if the node could. -/
theorem Storable.freeze {node : NodeRevision} (h : node.Storable) : node.freeze.Storable where
  flags flag hflag := h.flags flag (List.mem_filter.1 hflag).1
  body := h.body

end NodeRevision

namespace View

/-- True of the id of a mutable node. -/
def IsMutable (v : View) (id : NodeId) : Prop :=
  ∃ node, v.node id = some node ∧ node.isMutable = true

/-- A node that was found immutable is not mutable. -/
theorem not_isMutable {v : View} {id : NodeId} {node : NodeRevision} (hnode : v.node id = some node)
    (himmutable : node.isMutable = false) : ¬ v.IsMutable id := by
  rintro ⟨node', hnode', hmutable⟩
  cases hnode.symm.trans hnode'
  cases himmutable.symm.trans hmutable

/-- True if an entry of the directory `dir` stands for `id`. -/
def Links (v : View) (dir id : NodeId) : Prop :=
  ∃ node entry, v.node dir = some node ∧ entry ∈ node.children ∧ entry.id = id

/-- True of the mutable nodes that `root` leads to through mutable nodes. -/
inductive Editable (v : View) (root : NodeId) : NodeId → Prop where
  | root (h : v.IsMutable root) : v.Editable root root
  | child {dir id : NodeId} (hdir : v.Editable root dir) (hlink : v.Links dir id) (h : v.IsMutable id) :
      v.Editable root id

open Classical in
/-- The view with all nodes of a set frozen. -/
noncomputable def freezeAll (v : View) (ids : NodeId → Prop) : View :=
  { v with node := fun id => if ids id then (v.node id).map NodeRevision.freeze else v.node id }

/-- The view with the nodes frozen that `root` leads to through mutable nodes. -/
noncomputable def freeze (v : View) (root : NodeId) : View :=
  v.freezeAll (v.Editable root)

variable {v : View} {root : NodeId} {ids : NodeId → Prop}

/-- A node of the frozen ones is frozen. -/
theorem node_freezeAll_of_mem {id : NodeId} (h : ids id) :
    (v.freezeAll ids).node id = (v.node id).map NodeRevision.freeze :=
  if_pos h

/-- All other nodes are left as they are. -/
theorem node_freezeAll_of_not_mem {id : NodeId} (h : ¬ ids id) : (v.freezeAll ids).node id = v.node id :=
  if_neg h

/-- A node that is frozen keeps all but its mutable flags. -/
theorem node_freezeAll_cases {id : NodeId} {node : NodeRevision} (h : (v.freezeAll ids).node id = some node) :
    (ids id ∧ ∃ old, v.node id = some old ∧ node = old.freeze) ∨ (¬ ids id ∧ v.node id = some node) := by
  by_cases hid : ids id
  · rw [node_freezeAll_of_mem hid] at h
    obtain ⟨old, hold, rfl⟩ := Option.map_eq_some_iff.1 h
    exact .inl ⟨hid, old, hold, rfl⟩
  · rw [node_freezeAll_of_not_mem hid] at h
    exact .inr ⟨hid, h⟩

/-- Freezing leaves entries alone. -/
theorem links_freezeAll {dir id : NodeId} : (v.freezeAll ids).Links dir id ↔ v.Links dir id := by
  constructor
  · rintro ⟨node, entry, hnode, hentry, hid⟩
    rcases node_freezeAll_cases hnode with ⟨-, old, hold, rfl⟩ | ⟨-, hold⟩
    · exact ⟨old, entry, hold, hentry, hid⟩
    · exact ⟨node, entry, hold, hentry, hid⟩
  · rintro ⟨node, entry, hnode, hentry, hid⟩
    by_cases hdir : ids dir
    · exact ⟨node.freeze, entry, by rw [node_freezeAll_of_mem hdir, hnode]; rfl, hentry, hid⟩
    · exact ⟨node, entry, by rw [node_freezeAll_of_not_mem hdir, hnode], hentry, hid⟩

/-- The mutable nodes are those that were not frozen. -/
theorem isMutable_freezeAll {id : NodeId} : (v.freezeAll ids).IsMutable id ↔ v.IsMutable id ∧ ¬ ids id := by
  constructor
  · rintro ⟨node, hnode, hmutable⟩
    rcases node_freezeAll_cases hnode with ⟨-, old, -, rfl⟩ | ⟨hid, hold⟩
    · exact nomatch hmutable.symm.trans old.isMutable_freeze
    · exact ⟨⟨node, hold, hmutable⟩, hid⟩
  · rintro ⟨⟨node, hnode, hmutable⟩, hid⟩
    exact ⟨node, (node_freezeAll_of_not_mem hid).trans hnode, hmutable⟩

/-- Freezing some and then others is freezing all of them. -/
theorem freezeAll_freezeAll (v : View) (ids ids' : NodeId → Prop) :
    (v.freezeAll ids).freezeAll ids' = v.freezeAll fun id => ids id ∨ ids' id := by
  ext1
  case node =>
    funext id
    by_cases hid : ids id <;> by_cases hid' : ids' id
    all_goals simp [freezeAll, hid, hid', Function.comp_def]
  all_goals rfl

/-- Putting a frozen node in its place is freezing that node. -/
theorem setNode_freeze {id : NodeId} {node : NodeRevision} (h : v.node id = some node) :
    v.setNode id node.freeze = v.freezeAll fun id' => id' = id := by
  ext1
  case node =>
    funext id'
    by_cases hid : id' = id
    · subst hid
      simp [freezeAll, h]
    · simp [freezeAll, hid]
  all_goals rfl

/-- What is frozen is immutable, whether it was mutable or not. -/
theorem node_freeze_self {node : NodeRevision} (hnode : v.node root = some node) :
    ∃ node', (v.freeze root).node root = some node' ∧ node'.isMutable = false := by
  by_cases hreach : v.Editable root root
  · exact ⟨node.freeze, by rw [freeze, node_freezeAll_of_mem hreach, hnode]; rfl, node.isMutable_freeze⟩
  · have himmutable : node.isMutable = false :=
      Bool.eq_false_iff.2 fun hmutable => hreach (.root ⟨node, hnode, hmutable⟩)
    exact ⟨node, (node_freezeAll_of_not_mem hreach).trans hnode, himmutable⟩

/-! ## The walk -/

/-- True of a set of nodes that a walk from `starts` goes over: mutable nodes that lead on to all mutable nodes behind
    them. -/
structure Walked (v : View) (starts : List NodeId) (ids : NodeId → Prop) : Prop where
  editable : ∀ id, ids id → ∃ start ∈ starts, v.Editable start id
  starts : ∀ start ∈ starts, v.IsMutable start → ids start
  closed : ∀ dir id, ids dir → v.Links dir id → v.IsMutable id → ids id

/-- What can be edited is mutable. -/
theorem Editable.isMutable {id : NodeId} (h : v.Editable root id) : v.IsMutable id := by
  cases h with
  | root h => exact h
  | child _ _ h => exact h

/-- What is reached after some nodes are frozen was reached before. -/
theorem Editable.of_freezeAll {id : NodeId} (h : (v.freezeAll ids).Editable root id) : v.Editable root id := by
  induction h with
  | root h => exact .root (isMutable_freezeAll.1 h).1
  | child _ hlink h ih => exact .child ih (links_freezeAll.1 hlink) (isMutable_freezeAll.1 h).1

/-- From nowhere nothing is walked. -/
theorem Walked.nil : v.Walked [] fun _ => False where
  editable _ h := h.elim
  starts _ h := nomatch h
  closed _ _ h := h.elim

/-- One walk after the other. -/
theorem Walked.append {starts starts' : List NodeId} {ids' : NodeId → Prop} (h : v.Walked starts ids)
    (h' : (v.freezeAll ids).Walked starts' ids') : v.Walked (starts ++ starts') fun id => ids id ∨ ids' id where
  editable id hid := by
    rcases hid with hid | hid
    · obtain ⟨start, hstart, hreach⟩ := h.editable id hid
      exact ⟨start, List.mem_append_left _ hstart, hreach⟩
    · obtain ⟨start, hstart, hreach⟩ := h'.editable id hid
      exact ⟨start, List.mem_append_right _ hstart, hreach.of_freezeAll⟩
  starts start hstart hmutable := by
    by_cases hid : ids start
    · exact .inl hid
    · rcases List.mem_append.1 hstart with hstart | hstart
      · exact .inl (h.starts start hstart hmutable)
      · exact .inr (h'.starts start hstart (isMutable_freezeAll.2 ⟨hmutable, hid⟩))
  closed dir id hdir hlink hmutable := by
    by_cases hid : ids id
    · exact .inl hid
    · rcases hdir with hdir | hdir
      · exact .inl (h.closed dir id hdir hlink hmutable)
      · exact .inr (h'.closed dir id hdir (links_freezeAll.2 hlink) (isMutable_freezeAll.2 ⟨hmutable, hid⟩))

/-- What a child of a mutable node leads to, the node leads to. -/
theorem Editable.of_child {dir id : NodeId} {node : NodeRevision} {entry : Entry} (hnode : v.node dir = some node)
    (hmutable : node.isMutable = true) (hentry : entry ∈ node.children) (h : v.Editable entry.id id) :
    v.Editable dir id := by
  have hroot : v.Editable dir dir := .root ⟨node, hnode, hmutable⟩
  induction h with
  | root h => exact .child hroot ⟨node, entry, hnode, hentry, rfl⟩ h
  | child _ hlink h ih => exact .child ih hlink h

/-- A node first, and then what its entries lead to. -/
theorem Walked.node {id : NodeId} {node : NodeRevision} (hnode : v.node id = some node)
    (hmutable : node.isMutable = true)
    (h : (v.freezeAll fun id' => id' = id).Walked (node.children.map Entry.id) ids) :
    v.Walked [id] fun id' => id' = id ∨ ids id' := by
  constructor
  case editable =>
    rintro id' (rfl | hid)
    · exact ⟨id', List.mem_singleton_self _, .root ⟨node, hnode, hmutable⟩⟩
    · obtain ⟨start, hstart, hreach⟩ := h.editable id' hid
      obtain ⟨entry, hentry, rfl⟩ := List.mem_map.1 hstart
      exact ⟨id, List.mem_singleton_self _, hreach.of_freezeAll.of_child hnode hmutable hentry⟩
  case starts =>
    intro start hstart _
    exact .inl (List.mem_singleton.1 hstart)
  case closed =>
    intro dir id' hdir hlink hmutable'
    by_cases hid : id' = id
    · exact .inl hid
    have hmutable' : (v.freezeAll fun id' => id' = id).IsMutable id' := isMutable_freezeAll.2 ⟨hmutable', hid⟩
    rcases hdir with rfl | hdir
    · obtain ⟨node', entry, hnode', hentry, rfl⟩ := hlink
      cases hnode.symm.trans hnode'
      exact .inr (h.starts entry.id (List.mem_map_of_mem hentry) hmutable')
    · exact .inr (h.closed dir id' hdir (links_freezeAll.2 hlink) hmutable')

/-- A walk from one root goes over just what the root leads to. -/
theorem Walked.eq_editable (h : v.Walked [root] ids) : ids = v.Editable root := by
  funext id
  refine propext ⟨?_, ?_⟩
  · intro hid
    obtain ⟨start, hstart, hreach⟩ := h.editable id hid
    cases List.mem_singleton.1 hstart
    exact hreach
  · intro hreach
    induction hreach with
    | root hroot => exact h.starts root (List.mem_singleton_self _) hroot
    | child _ hlink hmutable ih => exact h.closed _ _ ih hlink hmutable

/-- What was walked from a root is what can be edited from there. -/
theorem Walked.freezeAll_eq (h : v.Walked [root] ids) : v.freezeAll ids = v.freeze root := by
  rw [h.eq_editable, freeze]

end View

namespace TrailM

variable {σ : Type} [RecordStore σ] [LawfulStore σ] {v : View}

/-- If freezing is right for one node, then it is right for one node after the other. -/
theorem Ends.freezeEach {depth : Nat}
    (h : ∀ (v : View) (id : NodeId), (NodeRecord.freezeWithin depth id : TrailM σ Nat).Ends v
      (fun _ w => ∃ ids, v.Walked [id] ids ∧ w = v.freezeAll ids) (fun _ _ => True)) (entries : List Entry) :
    (entries.mapM fun entry => NodeRecord.freezeWithin depth entry.id : TrailM σ (List Nat)).Ends v
      (fun _ w => ∃ ids, v.Walked (entries.map Entry.id) ids ∧ w = v.freezeAll ids) (fun _ _ => True) := by
  induction entries generalizing v with
  | nil =>
    refine Ends.pure ⟨_, View.Walked.nil, ?_⟩
    simp [View.freezeAll]
  | cons entry entries ih =>
    rw [List.mapM_cons]
    refine Ends.bind (h v entry.id) ?_ fun _ _ _ => trivial
    rintro count w ⟨ids, hwalked, rfl⟩
    -- the walk over the other entries starts where the first one ended
    refine Ends.bind (ih (v := v.freezeAll ids)) ?_ fun _ _ _ => trivial
    rintro counts w ⟨ids', hwalked', rfl⟩
    exact Ends.pure ⟨_, hwalked.append hwalked', View.freezeAll_freezeAll v ids ids'⟩

/-- The walk of a node freezes what it has walked, by induction on how deep it may go. -/
theorem Ends.freezeWithin (depth : Nat) (v : View) (id : NodeId) :
    (NodeRecord.freezeWithin depth id : TrailM σ Nat).Ends v
      (fun _ w => ∃ ids, v.Walked [id] ids ∧ w = v.freezeAll ids) (fun _ _ => True) := by
  induction depth generalizing v id with
  | zero => exact Ends.throw trivial
  | succ depth ih =>
    refine Ends.after (Reads.node id) ?_ fun _ _ => trivial
    rintro node ⟨hnode, hstorable⟩
    cases hmutable : node.isMutable with
    | true =>
      simp only [if_true]
      refine Ends.andThen (Writes.putNode hstorable.freeze) fun _ => ?_
      rw [View.setNode_freeze hnode]
      refine Ends.bind (Ends.freezeEach ih _) ?_ fun _ _ _ => trivial
      rintro counts w ⟨ids, hwalked, rfl⟩
      exact Ends.pure ⟨_, hwalked.node hnode hmutable, View.freezeAll_freezeAll v _ ids⟩
    | false =>
      -- nothing is frozen, and nothing had to be
      refine Ends.pure ⟨fun _ => False, ⟨fun _ h => h.elim, ?_, fun _ _ h => h.elim⟩, ?_⟩
      · intro start hstart hstartMutable
        cases List.mem_singleton.1 hstart
        exact absurd hstartMutable (View.not_isMutable hnode hmutable)
      · simp [View.freezeAll]

/-- **FREEZING** makes immutable just what the root leads to through mutable nodes. -/
theorem Ends.freeze (id : NodeId) :
    (NodeRecord.freeze id : TrailM σ Nat).Ends v (fun _ w => w = v.freeze id) (fun _ _ => True) := by
  refine Ends.after (Reads.bound True) ?_ fun _ _ => trivial
  intro bound _
  refine Ends.mono (Ends.freezeWithin (bound + 1) v id) ?_ fun _ _ _ => trivial
  rintro count w ⟨ids, hwalked, rfl⟩
  exact hwalked.freezeAll_eq

end TrailM

end VersionedTree

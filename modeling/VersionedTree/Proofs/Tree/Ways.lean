import VersionedTree.Proofs.Tree.Unfold

/-!
# Ways — where a change is seen

A mutable node has one owner, so there is one way up from it. A change of the node is seen in the trees on this way and
nowhere else, and in these it is seen in one place.

* **`View.Way`** — names that lead from one node down to another.
* **`Consistent.linear`** — whatever leads to a mutable node is on one line.
* **`Consistent.hasTree_editAt`** — if one mutable node is changed, the tree of a node above it is changed in one place.
* **`Consistent.hasTree_of_not_leads`** — and other trees are not.
-/

namespace VersionedTree

namespace Tree

/-- Changes what the first entry of a name stands for. -/
def editEntry (f : Tree → Option Tree) (name : String) : List (String × Tree) → Option (List (String × Tree))
  | [] => none
  | entry :: rest =>
    if entry.1 = name then (f entry.2).map fun tree => (entry.1, tree) :: rest
    else (editEntry f name rest).map (entry :: ·)

/-- Changes the tree that a path leads to. -/
def editAt (f : Tree → Option Tree) : List String → Tree → Option Tree
  | [], tree => f tree
  | name :: names, dir props flags entries => (editEntry (editAt f names) name entries).map (dir props flags)
  | _ :: _, file _ _ _ => none

end Tree

namespace View

/-- True if names lead from a node down to the target. -/
inductive Way (v : View) (target : NodeId) : NodeId → List String → Prop where
  | here : v.Way target target []
  | down {dir : NodeId} {node : NodeRevision} {entries : List Entry} {name : String} {entry : Entry} {names : List String}
      (hnode : v.node dir = some node) (hdir : node.body = .dir entries)
      (hentry : entries.find? (fun entry => entry.name = name) = some entry) (hrest : v.Way target entry.id names) :
      v.Way target dir (name :: names)

/-- True if nothing that is there is changed but one node. -/
structure ChangedAt (v w : View) (target : NodeId) : Prop where
  node : ∀ id, id ≠ target → v.node id ≠ none → w.node id = v.node id
  rep : ∀ key rep, v.rep key = some rep → w.rep key = some rep

variable {v w : View} {id dir target a b : NodeId} {node : NodeRevision} {names : List String} {T : Tree}

/-- A directory leads to the child that is found under a name. -/
theorem links_of_find? {entries : List Entry} {name : String} {entry : Entry} (hnode : v.node dir = some node)
    (hdir : node.body = .dir entries) (hentry : entries.find? (fun entry => entry.name = name) = some entry) :
    v.Links dir entry.id :=
  ⟨node, entry, hnode, NodeRevision.children_of_dir hdir ▸ List.mem_of_find?_eq_some hentry, rfl⟩

/-! ## Ways -/

namespace Way

/-- A way leads to its target. -/
theorem leads (h : v.Way target id names) : v.Leads id target := by
  induction h with
  | here => exact .refl
  | down hnode hdir hentry _ ih => exact .head (links_of_find? hnode hdir hentry) ih

/-- One name further. -/
theorem snoc (h : v.Way target id names) {entries : List Entry} {name : String} {entry : Entry}
    (hnode : v.node target = some node) (hdir : node.body = .dir entries)
    (hentry : entries.find? (fun entry => entry.name = name) = some entry) : v.Way entry.id id (names ++ [name]) := by
  induction h with
  | here => exact .down hnode hdir hentry .here
  | down hnode' hdir' hentry' _ ih => exact .down hnode' hdir' hentry' ih

end Way

namespace Consistent

/-- What is below a node does not lead back up to it. -/
theorem not_leads_up (h : v.Consistent) (hlink : v.Links dir id) : ¬ v.Leads id dir := by
  obtain ⟨rank, hrank⟩ := h.ranked
  have hle : ∀ {b}, v.Leads id b → rank b ≤ rank id := by
    intro b hleads
    induction hleads with
    | refl => exact Nat.le_refl _
    | tail _ hstep ih => exact Nat.le_trans (Nat.le_of_lt (hrank _ _ hstep)) ih
  intro hleads
  exact absurd (hrank _ _ hlink) (Nat.not_lt.2 (hle hleads))

/-- From a node that is there everything leads to nodes that are there. -/
theorem node_of_leads (h : v.Consistent) (hid : v.node id ≠ none) (hleads : v.Leads id a) : v.node a ≠ none := by
  induction hleads with
  | refl => exact hid
  | tail _ hlink _ => exact h.closed hlink

/-- All nodes above a mutable node are mutable. -/
theorem mutable_of_leads (h : v.Consistent) (hleads : v.Leads id target) (htarget : v.IsMutable target) :
    v.IsMutable id := by
  induction hleads with
  | refl => exact htarget
  | tail _ hlink ih => exact ih (h.mutable_of_child hlink htarget)

/-- Only its owner has an entry for a mutable node. -/
theorem parent_unique (h : v.Consistent) (hid : v.IsMutable id) (ha : v.Links a id) (hb : v.Links b id) : a = b := by
  obtain ⟨node, hnode, hmutable⟩ := hid
  have hsame : a.text = b.text := by simpa using (h.owner ha hnode hmutable).symm.trans (h.owner hb hnode hmutable)
  exact NodeId.text_injective hsame

/-- **ONE LINE** of nodes leads to a mutable node. -/
theorem linear (h : v.Consistent) (htarget : v.IsMutable target) (ha : v.Leads a target) (hb : v.Leads b target) :
    v.Leads a b ∨ v.Leads b a := by
  induction ha with
  | refl => exact .inr hb
  | tail hdir hlink ih =>
    rcases hb.cases_tail with rfl | ⟨dir', hdir', hlink'⟩
    · exact .inl (hdir.tail hlink)
    · -- both ways come through the owner, so they can be compared there
      obtain rfl := h.parent_unique htarget hlink hlink'
      exact ih (h.mutable_of_child hlink htarget) hdir'

/-- No entry of a directory leads to what another entry stands for, if that is mutable. -/
theorem not_leads_across (h : v.Consistent) (ha : v.Links dir a) (hb : v.Links dir b) (hne : a ≠ b)
    (hmutable : v.IsMutable b) : ¬ v.Leads a b := by
  intro hleads
  rcases hleads.cases_tail with rfl | ⟨dir', hdir', hlink'⟩
  · exact hne rfl
  · obtain rfl := h.parent_unique hmutable hb hlink'
    exact h.not_leads_up ha hdir'

/-- Two entries of a directory do not lead to the same mutable node. -/
theorem not_leads_both (h : v.Consistent) (ha : v.Links dir a) (hb : v.Links dir b) (hne : a ≠ b)
    (htarget : v.IsMutable target) (hleads : v.Leads a target) : ¬ v.Leads b target := by
  intro hleads'
  rcases h.linear htarget hleads hleads' with hab | hba
  · exact h.not_leads_across ha hb hne (h.mutable_of_leads hleads' htarget) hab
  · exact h.not_leads_across hb ha hne.symm (h.mutable_of_leads hleads htarget) hba

/-- A way stays as it is if what it leads to is changed. -/
theorem way_of_changedAt (h : v.Consistent) (hchanged : v.ChangedAt w target) (hway : v.Way target id names) :
    w.Way target id names := by
  induction hway with
  | here => exact .here
  | @down dir node entries name entry names hnode hdir hentry hrest ih =>
    have hlink := links_of_find? hnode hdir hentry
    have hne : dir ≠ target := fun heq => h.not_leads_up hlink (heq ▸ hrest.leads)
    exact .down ((hchanged.node _ hne (hnode ▸ nofun)).trans hnode) hdir hentry ih

/-! ## Trees above and beside a change -/

/-- **NO OTHER TREE** is changed. -/
theorem hasTree_of_not_leads (h : v.Consistent) (hchanged : v.ChangedAt w target) (hid : v.node id ≠ none)
    (hnot : ¬ v.Leads id target) : w.HasTree id T ↔ v.HasTree id T := by
  refine h.hasTree_of_leads hchanged.rep ?_
  intro a hleads
  refine hchanged.node a ?_ (h.node_of_leads hid hleads)
  rintro rfl
  exact hnot hleads

end Consistent

/-- If one entry of a directory stands for another tree, the tree of the directory is changed there. -/
theorem HasTrees.exists_editEntry {f : Tree → Option Tree} {entries : List Entry} {trees : List (String × Tree)}
    (htrees : v.HasTrees entries trees) {name : String} {entry : Entry}
    (hentry : entries.find? (fun entry => entry.name = name) = some entry)
    (hsingle : entries.Pairwise fun e e' => e.id = e'.id → e.id ≠ entry.id)
    (hedit : ∀ T, v.HasTree entry.id T → ∃ T', f T = some T' ∧ w.HasTree entry.id T')
    (hothers : ∀ e ∈ entries, e.id ≠ entry.id → ∀ T, v.HasTree e.id T → w.HasTree e.id T) :
    ∃ trees', Tree.editEntry f name trees = some trees' ∧ w.HasTrees entries trees' := by
  induction htrees with
  | nil => exact nomatch hentry
  | @cons head child rest trees hhead hrest ih =>
    obtain ⟨hname, hchild⟩ := hhead
    obtain ⟨hfirst, hpairs⟩ := List.pairwise_cons.1 hsingle
    by_cases heq : head.name = name
    · -- this is the entry; the ones after it stand for other nodes
      obtain rfl : head = entry := by simpa [List.find?_cons, heq] using hentry
      obtain ⟨T', hT', htree⟩ := hedit child.2 hchild
      refine ⟨(child.1, T') :: trees, by simp [Tree.editEntry, ← hname, heq, hT'], .cons ⟨hname, htree⟩ ?_⟩
      have hkept : ∀ e ∈ rest, ∀ T, v.HasTree e.id T → w.HasTree e.id T := by
        intro e he
        exact hothers e (List.mem_cons_of_mem _ he) fun hsame => hfirst e he hsame.symm rfl
      exact HasTrees.imp_of_mem hrest hkept
    · have hentry' : rest.find? (fun entry => entry.name = name) = some entry := by
        simpa [List.find?_cons, heq] using hentry
      have hne : head.id ≠ entry.id := fun hsame => hfirst entry (List.mem_of_find?_eq_some hentry') hsame hsame
      obtain ⟨trees', hedited, htrees'⟩ := ih hentry' hpairs fun e he => hothers e (List.mem_cons_of_mem _ he)
      refine ⟨child :: trees', ?_, .cons ⟨hname, hothers head List.mem_cons_self hne _ hchild⟩ htrees'⟩
      simp [Tree.editEntry, ← hname, heq, hedited]

/-- **A CHANGE IS SEEN IN ONE PLACE.** If one mutable node is changed and its tree is changed by `f`, the tree of a node
    above is changed by `f` where the way leads to. -/
theorem Consistent.hasTree_editAt (h : v.Consistent) (hchanged : v.ChangedAt w target) (htarget : v.IsMutable target)
    {f : Tree → Option Tree} (hlocal : ∀ T, v.HasTree target T → ∃ T', f T = some T' ∧ w.HasTree target T')
    (hway : v.Way target id names) (hT : v.HasTree id T) : ∃ T', T.editAt f names = some T' ∧ w.HasTree id T' := by
  induction hway generalizing T with
  | here => exact hlocal T hT
  | @down dir node entries name entry names hnode hdir hentry hrest ih =>
    obtain ⟨trees, htrees, rfl⟩ := (hasTree_dir hnode hdir).1 hT
    have hlink := links_of_find? hnode hdir hentry
    have hmutable := h.mutable_of_leads hrest.leads htarget
    have hsingle : entries.Pairwise fun e e' => e.id = e'.id → e.id ≠ entry.id := by
      refine (NodeRevision.children_of_dir hdir ▸ h.single hnode).imp ?_
      intro e e' hpair hsame heq
      exact hpair hsame (heq ▸ hmutable)
    -- what the other entries stand for does not lead to the change
    have hothers : ∀ e ∈ entries, e.id ≠ entry.id → ∀ T, v.HasTree e.id T → w.HasTree e.id T := by
      intro e he hne T hT
      have hlink' : v.Links dir e.id := ⟨node, e, hnode, NodeRevision.children_of_dir hdir ▸ he, rfl⟩
      have hnot := h.not_leads_both hlink hlink' hne.symm htarget hrest.leads
      exact (h.hasTree_of_not_leads hchanged (h.closed hlink') hnot).2 hT
    obtain ⟨trees', hedited, htrees'⟩ := htrees.exists_editEntry hentry hsingle (fun T hT => ih hT) hothers
    have hne : dir ≠ target := fun heq => h.not_leads_up hlink (heq ▸ hrest.leads)
    have hnode' := (hchanged.node dir hne (hnode ▸ nofun)).trans hnode
    exact ⟨.dir node.props node.freeze.flags trees', by simp [Tree.editAt, hedited],
      (hasTree_dir hnode' hdir).2 ⟨trees', htrees', rfl⟩⟩

end View

end VersionedTree

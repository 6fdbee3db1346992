import VersionedTree.Proofs.Filesystem.History
import VersionedTree.Proofs.Tree.Forest

/-!
# Reading — a forest says what is read

The trees of a forest are made up from records. That they are what clients see is shown here: following a path and
reading a file gives what the tree has there, and an error where it has no file.

* **`Consistent.gives_follow_tree`** — following a path goes to the tree that the path leads to.
* **`Reachable.fileContents_eq_forest`** — the files of revisions, in all filesystems that can come about.
-/

namespace VersionedTree

namespace Tree

/-- The tree that a path leads to. -/
def find? : List String → Tree → Option Tree
  | [], tree => some tree
  | name :: names, dir _ _ entries =>
    (entries.find? fun entry => entry.1 = name).bind fun entry => find? names entry.2
  | _ :: _, file _ _ _ => none

/-- What is in a file. -/
def contents? : Tree → Option Bytes
  | file _ _ contents => some contents
  | dir _ _ _ => none

end Tree

namespace View

variable {v : View} {entries : List Entry} {trees : List (String × Tree)} {name : String} {T : Tree}

/-- A name without an entry has no tree. -/
theorem HasTrees.find?_eq_none (h : v.HasTrees entries trees) (hnone : entries.find? (fun entry => entry.name = name) = none) :
    trees.find? (fun entry => entry.1 = name) = none := by
  induction h with
  | nil => rfl
  | @cons head child rest trees hhead _ ih =>
    by_cases heq : head.name = name
    · simp [heq] at hnone
    · have hne : ¬ child.1 = name := hhead.1 ▸ heq
      simpa [List.find?_cons, hne] using ih (by simpa [List.find?_cons, heq] using hnone)

/-- A name with an entry has its tree. -/
theorem HasTrees.find?_eq_some (h : v.HasTrees entries trees) {entry : Entry}
    (hentry : entries.find? (fun entry => entry.name = name) = some entry) :
    ∃ child, trees.find? (fun entry => entry.1 = name) = some child ∧ v.HasTree entry.id child.2 := by
  induction h with
  | nil => exact nomatch hentry
  | @cons head child rest trees hhead _ ih =>
    by_cases heq : head.name = name
    · have hsame : child.1 = name := hhead.1 ▸ heq
      obtain rfl : head = entry := by simpa [List.find?_cons, heq] using hentry
      exact ⟨child, by simp [hsame], hhead.2⟩
    · have hne : ¬ child.1 = name := hhead.1 ▸ heq
      simpa [List.find?_cons, hne] using ih (by simpa [List.find?_cons, heq] using hentry)

namespace Consistent

open TrailM

variable {σ : Type} [RecordStore σ] [LawfulStore σ]

/-- **A PATH** leads where it leads in the tree. -/
theorem gives_follow_tree (h : v.Consistent) (names : List String) {node : Node} (hnode : v.Current node)
    (hT : v.HasTree node.id T) :
    (∃ below T', (Path.follow node names : TrailM σ Node).Gives v (.ok below) ∧ T.find? names = some T' ∧
        v.Current below ∧ v.HasTree below.id T') ∨
      ∃ e, (Path.follow node names : TrailM σ Node).Gives v (.error e) ∧ T.find? names = none := by
  induction names generalizing node T with
  | nil => exact .inl ⟨node, T, Gives.pure node, by cases T <;> rfl, hnode, hT⟩
  | cons name names ih =>
    cases hentry : node.entry name with
    | error e =>
      refine .inr ⟨e, Gives.bind_error (Gives.bind_error (hentry ▸ Gives.ofResult (node.entry name))), ?_⟩
      -- the node is a file, or a directory without an entry of this name; so is its tree
      cases hbody : node.revision.body with
      | file contents =>
        obtain ⟨data, -, rfl⟩ := (hasTree_file hnode hbody).1 hT
        rfl
      | dir entries =>
        obtain ⟨trees, htrees, rfl⟩ := (hasTree_dir hnode hbody).1 hT
        cases hfind : entries.find? (fun entry => entry.name = name) with
        | none =>
          have hnone := htrees.find?_eq_none hfind
          simp [Tree.find?, hnone]
        | some entry => exact nomatch hentry.symm.trans (Node.entry_eq_ok.2 ⟨entries, hbody, hfind⟩)
    | ok entry =>
      obtain ⟨entries, hdir, hfind⟩ := Node.entry_eq_ok.1 hentry
      obtain ⟨trees, htrees, rfl⟩ := (hasTree_dir hnode hdir).1 hT
      obtain ⟨tree, htree, hchildTree⟩ := htrees.find?_eq_some hfind
      have hlink : v.Links node.id entry.id :=
        ⟨node.revision, entry, hnode, NodeRevision.children_of_dir hdir ▸ List.mem_of_find?_eq_some hfind, rfl⟩
      obtain ⟨child, hchild⟩ := Option.ne_none_iff_exists'.1 (h.closed hlink)
      have hopen : (node.openChild name : TrailM σ Node).Gives v (.ok ⟨entry.id, child⟩) :=
        Gives.bind_ok (a := entry) (hentry ▸ Gives.ofResult (node.entry name)) (Gives.load hchild)
      have hstep : (Tree.dir node.revision.props node.revision.freeze.flags trees).find? (name :: names) =
          tree.2.find? names := by simp [Tree.find?, htree]
      rw [hstep]
      rcases @ih tree.2 ⟨entry.id, child⟩ hchild hchildTree with ⟨below, T', hgives, hfound⟩ | ⟨e, hgives, hnone⟩
      · exact .inl ⟨below, T', Gives.bind_ok hopen hgives, hfound⟩
      · exact .inr ⟨e, Gives.bind_ok hopen hgives, hnone⟩

/-- What a file holds is read. -/
theorem gives_file (h : v.Consistent) {node : Node} (hnode : v.Current node) {contents : Option String}
    (hbody : node.revision.body = .file contents) :
    ∃ data, v.contents contents = some data ∧ (node.contents : TrailM σ Bytes).Gives v (.ok data) := by
  rw [Node.contents, hbody]
  cases contents with
  | none => exact ⟨[], rfl, Gives.pure []⟩
  | some key =>
    obtain ⟨data, n, hholds⟩ := h.backed node.id node.revision hnode key hbody
    exact ⟨data, contents_of_holds hholds, Gives.contents hholds⟩

/-- **THE CONTENTS** of a file are those of its tree. -/
theorem gives_contents_tree (h : v.Consistent) {node : Node} (hnode : v.Current node) (hT : v.HasTree node.id T) :
    ∃ x, (node.contents : TrailM σ Bytes).Gives v x ∧ x.toOption = T.contents? := by
  cases hbody : node.revision.body with
  | dir entries =>
    obtain ⟨trees, -, rfl⟩ := (hasTree_dir hnode hbody).1 hT
    rw [Node.contents, hbody]
    exact ⟨_, Gives.throw _, rfl⟩
  | file contents =>
    obtain ⟨data, hdata, rfl⟩ := (hasTree_file hnode hbody).1 hT
    obtain ⟨data', hdata', hgives⟩ := h.gives_file (σ := σ) hnode hbody
    cases hdata.symm.trans hdata'
    exact ⟨_, hgives, rfl⟩

end Consistent

/-- **A FILE** of a revision reads as its tree says. -/
theorem HasForest.gives_fileContents {σ : Type} [RecordStore σ] [LawfulStore σ] {F : Forest} (h : v.HasForest F)
    (hv : v.Consistent) (number : UInt64) (path : String) :
    ∃ x, (Root.fileContents number path : TrailM σ Bytes).Gives v x ∧
      x.toOption = ((F.revision number).bind (Tree.find? (Path.names path))).bind Tree.contents? := by
  cases hnumber : v.revision number with
  | none =>
    rw [h.revision_eq_none hnumber]
    exact ⟨_, TrailM.Gives.bind_error (TrailM.Gives.bind_error (TrailM.Gives.revision_none hnumber)), rfl⟩
  | some revision =>
    obtain ⟨T, hT, hroot⟩ := h.revision_eq hnumber
    obtain ⟨root, hrootNode, -⟩ := hv.revisionRoot hnumber
    have hofRevision : (Root.ofRevision number : TrailM σ Node).Gives v (.ok ⟨revision.root, root⟩) :=
      TrailM.Gives.bind_ok (TrailM.Gives.revision hnumber) (TrailM.Gives.load hrootNode)
    rw [hT, Option.bind_some]
    rcases hv.gives_follow_tree (σ := σ) (Path.names path) (show v.Current ⟨revision.root, root⟩ from hrootNode) hroot with
      ⟨below, T', hfollow, hfound, hbelow, hT'⟩ | ⟨e, hfollow, hnone⟩
    · obtain ⟨x, hx, heq⟩ := hv.gives_contents_tree (σ := σ) hbelow hT'
      exact ⟨x, hofRevision.bind_ok (hfollow.bind_ok hx), by rw [heq, hfound]; rfl⟩
    · exact ⟨.error e, hofRevision.bind_ok hfollow.bind_error, by rw [hnone]; rfl⟩

end View

namespace Filesystem

/-- **A FOREST SAYS WHAT IS READ.** For every path in every revision, reading the file gives what the tree has there. -/
theorem Reachable.fileContents_eq_forest {σ : Type} [RecordStore σ] [LawfulStore σ] {fs : Filesystem σ}
    (h : Reachable fs) {F : Forest} (hF : fs.view.HasForest F) (number : UInt64) (path : String) :
    (fs.copy.fileContents number path).1.toOption =
      ((F.revision number).bind (Tree.find? (Path.names path))).bind Tree.contents? := by
  have hhealthy := h.healthy
  obtain ⟨x, hx, heq⟩ := hF.gives_fileContents (σ := Records) hhealthy.consistent number path
  have hstore : StoreShows fs.view fs.records := ⟨trivial, hhealthy.sound, rfl⟩
  rcases hx.run hstore with hrun | ⟨e, -, hfault, -⟩
  · exact heq ▸ congrArg Except.toOption hrun
  · exact hfault.elim

end Filesystem

end VersionedTree

import VersionedTree.Proofs.Filesystem.History
import VersionedTree.Proofs.Tree.Order
import VersionedTree.Proofs.Tree.Ways

/-!
# Integrity — references hold, and trees are trees

Whatever happens to a filesystem, its records can be read and its references lead somewhere: entries and roots to nodes,
files to contents that read back. What is entered is a directory, a name stands for one entry, and no way down comes back
to where it started.

* **`View.Ordered.evolves`** and **`Reachable.ordered`** — every filesystem that can come about is in order.
* **`Consistent.acyclic`** — ranks rule out circles, so a walk down ends.
* **`Reachable.integrity`** — the theorem.
-/

namespace VersionedTree

namespace View

variable {v w : View}

/-- A number of edits keeps the order. -/
theorem Ordered.evolves (h : v.Ordered) (hv : v.Consistent) (hw : v.Evolves w) : w.Ordered := by
  induction hw with
  | refl => exact h
  | tail hevolves hedit ih =>
    obtain ⟨edit, hedit⟩ := hedit
    exact ih.edited (hv.evolves hevolves) hedit

/-- A new filesystem is in order. -/
theorem ordered_fresh (new : Metadata) (date : String) : (View.fresh new date).Ordered := by
  have hcounter : (View.fresh new date).global Counter.nextNode = none := by
    simp [View.fresh, Counter.nextNode, Counter.youngest, View.empty]
  constructor
  case names =>
    intro dir node hdir
    obtain ⟨-, rfl⟩ := node_fresh hdir
    exact List.nodup_nil
  case revisionDir =>
    intro number revision hrevision
    exact ⟨.emptyDir, root_fresh hrevision ▸ node_root_fresh new date, rfl⟩
  case txnDir =>
    intro name txn htxn
    cases htxn
  case numbers =>
    intro id hid
    obtain ⟨node, hsome⟩ := Option.ne_none_iff_exists'.1 hid
    obtain ⟨rfl, -⟩ := node_fresh hsome
    rw [nextNode, number, hcounter]
    decide
  case counter => exact fun _ => hcounter
  case owners =>
    intro id node owner hid hflags
    obtain ⟨-, rfl⟩ := node_fresh hid
    cases hflags

namespace Consistent

/-- Entries lead down to ever lower ranks, so every walk ends. -/
theorem wellFounded_links (h : v.Consistent) : WellFounded fun id dir => v.Links dir id := by
  obtain ⟨rank, hrank⟩ := h.ranked
  exact Subrelation.wf (fun {id dir} hlink => hrank dir id hlink) (InvImage.wf rank Nat.lt_wfRel.wf)

/-- **NO CIRCLES.** No way down from a node comes back to it. -/
theorem acyclic (h : v.Consistent) (id : NodeId) : ¬ Relation.TransGen v.Links id id := by
  intro hcircle
  obtain ⟨child, hlink, hback⟩ := Relation.TransGen.head'_iff.1 hcircle
  exact h.not_leads_up hlink hback

end Consistent

end View

namespace Filesystem

variable {σ : Type} [RecordStore σ] [LawfulStore σ] {fs : Filesystem σ}

/-- Whatever can be reached is in order. -/
theorem Reachable.ordered (h : Reachable fs) : fs.view.Ordered := by
  induction h with
  | @fresh config new date store fs hvalid hempty hopen =>
    obtain ⟨-, hfresh⟩ := openOver_empty hvalid hempty hopen
    exact hfresh ▸ View.ordered_fresh new date
  | step h hstep ih =>
    have hhealthy := h.healthy
    exact ih.evolves hhealthy.consistent (hstep.evolves hhealthy).2

/-- What a file holds is read back, unless the store fails. -/
theorem Healthy.contents_read_back (h : fs.Healthy) {id : NodeId} {node : NodeRevision} {key : String}
    (hnode : fs.view.node id = some node) (hbody : node.body = .file (some key)) :
    ∃ data, (fs.copy.run (Representation.readContents key)).1 = .ok data ∧
      ((fs.run (Representation.readContents key)).1 = .ok data ∨
        ∃ e, (fs.run (Representation.readContents key)).1 = .error e ∧ e.IsFault σ) := by
  obtain ⟨data, n, hholds⟩ := h.consistent.backed id node hnode key hbody
  have hcopy : StoreShows fs.view fs.records := ⟨trivial, h.sound, rfl⟩
  refine ⟨data, ?_, (TrailM.Gives.contents hholds).run h.shows⟩
  exact ((TrailM.Gives.contents hholds).run hcopy).resolve_right fun ⟨e, _, hfault⟩ => Records.not_isFault e hfault

/-- **REFERENCES HOLD AND TREES ARE TREES.** In every filesystem that can come about: (a) the records of nodes, revisions
    and transactions stand under their keys and can be read; (b) entries stand for nodes that are there; (c) the roots of
    revisions, and the roots and base roots of transactions, are directories; (d) the key of every file is that of a
    representation which reads back; (e) no two entries of a directory have the same name; (f) entries do not lead in
    circles, every walk down ends, and every node has a tree. -/
theorem Reachable.integrity (h : Reachable fs) :
    (∀ key value, fs.records.find? key = some value →
      (key.table = .nodes → ∃ id node, key = NodeRecord.key id ∧ NodeRecord.decode value = .ok node) ∧
      (key.table = .revisions → ∃ number revision, key = Revision.key number ∧ Revision.decode value = .ok revision) ∧
      (key.table = .transactions → ∃ name txn, key = Transaction.key name ∧ Transaction.decode value = .ok txn)) ∧
    (∀ dir node, fs.view.node dir = some node → ∀ entry ∈ node.children, fs.view.node entry.id ≠ none) ∧
    (∀ number revision, fs.view.revision number = some revision → fs.view.IsDir revision.root) ∧
    (∀ name txn, fs.view.txn name = some txn → fs.view.IsDir txn.root ∧ fs.view.IsDir txn.baseRoot) ∧
    (∀ id node key, fs.view.node id = some node → node.body = .file (some key) → fs.view.rep key ≠ none ∧
      ∃ data, (fs.copy.run (Representation.readContents key)).1 = .ok data ∧
        ((fs.run (Representation.readContents key)).1 = .ok data ∨
          ∃ e, (fs.run (Representation.readContents key)).1 = .error e ∧ e.IsFault σ)) ∧
    (∀ dir node, fs.view.node dir = some node → (node.children.map Entry.name).Nodup) ∧
    (∀ id, ¬ Relation.TransGen fs.view.Links id id) ∧
    WellFounded (fun id dir => fs.view.Links dir id) ∧
    ∀ id, fs.view.node id ≠ none → ∃ T, fs.view.HasTree id T := by
  have hhealthy := h.healthy
  have hv := hhealthy.consistent
  have hordered := h.ordered
  refine ⟨?_, ?_, fun _ _ => hordered.revisionDir, ?_, ?_, fun _ _ => hordered.names, hv.acyclic, hv.wellFounded_links,
    fun _ => hv.exists_tree⟩
  · intro key value hfind
    -- every record of a sound store is readable, and what that means depends on its table
    have hreadable := hhealthy.sound key value hfind
    rw [Records.Readable] at hreadable
    refine ⟨fun htable => ?_, fun htable => ?_, fun htable => ?_⟩ <;> rw [htable] at hreadable
    · obtain ⟨⟨id, hkey⟩, node, hnode⟩ := hreadable
      exact ⟨id, node, hkey, hnode⟩
    · obtain ⟨⟨number, hkey⟩, revision, hrevision⟩ := hreadable
      exact ⟨number, revision, hkey, hrevision⟩
    · obtain ⟨⟨name, hkey⟩, txn, htxn⟩ := hreadable
      exact ⟨name, txn, hkey, htxn⟩
  · intro dir node hnode entry hentry
    exact hv.closed ⟨node, entry, hnode, hentry, rfl⟩
  · intro name txn htxn
    obtain ⟨revision, hrevision, hroot⟩ := hv.txnBase htxn
    exact ⟨hordered.txnDir htxn, hroot ▸ hordered.revisionDir hrevision⟩
  · intro id node key hnode hbody
    obtain ⟨data, n, hholds⟩ := hv.backed id node hnode key hbody
    obtain ⟨rep, hrep, -⟩ := hholds.rep
    exact ⟨hrep ▸ Option.some_ne_none rep, hhealthy.contents_read_back hnode hbody⟩

/-- The root of the open transaction is a directory with one entry, which stands for a file. -/
theorem Sample.edited_intact :
    Sample.edited.view.txn "0" = some ⟨.first 0 1, .root, 0⟩ ∧ Sample.edited.view.IsDir (.first 0 1) ∧
      Sample.edited.view.node (.first 0 1) = some ⟨.empty, [.mutable "0"], .dir [⟨"a", .ofNode 1⟩]⟩ ∧
      Sample.edited.view.node (.ofNode 1) ≠ none ∧ ¬ Relation.TransGen Sample.edited.view.Links (.first 0 1) (.first 0 1) := by
  have htxn : Sample.edited.view.txn "0" = some ⟨.first 0 1, .root, 0⟩ := by decide +kernel
  have hnode : Sample.edited.view.node (.first 0 1) = some ⟨.empty, [.mutable "0"], .dir [⟨"a", .ofNode 1⟩]⟩ := by
    decide +kernel
  obtain ⟨-, hclosed, -, hroots, -, -, hacyclic, -⟩ := Sample.reachable_edited.integrity
  exact ⟨htxn, (hroots "0" _ htxn).1, hnode, hclosed _ _ hnode ⟨"a", .ofNode 1⟩ List.mem_cons_self, hacyclic _⟩

end Filesystem

end VersionedTree

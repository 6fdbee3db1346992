import VersionedTree.Proofs.Filesystem.Reachable
import VersionedTree.Proofs.Tree.Permanence

/-!
# History — committed revisions never change

What can be read below a revision is made of immutable nodes and of representations, and these are there for good. So
every later read gives what the first one gave, down to the errors.

* **`TrailM.Gives`** — a computation that only looks gives one certain result, unless the store fails.
* **`Consistent.gives_fileContents`** — reading a path in a revision gives the same in every view that keeps the first.
* **`Reachable.revisions_never_change`** — the theorem, for all that happens to a filesystem after a commit.
-/

namespace VersionedTree

namespace TrailM

variable {σ α β : Type} [RecordStore σ] [LawfulStore σ] {v : View}

/-- The computation leaves the view alone and has this result, unless the store fails. -/
def Gives (m : TrailM σ α) (v : View) (x : Except Error α) : Prop :=
  m.Reads v (fun a => x = .ok a) (fun e => e.IsFault σ ∨ x = .error e)

theorem Gives.pure (a : α) : Gives (Pure.pure a : TrailM σ α) v (.ok a) :=
  Reads.pure rfl

theorem Gives.throw (e : Error) : Gives (MonadExcept.throw e : TrailM σ α) v (.error e) :=
  Reads.throw (.inr rfl)

/-- A sequence gives what comes after its first value. -/
theorem Gives.bind_ok {m : TrailM σ α} {f : α → TrailM σ β} {a : α} {x : Except Error β} (h : m.Gives v (.ok a))
    (hf : (f a).Gives v x) : (m >>= f).Gives v x := by
  refine Reads.bind h ?_ ?_
  · rintro b hb
    cases hb
    exact hf
  · rintro e (hfault | he)
    · exact .inl hfault
    · exact nomatch he

/-- A sequence gives the error of its first part. -/
theorem Gives.bind_error {m : TrailM σ α} {f : α → TrailM σ β} {e : Error} (h : m.Gives v (.error e)) :
    (m >>= f).Gives v (.error e) := by
  refine Reads.bind h (fun _ hb => nomatch hb) ?_
  rintro e' (hfault | he)
  · exact .inl hfault
  · cases he
    exact .inr rfl

/-- A result is given as it is. -/
theorem Gives.ofResult (x : Except Error α) : (TrailM.ofResult x : TrailM σ α).Gives v x := by
  cases x with
  | ok a => exact Gives.pure a
  | error e => exact Gives.throw e

/-- A handle is given for a node that is there. -/
theorem Gives.load {id : NodeId} {node : NodeRevision} (h : v.node id = some node) :
    (Node.load id : TrailM σ Node).Gives v (.ok ⟨id, node⟩) := by
  refine Reads.mono (Reads.load id) ?_ ?_
  · rintro ⟨id', node'⟩ ⟨rfl, hnode, -⟩
    cases h.symm.trans hnode
    rfl
  · rintro e (hfault | ⟨hnone, -⟩)
    · exact .inl hfault
    · exact nomatch hnone.symm.trans h

/-- Reading an item gives it, or says that it is missing. -/
theorem Gives.item {m : TrailM σ α} {item : Option α} {missing : Error}
    (h : m.Reads v (fun a => item = some a) fun e => e.IsFault σ ∨ item = none ∧ e = missing) :
    m.Gives v (item.elim (.error missing) .ok) := by
  refine Reads.mono h ?_ ?_
  · rintro a rfl
    rfl
  · rintro e (hfault | ⟨rfl, rfl⟩)
    · exact .inl hfault
    · exact .inr rfl

/-- A revision is given that is there. -/
theorem Gives.revision {number : UInt64} {revision : Revision} (h : v.revision number = some revision) :
    (Revision.read number : TrailM σ Revision).Gives v (.ok revision) := by
  have hitem : (Revision.read number : TrailM σ Revision).Gives v _ := Gives.item (Reads.revision number)
  rwa [h] at hitem

/-- For a revision that is not there the error tells its number. -/
theorem Gives.revision_none {number : UInt64} (h : v.revision number = none) :
    (Revision.read number : TrailM σ Revision).Gives v (.error (.notFound (.revision number.toNat))) := by
  have hitem : (Revision.read number : TrailM σ Revision).Gives v _ := Gives.item (Reads.revision number)
  rwa [h] at hitem

/-- A transaction is given that is open. -/
theorem Gives.txn {name : String} {txn : Transaction} (h : v.txn name = some txn) :
    (Transaction.read name : TrailM σ Transaction).Gives v (.ok txn) := by
  have hitem : (Transaction.read name : TrailM σ Transaction).Gives v _ := Gives.item (Reads.txn name)
  rwa [h] at hitem

/-- The youngest revision is given. -/
theorem Gives.youngest {number : UInt64} (h : v.number Counter.youngest = some number) :
    (Revision.youngest : TrailM σ UInt64).Gives v (.ok number) := by
  refine Reads.mono Reads.youngest ?_ ?_
  · rintro number' hnumber
    cases h.symm.trans hnumber
    rfl
  · rintro e (hfault | ⟨hnone, -⟩)
    · exact .inl hfault
    · exact nomatch hnone.symm.trans h

/-- Contents are given that are held. -/
theorem Gives.contents {key : String} {data : Bytes} {n : Nat} (h : v.Holds key data n) :
    (Representation.readContents key : TrailM σ Bytes).Gives v (.ok data) := by
  refine Reads.mono (Reads.contents h) ?_ fun e he => .inl he
  rintro found rfl
  rfl

/-- Over a store that does not fail, the result of the whole trail. -/
theorem Gives.run {m : TrailM σ α} {x : Except Error α} (h : m.Gives v x) {store : σ} (hstore : StoreShows v store) :
    (Trail.run m store).1 = x ∨ ∃ e, (Trail.run m store).1 = .error e ∧ e.IsFault σ := by
  obtain ⟨store', ⟨a, w, heq, -, -, hx⟩ | ⟨e, heq, -, -, ⟨w, -, hfault | hx⟩ | hfault⟩⟩ := Trail.run_cases hstore h
  · exact .inl (by rw [heq, hx])
  · exact .inr ⟨e, by rw [heq], hfault⟩
  · exact .inl (by rw [heq, hx])
  · exact .inr ⟨e, by rw [heq], hfault⟩

end TrailM

namespace View

variable {v : View}

/-- A result that a computation gives in every view that keeps `v`, over every store. -/
def Settles (v : View) {α : Type} (m : ∀ (σ : Type) [RecordStore σ], TrailM σ α) (x : Except Error α) : Prop :=
  ∀ w, v.Keeps w → ∀ (σ : Type) [RecordStore σ] [LawfulStore σ], (m σ).Gives w x

namespace Consistent

open TrailM

/-- Going down from an immutable node ends at an immutable node, or nowhere. -/
theorem gives_follow (h : v.Consistent) (names : List String) {node : Node} (hnode : v.Current node)
    (himmutable : node.revision.isMutable = false) :
    ∃ x, v.Settles (fun _ _ => Path.follow node names) x ∧
      ∀ below, x = .ok below → v.Current below ∧ below.revision.isMutable = false := by
  induction names generalizing node with
  | nil =>
    refine ⟨.ok node, fun w _ σ _ _ => Gives.pure node, ?_⟩
    intro below hbelow
    cases hbelow
    exact ⟨hnode, himmutable⟩
  | cons name names ih =>
    cases hentry : node.entry name with
    | error e =>
      refine ⟨.error e, fun w _ σ _ _ => Gives.bind_error (Gives.bind_error ?_), nofun⟩
      exact hentry ▸ Gives.ofResult (node.entry name)
    | ok entry =>
      obtain ⟨entries, hdir, hfind⟩ := Node.entry_eq_ok.1 hentry
      have hlink : v.Links node.id entry.id :=
        ⟨node.revision, entry, hnode, NodeRevision.children_of_dir hdir ▸ List.mem_of_find?_eq_some hfind, rfl⟩
      obtain ⟨child, hchild, hchildImmutable⟩ := h.immutable_of_leads hnode himmutable (.single hlink)
      -- the child is immutable, too, so every later view has it
      obtain ⟨x, hgives, hx⟩ := @ih ⟨entry.id, child⟩ hchild hchildImmutable
      refine ⟨x, fun w hw σ _ _ => Gives.bind_ok (Gives.bind_ok (a := entry) ?_ ?_) (hgives w hw σ), hx⟩
      · exact hentry ▸ Gives.ofResult (node.entry name)
      · exact Gives.load (hw.node entry.id child hchild hchildImmutable)

/-- The contents of an immutable node are always the same. -/
theorem gives_contents (h : v.Consistent) {node : Node} (hnode : v.Current node) :
    ∃ x, v.Settles (fun _ _ => node.contents) x := by
  cases hbody : node.revision.body with
  | dir entries =>
    refine ⟨.error (.notFile node.id), fun w _ σ _ _ => ?_⟩
    unfold Node.contents
    rw [hbody]
    exact Gives.throw _
  | file contents =>
    cases contents with
    | none =>
      refine ⟨.ok [], fun w _ σ _ _ => ?_⟩
      unfold Node.contents
      rw [hbody]
      exact Gives.pure _
    | some key =>
      obtain ⟨data, n, hholds⟩ := h.backed node.id node.revision hnode key hbody
      refine ⟨.ok data, fun w hw σ _ _ => ?_⟩
      unfold Node.contents
      rw [hbody]
      exact Gives.contents (hholds.mono hw.rep)

/-- **READING A PATH** in a revision always gives the same. -/
theorem gives_fileContents (h : v.Consistent) {number : UInt64} {revision : Revision}
    (hrevision : v.revision number = some revision) (path : String) :
    ∃ x, v.Settles (fun _ _ => Root.fileContents number path) x := by
  obtain ⟨root, hroot, himmutable⟩ := h.revisionRoot hrevision
  have hroots : v.Settles (fun _ _ => Root.ofRevision number) (.ok ⟨revision.root, root⟩) := fun w hw σ _ _ =>
    Gives.bind_ok (Gives.revision (hw.revision number revision hrevision))
      (Gives.load (hw.node revision.root root hroot himmutable))
  obtain ⟨x, hfollow, hx⟩ := h.gives_follow (Path.names path) (show v.Current ⟨revision.root, root⟩ from hroot) himmutable
  cases x with
  | error e =>
    exact ⟨.error e, fun w hw σ _ _ => Gives.bind_ok (hroots w hw σ) (Gives.bind_error (hfollow w hw σ))⟩
  | ok node =>
    obtain ⟨y, hcontents⟩ := h.gives_contents (hx node rfl).1
    exact ⟨y, fun w hw σ _ _ => Gives.bind_ok (hroots w hw σ) (Gives.bind_ok (hfollow w hw σ) (hcontents w hw σ))⟩

end Consistent

/-- Whatever happens, what was there and immutable is kept. -/
theorem Consistent.keeps_of_evolves {w : View} (h : v.Consistent) (hw : v.Evolves w) : v.Keeps w := by
  induction hw with
  | refl => exact .refl v
  | tail hevolves hedit ih =>
    obtain ⟨edit, hedit⟩ := hedit
    exact ih.trans ((h.evolves hevolves).keeps_of_edited hedit)

end View

namespace Filesystem

variable {σ : Type} [RecordStore σ] [LawfulStore σ]

/-- The same filesystem with its records in memory, where no read fails. -/
def copy (fs : Filesystem σ) : Filesystem Records :=
  ⟨fs.records, fs.config, fs.metadata⟩

/-- **COMMITTED REVISIONS NEVER CHANGE.** Whatever happens to a filesystem after a revision is there: its record is the
    same, all nodes that its root leads to are the same and none is mutable, the root leads to no others, and every path
    reads as it did, unless the store fails. -/
theorem Reachable.revisions_never_change {fs fs' : Filesystem σ} (h : Reachable fs) (hsteps : Steps fs fs')
    {number : UInt64} {revision : Revision} (hrevision : fs.view.revision number = some revision) :
    fs'.view.revision number = some revision ∧
    (∀ id, fs.view.Leads revision.root id →
      ∃ node, fs.view.node id = some node ∧ fs'.view.node id = some node ∧ node.isMutable = false) ∧
    (∀ id, fs'.view.Leads revision.root id ↔ fs.view.Leads revision.root id) ∧
    ∀ path, (fs'.copy.fileContents number path).1 = (fs.copy.fileContents number path).1 ∧
      ((fs'.fileContents number path).1 = (fs.copy.fileContents number path).1 ∨
        ∃ e, (fs'.fileContents number path).1 = .error e ∧ e.IsFault σ) := by
  have hhealthy := h.healthy
  obtain ⟨hhealthy', hevolves⟩ := hsteps.evolves hhealthy
  have hv := hhealthy.consistent
  have hkeeps := hv.keeps_of_evolves hevolves
  obtain ⟨root, hroot, himmutable⟩ := hv.revisionRoot hrevision
  refine ⟨hkeeps.revision number revision hrevision, ?_, ?_, ?_⟩
  · intro id hleads
    obtain ⟨node, hnode, hnodeImmutable⟩ := hv.immutable_of_leads hroot himmutable hleads
    exact ⟨node, hnode, hkeeps.node id node hnode hnodeImmutable, hnodeImmutable⟩
  · intro id
    exact hkeeps.leads_iff hv hroot himmutable
  · intro path
    obtain ⟨x, hx⟩ := hv.gives_fileContents hrevision path
    -- the result is settled by the view before, so it is that of both filesystems
    have hcopy : ∀ fs'' : Filesystem σ, fs''.Healthy → fs.view.Keeps fs''.view →
        (fs''.copy.fileContents number path).1 = x := by
      intro fs'' hhealthy'' hkeeps''
      have hstore : StoreShows fs''.view fs''.records := ⟨trivial, hhealthy''.sound, rfl⟩
      rcases (hx fs''.view hkeeps'' Records).run hstore with heq | ⟨e, -, hfault, -⟩
      · exact heq
      · exact hfault.elim
    rw [hcopy fs hhealthy (.refl _), hcopy fs' hhealthy' hkeeps]
    exact ⟨rfl, (hx fs'.view hkeeps σ).run hhealthy'.shows⟩

/-- A commit does not change the revision that it is based on. -/
theorem Sample.first_revision_kept :
    Sample.committed.view.revision 0 = some ⟨.root, Revision.propsAt ""⟩ ∧
      ∀ path, (Sample.committed.copy.fileContents 0 path).1 = (Sample.new.copy.fileContents 0 path).1 := by
  have hrevision : Sample.new.view.revision 0 = some ⟨.root, Revision.propsAt ""⟩ := by decide +kernel
  obtain ⟨hkept, -, -, hreads⟩ := Sample.reachable_new.revisions_never_change Sample.steps_committed hrevision
  exact ⟨hkept, fun path => (hreads path).1⟩

end Filesystem

end VersionedTree

import VersionedTree.Proofs.Filesystem.Integrity
import VersionedTree.Proofs.Filesystem.Reading

/-!
# Paths — what can be opened by a path

Directories take entries of any name, but a path is split at slashes and its empty pieces are dropped. So the path that
is joined from the names of a chain of entries leads along this chain if the names are proper: not empty, and without
slashes. Along other names, children have to be opened one after the other.

* **`Path.names_join_iff`** — a path that is joined from names is read as these names if and only if all are proper.
* **`Chain.way`** — no two entries of a directory have the same name, so a chain of entries is found by its names.
* **`Way.gives_follow`** and **`Consistent.way_of_follow`** — names are followed along entries, and nowhere else.
* **`Reachable.committed_paths_open`** — the theorem, for all chains of entries in all revisions.
* **`Sample.slash_shadows`** — the path of an entry whose name has a slash leads to another node.
-/

namespace VersionedTree

/-! ## Names on paths -/

namespace Path

/-- True of a name that a path can hold. -/
def IsName (name : String) : Prop :=
  name ≠ "" ∧ '/' ∉ name.toList

instance (name : String) : Decidable (IsName name) :=
  inferInstanceAs (Decidable (_ ∧ _))

/-- The path through these names. -/
def join (names : List String) : String :=
  "/".intercalate names

/-- A piece of a text that is split has no separator. -/
theorem not_mem_of_mem_splitOn {text piece : List Char} {separator : Char} (h : piece ∈ text.splitOn separator) :
    separator ∉ piece := by
  induction text generalizing piece with
  | nil =>
    obtain rfl : piece = [] := by simpa using h
    exact List.not_mem_nil
  | cons c rest ih =>
    rw [List.splitOn_cons_eq_if_modifyHead] at h
    by_cases heq : c = separator
    · rcases List.mem_cons.1 (by simpa [heq] using h) with rfl | hrest
      · exact List.not_mem_nil
      · exact ih hrest
    · -- the first piece of the rest gets one more character, which is no separator
      obtain ⟨first, others, hpieces⟩ := List.exists_cons_of_ne_nil (List.splitOn_ne_nil separator rest)
      rw [hpieces] at ih
      rcases List.mem_cons.1 (by simpa [heq, hpieces] using h) with rfl | hothers
      · simpa [Ne.symm heq] using ih List.mem_cons_self
      · exact ih (List.mem_cons_of_mem _ hothers)

/-- The names of a path are names that it could be joined of. -/
theorem isName_of_mem_names {path name : String} (h : name ∈ names path) : IsName name := by
  obtain ⟨piece, hpiece, rfl⟩ := List.mem_map.1 h
  obtain ⟨hpiece, hnonempty⟩ := List.mem_filter.1 hpiece
  refine ⟨fun hempty => ?_, ?_⟩
  · have : piece = [] := by simpa using congrArg String.toList hempty
    simp [this] at hnonempty
  · rw [String.toList_ofList]
    exact not_mem_of_mem_splitOn hpiece

/-- A path that was joined has the names that it was joined of. -/
theorem names_join {ns : List String} (h : ∀ name ∈ ns, IsName name) : names (join ns) = ns := by
  cases ns with
  | nil => rfl
  | cons first rest =>
    have hsplit : (join (first :: rest)).toList.splitOn '/' = (first :: rest).map String.toList := by
      rw [join, String.toList_intercalate]
      refine List.splitOn_intercalate '/' ?_ (List.cons_ne_nil _ _)
      intro piece hpiece
      obtain ⟨name, hname, rfl⟩ := List.mem_map.1 hpiece
      exact (h name hname).2
    have hkept : ((first :: rest).map String.toList).filter (fun piece => !piece.isEmpty) =
        (first :: rest).map String.toList := by
      refine List.filter_eq_self.2 fun piece hpiece => ?_
      obtain ⟨name, hname, rfl⟩ := List.mem_map.1 hpiece
      simpa using (h name hname).1
    rw [names, hsplit, hkept, List.map_map]
    exact List.map_id'' (fun _ => String.ofList_toList) _

/-- **A JOINED PATH** is read as the names that it was joined from if and only if all are proper. -/
theorem names_join_iff {ns : List String} : names (join ns) = ns ↔ ∀ name ∈ ns, IsName name := by
  refine ⟨fun h name hname => ?_, names_join⟩
  rw [← h] at hname
  exact isName_of_mem_names hname

end Path

/-! ## Chains of entries -/

namespace View

/-- True if a chain of entries with these names leads from a node down to the target. -/
inductive Chain (v : View) (target : NodeId) : NodeId → List String → Prop where
  | here : v.Chain target target []
  | down {dir : NodeId} {node : NodeRevision} {entry : Entry} {names : List String} (hnode : v.node dir = some node)
      (hentry : entry ∈ node.children) (hrest : v.Chain target entry.id names) :
      v.Chain target dir (entry.name :: names)

variable {v : View} {id target a b : NodeId} {names : List String}

/-- If no name stands twice, an entry is found by its name. -/
theorem find?_of_nodup {entries : List Entry} (h : (entries.map Entry.name).Nodup) {entry : Entry}
    (hentry : entry ∈ entries) : (entries.find? fun other => other.name = entry.name) = some entry := by
  cases hfind : entries.find? fun other => other.name = entry.name with
  | none => exact absurd (decide_eq_true rfl) (List.find?_eq_none.1 hfind entry hentry)
  | some found =>
    have hname : found.name = entry.name := by simpa using List.find?_some hfind
    exact congrArg some (List.inj_on_of_nodup_map h (List.mem_of_find?_eq_some hfind) hentry hname)

/-- **A CHAIN OF ENTRIES** is found by its names. -/
theorem Chain.way (h : v.Chain target id names) (hv : v.Ordered) : v.Way target id names := by
  induction h with
  | here => exact .here
  | @down dir node entry names hnode hentry _ ih =>
    have hnodup := hv.names hnode
    cases hbody : node.body with
    | file contents => simp [NodeRevision.children, NodeRevision.entries?, hbody] at hentry
    | dir entries =>
      rw [NodeRevision.children_of_dir hbody] at hentry hnodup
      exact .down hnode hbody (find?_of_nodup hnodup hentry) ih

/-- A way is a chain of names. -/
theorem Way.chain (h : v.Way target id names) : v.Chain target id names := by
  induction h with
  | here => exact .here
  | @down dir node entries name entry names hnode hdir hentry _ ih =>
    obtain rfl : entry.name = name := by simpa using List.find?_some hentry
    exact .down hnode (NodeRevision.children_of_dir hdir ▸ List.mem_of_find?_eq_some hentry) ih

/-- Names lead to one node. -/
theorem Way.unique (ha : v.Way a id names) (hb : v.Way b id names) : a = b := by
  induction ha with
  | here =>
    cases hb
    rfl
  | @down dir node entries name entry names hnode hdir hentry _ ih =>
    cases hb with
    | down hnode' hdir' hentry' hrest' =>
      cases hnode.symm.trans hnode'
      cases hdir.symm.trans hdir'
      cases hentry.symm.trans hentry'
      exact ih hrest'

section Follow

open TrailM

variable {σ : Type} [RecordStore σ] [LawfulStore σ]

/-- **NAMES ARE FOLLOWED** along the entries that they stand for. -/
theorem Way.gives_follow (h : v.Way target id names) (hv : v.Consistent) {node : NodeRevision}
    (hnode : v.node id = some node) :
    ∃ below, v.node target = some below ∧
      (Path.follow ⟨id, node⟩ names : TrailM σ Node).Gives v (.ok ⟨target, below⟩) := by
  induction h generalizing node with
  | here => exact ⟨node, hnode, Gives.pure _⟩
  | @down dir node' entries name entry names hnode' hdir hentry _ ih =>
    obtain rfl : node' = node := Option.some.inj (hnode'.symm.trans hnode)
    obtain ⟨child, hchild⟩ := Option.ne_none_iff_exists'.1 (hv.closed (links_of_find? hnode hdir hentry))
    have hfound : (⟨dir, node'⟩ : Node).entry name = .ok entry := Node.entry_eq_ok.2 ⟨entries, hdir, hentry⟩
    have hopen : ((⟨dir, node'⟩ : Node).openChild name : TrailM σ Node).Gives v (.ok ⟨entry.id, child⟩) :=
      Gives.bind_ok (a := entry) (hfound ▸ Gives.ofResult _) (Gives.load hchild)
    obtain ⟨below, hbelow, hfollow⟩ := ih hchild
    exact ⟨below, hbelow, Gives.bind_ok hopen hfollow⟩

/-- Whatever names are followed to, entries of these names lead to. -/
theorem Consistent.way_of_follow (h : v.Consistent) (names : List String) {node : Node} (hnode : v.Current node) :
    (∃ target below, v.Way target node.id names ∧
        (Path.follow node names : TrailM σ Node).Gives v (.ok ⟨target, below⟩)) ∨
      ∃ e, (Path.follow node names : TrailM σ Node).Gives v (.error e) := by
  induction names generalizing node with
  | nil => exact .inl ⟨node.id, node.revision, .here, Gives.pure node⟩
  | cons name names ih =>
    cases hentry : node.entry name with
    | error e => exact .inr ⟨e, Gives.bind_error (Gives.bind_error (hentry ▸ Gives.ofResult (node.entry name)))⟩
    | ok entry =>
      obtain ⟨entries, hdir, hfind⟩ := Node.entry_eq_ok.1 hentry
      obtain ⟨child, hchild⟩ := Option.ne_none_iff_exists'.1 (h.closed (links_of_find? hnode hdir hfind))
      have hopen : (node.openChild name : TrailM σ Node).Gives v (.ok ⟨entry.id, child⟩) :=
        Gives.bind_ok (a := entry) (hentry ▸ Gives.ofResult (node.entry name)) (Gives.load hchild)
      rcases @ih ⟨entry.id, child⟩ hchild with ⟨target, below, hway, hfollow⟩ | ⟨e, hfollow⟩
      · exact .inl ⟨target, below, .down hnode hdir hfind hway, Gives.bind_ok hopen hfollow⟩
      · exact .inr ⟨e, Gives.bind_ok hopen hfollow⟩

end Follow

end View

/-! ## Paths in revisions -/

namespace Filesystem

variable {σ : Type} [RecordStore σ] [LawfulStore σ]

/-- True if a computation gives `a`, unless the store fails. -/
def Answers {α : Type} (fs : Filesystem σ) (m : FilesystemM σ α) (a : α) : Prop :=
  (m fs).1 = .ok a ∨ ∃ e, (m fs).1 = .error e ∧ e.IsFault σ

variable {fs : Filesystem σ}

/-- **COMMITTED NODES ARE OPENED BY THEIR PATHS.** Take a revision, which has a root directory. (a) A chain of entries
    leads from the root to a node that is there, and opening one child after the other along its names gives this node.
    (b) If the names are proper, so does opening the path that is joined from them; no other chain of proper names has the
    same path; and if the node is a file, reading the path gives what the file holds. (c) The joined path is read as these
    names in no other case. (d) Whatever is opened by a path, a chain of entries leads to it whose names are those on the
    path, which are proper. -/
theorem Reachable.committed_paths_open (h : Reachable fs) {number : UInt64} {revision : Revision}
    (hrevision : fs.view.revision number = some revision) :
    ∃ root, fs.view.node revision.root = some root ∧ fs.Answers (revisionRoot number) ⟨revision.root, root⟩ ∧
      (∀ id names, fs.view.Chain id revision.root names → ∃ node, fs.view.node id = some node ∧
        fs.Answers (run (Path.follow ⟨revision.root, root⟩ names)) ⟨id, node⟩ ∧
        ((∀ name ∈ names, Path.IsName name) →
          fs.Answers (run (Path.openFrom ⟨revision.root, root⟩ (Path.join names))) ⟨id, node⟩ ∧
          (∀ id' names', fs.view.Chain id' revision.root names' → (∀ name ∈ names', Path.IsName name) →
            Path.join names' = Path.join names → names' = names ∧ id' = id) ∧
          ∀ contents, node.body = .file contents →
            ∃ data, fs.view.contents contents = some data ∧ fs.Answers (fileContents number (Path.join names)) data) ∧
        (Path.names (Path.join names) = names → ∀ name ∈ names, Path.IsName name)) ∧
      ∀ path id node, (fs.run (Path.openFrom ⟨revision.root, root⟩ path)).1 = .ok ⟨id, node⟩ →
        fs.view.Chain id revision.root (Path.names path) ∧ ∀ name ∈ Path.names path, Path.IsName name := by
  have hhealthy := h.healthy
  have hv := hhealthy.consistent
  have hordered := h.ordered
  obtain ⟨root, hroot, -⟩ := hv.revisionRoot hrevision
  have hofRevision : (Root.ofRevision number : TrailM σ Node).Gives fs.view (.ok ⟨revision.root, root⟩) :=
    TrailM.Gives.bind_ok (TrailM.Gives.revision hrevision) (TrailM.Gives.load hroot)
  refine ⟨root, hroot, hofRevision.run hhealthy.shows, ?_, ?_⟩
  case refine_1 =>
    intro id names hchain
    obtain ⟨node, hnode, hfollow⟩ := (hchain.way hordered).gives_follow (σ := σ) hv hroot
    refine ⟨node, hnode, hfollow.run hhealthy.shows, fun hnames => ?_, Path.names_join_iff.1⟩
    have hopen : (Path.openFrom ⟨revision.root, root⟩ (Path.join names) : TrailM σ Node).Gives fs.view
        (.ok ⟨id, node⟩) := by
      rwa [Path.openFrom, Path.names_join hnames]
    refine ⟨hopen.run hhealthy.shows, ?_, ?_⟩
    · intro id' names' hchain' hnames' hjoin
      -- splitting gives back the names that were joined
      obtain rfl : names' = names := by rw [← Path.names_join hnames', hjoin, Path.names_join hnames]
      exact ⟨rfl, (hchain'.way hordered).unique (hchain.way hordered)⟩
    · intro contents hbody
      have hcurrent : fs.view.Current ⟨id, node⟩ := hnode
      obtain ⟨data, hdata, hcontents⟩ := hv.gives_file (σ := σ) hcurrent hbody
      exact ⟨data, hdata, (hofRevision.bind_ok (hopen.bind_ok hcontents)).run hhealthy.shows⟩
  case refine_2 =>
    intro path id node hrun
    refine ⟨?_, fun _ => Path.isName_of_mem_names⟩
    have hcurrent : fs.view.Current ⟨revision.root, root⟩ := hroot
    -- the walk along the names of the path comes to a node on the way, or to an error
    rcases hv.way_of_follow (σ := σ) (Path.names path) hcurrent with
      ⟨target, below, hway, hgives⟩ | ⟨e, hgives⟩
    · rcases hgives.run hhealthy.shows with hrun' | ⟨e, hrun', -⟩
      · cases hrun.symm.trans hrun'
        exact hway.chain
      · cases hrun.symm.trans hrun'
    · rcases hgives.run hhealthy.shows with hrun' | ⟨e, hrun', -⟩
      · cases hrun.symm.trans hrun'
      · cases hrun.symm.trans hrun'

namespace Sample

/-- What a client does to make a file "a/b", and a file "b" in a directory "a". -/
def makeShadowed : Client.Body :=
  .ofSteps [.cloneRoot "0" (some "r"), .make "r" "a/b" .file none, .make "r" "a" .dir (some "d"),
    .make "d" "b" .file none]

/-- The filesystem after that is committed. -/
def shadowed : Filesystem Records :=
  ((runClient (makeShadowed.run begun.config) .empty begun).2.commit "0" "").2

/-- The root directory of the new revision. -/
def shadowedRoot : NodeRevision :=
  ⟨.empty, [], .dir [⟨"a/b", .ofNode 1⟩, ⟨"a", .ofNode 2⟩]⟩

/-- The filesystem with a slash in a name can be reached. -/
theorem reachable_shadowed : Reachable shadowed :=
  (reachable_begun.step (.trail makeShadowed .empty)).step (.commit "0" "")

/-- Its revision 1 has a cloned root. -/
theorem shadowed_revision : shadowed.view.revision 1 = some ⟨.first 0 1, Revision.propsAt ""⟩ := by
  decide +kernel

/-- The root has both entries. -/
theorem shadowed_root : shadowed.view.node (.first 0 1) = some shadowedRoot := by
  decide +kernel

/-- Two names lead from the root to the file in the directory. -/
theorem shadowed_chain : shadowed.view.Chain (.ofNode 3) (.first 0 1) ["a", "b"] := by
  have hdir : shadowed.view.node (.ofNode 2) = some ⟨.empty, [], .dir [⟨"b", .ofNode 3⟩]⟩ := by decide +kernel
  have hfirst : (⟨"a", .ofNode 2⟩ : Entry) ∈ shadowedRoot.children := List.mem_cons_of_mem _ List.mem_cons_self
  have hsecond : (⟨"b", .ofNode 3⟩ : Entry) ∈ [⟨"b", .ofNode 3⟩] := List.mem_cons_self
  exact .down shadowed_root hfirst (.down hdir hsecond .here)

/-- The path that they make opens this file, which is empty. -/
theorem shadowing_file_opened :
    (shadowed.run (Path.openFrom ⟨.first 0 1, shadowedRoot⟩ "a/b")).1 = .ok ⟨.ofNode 3, ⟨.empty, [], .file none⟩⟩ ∧
      (shadowed.fileContents 1 "a/b").1 = .ok [] := by
  have hfile : shadowed.view.node (.ofNode 3) = some ⟨.empty, [], .file none⟩ := by decide +kernel
  obtain ⟨root, hroot, -, hchains, -⟩ := reachable_shadowed.committed_paths_open shadowed_revision
  obtain rfl : shadowedRoot = root := Option.some.inj (shadowed_root.symm.trans hroot)
  obtain ⟨node, hnode, -, hopens, -⟩ := hchains _ _ shadowed_chain
  cases hfile.symm.trans hnode
  obtain ⟨hopen, -, hread⟩ := hopens (by decide)
  obtain ⟨data, hdata, hread⟩ := hread none rfl
  cases hdata
  refine ⟨hopen.resolve_right ?_, hread.resolve_right ?_⟩
  all_goals exact fun ⟨e, _, hfault⟩ => Records.not_isFault e hfault

/-- **A SLASH IN A NAME.** A committed file that is called "a/b" is not opened by this path. What is opened is the file "b"
    in the directory "a". -/
theorem slash_shadows :
    Reachable shadowed ∧ shadowed.view.revision 1 = some ⟨.first 0 1, Revision.propsAt ""⟩ ∧
      shadowed.view.Chain (.ofNode 1) (.first 0 1) ["a/b"] ∧ shadowed.view.Chain (.ofNode 3) (.first 0 1) ["a", "b"] ∧
      (shadowed.revisionRoot 1).1 = .ok ⟨.first 0 1, shadowedRoot⟩ ∧
      (shadowed.run (Path.openFrom ⟨.first 0 1, shadowedRoot⟩ "a/b")).1.map Node.id = .ok (.ofNode 3) := by
  have hentry : (⟨"a/b", .ofNode 1⟩ : Entry) ∈ shadowedRoot.children := List.mem_cons_self
  refine ⟨reachable_shadowed, shadowed_revision, .down shadowed_root hentry .here, shadowed_chain, ?_, ?_⟩
  all_goals decide +kernel

end Sample

end Filesystem

end VersionedTree

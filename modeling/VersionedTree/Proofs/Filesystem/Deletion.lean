import VersionedTree.Proofs.Filesystem.Owners
import VersionedTree.Proofs.Filesystem.Traces
import VersionedTree.Proofs.Tree.Coherence

/-!
# Deletion — what the removal of an entry checks, and what it leaves behind

An entry is removed from a directory that is mutable, and only if no changes are lost by that: a child that is a mutable
directory has to be empty. Whatever else the child is, it stays where it is, and so does everything below it.

* **`View.Deletes`** — the result, in the order of the checks. **`View.exists_deletes`** — there always is one.
* **`Comes.deleteStep`** and **`Looks.deleteStep_refused`** — it is the result of the operation, on the node as its record
  is. The handle may be an old one.
* **`View.lost_of_delete`** — the removed entry is the only thing that refers to something else than before.
* **`Reachable.delete_exact`** — the theorem, in any trail over any filesystem that can come about.
-/

namespace VersionedTree

/-! ## What is checked -/

/-- True of a mutable directory that is not empty. -/
def NodeRevision.HoldsChanges (node : NodeRevision) : Prop :=
  node.isMutable = true ∧ ∃ entries, node.body = .dir entries ∧ entries ≠ []

/-- A handle holds changes just if its node does. -/
theorem Node.holdsChanges_iff {node : Node} : node.holdsChanges = true ↔ node.revision.HoldsChanges := by
  rw [holdsChanges, NodeRevision.HoldsChanges, Bool.and_eq_true]
  refine and_congr_right fun _ => ?_
  cases hbody : node.revision.body with
  | dir entries => simp [NodeRevision.entries?, hbody]
  | file contents => simp [NodeRevision.entries?, hbody]

namespace View

/-- The result of removing the entry of a name from the node `id`. The first check that fails decides. -/
inductive Deletes (v : View) (id : NodeId) (name : String) : Except Error Unit → Prop where
  | notDirectory {node : NodeRevision} (hnode : v.node id = some node) (hfile : node.kind = .file) :
      v.Deletes id name (.error (.notDirectory id))
  | notMutable {node : NodeRevision} (hnode : v.node id = some node) (hdir : node.kind = .dir)
      (himmutable : node.isMutable = false) : v.Deletes id name (.error (.notMutable id))
  | noSuchEntry {node : NodeRevision} {entries : List Entry} (hnode : v.node id = some node)
      (hdir : node.body = .dir entries) (hmutable : node.isMutable = true)
      (hnone : ∀ entry ∈ entries, entry.name ≠ name) : v.Deletes id name (.error (.noSuchEntry name))
  | dirNotEmpty {node child : NodeRevision} {entries : List Entry} {entry : Entry} (hnode : v.node id = some node)
      (hdir : node.body = .dir entries) (hmutable : node.isMutable = true)
      (hentry : (entries.find? fun entry => entry.name = name) = some entry) (hchild : v.node entry.id = some child)
      (hfull : child.HoldsChanges) : v.Deletes id name (.error (.dirNotEmpty name))
  | done {node child : NodeRevision} {entries : List Entry} {entry : Entry} (hnode : v.node id = some node)
      (hdir : node.body = .dir entries) (hmutable : node.isMutable = true)
      (hentry : (entries.find? fun entry => entry.name = name) = some entry) (hchild : v.node entry.id = some child)
      (hfree : ¬ child.HoldsChanges) : v.Deletes id name (.ok ())

variable {v : View} {id : NodeId} {node : NodeRevision} {name : String}

/-- Whatever deleting comes to, there is a node to delete from. -/
theorem Deletes.exists_node {result : Except Error Unit} (h : v.Deletes id name result) :
    ∃ node, v.node id = some node := by
  cases h <;> exact ⟨_, by assumption⟩

/-- **EVERY DELETION HAS A RESULT**, where entries stand for nodes that are there. -/
theorem exists_deletes (hv : v.Consistent) (hnode : v.node id = some node) (name : String) :
    ∃ result, v.Deletes id name result := by
  cases hbody : node.body with
  | file contents => exact ⟨_, .notDirectory hnode (congrArg Body.kind hbody)⟩
  | dir entries =>
    cases hmutable : node.isMutable with
    | false => exact ⟨_, .notMutable hnode (congrArg Body.kind hbody) hmutable⟩
    | true =>
      cases hfind : entries.find? fun entry => entry.name = name with
      | none =>
        refine ⟨_, .noSuchEntry hnode hbody hmutable fun entry hentry hname => ?_⟩
        exact List.find?_eq_none.1 hfind entry hentry (decide_eq_true hname)
      | some entry =>
        obtain ⟨child, hchild⟩ := Option.ne_none_iff_exists'.1 (hv.closed (links_of_find? hnode hbody hfind))
        by_cases hholds : child.HoldsChanges
        · exact ⟨_, .dirNotEmpty hnode hbody hmutable hfind hchild hholds⟩
        · exact ⟨_, .done hnode hbody hmutable hfind hchild hholds⟩

end View

/-! ## The operation -/

namespace TrailM

variable {σ β : Type} [RecordStore σ] [LawfulStore σ] {s : Trail Records} {node : Node} {entries : List Entry}
  {name : String}

/-- The entries of a directory are seen. -/
theorem Looks.entries_of_dir (h : node.revision.body = .dir entries) :
    (TrailM.ofResult node.entries : TrailM σ (List Entry)).Looks s (fun found => found = entries) fun _ => False := by
  rw [Node.entries_eq_ok.2 h]
  exact Looks.pure rfl

/-- On a mutable directory, both of the first checks pass. -/
theorem Comes.checked {f : List Entry → TrailM σ β} {Q : β → Trail Records → Prop} {E : Error → Trail Records → Prop}
    (hdir : node.revision.body = .dir entries) (hmutable : node.revision.isMutable = true) (h : (f entries).Comes s Q E) :
    (do let entries ← TrailM.ofResult node.entries; node.requireMutable; f entries : TrailM σ β).Comes s Q E := by
  refine Comes.after (Looks.entries_of_dir hdir) ?_ fun _ he => he.elim
  rintro _ rfl
  have hcheck : (node.requireMutable : TrailM σ Unit) = Pure.pure () := if_pos hmutable
  rw [hcheck]
  exact Comes.after (Looks.pure trivial) (fun _ (_ : True) => h) fun _ (he : False) => he.elim

/-- What is refused stages nothing. -/
theorem Looks.deleteStep_refused {e : Error} (hnode : s.records.view.node node.id = some node.revision)
    (h : s.records.view.Deletes node.id name (.error e)) :
    (node.deleteStep name : TrailM σ (Unit × Node)).Looks s (fun _ => False) fun e' => e' = e := by
  -- one case for each check, in the order of the checks
  cases h with
  | notDirectory hnode' hfile =>
    cases Option.some.inj (hnode.symm.trans hnode')
    have herror : node.entries = .error (.notDirectory node.id) := by
      cases hbody : node.revision.body with
      | dir entries => cases (congrArg Body.kind hbody).symm.trans hfile
      | file contents => rw [Node.entries, NodeRevision.entries?, hbody]
    refine Looks.bind (Q := fun _ => False) ?_ (fun _ hfound => hfound.elim) fun _ he => he
    rw [herror]
    exact Looks.throw rfl
  | notMutable hnode' hdir himmutable =>
    cases Option.some.inj (hnode.symm.trans hnode')
    obtain ⟨entries, hbody⟩ := NodeRevision.body_of_kind_dir hdir
    refine Looks.bind (Looks.entries_of_dir hbody) ?_ fun _ he => he.elim
    rintro _ rfl
    have hcheck : (node.requireMutable : TrailM σ Unit) = MonadExcept.throw (.notMutable node.id) :=
      if_neg (Bool.eq_false_iff.1 himmutable)
    rw [hcheck]
    refine Looks.bind (Q := fun _ => False) (E := fun e => e = .notMutable node.id) (Looks.throw rfl) ?_ fun _ he => he
    exact fun _ hfound => hfound.elim
  | @noSuchEntry _ entries hnode' hdir hmutable hnone =>
    cases Option.some.inj (hnode.symm.trans hnode')
    have hfind : (entries.find? fun entry => entry.name = name) = none :=
      List.find?_eq_none.2 fun entry hentry hname => hnone entry hentry (of_decide_eq_true hname)
    refine Comes.checked hdir hmutable ?_
    rw [hfind]
    exact Looks.throw rfl
  | dirNotEmpty hnode' hdir hmutable hentry hchild hfull =>
    cases Option.some.inj (hnode.symm.trans hnode')
    refine Comes.checked hdir hmutable ?_
    rw [hentry]
    refine Looks.bind (Looks.load_of_some hchild) ?_ fun _ he => he.elim
    rintro _ rfl
    rw [if_pos (Node.holdsChanges_iff.2 hfull)]
    exact Looks.throw rfl

/-- What is not refused is done. -/
theorem Comes.deleteStep {entry : Entry} {child : NodeRevision} (hdir : node.revision.body = .dir entries)
    (hmutable : node.revision.isMutable = true) (hentry : (entries.find? fun entry => entry.name = name) = some entry)
    (hchild : s.records.view.node entry.id = some child) (hfree : ¬ child.HoldsChanges) :
    (node.deleteStep name : TrailM σ (Unit × Node)).Comes s
      (fun _ s' => s' = s.stage (NodeRecord.key node.id)
        (some (NodeRecord.encode { node.revision with body := .dir (entries.eraseP fun entry => entry.name = name) })))
      fun _ _ => False := by
  refine Comes.checked hdir hmutable ?_
  rw [hentry]
  refine Comes.after (Looks.load_of_some hchild) ?_ fun _ he => he.elim
  rintro _ rfl
  rw [if_neg fun hholds => hfree (Node.holdsChanges_iff.1 hholds)]
  exact Comes.andThen (Stages.put _ _) fun _ => Comes.pure rfl

/-- If anything goes wrong, nothing was put by then. -/
theorem Yields.deleteStep (r : Records) (node : Node) (name : String) :
    (node.deleteStep name : TrailM σ (Unit × Node)).Yields r (fun _ _ => True) fun r' => r' = r := by
  refine Yields.after Asks.ofResult (fun entries _ => Yields.after (Asks.requireMutable node) (fun _ _ => ?_) rfl) rfl
  split
  case h_1 => exact Yields.throw rfl
  case h_2 entry _ =>
    refine Yields.after (Asks.load entry.id) (fun child _ => ?_) rfl
    split
    case isTrue => exact Yields.throw rfl
    case isFalse => exact Yields.andThen (Yields.pure trivial)

end TrailM

/-! ## The operation through a handle -/

section Handle

variable {σ α : Type} [RecordStore σ] [LawfulStore σ] {held : Node} {revision : NodeRevision} {name : String}

/-- If a step changes no record when it fails, neither does the operation. -/
theorem ClientM.records_of_change_error {step : Node → TrailM σ (α × Node)}
    (h : ∀ node r, (step node).Yields r (fun _ _ => True) fun r' => r' = r) {t : Trail σ}
    (hvalid : LawfulStore.Valid t.store) {e : Error} (herror : (Node.change step held t).1.1 = .error e) :
    (Node.change step held t).2.records = t.records := by
  rcases TrailM.Asks.load held.id t hvalid rfl with ⟨fresh, t₁, hload, hvalid₁, hrecords, -⟩ | ⟨_, t₁, hload, -, hrecords⟩
  · rw [change_of_load_ok hload] at herror ⊢
    rcases h fresh t₁.records t₁ hvalid₁ rfl with ⟨result, t₂, hrun, -, -⟩ | ⟨_, t₂, hrun, -, hrecords₂⟩
    · rw [lift_bind_of_ok hrun] at herror
      cases herror
    · rw [lift_bind_of_error hrun]
      exact hrecords₂.trans hrecords
  · rw [change_of_load_error hload]
    exact hrecords

/-- Deleting is refused with the error that comes first. -/
theorem Node.delete_refused {s : Trail Records} {e : Error} (h : s.records.view.Deletes held.id name (.error e)) :
    (Node.delete name : ClientM Node σ Unit).Comes held s (fun _ _ _ => False) fun e' _ _ => e' = e := by
  obtain ⟨node, hnode⟩ := h.exists_node
  refine ClientM.Comes.change hnode (TrailM.Comes.mono (TrailM.Looks.deleteStep_refused hnode h) ?_ ?_)
  · exact fun _ _ hq => hq.2
  · exact fun _ _ he => he.2

/-- Deleting takes the entry away if nothing refuses it. -/
theorem Node.delete_done {s : Trail Records} {entries : List Entry} {entry : Entry} {child : NodeRevision}
    (hrecord : s.records.view.node held.id = some revision) (hdir : revision.body = .dir entries)
    (hmutable : revision.isMutable = true) (hentry : (entries.find? fun entry => entry.name = name) = some entry)
    (hchild : s.records.view.node entry.id = some child) (hfree : ¬ child.HoldsChanges) :
    (Node.delete name : ClientM Node σ Unit).Comes held s
      (fun _ _ s' => s' = s.stage (NodeRecord.key held.id)
        (some (NodeRecord.encode { revision with body := .dir (entries.eraseP fun entry => entry.name = name) })))
      fun _ _ _ => False :=
  ClientM.Comes.change hrecord (TrailM.Comes.deleteStep hdir hmutable hentry hchild hfree)

/-- **WHAT A DELETION COMES TO** is the result of the checks on the records as they are, unless the store fails. -/
theorem Node.delete_result {t : Trail σ} (hvalid : LawfulStore.Valid t.store) {result : Except Error Unit}
    (h : t.records.view.Deletes held.id name result) :
    (Node.delete name held t).1.1 = result ∨ ∃ e, (Node.delete name held t).1.1 = .error e ∧ e.IsFault σ := by
  have hcomes : (Node.delete name : ClientM Node σ Unit).Comes held t.plain (fun _ _ _ => result = .ok ())
      fun e _ _ => result = .error e := by
    cases result with
    | error e => exact ClientM.Comes.mono (delete_refused h) (fun _ _ _ hq => hq.elim) fun _ _ _ he => he ▸ rfl
    | ok a =>
      cases h with
      | done hnode hdir hmutable hentry hchild hfree =>
        exact ClientM.Comes.mono (delete_done hnode hdir hmutable hentry hchild hfree) (fun _ _ _ _ => rfl)
          fun _ _ _ he => he.elim
  exact hcomes.result (Trail.over_plain hvalid)

/-- If no name stands twice, the other entries have other names. -/
theorem Node.other_names {before after : List Entry} {entry : Entry}
    (h : ((before ++ entry :: after).map Entry.name).Nodup) : ∀ other ∈ before ++ after, other.name ≠ entry.name := by
  rw [List.map_append, List.map_cons, List.nodup_middle, List.nodup_cons, ← List.map_append] at h
  intro other hother hsame
  exact h.1 (hsame ▸ List.mem_map_of_mem hother)

/-- **WHAT A DELETION LEAVES BEHIND**: the entry is missing, and that is all. -/
theorem Node.records_of_delete {t : Trail σ} (hvalid : LawfulStore.Valid t.store) (hnames : t.records.view.Ordered)
    (hdone : t.records.view.Deletes held.id name (.ok ())) (hok : (Node.delete name held t).1.1 = .ok ()) :
    ∃ node before entry after child, t.records.view.node held.id = some node ∧
      node.body = .dir (before ++ entry :: after) ∧ entry.name = name ∧
      (∀ other ∈ before ++ after, other.name ≠ name) ∧ t.records.view.node entry.id = some child ∧ ¬ child.HoldsChanges ∧
      (∀ key, (Node.delete name held t).2.records.find? key = if key = NodeRecord.key held.id then
        some (NodeRecord.encode { node with body := .dir (before ++ after) }) else t.records.find? key) ∧
      (Node.delete name held t).2.records.view = t.records.view.setNode held.id { node with body := .dir (before ++ after) } := by
  cases hdone with
  | @done node child entries entry hnode hdir hmutable hentry hchild hfree =>
    obtain rfl : entry.name = name := by simpa using List.find?_some hentry
    obtain ⟨before, after, rfl⟩ := List.append_of_mem (List.mem_of_find?_eq_some hentry)
    have hothers := other_names (NodeRevision.children_of_dir hdir ▸ hnames.names hnode)
    have herase : (before ++ entry :: after).eraseP (fun other => other.name = entry.name) = before ++ after := by
      have hself : decide (entry.name = entry.name) = true := decide_eq_true rfl
      rw [List.eraseP_append_right, List.eraseP_cons, hself, cond_true]
      exact fun other hother hsame => hothers other (List.mem_append_left _ hother) (of_decide_eq_true hsame)
    refine ⟨node, before, entry, after, child, hnode, hdir, rfl, hothers, hchild, hfree, ?_⟩
    rw [← herase]
    rcases delete_done (σ := σ) (s := t.plain) hnode hdir hmutable hentry hchild hfree t (Trail.over_plain hvalid) with
      ⟨_, held', t', s', hrun, hover, rfl⟩ | ⟨e, held', t', s', hrun, -, he⟩
    · have hrecords : t'.records = t.records.applyWrite (.put (NodeRecord.key held.id) _) :=
        hover.records.trans (Trail.records_stage ..)
      rw [hrun, hrecords]
      exact ⟨fun key => Records.find?_put .., Records.view_putNode _ _ ((Records.storable_of_view hnode).withEntries _)⟩
    · rw [hrun] at hok
      cases hok

end Handle

/-! ## What loses its reference -/

namespace View

variable {v : View} {dir id : NodeId} {node : NodeRevision} {entry : Entry}

/-- Every entry of a directory refers to its child. -/
theorem exists_refersTo (hnode : v.node dir = some node) (hentry : entry ∈ node.children) :
    ∃ ref, v.RefersTo ref entry.id := by
  obtain ⟨position, hposition⟩ := List.getElem?_of_mem hentry
  exact ⟨.entry dir position, node, entry, hnode, hposition, rfl⟩

/-- **NOTHING ELSE IS LOST.** If an entry is removed, only the node that it stands for can have nothing left that refers to
    it. -/
theorem lost_of_delete {before after : List Entry} (hnode : v.node dir = some node)
    (hdir : node.body = .dir (before ++ entry :: after)) {ref : Reference} (href : v.RefersTo ref id)
    (hlost : ∀ ref, ¬ (v.setNode dir { node with body := .dir (before ++ after) }).RefersTo ref id) : id = entry.id := by
  cases ref with
  | root txn => exact absurd href (hlost (.root txn))
  | entry other position =>
    obtain ⟨node', removed, hnode', hposition, rfl⟩ := href
    by_cases hother : other = dir
    case neg =>
      exact absurd ⟨node', removed, (setNode_node_of_ne hother).trans hnode', hposition, rfl⟩ (hlost (.entry other position))
    case pos =>
      subst hother
      cases hnode.symm.trans hnode'
      rw [NodeRevision.children_of_dir hdir] at hposition
      have hremoved : removed ∈ before ++ entry :: after := List.mem_of_getElem? hposition
      rcases List.mem_cons.1 (List.perm_middle.mem_iff.1 hremoved) with rfl | hkept
      · rfl
      · -- the entry is still there, at this position or at the one before
        have hchildren : { node with body := .dir (before ++ after) }.children = before ++ after :=
          NodeRevision.children_of_dir rfl
        obtain ⟨ref, href⟩ := exists_refersTo (setNode_node_self v other _) (hchildren.symm ▸ hkept)
        exact absurd href (hlost ref)

end View

/-! ## Deletions in a trail -/

namespace Filesystem

variable {σ : Type} [RecordStore σ] [LawfulStore σ] {fs : Filesystem σ}

/-- The trail of a client over a filesystem, when it has taken some steps. -/
def trailAfter (fs : Filesystem σ) (body : Client.Body) (handles : Client.Handles) : Trail σ :=
  (body.run fs.config handles (Trail.start fs.store)).2

/-- What it shows is consistent and in order. -/
theorem Reachable.trailAfter_shows (h : Reachable fs) (body : Client.Body) (handles : Client.Handles) :
    (fs.trailAfter body handles).Shows fs.records (fs.trailAfter body handles).records.view ∧
      (fs.trailAfter body handles).records.view.Consistent ∧ (fs.trailAfter body handles).records.view.Ordered := by
  have hv := h.healthy.consistent
  obtain ⟨hshows, hsteps⟩ := Client.Body.run_shows hv h.healthy.shows.start body
  exact ⟨hshows, hv.evolves hsteps.evolves, h.ordered.evolves hv hsteps.evolves⟩

/-- **A DELETION DOES WHAT ITS CHECKS ALLOW.** Take any trail over a filesystem that can come about, after any steps in it,
    and any handle, old or not, on a node that has a record. Then (a) the result of removing the entry of a name is that of
    the checks, made on the records as the trail sees them, unless the store fails; (b) no record is changed if there is an
    error; (c) if there is none, the directory has its other entries in their order, and its properties, flags and kind as
    before; every other record of every table is what it was, that of the child included; and if a mutable node was
    referred to by an entry or a transaction before, and by nothing after, then it is the child, which is a file or an
    empty directory. -/
theorem Reachable.delete_exact (h : Reachable fs) (body : Client.Body) (handles : Client.Handles) {t : Trail σ}
    (ht : t = fs.trailAfter body handles) (held : Node) (hrecord : t.records.find? (NodeRecord.key held.id) ≠ none)
    (name : String) :
    ((∀ result, (Node.delete name held t).1.1 = result ↔ t.records.view.Deletes held.id name result) ∨
        ∃ e, (Node.delete name held t).1.1 = .error e ∧ e.IsFault σ) ∧
      (∀ e, (Node.delete name held t).1.1 = .error e → (Node.delete name held t).2.records = t.records) ∧
      ((Node.delete name held t).1.1 = .ok () → ∃ node before entry after,
        t.records.view.node held.id = some node ∧ node.body = .dir (before ++ entry :: after) ∧ entry.name = name ∧
          entry.id ≠ held.id ∧ (∀ other ∈ before ++ after, other.name ≠ name) ∧
          (Node.delete name held t).2.records.view.node held.id = some { node with body := .dir (before ++ after) } ∧
          (∀ key, key ≠ NodeRecord.key held.id →
            (Node.delete name held t).2.records.find? key = t.records.find? key) ∧
          ∀ id lost, t.records.view.node id = some lost → lost.isMutable = true →
            (∃ ref, t.records.view.RefersTo ref id) → (∀ ref, ¬ (Node.delete name held t).2.records.view.RefersTo ref id) →
            id = entry.id ∧ (lost.kind = .file ∨ lost.body = .dir [])) := by
  subst ht
  obtain ⟨hshows, hv, hordered⟩ := h.trailAfter_shows body handles
  generalize fs.trailAfter body handles = t at *
  obtain ⟨node, hnode⟩ := Option.ne_none_iff_exists'.1 ((Records.find?_node_ne_none hshows.sound held.id).1 hrecord)
  have hresult : (∀ result, (Node.delete name held t).1.1 = result ↔ t.records.view.Deletes held.id name result) ∨
      ∃ e, (Node.delete name held t).1.1 = .error e ∧ e.IsFault σ :=
    Error.result_iff (View.exists_deletes hv hnode name) fun _ => Node.delete_result hshows.valid
  refine ⟨hresult, fun e => ClientM.records_of_change_error (fun node r => .deleteStep r node name) hshows.valid, ?_⟩
  intro hok
  have hdone : t.records.view.Deletes held.id name (.ok ()) := by
    rcases hresult with hiff | ⟨e, herror, -⟩
    · exact (hiff _).1 hok
    · cases hok.symm.trans herror
  -- the entry is the only one of its name, so the list of entries splits at it
  obtain ⟨node, before, entry, after, child, hnode, hdir, hname, hothers, hchild, hfree, hrecords, hview⟩ :=
    Node.records_of_delete hshows.valid hordered hdone hok
  have hlink : t.records.view.Links held.id entry.id := by
    refine ⟨node, entry, hnode, ?_, rfl⟩
    rw [NodeRevision.children_of_dir hdir]
    exact List.mem_append_right before List.mem_cons_self
  refine ⟨node, before, entry, after, hnode, hdir, hname, ?_, hothers, ?_, ?_, ?_⟩
  · intro hsame
    exact hv.not_leads_up hlink (hsame ▸ .refl)
  · rw [hview]
    exact View.setNode_node_self ..
  · intro key hkey
    rw [hrecords, if_neg hkey]
  · rintro id lost hlost hmutable ⟨ref, href⟩ hnone
    rw [hview] at hnone
    -- the one reference that is gone is that of the entry
    obtain rfl := View.lost_of_delete hnode hdir href hnone
    cases hchild.symm.trans hlost
    refine ⟨rfl, ?_⟩
    cases hbody : child.body with
    | file contents => exact .inl (congrArg Body.kind hbody)
    | dir entries =>
      refine .inr (congrArg Body.dir (Classical.byContradiction fun hne => ?_))
      exact hfree ⟨hmutable, entries, hbody, hne⟩

/-- The file of an open transaction is removed from the root directory, through a handle that still has the directory as it
    was when nobody could change it. -/
theorem Sample.file_deleted :
    (Node.delete "a" ⟨.first 0 1, .emptyDir⟩ (edited.trailAfter .finish .empty)).1.1 = .ok () ∧
      (Node.delete "a" ⟨.first 0 1, .emptyDir⟩ (edited.trailAfter .finish .empty)).2.records.view.node (.first 0 1) =
        some (.newMutable .dir "0") := by
  have hroot : (edited.trailAfter .finish .empty).records.view.node (.first 0 1) =
      some ⟨.empty, [.mutable "0"], .dir [⟨"a", .ofNode 1⟩]⟩ := by decide +kernel
  have hfile : (edited.trailAfter .finish .empty).records.view.node (.ofNode 1) =
      some ⟨.empty, [.mutable "0.1"], .file none⟩ := by decide +kernel
  have hrecord : (edited.trailAfter .finish .empty).records.find? (NodeRecord.key (.first 0 1)) ≠ none := by
    obtain ⟨value, hfind, -⟩ := Records.view_node_eq_some.1 hroot
    exact Option.ne_none_iff_exists'.2 ⟨value, hfind⟩
  have hdeletes : (edited.trailAfter .finish .empty).records.view.Deletes (.first 0 1) "a" (.ok ()) :=
    .done hroot rfl rfl rfl hfile (by rintro ⟨-, entries, hbody, -⟩; cases hbody)
  obtain ⟨hresult, -, hdone⟩ := reachable_edited.delete_exact .finish .empty rfl ⟨.first 0 1, .emptyDir⟩ hrecord "a"
  have hok := (hresult.resolve_right (fun ⟨e, _, hfault⟩ => Records.not_isFault e hfault) _).2 hdeletes
  refine ⟨hok, ?_⟩
  obtain ⟨node, before, entry, after, hnode, hdir, -, -, -, hafter, -, -⟩ := hdone hok
  cases hroot.symm.trans hnode
  rcases List.append_eq_singleton_iff.1 (Body.dir.inj hdir).symm with ⟨rfl, hentries⟩ | ⟨-, hentries⟩
  · cases hentries
    exact hafter
  · cases hentries

end Filesystem

end VersionedTree

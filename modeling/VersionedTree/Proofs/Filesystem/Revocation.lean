import VersionedTree.Proofs.Filesystem.Handles
import VersionedTree.Proofs.Filesystem.Handouts
import VersionedTree.Proofs.Tree.Failures

/-!
# Revocation — handles after a commit

Handles outlive the transaction that they were obtained for. A commit freezes the tree that it finds, so from then on
whatever is tried through a handle on a node of this tree is refused. A node that was deleted from the tree before is
not found, and stays mutable for good; but no tree has an entry for it, so whatever is done through a handle on it is
not seen anywhere.

* **`Ends.refused`** — every operation through a handle on an immutable node is refused.
* **`Edited.commit_freezes`** — a commit leaves no mutable node in the tree that it finds.
* **`Holding.refused_after_commit`** — the theorem, for all handles that were obtained for the transaction.
* **`Sample.deleted_node_stays_mutable`** — a node that was deleted before the commit.
-/

namespace VersionedTree

variable {σ : Type} [RecordStore σ] [LawfulStore σ]

/-- True if an operation works on nodes of this kind, or asks for the kind only after it has found the node mutable. -/
def Client.Step.Suits (kind : Kind) : Client.Step → Prop
  | setContents _ _ => kind = .file
  | delete _ _ => kind = .dir
  | _ => True

/-! ## Operations that are refused -/

/-- That a node is immutable is no fault of the store. -/
theorem Error.not_isFault_notMutable (id : NodeId) : ¬ (Error.notMutable id).IsFault σ := by
  rintro ⟨-, cause, hcause⟩
  cases hcause

section Refused

variable {v : View} {handles : Client.Handles} {h : String} {node : Node} {m : NodeRevision} {α : Type}

/-- Nothing comes after the check that a node is mutable, if it is not. -/
theorem TrailM.Ends.requireMutable_refused {f : Unit → TrailM σ α} (himmutable : node.revision.isMutable = false) :
    (node.requireMutable >>= f).Ends v (fun _ _ => False)
      (fun e w => w = v ∧ (e.IsFault σ ∨ e = .notMutable node.id)) := by
  refine Ends.after (Reads.requireMutable node) ?_ fun e he => ⟨rfl, .inr he.2⟩
  intro _ hmutable
  cases himmutable.symm.trans hmutable

/-- **EVERY OPERATION IS REFUSED** on a node that is immutable, and nothing is changed. -/
theorem ClientM.Ends.refused (config : Config) {step : Client.Step} (hthrough : step.through = some h)
    (hfind : handles.find? h = some node) (hnode : v.node node.id = some m) (himmutable : m.isMutable = false)
    (hsuits : step.Suits m.kind) :
    (step.run config : ClientM Client.Handles σ Client.Answer).Ends handles v (fun _ _ _ => False)
      (fun e _ w => w = v ∧ (e.IsFault σ ∨ e = .notMutable node.id)) := by
  -- the handle is loaded afresh, so the check is made on the record and not on what was held
  have hrefused : ∀ {α : Type} {step : Node → TrailM σ (α × Node)} {f : α → ClientM Client.Handles σ Client.Answer},
      (∀ fresh : Node, fresh.revision = m → (step fresh).Ends v (fun _ _ => False)
        (fun e w => w = v ∧ (e.IsFault σ ∨ e = .notMutable fresh.id))) →
      (Client.through h node (Node.change step) >>= f).Ends handles v (fun _ _ _ => False)
        (fun e _ w => w = v ∧ (e.IsFault σ ∨ e = .notMutable node.id)) := by
    intro α step f hstep
    refine ClientM.Ends.changeFails ?_ fun e he => he.imp_right fun hnone => ?_
    · intro fresh hid hfresh
      rw [View.Current, hid] at hfresh
      exact hid ▸ hstep fresh (Option.some.inj (hfresh.symm.trans hnode))
    · exact absurd (hnode.symm.trans hnone.1) (Option.some_ne_none m)
  cases step with
  | cloneChild _ name keep =>
    cases hthrough
    refine ClientM.Ends.withHandle hfind (hrefused fun fresh hfresh => ?_)
    exact TrailM.Ends.requireMutable_refused (hfresh ▸ himmutable)
  | make _ name kind keep =>
    cases hthrough
    refine ClientM.Ends.withHandle hfind (hrefused fun fresh hfresh => ?_)
    exact TrailM.Ends.requireMutable_refused (hfresh ▸ himmutable)
  | setProps _ props =>
    cases hthrough
    refine ClientM.Ends.withHandle hfind (hrefused fun fresh hfresh => ?_)
    exact TrailM.Ends.requireMutable_refused (hfresh ▸ himmutable)
  | delete _ name =>
    cases hthrough
    obtain ⟨entries, hdir⟩ := NodeRevision.body_of_kind_dir hsuits
    refine ClientM.Ends.withHandle hfind (hrefused fun fresh hfresh => ?_)
    have hentries : fresh.entries = .ok entries := Node.entries_eq_ok.2 (hfresh ▸ hdir)
    have hlook : (TrailM.ofResult fresh.entries : TrailM σ (List Entry)).Reads v (fun _ => True) fun _ => False := by
      refine TrailM.Reads.ofResult (fun _ _ => trivial) fun e he => ?_
      cases hentries.symm.trans he
    refine TrailM.Ends.after hlook (fun _ _ => ?_) fun _ he => he.elim
    exact TrailM.Ends.requireMutable_refused (hfresh ▸ himmutable)
  | setContents _ data =>
    cases hthrough
    obtain ⟨contents, hfile⟩ := NodeRevision.body_of_kind_file hsuits
    refine ClientM.Ends.withHandle hfind (hrefused fun fresh hfresh => ?_)
    rw [Node.setContentsStep, hfresh, hfile]
    exact TrailM.Ends.requireMutable_refused (hfresh ▸ himmutable)
  | _ => cases hthrough

end Refused

/-! ## Commits -/

namespace View

variable {v w : View} {name date : String} {number : UInt64}

/-- A mutable node that a root leads to can be edited from there. -/
theorem Consistent.editable_of_leads (h : v.Consistent) {root id : NodeId} (hleads : v.Leads root id)
    (hmutable : v.IsMutable id) : v.Editable root id := by
  induction hleads with
  | refl => exact .root hmutable
  | tail _ hlink ih => exact .child (ih (h.mutable_of_child hlink hmutable)) hlink hmutable

/-- **A COMMIT** ends the transaction and freezes its tree. -/
theorem Edited.commit_freezes (h : v.Edited (.commit name date number) w) (hv : v.Consistent) :
    w.txn name = none ∧ ∃ txn, v.txn name = some txn ∧
      ∀ id, v.Leads txn.root id → ∃ node, w.node id = some node ∧ node.isMutable = false := by
  cases h with
  | @commit _ _ txn htxn _ _ =>
    refine ⟨by simp, txn, htxn, fun id hleads => ?_⟩
    obtain ⟨node, hnode⟩ := Option.ne_none_iff_exists'.1 (hv.node_of_leads (hv.txnRoot_exists htxn) hleads)
    show ∃ node, (v.freeze txn.root).node id = some node ∧ _
    by_cases hreach : v.Editable txn.root id
    · refine ⟨node.freeze, ?_, node.isMutable_freeze⟩
      rw [freeze, node_freezeAll_of_mem hreach, hnode]
      rfl
    · refine ⟨node, (node_freezeAll_of_not_mem hreach).trans hnode, Bool.eq_false_iff.2 fun hmutable => hreach ?_⟩
      -- all nodes above a mutable one are mutable, so the walk of the commit has come to it
      exact hv.editable_of_leads hleads ⟨node, hnode, hmutable⟩

/-- A transaction that was closed is never opened again. -/
theorem Used.txn_eq_none (h : v.Used (.txn name)) (hv : v.Consistent) (hclosed : v.txn name = none) (hw : v.Evolves w) :
    w.txn name = none := by
  induction hw with
  | refl => exact hclosed
  | tail hevolves hedit ih =>
    obtain ⟨edit, hedit⟩ := hedit
    exact hedit.txn_eq_none (hv.evolves hevolves) (h.evolves hv hevolves) ih

/-- The tree of an immutable node is there for good. -/
theorem Keeps.hasTree (h : v.Keeps w) (hv : v.Consistent) {root : NodeId} {node : NodeRevision}
    (hroot : v.node root = some node) (himmutable : node.isMutable = false) {T : Tree} :
    w.HasTree root T ↔ v.HasTree root T := by
  refine hv.hasTree_of_leads h.rep fun id hleads => ?_
  obtain ⟨below, hbelow, hbelowImmutable⟩ := hv.immutable_of_leads hroot himmutable hleads
  rw [hbelow]
  exact h.node id below hbelow hbelowImmutable

end View

/-! ## Handles after a commit -/

namespace Client.Taken

variable {base : Records} {s : Client.Taken σ} {handle name : String} {node : Node}

/-- A step through a handle on an immutable node is refused, and it stages nothing. -/
theorem refused (hs : s.trail.Shows base s.before) (hthrough : s.step.through = some handle)
    (hfind : s.held.find? handle = some node) {revision : NodeRevision} (hnode : s.before.node node.id = some revision)
    (himmutable : revision.isMutable = false) (hsuits : s.step.Suits revision.kind) :
    s.after = s.before ∧
      ((s.result = .error (.notMutable node.id) ∧ s.trailAfter.staged = s.trail.staged) ∨
        ∃ e, s.result = .error e ∧ e.IsFault σ) := by
  rcases of_ends hs (ClientM.Ends.refused s.config hthrough hfind hnode himmutable hsuits) with
    ⟨_, -, hfalse⟩ | ⟨e, hresult, hsame, hfault | rfl⟩
  · exact hfalse.elim
  · exact ⟨hsame, .inr ⟨e, hresult, hfault⟩⟩
  · refine ⟨hsame, .inl ⟨hresult, ?_⟩⟩
    have hrun : s.step.run s.config s.held s.trail = ((.error (.notMutable node.id), s.heldAfter), s.trailAfter) :=
      Prod.ext (Prod.ext hresult rfl) rfl
    -- an operation that fails may only have taken the number of a node, and then it fails otherwise
    obtain ⟨t', ht', rfl | ⟨-, n, -, he, -⟩⟩ :=
      (Client.Step.failsAs_leaves s.config s.step).leaves hs.valid hrun (Error.not_isFault_notMutable node.id)
    · exact ht'.staged
    · cases he

/-- A step through a handle that belongs to no other transaction is not seen in another one. -/
theorem keeps_others (hs : s.trail.Shows base s.before) (hv : s.before.Consistent)
    (hthrough : s.step.through = some handle) (hfind : s.held.find? handle = some node)
    (hconfined : s.before.Confined name node.id) {other : String} {txn : Transaction} (hother : other ≠ name)
    (htxn : s.before.txn other = some txn) :
    s.after.txn other = some txn ∧ ∀ T, s.after.HasTree txn.root T ↔ s.before.HasTree txn.root T := by
  have hopen := hv.isTxnName (htxn ▸ Option.some_ne_none txn)
  exact (works hs hv hthrough hfind).hasTree hv htxn fun hbelongs => hother (hconfined.2 other hopen hbelongs)

end Client.Taken

namespace Filesystem.Holding

variable {fs fs' fs'' : Filesystem σ} {body : Client.Body} {held : Client.Handles} {s : Client.Taken σ}
  {name handle : String} {given : NodeId → Prop} {node : Node}

/-- **A COMMIT REVOKES THE HANDLES** that were obtained for its transaction. Take an operation through such a handle, at
    any time after the commit. (a) If the node of the handle was in the tree of the transaction when the commit began, the
    operation is refused, it stages nothing, and nothing is changed. (b) In any case nothing is changed in the tree of an
    open transaction. (c) Nothing is changed in the tree of a revision either. -/
theorem refused_after_commit (h : Holding name fs given) {date : String} {number : UInt64}
    (hcommit : fs.commit name date = (.ok number, fs')) (hsteps : Steps fs' fs'') (hs : s ∈ fs''.taken body held)
    (hthrough : s.step.through = some handle) (hfind : s.held.find? handle = some node) (hgiven : given node.id) :
    (∃ txn, fs.view.txn name = some txn ∧ (fs.view.Leads txn.root node.id →
      ∃ revision, s.before.node node.id = some revision ∧ revision.isMutable = false ∧
        (s.step.Suits revision.kind → s.after = s.before ∧
          ((s.result = .error (.notMutable node.id) ∧ s.trailAfter.staged = s.trail.staged) ∨
            ∃ e, s.result = .error e ∧ e.IsFault σ)))) ∧
    (∀ other txn, s.before.txn other = some txn →
      s.after.txn other = some txn ∧ ∀ T, s.after.HasTree txn.root T ↔ s.before.HasTree txn.root T) ∧
    ∀ number revision, s.before.revision number = some revision →
      s.after.revision number = some revision ∧
        ∀ T, s.after.HasTree revision.root T ↔ s.before.HasTree revision.root T := by
  have hreachable := h.reachable
  have hhealthy := hreachable.healthy
  have hv := hhealthy.consistent
  have hedit : fs.view.Edited (.commit name date number) fs'.view :=
    hhealthy.of_run (TrailM.Ends.commit name date) (fun _ _ hedit => hedit.follows.evolves) hcommit
  have hcommitted : Reachable fs' := by
    have hstep : fs.Step (fs.commit name date).2 := .commit name date
    rw [hcommit] at hstep
    exact hreachable.step hstep
  have hv' := hcommitted.healthy.consistent
  -- what lies between the commit and the operation
  obtain ⟨hshows, ⟨hbefore, -⟩, ⟨-, -⟩, hstep, -⟩ := (hcommitted.steps hsteps).taken_staged hs
  have hlater : fs'.view.Evolves s.before :=
    (hsteps.evolves hcommitted.healthy).2.trans ((hcommitted.steps hsteps).healthy.taken_shows hs).2.evolves
  obtain ⟨hclosed, txn, htxn, hfrozen⟩ := hedit.commit_freezes hv
  refine ⟨⟨txn, htxn, fun hleads => ?_⟩, ?_, ?_⟩
  case refine_1 =>
    obtain ⟨revision, hrevision, himmutable⟩ := hfrozen node.id hleads
    have hnode := (hv'.keeps_of_evolves hlater).node node.id revision hrevision himmutable
    exact ⟨revision, hnode, himmutable, Client.Taken.refused hshows hthrough hfind hnode himmutable⟩
  case refine_2 =>
    intro other txn' htxn'
    -- the name of the transaction is used up, so this is another one
    have hused : fs'.view.Used (.txn name) := (hv.used_txn (htxn ▸ Option.some_ne_none txn)).edited hv hedit
    have hother : other ≠ name := by
      rintro rfl
      exact Option.some_ne_none txn' (htxn'.symm.trans (hused.txn_eq_none hv' hclosed hlater))
    have hconfined : s.before.Confined name node.id :=
      (h.confined hgiven).evolves hv hreachable.ordered (hedit.follows.evolves.trans hlater)
    exact Client.Taken.keeps_others hshows hbefore hthrough hfind hconfined hother htxn'
  case refine_3 =>
    intro number' revision hrevision
    have hkeeps : s.before.Keeps s.after := hbefore.keeps_of_evolves hstep.follows.evolves
    obtain ⟨root, hroot, himmutable⟩ := hbefore.revisionRoot hrevision
    exact ⟨hkeeps.revision number' revision hrevision, fun T => hkeeps.hasTree hbefore hroot himmutable⟩

end Filesystem.Holding

omit [LawfulStore σ] in
/-- The steps of a trail whose first step succeeds. -/
theorem Client.Body.taken_ofSteps {config : Config} {step : Client.Step} {rest : List Client.Step}
    {held : Client.Handles} {t : Trail σ} {first : Client.Taken σ} (hfirst : first = ⟨config, step, held, t⟩)
    {answer : Client.Answer} (hresult : first.result = .ok answer) :
    (ofSteps (step :: rest)).taken config held t =
      first :: (ofSteps rest).taken config first.heldAfter first.trailAfter := by
  subst hfirst
  simp only [ofSteps, taken, hresult]

namespace Filesystem.Sample

/-- A client enters a transaction, makes a file in its root directory, and goes on. -/
def making (rest : List Client.Step) : Client.Body :=
  .ofSteps (.cloneRoot "0" (some "r") :: .make "r" "a" .file (some "f") :: rest)

/-- The filesystem after that. -/
def made (rest : List Client.Step) : Filesystem Records :=
  (runClient ((making rest).run begun.config) .empty begun).2

/-- The properties of the file are to be set. -/
def trying : Client.Body :=
  .ofSteps [.setProps "f" (.list [])]

/-- What is tried through the handle on the file, when the transaction is committed. -/
def tried (rest : List Client.Step) : Client.Taken Records :=
  ⟨((made rest).commit "0" "").2.config, .setProps "f" (.list []),
    (runClient ((making rest).run begun.config) .empty begun).1.2, Trail.start ((made rest).commit "0" "").2.store⟩

/-- The file, as the client got it. -/
def file : Node :=
  ⟨.ofNode 1, .newMutable .file "0.1"⟩

def enteringFirst : Client.Taken Records :=
  ⟨begun.config, .cloneRoot "0" (some "r"), .empty, Trail.start begun.store⟩

def makingFile : Client.Taken Records :=
  ⟨begun.config, .make "r" "a" .file (some "f"), enteringFirst.heldAfter, enteringFirst.trailAfter⟩

/-- The file was obtained for the transaction, whatever came then. -/
theorem file_obtained (rest : List Client.Step) :
    Client.Obtained "0" (fun _ => False) (begun.taken (making rest) .empty) file.id := by
  have hentered : enteringFirst.result = .ok (.node root) := by decide +kernel
  have hmade : makingFile.result = .ok (.node file) := by decide +kernel
  have hfind : makingFile.held.find? "r" = some root := by decide +kernel
  have htaken : begun.taken (making rest) .empty =
      enteringFirst :: makingFile ::
        (Client.Body.ofSteps rest).taken begun.config makingFile.heldAfter makingFile.trailAfter := by
    refine (Client.Body.taken_ofSteps rfl hentered).trans (congrArg (enteringFirst :: ·) ?_)
    exact Client.Body.taken_ofSteps rfl hmade
  rw [htaken]
  refine .made (List.mem_cons_of_mem _ List.mem_cons_self) rfl hfind ?_ hmade
  exact .root List.mem_cons_self rfl hentered

/-- The step is taken through the old handle, after the commit. -/
theorem tried_taken (rest : List Client.Step) :
    tried rest ∈ ((made rest).commit "0" "").2.taken trying (tried rest).held :=
  List.mem_cons_self

/-- The handle on a file that is in the tree is revoked by the commit. -/
theorem file_revoked :
    (tried []).result = .error (.notMutable file.id) ∧ (tried []).trailAfter.staged = (tried []).trail.staged := by
  have hcompletes : begun.Completes (making []) .empty := by
    rw [Completes]
    decide +kernel
  have hcommit : ((made []).commit "0" "").1 = .ok 1 := by decide +kernel
  have hfind : (tried []).held.find? "f" = some file := by decide +kernel
  have htxn : (made []).view.txn "0" = some ⟨.first 0 1, .first 0 0, 0⟩ := by decide +kernel
  have hroot : (made []).view.node (.first 0 1) = some ⟨.empty, [.mutable "0"], .dir [⟨"a", file.id⟩]⟩ := by
    decide +kernel
  have hholding : Holding "0" begun fun _ => False := .start reachable_begun
  obtain ⟨⟨txn, htxn', hrefused⟩, -⟩ := (hholding.trail (making []) .empty).refused_after_commit
    (Prod.ext hcommit rfl) .refl (tried_taken []) rfl hfind ⟨file_obtained [], .inl hcompletes⟩
  cases htxn.symm.trans htxn'
  obtain ⟨revision, -, -, hrefused⟩ := hrefused (.single ⟨_, ⟨"a", file.id⟩, hroot, List.mem_singleton_self _, rfl⟩)
  rcases hrefused trivial with ⟨-, hanswer | ⟨e, -, hfault⟩⟩
  · exact hanswer
  · exact absurd hfault (Records.not_isFault e)

/-- **A NODE THAT WAS DELETED** before the commit stays mutable. Its handle was obtained for the transaction in a trail that
    was completed, and the transaction was committed, but in a later trail the properties of the file can still be set. -/
theorem deleted_node_stays_mutable :
    Reachable begun ∧ begun.Completes (making [.delete "r" "a"]) .empty ∧
      Client.Obtained "0" (fun _ => False) (begun.taken (making [.delete "r" "a"]) .empty) file.id ∧
      ((made [.delete "r" "a"]).commit "0" "").1 = .ok 1 ∧
      tried [.delete "r" "a"] ∈ ((made [.delete "r" "a"]).commit "0" "").2.taken trying (tried [.delete "r" "a"]).held ∧
      (tried [.delete "r" "a"]).held.find? "f" = some file ∧ (tried [.delete "r" "a"]).result = .ok .done ∧
      (tried [.delete "r" "a"]).trailAfter.staged ≠ (tried [.delete "r" "a"]).trail.staged := by
  refine ⟨reachable_begun, ?_, file_obtained _, ?_, tried_taken _, ?_, ?_, ?_⟩
  · rw [Completes]
    decide +kernel
  all_goals decide +kernel

end Filesystem.Sample

end VersionedTree

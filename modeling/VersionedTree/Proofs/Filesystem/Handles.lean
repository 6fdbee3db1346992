import VersionedTree.Proofs.Filesystem.Traces
import VersionedTree.Proofs.Tree.Belonging

/-!
# Handles — what can be changed through them

A handle is an id, and ids outlive trails. Nothing asks for whom a handle was obtained: an operation only looks whether
the node is mutable. Still, what was obtained for a transaction belongs to no other one, so as long as the id stands for
that node, nothing else is changed through it. There is one way around this: the id of a node that was made in a trail
which was then thrown away is free, and may be given to a node of another transaction.

* **`Obtained`** — what a client gets hold of for a transaction in a trail.
* **`Reachable.obtained_confined`** — it belongs to no other transaction, as far as it is there.
* **`Filesystem.Holding`** — what was obtained in all trails until now.
* **`Holding.changes_own`** — the theorem.
* **`Sample.stale_handle_crosses`** — the way around.
-/

namespace VersionedTree

variable {σ : Type} [RecordStore σ] [LawfulStore σ]

namespace View

variable {v w : View} {name : String} {id : NodeId}

/-- A node stays within its transaction, whatever is edited. -/
theorem Confined.evolves (h : v.Confined name id) (hv : v.Consistent) (ho : v.Ordered) (hw : v.Evolves w) :
    w.Confined name id := by
  induction hw with
  | refl => exact h
  | tail hevolves hedit ih =>
    obtain ⟨edit, hedit⟩ := hedit
    exact ih.edited (ho.evolves hv hevolves) hedit

/-- If a node is within a transaction after the steps of clients, it was so before. -/
theorem Confined.of_clientSteps (h : w.Confined name id) (hv : v.Consistent) (hw : v.ClientSteps w)
    (hid : v.node id ≠ none) : v.Confined name id := by
  have hthere : ∀ {u : View}, v.ClientSteps u → u.node id ≠ none := by
    intro u hu
    induction hu with
    | refl => exact hid
    | tail _ hstep ih => exact hstep.node_ne_none ih
  induction hw with
  | refl => exact h
  | tail hsteps hstep ih =>
    exact ih (h.of_clientStep (hv.evolves (View.ClientSteps.evolves hsteps)) hstep (hthere hsteps))

end View

namespace Client

/-- What a client gets hold of for a transaction: the root of the transaction, and what it clones or makes below what it
    has got hold of. `given` is what it has from before. -/
inductive Obtained (name : String) (given : NodeId → Prop) (steps : List (Taken σ)) : NodeId → Prop where
  | given {id : NodeId} (h : given id) : Obtained name given steps id
  | root {s : Taken σ} {keep : Option String} {node : Node} (hs : s ∈ steps) (hstep : s.step = .cloneRoot name keep)
      (hresult : s.result = .ok (.node node)) : Obtained name given steps node.id
  | cloned {s : Taken σ} {h entry : String} {keep : Option String} {dir node : Node} (hs : s ∈ steps)
      (hstep : s.step = .cloneChild h entry keep) (hfind : s.held.find? h = some dir)
      (hdir : Obtained name given steps dir.id) (hresult : s.result = .ok (.node node)) : Obtained name given steps node.id
  | made {s : Taken σ} {h entry : String} {kind : Kind} {keep : Option String} {dir node : Node} (hs : s ∈ steps)
      (hstep : s.step = .make h entry kind keep) (hfind : s.held.find? h = some dir)
      (hdir : Obtained name given steps dir.id) (hresult : s.result = .ok (.node node)) : Obtained name given steps node.id

variable {s : Taken σ} {base : Records} {name : String} {node dir : Node}

/-- The root of a transaction is its own. -/
theorem Taken.owner_cloneRoot (hs : s.trail.Shows base s.before) (hv : s.before.Consistent) {keep : Option String}
    (hstep : s.step = .cloneRoot name keep) (hresult : s.result = .ok (.node node)) :
    View.IsTxnName name ∧ ∃ revision, s.after.node node.id = some revision ∧ revision.flags = [.mutable name] := by
  obtain ⟨root, hanswer, hroot⟩ := of_ends_ok hs (hstep ▸ ClientM.Ends.cloneRoot s.config name keep) hresult
  cases hanswer
  rcases hroot with ⟨hsame, txn, htxn, hfirst, hid⟩ | hedit
  · obtain ⟨revision, hnode, hflags⟩ := (hv.txnRoot htxn).resolve_left hfirst
    exact ⟨hv.isTxnName (htxn ▸ nofun), revision, hsame ▸ hid ▸ hnode, hflags⟩
  · exact ⟨hv.isTxnName (hedit.owner_cloneRoot hv).1, (hedit.owner_cloneRoot hv).2⟩

/-- A directory owns what is cloned in it. -/
theorem Taken.owner_cloneChild (hs : s.trail.Shows base s.before) (hv : s.before.Consistent) {h entry : String}
    {keep : Option String} (hstep : s.step = .cloneChild h entry keep) (hfind : s.held.find? h = some dir)
    (hresult : s.result = .ok (.node node)) :
    s.before.node dir.id ≠ none ∧
      ∃ revision, s.after.node node.id = some revision ∧ revision.flags = [.mutable dir.id.text] := by
  obtain ⟨child, hanswer, hchild⟩ := of_ends_ok hs (hstep ▸ ClientM.Ends.cloneChild s.config hfind entry keep) hresult
  cases hanswer
  rcases hchild with ⟨hsame, hmutable, old, entries, e, hold, hdir, he, hid⟩ | hedit
  · obtain ⟨revision, hnode, hmutable⟩ := hmutable
    have hlink : s.before.Links dir.id node.id := hid ▸ View.links_of_find? hold hdir he
    exact ⟨hold ▸ nofun, revision, hsame ▸ hnode, hv.owner hlink hnode hmutable⟩
  · exact hedit.owner_cloneChild hv

/-- A directory owns what is made in it. -/
theorem Taken.owner_make (hs : s.trail.Shows base s.before) {h entry : String} {kind : Kind} {keep : Option String}
    (hstep : s.step = .make h entry kind keep) (hfind : s.held.find? h = some dir) (hresult : s.result = .ok (.node node)) :
    s.before.node dir.id ≠ none ∧
      ∃ revision, s.after.node node.id = some revision ∧ revision.flags = [.mutable dir.id.text] := by
  obtain ⟨child, hanswer, hedit⟩ := of_ends_ok hs (hstep ▸ ClientM.Ends.make s.config hfind entry kind keep) hresult
  cases hanswer
  exact hedit.owner_make

/-- A step through a handle works below the node of this handle, whether it is done or fails. -/
theorem Taken.works (hs : s.trail.Shows base s.before) (hv : s.before.Consistent) {handle : String}
    (hthrough : s.step.through = some handle) (hfind : s.held.find? handle = some node) :
    s.before.Works node.id s.after := by
  rcases of_ends hs (ClientM.Ends.works s.config hv.backed hthrough hfind) with ⟨_, -, hworks⟩ | ⟨_, -, hworks⟩
  · exact hworks
  · exact hworks

end Client

namespace Filesystem

variable {fs fs' : Filesystem σ} {body : Client.Body} {held : Client.Handles} {s : Client.Taken σ} {name : String}
  {given : NodeId → Prop} {id : NodeId}

/-- The view that a trail ends with, before it is completed or thrown away. -/
def staged (fs : Filesystem σ) (body : Client.Body) (held : Client.Handles) : View :=
  (body.run fs.config held (Trail.start fs.store)).2.records.view

/-- A step of a trail, seen from its end. -/
theorem Reachable.taken_staged (h : Reachable fs) (hs : s ∈ fs.taken body held) :
    s.trail.Shows fs.records s.before ∧ (s.before.Consistent ∧ s.before.Ordered) ∧ (s.after.Consistent ∧ s.after.Ordered) ∧
      s.before.ClientStep s.after ∧ s.after.ClientSteps (fs.staged body held) := by
  obtain ⟨hshows, hv, ho⟩ := h.taken hs
  have hstep := (Client.Taken.shows_after hshows hv).2
  have hevolves := hstep.follows.evolves
  exact ⟨hshows, ⟨hv, ho⟩, ⟨hv.evolves hevolves, ho.evolves hv hevolves⟩, hstep,
    Client.Body.taken_ends h.healthy.consistent h.healthy.shows.start hs⟩

/-- The view that a trail ends with comes from that of the filesystem. -/
theorem Healthy.staged_steps (h : fs.Healthy) (body : Client.Body) (held : Client.Handles) :
    fs.view.ClientSteps (fs.staged body held) :=
  (Client.Body.run_shows h.consistent h.shows.start body).2

/-- What a completed trail has come to is what the filesystem shows. -/
theorem Healthy.view_of_completes (h : fs.Healthy) (hcompletes : fs.Completes body held) :
    (runClient (body.run fs.config) held fs).2.view = fs.staged body held := by
  obtain ⟨-, hrecords⟩ := (h.trail_cases body held).resolve_right fun hnot => hnot.1 hcompletes
  exact congrArg Records.view hrecords

/-- Of a trail that is thrown away, nothing is shown. -/
theorem Healthy.view_of_not_completes (h : fs.Healthy) (hfails : ¬ fs.Completes body held) :
    (runClient (body.run fs.config) held fs).2.view = fs.view := by
  obtain ⟨-, hrecords⟩ := (h.trail_cases body held).resolve_left fun hdone => hfails hdone.1
  exact congrArg Records.view hrecords

/-- **WHAT WAS OBTAINED** for a transaction belongs to no other one. -/
theorem Reachable.obtained_confined (h : Reachable fs) (hgiven : ∀ id, given id → fs.view.Confined name id)
    (hid : Client.Obtained name given (fs.taken body held) id) : (fs.staged body held).Confined name id := by
  have hv := h.healthy.consistent
  -- what is below a node that is confined in the end was confined when it was got hold of
  have hchild : ∀ {s : Client.Taken σ} {dir node : Node}, s ∈ fs.taken body held →
      (fs.staged body held).Confined name dir.id → (s.before.node dir.id ≠ none ∧
        ∃ revision, s.after.node node.id = some revision ∧ revision.flags = [.mutable dir.id.text]) →
      (fs.staged body held).Confined name node.id := by
    rintro s dir node hs hdir ⟨hthere, revision, hnode, hflags⟩
    obtain ⟨-, -, ⟨hafter, hordered⟩, hstep, hsteps⟩ := h.taken_staged hs
    have hconfined := hdir.of_clientSteps hafter hsteps (hstep.node_ne_none hthere)
    exact (hconfined.of_child hnode hflags).evolves hafter hordered hsteps.evolves
  induction hid with
  | given hid => exact (hgiven _ hid).evolves hv h.ordered (h.healthy.staged_steps body held).evolves
  | root hs hstep hresult =>
    obtain ⟨hshows, ⟨hbefore, -⟩, ⟨hafter, hordered⟩, -, hsteps⟩ := h.taken_staged hs
    obtain ⟨hname, revision, hnode, hflags⟩ := Client.Taken.owner_cloneRoot hshows hbefore hstep hresult
    exact (View.Confined.of_root hname hnode hflags).evolves hafter hordered hsteps.evolves
  | cloned hs hstep hfind _ hresult ih =>
    obtain ⟨hshows, ⟨hbefore, -⟩, -⟩ := h.taken_staged hs
    exact hchild hs ih (Client.Taken.owner_cloneChild hshows hbefore hstep hfind hresult)
  | made hs hstep hfind _ hresult ih =>
    obtain ⟨hshows, -⟩ := h.taken_staged hs
    exact hchild hs ih (Client.Taken.owner_make hshows hstep hfind hresult)

/-- The nodes that were got hold of for a transaction in all trails until now: in a trail that was completed, and in one that
    was thrown away as far as they are there after it. -/
inductive Holding (name : String) : Filesystem σ → (NodeId → Prop) → Prop where
  | start {fs : Filesystem σ} (h : Reachable fs) : Holding name fs fun _ => False
  | trail {fs : Filesystem σ} {given : NodeId → Prop} (h : Holding name fs given) (body : Client.Body)
      (held : Client.Handles) :
      Holding name (runClient (body.run fs.config) held fs).2 fun id =>
        Client.Obtained name given (fs.taken body held) id ∧
          (fs.Completes body held ∨ (runClient (body.run fs.config) held fs).2.view.node id ≠ none)
  | step {fs fs' : Filesystem σ} {given : NodeId → Prop} (h : Holding name fs given) (hstep : fs.Step fs') :
      Holding name fs' given

namespace Holding

/-- What handles were given out in can be reached. -/
theorem reachable (h : Holding name fs given) : Reachable fs := by
  induction h with
  | start h => exact h
  | trail _ body held ih => exact ih.step (.trail body held)
  | step _ hstep ih => exact ih.step hstep

/-- Every node that was given is within the transaction that it was given in. -/
theorem confined (h : Holding name fs given) (hid : given id) : fs.view.Confined name id := by
  induction h generalizing id with
  | start _ => exact hid.elim
  | @trail fs given h body held ih =>
    obtain ⟨hobtained, hthere⟩ := hid
    have hhealthy := h.reachable.healthy
    have hconfined := h.reachable.obtained_confined (fun id hid => ih hid) hobtained
    by_cases hcompletes : fs.Completes body held
    · exact hhealthy.view_of_completes hcompletes ▸ hconfined
    · -- of a trail that is thrown away there is only what was there before
      have hthere := hthere.resolve_left hcompletes
      rw [hhealthy.view_of_not_completes hcompletes] at hthere ⊢
      exact hconfined.of_clientSteps hhealthy.consistent (hhealthy.staged_steps body held) hthere
  | step h hstep ih =>
    have hhealthy := h.reachable.healthy
    exact (ih hid).evolves hhealthy.consistent h.reachable.ordered (hstep.evolves hhealthy).2

/-- **A HANDLE CHANGES ITS OWN TRANSACTION.** Take an operation through a handle, in any trail, whether it is completed or
    not. If the node of the handle was got hold of for a transaction, in this trail, or in an earlier one that was completed
    or after which the node was there, then the operation is not seen in the tree of any other open transaction. If the
    node is not there, the operation fails and changes nothing. -/
theorem changes_own (h : Holding name fs given) (hs : s ∈ fs.taken body held) {handle : String} {node : Node}
    (hthrough : s.step.through = some handle) (hfind : s.held.find? handle = some node) :
    (Client.Obtained name given (fs.taken body held) node.id → ∀ other txn, other ≠ name →
      s.before.txn other = some txn →
        s.after.txn other = some txn ∧ ∀ T, s.after.HasTree txn.root T ↔ s.before.HasTree txn.root T) ∧
    (s.before.node node.id = none →
      s.after = s.before ∧ ∃ e, s.result = .error e ∧ (e.IsFault σ ∨ e = .notFound (.node node.id))) := by
  obtain ⟨hshows, ⟨hv, ho⟩, -, hstep, hsteps⟩ := h.reachable.taken_staged hs
  have hlost : s.before.node node.id = none →
      s.after = s.before ∧ ∃ e, s.result = .error e ∧ (e.IsFault σ ∨ e = .notFound (.node node.id)) := by
    intro hnone
    rcases Client.Taken.of_ends hshows (ClientM.Ends.lost s.config hthrough hfind hnone) with
      ⟨answer, -, hfalse⟩ | ⟨e, he, hsame, herror⟩
    · exact hfalse.elim
    · exact ⟨hsame, e, he, herror⟩
  refine ⟨fun hobtained other txn hother htxn => ?_, hlost⟩
  -- a handle whose node is gone does nothing, and any other is confined to its own transaction
  by_cases hthere : s.before.node node.id = none
  · rw [(hlost hthere).1]
    exact ⟨htxn, fun _ => .rfl⟩
  · have hconfined := (h.reachable.obtained_confined (fun _ hid => h.confined hid) hobtained).of_clientSteps hv
      (.head hstep hsteps) hthere
    have hworks := Client.Taken.works hshows hv hthrough hfind
    exact hworks.hasTree hv htxn fun hbelongs => hother (hconfined.2 other (hv.isTxnName (htxn ▸ nofun)) hbelongs)

end Holding

namespace Sample

/-- A file is made through a handle of the client. -/
def makeBelow : Client.Body :=
  .ofSteps [.make "r" "x" .file none]

/-- The root of the first transaction, as a client gets it that enters it. -/
def root : Node :=
  ⟨.first 0 1, .empty, [.mutable "0"], .dir []⟩

def entering : Client.Taken Records :=
  ⟨rivals.config, .cloneRoot "0" (some "r"), .empty, Trail.start rivals.store⟩

/-- Entering gives the root. -/
theorem result_entering : entering.result = .ok (.node root) := by
  decide +kernel

/-! ### A handle that is good -/

/-- A client enters the first transaction. -/
def enter : Client.Body :=
  .ofSteps [.cloneRoot "0" (some "r")]

/-- The transaction has its own root then, and the client has a handle for it. -/
def within : Filesystem Records :=
  (runClient (enter.run rivals.config) .empty rivals).2

def good : Client.Taken Records :=
  ⟨within.config, .make "r" "x" .file none, (runClient (enter.run rivals.config) .empty rivals).1.2,
    Trail.start within.store⟩

/-- The first transaction is changed, and the second one is not. -/
theorem good_changes_own : ∃ txn, good.result.toOption ≠ none ∧ good.before.txn "1" = some txn ∧
    good.after.txn "1" = some txn ∧ ∀ T, good.after.HasTree txn.root T ↔ good.before.HasTree txn.root T := by
  have hfind : good.held.find? "r" = some root := by decide +kernel
  have htxn : good.before.txn "1" = some ⟨.first 0 0, .first 0 0, 0⟩ := by decide +kernel
  have hthere : within.view.node root.id ≠ none := by decide +kernel
  have hentered : Client.Obtained "0" (fun _ => False) (rivals.taken enter .empty) root.id :=
    .root (List.mem_cons_self ..) rfl result_entering
  have hholding : Holding "0" rivals fun _ => False := .start reachable_rivals
  have hgood : good ∈ within.taken makeBelow (runClient (enter.run rivals.config) .empty rivals).1.2 :=
    List.mem_cons_self ..
  obtain ⟨hkept, -⟩ := (hholding.trail enter .empty).changes_own hgood rfl hfind
  exact ⟨_, by decide +kernel, htxn, hkept (.given ⟨hentered, .inr hthere⟩) "1" _ (by decide) htxn⟩

/-! ### A handle that has gone stale -/

/-- The client enters the first transaction, and then gives up. -/
def enterAndFail : Client.Body :=
  .step (.cloneRoot "0" (some "r")) fun _ => .fail (.corrupt (.other "x"))

/-- What the client holds then. -/
def leftover : Client.Handles :=
  (runClient (enterAndFail.run rivals.config) .empty rivals).1.2

/-- The other transaction is entered. -/
def entered : Filesystem Records :=
  (runClient ((Client.Body.ofSteps [.cloneRoot "1" none]).run rivals.config) .empty
    (runClient (enterAndFail.run rivals.config) .empty rivals).2).2

def stale : Client.Taken Records :=
  ⟨entered.config, .make "r" "x" .file none, leftover, Trail.start entered.store⟩

/-- **A STALE HANDLE CROSSES OVER.** The handle was obtained for the first transaction, in a trail that was thrown away. The
    id of its node has been given to the root of the second transaction, and the file is made there. -/
theorem stale_handle_crosses : Reachable rivals ∧ Reachable entered ∧
    ¬ rivals.Completes enterAndFail .empty ∧ entered.Completes makeBelow leftover ∧
    (∃ node, leftover.find? "r" = some node ∧
      Client.Obtained "0" (fun _ => False) (rivals.taken enterAndFail .empty) node.id) ∧
    stale ∈ entered.taken makeBelow leftover ∧
    ∃ txn T, stale.before.txn "1" = some txn ∧ stale.before.HasTree txn.root T ∧ ¬ stale.after.HasTree txn.root T := by
  have hreachable : Reachable entered :=
    (reachable_rivals.step (.trail enterAndFail .empty)).step (.trail (.ofSteps [.cloneRoot "1" none]) .empty)
  have htxn : stale.before.txn "1" = some ⟨.first 0 1, .first 0 0, 0⟩ := by decide +kernel
  have hbefore : stale.before.node (.first 0 1) = some ⟨.empty, [.mutable "1"], .dir []⟩ := by decide +kernel
  have hafter : stale.after.node (.first 0 1) = some ⟨.empty, [.mutable "1"], .dir [⟨"x", .first 1 1⟩]⟩ := by
    decide +kernel
  refine ⟨reachable_rivals, hreachable, ?_, ?_, ?_, List.mem_cons_self .., _, .dir .empty [] [], htxn,
    (View.hasTree_dir hbefore rfl).2 ⟨[], .nil, rfl⟩, fun hT => ?_⟩
  · rw [Completes]
    decide +kernel
  · rw [Completes]
    decide +kernel
  · exact ⟨root, by decide +kernel, .root (s := entering) (List.mem_cons_self ..) rfl result_entering⟩
  · obtain ⟨trees, htrees, heq⟩ := (View.hasTree_dir hafter rfl).1 hT
    cases htrees
    cases heq

end Sample

end Filesystem

end VersionedTree

import VersionedTree.Proofs.Filesystem.Reachable
import VersionedTree.Proofs.Tree.Changes

/-!
# Refinement — a filesystem is a list of trees

What a client can find out about a filesystem is its forest, and what it does is an operation on the forest. To change
something it clones the way down to it, which the forest does not show, and then changes a node that is its own.

* **`Client.editing`** — the body of a trail that goes down a path and makes a change there.
* **`Ends.editing`** — if the trail gets through, the forest is edited at that path.
* **`Reachable.refines_forest`** — the theorem, for all operations and everything a filesystem can become.
-/

namespace VersionedTree

/-- The step that makes a change through a handle, if there is anything to do. -/
def Change.steps (h : String) : Change → List Client.Step
  | .nothing => []
  | .make name kind => [.make h name kind none]
  | .delete name => [.delete h name]
  | .setProps props => [.setProps h props]
  | .setContents data => [.setContents h data]

namespace Client

/-- Steps down a way and a change at its end. Each child on the way comes with the name of the handle that it is kept
    in. -/
def descend (change : Change) : (h : String) → (way : List (String × String)) → List Step
  | h, [] => change.steps h
  | h, (name, keep) :: way => .cloneChild h name (some keep) :: descend change keep way

/-- What a client does to make a change in a transaction, at the end of a way from its root. -/
def editing (txn h : String) (way : List (String × String)) (change : Change) : Body :=
  .ofSteps (.cloneRoot txn (some h) :: descend change h way)

end Client

/-- True of the node that a path leads to in a transaction, if it may be changed. -/
def View.Arrived (v : View) (name : String) (path : List String) (id : NodeId) : Prop :=
  (∃ txn, v.txn name = some txn ∧ v.Way id txn.root path) ∧ v.IsMutable id

/-- True if a handle is on the node that a path leads to in a transaction, and nothing can be seen to have changed. -/
structure Client.Arrived (F : Forest) (name : String) (path : List String) (h : String) (held : Client.Handles) (v : View) :
    Prop where
  consistent : v.Consistent
  forest : v.HasForest F
  handle : ∃ node, held.find? h = some node ∧ v.Arrived name path node.id

namespace View

variable {v w : View} {name : String} {path : List String} {id dir : NodeId}

/-- The root of a transaction, which was cloned just now. -/
theorem Edited.arrived_cloneRoot (h : v.Edited (.cloneRoot name id) w) : w.Arrived name [] id := by
  cases h with
  | @cloneRoot _ txn base _ _ _ _ _ _ =>
    refine ⟨⟨{ txn with root := id }, ?_, .here⟩, base.toMutable name, setNode_node_self v id _, ?_⟩
    · simp
    · simp [NodeRevision.isMutable, NodeRevision.toMutable, Flag.isMutable]

/-- A child of a node that was arrived at, which was cloned just now. -/
theorem Edited.arrived_cloneChild {child : String} (h : v.Edited (.cloneChild dir child id) w) (hv : v.Consistent)
    (hdir : v.Arrived name path dir) (hmutable : w.IsMutable id) : w.Arrived name (path ++ [child]) id := by
  obtain ⟨⟨txn, htxn, hway⟩, -⟩ := hdir
  have hway' := hv.way_of_changedAt h.changedAt_cloneChild hway
  cases h with
  | cloneChild _ _ _ hentry _ _ _ _ =>
    exact ⟨⟨txn, htxn, hway'.snoc (setNode_node_self _ _ _) rfl (Node.find?_redirect hentry)⟩, hmutable⟩

end View

namespace TrailM

variable {σ : Type} [RecordStore σ] [LawfulStore σ] {v : View} {F : Forest} {name : String} {path : List String}

/-- The root of a transaction is entered, and may be changed then. -/
theorem Ends.ofTransaction_arrived (hv : v.Consistent) (hF : v.HasForest F) :
    (Root.ofTransaction name : TrailM σ Node).Ends v
      (fun root w => w.Consistent ∧ w.HasForest F ∧ w.Arrived name [] root.id) (fun _ _ => True) := by
  refine Ends.mono (Ends.ofTransaction name) ?_ fun _ _ _ => trivial
  rintro root w ⟨-, ⟨rfl, txn, htxn, hfirst, hid⟩ | hedit⟩
  · -- the root was cloned before, so it is mutable already
    obtain ⟨node, hnode, hflags⟩ := (hv.txnRoot htxn).resolve_left hfirst
    refine ⟨hv, hF, ⟨txn, htxn, ?_⟩, node, hid ▸ hnode, NodeRevision.isMutable_of_flags hflags⟩
    rw [hid]
    exact .here
  · exact ⟨hv.edited hedit, hF.cloneRoot hv hedit, hedit.arrived_cloneRoot⟩

/-- A child is entered, and may be changed then. -/
theorem Ends.cloneChild_arrived {node : Node} (child : String) (hv : v.Consistent) (hF : v.HasForest F)
    (harrived : v.Arrived name path node.id) (hnode : v.Current node) (hstorable : node.revision.Storable) :
    (node.cloneChildStep child : TrailM σ (Node × Node)).Ends v
      (fun r w => w.Consistent ∧ w.HasForest F ∧ w.Arrived name (path ++ [child]) r.1.id) (fun _ _ => True) := by
  refine Ends.mono (Ends.cloneChildStep child hnode hstorable) ?_ fun _ _ _ => trivial
  rintro ⟨clone, node'⟩ w ⟨hclone, hmutable, -, -, ⟨rfl, -, entries, entry, hdir, hentry, hid⟩ | hedit⟩
  · -- the child was cloned before; the way goes one name further
    obtain ⟨⟨txn, htxn, hway⟩, -⟩ := harrived
    have hway' := hway.snoc hnode hdir hentry
    exact ⟨hv, hF, ⟨txn, htxn, hid ▸ hway'⟩, clone.revision, hclone, hmutable⟩
  · have harrived' := hedit.arrived_cloneChild hv harrived ⟨clone.revision, hclone, hmutable⟩
    exact ⟨hv.edited hedit, hF.cloneChild hv hedit, harrived'⟩

end TrailM

namespace ClientM

variable {σ α ω : Type} [RecordStore σ] [LawfulStore σ] {v : View} {F : Forest} {held : Client.Handles}

/-- What two rules say about a computation. -/
theorem Ends.and {m : ClientM ω σ α} {held : ω} {Q Q' : α → ω → View → Prop} {E E' : Error → ω → View → Prop}
    (h : m.Ends held v Q E) (h' : m.Ends held v Q' E') :
    m.Ends held v (fun a held' w => Q a held' w ∧ Q' a held' w) (fun e held' w => E e held' w ∧ E' e held' w) := by
  intro base t ht
  rcases h base t ht with ⟨a, held', t', w, heq, ht', hq⟩ | ⟨e, held', t', w, heq, ht', he⟩
  · rcases h' base t ht with ⟨a', held'', t'', w', heq', ht'', hq'⟩ | ⟨e', held'', t'', w', heq', ht'', he'⟩
    · cases heq.symm.trans heq'
      cases ht'.view.symm.trans ht''.view
      exact .inl ⟨a, held', t', w, heq, ht', hq, hq'⟩
    · exact nomatch heq.symm.trans heq'
  · rcases h' base t ht with ⟨a', held'', t'', w', heq', ht'', hq'⟩ | ⟨e', held'', t'', w', heq', ht'', he'⟩
    · exact nomatch heq.symm.trans heq'
    · cases heq.symm.trans heq'
      cases ht'.view.symm.trans ht''.view
      exact .inr ⟨e, held', t', w, heq, ht', he, he'⟩

/-- After the first of some steps. -/
theorem Ends.ofSteps_cons {config : Config} {step : Client.Step} {rest : List Client.Step}
    {Q : Client.Answer → Client.Handles → View → Prop} {Q' : Unit → Client.Handles → View → Prop}
    (h : (step.run config : ClientM Client.Handles σ Client.Answer).Ends held v Q fun _ _ _ => True)
    (hrest : ∀ answer held' w, Q answer held' w →
      ((Client.Body.ofSteps rest).run config : ClientM Client.Handles σ Unit).Ends held' w Q' fun _ _ _ => True) :
    ((Client.Body.ofSteps (step :: rest)).run config : ClientM Client.Handles σ Unit).Ends held v Q' fun _ _ _ => True :=
  Ends.step h hrest fun _ _ _ _ => Ends.throw trivial

/-! ## Down a path -/

variable {name h keep : String} {path : List String}

/-- Keeping a node that was arrived at. -/
theorem Ends.give_arrived {node : Node} (hv : v.Consistent) (hF : v.HasForest F) (harrived : v.Arrived name path node.id) :
    (Client.give (some keep) node : ClientM Client.Handles σ Client.Answer).Ends held v
      (fun _ held' w => Client.Arrived F name path keep held' w) (fun _ _ _ => True) := by
  refine Ends.mono (Ends.give (some keep) node) ?_ fun _ _ _ he => he.elim
  rintro _ held' w ⟨rfl, -, rfl⟩
  refine ⟨hv, hF, node, ?_, harrived⟩
  show (held.insert keep node).find? keep = some node
  rw [SortedMap.find?_insert, if_pos Std.ReflCmp.compare_self]

/-- The root of a transaction. -/
theorem Ends.enterTxn (config : Config) (hv : v.Consistent) (hF : v.HasForest F) :
    ((Client.Step.cloneRoot name (some h)).run config : ClientM Client.Handles σ Client.Answer).Ends held v
      (fun _ held' w => Client.Arrived F name [] h held' w) (fun _ _ _ => True) := by
  refine Ends.bind (Ends.lift (Q := fun root _ w => w.Consistent ∧ w.HasForest F ∧ w.Arrived name [] root.id)
    (E := fun _ _ _ => True) (TrailM.Ends.ofTransaction_arrived hv hF) (fun _ _ h => h) fun _ _ _ => trivial) ?_
    fun _ _ _ _ => trivial
  rintro root held' w ⟨hw, hwF, harrived⟩
  exact Ends.give_arrived hw hwF harrived

/-- One name further down. -/
theorem Ends.enterChild (config : Config) (child : String) (h₀ : Client.Arrived F name path h held v) :
    ((Client.Step.cloneChild h child (some keep)).run config : ClientM Client.Handles σ Client.Answer).Ends held v
      (fun _ held' w => Client.Arrived F name (path ++ [child]) keep held' w) (fun _ _ _ => True) := by
  obtain ⟨hv, hF, node, hfind, harrived⟩ := h₀
  refine Ends.withHandle hfind ?_
  have hstep : (Node.cloneChild child : Node.HandleM σ Node).Ends node v
      (fun clone _ w => w.Consistent ∧ w.HasForest F ∧ w.Arrived name (path ++ [child]) clone.id) (fun _ _ _ => True) := by
    refine Ends.change (Q := fun (r : Node × Node) w => w.Consistent ∧ w.HasForest F ∧ w.Arrived name (path ++ [child]) r.1.id)
      (E := fun _ _ => True) ?_ fun _ _ => trivial
    intro fresh hid hfresh hstorable
    exact TrailM.Ends.cloneChild_arrived child hv hF (hid ▸ harrived) hfresh hstorable
  refine Ends.bind (Ends.through hstep) ?_ fun _ _ _ _ => trivial
  rintro clone held' w ⟨node', -, hw, hwF, harrived'⟩
  exact Ends.give_arrived hw hwF harrived'

/-- **A CHANGE** through the handle at the end of a path. -/
theorem Ends.changeSteps (config : Config) (change : Change) (h₀ : Client.Arrived F name path h held v) :
    ((Client.Body.ofSteps (change.steps h)).run config : ClientM Client.Handles σ Unit).Ends held v
      (fun _ _ w => ∃ F', F.edit name path change = some F' ∧ w.HasForest F') (fun _ _ _ => True) := by
  obtain ⟨hv, hF, node, hfind, ⟨txn, htxn, hway⟩, hmutable⟩ := h₀
  have hedit : ∀ w, v.ChangedBy node.id w change → ∃ F', F.edit name path change = some F' ∧ w.HasForest F' :=
    fun w hchange => hF.edit hv htxn hway hmutable hchange
  -- a change is one step of the client, and its forest is found in the view behind that
  have hstep : ∀ step : Client.Step,
      (step.run config : ClientM Client.Handles σ Client.Answer).Ends held v (fun _ _ w => v.ChangedBy node.id w change)
        (fun _ _ _ => True) →
      ((Client.Body.ofSteps [step]).run config : ClientM Client.Handles σ Unit).Ends held v
        (fun _ _ w => ∃ F', F.edit name path change = some F' ∧ w.HasForest F') (fun _ _ _ => True) := by
    intro step h₁
    exact Ends.ofSteps_cons h₁ fun _ _ w hchange => Ends.pure (hedit w hchange)
  cases change with
  | nothing => exact Ends.pure (hedit v (.nothing rfl))
  | make child kind =>
    refine hstep _ (Ends.mono (Ends.make config hfind child kind none) ?_ fun _ _ _ _ => trivial)
    rintro _ _ w ⟨child', -, hmake⟩
    exact .make hmake
  | delete child =>
    refine hstep _ (Ends.mono (Ends.delete config hfind child) ?_ fun _ _ _ _ => trivial)
    intro _ _ w hdelete
    exact .delete hdelete
  | setProps props =>
    refine hstep _ (Ends.mono (Ends.setProps config hfind props) ?_ fun _ _ _ _ => trivial)
    rintro _ _ w ⟨list, hlist, hset⟩
    exact .setProps hlist hset
  | setContents data =>
    refine hstep _ (Ends.mono (Ends.setContents config hfind hv.backed data) ?_ fun _ _ _ _ => trivial)
    rintro _ _ w ⟨file, -, -, -, hset⟩
    exact .setContents hset

/-- Down a way, and a change at its end. -/
theorem Ends.descend (config : Config) (change : Change) (way : List (String × String))
    (h₀ : Client.Arrived F name path h held v) :
    ((Client.Body.ofSteps (Client.descend change h way)).run config : ClientM Client.Handles σ Unit).Ends held v
      (fun _ _ w => ∃ F', F.edit name (path ++ way.map Prod.fst) change = some F' ∧ w.HasForest F')
      (fun _ _ _ => True) := by
  induction way generalizing path h held v with
  | nil =>
    rw [List.map_nil, List.append_nil]
    exact Ends.changeSteps config change h₀
  | cons child way ih =>
    obtain ⟨child, keep⟩ := child
    refine Ends.ofSteps_cons (Ends.enterChild config child h₀) fun _ held' w h₁ => ?_
    rw [List.map_cons, List.append_cons]
    exact ih h₁

/-- **A TRAIL THAT EDITS** a transaction edits the forest. -/
theorem Ends.editing (config : Config) (change : Change) (way : List (String × String)) (hv : v.Consistent)
    (hF : v.HasForest F) :
    ((Client.editing name h way change).run config : ClientM Client.Handles σ Unit).Ends held v
      (fun _ _ w => ∃ F', F.edit name (way.map Prod.fst) change = some F' ∧ w.HasForest F') (fun _ _ _ => True) := by
  refine Ends.ofSteps_cons (Ends.enterTxn config hv hF) fun _ held' w h₀ => ?_
  exact Ends.descend config change way h₀

end ClientM

namespace Filesystem

variable {σ : Type} [RecordStore σ] [LawfulStore σ]

/-- **A FILESYSTEM IS A LIST OF TREES.** Every filesystem that can come about stands for one forest. What succeeds is an
    operation on the forest: a transaction begins with the tree of its base, a trail that goes down a path and makes a
    change there edits one tree at that path, and a commit moves the tree of its transaction to the revisions. -/
theorem Reachable.refines_forest {fs : Filesystem σ} (h : Reachable fs) :
    ∃ F, fs.view.HasForest F ∧ (∀ F', fs.view.HasForest F' → F' = F) ∧
      (∀ base name fs', fs.begin base = (.ok name, fs') →
        F.revision base ≠ none ∧ F.txn name = none ∧ fs'.view.HasForest (F.begin base name)) ∧
      (∀ name handle way change held held' fs',
        runClient ((Client.editing name handle way change).run fs.config) held fs = ((.ok (), held'), fs') →
        ∃ F', F.edit name (way.map Prod.fst) change = some F' ∧ fs'.view.HasForest F') ∧
      (∀ name date number fs', fs.commit name date = (.ok number, fs') →
        F.txn name ≠ none ∧ F.revision number = none ∧ fs'.view.HasForest (F.commit name number)) ∧
      (∀ name fs', fs.abort name = (.ok (), fs') → F.txn name ≠ none ∧ fs'.view.HasForest (F.close name)) ∧
      ∀ config new date (store : σ) fs', LawfulStore.Valid store → LawfulStore.records store = fs.records →
        (openOver config new date store).1 = .ok fs' → fs'.view.HasForest F := by
  have hhealthy := h.healthy
  have hv := hhealthy.consistent
  obtain ⟨F, hF⟩ := hv.exists_forest
  have hedit : ∀ {edit : Edit} {w : View}, fs.view.Edited edit w → fs.view.Evolves w := fun hedit => hedit.follows.evolves
  refine ⟨F, hF, fun F' hF' => hF'.unique hF, ?_, ?_, ?_, ?_, ?_⟩
  · intro base name fs' hrun
    exact hF.begin hv (hhealthy.of_run (TrailM.Ends.begin base) (fun _ _ => hedit) hrun)
  · intro name handle way change held held' fs' hrun
    have hbody := ClientM.Ends.body (σ := σ) fs.config hv (Client.editing name handle way change) held
    exact (hhealthy.of_runClient (hbody.and (ClientM.Ends.editing fs.config change way hv hF)) (fun _ _ _ hw => hw.1) hrun).2
  · intro name date number fs' hrun
    exact hF.commit hv (hhealthy.of_run (TrailM.Ends.commit name date) (fun _ _ => hedit) hrun)
  · intro name fs' hrun
    exact hF.close (hhealthy.of_run (TrailM.Ends.close name) (fun _ _ => hedit) hrun)
  · intro config new date store fs' hvalid hrecords hopen
    obtain ⟨-, hsame⟩ := hhealthy.of_open hvalid hrecords hopen
    exact hsame ▸ hF

/-- A file is made in the tree of a transaction. -/
theorem Sample.file_made : ∃ F F', Sample.begun.view.HasForest F ∧ Sample.edited.view.HasForest F' ∧
    F.edit "0" [] (.make "a" .file) = some F' := by
  obtain ⟨F, hF, -, -, hedit, -⟩ := Sample.reachable_begun.refines_forest
  have hrun : ∃ held', runClient (Sample.makeFile.run Sample.begun.config) .empty Sample.begun =
      ((.ok (), held'), Sample.edited) := by
    have hok : (runClient (Sample.makeFile.run Sample.begun.config) .empty Sample.begun).1.1 = .ok () := by
      decide +kernel
    exact ⟨_, Prod.ext (Prod.ext hok rfl) rfl⟩
  obtain ⟨held', hrun⟩ := hrun
  obtain ⟨F', hF', hedited⟩ := hedit "0" "root" [] (.make "a" .file) .empty held' Sample.edited hrun
  exact ⟨F, F', hF, hedited, hF'⟩

end Filesystem

end VersionedTree

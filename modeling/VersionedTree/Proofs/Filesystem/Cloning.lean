import VersionedTree.Proofs.Filesystem.Revocation
import VersionedTree.Proofs.Tree.Clones

/-!
# Cloning — a second time it only looks

The root of a transaction and the children of its directories are cloned when they are asked for the first time. Asked
again, through whatever handle, in the same trail or in a later one, the clone itself is given, as it is then, and nothing
is staged. That goes on until the entry is removed or the transaction ends.

* **`Client.Taken.Clones`** and **`Client.Taken.Removes`** — the steps that clone what is at a site, or remove its entry.
* **`Taken.cloned`** and **`Body.cloned`** — a clone outlasts all other steps of a trail.
* **`Filesystem.Spares`** — the steps of the time of a filesystem that a clone outlasts.
* **`Taken.gives_again`** — what is a clone already is given as it is.
* **`Reachable.cloning_is_idempotent`** — the theorem.
-/

namespace VersionedTree

variable {σ : Type} [RecordStore σ] [LawfulStore σ]

/-! ## Steps that look only -/

namespace TrailM

variable {s : Trail Records} {name : String}

/-- A transaction with a root of its own is entered there. -/
theorem Looks.ofTransaction_own {txn : Transaction} {root : NodeRevision} (htxn : s.records.view.txn name = some txn)
    (hown : txn.root ≠ txn.baseRoot) (hroot : s.records.view.node txn.root = some root) :
    (Root.ofTransaction name : TrailM σ Node).Looks s (fun node => node = ⟨txn.root, root⟩) fun _ => False := by
  refine Looks.bind (Looks.readTxn_of_some htxn) ?_ fun _ he => he
  rintro _ rfl
  rw [if_neg hown]
  exact Looks.load_of_some hroot

/-- A child that is mutable is given as it is. -/
theorem Looks.cloneChildStep_mutable {node : Node} {entry : Entry} {child : NodeRevision}
    (hmutable : node.revision.isMutable = true) (hentry : node.entry name = .ok entry)
    (hchild : s.records.view.node entry.id = some child) (hchildMutable : child.isMutable = true) :
    (node.cloneChildStep name : TrailM σ (Node × Node)).Looks s (fun r => r.1 = ⟨entry.id, child⟩) fun _ => False := by
  have hcheck : (node.requireMutable : TrailM σ Unit) = Pure.pure () := if_pos hmutable
  have hgiven : (⟨entry.id, child⟩ : Node).isMutable = true := hchildMutable
  rw [Node.cloneChildStep, hcheck, hentry]
  refine Looks.bind (Looks.pure trivial) (fun _ (_ : True) => ?_) fun _ (he : False) => he
  refine Looks.bind (Q := fun found => entry = found) (Looks.pure rfl) ?_ fun _ (he : False) => he
  rintro _ rfl
  refine Looks.bind (Looks.load_of_some hchild) ?_ fun _ he => he
  rintro _ rfl
  rw [if_pos hgiven]
  exact Looks.pure rfl

end TrailM

namespace ClientM

variable {handles : Client.Handles} {h : String} {node : Node} {s : Trail Records}

/-- The root that a transaction has of its own is given as it is. -/
theorem Comes.cloneRoot_own (config : Config) {name : String} {txn : Transaction} {root : NodeRevision}
    (htxn : s.records.view.txn name = some txn) (hown : txn.root ≠ txn.baseRoot)
    (hroot : s.records.view.node txn.root = some root) (keep : Option String) :
    ((Client.Step.cloneRoot name keep).run config : ClientM Client.Handles σ Client.Answer).Comes handles s
      (fun answer _ s' => answer = .node ⟨txn.root, root⟩ ∧ s' = s) fun _ _ _ => False := by
  refine Comes.bind (Comes.lift (TrailM.Looks.ofTransaction_own htxn hown hroot)) ?_ fun _ _ _ he => he.2.2
  rintro _ _ _ ⟨-, rfl, rfl⟩
  exact Comes.give keep _

/-- A mutable child is given as it is, through a handle that may be an old one. -/
theorem Comes.cloneChild_mutable (config : Config) (hfind : handles.find? h = some node) {dir child : NodeRevision}
    {name : String} {entry : Entry} (hdir : s.records.view.node node.id = some dir) (hmutable : dir.isMutable = true)
    (hentry : (⟨node.id, dir⟩ : Node).entry name = .ok entry) (hchild : s.records.view.node entry.id = some child)
    (hchildMutable : child.isMutable = true) (keep : Option String) :
    ((Client.Step.cloneChild h name keep).run config : ClientM Client.Handles σ Client.Answer).Comes handles s
      (fun answer _ s' => answer = .node ⟨entry.id, child⟩ ∧ s' = s) fun _ _ _ => False := by
  have hchange : (Node.cloneChild name : Node.HandleM σ Node).Comes node s
      (fun found _ s' => found = ⟨entry.id, child⟩ ∧ s' = s) fun _ _ _ => False := by
    show (Node.change (Node.cloneChildStep name) : Node.HandleM σ Node).Comes node s _ _
    refine Comes.change (Q := fun (found : Node) s' => found = ⟨entry.id, child⟩ ∧ s' = s) (E := fun _ _ => False) hdir ?_
    have hgiven : ((⟨node.id, dir⟩ : Node).cloneChildStep name : TrailM σ (Node × Node)).Looks s
        (fun r => r.1 = ⟨entry.id, child⟩) fun _ => False :=
      .cloneChildStep_mutable hmutable hentry hchild hchildMutable
    exact TrailM.Comes.mono hgiven (fun _ _ hq => ⟨hq.2, hq.1⟩) fun _ _ he => he.2
  refine Comes.withHandle hfind (Comes.bind (Q := fun found _ s' => found = ⟨entry.id, child⟩ ∧ s' = s)
    (E := fun _ _ _ => False) (Comes.through hchange) ?_ fun _ _ _ he => he)
  rintro _ _ _ ⟨rfl, rfl⟩
  exact Comes.give keep _

end ClientM

/-! ## Steps of a trail -/

namespace Client.Taken

variable {base : Records} {s : Taken σ} {txn : String} {site : Site} {id : NodeId}

/-- True of a step that clones what is at a site in the tree of a transaction. -/
inductive Clones (s : Taken σ) (txn : String) : Site → Prop where
  | root {keep : Option String} (hstep : s.step = .cloneRoot txn keep) : s.Clones txn .root
  | entry {h name : String} {keep : Option String} {node : Node} (hstep : s.step = .cloneChild h name keep)
      (hfind : s.held.find? h = some node) : s.Clones txn (.entry node.id name)

/-- True of a step that removes the entry of a site. -/
inductive Removes (s : Taken σ) : Site → Prop where
  | entry {h name : String} {node : Node} {answer : Answer} (hstep : s.step = .delete h name)
      (hfind : s.held.find? h = some node) (hdone : s.result = .ok answer) : s.Removes (.entry node.id name)

omit [LawfulStore σ] in
/-- Only deleting an entry takes away what stands there. -/
theorem Removes.exists_delete (h : s.Removes site) : ∃ handle name, s.step = .delete handle name := by
  cases h with
  | entry hstep _ _ => exact ⟨_, _, hstep⟩

/-- What is given is the node `id` as it is when the step is taken. It is mutable, and nothing is staged. -/
def GivesAgain (s : Taken σ) (id : NodeId) : Prop :=
  ∃ revision, s.before.node id = some revision ∧ revision.isMutable = true ∧
    (s.result = .ok (.node ⟨id, revision⟩) ∧ s.trailAfter.staged = s.trail.staged ∨
      ∃ e, s.result = .error e ∧ e.IsFault σ)

/-- The first time, a clone is given. -/
theorem Clones.cloned (h : s.Clones txn site) (hs : s.trail.Shows base s.before) (hv : s.before.Consistent)
    (hreaches : ∀ dir name, site = .entry dir name → s.before.Reaches txn dir) {clone : Node}
    (hresult : s.result = .ok (.node clone)) :
    View.IsTxnName txn ∧ s.after.Current clone ∧ s.after.Cloned txn site clone.id := by
  cases h with
  | @root keep hstep =>
    obtain ⟨root, hanswer, hcurrent, hopen, hcloned⟩ :=
      of_ends_ok hs (hstep ▸ ClientM.Ends.cloneRoot_cloned hv s.config txn keep) hresult
    cases hanswer
    exact ⟨hv.isTxnName hopen, hcurrent, hcloned⟩
  | @entry h name keep node hstep hfind =>
    have hreaches := hreaches node.id name rfl
    obtain ⟨child, hanswer, hcurrent, hcloned⟩ :=
      of_ends_ok hs (hstep ▸ ClientM.Ends.cloneChild_cloned hv s.config hfind hreaches name keep) hresult
    cases hanswer
    exact ⟨hreaches.isTxnName hv, hcurrent, hcloned⟩

/-- **A CLONE OUTLASTS A STEP** that does not remove its entry. -/
theorem cloned (hs : s.trail.Shows base s.before) (hv : s.before.Consistent) (hname : View.IsTxnName txn)
    (hcloned : s.before.Cloned txn site id) (hkept : ¬ s.Removes site) : s.after.Cloned txn site id := by
  rcases of_ends hs (ClientM.Ends.intends s.config hv.backed s.step) with
    ⟨answer, hresult, hsame | ⟨edit, hintends, hedit⟩⟩ | ⟨e, -, hsame | hedit | ⟨other, clone, hedit⟩⟩
  · exact hsame ▸ hcloned
  · refine hcloned.edited hv hname hedit fun hundoes => ?_
    generalize hstep : s.step = step at hintends
    cases hintends with
    | delete hfind name =>
      obtain rfl : site = _ := hundoes
      exact hkept (.entry hstep hfind hresult)
    | _ => exact hundoes
  · exact hsame ▸ hcloned
  · exact hcloned.edited hv hname hedit fun hundoes => hundoes
  · exact hcloned.edited hv hname hedit fun hundoes => hundoes

/-- What a step comes to on the records as they are is its result, and what it leaves staged. -/
theorem of_comes {Q : Answer → Handles → Trail Records → Prop} {E : Error → Handles → Trail Records → Prop}
    (hvalid : LawfulStore.Valid s.trail.store)
    (h : (s.step.run s.config : ClientM Handles σ Answer).Comes s.held s.trail.plain Q E) :
    (∃ answer s', s.result = .ok answer ∧ s.trailAfter.Over s' ∧ Q answer s.heldAfter s') ∨
      ∃ e s', s.result = .error e ∧ s.trailAfter.Over s' ∧ (e.IsFault σ ∨ E e s.heldAfter s') := by
  rcases h s.trail (Trail.over_plain hvalid) with
    ⟨answer, held', t', s', hrun, ht', hq⟩ | ⟨e, held', t', s', hrun, ht', he⟩
  · have hrun' : s.run = ((.ok answer, held'), t') := hrun
    rw [result, trailAfter, heldAfter, hrun']
    exact .inl ⟨answer, s', rfl, ht', hq⟩
  · have hrun' : s.run = ((.error e, held'), t') := hrun
    rw [result, trailAfter, heldAfter, hrun']
    exact .inr ⟨e, s', rfl, ht', he⟩

/-- **THE SECOND TIME**, the clone is given as it is, and nothing is staged. -/
theorem Clones.gives_again (h : s.Clones txn site) (hvalid : LawfulStore.Valid s.trail.store) (hv : s.before.Consistent)
    (hcloned : s.before.Cloned txn site id) : s.GivesAgain id := by
  obtain ⟨revision, hrevision, hmutable⟩ := hcloned.isMutable
  refine ⟨revision, hrevision, hmutable, ?_⟩
  have hcomes : (s.step.run s.config : ClientM Handles σ Answer).Comes s.held s.trail.plain
      (fun answer _ s' => answer = .node ⟨id, revision⟩ ∧ s' = s.trail.plain) fun _ _ _ => False := by
    cases h with
    | @root keep hstep =>
      obtain ⟨record, htxn, rfl⟩ := hcloned.stands
      -- the root of the base is immutable, so the root of the transaction is another node
      have hown : record.root ≠ record.baseRoot := by
        intro hfirst
        obtain ⟨base, hbase, himmutable⟩ := hv.baseRoot_immutable htxn
        exact View.not_isMutable (hfirst ▸ hbase) himmutable hcloned.isMutable
      rw [hstep]
      exact ClientM.Comes.cloneRoot_own (s := s.trail.plain) s.config htxn hown hrevision keep
    | @entry h name keep node hstep hfind =>
      have hnames : s.before.Names node.id name id := hcloned.stands
      -- what is above a mutable node is mutable, so the check of the directory passes
      obtain ⟨dir, hdir, hdirMutable⟩ := hv.mutable_of_child hnames.links hcloned.isMutable
      obtain ⟨dir', entry, hdir', hentry, rfl⟩ := hnames
      cases hdir.symm.trans hdir'
      obtain ⟨entries, hbody, hentry'⟩ := NodeRevision.body_of_find? hentry
      have hgiven : (⟨node.id, dir⟩ : Node).entry name = .ok entry := Node.entry_eq_ok.2 ⟨entries, hbody, hentry'⟩
      rw [hstep]
      exact ClientM.Comes.cloneChild_mutable (s := s.trail.plain) s.config hfind hdir hdirMutable hgiven hrevision hmutable
        keep
  rcases of_comes hvalid hcomes with ⟨_, _, hresult, hover, rfl, rfl⟩ | ⟨e, _, hresult, -, hfault | hfalse⟩
  · exact .inl ⟨hresult, hover.staged⟩
  · exact .inr ⟨e, hresult, hfault⟩
  · exact hfalse.elim

end Client.Taken

/-! ## Trails -/

namespace Client

variable {base : Records} {v : View} {config : Config} {held : Handles} {t : Trail σ} {body : Body} {s : Taken σ}
  {earlier later : List (Taken σ)} {txn : String} {site : Site} {id : NodeId}

omit [LawfulStore σ] in
/-- What comes after a step of a trail is what the client does in the rest of it. -/
theorem Body.exists_rest (h : body.taken config held t = earlier ++ s :: later) :
    ∃ rest : Body, rest.taken config s.heldAfter s.trailAfter = later ∧
      rest.run config s.heldAfter s.trailAfter = body.run config held t := by
  induction body generalizing earlier held t with
  | finish => cases earlier <;> cases h
  | fail e => cases earlier <;> cases h
  | step step next ih =>
    cases earlier with
    | nil =>
      cases h
      exact ⟨_, rfl, rfl⟩
    | cons first earlier => exact ih _ (List.cons.inj h).2

/-- **A CLONE OUTLASTS A TRAIL**, as long as no step of it removes its entry. -/
theorem Body.cloned (hv : v.Consistent) (ht : t.Shows base v) (hname : View.IsTxnName txn)
    (hcloned : v.Cloned txn site id) (config : Config) (body : Body) (held : Handles) :
    (∀ earlier s later, body.taken config held t = earlier ++ s :: later → (∀ b ∈ earlier, ¬ b.Removes site) →
      s.before.Cloned txn site id) ∧
    ((∀ b ∈ body.taken config held t, ¬ b.Removes site) →
      (body.run config held t).2.records.view.Cloned txn site id) := by
  -- the invariant is that the clone stands at its site; only a step that removes the site may break it
  induction body generalizing v held t with
  | finish =>
    refine ⟨fun earlier s later h => ?_, fun _ => ?_⟩
    · cases earlier <;> cases h
    · exact ht.view.symm ▸ hcloned
  | fail e =>
    refine ⟨fun earlier s later h => ?_, fun _ => ?_⟩
    · cases earlier <;> cases h
    · exact ht.view.symm ▸ hcloned
  | step step next ih =>
    let first : Taken σ := ⟨config, step, held, t⟩
    obtain rfl : first.before = v := ht.view
    obtain ⟨hafter, hstep⟩ := Taken.shows_after (s := first) ht hv
    have hv' := hv.evolves hstep.follows.evolves
    have hrest (hkept : ¬ first.Removes site) :=
      ih first.result hv' hafter (Taken.cloned ht hv hname hcloned hkept) first.heldAfter
    refine ⟨fun earlier s later h hkept => ?_, fun hkept => ?_⟩
    · cases earlier with
      | nil =>
        cases h
        exact hcloned
      | cons head earlier =>
        obtain ⟨rfl, htail⟩ := List.cons.inj h
        refine (hrest (hkept _ List.mem_cons_self)).1 earlier s later htail ?_
        exact fun b hb => hkept b (List.mem_cons_of_mem _ hb)
    · exact (hrest (hkept _ List.mem_cons_self)).2 fun b hb => hkept b (List.mem_cons_of_mem _ hb)

end Client

/-! ## The time of a filesystem -/

namespace Filesystem

variable {α : Type} {fs fs' : Filesystem σ} {txn : String} {site : Site} {id : NodeId}

/-- One step of the time of a filesystem that does not end the transaction and does not remove the entry of a site. A
    transaction may be refused, and a trail that is thrown away may have done anything. -/
inductive Spares (txn : String) (site : Site) (fs : Filesystem σ) : Filesystem σ → Prop where
  | begin (base : UInt64) : Spares txn site fs (fs.begin base).2
  | commit (name date : String) (h : name = txn → ∀ number, (fs.commit name date).1 ≠ .ok number) :
      Spares txn site fs (fs.commit name date).2
  | abort (name : String) (h : name = txn → (fs.abort name).1 ≠ .ok ()) : Spares txn site fs (fs.abort name).2
  | completed (body : Client.Body) (held : Client.Handles) (h : fs.Completes body held)
      (hkept : ∀ s ∈ fs.taken body held, ¬ s.Removes site) : Spares txn site fs (runClient (body.run fs.config) held fs).2
  | discarded (body : Client.Body) (held : Client.Handles) (h : ¬ fs.Completes body held) :
      Spares txn site fs (runClient (body.run fs.config) held fs).2
  | reopen {config : Config} {new : Metadata} {date : String} {store : σ} {fs' : Filesystem σ}
      (hvalid : LawfulStore.Valid store) (hrecords : LawfulStore.records store = fs.records)
      (hopen : (openOver config new date store).1 = .ok fs') : Spares txn site fs fs'

/-- Whatever spares a site is a step of the filesystem. -/
theorem Spares.step (h : fs.Spares txn site fs') : fs.Step fs' := by
  cases h with
  | begin base => exact .begin base
  | commit name date _ => exact .commit name date
  | abort name _ => exact .abort name
  | completed body held _ _ => exact .trail body held
  | discarded body held _ => exact .trail body held
  | reopen hvalid hrecords hopen => exact .reopen hvalid hrecords hopen

/-- A clone outlasts an operation that is one edit, unless this is one that undoes it. -/
theorem Healthy.run_cloned (h : fs.Healthy) {m : TrailM σ α} (edit : α → Edit) {E : Error → View → Prop}
    (hm : m.Ends fs.view (fun a w => fs.view.Edited (edit a) w) E) (hname : View.IsTxnName txn)
    (hcloned : fs.view.Cloned txn site id) (hkept : ∀ a, (run m fs).1 = .ok a → ¬ (edit a).Undoes txn site) :
    (run m fs).2.view.Cloned txn site id := by
  obtain ⟨fs', -, -, ⟨a, heq, hedit⟩ | ⟨e, heq, hsame, -⟩⟩ := h.run_cases hm fun _ _ hedit => hedit.follows.evolves
  · rw [heq] at hkept ⊢
    exact hcloned.edited h.consistent hname hedit (hkept a rfl)
  · have hview : fs'.view = fs.view := congrArg Records.view hsame
    rw [heq]
    exact hview ▸ hcloned

/-- **A CLONE OUTLASTS A STEP** of the time of a filesystem that spares its site. -/
theorem Spares.cloned (hstep : fs.Spares txn site fs') (h : fs.Healthy) (hname : View.IsTxnName txn)
    (hcloned : fs.view.Cloned txn site id) : fs'.view.Cloned txn site id := by
  cases hstep with
  | begin base => exact h.run_cloned (Edit.begin base) (TrailM.Ends.begin base) hname hcloned fun _ _ hundoes => hundoes
  | commit name date hends =>
    refine h.run_cloned (Edit.commit name date) (TrailM.Ends.commit name date) hname hcloned ?_
    exact fun number hok hundoes => hends hundoes number hok
  | abort name hends =>
    refine h.run_cloned (fun _ => Edit.close name) (TrailM.Ends.close name) hname hcloned ?_
    exact fun _ hok hundoes => hends hundoes hok
  | completed body held hcompletes hkept =>
    rw [h.view_of_completes hcompletes]
    exact (Client.Body.cloned h.consistent h.shows.start hname hcloned fs.config body held).2 hkept
  | discarded body held hfails =>
    rw [h.view_of_not_completes hfails]
    exact hcloned
  | reopen hvalid hrecords hopen => exact (h.of_open hvalid hrecords hopen).2 ▸ hcloned

/-- Any number of steps that spare a site. -/
def SparesAll (txn : String) (site : Site) : Filesystem σ → Filesystem σ → Prop :=
  Relation.ReflTransGen (Spares txn site)

/-- A clone stands at its site as long as all steps spare it. -/
theorem SparesAll.cloned (hsteps : fs.SparesAll txn site fs') (h : Reachable fs) (hname : View.IsTxnName txn)
    (hcloned : fs.view.Cloned txn site id) : Reachable fs' ∧ fs'.view.Cloned txn site id := by
  induction hsteps with
  | refl => exact ⟨h, hcloned⟩
  | tail _ hstep ih => exact ⟨ih.1.step hstep.step, hstep.cloned ih.1.healthy hname ih.2⟩

/-- A clone is given again in a trail over the filesystem, if its entry is not removed in the trail before. -/
theorem Reachable.gives_again (h : Reachable fs) (hname : View.IsTxnName txn) (hcloned : fs.view.Cloned txn site id)
    {body : Client.Body} {held : Client.Handles} {earlier later : List (Client.Taken σ)} {s : Client.Taken σ}
    (htaken : fs.taken body held = earlier ++ s :: later) (hkept : ∀ b ∈ earlier, ¬ b.Removes site)
    (hclones : s.Clones txn site) : s.GivesAgain id := by
  obtain ⟨hshows, hbefore, -⟩ := h.taken (htaken ▸ List.mem_append_right earlier List.mem_cons_self)
  obtain ⟨hthere, -⟩ :=
    Client.Body.cloned h.healthy.consistent h.healthy.shows.start hname hcloned fs.config body held
  exact hclones.gives_again hshows.valid hbefore (hthere earlier s later htaken hkept)

/-- **CLONING IS IDEMPOTENT** until the transaction ends. Take a step, in any trail over any filesystem that can come about,
    that has cloned the root of a transaction, or an entry of a directory in its tree. (a) The node that it gives is mutable,
    and as it is then. (b) Any later step of the trail that clones what is at this site, through whatever handle, gives the
    same node again, as it is by then, which is mutable still, and stages nothing, unless the entry was removed in between.
    (c) If the trail is completed, the same goes for every trail from then on, until the entry is removed in a trail that is
    completed, or in this one, or the transaction is committed or thrown away. -/
theorem Reachable.cloning_is_idempotent (h : Reachable fs) {body : Client.Body} {held : Client.Handles}
    {earlier later : List (Client.Taken σ)} {s : Client.Taken σ} (htaken : fs.taken body held = earlier ++ s :: later)
    (hclones : s.Clones txn site)
    (hreaches : ∀ dir name, site = .entry dir name → s.before.Reaches txn dir) {clone : Node}
    (hresult : s.result = .ok (.node clone)) :
    (clone.isMutable = true ∧ s.after.Current clone) ∧
    (∀ between s' rest, later = between ++ s' :: rest → (∀ b ∈ between, ¬ b.Removes site) → s'.Clones txn site →
      s'.GivesAgain clone.id) ∧
    (fs.Completes body held → (∀ b ∈ later, ¬ b.Removes site) →
      ∀ fs', (runClient (body.run fs.config) held fs).2.SparesAll txn site fs' →
        fs'.view.IsMutable clone.id ∧ ∀ body' held' between s' rest, fs'.taken body' held' = between ++ s' :: rest →
          (∀ b ∈ between, ¬ b.Removes site) → s'.Clones txn site → s'.GivesAgain clone.id) := by
  obtain ⟨hshows, hv, -⟩ := h.taken (htaken ▸ List.mem_append_right earlier List.mem_cons_self)
  obtain ⟨hname, hcurrent, hcloned⟩ := hclones.cloned hshows hv hreaches hresult
  obtain ⟨hafter, hstep⟩ := Client.Taken.shows_after hshows hv
  have hv' := hv.evolves hstep.follows.evolves
  -- the rest of the trail starts from where the clone stands
  obtain ⟨rest, htail, hrun⟩ := Client.Body.exists_rest htaken
  have hrest := Client.Body.cloned hv' hafter hname hcloned fs.config rest s.heldAfter
  rw [htail, hrun] at hrest
  refine ⟨⟨?_, hcurrent⟩, ?_, ?_⟩
  · obtain ⟨revision, hrevision, hmutable⟩ := hcloned.isMutable
    cases hcurrent.symm.trans hrevision
    exact hmutable
  · rintro between s' rest' rfl hkept hagain
    have hmem : s' ∈ fs.taken body held := by
      rw [htaken]
      exact List.mem_append_right _ (List.mem_cons_of_mem _ (List.mem_append_right _ List.mem_cons_self))
    obtain ⟨hshows', hbefore, -⟩ := h.taken hmem
    exact hagain.gives_again hshows'.valid hbefore (hrest.1 between s' rest' rfl hkept)
  · intro hcompletes hkept fs' hsteps
    have hcompleted : (runClient (body.run fs.config) held fs).2.view.Cloned txn site clone.id := by
      rw [h.healthy.view_of_completes hcompletes]
      exact hrest.2 hkept
    obtain ⟨hreachable, hthere⟩ := hsteps.cloned (h.step (.trail body held)) hname hcompleted
    refine ⟨hthere.isMutable, fun body' held' between s' rest' htaken' hkept' hagain => ?_⟩
    exact hreachable.gives_again hname hthere htaken' hkept' hagain

/-! ## A file that is cloned, changed and cloned again -/

namespace Sample

/-- A transaction is begun on the revision that has the file. -/
def revised : Filesystem Records :=
  (committed.begin 1).2

/-- The filesystem with a revision to clone from can be reached. -/
theorem reachable_revised : Reachable revised :=
  (reachable_new.steps steps_committed).step (.begin 1)

/-- A client enters the transaction and clones the file. -/
def cloning : Client.Body :=
  .ofSteps [.cloneRoot "1" (some "r"), .cloneChild "r" "a" (some "f")]

def enteringRevised : Client.Taken Records :=
  ⟨revised.config, .cloneRoot "1" (some "r"), .empty, Trail.start revised.store⟩

def cloningFile : Client.Taken Records :=
  ⟨revised.config, .cloneChild "r" "a" (some "f"), enteringRevised.heldAfter, enteringRevised.trailAfter⟩

def withClone : Filesystem Records :=
  (runClient (cloning.run revised.config) .empty revised).2

/-- In another trail, the client gives the clone a property. -/
def marking : Client.Body :=
  .ofSteps [.setProps "f" (.list [.atom (Text.toBytes "k"), .atom (Text.toBytes "v")])]

def markingClone : Client.Taken Records :=
  ⟨withClone.config, .setProps "f" (.list [.atom (Text.toBytes "k"), .atom (Text.toBytes "v")]), cloningFile.heldAfter,
    Trail.start withClone.store⟩

def marked : Filesystem Records :=
  (runClient (marking.run withClone.config) cloningFile.heldAfter withClone).2

/-- In a third one, it clones the file again, through the handle that it has kept on the root directory. -/
def cloningAgain : Client.Taken Records :=
  ⟨marked.config, .cloneChild "r" "a" none, cloningFile.heldAfter, Trail.start marked.store⟩

/-- The clone is given as it was changed in between, and nothing is staged. -/
theorem marked_clone_given_again :
    cloningFile.result = .ok (.node ⟨.first 1 2, .empty, [.mutable "0.2"], .file none⟩) ∧
      cloningAgain.result =
        .ok (.node ⟨.first 1 2, ⟨[(Text.toBytes "k", Text.toBytes "v")]⟩, [.mutable "0.2"], .file none⟩) ∧
      cloningAgain.trailAfter.staged = cloningAgain.trail.staged := by
  have hentered : enteringRevised.result = .ok (.node ⟨.first 0 2, .empty, [.mutable "1"], .dir [⟨"a", .ofNode 1⟩]⟩) := by
    decide +kernel
  have hcloned : cloningFile.result = .ok (.node ⟨.first 1 2, .empty, [.mutable "0.2"], .file none⟩) := by decide +kernel
  have hmarked : markingClone.result = .ok .done := by decide +kernel
  have hfind : cloningFile.held.find? "r" = some ⟨.first 0 2, .empty, [.mutable "1"], .dir [⟨"a", .ofNode 1⟩]⟩ := by
    decide +kernel
  have hfind' : cloningAgain.held.find? "r" = some ⟨.first 0 2, .empty, [.mutable "1"], .dir [⟨"a", .first 1 2⟩]⟩ := by
    decide +kernel
  have htxn : cloningFile.before.txn "1" = some ⟨.first 0 2, .first 0 1, 1⟩ := by decide +kernel
  have hcompletes : revised.Completes cloning .empty := by rw [Completes]; decide +kernel
  have hcompletes' : withClone.Completes marking cloningFile.heldAfter := by rw [Completes]; decide +kernel
  have hnode : cloningAgain.before.node (.first 1 2) =
      some ⟨⟨[(Text.toBytes "k", Text.toBytes "v")]⟩, [.mutable "0.2"], .file none⟩ := by decide +kernel
  have htaken : revised.taken cloning .empty = [enteringRevised] ++ cloningFile :: [] :=
    (Client.Body.taken_ofSteps rfl hentered).trans
      (congrArg (enteringRevised :: ·) (Client.Body.taken_ofSteps rfl hcloned))
  have hspares : withClone.Spares "1" (.entry (.first 0 2) "a") marked := by
    refine .completed marking cloningFile.heldAfter hcompletes' fun s hs => ?_
    have hmarking : withClone.taken marking cloningFile.heldAfter = [markingClone] :=
      Client.Body.taken_ofSteps rfl hmarked
    obtain rfl := List.mem_singleton.1 (hmarking ▸ hs)
    intro hremoves
    obtain ⟨h, name, hstep⟩ := hremoves.exists_delete
    cases hstep
  have hclones : cloningFile.Clones "1" (.entry (.first 0 2) "a") := .entry rfl hfind
  have hagain : cloningAgain.Clones "1" (.entry (.first 0 2) "a") := .entry rfl hfind'
  obtain ⟨-, -, hlater⟩ := reachable_revised.cloning_is_idempotent htaken hclones
    (fun dir name hsite => by cases hsite; exact ⟨_, htxn, .inl .refl⟩) hcloned
  obtain ⟨-, hgiven⟩ := hlater hcompletes (fun _ hb => by cases hb) marked (.single hspares)
  obtain ⟨revision, hrevision, -, hresult⟩ := hgiven (.ofSteps [.cloneChild "r" "a" none]) cloningFile.heldAfter []
    cloningAgain _ rfl (fun _ hb => by cases hb) hagain
  cases hnode.symm.trans hrevision
  exact ⟨hcloned, hresult.resolve_right fun ⟨e, _, hfault⟩ => Records.not_isFault e hfault⟩

end Sample

end Filesystem

end VersionedTree

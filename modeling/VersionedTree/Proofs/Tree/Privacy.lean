import VersionedTree.Proofs.Tree.Answers
import VersionedTree.Proofs.Tree.Lockstep

/-!
# Privacy — the steps of a client within one transaction

A client that works on one transaction gets everything it holds from there, or from revisions. It takes the same step on
both sides of a mirror, and cannot tell the two apart by what it gets. Seen from any other transaction it does nothing.

* **`Step.IsPrivate`** — the steps that enter no other transaction, and name no ids.
* **`Coupled`** — the client holds twins on both sides of a mirror.
* **`ClientM.Pairs.step`** — it gets the same on both sides, and holds twins again.
* **`Ends.apart`** — what it does is not seen by any other transaction.
-/

namespace VersionedTree

/-- True of the steps that a client may take that works on a transaction only. Ids are nothing that it knows of. -/
def Client.Step.IsPrivate (name : String) : Client.Step → Prop
  | cloneRoot txn _ => txn = name
  | load _ _ => False
  | _ => True

/-- True of handles that name nothing but what a transaction sees, be it as it is now, or as it was once. -/
def View.Knows (v : View) (name : String) (n : Node) : Prop :=
  (v.seen name).NodeTwin name n n

/-- What is held on the two sides are twins, and the views mirror each other. -/
def Coupled (name : String) (held : Client.Handles) (v : View) (held' : Client.Handles) (u : View) : Prop :=
  ∃ ρ, Mirror ρ name v u ∧ ρ.HeldTwin name held held'

namespace Coupled

variable {name : String} {held held' : Client.Handles} {v w u : View}

theorem flip (h : Coupled name held v held' u) : Coupled name held' u held v := by
  obtain ⟨ρ, hmirror, hheld⟩ := h
  exact ⟨ρ.flip, hmirror.flip, hheld.flip⟩

/-- On either side the client knows nothing but what the transaction sees. -/
theorem knows (h : Coupled name held v held' u) {handle : String} {n : Node} (hfind : held.find? handle = some n) :
    v.Knows name n := by
  obtain ⟨ρ, hmirror, hheld⟩ := h
  have hrel := hheld handle
  rw [hfind] at hrel
  generalize held'.find? handle = found at hrel
  cases hrel with
  | some htwin => exact htwin.left.mono hmirror.left_le

/-- The transaction sees whatever the client holds. -/
theorem sees (h : Coupled name held v held' u) {handle : String} {n : Node} (hfind : held.find? handle = some n) :
    v.Sees name n.id :=
  (h.knows hfind).id.2

/-- A view where a client knows no more than that is coupled with itself. -/
theorem of_knows (hv : v.Consistent) (hopen : v.txn name ≠ none)
    (hknows : ∀ handle n, held.find? handle = some n → v.Knows name n) : Coupled name held v held v := by
  obtain ⟨txn, htxn⟩ := Option.ne_none_iff_exists'.1 hopen
  refine ⟨v.seen name, hv.mirror htxn, fun handle => ?_⟩
  cases hfind : held.find? handle with
  | none => exact .none
  | some n => exact .some (hknows handle n hfind)

/-- The transaction is open on either side. -/
theorem txn_ne_none (h : Coupled name held v held' u) : v.txn name ≠ none := by
  obtain ⟨ρ, hmirror, -⟩ := h
  obtain ⟨txn, -, htxn, -⟩ := hmirror.txn
  exact htxn ▸ nofun

/-- What is done beside the transaction leaves both sides coupled. -/
theorem beside (h : Coupled name held v held' u) (hw : v.Beside name w) : Coupled name held w held' u := by
  obtain ⟨ρ, hmirror, hheld⟩ := h
  exact ⟨ρ, hmirror.beside hw, hheld⟩

end Coupled

variable {σ α : Type} [RecordStore σ] [LawfulStore σ]

namespace ClientM

variable {ρ : Renaming} {name : String} {v u : View} {held held' : Client.Handles} {n n' : Node} {handle : String}

/-! ## Through twin handles -/

/-- Twin handles are loaded again as fresh twins. -/
theorem Pairs.reload (h : Mirror ρ name v u) (hids : ρ.ids n.id n'.id) {E : Error → Node → View → Error → Node → View → Prop} :
    (Node.reload : Node.HandleM σ Unit).Pairs Node.reload n n' v u
      (fun _ x w _ x' w' => (w = v ∧ w' = u) ∧ ρ.NodeTwin name x x' ∧ v.Fresh x ∧ u.Fresh x') E := by
  refine .get (.bind (.lift (Q := fun x _ w x' _ w' => (w = v ∧ w' = u) ∧ ρ.NodeTwin name x x' ∧ v.Fresh x ∧ u.Fresh x')
    (TrailM.Pairs.load (E := fun _ _ _ _ => False) h hids) (fun _ _ _ _ hq => ⟨hq.1, hq.2.2⟩) fun _ _ _ _ he => he.elim)
    ?_ fun _ _ _ _ _ _ he => he)
  intro x _ w x' _ w' hq base base' t t' ht ht' _ _
  exact .inl ⟨⟨⟩, x, t, w, ⟨⟩, x', t', w', rfl, ht, rfl, ht', hq⟩

/-- A step through twin handles is taken on fresh twins. -/
theorem Pairs.change {step step' : Node → TrailM σ (α × Node)} {P : Renaming → α → α → Prop} (h : Mirror ρ name v u)
    (hids : ρ.ids n.id n'.id)
    (hstep : ∀ x x', ρ.NodeTwin name x x' → v.Fresh x → u.Fresh x' → (step x).Pairs (step' x') v u
      (TrailM.ComeTo ρ name fun τ r r' => P τ r.1 r'.1 ∧ τ.NodeTwin name r.2 r'.2) (TrailM.FailAlike v u)) :
    (Node.change step).Pairs (Node.change step') n n' v u
      (fun a x w a' x' w' => TrailM.ComeTo ρ name (fun τ a a' => P τ a a' ∧ τ.NodeTwin name x x') a w a' w')
      (fun e x w e' x' w' => TrailM.FailAlike v u e w e' w' ∧ ρ.NodeTwin name x x') := by
  refine .bind (Pairs.reload (E := fun _ _ _ _ _ _ => False) h hids) ?_ fun _ _ _ _ _ _ he => he.elim
  rintro _ x _ _ x' _ ⟨⟨rfl, rfl⟩, htwin, hfresh, hfresh'⟩
  refine .get (.bind (.lift (Q := fun r _ w r' _ w' =>
      TrailM.ComeTo ρ name (fun τ r r' => P τ r.1 r'.1 ∧ τ.NodeTwin name r.2 r'.2) r w r' w')
    (hstep x x' htwin hfresh hfresh') (fun _ _ _ _ hq => hq) fun _ _ _ _ he => ⟨he, htwin⟩) ?_ fun _ _ _ _ _ _ he => he)
  rintro ⟨a, y⟩ _ w ⟨a', y'⟩ _ w' hq
  exact .set (.pure hq)

/-- What is done through twin handles is done on both sides, and the handles kept as they are left. -/
theorem Pairs.through {m m' : Node.HandleM σ α} {Q : α → Node → View → α → Node → View → Prop}
    {E : Error → Node → View → Error → Node → View → Prop} (hm : m.Pairs m' n n' v u Q E) :
    (Client.through handle n m).Pairs (Client.through handle n' m') held held' v u
      (fun a held₁ w a' held₁' w' => ∃ x x', held₁ = held.insert handle x ∧ held₁' = held'.insert handle x' ∧ Q a x w a' x' w')
      (fun e held₁ w e' held₁' w' => ∃ x x', held₁ = held.insert handle x ∧ held₁' = held'.insert handle x' ∧
        E e x w e' x' w') := by
  intro base base' t t' ht ht' hleft hright
  have hrun : Client.through handle n m held t = (((m n t).1.1, held.insert handle (m n t).1.2), (m n t).2) := rfl
  have hrun' : Client.through handle n' m' held' t' = (((m' n' t').1.1, held'.insert handle (m' n' t').1.2), (m' n' t').2) := rfl
  rcases hm base base' t t' ht ht' hleft hright with
    ⟨a, x, t₁, w, a', x', t₁', w', heq, hw, heq', hw', hq⟩ | ⟨e, x, t₁, w, e', x', t₁', w', heq, hw, heq', hw', he⟩
  · rw [heq] at hrun
    rw [heq'] at hrun'
    exact .inl ⟨a, _, t₁, w, a', _, t₁', w', hrun, hw, hrun', hw', x, x', rfl, rfl, hq⟩
  · rw [heq] at hrun
    rw [heq'] at hrun'
    exact .inr ⟨e, _, t₁, w, e', _, t₁', w', hrun, hw, hrun', hw', x, x', rfl, rfl, he⟩

/-! ## What a client gets -/

/-- The client gets the same on both sides, and holds twins. -/
def AnswerAlike (name : String) (answer : Client.Answer) (held : Client.Handles) (w : View) (answer' : Client.Answer)
    (held' : Client.Handles) (w' : View) : Prop :=
  answer.erase = answer'.erase ∧ Coupled name held w held' w'

/-- The client fails for the same reason on both sides, holds twins, and has changed nothing. -/
def FailAlike (name : String) (v u : View) (e : Error) (held : Client.Handles) (w : View) (e' : Error)
    (held' : Client.Handles) (w' : View) : Prop :=
  TrailM.FailAlike v u e w e' w' ∧ Coupled name held w held' w'

/-- Twins may be kept under the same name, and are the answer. -/
theorem Pairs.give {Q : Client.Answer → Client.Handles → View → Client.Answer → Client.Handles → View → Prop}
    {E : Error → Client.Handles → View → Error → Client.Handles → View → Prop} (h : Mirror ρ name v u)
    (hheld : ρ.HeldTwin name held held') (keep : Option String) (htwin : ρ.NodeTwin name n n')
    (hQ : ∀ held₁ held₁', AnswerAlike name (.node n) held₁ v (.node n') held₁' u → Q (.node n) held₁ v (.node n') held₁' u) :
    (Client.give keep n : ClientM Client.Handles σ Client.Answer).Pairs (Client.give keep n') held held' v u Q E := by
  have hanswer : (Client.Answer.node n).erase = (Client.Answer.node n').erase := congrArg Client.Answer.node htwin.erase_eq
  cases keep with
  | none => exact .pure (hQ held held' ⟨hanswer, ρ, h, hheld⟩)
  | some kept => exact .hold (.pure (hQ _ _ ⟨hanswer, ρ, h, hheld.insert kept htwin⟩))

/-- Twins that were looked for are given. -/
theorem Pairs.readGive {m m' : TrailM σ Node} (h : Mirror ρ name v u) (hheld : ρ.HeldTwin name held held')
    (keep : Option String)
    (hm : m.Pairs m' v u (TrailM.ComeTo ρ name fun τ x x' => τ.NodeTwin name x x') (TrailM.FailAlike v u)) :
    ((TrailM.lift m : ClientM Client.Handles σ Node) >>= Client.give keep).Pairs (TrailM.lift m' >>= Client.give keep)
      held held' v u (AnswerAlike name) (FailAlike name v u) := by
  refine .bind (.lift (Q := fun x held₁ w x' held₁' w' => (held₁ = held ∧ held₁' = held') ∧
    TrailM.ComeTo ρ name (fun τ x x' => τ.NodeTwin name x x') x w x' w') hm (fun _ _ _ _ hq => ⟨⟨rfl, rfl⟩, hq⟩) ?_) ?_
    fun _ _ _ _ _ _ he => he
  · rintro e w e' w' ⟨he, rfl, rfl⟩
    exact ⟨⟨he, rfl, rfl⟩, ρ, h, hheld⟩
  · rintro x _ w x' _ w' ⟨⟨rfl, rfl⟩, τ, hle, hmirror, htwin⟩
    exact .give hmirror (hheld.mono hle) keep htwin fun _ _ hq => hq

/-- A change through twin handles gives what is given for its result. -/
theorem Pairs.throughChange {step step' : Node → TrailM σ (α × Node)} {P : Renaming → α → α → Prop}
    {f f' : α → ClientM Client.Handles σ Client.Answer} (h : Mirror ρ name v u) (hheld : ρ.HeldTwin name held held')
    (hids : ρ.ids n.id n'.id)
    (hstep : ∀ x x', ρ.NodeTwin name x x' → v.Fresh x → u.Fresh x' → (step x).Pairs (step' x') v u
      (TrailM.ComeTo ρ name fun τ r r' => P τ r.1 r'.1 ∧ τ.NodeTwin name r.2 r'.2) (TrailM.FailAlike v u))
    (hf : ∀ (τ : Renaming) a a' (held held' : Client.Handles) (w w' : View), Mirror τ name w w' → τ.HeldTwin name held held' →
      P τ a a' → (f a).Pairs (f' a') held held' w w' (AnswerAlike name) fun _ _ _ _ _ _ => False) :
    (Client.through handle n (Node.change step) >>= f).Pairs (Client.through handle n' (Node.change step') >>= f') held held'
      v u (AnswerAlike name) (FailAlike name v u) := by
  refine .bind (Pairs.through (Pairs.change h hids hstep)) ?_ ?_
  · rintro a _ w a' _ w' ⟨x, x', rfl, rfl, τ, hle, hmirror, hp, htwin⟩ base base' t t' ht ht' hleft hright
    have hboth := hf τ a a' _ _ w w' hmirror ((hheld.mono hle).insert handle htwin) hp
    rcases hboth base base' t t' ht ht' hleft hright with hok | ⟨_, _, _, _, _, _, _, _, -, -, -, -, hfalse⟩
    · exact .inl hok
    · exact hfalse.elim
  · rintro e _ w e' _ w' ⟨x, x', rfl, rfl, ⟨he, rfl, rfl⟩, htwin⟩
    exact ⟨⟨he, rfl, rfl⟩, ρ, h, hheld.insert handle htwin⟩

/-- Twin handles, or none on both sides. -/
theorem Pairs.withHandle {f f' : Node → ClientM Client.Handles σ Client.Answer} (h : Mirror ρ name v u)
    (hheld : ρ.HeldTwin name held held') (handle : String)
    (hf : ∀ n n', ρ.NodeTwin name n n' → (f n).Pairs (f' n') held held' v u (AnswerAlike name) (FailAlike name v u)) :
    (Client.withHandle handle f).Pairs (Client.withHandle handle f') held held' v u (AnswerAlike name)
      (FailAlike name v u) := by
  refine .get ?_
  have hrel := hheld handle
  generalize held.find? handle = found, held'.find? handle = found' at hrel
  cases hrel with
  | none => exact .pure ⟨rfl, ρ, h, hheld⟩
  | some htwin => exact hf _ _ htwin

/-- What is looked up is answered, and nothing is changed. -/
theorem Pairs.readAnswer {m m' : TrailM σ α} {P : α → α → Prop} {f : α → Client.Answer} (h : Mirror ρ name v u)
    (hheld : ρ.HeldTwin name held held')
    (hm : m.Pairs m' v u (fun a w a' w' => (w = v ∧ w' = u) ∧ P a a') (TrailM.FailAlike v u))
    (hf : ∀ a a', P a a' → (f a).erase = (f a').erase) :
    ((TrailM.lift m : ClientM Client.Handles σ α) >>= fun a => Pure.pure (f a)).Pairs
      (TrailM.lift m' >>= fun a => Pure.pure (f a)) held held' v u (AnswerAlike name) (FailAlike name v u) := by
  refine .bind (.lift (Q := fun a held₁ w a' held₁' w' => (held₁ = held ∧ held₁' = held') ∧ (w = v ∧ w' = u) ∧ P a a') hm
    (fun _ _ _ _ hq => ⟨⟨rfl, rfl⟩, hq⟩) ?_) ?_ fun _ _ _ _ _ _ he => he
  · rintro e w e' w' ⟨he, rfl, rfl⟩
    exact ⟨⟨he, rfl, rfl⟩, ρ, h, hheld⟩
  · rintro a _ _ a' _ _ ⟨⟨rfl, rfl⟩, ⟨rfl, rfl⟩, hp⟩
    exact .pure ⟨hf a a' hp, ρ, h, hheld⟩

/-! ## Steps through twin handles -/

/-- A change through twin handles gives twins. -/
theorem Pairs.changeGive {step step' : Node → TrailM σ (Node × Node)} (h : Mirror ρ name v u)
    (hheld : ρ.HeldTwin name held held') (handle : String) (keep : Option String)
    (hstep : ∀ x x', ρ.NodeTwin name x x' → v.Fresh x → u.Fresh x' → (step x).Pairs (step' x') v u
      (TrailM.ComeTo ρ name fun τ r r' => τ.NodeTwin name r.1 r'.1 ∧ τ.NodeTwin name r.2 r'.2) (TrailM.FailAlike v u)) :
    (Client.withHandle handle fun n => Client.through handle n (Node.change step) >>= Client.give keep).Pairs
      (Client.withHandle handle fun n => Client.through handle n (Node.change step') >>= Client.give keep)
      held held' v u (AnswerAlike name) (FailAlike name v u) := by
  refine .withHandle h hheld handle fun n n' htwin => .throughChange h hheld htwin.id hstep ?_
  intro τ x x' held₁ held₁' w w' hmirror hheld₁ hx
  exact .give hmirror hheld₁ keep hx fun _ _ hq => hq

/-- A change through twin handles gives nothing. -/
theorem Pairs.changeDone {step step' : Node → TrailM σ (Unit × Node)} (h : Mirror ρ name v u)
    (hheld : ρ.HeldTwin name held held') (handle : String)
    (hstep : ∀ x x', ρ.NodeTwin name x x' → v.Fresh x → u.Fresh x' → (step x).Pairs (step' x') v u
      (TrailM.ComeTo ρ name fun τ r r' => r.1 = r'.1 ∧ τ.NodeTwin name r.2 r'.2) (TrailM.FailAlike v u)) :
    (Client.withHandle handle fun n => Client.through handle n (Node.change step) >>= fun _ => Pure.pure .done).Pairs
      (Client.withHandle handle fun n => Client.through handle n (Node.change step') >>= fun _ => Pure.pure .done)
      held held' v u (AnswerAlike name) (FailAlike name v u) := by
  refine .withHandle h hheld handle fun n n' htwin => .throughChange (P := fun _ => Eq) h hheld htwin.id hstep ?_
  intro τ _ _ held₁ held₁' w w' hmirror hheld₁ _
  exact .pure ⟨rfl, τ, hmirror, hheld₁⟩

/-- Twin handles that are loaded again hold twins. -/
theorem Pairs.reloadDone (h : Mirror ρ name v u) (hheld : ρ.HeldTwin name held held') (handle : String) :
    (Client.withHandle handle fun n => Client.through handle n Node.reload >>= fun _ => Pure.pure .done :
        ClientM Client.Handles σ Client.Answer).Pairs
      (Client.withHandle handle fun n => Client.through handle n Node.reload >>= fun _ => Pure.pure .done)
      held held' v u (AnswerAlike name) (FailAlike name v u) := by
  refine .withHandle h hheld handle fun n n' htwin =>
    .bind (.through (.reload (E := fun _ _ _ _ _ _ => False) h htwin.id)) ?_ ?_
  · rintro _ _ _ _ _ _ ⟨x, x', rfl, rfl, ⟨rfl, rfl⟩, hx, -⟩
    exact .pure ⟨rfl, ρ, h, hheld.insert handle hx⟩
  · rintro _ _ _ _ _ _ ⟨_, _, -, -, hfalse⟩
    exact hfalse.elim

/-- What is answered without looking into the records is the same for twins. -/
theorem Pairs.answer {f : Node → Client.Answer} (h : Mirror ρ name v u) (hheld : ρ.HeldTwin name held held')
    (handle : String) (hf : ∀ n n', ρ.NodeTwin name n n' → (f n).erase = (f n').erase) :
    (Client.withHandle handle fun n => Pure.pure (f n) : ClientM Client.Handles σ Client.Answer).Pairs
      (Client.withHandle handle fun n => Pure.pure (f n)) held held' v u (AnswerAlike name) (FailAlike name v u) :=
  .withHandle h hheld handle fun n n' htwin => .pure ⟨hf n n' htwin, ρ, h, hheld⟩

/-- **THE SAME STEP ON BOTH SIDES** gives the same but for ids and keys, or fails on both sides for the same reason. -/
theorem Pairs.step (config config' : Config) {step : Client.Step} (hprivate : step.IsPrivate name) (hv : v.Consistent)
    (hu : u.Consistent) (ho : v.Ordered) (ho' : u.Ordered) (hcoupled : Coupled name held v held' u) :
    (step.run config : ClientM Client.Handles σ Client.Answer).Pairs (step.run config') held held' v u (AnswerAlike name)
      (FailAlike name v u) := by
  obtain ⟨ρ, h, hheld⟩ := hcoupled
  -- the same step on both sides finds nodes that are twins, and leaves twins behind
  cases step with
  | cloneRoot txn keep =>
    obtain rfl : txn = name := hprivate
    exact .readGive h hheld keep (.ofTransaction h hv hu)
  | revisionRoot number keep => exact .readGive h hheld keep (.comeTo h (.ofRevision h number))
  | load id keep => exact hprivate.elim
  | openChild handle entry keep =>
    exact .withHandle h hheld handle fun n n' htwin => .readGive h hheld keep (.comeTo h (.openChild h htwin entry))
  | openPath handle path keep =>
    exact .withHandle h hheld handle fun n n' htwin => .readGive h hheld keep (.comeTo h (.follow h htwin _))
  | cloneChild handle entry keep =>
    exact .changeGive h hheld handle keep fun x x' hx hn hn' => .cloneChildStep h hx hn hn' hv hu entry
  | make handle entry kind keep =>
    exact .changeGive h hheld handle keep fun x x' hx hn hn' => .makeStep h hx hn hn' ho ho' entry kind
  | copy handle keep => exact .withHandle h hheld handle fun n n' htwin => .give h hheld keep htwin fun _ _ hq => hq
  | delete handle entry => exact .changeDone h hheld handle fun x x' hx hn hn' => .deleteStep h hx hn hn' entry
  | setContents handle data =>
    exact .changeDone h hheld handle fun x x' hx hn hn' => .setContentsStep h hx hn hn' config config' hv hu data
  | setProps handle props => exact .changeDone h hheld handle fun x x' hx hn hn' => .setPropsStep h hx hn hn' props
  | reload handle => exact .reloadDone h hheld handle
  | contents handle =>
    exact .withHandle h hheld handle fun n n' htwin => .readAnswer h hheld (.contents h htwin) fun _ _ hdata => by rw [hdata]
  | prop handle key => exact .answer h hheld handle fun n n' htwin => by rw [htwin.revision.props]
  | entries handle =>
    refine .withHandle h hheld handle fun n n' htwin => .readAnswer h hheld (.entries htwin) ?_
    rintro entries entries' ⟨-, hentries⟩
    exact congrArg Client.Answer.entries (Renaming.map_eq_of_forall₂ hentries fun _ _ => Renaming.EntryTwin.erase_eq)
  | inspect handle =>
    refine .answer h hheld handle fun n n' htwin => ?_
    rw [Node.isFile, Node.isFile, Node.isDir, Node.isDir, htwin.revision.kind_eq, htwin.isMutable_eq]
  | same handle other =>
    refine .withHandle h hheld handle fun n n' htwin => .get (.pure ⟨congrArg Client.Answer.truth ?_, ρ, h, hheld⟩)
    have hname := hv.isTxnName (Coupled.txn_ne_none ⟨ρ, h, hheld⟩)
    rw [Bool.eq_iff_iff, beq_iff_eq, beq_iff_eq]
    exact hheld.find?_eq_some_iff hname other htwin

/-- **APART FROM ALL OTHERS** is what a client does within one transaction, as long as it sees what it holds. -/
theorem Ends.apart (config : Config) {step : Client.Step} (hprivate : step.IsPrivate name) (hv : v.Consistent)
    (hname : View.IsTxnName name) (hsees : ∀ handle n, held.find? handle = some n → v.Sees name n.id) :
    (step.run config : ClientM Client.Handles σ Client.Answer).Ends held v (fun _ _ w => v.Apart name w)
      (fun _ _ _ => True) := by
  by_cases henters : ∃ txn keep, step = .cloneRoot txn keep
  · obtain ⟨txn, keep, rfl⟩ := henters
    obtain rfl : txn = name := hprivate
    refine Ends.mono (Ends.cloneRoot config txn keep) ?_ fun _ _ _ _ => trivial
    rintro answer held₁ w ⟨root, -, ⟨rfl, -⟩ | hedit⟩
    · exact .refl txn w
    · exact hedit.apart_cloneRoot
  -- a step through a handle works below its node, which the transaction sees; any other only looks
  cases hthrough : step.through with
  | none =>
    refine Ends.mono (Ends.looks config hthrough fun txn keep heq => henters ⟨txn, keep, heq⟩) ?_ fun _ _ _ _ => trivial
    rintro _ _ _ rfl
    exact .refl name _
  | some handle =>
    cases hfind : held.find? handle with
    | none =>
      refine Ends.mono (Ends.notHeld config hthrough hfind) ?_ fun _ _ _ _ => trivial
      rintro _ _ _ ⟨-, -, rfl⟩
      exact .refl name _
    | some n =>
      refine Ends.mono (Ends.works config hv.backed hthrough hfind) ?_ fun _ _ _ _ => trivial
      intro _ _ w hworks
      exact hworks.apart hv hname (hsees handle n hfind)

end ClientM

end VersionedTree

import VersionedTree.Proofs.Tree.Changes
import VersionedTree.Proofs.Tree.Operations

/-!
# Answers — what the steps of a client give

A step that enters a tree or changes one gives a node, and the edit that it has made is about this node. Through a handle
only its own node is changed, whatever the handle held.

* **`View.Works`** — all that can come of an operation through a handle.
* **`Ends.cloneRoot`**, **`Ends.cloneChild`**, **`Ends.make`** and their siblings — the answer and the edit.
* **`Ends.works`** — every operation through a handle works on its node. **`Ends.lost`** — if the node is there.
* **`Ends.looks`** — all other steps change nothing, but for those that enter a transaction.
* **`Ends.intends`** — of all edits, a step makes the one that it is for, or none.
* **`Follows.step`** — so whatever step a client takes, at most one edit lies between the views before and after it.
-/

namespace VersionedTree

/-! ## Operations through a handle -/

namespace Client.Step

/-- The handle that an operation changes a tree through. Steps that only look have none, and neither have those that enter
    a tree. -/
def through : Step → Option String
  | cloneChild h _ _ | make h _ _ _ | delete h _ | setContents h _ | setProps h _ => some h
  | _ => none

/-- True of the edits that a step is for, with what the client holds. -/
inductive Intends (held : Handles) : Step → Edit → Prop where
  | cloneRoot (txn : String) (keep : Option String) (id : NodeId) :
      Intends held (.cloneRoot txn keep) (.cloneRoot txn id)
  | cloneChild {h : String} {node : Node} (hfind : held.find? h = some node) (name : String) (keep : Option String)
      (id : NodeId) : Intends held (.cloneChild h name keep) (.cloneChild node.id name id)
  | make {h : String} {node : Node} (hfind : held.find? h = some node) (name : String) (kind : Kind)
      (keep : Option String) (id : NodeId) : Intends held (.make h name kind keep) (.make node.id name kind id)
  | delete {h : String} {node : Node} (hfind : held.find? h = some node) (name : String) :
      Intends held (.delete h name) (.delete node.id name)
  | setProps {h : String} {node : Node} (hfind : held.find? h = some node) {props : Skel} {list : PropList}
      (hprops : PropList.ofSkel props = .ok list) : Intends held (.setProps h props) (.setProps node.id list)
  | setContents {h : String} {node : Node} (hfind : held.find? h = some node) (data : Bytes) :
      Intends held (.setContents h data) (.setContents node.id data)

/-- What steps are for, clients may do in their trails. -/
theorem Intends.byClient {held : Handles} {step : Step} {edit : Edit} (h : step.Intends held edit) : edit.ByClient := by
  cases h <;> trivial

end Client.Step

namespace View

/-- What an operation through a handle on this node can come to. -/
inductive Works (v : View) (target : NodeId) (w : View) : Prop where
  | nothing (h : w = v)
  | skip (h : v.Edited .skip w)
  | cloneChild {name : String} {id : NodeId} (h : v.Edited (.cloneChild target name id) w)
  | change {change : Change} (h : v.ChangedBy target w change)

/-- What an operation through a handle is for, it does to the node of its handle. -/
theorem Works.of_intends {v w : View} {held : Client.Handles} {step : Client.Step} {edit : Edit} {h : String} {node : Node}
    (hthrough : step.through = some h) (hfind : held.find? h = some node) (hintends : step.Intends held edit)
    (hedit : v.Edited edit w) : v.Works node.id w := by
  cases hintends with
  | cloneRoot txn keep id => exact nomatch hthrough
  | cloneChild hfind' name keep id =>
    cases hthrough
    cases hfind.symm.trans hfind'
    exact .cloneChild hedit
  | make hfind' name kind keep id =>
    cases hthrough
    cases hfind.symm.trans hfind'
    exact .change (.make hedit)
  | delete hfind' name =>
    cases hthrough
    cases hfind.symm.trans hfind'
    exact .change (.delete hedit)
  | setProps hfind' hlist =>
    cases hthrough
    cases hfind.symm.trans hfind'
    exact .change (.setProps hlist hedit)
  | setContents hfind' data =>
    cases hthrough
    cases hfind.symm.trans hfind'
    exact .change (.setContents hedit)

end View

variable {σ α : Type} [RecordStore σ] [LawfulStore σ] {v : View}

namespace ClientM

open TrailM

variable {handles : Client.Handles} {h name : String} {node : Node} {keep : Option String}

/-- Without a handle nothing is done. -/
theorem Ends.withoutHandle {f : Node → ClientM Client.Handles σ Client.Answer} (hfind : handles.find? h = none) :
    (Client.withHandle h f).Ends handles v (fun answer handles' w => answer = .noHandle ∧ handles' = handles ∧ w = v)
      (fun _ _ _ => False) := by
  refine Ends.get ?_
  rw [hfind]
  exact Ends.pure ⟨rfl, rfl, rfl⟩

/-- A change through a handle that gives a node. -/
theorem Ends.throughGive {step : Node → TrailM σ (Node × Node)} {Q : Node → View → Prop} {E : View → Prop}
    (hstep : ∀ fresh, fresh.id = node.id → v.Current fresh → fresh.revision.Storable →
      (step fresh).Ends v (fun r w => Q r.1 w) (fun _ w => E w)) (hE : E v) :
    (Client.through h node (Node.change step) >>= Client.give keep).Ends handles v
      (fun answer _ w => ∃ child, answer = .node child ∧ Q child w) (fun _ _ w => E w) := by
  refine Ends.throughChange hstep hE fun child handles' w hq => ?_
  refine Ends.mono (Ends.give keep child) ?_ fun _ _ _ he => he
  rintro answer handles'' w' ⟨rfl, rfl, -⟩
  exact ⟨child, rfl, hq⟩

/-- A change through a handle that gives nothing. -/
theorem Ends.throughDone {step : Node → TrailM σ (Unit × Node)} {Q E : View → Prop}
    (hstep : ∀ fresh, fresh.id = node.id → v.Current fresh → fresh.revision.Storable →
      (step fresh).Ends v (fun _ w => Q w) (fun _ w => E w)) (hE : E v) :
    (Client.through h node (Node.change step) >>= fun _ => Pure.pure .done : ClientM Client.Handles σ Client.Answer).Ends
      handles v (fun _ _ w => Q w) (fun _ _ w => E w) :=
  Ends.throughChange (Q := fun _ w => Q w) hstep hE fun _ _ _ hq => Ends.pure hq

/-! ## Answers -/

/-- The root of a transaction is given as it is, or cloned. -/
theorem Ends.cloneRoot (config : Config) (txn : String) (keep : Option String) :
    ((Client.Step.cloneRoot txn keep).run config : ClientM Client.Handles σ Client.Answer).Ends handles v
      (fun answer _ w => ∃ root, answer = .node root ∧
        ((w = v ∧ ∃ t, v.txn txn = some t ∧ t.root ≠ t.baseRoot ∧ root.id = t.root) ∨ v.Edited (.cloneRoot txn root.id) w))
      (fun _ _ w => w = v ∨ ∃ id, v.Edited (.strand txn id) w) := by
  refine Ends.bind (Ends.lift (Q := fun root _ w =>
    (w = v ∧ ∃ t, v.txn txn = some t ∧ t.root ≠ t.baseRoot ∧ root.id = t.root) ∨ v.Edited (.cloneRoot txn root.id) w)
    (TrailM.Ends.ofTransaction txn) (fun _ _ hq => hq.2) fun _ _ he => he) ?_ fun _ _ _ he => he
  intro root handles' w hq
  refine Ends.mono (Ends.give keep root) ?_ fun _ _ _ he => he.elim
  rintro answer handles'' w' ⟨rfl, rfl, -⟩
  exact ⟨root, rfl, hq⟩

/-- The child is given as it is, or cloned. -/
theorem Ends.cloneChild (config : Config) (hfind : handles.find? h = some node) (name : String) (keep : Option String) :
    ((Client.Step.cloneChild h name keep).run config : ClientM Client.Handles σ Client.Answer).Ends handles v
      (fun answer _ w => ∃ child, answer = .node child ∧
        ((w = v ∧ v.IsMutable child.id ∧ ∃ dir entries entry, v.node node.id = some dir ∧ dir.body = .dir entries ∧
            entries.find? (fun entry => entry.name = name) = some entry ∧ child.id = entry.id) ∨
          v.Edited (.cloneChild node.id name child.id) w))
      (fun _ _ w => w = v) := by
  refine Ends.withHandle hfind (Ends.throughGive (Q := fun child w =>
    (w = v ∧ v.IsMutable child.id ∧ ∃ dir entries entry, v.node node.id = some dir ∧ dir.body = .dir entries ∧
        entries.find? (fun entry => entry.name = name) = some entry ∧ child.id = entry.id) ∨
      v.Edited (.cloneChild node.id name child.id) w) ?_ rfl)
  intro fresh hid hfresh hstorable
  refine TrailM.Ends.mono (TrailM.Ends.cloneChildStep name hfresh hstorable) ?_ fun _ _ he => he
  rw [View.Current, hid] at hfresh
  rw [hid]
  rintro ⟨child, dir⟩ w ⟨hchild, hmutable, -, -, ⟨rfl, -, entries, entry, hdir, hentry, hsame⟩ | hedit⟩
  · exact .inl ⟨rfl, ⟨child.revision, hchild, hmutable⟩, fresh.revision, entries, entry, hfresh, hdir, hentry, hsame⟩
  · exact .inr hedit

/-- A new child is given. -/
theorem Ends.make (config : Config) (hfind : handles.find? h = some node) (name : String) (kind : Kind)
    (keep : Option String) :
    ((Client.Step.make h name kind keep).run config : ClientM Client.Handles σ Client.Answer).Ends handles v
      (fun answer _ w => ∃ child, answer = .node child ∧ v.Edited (.make node.id name kind child.id) w)
      (fun _ _ w => w = v ∨ v.Edited .skip w) := by
  refine Ends.withHandle hfind (Ends.throughGive (Q := fun child w => v.Edited (.make node.id name kind child.id) w) ?_
    (.inl rfl))
  intro fresh hid hfresh hstorable
  refine TrailM.Ends.mono (TrailM.Ends.makeStep name kind hfresh hstorable) ?_ fun _ _ he => he
  rintro r w ⟨-, -, -, hedit⟩
  exact hid ▸ hedit

/-- The handle holds the file as it is then, with the key of its new contents. -/
theorem Ends.setContents (config : Config) (hfind : handles.find? h = some node) (hbacked : v.Backed) (data : Bytes) :
    ((Client.Step.setContents h data).run config : ClientM Client.Handles σ Client.Answer).Ends handles v
      (fun _ handles' w => ∃ file, handles' = handles.insert h file ∧ w.Current file ∧ file.id = node.id ∧
        v.Edited (.setContents node.id data) w)
      (fun _ _ w => w = v) := by
  have hchange : (Node.setContents config data : Node.HandleM σ Unit).Ends node v
      (fun _ file w => w.Current file ∧ file.id = node.id ∧ v.Edited (.setContents node.id data) w) (fun _ _ w => w = v) := by
    refine Ends.change (Q := fun r w => w.Current r.2 ∧ r.2.id = node.id ∧ v.Edited (.setContents node.id data) w)
      (E := fun _ w => w = v) ?_ fun _ _ => rfl
    intro fresh hid hfresh hstorable
    rw [← hid]
    exact TrailM.Ends.setContentsStep config data hfresh hstorable (hbacked _ _ hfresh)
  refine Ends.withHandle hfind (Ends.bind (Ends.through hchange) ?_ ?_)
  · rintro _ handles' w ⟨file, rfl, hfile⟩
    exact Ends.pure ⟨file, rfl, hfile⟩
  · rintro e handles' w ⟨file, -, rfl⟩
    rfl

/-- A child that goes is no answer. -/
theorem Ends.delete (config : Config) (hfind : handles.find? h = some node) (name : String) :
    ((Client.Step.delete h name).run config : ClientM Client.Handles σ Client.Answer).Ends handles v
      (fun _ _ w => v.Edited (.delete node.id name) w) (fun _ _ w => w = v) := by
  refine Ends.withHandle hfind (Ends.throughDone ?_ rfl)
  intro fresh hid hfresh hstorable
  refine TrailM.Ends.mono (TrailM.Ends.deleteStep name hfresh hstorable) ?_ fun _ _ he => he
  rintro r w ⟨-, -, hedit⟩
  exact hid ▸ hedit

/-- The properties are those that the skel stands for. -/
theorem Ends.setProps (config : Config) (hfind : handles.find? h = some node) (props : Skel) :
    ((Client.Step.setProps h props).run config : ClientM Client.Handles σ Client.Answer).Ends handles v
      (fun _ _ w => ∃ list, PropList.ofSkel props = .ok list ∧ v.Edited (.setProps node.id list) w)
      (fun _ _ w => w = v) := by
  refine Ends.withHandle hfind (Ends.throughDone ?_ rfl)
  intro fresh hid hfresh hstorable
  refine TrailM.Ends.mono (TrailM.Ends.setPropsStep props hfresh hstorable) ?_ fun _ _ he => he
  rintro r w ⟨-, -, list, hlist, hedit⟩
  exact ⟨list, hlist, hid ▸ hedit⟩

/-! ## Every operation -/

/-- A change through a handle whose step fails on the node as it is, and does nothing. -/
theorem Ends.changeFails {step : Node → TrailM σ (α × Node)} {f : α → ClientM Client.Handles σ Client.Answer}
    {E : Error → Prop}
    (hstep : ∀ fresh, fresh.id = node.id → v.Current fresh →
      (step fresh).Ends v (fun _ _ => False) (fun e w => w = v ∧ E e))
    (hE : ∀ e, e.IsFault σ ∨ v.node node.id = none ∧ e = .notFound (.node node.id) → E e) :
    (Client.through h node (Node.change step) >>= f).Ends handles v (fun _ _ _ => False) (fun e _ w => w = v ∧ E e) := by
  have hchange : (Node.change step).Ends node v (fun _ _ _ => False) (fun e _ w => w = v ∧ E e) :=
    Ends.change (Q := fun _ _ => False) (E := fun e w => w = v ∧ E e) (fun fresh hid hfresh _ => hstep fresh hid hfresh)
      fun e he => ⟨rfl, hE e he⟩
  refine Ends.bind (Ends.through hchange) ?_ ?_
  · rintro a handles' w ⟨node', -, hfalse⟩
    exact hfalse.elim
  · rintro e handles' w ⟨node', -, he⟩
    exact he

/-- Through a handle on a node that is not there nothing can be changed. -/
theorem Ends.changeLost {step : Node → TrailM σ (α × Node)} {f : α → ClientM Client.Handles σ Client.Answer}
    (hlost : v.node node.id = none) :
    (Client.through h node (Node.change step) >>= f).Ends handles v (fun _ _ _ => False)
      (fun e _ w => w = v ∧ (e.IsFault σ ∨ e = .notFound (.node node.id))) := by
  refine Ends.changeFails ?_ fun e he => he.imp_right fun hnone => hnone.2
  intro fresh hid hfresh
  rw [View.Current, hid, hlost] at hfresh
  cases hfresh

/-- An operation whose handle is not held does nothing. -/
theorem Ends.notHeld (config : Config) {step : Client.Step} (hthrough : step.through = some h)
    (hfind : handles.find? h = none) :
    (step.run config : ClientM Client.Handles σ Client.Answer).Ends handles v
      (fun answer handles' w => answer = .noHandle ∧ handles' = handles ∧ w = v) (fun _ _ _ => False) := by
  cases step with
  | cloneChild _ name keep =>
    cases hthrough
    exact Ends.withoutHandle hfind
  | make _ name kind keep =>
    cases hthrough
    exact Ends.withoutHandle hfind
  | delete _ name =>
    cases hthrough
    exact Ends.withoutHandle hfind
  | setContents _ data =>
    cases hthrough
    exact Ends.withoutHandle hfind
  | setProps _ props =>
    cases hthrough
    exact Ends.withoutHandle hfind
  | _ => exact nomatch hthrough

/-- **AN OPERATION ON A NODE THAT IS LOST** fails, and changes nothing. -/
theorem Ends.lost (config : Config) {step : Client.Step} (hthrough : step.through = some h)
    (hfind : handles.find? h = some node) (hlost : v.node node.id = none) :
    (step.run config : ClientM Client.Handles σ Client.Answer).Ends handles v (fun _ _ _ => False)
      (fun e _ w => w = v ∧ (e.IsFault σ ∨ e = .notFound (.node node.id))) := by
  cases step with
  | cloneChild _ name keep =>
    cases hthrough
    exact Ends.withHandle hfind (Ends.changeLost hlost)
  | make _ name kind keep =>
    cases hthrough
    exact Ends.withHandle hfind (Ends.changeLost hlost)
  | delete _ name =>
    cases hthrough
    exact Ends.withHandle hfind (Ends.changeLost hlost)
  | setContents _ data =>
    cases hthrough
    exact Ends.withHandle hfind (Ends.changeLost hlost)
  | setProps _ props =>
    cases hthrough
    exact Ends.withHandle hfind (Ends.changeLost hlost)
  | _ => exact nomatch hthrough

/-- **AN OPERATION DOES WHAT IT IS FOR** on its node, or nothing. If it fails, a number may be used up. -/
theorem Ends.intends_through (config : Config) (hbacked : v.Backed) {step : Client.Step} (hthrough : step.through = some h)
    (hfind : handles.find? h = some node) :
    (step.run config : ClientM Client.Handles σ Client.Answer).Ends handles v
      (fun _ _ w => w = v ∨ ∃ edit, step.Intends handles edit ∧ v.Edited edit w)
      (fun _ _ w => w = v ∨ v.Edited .skip w) := by
  cases step with
  | cloneChild _ name keep =>
    cases hthrough
    refine Ends.mono (Ends.cloneChild config hfind name keep) ?_ fun _ _ _ he => .inl he
    rintro _ _ w ⟨child, -, ⟨rfl, -⟩ | hedit⟩
    · exact .inl rfl
    · exact .inr ⟨_, .cloneChild hfind name keep child.id, hedit⟩
  | make _ name kind keep =>
    cases hthrough
    refine Ends.mono (Ends.make config hfind name kind keep) ?_ fun _ _ _ he => he
    rintro _ _ w ⟨child, -, hedit⟩
    exact .inr ⟨_, .make hfind name kind keep child.id, hedit⟩
  | delete _ name =>
    cases hthrough
    refine Ends.mono (Ends.delete config hfind name) ?_ fun _ _ _ he => .inl he
    intro _ _ w hedit
    exact .inr ⟨_, .delete hfind name, hedit⟩
  | setContents _ data =>
    cases hthrough
    refine Ends.mono (Ends.setContents config hfind hbacked data) ?_ fun _ _ _ he => .inl he
    rintro _ _ w ⟨file, -, -, -, hedit⟩
    exact .inr ⟨_, .setContents hfind data, hedit⟩
  | setProps _ props =>
    cases hthrough
    refine Ends.mono (Ends.setProps config hfind props) ?_ fun _ _ _ he => .inl he
    rintro _ _ w ⟨list, hlist, hedit⟩
    exact .inr ⟨_, .setProps hfind hlist, hedit⟩
  | _ => exact nomatch hthrough

/-- **AN OPERATION WORKS ON ITS NODE**, whether it succeeds or not. -/
theorem Ends.works (config : Config) (hbacked : v.Backed) {step : Client.Step} (hthrough : step.through = some h)
    (hfind : handles.find? h = some node) :
    (step.run config : ClientM Client.Handles σ Client.Answer).Ends handles v (fun _ _ w => v.Works node.id w)
      (fun _ _ w => v.Works node.id w) := by
  refine Ends.mono (Ends.intends_through config hbacked hthrough hfind) ?_ fun _ _ _ he => he.elim .nothing .skip
  rintro _ _ w (rfl | ⟨edit, hintends, hedit⟩)
  · exact .nothing rfl
  · exact .of_intends hthrough hfind hintends hedit

/-! ## Looking -/

/-- After something that leaves the view alone. -/
def Looks {ω : Type} (m : ClientM ω σ α) (held : ω) (v : View) : Prop :=
  m.Ends held v (fun _ _ w => w = v) (fun _ _ w => w = v)

/-- What is seen in the trail may be answered, and nothing is changed by it. -/
theorem Looks.read {m : TrailM σ α} {P : α → Prop} {E : Error → Prop} {f : α → ClientM Client.Handles σ Client.Answer}
    (hm : m.Reads v P E) (hf : ∀ a, (f a).Looks handles v) :
    ((TrailM.lift m : ClientM Client.Handles σ α) >>= f).Looks handles v := by
  refine Ends.bind (Ends.lift (Q := fun _ handles' w => handles' = handles ∧ w = v) hm (fun a w h => ⟨rfl, h.1⟩)
    fun e w h => h.1) ?_ fun _ _ _ h => h
  rintro a handles' w ⟨rfl, rfl⟩
  exact hf a

/-- Keeping a node changes nothing. -/
theorem Looks.give (keep : Option String) (node : Node) :
    (Client.give keep node : ClientM Client.Handles σ Client.Answer).Looks handles v :=
  Ends.mono (Ends.give_same keep node handles v) (fun _ _ _ h => h) fun _ _ _ h => h.elim

/-- Without a handle nothing is changed, either. -/
theorem Looks.withHandle {f : Node → ClientM Client.Handles σ Client.Answer} (hf : ∀ node, (f node).Looks handles v) :
    (Client.withHandle h f).Looks handles v := by
  cases hfind : handles.find? h with
  | none => exact Ends.mono (Ends.withoutHandle hfind) (fun _ _ _ h => h.2.2) fun _ _ _ h => h.elim
  | some node => exact Ends.withHandle hfind (hf node)

/-- **A STEP THAT LOOKS** changes nothing: one that neither enters a transaction nor goes through a handle. -/
theorem Ends.looks (config : Config) {step : Client.Step} (hthrough : step.through = none)
    (henters : ∀ txn keep, step ≠ .cloneRoot txn keep) :
    (step.run config : ClientM Client.Handles σ Client.Answer).Looks handles v := by
  cases step with
  | cloneRoot txn keep => exact absurd rfl (henters txn keep)
  | revisionRoot number keep => exact .read (Reads.ofRevision number) (.give keep)
  | load id keep => exact .read (Reads.load id) (.give keep)
  | openChild handle name keep => exact .withHandle fun node => .read (Reads.openChild node name) (.give keep)
  | openPath handle path keep => exact .withHandle fun node => .read (Reads.follow node _) (.give keep)
  | copy handle keep => exact .withHandle (.give keep)
  | reload handle =>
    refine .withHandle fun node => Ends.bind (Ends.through (Ends.reload node)) ?_ ?_
    · rintro _ _ _ ⟨_, -, rfl, -⟩
      exact Ends.pure rfl
    · rintro _ _ _ ⟨_, -, rfl, -⟩
      rfl
  | contents handle => exact .withHandle fun node => .read (Reads.contents_any node) fun _ => Ends.pure rfl
  | prop handle name => exact .withHandle fun node => Ends.pure rfl
  | entries handle =>
    exact .withHandle fun node => .read (Reads.ofResult (Q := fun _ => True) (E := fun _ => True) (fun _ _ => trivial)
      fun _ _ => trivial) fun _ => Ends.pure rfl
  | inspect handle => exact .withHandle fun node => Ends.pure rfl
  | same handle other => exact .withHandle fun node => Ends.get (Ends.pure rfl)
  | _ => exact nomatch hthrough

/-! ## Every step -/

/-- **A STEP DOES WHAT IT IS FOR** or nothing. If it fails, all that it can leave behind is a number that is not used, or a
    clone that nothing leads to. -/
theorem Ends.intends (config : Config) (hbacked : v.Backed) (step : Client.Step) :
    (step.run config : ClientM Client.Handles σ Client.Answer).Ends handles v
      (fun _ _ w => w = v ∨ ∃ edit, step.Intends handles edit ∧ v.Edited edit w)
      (fun _ _ w => w = v ∨ v.Edited .skip w ∨ ∃ txn id, v.Edited (.strand txn id) w) := by
  cases hthrough : step.through with
  | some handle =>
    cases hfind : handles.find? handle with
    | none =>
      exact Ends.mono (Ends.notHeld config hthrough hfind) (fun _ _ _ h => .inl h.2.2) fun _ _ _ h => h.elim
    | some node =>
      exact Ends.mono (Ends.intends_through config hbacked hthrough hfind) (fun _ _ _ h => h) fun _ _ _ h =>
        h.imp_right .inl
  | none =>
    by_cases henters : ∃ txn keep, step = .cloneRoot txn keep
    · obtain ⟨txn, keep, rfl⟩ := henters
      refine Ends.mono (Ends.cloneRoot config txn keep) ?_ ?_
      · rintro _ _ w ⟨root, -, ⟨rfl, -⟩ | hedit⟩
        · exact .inl rfl
        · exact .inr ⟨_, .cloneRoot txn keep root.id, hedit⟩
      · rintro _ _ w (rfl | ⟨id, hedit⟩)
        · exact .inl rfl
        · exact .inr (.inr ⟨txn, id, hedit⟩)
    · have henters' : ∀ txn keep, step ≠ .cloneRoot txn keep := fun txn keep heq => henters ⟨txn, keep, heq⟩
      exact Ends.mono (Ends.looks config hthrough henters') (fun _ _ _ h => .inl h) fun _ _ _ h => .inl h

/-- After something that leaves at most one edit by a client behind it. -/
def Follows {ω : Type} (m : ClientM ω σ α) (held : ω) (v : View) : Prop :=
  m.Ends held v (fun _ _ w => v.ClientStep w) (fun _ _ w => v.ClientStep w)

/-- **ONE STEP IS ONE EDIT** at most, through handles of whatever age, and also if the step fails. -/
theorem Follows.step (config : Config) (hbacked : v.Backed) (step : Client.Step) :
    (step.run config : ClientM Client.Handles σ Client.Answer).Follows handles v := by
  refine Ends.mono (Ends.intends config hbacked step) ?_ ?_
  · rintro _ _ w (rfl | ⟨edit, hintends, hedit⟩)
    · exact .inl rfl
    · exact hedit.clientStep hintends.byClient
  · rintro _ _ w (rfl | hedit | ⟨txn, id, hedit⟩)
    · exact .inl rfl
    · exact hedit.clientStep trivial
    · exact hedit.clientStep trivial

end ClientM

end VersionedTree

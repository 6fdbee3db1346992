import VersionedTree.Proofs.Contents.Archive
import VersionedTree.Proofs.Trail.Effects
import VersionedTree.Proofs.Tree.Edit

/-!
# Coherence — handles that say what their records say

A handle keeps the node revision that was read last, and what is put is not read back: the operation changes the node
revision in the handle and puts the text of it. So a handle is right only if every text that is put reads as what was
meant, and only if the handle is set right on each way out of an operation, errors of the store included.

* **`Records.Has`** — the record of a node says what the handle holds. **`Records.Adds`** is what the making of a node does
  to all handles.
* **`TrailM.Updates`** — what each step on a node leaves behind, with one lemma for each step.
* **`Node.Refreshes`** — what follows for an operation through a handle, however old the handle is.
* **`Node.InStep`** and **`Node.handles_stay_in_step`** — the theorem, for every operation that changes a node.
  **`Node.Call.runAll_in_step`** is what follows for any number of them.
-/

namespace VersionedTree

variable {σ α β : Type}

/-- The record of the node says what the handle holds. -/
def Records.Has (r : Records) (node : Node) : Prop :=
  ∃ value, r.find? (NodeRecord.key node.id) = some value ∧ NodeRecord.decode value = .ok node.revision

namespace Records.Has

variable {r r' : Records} {node : Node} {id : NodeId}

/-- What is there as a record can be stored. -/
theorem storable (h : r.Has node) : node.revision.Storable := by
  obtain ⟨value, -, hdecode⟩ := h
  exact NodeRecord.storable_of_decode hdecode

/-- A node is still there as long as no node changes. -/
theorem of_sameNodes (h : r.Has node) (hsame : r.SameNodes r') : r'.Has node := by
  obtain ⟨value, hfind, hdecode⟩ := h
  exact ⟨value, (hsame _ rfl).trans hfind, hdecode⟩

/-- What was put is what the record says. -/
theorem put_self (r : Records) (node : Node) (h : node.revision.Storable) :
    (r.applyWrite (.put (NodeRecord.key node.id) (NodeRecord.encode node.revision))).Has node :=
  ⟨_, (find?_put _ _ _ _).trans (if_pos rfl), NodeRecord.decode_encode h⟩

/-- A node is still there when another is put. -/
theorem put_other (h : r.Has node) (hne : node.id ≠ id) (value : Bytes) :
    (r.applyWrite (.put (NodeRecord.key id) value)).Has node := by
  obtain ⟨value', hfind, hdecode⟩ := h
  have hkey : NodeRecord.key node.id ≠ NodeRecord.key id := fun heq => hne (NodeRecord.key_inj.1 heq)
  exact ⟨value', (find?_applyWrite_of_ne hkey).trans hfind, hdecode⟩

/-- A node that is there does not have an id that is free. -/
theorem ne_of_free (h : r.Has node) (hfree : r.find? (NodeRecord.key id) = none) : node.id ≠ id := by
  rintro rfl
  obtain ⟨value, hfind, -⟩ := h
  exact nomatch hfree.symm.trans hfind

end Records.Has

/-- A node is added to the records, and no other handle gets out of step by that. -/
structure Records.Adds (r r' : Records) (node : Node) : Prop where
  free : r.find? (NodeRecord.key node.id) = none
  has : r'.Has node
  keeps : ∀ other, r.Has other → r'.Has other

/-- Under a free id a node revision can be put, whatever else was put before that is no node. -/
theorem Records.adds_put {r r₁ : Records} (node : Node) (hsame : r.SameNodes r₁)
    (hfree : r.find? (NodeRecord.key node.id) = none) (h : node.revision.Storable) :
    r.Adds (r₁.applyWrite (.put (NodeRecord.key node.id) (NodeRecord.encode node.revision))) node where
  free := hfree
  has := .put_self r₁ node h
  keeps _ hother := (hother.of_sameNodes hsame).put_other (hother.ne_of_free hfree) _

namespace TrailM

variable [RecordStore σ] [LawfulStore σ] {r : Records} {node : Node}

/-! ## Looking and adding -/

/-- A handle that was loaded holds its record. -/
theorem Asks.load (id : NodeId) : (Node.load id : TrailM σ Node).Asks r fun node => node.id = id ∧ r.Has node :=
  Asks.bind (Asks.readNode id) fun _ hrevision => Asks.pure ⟨rfl, hrevision⟩

/-- Asking for a mutable node is asking. -/
theorem Asks.requireMutable (node : Node) : (node.requireMutable : TrailM σ Unit).Asks r fun _ => True := by
  unfold Node.requireMutable
  split
  case isTrue => exact Asks.pure trivial
  case isFalse => exact Asks.throw _

/-- A clone is added to the records, and it is what its handle holds. -/
theorem Yields.cloneFor (owner : String) (h : node.revision.Storable) :
    (node.cloneFor owner : TrailM σ Node).Yields r (fun clone r' => r.Adds r' clone) fun r' => r' = r := by
  refine Yields.bind (Yields.createSuccessor node.id _) ?_ fun _ he => he
  rintro id r' ⟨hfree, rfl⟩
  exact Yields.pure (Records.adds_put ⟨id, node.revision.toMutable owner⟩ (.refl r) hfree (h.toMutable owner))

/-- A new node is added to the records. If that fails, no node has changed. -/
theorem Yields.createNode {revision : NodeRevision} (h : revision.Storable) :
    (NodeRecord.create revision : TrailM σ NodeId).Yields r (fun id r' => r.Adds r' ⟨id, revision⟩)
      fun r' => r.SameNodes r' := by
  refine Yields.mono (Yields.create revision) ?_ fun _ he => he
  rintro id r' ⟨hfree, r₁, hsame, rfl⟩
  exact Records.adds_put ⟨id, revision⟩ hsame hfree h

/-! ## Steps on a node -/

/-- What a step on a node leaves behind. The node that it gives is the same one, and is as its record says; with its result,
    `P` holds. If it fails, the node that it was given is as its record says. -/
def Updates (m : TrailM σ (α × Node)) (r : Records) (node : Node) (P : α → Records → Prop) : Prop :=
  m.Yields r (fun result r' => result.2.id = node.id ∧ r'.Has result.2 ∧ P result.1 r') fun r' => r'.Has node

variable {f : β → TrailM σ (α × Node)} {P : α → Records → Prop}

theorem Updates.pure {a : α} (h : r.Has node) (hP : P a r) : (Pure.pure (a, node) : TrailM σ (α × Node)).Updates r node P :=
  Yields.pure ⟨rfl, h, hP⟩

theorem Updates.throw (h : r.Has node) (e : Error) : (MonadExcept.throw e : TrailM σ (α × Node)).Updates r node P :=
  Yields.throw h

/-- What comes first may change records, as long as the handle holds its own. -/
theorem Updates.bind {m : TrailM σ β} {Q : β → Records → Prop} {E : Records → Prop} (h : m.Yields r Q E)
    (hf : ∀ b r', Q b r' → (f b).Updates r' node P) (hE : ∀ r', E r' → r'.Has node) : (m >>= f).Updates r node P :=
  Yields.bind h hf hE

/-- Looking comes before all that is put. -/
theorem Updates.after {m : TrailM σ β} {Q : β → Prop} (h : r.Has node) (hm : m.Asks r Q)
    (hf : ∀ b, Q b → (f b).Updates r node P) : (m >>= f).Updates r node P :=
  Yields.after hm hf h

/-- Each step saves the node last. -/
theorem Updates.save {revision : NodeRevision} {a : α} (h : revision.Storable)
    (hP : P a (r.applyWrite (.put (NodeRecord.key node.id) (NodeRecord.encode revision)))) :
    (do Node.save ⟨node.id, revision⟩; return (a, ⟨node.id, revision⟩) : TrailM σ (α × Node)).Updates r node P :=
  Yields.andThen (Yields.pure ⟨rfl, .put_self r ⟨node.id, revision⟩ h, hP⟩)

/-- A node that was added before is as its record says after that, too. -/
theorem Updates.saveAfter {r₀ : Records} {added : Node} {revision : NodeRevision} (h : r₀.Has node)
    (hadded : r₀.Adds r added) (hrevision : revision.Storable) :
    (do Node.save ⟨node.id, revision⟩; return (added, ⟨node.id, revision⟩) : TrailM σ (Node × Node)).Updates r node
      fun child r' => r'.Has child :=
  .save hrevision (hadded.has.put_other (h.ne_of_free hadded.free).symm _)

/-- Cloning a child leaves both handles with their records. -/
theorem Updates.cloneChildStep (name : String) (h : r.Has node) :
    (node.cloneChildStep name : TrailM σ (Node × Node)).Updates r node fun child r' => r'.Has child := by
  refine .after h (Asks.requireMutable node) fun _ _ => .after h Asks.ofResult fun entry _ => ?_
  refine .after h (Asks.load entry.id) fun child hchild => ?_
  split
  case isTrue => exact .pure h hchild.2
  case isFalse =>
    refine .bind (Yields.cloneFor _ hchild.2.storable) ?_ ?_
    · intro clone r' hadded
      exact .saveAfter h hadded (h.storable.mapEntries _)
    · rintro _ rfl
      exact h

/-- Making a child leaves both handles with their records. -/
theorem Updates.makeStep (name : String) (kind : Kind) (h : r.Has node) :
    (node.makeStep name kind : TrailM σ (Node × Node)).Updates r node fun child r' => r'.Has child := by
  refine .after h (Asks.requireMutable node) fun _ _ => .after h Asks.ofResult fun entries _ => ?_
  split
  case isTrue => exact .throw h _
  case isFalse =>
    refine .bind (Yields.createNode (.newMutable kind _)) ?_ fun r' hsame => h.of_sameNodes hsame
    intro id r' hadded
    exact .saveAfter h hadded (h.storable.mapEntries _)

/-- Deleting a child leaves the handle with its record. -/
theorem Updates.deleteStep (name : String) (h : r.Has node) :
    (node.deleteStep name : TrailM σ (Unit × Node)).Updates r node fun _ _ => True := by
  refine .after h Asks.ofResult fun entries _ => .after h (Asks.requireMutable node) fun _ _ => ?_
  split
  case h_1 => exact .throw h _
  case h_2 entry _ =>
    refine .after h (Asks.load entry.id) fun child _ => ?_
    split
    case isTrue => exact .throw h _
    case isFalse => exact .save (h.storable.withEntries _) trivial

/-- Setting properties leaves the handle with its record. -/
theorem Updates.setPropsStep (props : Skel) (h : r.Has node) :
    (node.setPropsStep props : TrailM σ (Unit × Node)).Updates r node fun _ _ => True := by
  refine .after h (Asks.requireMutable node) fun _ _ => .after h Asks.ofExcept fun list _ => ?_
  have hstorable : { node.revision with props := list }.Storable := ⟨h.storable.flags, h.storable.body⟩
  exact .save hstorable trivial

/-- Setting contents leaves the handle with its record. -/
theorem Updates.setContentsStep (config : Config) (data : Bytes) (h : r.Has node) :
    (node.setContentsStep config data : TrailM σ (Unit × Node)).Updates r node fun _ _ => True := by
  unfold Node.setContentsStep
  split
  case h_1 => exact .throw h _
  case h_2 previous _ =>
    refine .after h (Asks.requireMutable node) fun _ _ => .bind (Yields.storeContents config previous data) ?_ ?_
    · -- the empty text would be read as no contents at all
      rintro key r' ⟨hkey, -⟩
      have hstorable : { node.revision with body := .file (some key) }.Storable :=
        ⟨h.storable.flags, fun heq => hkey (Option.some.inj heq)⟩
      exact .save hstorable trivial
    · rintro _ rfl
      exact h

/-! ## Roots -/

/-- The root of a transaction is as its record says, be it new or not. -/
theorem Yields.ofTransaction (name : String) :
    (Root.ofTransaction name : TrailM σ Node).Yields r (fun root r' => r'.Has root) fun _ => True := by
  refine Yields.after (Asks.readTxn name) (fun txn _ => ?_) trivial
  split
  case isTrue =>
    refine Yields.after (Asks.load txn.baseRoot) (fun base hbase => ?_) trivial
    refine Yields.bind (Yields.cloneFor name hbase.2.storable) ?_ fun _ _ => trivial
    intro root r' hadded
    refine Yields.bind (Yields.setRoot name root.id) ?_ fun _ _ => trivial
    intro _ r'' hsame
    exact Yields.pure (hadded.has.of_sameNodes hsame)
  case isFalse =>
    refine Yields.mono (Asks.load txn.root) ?_ fun _ _ => trivial
    rintro root _ ⟨rfl, -, hroot⟩
    exact hroot

end TrailM

/-! ## Operations through a handle -/

namespace ClientM

section Run

variable {ω : Type} {m : TrailM σ α} {f : α → ClientM ω σ β} {held : ω} {t t' : Trail σ}

/-- Looking at what is held goes on with it. -/
theorem get_bind {f : ω → ClientM ω σ β} : (getThe ω >>= f : ClientM ω σ β) held t = f held held t :=
  bind_of_ok rfl

/-- A value from the trail is gone on with, and what is held stays. -/
theorem lift_bind_of_ok {a : α} (h : m t = (.ok a, t')) : (TrailM.lift m >>= f) held t = f a held t' := by
  have hlift : (TrailM.lift m : ClientM ω σ α) held t = (((m t).1, held), (m t).2) := rfl
  rw [h] at hlift
  exact bind_of_ok hlift

/-- An error from the trail ends it, and what is held stays. -/
theorem lift_bind_of_error {e : Error} (h : m t = (.error e, t')) :
    (TrailM.lift m >>= f) held t = ((.error e, held), t') := by
  have hlift : (TrailM.lift m : ClientM ω σ α) held t = (((m t).1, held), (m t).2) := rfl
  rw [h] at hlift
  exact bind_of_error hlift

end Run

variable [RecordStore σ] {step : Node → TrailM σ (α × Node)} {held fresh : Node} {t t' : Trail σ} {e : Error}

/-- Nothing is done if the node cannot be read. -/
theorem change_of_load_error (h : Node.load held.id t = (.error e, t')) :
    Node.change step held t = ((.error e, held), t') := by
  have hreload : (Node.reload : Node.HandleM σ Unit) held t = ((.error e, held), t') :=
    get_bind.trans (lift_bind_of_error h)
  exact bind_of_error hreload

/-- The step is taken on the node as it was read, which the handle holds by then. -/
theorem change_of_load_ok (h : Node.load held.id t = (.ok fresh, t')) : Node.change step held t =
    (TrailM.lift (step fresh) >>= fun result => do set result.2; return result.1 : ClientM Node σ α) fresh t' := by
  have hreload : (Node.reload : Node.HandleM σ Unit) held t = ((.ok (), fresh), t') := get_bind.trans (lift_bind_of_ok h)
  exact (bind_of_ok hreload).trans get_bind

variable [LawfulStore σ]

/-- What an operation through a handle leaves behind. If the record could be read, the handle is on the same node, and is as
    its record says, whatever it held before and also if the operation fails; if it could not, a handle that was as its
    record says is so still. With a result, `P` holds. -/
def Refreshes (m : ClientM Node σ α) (P : α → Records → Prop) : Prop :=
  ∀ held t, LawfulStore.Valid t.store → LawfulStore.Valid (m held t).2.store ∧
    ((∃ node, (Node.load held.id t).1 = .ok node) ∨ t.records.Has held →
      (m held t).1.2.id = held.id ∧ (m held t).2.records.Has (m held t).1.2) ∧
    ∀ a, (m held t).1.1 = .ok a → P a (m held t).2.records

/-- A step through a handle is taken on the node as it is, so it does not matter what the handle held. -/
theorem Refreshes.change {P : α → Records → Prop} (hstep : ∀ node r, r.Has node → (step node).Updates r node P) :
    (Node.change step).Refreshes P := by
  intro held t hvalid
  rcases TrailM.Asks.load held.id t hvalid rfl with
    ⟨fresh, t₁, hload, hvalid₁, hrecords, hid, hfresh⟩ | ⟨e, t₁, hload, hvalid₁, hrecords⟩
  case inr =>
    rw [change_of_load_error hload, hload]
    refine ⟨hvalid₁, ?_, nofun⟩
    rintro (⟨node, hnode⟩ | hheld)
    · exact nomatch hnode
    · rw [← hrecords] at hheld
      exact ⟨rfl, hheld⟩
  case inl =>
    rw [change_of_load_ok hload]
    rw [← hrecords] at hfresh
    rcases hstep fresh t₁.records hfresh t₁ hvalid₁ rfl with
      ⟨⟨a, node⟩, t₂, hrun, hvalid₂, hid', hnode, hP⟩ | ⟨e, t₂, hrun, hvalid₂, hnode⟩
    · rw [lift_bind_of_ok hrun]
      refine ⟨hvalid₂, fun _ => ⟨hid'.trans hid, hnode⟩, ?_⟩
      rintro _ ⟨⟩
      exact hP
    · -- the handle still holds the node as it was read
      rw [lift_bind_of_error hrun]
      exact ⟨hvalid₂, fun _ => ⟨hid, hnode⟩, nofun⟩

/-- Something else is made of the result. -/
theorem Refreshes.bindPure {m : ClientM Node σ α} {P : α → Records → Prop} {P' : β → Records → Prop} (h : m.Refreshes P)
    (g : α → β) (hP : ∀ a r, P a r → P' (g a) r) : (m >>= fun a => pure (g a)).Refreshes P' := by
  intro held t hvalid
  have hm := h held t hvalid
  cases hrun : m held t with
  | mk result t' =>
    obtain ⟨result, held'⟩ := result
    rw [hrun] at hm
    obtain ⟨hvalid', hheld', hresult⟩ := hm
    cases result with
    | error e =>
      rw [bind_of_error hrun]
      exact ⟨hvalid', hheld', nofun⟩
    | ok a =>
      rw [bind_of_ok hrun]
      refine ⟨hvalid', hheld', ?_⟩
      rintro _ ⟨⟩
      exact hP a _ (hresult a rfl)

end ClientM

namespace Node

/-- The operations that change a node through a handle on it. -/
inductive Call where
  | setProps (props : Skel)
  | cloneChild (name : String)
  | make (name : String) (kind : Kind)
  | delete (name : String)
  | setContents (data : Bytes)

variable [RecordStore σ]

/-- Makes the call, and gives the handle on another node that it gives, if any. -/
def Call.run (config : Config) : Call → HandleM σ (Option Node)
  | setProps props => do Node.setProps props; return none
  | cloneChild name => do return some (← Node.cloneChild name)
  | make name kind => do return some (← Node.make name kind)
  | delete name => do Node.delete name; return none
  | setContents data => do Node.setContents config data; return none

variable [LawfulStore σ]

/-- Every call refreshes the handle that it is made through, and a handle that it gives is right, too. -/
theorem Call.refreshes (config : Config) (call : Call) :
    (call.run config : ClientM Node σ (Option Node)).Refreshes fun made r => ∀ node, made = some node → r.Has node := by
  have hnone : ∀ (_ : Unit) (r : Records), True → ∀ node, none = some node → r.Has node := nofun
  have hsome : ∀ (child : Node) (r : Records), r.Has child → ∀ node, some child = some node → r.Has node := by
    rintro child r hchild _ ⟨⟩
    exact hchild
  cases call with
  | setProps props => exact .bindPure (.change fun _ _ => .setPropsStep props) _ hnone
  | cloneChild name => exact .bindPure (.change fun _ _ => .cloneChildStep name) some hsome
  | make name kind => exact .bindPure (.change fun _ _ => .makeStep name kind) some hsome
  | delete name => exact .bindPure (.change fun _ _ => .deleteStep name) _ hnone
  | setContents data => exact .bindPure (.change fun _ _ => .setContentsStep config data) _ hnone

/-! ## Handles and trails -/

/-- The handle is in step with a trail: its record says what it holds, and this is what is read again, unless the store
    fails then. -/
structure InStep (node : Node) (t : Trail σ) : Prop where
  stored : t.records.Has node
  loaded : t.Answers (load node.id) node

/-- A handle that holds its record is in step with what would be loaded. -/
theorem inStep_of_has {node : Node} {t : Trail σ} (hvalid : LawfulStore.Valid t.store) (h : t.records.Has node) :
    node.InStep t where
  stored := h
  loaded := by
    obtain ⟨value, hfind, hdecode⟩ := h
    obtain ⟨t', -, -, -, hread | ⟨hfallible, e, hread⟩⟩ := Trail.read_cases hvalid (NodeRecord.key node.id)
    · -- the record is read as it was put
      rw [hfind] at hread
      have hrecord : (NodeRecord.read node.id : TrailM σ NodeRevision) t = (.ok node.revision, t') := by
        refine (TrailM.bind_of_ok hread).trans ?_
        show (TrailM.ofStored (NodeRecord.decode value) : TrailM σ NodeRevision) t' = _
        rw [hdecode]
        rfl
      exact .inl (congrArg Prod.fst (TrailM.bind_of_ok hrecord))
    · have hrecord : (NodeRecord.read node.id : TrailM σ NodeRevision) t = (.error (.storage e), t') :=
        TrailM.bind_of_error hread
      exact .inr ⟨.storage e, congrArg Prod.fst (TrailM.bind_of_error hrecord), hfallible, e, rfl⟩

/-- **HANDLES STAY IN STEP.** Whatever the records are and whatever is staged, a call through a handle whose record can be
    read leaves the handle in step, be it an error that the call ends with or a result, and however old the handle was. A
    handle that a call gives is in step, too, and so is the root of a transaction. -/
theorem handles_stay_in_step {t : Trail σ} (hvalid : LawfulStore.Valid t.store) :
    (∀ (config : Config) (call : Call) (held : Node),
        ((∃ node, (load held.id t).1 = .ok node) → (call.run config held t).1.2.id = held.id ∧
          (call.run config held t).1.2.InStep (call.run config held t).2) ∧
        ∀ made, (call.run config held t).1.1 = .ok (some made) → made.InStep (call.run config held t).2) ∧
      ∀ name root, (Root.ofTransaction name t).1 = .ok root → root.InStep (Root.ofTransaction name t).2 := by
  constructor
  · intro config call held
    obtain ⟨hvalid', hheld, hmade⟩ := call.refreshes config held t hvalid
    constructor
    · intro hread
      obtain ⟨hid, hhas⟩ := hheld (.inl hread)
      exact ⟨hid, inStep_of_has hvalid' hhas⟩
    · intro made hrun
      exact inStep_of_has hvalid' (hmade _ hrun made rfl)
  · intro name root hrun
    rcases TrailM.Yields.ofTransaction name t hvalid rfl with ⟨root', t', hok, hvalid', hhas⟩ | ⟨e, t', herror, -⟩
    · rw [hok] at hrun ⊢
      cases hrun
      exact inStep_of_has hvalid' hhas
    · rw [herror] at hrun
      exact nomatch hrun

/-- A transaction on a directory with one child, whose id is the one that the next new node would get. -/
def Sample.occupied : Trail Records :=
  (((Trail.start .empty).stage (NodeRecord.key .root)
    (some (NodeRecord.encode ((NodeRevision.newMutable .dir "0").mapEntries fun _ => [⟨"b", .ofNode 1⟩])))).stage
    (NodeRecord.key (.ofNode 1)) (some (NodeRecord.encode .emptyDir))).stage
    (Transaction.key "0") (some (Transaction.encode ⟨.root, .root, 0⟩))

/-- A handle holds the directory as it was when it was empty and nobody could change it. A child cannot be added, but the
    handle is refreshed; the one child is cloned, and the root of the transaction is. All these handles are in step. -/
theorem old_handle_refreshed :
    (∃ e, ((Call.make "a" .file).run Config.default ⟨.root, .emptyDir⟩ Sample.occupied).1.1 = .error e) ∧
      ((Call.make "a" .file).run Config.default ⟨.root, .emptyDir⟩ Sample.occupied).1.2.InStep
        ((Call.make "a" .file).run Config.default ⟨.root, .emptyDir⟩ Sample.occupied).2 ∧
      (∃ made, ((Call.cloneChild "b").run Config.default ⟨.root, .emptyDir⟩ Sample.occupied).1.1 = .ok (some made) ∧
        made.InStep ((Call.cloneChild "b").run Config.default ⟨.root, .emptyDir⟩ Sample.occupied).2) ∧
      ∃ root, (Root.ofTransaction "0" Sample.occupied).1 = .ok root ∧
        root.InStep (Root.ofTransaction "0" Sample.occupied).2 := by
  have hload : (load .root Sample.occupied).1 =
      .ok ⟨.root, (NodeRevision.newMutable .dir "0").mapEntries fun _ => [⟨"b", .ofNode 1⟩]⟩ := by decide +kernel
  have herror : ((Call.make "a" .file).run Config.default ⟨.root, .emptyDir⟩ Sample.occupied).1.1 =
      .error (.corrupt (.nodeExists (.ofNode 1))) := by decide +kernel
  have hmade : ((Call.cloneChild "b").run Config.default ⟨.root, .emptyDir⟩ Sample.occupied).1.1 =
      .ok (some ⟨.first 1 2, .newMutable .dir "0.0"⟩) := by decide +kernel
  have hroot : (Root.ofTransaction "0" Sample.occupied).1 =
      .ok ⟨.first 0 1, (NodeRevision.newMutable .dir "0").mapEntries fun _ => [⟨"b", .ofNode 1⟩]⟩ := by decide +kernel
  obtain ⟨hcalls, hroots⟩ := handles_stay_in_step (t := Sample.occupied) trivial
  exact ⟨⟨_, herror⟩, ((hcalls Config.default (.make "a" .file) ⟨.root, .emptyDir⟩).1 ⟨_, hload⟩).2,
    ⟨_, hmade, (hcalls Config.default (.cloneChild "b") ⟨.root, .emptyDir⟩).2 _ hmade⟩, _, hroot, hroots _ _ hroot⟩

/-! ## One call after the other -/

/-- Makes calls through one handle, one after the other, whether they fail or not. -/
def Call.runAll (config : Config) : List Call → Node → Trail σ → Node × Trail σ
  | [], held, t => (held, t)
  | call :: calls, held, t => runAll config calls (call.run config held t).1.2 (call.run config held t).2

/-- **ANY NUMBER OF CALLS** leaves a handle in step that was so before, even if the store fails in some of them. -/
theorem Call.runAll_in_step {held : Node} {t : Trail σ} (hvalid : LawfulStore.Valid t.store) (h : held.InStep t)
    (config : Config) (calls : List Call) :
    (runAll config calls held t).1.id = held.id ∧ (runAll config calls held t).1.InStep (runAll config calls held t).2 := by
  induction calls generalizing held t with
  | nil => exact ⟨rfl, h⟩
  | cons call calls ih =>
    obtain ⟨hvalid', hheld, -⟩ := call.refreshes config held t hvalid
    obtain ⟨hid, hhas⟩ := hheld (.inr h.stored)
    obtain ⟨hid', hstep⟩ := ih hvalid' (inStep_of_has hvalid' hhas)
    exact ⟨hid'.trans hid, hstep⟩

end Node

end VersionedTree

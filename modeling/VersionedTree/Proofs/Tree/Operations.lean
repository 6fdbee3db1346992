import VersionedTree.Client
import VersionedTree.Proofs.Tree.Edit

/-!
# Operations — roots, handles and transactions

The rules of single steps carry over to whatever a client can do: a handle is read again before anything is changed
through it, so it does not matter what it held.

* **`Ends.ofTransaction`** and **`Ends.commit`** — the operations that start and end the work on a transaction.
* **`ClientM.Ends.change`** — a step through a handle.
* **`ClientM.Ends.throughChange`** — such a step by a client, and the answer to it.
-/

namespace VersionedTree

variable {σ ω α : Type} [RecordStore σ] [LawfulStore σ] {v : View}

namespace TrailM

/-! ## Looking through handles -/

/-- The root of a revision is read as the view has it. -/
theorem Reads.ofRevision (number : UInt64) :
    (Root.ofRevision number : TrailM σ Node).Reads v
      (fun node => v.Current node ∧ ∃ revision, v.revision number = some revision ∧ node.id = revision.root)
      (fun _ => True) := by
  refine Reads.bind (Reads.revision number) ?_ fun _ _ => trivial
  intro revision hrevision
  exact Reads.mono (Reads.load revision.root) (fun node h => ⟨h.2.1, revision, hrevision, h.1⟩) fun _ _ => trivial

/-- Following names changes nothing, wherever they lead. -/
theorem Reads.follow (node : Node) (names : List String) :
    (Path.follow node names : TrailM σ Node).Reads v (fun _ => True) (fun _ => True) := by
  induction names generalizing node with
  | nil => exact Reads.pure trivial
  | cons name names ih => exact Reads.bind (Reads.openChild node name) (fun child _ => ih child) fun _ _ => trivial

/-- Following a chain changes nothing, whatever it consists of. -/
theorem Reads.followChain_any (head : String) (limit left : Nat) (rep : Representation) :
    (Representation.followChain head limit left rep : TrailM σ _).Reads v (fun _ => True) (fun _ => True) := by
  induction left generalizing rep with
  | zero =>
    unfold Representation.followChain
    cases rep.form with
    | fullText data => exact Reads.pure trivial
    | delta base ops => exact Reads.throw trivial
  | succ left ih =>
    unfold Representation.followChain
    cases rep.form with
    | fullText data => exact Reads.pure trivial
    | delta base ops =>
      refine Reads.bind (Reads.rep base) ?_ fun _ _ => trivial
      intro baseRep _
      exact Reads.bind (ih baseRep) (fun _ _ => Reads.pure trivial) fun _ _ => trivial

/-- Reading contents changes nothing, whether there are any or not. -/
theorem Reads.contents_any (node : Node) :
    (node.contents : TrailM σ Bytes).Reads v (fun _ => True) (fun _ => True) := by
  rw [Node.contents]
  split
  case h_1 => exact Reads.throw trivial
  case h_2 => exact Reads.pure trivial
  case h_3 key _ =>
    refine Reads.bind (Reads.rep key) ?_ fun _ _ => trivial
    intro head _
    refine Reads.bind (Reads.followChain_any key head.chainLength head.chainLength head) ?_ fun _ _ => trivial
    rintro ⟨fullText, deltas⟩ _
    refine Reads.bind (Q := fun _ => True) (Reads.ofExcept (fun _ _ => trivial) fun _ _ => trivial) ?_ fun _ h => h
    intro data _
    split
    case isTrue => exact Reads.pure trivial
    case isFalse => exact Reads.throw trivial

/-! ## Transactions -/

/-- The root of a transaction is cloned when it is entered for the first time. -/
theorem Ends.ofTransaction (name : String) :
    (Root.ofTransaction name : TrailM σ Node).Ends v
      (fun root w => w.Current root ∧
        ((w = v ∧ ∃ txn, v.txn name = some txn ∧ txn.root ≠ txn.baseRoot ∧ root.id = txn.root) ∨
          v.Edited (.cloneRoot name root.id) w))
      (fun _ w => w = v ∨ ∃ id, v.Edited (.strand name id) w) := by
  refine Ends.after (Reads.txn name) ?_ fun _ _ => .inl rfl
  intro txn htxn
  by_cases hfirst : txn.root = txn.baseRoot
  · rw [if_pos hfirst]
    refine Ends.after (Reads.load txn.baseRoot) ?_ fun _ _ => .inl rfl
    rintro base ⟨hid, hbase, hstorable⟩
    have hbase' : v.node txn.baseRoot = some base.revision := hid ▸ hbase
    refine Ends.bind (Ends.cloneFor name hstorable) ?_ fun _ _ he => .inl he.1
    rintro root w ⟨hfree, hsuccessor, hrevision, rfl⟩
    rw [hid] at hsuccessor
    refine Ends.bind (Ends.setRoot name root.id) ?_ ?_
    · rintro _ w ⟨txn', htxn', rfl⟩
      cases htxn.symm.trans htxn'
      refine Ends.pure ⟨?_, .inr (.cloneRoot htxn hfirst hbase' hfree hsuccessor)⟩
      simp [View.Current, hrevision]
    · -- the clone stays behind, and nothing leads to it
      rintro e w ⟨rfl, -⟩
      exact .inr ⟨root.id, .strand htxn hfirst hbase' hfree hsuccessor⟩
  · rw [if_neg hfirst]
    refine Ends.mono (Reads.load txn.root) ?_ ?_
    · rintro root w ⟨rfl, hid, hroot, -⟩
      exact ⟨hroot, .inl ⟨rfl, txn, htxn, hfirst, hid⟩⟩
    · rintro e w ⟨rfl, -⟩
      exact .inl rfl

/-- A transaction that begins is one edit. -/
theorem Ends.begin (base : UInt64) :
    (Transaction.create base : TrailM σ String).Ends v (fun name w => v.Edited (.begin base name) w) (fun _ w => w = v) := by
  refine Ends.mono (Ends.createTxn base) ?_ fun _ _ he => he
  rintro name w ⟨revision, next, hrevision, hname, hnext, rfl⟩
  exact .begin hrevision hname hnext

/-- A transaction that is closed is one edit. -/
theorem Ends.close (name : String) :
    (Transaction.close name : TrailM σ Unit).Ends v (fun _ w => v.Edited (.close name) w) (fun _ w => w = v) := by
  refine Ends.mono (Ends.closeTxn name) ?_ fun _ _ he => he.1
  rintro _ w ⟨txn, htxn, rfl⟩
  exact .close htxn

/-- A commit that succeeds is one edit. Of one that fails nothing has to be known, as its trail is never completed. -/
theorem Ends.commit (name date : String) :
    (Transaction.commit name date : TrailM σ UInt64).Ends v (fun number w => v.Edited (.commit name date number) w)
      (fun _ _ => True) := by
  refine Ends.after (Reads.txn name) ?_ fun _ _ => trivial
  intro txn htxn
  refine Ends.after Reads.youngest ?_ fun _ _ => trivial
  intro youngest hyoungest
  by_cases hbase : txn.baseRevision ≠ youngest
  · rw [if_pos hbase]
    exact Ends.throw trivial
  · -- no other commit came in between, so the new revision follows the base
    rw [if_neg hbase]
    obtain rfl : txn.baseRevision = youngest := not_not.1 hbase
    refine Ends.bind (Ends.freeze txn.root) ?_ fun _ _ _ => trivial
    rintro count w rfl
    refine Ends.bind (Ends.appendRevision _) ?_ fun _ _ _ => trivial
    rintro number w ⟨hnumber, rfl⟩
    refine Ends.bind (Ends.closeTxn name) ?_ fun _ _ _ => trivial
    rintro _ w ⟨-, -, rfl⟩
    have hyoungest' : (v.freeze txn.root).number Counter.youngest = some txn.baseRevision := hyoungest
    rw [View.IsNextRevision] at hnumber
    rw [hyoungest'] at hnumber
    obtain ⟨hleft, rfl⟩ := hnumber
    exact Ends.pure (.commit htxn hyoungest hleft)

end TrailM

/-! ## Handles -/

namespace ClientM

open TrailM

/-- A handle that is loaded again holds its node as the view has it. If there is none, that is the error. -/
theorem Ends.reload (held : Node) :
    (Node.reload : Node.HandleM σ Unit).Ends held v
      (fun _ node w => w = v ∧ node.id = held.id ∧ v.Current node ∧ node.revision.Storable)
      (fun e _ w => w = v ∧ (e.IsFault σ ∨ v.node held.id = none ∧ e = .notFound (.node held.id))) := by
  refine Ends.get (Ends.bind (Q := fun fresh _ w => w = v ∧ fresh.id = held.id ∧ v.Current fresh ∧
    fresh.revision.Storable) (Ends.lift (Reads.load held.id) (fun node w h => h) fun e w h => h) ?_ fun _ _ _ h => h)
  rintro fresh held' w h base t ht
  exact .inl ⟨⟨⟩, fresh, t, w, rfl, ht, h⟩

/-- A step through a handle is taken on the node as it is, whatever the handle held. -/
theorem Ends.change {step : Node → TrailM σ (α × Node)} {held : Node} {Q : α × Node → View → Prop}
    {E : Error → View → Prop}
    (h : ∀ node, node.id = held.id → v.Current node → node.revision.Storable → (step node).Ends v Q E)
    (hE : ∀ e, e.IsFault σ ∨ v.node held.id = none ∧ e = .notFound (.node held.id) → E e v) :
    (Node.change step).Ends held v (fun a node w => Q (a, node) w) (fun e _ w => E e w) := by
  -- whatever the handle held is forgotten here
  refine Ends.bind (Ends.reload held) ?_ ?_
  · rintro _ node w ⟨rfl, hid, hnode, hstorable⟩
    refine Ends.get (Ends.bind (Ends.lift (Q := fun r _ w => Q r w) (h node hid hnode hstorable) (fun _ _ hq => hq)
      fun _ _ he => he) ?_ fun _ _ _ he => he)
    rintro ⟨a, node'⟩ held' w hq
    exact Ends.set (Ends.pure hq)
  · rintro e node w ⟨rfl, he⟩
    exact hE e he

/-! ## Steps of a client -/

section Step

variable {handles : Client.Handles}

/-- A node is given, and kept under a name if there is one. -/
theorem Ends.give (keep : Option String) (node : Node) :
    (Client.give keep node : ClientM Client.Handles σ Client.Answer).Ends handles v
      (fun answer handles' w => w = v ∧ answer = .node node ∧
        handles' = keep.elim handles fun name => handles.insert name node) (fun _ _ _ => False) := by
  cases keep with
  | none => exact Ends.pure ⟨rfl, rfl, rfl⟩
  | some name => exact Ends.hold (Ends.pure ⟨rfl, rfl, rfl⟩)

/-- Keeping a node changes nothing. -/
theorem Ends.give_same (keep : Option String) (node : Node) (handles : Client.Handles) (v : View) :
    (Client.give keep node : ClientM Client.Handles σ Client.Answer).Ends handles v (fun _ _ w => w = v)
      (fun _ _ _ => False) :=
  Ends.mono (Ends.give keep node) (fun _ _ _ h => h.1) fun _ _ _ h => h

/-- What is done through a handle is done, and the handle kept as it is left. -/
theorem Ends.through {h : String} {node : Node} {m : Node.HandleM σ α} {Q : α → Node → View → Prop}
    {E : Error → Node → View → Prop} (hm : m.Ends node v Q E) :
    (Client.through h node m).Ends handles v
      (fun a handles' w => ∃ node', handles' = handles.insert h node' ∧ Q a node' w)
      (fun e handles' w => ∃ node', handles' = handles.insert h node' ∧ E e node' w) := by
  intro base t ht
  have hrun : Client.through h node m handles t = (((m node t).1.1, handles.insert h (m node t).1.2), (m node t).2) := rfl
  rw [hrun]
  rcases hm base t ht with ⟨a, node', t', w, heq, ht', hq⟩ | ⟨e, node', t', w, heq, ht', he⟩
  · rw [heq]
    exact .inl ⟨a, _, t', w, rfl, ht', node', rfl, hq⟩
  · rw [heq]
    exact .inr ⟨e, _, t', w, rfl, ht', node', rfl, he⟩

/-- With a handle, its node is worked on. -/
theorem Ends.withHandle {h : String} {node : Node} {f : Node → ClientM Client.Handles σ Client.Answer}
    {Q : Client.Answer → Client.Handles → View → Prop} {E : Error → Client.Handles → View → Prop}
    (hfind : handles.find? h = some node) (hf : (f node).Ends handles v Q E) :
    (Client.withHandle h f).Ends handles v Q E := by
  refine Ends.get ?_
  rw [hfind]
  exact hf

/-- A change through a handle, and an answer to its result. -/
theorem Ends.throughChange {h : String} {node : Node} {step : Node → TrailM σ (α × Node)}
    {f : α → ClientM Client.Handles σ Client.Answer} {Q : α → View → Prop}
    {R : Client.Answer → Client.Handles → View → Prop} {E : View → Prop}
    (hstep : ∀ fresh, fresh.id = node.id → v.Current fresh → fresh.revision.Storable →
      (step fresh).Ends v (fun r w => Q r.1 w) (fun _ w => E w))
    (hE : E v) (hf : ∀ a handles' w, Q a w → (f a).Ends handles' w R (fun _ _ _ => False)) :
    (Client.through h node (Node.change step) >>= f).Ends handles v R (fun _ _ w => E w) := by
  have hchange : (Node.change step).Ends node v (fun a _ w => Q a w) (fun _ _ w => E w) :=
    Ends.change (Q := fun r w => Q r.1 w) (E := fun _ w => E w) hstep fun _ _ => hE
  refine Ends.bind (Ends.through hchange) ?_ ?_
  · rintro a handles' w ⟨node', -, hq⟩
    exact Ends.mono (hf a handles' w hq) (fun _ _ _ h => h) fun _ _ _ he => he.elim
  · rintro e handles' w ⟨node', -, hw⟩
    exact hw

end Step

end ClientM

end VersionedTree

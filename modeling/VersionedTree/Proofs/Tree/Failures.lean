import VersionedTree.Proofs.Trail.Outcomes

/-!
# Failures — an operation that fails stages nothing

A client may go on after an error and complete its trail. What the failed operation has staged by then would be written,
so an operation has to find out all that can go wrong before it stages anything, whatever the records are.

* **`TrailM.OnlyLooks`** and **`TrailM.Unfailing`** — the two halves of an operation: what comes before its writes stages
  nothing, and what comes after the first of them cannot fail.
* **`TrailM.FailsAs`** — what an error leaves behind. **`TrailM.FailsClean`** says that it leaves nothing.
* **`Trail.SpendsNumber`** — the one exception. The number of a new node is taken before its id is found to be taken.
* **`failed_step_stages_nothing`** — the theorem, for all steps of a client.
-/

namespace VersionedTree

variable {σ ω α β : Type} [RecordStore σ] [LawfulStore σ]

/-- True if the number of the next node was taken and nothing else was staged, because there is a record under the id of a
    node with this number. -/
def Trail.SpendsNumber (t t' : Trail σ) (e : Error) : Prop :=
  ∃ n : UInt64, n = (t.records.view.number Counter.nextNode).getD 1 ∧ e = .corrupt (.nodeExists (.ofNode n)) ∧
    t.records.find? (NodeRecord.key (.ofNode n)) ≠ none ∧
    t'.staged = t.staged.insert (Counter.key Counter.nextNode) (some (Text.toBytes (Decimal.text (n + 1).toNat)))

/-- What an error leaves behind. -/
abbrev Leaves : Type :=
  Error → Trail Records → Trail Records → Prop

/-- Nothing is staged. -/
def Leaves.nothing : Leaves :=
  fun _ s s' => s' = s

/-- Nothing is staged, or the number of a node is taken. -/
def Leaves.number : Leaves :=
  fun e s s' => s' = s ∨ s.SpendsNumber s' e

namespace TrailM

/-- The computation stages nothing, whatever the records are. -/
def OnlyLooks (m : TrailM σ α) : Prop :=
  ∀ s, m.Looks s (fun _ => True) fun _ => True

/-- The computation does not fail, whatever the records are. -/
def Unfailing (m : TrailM σ α) : Prop :=
  ∀ s, m.Comes s (fun _ _ => True) fun _ _ => False

/-- An error leaves behind what `R` allows. -/
def FailsAs (m : TrailM σ α) (R : Leaves) : Prop :=
  ∀ s, m.Comes s (fun _ _ => True) fun e s' => R e s s'

/-- If the computation fails, it has staged nothing. -/
def FailsClean (m : TrailM σ α) : Prop :=
  m.FailsAs .nothing

variable {m : TrailM σ α} {f : α → TrailM σ β} {s : Trail Records} {R : Leaves}

/-! ## Rules for sequences -/

/-- What looks on every trail only looks. -/
theorem Looks.onlyLooks {Q : Trail Records → α → Prop} {E : Trail Records → Error → Prop}
    (h : ∀ s, m.Looks s (Q s) (E s)) : m.OnlyLooks :=
  fun s => Looks.mono (h s) (fun _ _ => trivial) fun _ _ => trivial

theorem OnlyLooks.pure (a : α) : (Pure.pure a : TrailM σ α).OnlyLooks :=
  fun _ => Looks.pure trivial

theorem OnlyLooks.throw (e : Error) : (MonadExcept.throw e : TrailM σ α).OnlyLooks :=
  fun _ => Looks.throw trivial

/-- What looks and then looks again only looks. -/
theorem OnlyLooks.bind (h : m.OnlyLooks) (hf : ∀ a, (f a).OnlyLooks) : (m >>= f).OnlyLooks :=
  fun s => Looks.bind (h s) (fun a _ => hf a s) fun _ _ => trivial

/-- What is worked out without the records only looks. -/
theorem OnlyLooks.ofExcept {ε : Type} (asError : ε → Error) (result : Except ε α) :
    (TrailM.ofExcept asError result : TrailM σ α).OnlyLooks :=
  fun _ => Looks.ofExcept (fun _ _ => trivial) fun _ _ => trivial

/-- The same for results whose errors are those of trails. -/
theorem OnlyLooks.ofResult (result : Except Error α) : (TrailM.ofResult result : TrailM σ α).OnlyLooks :=
  fun _ => Looks.ofResult (fun _ _ => trivial) fun _ _ => trivial

/-- What only looks leaves nothing behind when it fails. -/
theorem OnlyLooks.failsClean (h : m.OnlyLooks) : m.FailsClean :=
  fun s => Comes.mono (h s) (fun _ _ _ => trivial) fun _ _ he => he.1

/-- What stages something on every trail does not fail. -/
theorem Stages.unfailing {next : Trail Records → Trail Records} (h : ∀ s, m.Stages s (next s)) : m.Unfailing :=
  fun s => Comes.mono (h s) (fun _ _ _ => trivial) fun _ _ he => he

theorem Unfailing.pure (a : α) : (Pure.pure a : TrailM σ α).Unfailing :=
  fun _ => Comes.pure trivial

/-- One after the other they do not fail either. -/
theorem Unfailing.bind (h : m.Unfailing) (hf : ∀ a, (f a).Unfailing) : (m >>= f).Unfailing :=
  fun s => Comes.bind (h s) (fun a s' _ => hf a s') fun _ _ he => he

theorem Unfailing.comes (h : m.Unfailing) {E : Error → Trail Records → Prop} : m.Comes s (fun _ _ => True) E :=
  Comes.mono (h s) (fun _ _ hq => hq) fun _ _ he => he.elim

/-- Where nothing fails, errors leave behind whatever one likes. -/
theorem Unfailing.failsAs (h : m.Unfailing) : m.FailsAs R :=
  fun _ => h.comes

theorem FailsAs.mono {R' : Leaves} (h : m.FailsAs R') (hR : ∀ e s s', R' e s s' → R e s s') : m.FailsAs R :=
  fun s => Comes.mono (h s) (fun _ _ hq => hq) fun e s' => hR e s s'

/-- First look, then do what leaves no more than `R` allows. -/
theorem FailsAs.after (hR : ∀ e s, R e s s) (h : m.OnlyLooks) (hf : ∀ a, (f a).FailsAs R) : (m >>= f).FailsAs R :=
  fun s => Comes.after (h s) (fun a _ => hf a s) fun e _ => hR e s

/-- Nothing that is done after the first write can fail. -/
theorem FailsAs.andThen (h : m.FailsAs R) (hf : ∀ a, (f a).Unfailing) : (m >>= f).FailsAs R :=
  fun s => Comes.bind (h s) (fun a _ _ => (hf a).comes) fun _ _ he => he

/-- Looking may come first. -/
theorem FailsClean.after (h : m.OnlyLooks) (hf : ∀ a, (f a).FailsClean) : (m >>= f).FailsClean :=
  FailsAs.after (fun _ _ => rfl) h hf

/-! ## Looking -/

theorem OnlyLooks.readNode (id : NodeId) : (NodeRecord.read id : TrailM σ NodeRevision).OnlyLooks :=
  Looks.onlyLooks fun _ => .readNode id

theorem OnlyLooks.isTaken (id : NodeId) : (NodeRecord.isTaken id : TrailM σ Bool).OnlyLooks :=
  Looks.onlyLooks fun _ => .contains _

theorem OnlyLooks.readRep (key : String) : (Representation.readRecord key : TrailM σ Representation).OnlyLooks :=
  Looks.onlyLooks fun _ => .readRep key

theorem OnlyLooks.load (id : NodeId) : (Node.load id : TrailM σ Node).OnlyLooks :=
  .bind (.readNode id) fun _ => .pure _

theorem OnlyLooks.openChild (node : Node) (name : String) : (node.openChild name : TrailM σ Node).OnlyLooks :=
  .bind (.ofResult _) fun entry => .load entry.id

/-- Following names changes nothing, by induction on them. -/
theorem OnlyLooks.follow (node : Node) (names : List String) : (Path.follow node names : TrailM σ Node).OnlyLooks := by
  induction names generalizing node with
  | nil => exact .pure node
  | cons name names ih => exact .bind (.openChild node name) ih

theorem OnlyLooks.ofRevision (number : UInt64) : (Root.ofRevision number : TrailM σ Node).OnlyLooks :=
  .bind (Looks.onlyLooks fun _ => .readRevision number) fun revision => .load revision.root

/-- Following a chain of deltas changes nothing, by induction on the deltas that may still come. -/
theorem OnlyLooks.followChain (head : String) (limit left : Nat) (rep : Representation) :
    (Representation.followChain head limit left rep : TrailM σ (Bytes × List (List Delta.Op))).OnlyLooks := by
  induction left generalizing rep with
  | zero =>
    unfold Representation.followChain
    cases rep.form with
    | fullText data => exact .pure _
    | delta base ops => exact .throw _
  | succ left ih =>
    unfold Representation.followChain
    cases rep.form with
    | fullText data => exact .pure _
    | delta base ops => exact .bind (.readRep base) fun baseRep => .bind (ih baseRep) fun _ => .pure _

theorem OnlyLooks.readContents (key : String) : (Representation.readContents key : TrailM σ Bytes).OnlyLooks := by
  refine .bind (.readRep key) fun head => .bind (.followChain _ _ _ _) fun found => .bind (.ofExcept _ _) fun data => ?_
  split
  case isTrue => exact .pure _
  case isFalse => exact .throw _

theorem OnlyLooks.contents (node : Node) : (node.contents : TrailM σ Bytes).OnlyLooks := by
  unfold Node.contents
  split
  case h_1 => exact .throw _
  case h_2 => exact .pure _
  case h_3 key _ => exact .readContents key

/-- Looking for a delta changes nothing, as the representation is only made. -/
theorem OnlyLooks.deltify (config : Config) (base : String) (data : Bytes) :
    (Representation.deltify? config base data : TrailM σ (Option Representation)).OnlyLooks := by
  refine .bind (.readRep base) fun rep => ?_
  split
  case isTrue => exact .pure _
  case isFalse =>
    refine .bind (.readContents base) fun source => ?_
    dsimp only
    split
    case isTrue => exact .pure _
    case isFalse => exact .pure _

/-- The same for contents that may have no predecessor, or be too long for one. -/
theorem OnlyLooks.deltaFor (config : Config) (data : Bytes) (previous : Option String) :
    (Representation.deltaFor? config data previous : TrailM σ (Option Representation)).OnlyLooks := by
  cases previous with
  | none => exact .pure none
  | some base =>
    rw [Representation.deltaFor?]
    split
    case isTrue => exact .deltify config base data
    case isFalse => exact .pure none

theorem OnlyLooks.requireMutable (node : Node) : (node.requireMutable : TrailM σ Unit).OnlyLooks := by
  unfold Node.requireMutable
  split
  case isTrue => exact .pure _
  case isFalse => exact .throw _

theorem OnlyLooks.successorId (base : NodeId) : (NodeRecord.successorId base : TrailM σ NodeId).OnlyLooks := by
  have hfork : ∀ steps branch, (NodeRecord.freeFork base steps branch : TrailM σ NodeId).OnlyLooks := by
    intro steps
    induction steps with
    | zero => exact fun _ => .throw _
    | succ steps ih =>
      refine fun branch => .bind (.isTaken _) fun taken => ?_
      split
      case isTrue => exact ih _
      case isFalse => exact .pure _
  refine .bind (.isTaken _) fun taken => ?_
  split
  case isTrue => exact .bind (Looks.onlyLooks fun _ => .bound) fun bound => hfork _ _
  case isFalse => exact .pure _

/-! ## Writing -/

/-- A record is staged without fail. -/
theorem Unfailing.put (key : Key) (value : Bytes) : (Trail.put key value : TrailM σ Unit).Unfailing :=
  Stages.unfailing fun _ => .put key value

/-- A handle is saved without fail. -/
theorem Unfailing.save (node : Node) : (node.save : TrailM σ Unit).Unfailing :=
  .put _ _

/-- A node is saved last. -/
theorem Unfailing.saveAndGive (node : Node) (a : α) : (do node.save; return a : TrailM σ α).Unfailing :=
  .bind (.save node) fun _ => .pure a

/-- One record is put, that of the node. -/
theorem Comes.createSuccessor (base : NodeId) (node : NodeRevision) :
    (NodeRecord.createSuccessor base node : TrailM σ NodeId).Comes s
      (fun id s' => s' = s.stage (NodeRecord.key id) (some (NodeRecord.encode node))) fun _ s' => s' = s := by
  refine Comes.after (OnlyLooks.successorId base s) ?_ fun _ _ => rfl
  intro id _
  exact Comes.andThen (Stages.put _ _) fun _ => Comes.pure rfl

/-- A clone that has no id stages nothing. -/
theorem FailsClean.cloneFor (owner : String) (node : Node) : (node.cloneFor owner : TrailM σ Node).FailsClean := by
  refine FailsAs.andThen (fun s => ?_) fun id => .pure _
  exact Comes.mono (Comes.createSuccessor node.id _) (fun _ _ _ => trivial) fun _ _ he => he

/-- The number is taken before the id is looked up. -/
theorem FailsAs.create (node : NodeRevision) : (NodeRecord.create node : TrailM σ NodeId).FailsAs .number := by
  intro s
  refine Comes.after (Looks.readNumber Counter.nextNode) ?_ fun _ _ => .inl rfl
  rintro number rfl
  generalize hn : (s.records.view.number Counter.nextNode).getD 1 = n
  refine Comes.after (Looks.successor Counter.nextNode n) ?_ fun _ _ => .inl rfl
  rintro next rfl
  refine Comes.andThen (Stages.put _ _) fun _ => ?_
  refine Comes.after (Looks.contains _) ?_ fun _ he => he.elim
  intro taken htaken
  cases taken with
  | false => exact Unfailing.comes (.bind (.put _ _) fun _ => .pure _)
  | true =>
    -- the counter is no node, so the record of the id was there before
    have hother : NodeRecord.key (.ofNode n) ≠ Counter.key Counter.nextNode := by
      simp [NodeRecord.key, Counter.key, Key.ofText_inj]
    have hthere : s.records.find? (NodeRecord.key (.ofNode n)) ≠ none := by
      rw [Trail.find?_records_stage, if_neg hother] at htaken
      exact Option.isSome_iff_ne_none.1 htaken.symm
    exact Comes.throw (.inr ⟨n, hn.symm, rfl, hthere, rfl⟩)

/-- A counter that has no key left stays where it is. -/
theorem FailsClean.allocateKey (record : Key) : (Counter.allocateKey record : TrailM σ String).FailsClean := by
  refine .after (Looks.onlyLooks fun _ => .read record) fun value => .after (.ofExcept _ _) fun current => ?_
  split
  case h_1 => exact Unfailing.failsAs (.bind (.put _ _) fun _ => .pure _)
  case h_2 => exact OnlyLooks.failsClean (.throw _)

/-- A key is taken after everything that can go wrong, and then its record is put. -/
theorem FailsClean.createRep (config : Config) (rep : Representation) :
    (Representation.create config rep : TrailM σ String).FailsClean := by
  refine .after (.ofExcept _ _) fun stored => ?_
  exact FailsAs.andThen (FailsClean.allocateKey _) fun key => .bind (.put _ _) fun _ => .pure _

/-- Contents are stored only when all that they need was found. -/
theorem FailsClean.storeContents (config : Config) (previous : Option String) (data : Bytes) :
    (Representation.storeContents config previous data : TrailM σ String).FailsClean :=
  .after (.deltaFor config data previous) fun _ => .createRep config _

/-! ## Steps on a node -/

/-- Whatever stops a child from being cloned is found before the clone is staged. -/
theorem FailsClean.cloneChildStep (name : String) (node : Node) :
    (node.cloneChildStep name : TrailM σ (Node × Node)).FailsClean := by
  refine .after (.requireMutable node) fun _ => .after (.ofResult _) fun entry => .after (.load entry.id) fun child => ?_
  split
  case isTrue => exact OnlyLooks.failsClean (.pure _)
  case isFalse => exact FailsAs.andThen (FailsClean.cloneFor _ _) fun clone => .saveAndGive _ _

/-- A child that is not made may take the number of a node. -/
theorem FailsAs.makeStep (name : String) (kind : Kind) (node : Node) :
    (node.makeStep name kind : TrailM σ (Node × Node)).FailsAs .number := by
  have hnothing : ∀ (e : Error) (s : Trail Records), Leaves.number e s s := fun _ _ => .inl rfl
  refine .after hnothing (.requireMutable node) fun _ => .after hnothing (.ofResult _) fun entries => ?_
  split
  case isTrue => exact .mono (OnlyLooks.failsClean (.throw _)) fun _ _ _ h => .inl h
  case isFalse => exact .andThen (.create _) fun id => .saveAndGive _ _

/-- Whatever stops a child from being deleted is found before its directory is put. -/
theorem FailsClean.deleteStep (name : String) (node : Node) :
    (node.deleteStep name : TrailM σ (Unit × Node)).FailsClean := by
  refine .after (.ofResult _) fun entries => .after (.requireMutable node) fun _ => ?_
  split
  case h_1 => exact OnlyLooks.failsClean (.throw _)
  case h_2 entry _ =>
    refine .after (.load entry.id) fun child => ?_
    split
    case isTrue => exact OnlyLooks.failsClean (.throw _)
    case isFalse => exact (Unfailing.saveAndGive _ _).failsAs

/-- Properties that do not decode are found before the node is put. -/
theorem FailsClean.setPropsStep (props : Skel) (node : Node) :
    (node.setPropsStep props : TrailM σ (Unit × Node)).FailsClean :=
  .after (.requireMutable node) fun _ => .after (.ofExcept _ _) fun _ => (Unfailing.saveAndGive _ _).failsAs

/-- Whatever stops contents from being set is found before they are stored. -/
theorem FailsClean.setContentsStep (config : Config) (data : Bytes) (node : Node) :
    (node.setContentsStep config data : TrailM σ (Unit × Node)).FailsClean := by
  unfold Node.setContentsStep
  split
  case h_1 => exact OnlyLooks.failsClean (.throw _)
  case h_2 previous _ =>
    refine .after (.requireMutable node) fun _ => ?_
    exact FailsAs.andThen (FailsClean.storeContents config previous data) fun _ => .saveAndGive _ _

/-! ## Roots -/

/-- The record of the transaction is read again after the root was cloned. It is still there then, since only the record
    of a node was put. -/
theorem FailsClean.ofTransaction (name : String) : (Root.ofTransaction name : TrailM σ Node).FailsClean := by
  intro s
  refine Comes.after (Looks.readTxn name) ?_ fun _ _ => rfl
  rintro txn ⟨value, hfind, hdecode⟩
  split
  case isFalse => exact OnlyLooks.failsClean (.load _) s
  case isTrue =>
    refine Comes.after (OnlyLooks.load txn.baseRoot s) ?_ fun _ _ => rfl
    rintro base -
    have hclone : (base.cloneFor name : TrailM σ Node).Comes s
        (fun _ s' => s'.records.find? (Transaction.key name) = some value) fun _ s' => s' = s := by
      refine Comes.bind (Comes.createSuccessor base.id _) ?_ fun _ _ he => he
      rintro id s' rfl
      refine Comes.pure ?_
      rwa [Trail.find?_records_stage, if_neg (by simp [NodeRecord.key, Transaction.key, Key.ofText_inj])]
    refine Comes.bind hclone ?_ fun _ _ he => he
    intro root s' hfind'
    refine Comes.bind (Q := fun _ _ => True) (E := fun _ _ => False) ?_ (fun _ _ _ => Comes.pure trivial)
      fun _ _ he => he.elim
    have hread : (Transaction.read name : TrailM σ Transaction).Looks s' (fun found => found = txn) fun _ => False :=
      Looks.record_of_ok rfl (fun _ => rfl) ⟨value, hfind', hdecode⟩
    exact Comes.after hread (fun _ _ => Unfailing.put _ _ _) fun _ he => he.elim

end TrailM

/-! ## Steps of a client -/

namespace ClientM

/-- The computation does not fail, whatever is held and whatever the records are. -/
def Unfailing (m : ClientM ω σ α) : Prop :=
  ∀ held s, m.Comes held s (fun _ _ _ => True) fun _ _ _ => False

/-- An error leaves behind what `R` allows. -/
def FailsAs (m : ClientM ω σ α) (R : Leaves) : Prop :=
  ∀ held s, m.Comes held s (fun _ _ _ => True) fun e _ s' => R e s s'

variable {m : ClientM ω σ α} {f : α → ClientM ω σ β} {R : Leaves}

theorem Unfailing.comes {held : ω} {s : Trail Records} (h : m.Unfailing) {E : Error → ω → Trail Records → Prop} :
    m.Comes held s (fun _ _ _ => True) E :=
  Comes.mono (h held s) (fun _ _ _ hq => hq) fun _ _ _ he => he.elim

theorem Unfailing.pure (a : α) : (Pure.pure a : ClientM ω σ α).Unfailing :=
  fun _ _ => Comes.pure trivial

/-- Where a client never fails, errors leave behind whatever one likes. -/
theorem Unfailing.failsAs (h : m.Unfailing) : m.FailsAs R :=
  fun _ _ => h.comes

theorem FailsAs.mono {R' : Leaves} (h : m.FailsAs R') (hR : ∀ e s s', R' e s s' → R e s s') : m.FailsAs R :=
  fun held s => Comes.mono (h held s) (fun _ _ _ hq => hq) fun e _ s' => hR e s s'

/-- What comes after may stage as it likes, if it does not fail. -/
theorem FailsAs.andThen (h : m.FailsAs R) (hf : ∀ a, (f a).Unfailing) : (m >>= f).FailsAs R :=
  fun held s => Comes.bind (h held s) (fun a _ _ _ => (hf a).comes) fun _ _ _ he => he

/-- What is done to the trail leaves behind the same for a client. -/
theorem FailsAs.lift {m : TrailM σ α} (h : m.FailsAs R) : (TrailM.lift m : ClientM ω σ α).FailsAs R :=
  fun _ s => Comes.mono (Comes.lift (h s)) (fun _ _ _ _ => trivial) fun _ _ _ he => he.2

/-- What is held may be looked at first. -/
theorem FailsAs.get {f : ω → ClientM ω σ α} (hf : ∀ held, (f held).FailsAs R) :
    (getThe ω >>= f : ClientM ω σ α).FailsAs R :=
  fun held s => Comes.get (hf held held s)

/-- A node is read again, and nothing is staged by that. -/
theorem Comes.reload (held : Node) (s : Trail Records) :
    (Node.reload : Node.HandleM σ Unit).Comes held s (fun _ _ s' => s' = s) fun _ _ s' => s' = s := by
  refine Comes.get (Comes.bind (Comes.lift (TrailM.OnlyLooks.load held.id s)) ?_ fun _ _ _ he => he.2.1)
  rintro fresh _ s' ⟨-, rfl, -⟩ t ht
  exact .inl ⟨⟨⟩, fresh, t, s', rfl, ht, rfl⟩

/-- A change leaves behind what its step does, as loading the handle stages nothing. -/
theorem FailsAs.change {step : Node → TrailM σ (α × Node)} (hR : ∀ e s, R e s s) (h : ∀ node, (step node).FailsAs R) :
    (Node.change step).FailsAs R := by
  intro held s
  refine Comes.bind (Comes.reload held s) ?_ ?_
  · rintro _ node _ rfl
    refine Comes.get (Comes.bind (FailsAs.lift (h node) node _) ?_ fun _ _ _ he => he)
    intro r _ _ _
    exact Comes.set (Comes.pure trivial)
  · rintro e _ _ rfl
    exact hR e _

/-- Through a handle the same is left behind as without. -/
theorem FailsAs.through {h : String} {node : Node} {m : Node.HandleM σ α} (hm : m.FailsAs R) :
    (Client.through h node m).FailsAs R := by
  intro handles s
  exact Comes.through (Q := fun _ _ => True) (E := fun e s' => R e s s') (hm node s)

/-- Keeping a node does not fail. -/
theorem Unfailing.give (keep : Option String) (node : Node) :
    (Client.give keep node : ClientM Client.Handles σ Client.Answer).Unfailing := by
  intro held s
  exact Comes.mono (Comes.give keep node) (fun _ _ _ _ => trivial) fun _ _ _ he => he

/-- Without a handle there is an answer, and no error. -/
theorem FailsAs.withHandle {h : String} {f : Node → ClientM Client.Handles σ Client.Answer}
    (hf : ∀ node, (f node).FailsAs R) : (Client.withHandle h f).FailsAs R := by
  refine FailsAs.get fun handles => ?_
  cases handles.find? h with
  | none => exact (Unfailing.pure _).failsAs
  | some node => exact hf node

/-- Looking and then keeping what was found. -/
theorem FailsAs.lookAndGive {m : TrailM σ Node} (h : m.OnlyLooks) (keep : Option String) :
    (do Client.give keep (← m.lift) : ClientM Client.Handles σ Client.Answer).FailsAs .nothing :=
  .andThen (.lift h.failsClean) (.give keep)

/-- A change through a handle, and an answer. -/
theorem FailsAs.changeThrough {h : String} {node : Node} {step : Node → TrailM σ (α × Node)}
    {f : α → ClientM Client.Handles σ Client.Answer} (hstep : ∀ node, (step node).FailsClean)
    (hf : ∀ a, (f a).Unfailing) : (Client.through h node (Node.change step) >>= f).FailsAs .nothing :=
  .andThen (.through (.change (fun _ _ => rfl) hstep)) hf

/-- **A STEP THAT FAILS** has staged nothing, unless it makes a node. -/
theorem FailsAs.step (config : Config) {step : Client.Step}
    (h : ∀ handle name kind keep, step ≠ .make handle name kind keep) :
    (step.run config : ClientM Client.Handles σ Client.Answer).FailsAs .nothing := by
  have hdone : ∀ _ : Unit, (Pure.pure .done : ClientM Client.Handles σ Client.Answer).Unfailing := fun _ => .pure _
  cases step with
  | make handle name kind keep => exact absurd rfl (h handle name kind keep)
  | cloneRoot txn keep => exact .andThen (.lift (TrailM.FailsClean.ofTransaction txn)) (.give keep)
  | revisionRoot number keep => exact .lookAndGive (.ofRevision number) keep
  | load id keep => exact .lookAndGive (.load id) keep
  | openChild handle name keep => exact .withHandle fun node => .lookAndGive (.openChild node name) keep
  | openPath handle path keep => exact .withHandle fun node => .lookAndGive (.follow node _) keep
  | cloneChild handle name keep => exact .withHandle fun node => .changeThrough (.cloneChildStep name) (.give keep)
  | copy handle keep => exact .withHandle fun node => (Unfailing.give keep node).failsAs
  | delete handle name => exact .withHandle fun node => .changeThrough (.deleteStep name) hdone
  | setContents handle data => exact .withHandle fun node => .changeThrough (.setContentsStep config data) hdone
  | setProps handle props => exact .withHandle fun node => .changeThrough (.setPropsStep props) hdone
  | reload handle =>
    refine .withHandle fun node => .andThen (.through fun held s => ?_) hdone
    exact Comes.mono (Comes.reload held s) (fun _ _ _ _ => trivial) fun _ _ _ he => he
  | contents handle =>
    exact .withHandle fun node => .andThen (.lift (TrailM.OnlyLooks.contents node).failsClean) fun _ => .pure _
  | prop handle name => exact .withHandle fun node => (Unfailing.pure _).failsAs
  | entries handle =>
    exact .withHandle fun node => .andThen (.lift (TrailM.OnlyLooks.ofResult _).failsClean) fun _ => .pure _
  | inspect handle => exact .withHandle fun node => (Unfailing.pure _).failsAs
  | same handle other => exact .withHandle fun node => .get fun handles => (Unfailing.pure _).failsAs

/-- A step that makes a node and fails has taken a number at most. -/
theorem FailsAs.make (config : Config) (handle name : String) (kind : Kind) (keep : Option String) :
    ((Client.Step.make handle name kind keep).run config : ClientM Client.Handles σ Client.Answer).FailsAs .number :=
  .withHandle fun _ => .andThen (.through (.change (fun _ _ => .inl rfl) (.makeStep name kind))) (.give keep)

/-- What a trail looks like after an error. -/
theorem FailsAs.leaves (h : m.FailsAs R) {held held' : ω} {t t' : Trail σ} {e : Error}
    (hvalid : LawfulStore.Valid t.store) (hrun : m held t = ((.error e, held'), t')) (hfault : ¬ e.IsFault σ) :
    ∃ s', t'.Over s' ∧ R e t.plain s' := by
  rcases h held t.plain t (Trail.over_plain hvalid) with ⟨a, _, _, _, hok, -, -⟩ | ⟨_, _, _, s', herror, ht', he⟩
  · cases hok.symm.trans hrun
  · cases herror.symm.trans hrun
    exact ⟨s', ht', he.resolve_left hfault⟩

end ClientM

namespace Client.Step

/-- What a step leaves behind if it fails. -/
def leaves (step : Step) : Leaves :=
  fun e s s' => s' = s ∨ (∃ h name kind keep, step = .make h name kind keep) ∧ s.SpendsNumber s' e

/-- Every step leaves behind at most what is allowed to its kind. -/
theorem failsAs_leaves (config : Config) (step : Step) :
    (step.run config : ClientM Handles σ Answer).FailsAs step.leaves := by
  by_cases hmake : ∃ h name kind keep, step = .make h name kind keep
  case pos =>
    obtain ⟨h, name, kind, keep, rfl⟩ := hmake
    exact (ClientM.FailsAs.make config h name kind keep).mono fun _ _ _ hleft =>
      hleft.imp_right fun hspent => ⟨⟨h, name, kind, keep, rfl⟩, hspent⟩
  case neg =>
    have hother : ∀ h name kind keep, step ≠ .make h name kind keep :=
      fun h name kind keep heq => hmake ⟨h, name, kind, keep, heq⟩
    exact (ClientM.FailsAs.step config hother).mono fun _ _ _ hleft => .inl hleft

/-- **AN OPERATION THAT FAILS STAGES NOTHING**, whatever the records are, whatever is staged and however old the handle is.
    Only an operation that makes a node may have taken the number of the node before it finds out that there is a record
    under its id. -/
theorem failed_step_stages_nothing {t t' : Trail σ} (hvalid : LawfulStore.Valid t.store) (config : Config) (step : Step)
    {held held' : Handles} {e : Error} (hrun : step.run config held t = ((.error e, held'), t'))
    (hfault : ¬ e.IsFault σ) :
    t'.staged = t.staged ∨ (∃ h name kind keep, step = .make h name kind keep) ∧ t.SpendsNumber t' e := by
  obtain ⟨s', ht', rfl | ⟨hmake, n, hn, he, hthere, hstaged⟩⟩ := (failsAs_leaves config step).leaves hvalid hrun hfault
  · exact .inl ht'.staged
  · exact .inr ⟨hmake, n, hn, he, hthere, ht'.staged.trans hstaged⟩

/-- Records that contradict each other: there is a record under the id of the first node, and the counter of nodes was
    never written. -/
def Sample.crowded : Trail Records :=
  ((Trail.start .empty).stage (NodeRecord.key .root) (some (NodeRecord.encode (.newMutable .dir "0")))).stage
    (NodeRecord.key (.ofNode 1)) (some (NodeRecord.encode .emptyDir))

/-- A file cannot be made there, and its number is taken. -/
theorem number_spent_on_taken_id : ∃ e held' t',
    (make "dir" "a" .file none).run Config.default (SortedMap.empty.insert "dir" ⟨.root, .emptyDir⟩) Sample.crowded =
      ((.error e, held'), t') ∧ t'.staged ≠ Sample.crowded.staged ∧ Sample.crowded.SpendsNumber t' e := by
  have herror : ((make "dir" "a" .file none).run Config.default (SortedMap.empty.insert "dir" ⟨.root, .emptyDir⟩)
      Sample.crowded).1.1 = .error (.corrupt (.nodeExists (.ofNode 1))) := by decide +kernel
  have hstaged : ((make "dir" "a" .file none).run Config.default (SortedMap.empty.insert "dir" ⟨.root, .emptyDir⟩)
      Sample.crowded).2.staged ≠ Sample.crowded.staged := by decide +kernel
  refine ⟨_, _, _, Prod.ext (Prod.ext herror rfl) rfl, hstaged, ?_⟩
  have hleaves := failed_step_stages_nothing trivial Config.default (make "dir" "a" .file none)
    (Prod.ext (Prod.ext herror rfl) rfl) (Records.not_isFault _)
  exact (hleaves.resolve_left hstaged).2

end Client.Step

end VersionedTree

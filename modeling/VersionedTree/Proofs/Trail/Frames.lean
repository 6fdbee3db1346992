import VersionedTree.Client
import VersionedTree.Proofs.Trail.Ends
import VersionedTree.Proofs.Trail.Immediate

/-!
# Frames — which tables a computation writes to

What a computation stages is in a few tables only, and it leaves all other records of the trail alone. That can be read
off the computation, whatever the records are.

* **`TrailM.StagesIn`** — the computation stages writes to these tables only. Rules for sequences come first, then one
  rule for each operation. Looking stages nothing at all.
* **`ClientM.StagesIn`** — the same for the computations of a client. **`StagesIn.step`** is the rule for the steps of a
  client, except for the one that stores contents.
-/

namespace VersionedTree

variable {σ ω α β : Type}

namespace TrailM

/-- Writes are staged to these tables only. -/
def StagesIn (m : TrailM σ α) (tables : List Table) : Prop :=
  ∀ t key, key.table ∉ tables → (m t).2.staged.find? key = t.staged.find? key

variable {m : TrailM σ α} {f : α → TrailM σ β} {tables : List Table}

/-! ## Rules for sequences -/

theorem StagesIn.pure (a : α) : (Pure.pure a : TrailM σ α).StagesIn tables :=
  fun _ _ _ => rfl

theorem StagesIn.throw (e : Error) : (MonadExcept.throw e : TrailM σ α).StagesIn tables :=
  fun _ _ _ => rfl

/-- What is done first may stage in the same tables as what is done then. -/
theorem StagesIn.bind (h : m.StagesIn tables) (hf : ∀ a, (f a).StagesIn tables) : (m >>= f).StagesIn tables := by
  intro t key hkey
  have hm := h t key hkey
  cases hrun : m t with
  | mk result t' =>
    rw [hrun] at hm
    cases result with
    | ok a =>
      rw [bind_of_ok hrun]
      exact (hf a t' key hkey).trans hm
    | error e =>
      rw [bind_of_error hrun]
      exact hm

/-- What is worked out without the records stages nothing, whether it is a value or an error. -/
theorem StagesIn.ofExcept {ε : Type} (asError : ε → Error) (result : Except ε α) :
    (TrailM.ofExcept asError result : TrailM σ α).StagesIn tables := by
  cases result with
  | ok a => exact .pure a
  | error e => exact .throw _

/-- The same for results whose errors are those of trails. -/
theorem StagesIn.ofResult (result : Except Error α) : (TrailM.ofResult result : TrailM σ α).StagesIn tables := by
  cases result with
  | ok a => exact .pure a
  | error e => exact .throw e

/-- What every element stages in these tables, the whole list does. -/
theorem StagesIn.mapM {f : α → TrailM σ β} (hf : ∀ a, (f a).StagesIn tables) (as : List α) :
    (as.mapM f).StagesIn tables := by
  induction as with
  | nil => exact .pure _
  | cons a as ih =>
    rw [List.mapM_cons]
    exact .bind (hf a) fun b => .bind ih fun bs => .pure _

/-! ## Single records -/

/-- A record is put into its own table. -/
theorem StagesIn.put {key : Key} (h : key.table ∈ tables) (value : Bytes) :
    (Trail.put key value : TrailM σ Unit).StagesIn tables := by
  intro t key' hkey'
  refine (SortedMap.find?_insert ..).trans (if_neg fun heq => hkey' ?_)
  rwa [Std.LawfulEqOrd.eq_of_compare heq]

/-- A record is deleted from its own table. -/
theorem StagesIn.delete {key : Key} (h : key.table ∈ tables) : (Trail.delete key : TrailM σ Unit).StagesIn tables := by
  intro t key' hkey'
  refine (SortedMap.find?_insert ..).trans (if_neg fun heq => hkey' ?_)
  rwa [Std.LawfulEqOrd.eq_of_compare heq]

/-- A node is put among the nodes. -/
theorem StagesIn.putNode (h : .nodes ∈ tables) (id : NodeId) (node : NodeRevision) :
    (NodeRecord.put id node : TrailM σ Unit).StagesIn tables :=
  .put h _

/-- A handle is saved among the nodes. -/
theorem StagesIn.save (hnodes : .nodes ∈ tables) (node : Node) : (node.save : TrailM σ Unit).StagesIn tables :=
  .putNode hnodes _ _

/-- A number is written among the counters. -/
theorem StagesIn.writeNumber (h : .globals ∈ tables) (counter : String) (n : UInt64) :
    (Counter.writeNumber counter n : TrailM σ Unit).StagesIn tables :=
  .put h _

/-- Counting up stages nothing by itself. -/
theorem StagesIn.successor (counter : String) (n : UInt64) :
    (Counter.successor counter n : TrailM σ UInt64).StagesIn tables := by
  unfold Counter.successor
  split
  case isTrue => exact .pure _
  case isFalse => exact .throw _

theorem StagesIn.requireMutable (node : Node) : (node.requireMutable : TrailM σ Unit).StagesIn tables := by
  unfold Node.requireMutable
  split
  case isTrue => exact .pure _
  case isFalse => exact .throw _

/-- New properties are staged with their node. -/
theorem StagesIn.setPropsStep (hnodes : .nodes ∈ tables) (props : Skel) (node : Node) :
    (node.setPropsStep props : TrailM σ _).StagesIn tables :=
  .bind (.requireMutable node) fun _ => .bind (.ofExcept _ _) fun _ => .bind (.save hnodes _) fun _ => .pure _

variable [RecordStore σ]

theorem StagesIn.read (key : Key) : (Trail.read key : TrailM σ _).StagesIn tables :=
  fun t key' _ => congrArg (fun staged => SortedMap.find? staged key') (Trail.staged_read t key)

theorem StagesIn.contains (key : Key) : (Trail.contains key : TrailM σ Bool).StagesIn tables :=
  .bind (.read key) fun _ => .pure _

theorem StagesIn.bound : (Trail.bound : TrailM σ Nat).StagesIn tables :=
  fun _ _ _ => rfl

/-- Reading an item. -/
theorem StagesIn.readItem {key : Key} {f : Option Bytes → TrailM σ α} (hnone : (f none).StagesIn tables)
    (hsome : ∀ value, (f (some value)).StagesIn tables) : (Trail.read key >>= f).StagesIn tables := by
  refine .bind (.read key) fun value => ?_
  cases value with
  | none => exact hnone
  | some value => exact hsome value

theorem StagesIn.readNode (id : NodeId) : (NodeRecord.read id : TrailM σ _).StagesIn tables :=
  .readItem (.throw _) fun _ => .ofExcept _ _

theorem StagesIn.readRevision (number : UInt64) : (Revision.read number : TrailM σ _).StagesIn tables :=
  .readItem (.throw _) fun _ => .ofExcept _ _

theorem StagesIn.readTxn (name : String) : (Transaction.read name : TrailM σ _).StagesIn tables :=
  .readItem (.throw _) fun _ => .ofExcept _ _

theorem StagesIn.readRep (key : String) : (Representation.readRecord key : TrailM σ _).StagesIn tables :=
  .readItem (.throw _) fun _ => .ofExcept _ _

/-! ## Counters -/

theorem StagesIn.readNumber (counter : String) : (Counter.readNumber counter : TrailM σ _).StagesIn tables := by
  refine .readItem (.pure _) fun value => ?_
  dsimp only
  split
  case h_1 => exact .pure _
  case h_2 => exact .throw _

/-- A counter that gives a key moves on, and nothing else changes. -/
theorem StagesIn.allocateKey (h : .globals ∈ tables) (counter : String) :
    (Counter.allocateKey (Counter.key counter) : TrailM σ String).StagesIn tables := by
  refine .bind (.read _) fun value => .bind (.ofExcept _ _) fun current => ?_
  split
  case h_1 => exact .bind (.put h _) fun _ => .pure _
  case h_2 => exact .throw _

theorem StagesIn.youngest : (Revision.youngest : TrailM σ UInt64).StagesIn tables := by
  refine .bind (.readNumber _) fun number => ?_
  cases number with
  | none => exact .throw _
  | some number => exact .pure _

/-! ## Contents -/

/-- Following a chain of deltas stages nothing, by induction on the deltas that may still come. -/
theorem StagesIn.followChain (head : String) (limit left : Nat) (rep : Representation) :
    (Representation.followChain head limit left rep : TrailM σ _).StagesIn tables := by
  induction left generalizing rep with
  | zero =>
    unfold Representation.followChain
    cases rep.form with
    | fullText data => exact .pure _
    | delta base ops => exact .throw _
  | succ left ih =>
    unfold Representation.followChain
    cases rep.form with
    | fullText data => exact .pure _
    | delta base ops => exact .bind (.readRep base) fun baseRep => .bind (ih baseRep) fun _ => .pure _

theorem StagesIn.readContents (key : String) : (Representation.readContents key : TrailM σ Bytes).StagesIn tables := by
  refine .bind (.readRep key) fun head => .bind (.followChain _ _ _ _) fun found => ?_
  refine .bind (.ofExcept _ _) fun data => ?_
  split
  case isTrue => exact .pure _
  case isFalse => exact .throw _

/-- Looking for a delta stages nothing, as the representation is only made. -/
theorem StagesIn.deltify (config : Config) (base : String) (data : Bytes) :
    (Representation.deltify? config base data : TrailM σ _).StagesIn tables := by
  refine .bind (.readRep base) fun rep => ?_
  split
  case isTrue => exact .pure _
  case isFalse =>
    refine .bind (.readContents base) fun source => ?_
    dsimp only
    split
    case isTrue => exact .pure _
    case isFalse => exact .pure _

/-- The same for contents that may have no predecessor, or be too long for one. -/
theorem StagesIn.deltaFor (config : Config) (data : Bytes) (previous : Option String) :
    (Representation.deltaFor? config data previous : TrailM σ _).StagesIn tables := by
  cases previous with
  | none => exact .pure none
  | some base =>
    rw [Representation.deltaFor?]
    split
    case isTrue => exact .deltify config base data
    case isFalse => exact .pure none

/-! ## New nodes -/

/-- A new node is put among the nodes, and its number counted. -/
theorem StagesIn.create (hnodes : .nodes ∈ tables) (hglobals : .globals ∈ tables) (node : NodeRevision) :
    (NodeRecord.create node : TrailM σ NodeId).StagesIn tables := by
  refine .bind (.readNumber _) fun number => .bind (.successor _ _) fun next => .bind (.writeNumber hglobals _ _) fun _ => ?_
  refine .bind (.contains _) fun taken => ?_
  cases taken with
  | true => exact .throw _
  | false => exact .bind (.putNode hnodes _ _) fun _ => .pure _

/-- Looking for a free fork stages nothing. -/
theorem StagesIn.freeFork (base : NodeId) (steps : Nat) (branch : UInt64) :
    (NodeRecord.freeFork base steps branch : TrailM σ NodeId).StagesIn tables := by
  induction steps generalizing branch with
  | zero => exact .throw _
  | succ steps ih =>
    refine .bind (.contains _) fun taken => ?_
    cases taken with
    | true => exact ih _
    | false => exact .pure _

/-- A successor is put among the nodes. -/
theorem StagesIn.createSuccessor (hnodes : .nodes ∈ tables) (base : NodeId) (node : NodeRevision) :
    (NodeRecord.createSuccessor base node : TrailM σ NodeId).StagesIn tables := by
  refine .bind (.bind (.contains _) fun taken => ?_) fun id => .bind (.putNode hnodes _ _) fun _ => .pure _
  cases taken with
  | true => exact .bind .bound fun bound => .freeFork _ _ _
  | false => exact .pure _

/-- A clone is put among the nodes. -/
theorem StagesIn.cloneFor (hnodes : .nodes ∈ tables) (owner : String) (node : Node) :
    (node.cloneFor owner : TrailM σ Node).StagesIn tables :=
  .bind (.createSuccessor hnodes _ _) fun _ => .pure _

/-! ## Nodes -/

theorem StagesIn.load (id : NodeId) : (Node.load id : TrailM σ Node).StagesIn tables :=
  .bind (.readNode id) fun _ => .pure _

theorem StagesIn.openChild (node : Node) (name : String) : (node.openChild name : TrailM σ Node).StagesIn tables :=
  .bind (.ofResult _) fun entry => .load entry.id

theorem StagesIn.contents (node : Node) : (node.contents : TrailM σ Bytes).StagesIn tables := by
  unfold Node.contents
  split
  case h_1 => exact .throw _
  case h_2 => exact .pure _
  case h_3 key _ => exact .readContents key

/-- Cloning a child changes nodes only. -/
theorem StagesIn.cloneChildStep (hnodes : .nodes ∈ tables) (name : String) (node : Node) :
    (node.cloneChildStep name : TrailM σ _).StagesIn tables := by
  refine .bind (.requireMutable node) fun _ => .bind (.ofResult _) fun entry => .bind (.load entry.id) fun child => ?_
  split
  case isTrue => exact .pure _
  case isFalse => exact .bind (.cloneFor hnodes _ _) fun clone => .bind (.save hnodes _) fun _ => .pure _

/-- Making a child changes nodes, and the counter that numbers them. -/
theorem StagesIn.makeStep (hnodes : .nodes ∈ tables) (hglobals : .globals ∈ tables) (name : String) (kind : Kind)
    (node : Node) : (node.makeStep name kind : TrailM σ _).StagesIn tables := by
  refine .bind (.requireMutable node) fun _ => .bind (.ofResult _) fun entries => ?_
  split
  case isTrue => exact .throw _
  case isFalse => exact .bind (.create hnodes hglobals _) fun id => .bind (.save hnodes _) fun _ => .pure _

/-- Deleting a child changes its directory only. -/
theorem StagesIn.deleteStep (hnodes : .nodes ∈ tables) (name : String) (node : Node) :
    (node.deleteStep name : TrailM σ _).StagesIn tables := by
  refine .bind (.ofResult _) fun entries => .bind (.requireMutable node) fun _ => ?_
  split
  case h_1 => exact .throw _
  case h_2 entry _ =>
    refine .bind (.load entry.id) fun child => ?_
    split
    case isTrue => exact .throw _
    case isFalse => exact .bind (.save hnodes _) fun _ => .pure _

/-! ## Roots and transactions -/

/-- Following names stages nothing. -/
theorem StagesIn.follow (node : Node) (names : List String) :
    (Path.follow node names : TrailM σ Node).StagesIn tables := by
  induction names generalizing node with
  | nil => exact .pure _
  | cons name names ih => exact .bind (.openChild node name) fun child => ih child

theorem StagesIn.ofRevision (number : UInt64) : (Root.ofRevision number : TrailM σ Node).StagesIn tables :=
  .bind (.readRevision number) fun revision => .load revision.root

/-- A transaction gets its root among the transactions. -/
theorem StagesIn.setRoot (htxns : .transactions ∈ tables) (name : String) (root : NodeId) :
    (Transaction.setRoot name root : TrailM σ Unit).StagesIn tables :=
  .bind (.readTxn name) fun _ => .put htxns _

/-- Entering a transaction may clone its root, and note it with the transaction. -/
theorem StagesIn.ofTransaction (hnodes : .nodes ∈ tables) (htxns : .transactions ∈ tables) (name : String) :
    (Root.ofTransaction name : TrailM σ Node).StagesIn tables := by
  refine .bind (.readTxn name) fun txn => ?_
  split
  case isTrue =>
    exact .bind (.load _) fun base => .bind (.cloneFor hnodes _ _) fun root => .bind (.setRoot htxns _ _) fun _ => .pure _
  case isFalse => exact .load _

/-- A transaction begins with a record of its own, and the counter that names them moves on. -/
theorem StagesIn.createTxn (htxns : .transactions ∈ tables) (hglobals : .globals ∈ tables) (base : UInt64) :
    (Transaction.create base : TrailM σ String).StagesIn tables :=
  .bind (.readRevision base) fun _ => .bind (.allocateKey hglobals _) fun _ => .bind (.put htxns _) fun _ => .pure _

/-- Closing a transaction takes its record away, and no other. -/
theorem StagesIn.closeTxn (htxns : .transactions ∈ tables) (name : String) :
    (Transaction.close name : TrailM σ Unit).StagesIn tables :=
  .bind (.readTxn name) fun _ => .delete htxns

/-- Freezing puts nodes only, by induction on how deep it may go. -/
theorem StagesIn.freezeWithin (hnodes : .nodes ∈ tables) (depth : Nat) (id : NodeId) :
    (NodeRecord.freezeWithin depth id : TrailM σ Nat).StagesIn tables := by
  induction depth generalizing id with
  | zero => exact .throw _
  | succ depth ih =>
    refine .bind (.readNode id) fun node => ?_
    split
    case isTrue => exact .bind (.putNode hnodes _ _) fun _ => .bind (.mapM (fun (entry : Entry) => ih entry.id) _) fun _ => .pure _
    case isFalse => exact .pure _

/-- Freezing a tree changes nodes only. -/
theorem StagesIn.freeze (hnodes : .nodes ∈ tables) (id : NodeId) :
    (NodeRecord.freeze id : TrailM σ Nat).StagesIn tables :=
  .bind .bound fun _ => .freezeWithin hnodes _ _

end TrailM

/-! ## Computations of a client -/

namespace ClientM

/-- Writes are staged to these tables only. -/
def StagesIn (m : ClientM ω σ α) (tables : List Table) : Prop :=
  ∀ held t key, key.table ∉ tables → (m held t).2.staged.find? key = t.staged.find? key

variable {m : ClientM ω σ α} {f : α → ClientM ω σ β} {tables : List Table}

theorem StagesIn.pure (a : α) : (Pure.pure a : ClientM ω σ α).StagesIn tables :=
  fun _ _ _ _ => rfl

/-- For clients, too, a sequence stages what its parts do. -/
theorem StagesIn.bind (h : m.StagesIn tables) (hf : ∀ a, (f a).StagesIn tables) : (m >>= f).StagesIn tables := by
  intro held t key hkey
  have hm := h held t key hkey
  cases hrun : m held t with
  | mk result t' =>
    obtain ⟨result, held'⟩ := result
    rw [hrun] at hm
    cases result with
    | ok a =>
      rw [bind_of_ok hrun]
      exact (hf a held' t' key hkey).trans hm
    | error e =>
      rw [bind_of_error hrun]
      exact hm

/-- What is done to the trail stages the same for a client. -/
theorem StagesIn.lift {m : TrailM σ α} (h : m.StagesIn tables) : (TrailM.lift m : ClientM ω σ α).StagesIn tables :=
  fun _ t key hkey => h t key hkey

theorem StagesIn.get : (getThe ω : ClientM ω σ ω).StagesIn tables :=
  fun _ _ _ _ => rfl

theorem StagesIn.set (held : ω) : (MonadStateOf.set held : ClientM ω σ PUnit).StagesIn tables :=
  fun _ _ _ _ => rfl

theorem StagesIn.modify (g : ω → ω) : (modifyThe ω g : ClientM ω σ PUnit).StagesIn tables :=
  fun _ _ _ _ => rfl

/-- Through a handle the same is staged as without. -/
theorem StagesIn.through {h : String} {node : Node} {m : Node.HandleM σ α} (hm : m.StagesIn tables) :
    (Client.through h node m).StagesIn tables :=
  fun _ t key hkey => hm node t key hkey

theorem StagesIn.give (keep : Option String) (node : Node) :
    (Client.give keep node : ClientM Client.Handles σ Client.Answer).StagesIn tables := by
  cases keep with
  | none => exact .pure _
  | some name => exact .bind (.modify _) fun _ => .pure _

/-- Without a handle nothing is staged at all. -/
theorem StagesIn.withHandle {h : String} {f : Node → ClientM Client.Handles σ Client.Answer}
    (hf : ∀ node, (f node).StagesIn tables) : (Client.withHandle h f).StagesIn tables := by
  refine .bind .get fun handles => ?_
  cases handles.find? h with
  | none => exact .pure _
  | some node => exact hf node

variable [RecordStore σ]

theorem StagesIn.reload : (Node.reload : Node.HandleM σ Unit).StagesIn tables :=
  .bind .get fun _ => .bind (.lift (.load _)) fun fresh => .set fresh

/-- A change stages what its step does, as the handle is only loaded before it. -/
theorem StagesIn.change {step : Node → TrailM σ (α × Node)} (hstep : ∀ node, (step node).StagesIn tables) :
    (Node.change step).StagesIn tables :=
  .bind .reload fun _ => .bind .get fun node => .bind (.lift (hstep node)) fun r => .bind (.set r.2) fun _ => .pure _

/-- **THE STEPS OF A CLIENT** write to nodes, transactions and counters, unless they store contents. -/
theorem StagesIn.step (config : Config) {step : Client.Step} (h : ∀ handle data, step ≠ .setContents handle data) :
    (step.run config : ClientM Client.Handles σ Client.Answer).StagesIn [.nodes, .transactions, .globals] := by
  have hnodes : Table.nodes ∈ [Table.nodes, .transactions, .globals] := by decide
  have htxns : Table.transactions ∈ [Table.nodes, .transactions, .globals] := by decide
  have hglobals : Table.globals ∈ [Table.nodes, .transactions, .globals] := by decide
  cases step with
  | setContents handle data => exact absurd rfl (h handle data)
  | cloneRoot txn keep => exact .bind (.lift (.ofTransaction hnodes htxns txn)) (.give keep)
  | revisionRoot number keep => exact .bind (.lift (.ofRevision number)) (.give keep)
  | load id keep => exact .bind (.lift (.load id)) (.give keep)
  | openChild handle name keep => exact .withHandle fun node => .bind (.lift (.openChild node name)) (.give keep)
  | openPath handle path keep => exact .withHandle fun node => .bind (.lift (.follow node _)) (.give keep)
  | cloneChild handle name keep =>
    exact .withHandle fun node => .bind (.through (.change (.cloneChildStep hnodes name))) (.give keep)
  | make handle name kind keep =>
    exact .withHandle fun node => .bind (.through (.change (.makeStep hnodes hglobals name kind))) (.give keep)
  | copy handle keep => exact .withHandle (.give keep)
  | delete handle name =>
    exact .withHandle fun node => .bind (.through (.change (.deleteStep hnodes name))) fun _ => .pure _
  | setProps handle props =>
    exact .withHandle fun node => .bind (.through (.change (.setPropsStep hnodes props))) fun _ => .pure _
  | reload handle => exact .withHandle fun node => .bind (.through .reload) fun _ => .pure _
  | contents handle => exact .withHandle fun node => .bind (.lift (.contents node)) fun _ => .pure _
  | prop handle name => exact .withHandle fun node => .pure _
  | entries handle => exact .withHandle fun node => .bind (.lift (.ofResult _)) fun _ => .pure _
  | inspect handle => exact .withHandle fun node => .pure _
  | same handle other => exact .withHandle fun node => .bind .get fun _ => .pure _

end ClientM

end VersionedTree

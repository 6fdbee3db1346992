import VersionedTree.Proofs.Trail.Ends
import VersionedTree.Tree.Root

/-!
# Records in a trail — what each access comes to

The rule for every operation on node, revision and transaction records and on counters. What is read is what the view
shows, and an error is a failure of the store or says what the view shows, too.

* **`Ends.readNode`**, **`Ends.readRevision`**, **`Ends.readTxn`** — single records.
* **`Ends.create`** and **`Ends.createSuccessor`** — new nodes, whose ids were free.
* **`Ends.allocateKey`** — keys, whose counter has moved on.
* **`Ends.createTxn`**, **`Ends.setRoot`**, **`Ends.closeTxn`**, **`Ends.appendRevision`** — transactions and revisions.
-/

namespace VersionedTree

/-- True of ids that a successor of a revision can have. -/
def NodeId.IsSuccessor (base id : NodeId) : Prop :=
  id = base.next ∨ ∃ branch, id = base.branch branch

/-- True of the number of the next revision: 0, or one more than the youngest. -/
def View.IsNextRevision (v : View) (number : UInt64) : Prop :=
  match v.number Counter.youngest with
  | none => v.global Counter.youngest = none ∧ number = 0
  | some youngest => youngest.toNat + 1 < UInt64.size ∧ number = youngest + 1

namespace TrailM

variable [Codec] {σ α β : Type} [RecordStore σ] [LawfulStore σ] {v : View}

/-! ## Single records -/

/-- A record that is there can be read, and gives the item that the view has. -/
theorem Reads.record {ε : Type} {key : Key} {decode : Bytes → Except ε α} {asError : ε → Error} {missing : Error}
    {item : Option α} {f : Option Bytes → TrailM σ α}
    (hitem : ∀ records : Records, records.view = v →
      item = (records.find? key).bind fun value => (decode value).toOption)
    (hsound : ∀ records : Records, records.Sound → ∀ value, records.find? key = some value → ∃ a, decode value = .ok a)
    (hnone : f none = MonadExcept.throw missing)
    (hsome : ∀ value, f (some value) = TrailM.ofExcept asError (decode value)) :
    (Trail.read key >>= f).Reads v (fun a => item = some a ∧ ∃ value, decode value = .ok a)
      (fun e => e.IsFault σ ∨ item = none ∧ e = missing) := by
  refine Ends.read ?_ fun e he => ⟨rfl, .inl he⟩
  intro records hrecords hview
  rw [hitem records hview]
  cases hfind : records.find? key with
  | none =>
    rw [hnone]
    exact Reads.throw (.inr ⟨rfl, rfl⟩)
  | some value =>
    obtain ⟨a, hdecode⟩ := hsound records hrecords value hfind
    rw [hsome]
    refine Reads.ofExcept ?_ ?_
    · intro a' h
      exact ⟨by rw [Option.bind_some, h]; rfl, value, h⟩
    · -- a record that cannot be read is never in the view
      intro e h
      cases hdecode.symm.trans h

/-- A node is read that the view has. If it has none, that is the error. -/
theorem Reads.node (id : NodeId) :
    (NodeRecord.read id : TrailM σ NodeRevision).Reads v (fun node => v.node id = some node ∧ node.Storable)
      (fun e => e.IsFault σ ∨ v.node id = none ∧ e = .notFound (.node id)) := by
  have hitem : ∀ records : Records, records.view = v →
      v.node id = (records.find? (NodeRecord.key id)).bind fun value => (NodeRecord.decode value).toOption := by
    rintro records rfl
    rfl
  have hsound : ∀ records : Records, records.Sound → ∀ value, records.find? (NodeRecord.key id) = some value →
      ∃ a, NodeRecord.decode value = .ok a := fun _ h value hfind => (h _ value hfind).2
  refine Reads.mono (Reads.record hitem hsound rfl fun _ => rfl) ?_ fun _ he => he
  rintro node ⟨hnode, value, hdecode⟩
  exact ⟨hnode, NodeRecord.storable_of_decode hdecode⟩

/-- An id is taken if the view has a node there. -/
theorem Reads.isTaken (id : NodeId) :
    (NodeRecord.isTaken id : TrailM σ Bool).Reads v (fun taken => taken = (v.node id).isSome) (Error.IsFault σ) := by
  refine Ends.read ?_ fun e he => ⟨rfl, he⟩
  rintro records hsound rfl
  refine Reads.pure ?_
  cases hfind : records.find? (NodeRecord.key id) with
  | none => simp [Records.view, hfind]
  | some value =>
    obtain ⟨node, -, hnode⟩ := Records.view_node_of_some hsound hfind
    rw [hnode]
    rfl

/-- A revision is read that the view has. If it has none, that is the error. -/
theorem Reads.revision (number : UInt64) :
    (Revision.read number : TrailM σ Revision).Reads v (fun revision => v.revision number = some revision)
      (fun e => e.IsFault σ ∨ v.revision number = none ∧ e = .notFound (.revision number.toNat)) := by
  have hitem : ∀ records : Records, records.view = v →
      v.revision number = (records.find? (Revision.key number)).bind fun value => (Revision.decode value).toOption := by
    rintro records rfl
    rfl
  have hsound : ∀ records : Records, records.Sound → ∀ value, records.find? (Revision.key number) = some value →
      ∃ a, Revision.decode value = .ok a := fun _ h value hfind => (h _ value hfind).2
  refine Reads.mono (Reads.record hitem hsound rfl fun _ => rfl) ?_ fun _ he => he
  exact fun _ h => h.1

/-- A transaction is read that the view has. If it has none, that is the error. -/
theorem Reads.txn (name : String) :
    (Transaction.read name : TrailM σ Transaction).Reads v (fun txn => v.txn name = some txn)
      (fun e => e.IsFault σ ∨ v.txn name = none ∧ e = .notFound (.transaction name)) := by
  have hitem : ∀ records : Records, records.view = v →
      v.txn name = (records.find? (Transaction.key name)).bind fun value => (Transaction.decode value).toOption := by
    rintro records rfl
    rfl
  have hsound : ∀ records : Records, records.Sound → ∀ value, records.find? (Transaction.key name) = some value →
      ∃ a, Transaction.decode value = .ok a := fun _ h value hfind => (h _ value hfind).2
  refine Reads.mono (Reads.record hitem hsound rfl fun _ => rfl) ?_ fun _ he => he
  exact fun _ h => h.1

/-- A representation is read that the view has. If it has none, that is the error. -/
theorem Reads.rep (key : String) :
    (Representation.readRecord key : TrailM σ Representation).Reads v (fun rep => v.rep key = some rep)
      (fun e => e.IsFault σ ∨ v.rep key = none ∧ e = .notFound (.representation key)) := by
  have hitem : ∀ records : Records, records.view = v →
      v.rep key = (records.find? (Representation.recordKey key)).bind fun value =>
        (Representation.ofStored value).toOption := by
    rintro records rfl
    rfl
  have hsound : ∀ records : Records, records.Sound → ∀ value, records.find? (Representation.recordKey key) = some value →
      ∃ a, Representation.ofStored value = .ok a := fun _ h value hfind => (h _ value hfind).2
  refine Reads.mono (Reads.record hitem hsound rfl fun _ => rfl) ?_ fun _ he => he
  exact fun _ h => h.1

/-- The number of records may be anything, and asking for it does not fail. -/
theorem Reads.bound (P : Prop) : (Trail.bound : TrailM σ Nat).Reads v (fun _ => True) (fun _ => P) := by
  intro base t ht
  exact .inl ⟨_, t, v, rfl, ht, rfl, trivial⟩

/-! ## Counters -/

/-- A counter is read that the view has. It fails only if there is a record that is no number. -/
theorem Reads.number (counter : String) :
    (Counter.readNumber counter : TrailM σ (Option UInt64)).Reads v
      (fun number => number = v.number counter ∧ (number = none → v.global counter = none))
      (fun e => e.IsFault σ ∨ ∃ value, v.global counter = some value ∧ v.number counter = none ∧
        e = .corrupt (.notANumber counter)) := by
  refine Ends.read ?_ fun e he => ⟨rfl, .inl he⟩
  rintro records hsound rfl
  cases hfind : records.find? (Counter.key counter) with
  | none => exact Reads.pure ⟨by simp [View.number, Records.view, hfind], fun _ => hfind⟩
  | some value =>
    have hglobal : records.view.global counter = some value := hfind
    cases hnumber : Counter.number? value with
    | none =>
      simp only [hnumber]
      exact Reads.throw (.inr ⟨value, hglobal, by simp [View.number, hglobal, hnumber], rfl⟩)
    | some n =>
      simp only [hnumber]
      exact Reads.pure ⟨by simp [View.number, hglobal, hnumber], fun hnone => absurd hnone (Option.some_ne_none n)⟩

/-- The next number is one more, and there is none after the last. -/
theorem Reads.successor (counter : String) (n : UInt64) :
    (Counter.successor counter n : TrailM σ UInt64).Reads v (fun next => n.toNat + 1 < UInt64.size ∧ next = n + 1)
      (fun e => e = .corrupt (.noNumberLeft counter)) := by
  rw [Counter.successor]
  split
  case isTrue h => exact Reads.pure ⟨h, rfl⟩
  case isFalse => exact Reads.throw rfl

/-- The key of a counter is given, and the counter holds the next one. -/
theorem Ends.allocateKey (counter : String) :
    (Counter.allocateKey (Counter.key counter) : TrailM σ String).Ends v
      (fun name v' => Counter.currentKey (v.global counter) = .ok name ∧
        ∃ next, Base36.next? name = some next ∧ v' = v.setGlobal counter (Text.toBytes next))
      (fun e v' => v' = v ∧ (e.IsFault σ ∨
        ∀ name, Counter.currentKey (v.global counter) = .ok name → Base36.next? name = none)) := by
  refine Ends.read ?_ fun e he => ⟨rfl, .inl he⟩
  rintro records hsound rfl
  -- what the record says is read off it, and is an error if it is no text
  have hcurrent : (TrailM.ofExcept Error.corrupt (Counter.currentKey (records.find? (Counter.key counter))) :
      TrailM σ String).Reads records.view
      (fun name => Counter.currentKey (records.find? (Counter.key counter)) = .ok name)
      (fun _ => ∀ name, Counter.currentKey (records.find? (Counter.key counter)) ≠ .ok name) :=
    Reads.ofExcept (fun name h => h) fun e he name h => nomatch he.symm.trans h
  refine Ends.after hcurrent ?_ ?_
  · intro name hname
    cases hnext : Base36.next? name with
    | none =>
      simp only
      refine Ends.throw ⟨rfl, .inr fun other hother => ?_⟩
      cases hname.symm.trans hother
      exact hnext
    | some next =>
      simp only
      refine Ends.andThen Writes.putGlobal fun _ => Ends.pure ⟨hname, next, hnext, rfl⟩
  · intro e he
    exact ⟨rfl, .inr fun name hname => absurd hname (he name)⟩

/-! ## New nodes -/

/-- A node is put under the next number if its id is free. If not, the number may be used up all the same. -/
theorem Ends.create {node : NodeRevision} (h : node.Storable) :
    (NodeRecord.create node : TrailM σ NodeId).Ends v
      (fun id v' => ∃ n, n = (v.number Counter.nextNode).getD 1 ∧ n.toNat + 1 < UInt64.size ∧ id = .ofNode n ∧
        v.node id = none ∧ v' = (v.setNumber Counter.nextNode (n + 1)).setNode id node)
      (fun e v' => v' = v ∧ (e.IsFault σ ∨ e = .corrupt (.noNumberLeft Counter.nextNode) ∨
          v.number Counter.nextNode = none ∧ v.global Counter.nextNode ≠ none) ∨
        ∃ n, n = (v.number Counter.nextNode).getD 1 ∧ n.toNat + 1 < UInt64.size ∧
          v' = v.setNumber Counter.nextNode (n + 1) ∧ (e.IsFault σ ∨ v.node (.ofNode n) ≠ none)) := by
  refine Ends.after (Reads.number Counter.nextNode) ?_ ?_
  case refine_2 =>
    rintro e (he | ⟨value, hvalue, hnone, -⟩)
    · exact .inl ⟨rfl, .inl he⟩
    · exact .inl ⟨rfl, .inr (.inr ⟨hnone, hvalue ▸ Option.some_ne_none value⟩)⟩
  rintro number ⟨rfl, -⟩
  refine Ends.after (Reads.successor Counter.nextNode _) ?_ ?_
  case refine_2 =>
    rintro e rfl
    exact .inl ⟨rfl, .inr (.inl rfl)⟩
  -- from here on the number is spent, whatever comes
  rintro next ⟨hlt, rfl⟩
  refine Ends.andThen Writes.writeNumber fun _ => ?_
  refine Ends.after (Reads.isTaken _) ?_ fun e he => .inr ⟨_, rfl, hlt, rfl, .inl he⟩
  rintro taken htaken
  cases hnode : v.node (.ofNode ((v.number Counter.nextNode).getD 1)) with
  | some other =>
    have : taken = true := by simpa [View.setNumber, View.setGlobal, hnode] using htaken
    subst this
    exact Ends.throw (.inr ⟨_, rfl, hlt, rfl, .inr (hnode ▸ Option.some_ne_none other)⟩)
  | none =>
    have : taken = false := by simpa [View.setNumber, View.setGlobal, hnode] using htaken
    subst this
    exact Ends.andThen (Writes.putNode h) fun _ => Ends.pure ⟨_, rfl, hlt, rfl, hnode, rfl⟩

/-- A fork is found whose id is free, by induction on the forks that may still be tried. -/
theorem Reads.freeFork (base : NodeId) (steps : Nat) (branch : UInt64) :
    (NodeRecord.freeFork base steps branch : TrailM σ NodeId).Reads v
      (fun id => v.node id = none ∧ ∃ branch, id = base.branch branch)
      (fun e => e.IsFault σ ∨ e = .corrupt (.noForkLeft base)) := by
  induction steps generalizing branch with
  | zero => exact Reads.throw (.inr rfl)
  | succ steps ih =>
    refine Reads.bind (Reads.isTaken _) ?_ fun e he => .inl he
    rintro taken htaken
    cases hnode : v.node (base.branch branch) with
    | some other =>
      rw [hnode] at htaken
      subst htaken
      exact ih (branch + 1)
    | none =>
      rw [hnode] at htaken
      subst htaken
      exact Reads.pure ⟨hnode, branch, rfl⟩

/-- The id that is found for a successor is free, and is one of a successor. -/
theorem Reads.successorId (base : NodeId) :
    (NodeRecord.successorId base : TrailM σ NodeId).Reads v (fun id => v.node id = none ∧ base.IsSuccessor id)
      (fun e => e.IsFault σ ∨ e = .corrupt (.noForkLeft base)) := by
  refine Reads.bind (Reads.isTaken _) ?_ fun e he => .inl he
  rintro taken htaken
  cases hnode : v.node base.next with
  | some other =>
    -- the next id is taken, so a branch of the base is looked for
    rw [hnode] at htaken
    subst htaken
    refine Reads.bind (Reads.bound False) ?_ fun e he => he.elim
    intro bound _
    refine Reads.mono (Reads.freeFork base (bound + 1) 1) ?_ fun e he => he
    rintro id ⟨hfree, hbranch⟩
    exact ⟨hfree, .inr hbranch⟩
  | none =>
    rw [hnode] at htaken
    subst htaken
    exact Reads.pure ⟨hnode, .inl rfl⟩

/-- A node is put under the id of a successor, which was free. -/
theorem Ends.createSuccessor {base : NodeId} {node : NodeRevision} (h : node.Storable) :
    (NodeRecord.createSuccessor base node : TrailM σ NodeId).Ends v
      (fun id v' => v.node id = none ∧ base.IsSuccessor id ∧ v' = v.setNode id node)
      (fun e v' => v' = v ∧ (e.IsFault σ ∨ e = .corrupt (.noForkLeft base))) := by
  refine Ends.after (Reads.successorId base) ?_ fun e he => ⟨rfl, he⟩
  rintro id ⟨hfree, hsuccessor⟩
  exact Ends.andThen (Writes.putNode h) fun _ => Ends.pure ⟨hfree, hsuccessor, rfl⟩

/-! ## Transactions and revisions -/

/-- A transaction begins at the root of its base, under the next name. -/
theorem Ends.createTxn (base : UInt64) :
    (Transaction.create base : TrailM σ String).Ends v
      (fun name v' => ∃ revision next, v.revision base = some revision ∧
        Counter.currentKey (v.global Counter.nextTransaction) = .ok name ∧ Base36.next? name = some next ∧
        v' = (v.setGlobal Counter.nextTransaction (Text.toBytes next)).setTxn name
          (some ⟨revision.root, revision.root, base⟩))
      (fun _ v' => v' = v) := by
  refine Ends.after (Reads.revision base) ?_ fun e _ => rfl
  intro revision hrevision
  refine Ends.bind (Ends.allocateKey Counter.nextTransaction) ?_ fun e v' he => he.1
  rintro name v' ⟨hname, next, hnext, rfl⟩
  exact Ends.andThen Writes.putTxn fun _ => Ends.pure ⟨revision, next, hrevision, hname, hnext, rfl⟩

/-- A transaction that is open gets another root. -/
theorem Ends.setRoot (name : String) (root : NodeId) :
    (Transaction.setRoot name root : TrailM σ Unit).Ends v
      (fun _ v' => ∃ txn, v.txn name = some txn ∧ v' = v.setTxn name (some { txn with root := root }))
      (fun e v' => v' = v ∧ (e.IsFault σ ∨ v.txn name = none ∧ e = .notFound (.transaction name))) := by
  refine Ends.after (Reads.txn name) ?_ fun e he => ⟨rfl, he⟩
  intro txn htxn
  exact Writes.putTxn.ends fun _ => ⟨txn, htxn, rfl⟩

/-- A transaction that is open is gone. If there is none, that is the error. -/
theorem Ends.closeTxn (name : String) :
    (Transaction.close name : TrailM σ Unit).Ends v
      (fun _ v' => ∃ txn, v.txn name = some txn ∧ v' = v.setTxn name none)
      (fun e v' => v' = v ∧ (e.IsFault σ ∨ v.txn name = none ∧ e = .notFound (.transaction name))) := by
  refine Ends.after (Reads.txn name) ?_ fun e he => ⟨rfl, he⟩
  intro txn htxn
  exact Writes.deleteTxn.ends fun _ => ⟨txn, htxn, rfl⟩

/-- The youngest revision is the one that the view has. -/
theorem Reads.youngest :
    (Revision.youngest : TrailM σ UInt64).Reads v (fun number => v.number Counter.youngest = some number)
      (fun e => e.IsFault σ ∨ v.number Counter.youngest = none ∧ ∃ cause, e = .corrupt cause) := by
  refine Reads.bind (Reads.number Counter.youngest) ?_ ?_
  · rintro number ⟨rfl, -⟩
    cases hnumber : v.number Counter.youngest with
    | none => exact Reads.throw (.inr ⟨rfl, _, rfl⟩)
    | some number => exact Reads.pure rfl
  · rintro e (he | ⟨value, -, hnone, rfl⟩)
    · exact .inl he
    · exact .inr ⟨hnone, _, rfl⟩

/-- The next revision has the number after the youngest one, or the first number if there is none yet. -/
theorem Reads.nextNumber :
    (Revision.nextNumber : TrailM σ UInt64).Reads v v.IsNextRevision
      (fun e => e.IsFault σ ∨ ∃ cause, e = .corrupt cause) := by
  refine Reads.bind (Reads.number Counter.youngest) ?_ ?_
  · rintro number ⟨rfl, hglobal⟩
    unfold View.IsNextRevision
    cases hnumber : v.number Counter.youngest with
    | none => exact Reads.pure ⟨hglobal hnumber, rfl⟩
    | some youngest =>
      refine Reads.mono (Reads.successor Counter.youngest youngest) (fun next h => h) ?_
      rintro e rfl
      exact .inr ⟨_, rfl⟩
  · rintro e (he | ⟨value, -, -, rfl⟩)
    · exact .inl he
    · exact .inr ⟨_, rfl⟩

/-- A revision is put under the next number, and is the youngest from then on. -/
theorem Ends.appendRevision (revision : Revision) :
    (Revision.append revision : TrailM σ UInt64).Ends v
      (fun number v' => v.IsNextRevision number ∧
        v' = (v.setRevision number revision).setNumber Counter.youngest number)
      (fun e v' => v' = v ∧ (e.IsFault σ ∨ ∃ cause, e = .corrupt cause)) := by
  refine Ends.after Reads.nextNumber ?_ fun e he => ⟨rfl, he⟩
  intro number hnumber
  refine Ends.andThen Writes.putRevision fun _ => ?_
  exact Ends.andThen Writes.writeNumber fun _ => Ends.pure ⟨hnumber, rfl⟩

end TrailM

end VersionedTree

import VersionedTree.Proofs.Trail.Outcomes

/-!
# Effects — what becomes of the records, also if the store fails

A store may fail in the middle of an operation. What the trail shows is known then, too: the failure is an error like any
other, and all that was put before it is still staged. So nothing has to be assumed, neither of the records nor of the
store, to say what an operation leaves behind.

* **`TrailM.Yields`** — what a computation makes of the records, be it a value or an error that it ends with.
  **`TrailM.Asks`** is the case of a computation that changes no record. Rules for sequences come first, then one rule for
  each access to the records.
* **`Records.SameNodes`** — only records of other tables differ.
* **`Yields.create`**, **`Yields.createSuccessor`** and **`Yields.storeContents`** — what is new has a free id, or a key
  that is a text of one character at least.
-/

namespace VersionedTree

variable {σ α β : Type} [RecordStore σ] [LawfulStore σ]

namespace TrailM

/-- From every trail that shows the records, the computation ends with a value and records as in `Q`, or with an error and
    records as in `E`. Errors of the store are among these. -/
def Yields (m : TrailM σ α) (r : Records) (Q : α → Records → Prop) (E : Records → Prop) : Prop :=
  ∀ t, LawfulStore.Valid t.store → t.records = r →
    (∃ a t', m t = (.ok a, t') ∧ LawfulStore.Valid t'.store ∧ Q a t'.records) ∨
      ∃ e t', m t = (.error e, t') ∧ LawfulStore.Valid t'.store ∧ E t'.records

/-- The computation changes no record, and if it ends with a value, this is as in `Q`. -/
def Asks (m : TrailM σ α) (r : Records) (Q : α → Prop) : Prop :=
  m.Yields r (fun a r' => r' = r ∧ Q a) fun r' => r' = r

variable {m : TrailM σ α} {f : α → TrailM σ β} {r : Records} {Q : α → Records → Prop} {E : Records → Prop}

/-! ## Rules for sequences -/

theorem Yields.pure {a : α} (h : Q a r) : Yields (Pure.pure a : TrailM σ α) r Q E := by
  rintro t hvalid rfl
  exact .inl ⟨a, t, rfl, hvalid, h⟩

theorem Yields.throw {e : Error} (h : E r) : Yields (MonadExcept.throw e : TrailM σ α) r Q E := by
  rintro t hvalid rfl
  exact .inr ⟨e, t, rfl, hvalid, h⟩

theorem Yields.mono {Q' : α → Records → Prop} {E' : Records → Prop} (h : m.Yields r Q' E')
    (hQ : ∀ a r', Q' a r' → Q a r') (hE : ∀ r', E' r' → E r') : m.Yields r Q E := by
  intro t hvalid hrecords
  rcases h t hvalid hrecords with ⟨a, t', hrun, hvalid', hq⟩ | ⟨e, t', hrun, hvalid', he⟩
  · exact .inl ⟨a, t', hrun, hvalid', hQ a _ hq⟩
  · exact .inr ⟨e, t', hrun, hvalid', hE _ he⟩

/-- What is second is promised on all records that the first comes to. -/
theorem Yields.bind {Q' : β → Records → Prop} {E' : Records → Prop} (h : m.Yields r Q E)
    (hf : ∀ a r', Q a r' → (f a).Yields r' Q' E') (hE : ∀ r', E r' → E' r') : (m >>= f).Yields r Q' E' := by
  intro t hvalid hrecords
  rcases h t hvalid hrecords with ⟨a, t', hrun, hvalid', hq⟩ | ⟨e, t', hrun, hvalid', he⟩
  · rw [bind_of_ok hrun]
    exact hf a t'.records hq t' hvalid' rfl
  · exact .inr ⟨e, t', bind_of_error hrun, hvalid', hE _ he⟩

/-- After a computation that changes no record. -/
theorem Yields.after {Q₀ : α → Prop} {Q' : β → Records → Prop} {E' : Records → Prop} (h : m.Asks r Q₀)
    (hf : ∀ a, Q₀ a → (f a).Yields r Q' E') (hE : E' r) : (m >>= f).Yields r Q' E' := by
  refine Yields.bind h ?_ ?_
  · rintro a r' ⟨rfl, hq⟩
    exact hf a hq
  · rintro r' rfl
    exact hE

theorem Asks.pure {a : α} {Q : α → Prop} (h : Q a) : Asks (Pure.pure a : TrailM σ α) r Q :=
  Yields.pure ⟨rfl, h⟩

theorem Asks.throw (e : Error) {Q : α → Prop} : Asks (MonadExcept.throw e : TrailM σ α) r Q :=
  Yields.throw rfl

/-- Asking twice is asking. -/
theorem Asks.bind {Q : α → Prop} {Q' : β → Prop} (h : m.Asks r Q) (hf : ∀ a, Q a → (f a).Asks r Q') :
    (m >>= f).Asks r Q' :=
  Yields.after h hf rfl

/-- A result that needs no records is what it is. -/
theorem Asks.ofExcept {ε : Type} {asError : ε → Error} {result : Except ε α} :
    Asks (TrailM.ofExcept asError result : TrailM σ α) r fun a => result = .ok a := by
  cases result with
  | ok a => exact Asks.pure rfl
  | error e => exact Asks.throw _

/-- The same for results whose errors are those of trails. -/
theorem Asks.ofResult {result : Except Error α} :
    Asks (TrailM.ofResult result : TrailM σ α) r fun a => result = .ok a := by
  cases result with
  | ok a => exact Asks.pure rfl
  | error e => exact Asks.throw _

/-! ## Rules for records -/

/-- Reading a key asks for the record there. -/
theorem Asks.read (key : Key) : (Trail.read key : TrailM σ (Option Bytes)).Asks r fun value => value = r.find? key := by
  rintro t hvalid rfl
  obtain ⟨t', hvalid', -, hrecords, hread | ⟨-, e, hread⟩⟩ := Trail.read_cases hvalid key
  · exact .inl ⟨_, t', hread, hvalid', hrecords, rfl⟩
  · exact .inr ⟨_, t', hread, hvalid', hrecords⟩

/-- A record that is there and can be read gives its item. -/
theorem Asks.record {ε : Type} {key : Key} {decode : Bytes → Except ε α} {asError : ε → Error} {missing : Error}
    {f : Option Bytes → TrailM σ α} (hnone : f none = MonadExcept.throw missing)
    (hsome : ∀ value, f (some value) = TrailM.ofExcept asError (decode value)) :
    (Trail.read key >>= f).Asks r fun a => ∃ value, r.find? key = some value ∧ decode value = .ok a := by
  refine Asks.bind (Asks.read key) ?_
  rintro value rfl
  cases hfind : r.find? key with
  | none =>
    rw [hnone]
    exact Asks.throw _
  | some value =>
    rw [hsome]
    exact Yields.mono Asks.ofExcept (fun a _ ha => ⟨ha.1, value, rfl, ha.2⟩) fun _ he => he

/-- Where a key is said to have no record, there is none. -/
theorem Asks.contains (key : Key) :
    (Trail.contains key : TrailM σ Bool).Asks r fun there => there = false → r.find? key = none := by
  refine Asks.bind (Asks.read key) ?_
  rintro value rfl
  exact Asks.pure fun hnot => Option.isNone_iff_eq_none.1 (Option.isSome_eq_false_iff.1 hnot)

/-- The number of records may be anything. -/
theorem Asks.bound : (Trail.bound : TrailM σ Nat).Asks r fun _ => True := by
  rintro t hvalid rfl
  exact .inl ⟨_, t, rfl, hvalid, rfl, trivial⟩

/-- A record is put, and that does not fail. -/
theorem Yields.put (key : Key) (value : Bytes) :
    (Trail.put key value : TrailM σ Unit).Yields r (fun _ r' => r' = r.applyWrite (.put key value)) fun _ => False := by
  rintro t hvalid rfl
  exact .inl ⟨(), t.stage key (some value), rfl, hvalid, Trail.records_stage t key (some value)⟩

/-- Before a computation that puts a record first. -/
theorem Yields.andThen {key : Key} {value : Bytes} {f : Unit → TrailM σ β} {Q : β → Records → Prop}
    (hf : (f ()).Yields (r.applyWrite (.put key value)) Q E) : (Trail.put key value >>= f).Yields r Q E := by
  refine Yields.bind (Yields.put key value) ?_ fun _ he => he.elim
  rintro _ r' rfl
  exact hf

/-- A node that was read has a record that decodes to it. -/
theorem Asks.readNode (id : NodeId) : (NodeRecord.read id : TrailM σ NodeRevision).Asks r fun node =>
    ∃ value, r.find? (NodeRecord.key id) = some value ∧ NodeRecord.decode value = .ok node :=
  Asks.record rfl fun _ => rfl

/-- A transaction that was read has a record that decodes to it. -/
theorem Asks.readTxn (name : String) : (Transaction.read name : TrailM σ Transaction).Asks r fun txn =>
    ∃ value, r.find? (Transaction.key name) = some value ∧ Transaction.decode value = .ok txn :=
  Asks.record rfl fun _ => rfl

/-- A representation that was read has a record that decodes to it. -/
theorem Asks.readRep [Codec] (key : String) : (Representation.readRecord key : TrailM σ Representation).Asks r fun rep =>
    ∃ value, r.find? (Representation.recordKey key) = some value ∧ Representation.ofStored value = .ok rep :=
  Asks.record rfl fun _ => rfl

/-- Reading a counter is asking. -/
theorem Asks.readNumber (counter : String) :
    (Counter.readNumber counter : TrailM σ (Option UInt64)).Asks r fun _ => True := by
  refine Asks.bind (Asks.read _) fun value _ => ?_
  cases value with
  | none => exact Asks.pure trivial
  | some value =>
    dsimp only
    split
    case h_1 => exact Asks.pure trivial
    case h_2 => exact Asks.throw _

/-- Counting up is asking. -/
theorem Asks.successor (counter : String) (n : UInt64) :
    (Counter.successor counter n : TrailM σ UInt64).Asks r fun _ => True := by
  unfold Counter.successor
  split
  case isTrue => exact Asks.pure trivial
  case isFalse => exact Asks.throw _

/-! ## Contents -/

/-- Following a chain of deltas is asking, by induction on the deltas that may still come. -/
theorem Asks.followChain [Codec] (head : String) (limit left : Nat) (rep : Representation) :
    (Representation.followChain head limit left rep : TrailM σ (Bytes × List (List Delta.Op))).Asks r fun _ => True := by
  induction left generalizing rep with
  | zero =>
    unfold Representation.followChain
    cases rep.form with
    | fullText data => exact Asks.pure trivial
    | delta base ops => exact Asks.throw _
  | succ left ih =>
    unfold Representation.followChain
    cases rep.form with
    | fullText data => exact Asks.pure trivial
    | delta base ops =>
      exact Asks.bind (Asks.readRep base) fun baseRep _ => Asks.bind (ih baseRep) fun _ _ => Asks.pure trivial

/-- Putting contents together is asking. -/
theorem Asks.readContents [Codec] (key : String) :
    (Representation.readContents key : TrailM σ Bytes).Asks r fun _ => True := by
  refine Asks.bind (Asks.readRep key) fun head _ => Asks.bind (Asks.followChain _ _ _ _) fun found _ => ?_
  refine Asks.bind Asks.ofExcept fun data _ => ?_
  split
  case isTrue => exact Asks.pure trivial
  case isFalse => exact Asks.throw _

/-- Looking for a delta is asking. -/
theorem Asks.deltify [Codec] (config : Config) (base : String) (data : Bytes) :
    (Representation.deltify? config base data : TrailM σ (Option Representation)).Asks r fun _ => True := by
  refine Asks.bind (Asks.readRep base) fun rep _ => ?_
  split
  case isTrue => exact Asks.pure trivial
  case isFalse =>
    refine Asks.bind (Asks.readContents base) fun source _ => ?_
    dsimp only
    split
    case isTrue => exact Asks.pure trivial
    case isFalse => exact Asks.pure trivial

/-- So it is for contents that may have no predecessor, or be too long for one. -/
theorem Asks.deltaFor [Codec] (config : Config) (data : Bytes) (previous : Option String) :
    (Representation.deltaFor? config data previous : TrailM σ (Option Representation)).Asks r fun _ => True := by
  cases previous with
  | none => exact Asks.pure trivial
  | some base =>
    rw [Representation.deltaFor?]
    split
    case isTrue => exact Asks.deltify config base data
    case isFalse => exact Asks.pure trivial

end TrailM

/-- The records of nodes are the same in both. -/
def Records.SameNodes (r r' : Records) : Prop :=
  ∀ key : Key, key.table = .nodes → r'.find? key = r.find? key

namespace Records.SameNodes

variable {a b c r : Records}

theorem refl (r : Records) : r.SameNodes r :=
  fun _ _ => rfl

theorem trans (h : a.SameNodes b) (h' : b.SameNodes c) : a.SameNodes c :=
  fun key hkey => (h' key hkey).trans (h key hkey)

/-- A record of another table is put. -/
theorem put {table : Table} (h : table ≠ .nodes) (name : String) (value : Bytes) :
    r.SameNodes (r.applyWrite (.put (.ofText table name) value)) :=
  fun _ hkey => Records.find?_applyWrite_of_ne fun heq => h ((congrArg Key.table heq).symm.trans hkey)

end Records.SameNodes

namespace TrailM

variable {r : Records}

/-- A key is taken from a counter. It is not the empty text, after which there is none. -/
theorem Yields.allocateKey (counter : String) :
    (Counter.allocateKey (Counter.key counter) : TrailM σ String).Yields r (fun key r' => key ≠ "" ∧ r.SameNodes r')
      fun r' => r' = r := by
  refine Yields.after (Asks.read _) (fun value _ => Yields.after Asks.ofExcept (fun current _ => ?_) rfl) rfl
  cases hnext : Base36.next? current with
  | none => exact Yields.throw rfl
  | some next =>
    refine Yields.andThen (Yields.pure ⟨?_, .put (by decide) _ _⟩)
    rintro rfl
    exact nomatch hnext

/-- A representation gets a key, which is never empty, and no node is changed by it. -/
theorem Yields.createRep [Codec] (config : Config) (rep : Representation) :
    (Representation.create config rep : TrailM σ String).Yields r (fun key r' => key ≠ "" ∧ r.SameNodes r')
      fun r' => r' = r := by
  refine Yields.after Asks.ofExcept (fun stored _ => ?_) rfl
  refine Yields.bind (Yields.allocateKey _) ?_ fun _ he => he
  rintro key r' ⟨hkey, hsame⟩
  exact Yields.andThen (Yields.pure ⟨hkey, hsame.trans (.put (by decide) _ _)⟩)

/-- Storing contents changes no node. -/
theorem Yields.storeContents [Codec] (config : Config) (previous : Option String) (data : Bytes) :
    (Representation.storeContents config previous data : TrailM σ String).Yields r
      (fun key r' => key ≠ "" ∧ r.SameNodes r') fun r' => r' = r :=
  Yields.after (Asks.deltaFor config data previous) (fun _ _ => Yields.createRep config _) rfl

/-! ## New nodes -/

/-- The number of a node may be taken in vain, but then no node has changed. -/
theorem Yields.create (node : NodeRevision) :
    (NodeRecord.create node : TrailM σ NodeId).Yields r
      (fun id r' => r.find? (NodeRecord.key id) = none ∧
        ∃ r₁, r.SameNodes r₁ ∧ r' = r₁.applyWrite (.put (NodeRecord.key id) (NodeRecord.encode node)))
      fun r' => r.SameNodes r' := by
  refine Yields.after (Asks.readNumber _) (fun number _ => ?_) (.refl r)
  refine Yields.after (Asks.successor _ _) (fun next _ => Yields.andThen ?_) (.refl r)
  -- the counter is not a node
  have hsame : r.SameNodes (r.applyWrite (.put (Counter.key Counter.nextNode) (Text.toBytes (Decimal.text next.toNat)))) :=
    .put (by decide) _ _
  refine Yields.after (Asks.contains _) ?_ hsame
  intro taken htaken
  cases taken with
  | true => exact Yields.throw hsame
  | false => exact Yields.andThen (Yields.pure ⟨(hsame _ rfl).symm.trans (htaken rfl), _, hsame, rfl⟩)

/-- A fork that was found has no record yet, by induction on the forks that may still be tried. -/
theorem Asks.freeFork (base : NodeId) (steps : Nat) (branch : UInt64) :
    (NodeRecord.freeFork base steps branch : TrailM σ NodeId).Asks r fun id => r.find? (NodeRecord.key id) = none := by
  induction steps generalizing branch with
  | zero => exact Asks.throw _
  | succ steps ih =>
    refine Asks.bind (Asks.contains _) fun taken htaken => ?_
    cases taken with
    | true => exact ih (branch + 1)
    | false => exact Asks.pure (htaken rfl)

/-- The id of a successor has no record yet. -/
theorem Asks.successorId (base : NodeId) :
    (NodeRecord.successorId base : TrailM σ NodeId).Asks r fun id => r.find? (NodeRecord.key id) = none := by
  refine Asks.bind (Asks.contains _) fun taken htaken => ?_
  cases taken with
  | true => exact Asks.bind Asks.bound fun bound _ => Asks.freeFork base (bound + 1) 1
  | false => exact Asks.pure (htaken rfl)

/-- One record is put, under an id that was free. -/
theorem Yields.createSuccessor (base : NodeId) (node : NodeRevision) :
    (NodeRecord.createSuccessor base node : TrailM σ NodeId).Yields r
      (fun id r' => r.find? (NodeRecord.key id) = none ∧
        r' = r.applyWrite (.put (NodeRecord.key id) (NodeRecord.encode node)))
      fun r' => r' = r :=
  Yields.after (Asks.successorId base) (fun _ hfree => Yields.andThen (Yields.pure ⟨hfree, rfl⟩)) rfl

/-- No node changes when a transaction gets another root. -/
theorem Yields.setRoot (name : String) (root : NodeId) :
    (Transaction.setRoot name root : TrailM σ Unit).Yields r (fun _ r' => r.SameNodes r') fun r' => r' = r := by
  refine Yields.after (Asks.readTxn name) (fun txn _ => ?_) rfl
  refine Yields.mono (Yields.put _ _) ?_ fun _ he => he.elim
  rintro _ r' rfl
  exact .put (by decide) _ _

end TrailM

end VersionedTree

import VersionedTree.Proofs.Store.View

/-!
# Ends — what a computation in a trail comes to

A computation in a trail is described by the view before and the view after it. No computation touches the store before
its trail is complete, so all that has to be followed is the view.

* **`Trail.Shows`** — a trail over a store with certain records shows a view.
* **`TrailM.Ends`** — from every trail that shows `v`, the computation ends with a value as `Q` says, or with an error as
  `E` says, of what is given and of the view then. **`TrailM.Reads`** is the case of a computation that leaves the view
  alone, **`TrailM.Writes`** that of one that does not fail. Rules for sequences come first, then one rule for each access
  to the records.
* **`ClientM.Ends`** — the same for the computations of a client.
* **`Trail.run_cases`** — what a whole trail does to the store.
-/

namespace VersionedTree

variable {σ ω α β : Type} [RecordStore σ] [LawfulStore σ]

/-- True of errors that come from the store, if it may fail. -/
def Error.IsFault (σ : Type) [RecordStore σ] [LawfulStore σ] (e : Error) : Prop :=
  LawfulStore.Fallible σ ∧ ∃ cause, e = .storage cause

/-- The records themselves are a store, and one that never fails. -/
theorem Records.not_isFault (e : Error) : ¬ e.IsFault Records :=
  fun hfault => hfault.1

variable [Codec]

/-- The trail is over a store that holds the records `base`, and shows the view `v`, in which nothing is unreadable. -/
structure Trail.Shows (base : Records) (v : View) (t : Trail σ) : Prop where
  valid : LawfulStore.Valid t.store
  base : LawfulStore.records t.store = base
  sound : t.records.Sound
  view : t.records.view = v

namespace TrailM

/-- From every trail that shows `v`, the computation ends with a value and a view as in `Q`, or with an error and a view as
    in `E`. -/
def Ends (m : TrailM σ α) (v : View) (Q : α → View → Prop) (E : Error → View → Prop) : Prop :=
  ∀ base t, t.Shows base v →
    (∃ a t' v', m t = (.ok a, t') ∧ t'.Shows base v' ∧ Q a v') ∨
      ∃ e t' v', m t = (.error e, t') ∧ t'.Shows base v' ∧ E e v'

/-- The computation leaves the view alone, and ends with a value as in `Q` or an error as in `E`. -/
def Reads (m : TrailM σ α) (v : View) (Q : α → Prop) (E : Error → Prop) : Prop :=
  m.Ends v (fun a v' => v' = v ∧ Q a) (fun e v' => v' = v ∧ E e)

/-- The computation does not fail, and leaves the view `w`. -/
def Writes (m : TrailM σ α) (v w : View) : Prop :=
  m.Ends v (fun _ v' => v' = w) (fun _ _ => False)

variable {m : TrailM σ α} {f : α → TrailM σ β} {v : View} {Q : α → View → Prop} {E : Error → View → Prop}

/-! ## Rules for sequences -/

omit [RecordStore σ] [LawfulStore σ] [Codec] in
/-- A computation that gives a value goes on from its trail. -/
theorem bind_of_ok {t t' : Trail σ} {a : α} (h : m t = (.ok a, t')) : (m >>= f) t = f a t' := by
  show ExceptT.bindCont f (m t).1 (m t).2 = _
  rw [h]
  rfl

omit [RecordStore σ] [LawfulStore σ] [Codec] in
/-- A computation that fails does not go on. -/
theorem bind_of_error {t t' : Trail σ} {e : Error} (h : m t = (.error e, t')) : (m >>= f) t = (.error e, t') := by
  show ExceptT.bindCont f (m t).1 (m t).2 = _
  rw [h]
  rfl

theorem Ends.pure {a : α} (h : Q a v) : Ends (Pure.pure a : TrailM σ α) v Q E := by
  intro base t ht
  exact .inl ⟨a, t, v, rfl, ht, h⟩

theorem Ends.throw {e : Error} (h : E e v) : Ends (MonadExcept.throw e : TrailM σ α) v Q E := by
  intro base t ht
  exact .inr ⟨e, t, v, rfl, ht, h⟩

theorem Ends.mono {Q' : α → View → Prop} {E' : Error → View → Prop} (h : m.Ends v Q' E')
    (hQ : ∀ a v', Q' a v' → Q a v') (hE : ∀ e v', E' e v' → E e v') : m.Ends v Q E := by
  intro base t ht
  rcases h base t ht with ⟨a, t', v', hrun, ht', hq⟩ | ⟨e, t', v', hrun, ht', he⟩
  · exact .inl ⟨a, t', v', hrun, ht', hQ a v' hq⟩
  · exact .inr ⟨e, t', v', hrun, ht', hE e v' he⟩

/-- What is second is promised on every view that the first ends with. -/
theorem Ends.bind {Q' : β → View → Prop} {E' : Error → View → Prop} (h : m.Ends v Q E)
    (hf : ∀ a v', Q a v' → (f a).Ends v' Q' E') (hE : ∀ e v', E e v' → E' e v') : (m >>= f).Ends v Q' E' := by
  intro base t ht
  rcases h base t ht with ⟨a, t', v', hrun, ht', hq⟩ | ⟨e, t', v', hrun, ht', he⟩
  · rw [bind_of_ok hrun]
    exact hf a v' hq base t' ht'
  · exact .inr ⟨e, t', v', bind_of_error hrun, ht', hE e v' he⟩

/-- After a computation that leaves the view alone. -/
theorem Ends.after {Q₀ : α → Prop} {E₀ : Error → Prop} {Q' : β → View → Prop} {E' : Error → View → Prop}
    (h : m.Reads v Q₀ E₀) (hf : ∀ a, Q₀ a → (f a).Ends v Q' E') (hE : ∀ e, E₀ e → E' e v) :
    (m >>= f).Ends v Q' E' := by
  refine Ends.bind h ?_ ?_
  · rintro a v' ⟨rfl, hq⟩
    exact hf a hq
  · rintro e v' ⟨rfl, he⟩
    exact hE e he

/-- After a write. -/
theorem Ends.andThen {w : View} {Q' : β → View → Prop} {E' : Error → View → Prop} (h : m.Writes v w)
    (hf : ∀ a, (f a).Ends w Q' E') : (m >>= f).Ends v Q' E' := by
  refine Ends.bind h ?_ fun _ _ he => he.elim
  rintro a v' rfl
  exact hf a

/-- A write ends with its view, and never fails. -/
theorem Writes.ends {w : View} (h : m.Writes v w) (hQ : ∀ a, Q a w) : m.Ends v Q E :=
  Ends.mono h (fun a _ hq => hq ▸ hQ a) fun _ _ he => he.elim

theorem Reads.pure {a : α} {Q : α → Prop} {E : Error → Prop} (h : Q a) : Reads (Pure.pure a : TrailM σ α) v Q E :=
  Ends.pure ⟨rfl, h⟩

theorem Reads.throw {e : Error} {Q : α → Prop} {E : Error → Prop} (h : E e) :
    Reads (MonadExcept.throw e : TrailM σ α) v Q E :=
  Ends.throw ⟨rfl, h⟩

theorem Reads.mono {Q Q' : α → Prop} {E E' : Error → Prop} (h : m.Reads v Q' E') (hQ : ∀ a, Q' a → Q a)
    (hE : ∀ e, E' e → E e) : m.Reads v Q E :=
  Ends.mono h (fun a _ hq => ⟨hq.1, hQ a hq.2⟩) fun e _ he => ⟨he.1, hE e he.2⟩

/-- Reading twice is reading. -/
theorem Reads.bind {Q : α → Prop} {E : Error → Prop} {Q' : β → Prop} {E' : Error → Prop} (h : m.Reads v Q E)
    (hf : ∀ a, Q a → (f a).Reads v Q' E') (hE : ∀ e, E e → E' e) : (m >>= f).Reads v Q' E' :=
  Ends.after h hf fun e he => ⟨rfl, hE e he⟩

/-- A result that needs no records is read as it is, its errors told as errors of trails. -/
theorem Reads.ofExcept {ε : Type} {asError : ε → Error} {result : Except ε α} {Q : α → Prop} {E : Error → Prop}
    (hok : ∀ a, result = .ok a → Q a) (herror : ∀ e, result = .error e → E (asError e)) :
    Reads (TrailM.ofExcept asError result : TrailM σ α) v Q E := by
  cases result with
  | ok a => exact Reads.pure (hok a rfl)
  | error e => exact Reads.throw (herror e rfl)

/-- A result whose errors are those of trails is read as it is. -/
theorem Reads.ofResult {result : Except Error α} {Q : α → Prop} {E : Error → Prop}
    (hok : ∀ a, result = .ok a → Q a) (herror : ∀ e, result = .error e → E e) :
    Reads (TrailM.ofResult result : TrailM σ α) v Q E := by
  cases result with
  | ok a => exact Reads.pure (hok a rfl)
  | error e => exact Reads.throw (herror e rfl)

/-! ## Rules for records -/

/-- After a read, whatever the records are that show the view. -/
theorem Ends.read {key : Key} {f : Option Bytes → TrailM σ β} {Q : β → View → Prop} {E : Error → View → Prop}
    (hf : ∀ records : Records, records.Sound → records.view = v → (f (records.find? key)).Ends v Q E)
    (hE : ∀ e : Error, e.IsFault σ → E e v) : (Trail.read key >>= f).Ends v Q E := by
  intro base t ht
  obtain ⟨t', hvalid, hbase, hrecords, hread⟩ := Trail.read_cases ht.valid key
  have ht' : t'.Shows base v := ⟨hvalid, hbase.trans ht.base, hrecords ▸ ht.sound, hrecords ▸ ht.view⟩
  rcases hread with hread | ⟨hfallible, e, hread⟩
  · rw [bind_of_ok hread]
    exact hf t.records ht.sound ht.view base t' ht'
  · exact .inr ⟨.storage e, t', v, bind_of_error hread, ht', hE _ ⟨hfallible, e, rfl⟩⟩

/-- A record that can be read under its key leads to the view with it. -/
theorem Writes.putRecord {key : Key} {value : Bytes} {w : View} (hvalue : Records.Readable value key)
    (hview : ∀ records : Records, records.view = v → (records.applyWrite (.put key value)).view = w) :
    (Trail.put key value : TrailM σ Unit).Writes v w := by
  intro base t ht
  have hrecords := Trail.records_stage t key (some value)
  refine .inl ⟨(), t.stage key (some value), w, rfl, ⟨ht.valid, ht.base, ?_, ?_⟩, rfl⟩
  · rw [hrecords]
    exact ht.sound.put hvalue
  · rw [hrecords]
    exact hview t.records ht.view

/-- A node that can be stored is put into the view. -/
theorem Writes.putNode {id : NodeId} {node : NodeRevision} (h : node.Storable) :
    (NodeRecord.put id node : TrailM σ Unit).Writes v (v.setNode id node) := by
  refine Writes.putRecord ⟨⟨id, rfl⟩, node, NodeRecord.decode_encode h⟩ ?_
  rintro records rfl
  exact Records.view_putNode records id h

/-- A revision is put into the view. -/
theorem Writes.putRevision {number : UInt64} {revision : Revision} :
    (Trail.put (Revision.key number) (Revision.encode revision) : TrailM σ Unit).Writes v
      (v.setRevision number revision) := by
  refine Writes.putRecord ⟨⟨number, rfl⟩, revision, Revision.decode_encode revision⟩ ?_
  rintro records rfl
  exact Records.view_putRevision records number revision

/-- A transaction is put into the view. -/
theorem Writes.putTxn {name : String} {txn : Transaction} :
    (Trail.put (Transaction.key name) (Transaction.encode txn) : TrailM σ Unit).Writes v
      (v.setTxn name (some txn)) := by
  refine Writes.putRecord ⟨⟨name, rfl⟩, txn, Transaction.decode_encode txn⟩ ?_
  rintro records rfl
  exact Records.view_putTxn records name txn

/-- A representation is put into the view, in whatever way it is stored. -/
theorem Writes.putRep {key : String} {rep : Representation} {value : Bytes}
    (h : Representation.ofStored value = .ok rep) :
    (Trail.put (Representation.recordKey key) value : TrailM σ Unit).Writes v (v.setRep key rep) := by
  refine Writes.putRecord ⟨⟨key, rfl⟩, rep, h⟩ ?_
  rintro records rfl
  exact Records.view_putRep records key h

/-- The record of a counter is put into the view. -/
theorem Writes.putGlobal {name : String} {value : Bytes} :
    (Trail.put (Counter.key name) value : TrailM σ Unit).Writes v (v.setGlobal name value) := by
  refine Writes.putRecord ⟨name, rfl⟩ ?_
  rintro records rfl
  exact Records.view_putGlobal records name value

/-- A number is put into the view. -/
theorem Writes.writeNumber {counter : String} {n : UInt64} :
    (Counter.writeNumber counter n : TrailM σ Unit).Writes v (v.setNumber counter n) :=
  Writes.putGlobal

/-- A transaction is taken out of the view. -/
theorem Writes.deleteTxn {name : String} :
    (Trail.delete (Transaction.key name) : TrailM σ Unit).Writes v (v.setTxn name none) := by
  intro base t ht
  have hrecords := Trail.records_stage t (Transaction.key name) none
  refine .inl ⟨(), t.stage (Transaction.key name) none, _, rfl, ⟨ht.valid, ht.base, ?_, ?_⟩, rfl⟩
  · rw [hrecords]
    exact ht.sound.delete _
  · rw [hrecords, ← ht.view]
    exact Records.view_deleteTxn t.records name

end TrailM

/-! ## Computations of a client -/

namespace ClientM

/-- From every trail that shows `v`, the computation of a client that holds `held` ends with a value, what is held then
    and a view as in `Q`, or with an error, what is held and a view as in `E`. -/
def Ends (m : ClientM ω σ α) (held : ω) (v : View) (Q : α → ω → View → Prop) (E : Error → ω → View → Prop) : Prop :=
  ∀ base t, t.Shows base v →
    (∃ a held' t' v', m held t = ((.ok a, held'), t') ∧ t'.Shows base v' ∧ Q a held' v') ∨
      ∃ e held' t' v', m held t = ((.error e, held'), t') ∧ t'.Shows base v' ∧ E e held' v'

variable {m : ClientM ω σ α} {f : α → ClientM ω σ β} {held held' : ω} {v : View} {Q : α → ω → View → Prop}
  {E : Error → ω → View → Prop}

omit [RecordStore σ] [LawfulStore σ] [Codec] in
/-- A client that gets a value goes on with what it holds then. -/
theorem bind_of_ok {t t' : Trail σ} {a : α} (h : m held t = ((.ok a, held'), t')) : (m >>= f) held t = f a held' t' := by
  show ExceptT.bindCont f (m held t).1.1 (m held t).1.2 (m held t).2 = _
  rw [h]
  rfl

omit [RecordStore σ] [LawfulStore σ] [Codec] in
/-- A client that gets an error does not go on. -/
theorem bind_of_error {t t' : Trail σ} {e : Error} (h : m held t = ((.error e, held'), t')) :
    (m >>= f) held t = ((.error e, held'), t') := by
  show ExceptT.bindCont f (m held t).1.1 (m held t).1.2 (m held t).2 = _
  rw [h]
  rfl

theorem Ends.pure {a : α} (h : Q a held v) : Ends (Pure.pure a : ClientM ω σ α) held v Q E := by
  intro base t ht
  exact .inl ⟨a, held, t, v, rfl, ht, h⟩

theorem Ends.throw {e : Error} (h : E e held v) : Ends (MonadExcept.throw e : ClientM ω σ α) held v Q E := by
  intro base t ht
  exact .inr ⟨e, held, t, v, rfl, ht, h⟩

theorem Ends.mono {Q' : α → ω → View → Prop} {E' : Error → ω → View → Prop} (h : m.Ends held v Q' E')
    (hQ : ∀ a held' v', Q' a held' v' → Q a held' v') (hE : ∀ e held' v', E' e held' v' → E e held' v') :
    m.Ends held v Q E := by
  intro base t ht
  rcases h base t ht with ⟨a, held', t', v', hrun, ht', hq⟩ | ⟨e, held', t', v', hrun, ht', he⟩
  · exact .inl ⟨a, held', t', v', hrun, ht', hQ _ _ _ hq⟩
  · exact .inr ⟨e, held', t', v', hrun, ht', hE _ _ _ he⟩

/-- For clients, too, what is second is promised on all that the first ends with. -/
theorem Ends.bind {Q' : β → ω → View → Prop} {E' : Error → ω → View → Prop} (h : m.Ends held v Q E)
    (hf : ∀ a held' v', Q a held' v' → (f a).Ends held' v' Q' E')
    (hE : ∀ e held' v', E e held' v' → E' e held' v') : (m >>= f).Ends held v Q' E' := by
  intro base t ht
  rcases h base t ht with ⟨a, held', t', v', hrun, ht', hq⟩ | ⟨e, held', t', v', hrun, ht', he⟩
  · rw [bind_of_ok hrun]
    exact hf a held' v' hq base t' ht'
  · exact .inr ⟨e, held', t', v', bind_of_error hrun, ht', hE _ _ _ he⟩

/-- A computation in the trail does not change what the client holds. -/
theorem Ends.lift {m : TrailM σ α} {Q' : α → View → Prop} {E' : Error → View → Prop} (h : m.Ends v Q' E')
    (hQ : ∀ a v', Q' a v' → Q a held v') (hE : ∀ e v', E' e v' → E e held v') :
    Ends (TrailM.lift m : ClientM ω σ α) held v Q E := by
  intro base t ht
  have hlift : (TrailM.lift m : ClientM ω σ α) held t = (((m t).1, held), (m t).2) := rfl
  rw [hlift]
  rcases h base t ht with ⟨a, t', v', hrun, ht', hq⟩ | ⟨e, t', v', hrun, ht', he⟩
  · rw [hrun]
    exact .inl ⟨a, held, t', v', rfl, ht', hQ a v' hq⟩
  · rw [hrun]
    exact .inr ⟨e, held, t', v', rfl, ht', hE e v' he⟩

/-- After asking what is held. -/
theorem Ends.get {f : ω → ClientM ω σ β} {Q : β → ω → View → Prop} (h : (f held).Ends held v Q E) :
    (getThe ω >>= f : ClientM ω σ β).Ends held v Q E := by
  intro base t ht
  have hget : (getThe ω : ClientM ω σ ω) held t = ((.ok held, held), t) := rfl
  rw [bind_of_ok hget]
  exact h base t ht

/-- After something else is held. -/
theorem Ends.hold {f : PUnit → ClientM ω σ β} {g : ω → ω} {Q : β → ω → View → Prop}
    (h : (f ⟨⟩).Ends (g held) v Q E) : (modifyThe ω g >>= f : ClientM ω σ β).Ends held v Q E := by
  intro base t ht
  have hmodify : (modifyThe ω g : ClientM ω σ PUnit) held t = ((.ok ⟨⟩, g held), t) := rfl
  rw [bind_of_ok hmodify]
  exact h base t ht

theorem Ends.set {f : PUnit → ClientM ω σ β} {Q : β → ω → View → Prop} (h : (f ⟨⟩).Ends held' v Q E) :
    (MonadStateOf.set held' >>= f : ClientM ω σ β).Ends held v Q E := by
  intro base t ht
  have hset : (MonadStateOf.set held' : ClientM ω σ PUnit) held t = ((.ok ⟨⟩, held'), t) := rfl
  rw [bind_of_ok hset]
  exact h base t ht

end ClientM

/-! ## Whole trails -/

/-- True of stores that hold records which show a view. -/
structure StoreShows (v : View) (store : σ) : Prop where
  valid : LawfulStore.Valid store
  sound : (LawfulStore.records store).Sound
  view : (LawfulStore.records store).view = v

/-- A trail that starts on a store shows what the store shows. -/
theorem StoreShows.start {v : View} {store : σ} (h : StoreShows v store) :
    (Trail.start store).Shows (LawfulStore.records store) v :=
  ⟨h.valid, rfl, h.sound, h.view⟩

/-- Completing a trail brings its view to the store, or leaves the records of the store as they were. -/
theorem Trail.Shows.complete {base : Records} {v : View} {t : Trail σ} (ht : t.Shows base v) (a : α) :
    ∃ store', (t.complete (.ok a) = (.ok a, store') ∧ StoreShows v store') ∨
      ∃ e, t.complete (.ok a : Except Error α) = (.error e, store') ∧ LawfulStore.Valid store' ∧
        LawfulStore.records store' = base ∧ e.IsFault σ := by
  obtain ⟨store', hvalid, h⟩ := Trail.complete_cases ht.valid (.ok a : Except Error α)
  rcases h with ⟨a', ha, hcomplete, hrecords⟩ | ⟨e, hcomplete, hrecords, hfault⟩
  · cases ha
    exact ⟨store', .inl ⟨hcomplete, hvalid, hrecords ▸ ht.sound, hrecords ▸ ht.view⟩⟩
  · exact ⟨store', .inr ⟨e, hcomplete, hvalid, hrecords.trans ht.base, hfault.resolve_left nofun⟩⟩

namespace Trail

variable {v : View} {store : σ}

/-- **A TRAIL TAKES EFFECT AS A WHOLE OR NOT AT ALL.** If it succeeds the store shows what its computation came to, and
    otherwise the records are those from before. -/
theorem run_cases {m : TrailM σ α} {Q : α → View → Prop} {E : Error → View → Prop} (hstore : StoreShows v store)
    (h : m.Ends v Q E) :
    ∃ store', (∃ a v', run m store = (.ok a, store') ∧ StoreShows v' store' ∧ Q a v') ∨
      ∃ e, run m store = (.error e, store') ∧ LawfulStore.Valid store' ∧
        LawfulStore.records store' = LawfulStore.records store ∧ ((∃ v', E e v') ∨ e.IsFault σ) := by
  have hrun : run m store = (m (start store)).2.complete (m (start store)).1 := rfl
  rcases h _ _ hstore.start with ⟨a, t', v', heq, ht', hq⟩ | ⟨e, t', v', heq, ht', he⟩
  · rw [hrun, heq]
    obtain ⟨store', h | ⟨e, hcomplete, hvalid, hrecords, hfault⟩⟩ := ht'.complete a
    · exact ⟨store', .inl ⟨a, v', h.1, h.2, hq⟩⟩
    · exact ⟨store', .inr ⟨e, hcomplete, hvalid, hrecords, .inr hfault⟩⟩
  · -- the writes of a computation that fails are dropped with its trail
    rw [hrun, heq]
    exact ⟨t'.store, .inr ⟨e, rfl, ht'.valid, ht'.base, .inl ⟨v', he⟩⟩⟩

/-- A client that runs on a store ends with a value and a new view, or with an error and the view as it was. -/
theorem runClient_cases {m : ClientM ω σ α} {held : ω} {Q : α → ω → View → Prop} {E : Error → ω → View → Prop}
    (hstore : StoreShows v store) (h : m.Ends held v Q E) :
    ∃ held' store', (∃ a v', runClient m held store = ((.ok a, held'), store') ∧ StoreShows v' store' ∧ Q a held' v') ∨
      ∃ e, runClient m held store = ((.error e, held'), store') ∧ LawfulStore.Valid store' ∧
        LawfulStore.records store' = LawfulStore.records store ∧ ((∃ held' v', E e held' v') ∨ e.IsFault σ) := by
  have hrun : runClient m held store =
      ((((m held (start store)).2.complete (m held (start store)).1.1).1, (m held (start store)).1.2),
        ((m held (start store)).2.complete (m held (start store)).1.1).2) := rfl
  rcases h _ _ hstore.start with ⟨a, held', t', v', heq, ht', hq⟩ | ⟨e, held', t', v', heq, ht', he⟩
  · rw [hrun, heq]
    obtain ⟨store', h | ⟨e, hcomplete, hvalid, hrecords, hfault⟩⟩ := ht'.complete a
    · refine ⟨held', store', .inl ⟨a, v', ?_, h.2, hq⟩⟩
      rw [h.1]
    · refine ⟨held', store', .inr ⟨e, ?_, hvalid, hrecords, .inr hfault⟩⟩
      rw [hcomplete]
  · rw [hrun, heq]
    exact ⟨held', t'.store, .inr ⟨e, rfl, ht'.valid, ht'.base, .inl ⟨held', v', he⟩⟩⟩

end Trail

end VersionedTree

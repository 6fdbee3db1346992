import Mathlib.Data.Finset.Card
import VersionedTree.Client
import VersionedTree.Proofs.Store.View
import VersionedTree.Proofs.Trail.Ends
import VersionedTree.Proofs.Trail.Immediate

/-!
# Outcomes — what a computation comes to, whatever the records are

Records need not be sound: texts may be damaged and ids may lead nowhere. What a computation in a trail comes to still
depends only on the records of the store and on what is staged, and a trail over the records themselves has both.

* **`Trail.Over`** — a trail stands for a trail over records.
* **`TrailM.Comes`** — what a computation comes to, unless the store fails. **`TrailM.Looks`** is the case of a computation
  that stages nothing, **`TrailM.Stages`** that of one that does not fail. Rules for sequences come first, then one rule
  for each access to the records.
* **`ClientM.Comes`** — the same for the computations of a client. **`Comes.change`** and **`Comes.through`** are for
  handles, which may be old ones.
* **`Comes.result`** and **`Error.result_iff`** — from that to the result of a run, where there is only one that it can be.
-/

namespace VersionedTree

/-- There are no more keys in a map than its size says. -/
theorem SortedMap.card_le_size {κ α : Type} [Ord κ] [Std.LawfulEqOrd κ] [DecidableEq κ] {m : SortedMap κ α}
    {keys : Finset κ} (h : ∀ k ∈ keys, m.find? k ≠ none) : keys.card ≤ m.size := by
  have hkeys : keys ⊆ (m.pairs.map Prod.fst).toFinset := by
    intro k hk
    exact List.mem_toFinset.2 (mem_keys_iff.2 (h k hk))
  calc keys.card ≤ (m.pairs.map Prod.fst).toFinset.card := Finset.card_le_card hkeys
    _ ≤ (m.pairs.map Prod.fst).length := List.toFinset_card_le _
    _ = m.size := List.length_map _

variable {σ ω α β : Type} [RecordStore σ] [LawfulStore σ]

/-- The trail stands for a trail over records: its store holds just these, and the same writes are staged. -/
structure Trail.Over (t : Trail σ) (s : Trail Records) : Prop where
  valid : LawfulStore.Valid t.store
  base : LawfulStore.records t.store = s.store
  staged : t.staged = s.staged

namespace Trail

/-- The trail over the records of the store. -/
def plain (t : Trail σ) : Trail Records :=
  ⟨LawfulStore.records t.store, t.staged⟩

/-- A trail on a store stands for the plain trail over the records of the store. -/
theorem over_plain {t : Trail σ} (h : LawfulStore.Valid t.store) : t.Over t.plain :=
  ⟨h, rfl, rfl⟩

variable {t : Trail σ} {s s' : Trail Records}

/-- There is only one plain trail that a trail stands for. -/
theorem Over.eq_plain (h : t.Over s) : s = t.plain := by
  obtain ⟨base, staged⟩ := s
  obtain ⟨-, rfl, rfl⟩ := h
  rfl

/-- A trail and its plain trail show the same records. -/
theorem records_plain (t : Trail σ) : t.plain.records = t.records :=
  rfl

/-- So they do if the one stands for the other. -/
theorem Over.records (h : t.Over s) : t.records = s.records := by
  rw [h.eq_plain, records_plain]

/-- A write that is staged on both sides keeps them together. -/
theorem Over.stage (h : t.Over s) (key : Key) (value : Option Bytes) : (t.stage key value).Over (s.stage key value) where
  valid := h.valid
  base := h.base
  staged := congrArg (fun staged => SortedMap.insert staged key value) h.staged

/-- A record that is seen is staged, or else it is in the store. -/
theorem size_records_le (s : Trail Records) : s.records.size ≤ s.staged.size + s.store.size := by
  have hkeys : (s.records.pairs.map Prod.fst).toFinset ⊆
      (s.staged.pairs.map Prod.fst ++ s.store.pairs.map Prod.fst).toFinset := by
    intro key hkey
    obtain ⟨value, hfind⟩ := Option.ne_none_iff_exists'.1 (SortedMap.mem_keys_iff.1 (List.mem_toFinset.1 hkey))
    rw [List.mem_toFinset, List.mem_append, SortedMap.mem_keys_iff, SortedMap.mem_keys_iff]
    by_contra! hnone
    rw [find?_records, hnone.1] at hfind
    exact Option.some_ne_none value (hfind.symm.trans hnone.2)
  calc s.records.size = (s.records.pairs.map Prod.fst).toFinset.card := by
        rw [List.toFinset_card_of_nodup (SortedMap.nodup_keys _), List.length_map, SortedMap.size]
    _ ≤ (s.staged.pairs.map Prod.fst ++ s.store.pairs.map Prod.fst).toFinset.card := Finset.card_le_card hkeys
    _ ≤ (s.staged.pairs.map Prod.fst ++ s.store.pairs.map Prod.fst).length := List.toFinset_card_le _
    _ = s.staged.size + s.store.size := by simp [SortedMap.size]

end Trail

namespace TrailM

/-- From every trail that stands for `s`, the computation ends with a value as in `Q` or with an error as in `E`, or the
    store fails. -/
def Comes (m : TrailM σ α) (s : Trail Records) (Q : α → Trail Records → Prop) (E : Error → Trail Records → Prop) : Prop :=
  ∀ t, t.Over s →
    (∃ a t' s', m t = (.ok a, t') ∧ t'.Over s' ∧ Q a s') ∨
      ∃ e t' s', m t = (.error e, t') ∧ t'.Over s' ∧ (e.IsFault σ ∨ E e s')

/-- The computation stages nothing, and ends with a value as in `Q` or with an error as in `E`. -/
def Looks (m : TrailM σ α) (s : Trail Records) (Q : α → Prop) (E : Error → Prop) : Prop :=
  m.Comes s (fun a s' => s' = s ∧ Q a) (fun e s' => s' = s ∧ E e)

/-- The computation does not fail, and leaves `s'`. -/
def Stages (m : TrailM σ α) (s s' : Trail Records) : Prop :=
  m.Comes s (fun _ s'' => s'' = s') (fun _ _ => False)

variable {m : TrailM σ α} {f : α → TrailM σ β} {s s₁ : Trail Records} {Q : α → Trail Records → Prop}
  {E : Error → Trail Records → Prop}

/-! ## Rules for sequences -/

theorem Comes.pure {a : α} (h : Q a s) : Comes (Pure.pure a : TrailM σ α) s Q E := by
  intro t ht
  exact .inl ⟨a, t, s, rfl, ht, h⟩

theorem Comes.throw {e : Error} (h : E e s) : Comes (MonadExcept.throw e : TrailM σ α) s Q E := by
  intro t ht
  exact .inr ⟨e, t, s, rfl, ht, .inr h⟩

theorem Comes.mono {Q' : α → Trail Records → Prop} {E' : Error → Trail Records → Prop} (h : m.Comes s Q' E')
    (hQ : ∀ a s', Q' a s' → Q a s') (hE : ∀ e s', E' e s' → E e s') : m.Comes s Q E := by
  intro t ht
  rcases h t ht with ⟨a, t', s', hrun, ht', hq⟩ | ⟨e, t', s', hrun, ht', he⟩
  · exact .inl ⟨a, t', s', hrun, ht', hQ a s' hq⟩
  · exact .inr ⟨e, t', s', hrun, ht', he.imp_right (hE e s')⟩

/-- What comes second is promised on every trail that comes first. -/
theorem Comes.bind {Q' : β → Trail Records → Prop} {E' : Error → Trail Records → Prop} (h : m.Comes s Q E)
    (hf : ∀ a s', Q a s' → (f a).Comes s' Q' E') (hE : ∀ e s', E e s' → E' e s') : (m >>= f).Comes s Q' E' := by
  intro t ht
  rcases h t ht with ⟨a, t', s', hrun, ht', hq⟩ | ⟨e, t', s', hrun, ht', he⟩
  · rw [bind_of_ok hrun]
    exact hf a s' hq t' ht'
  · exact .inr ⟨e, t', s', bind_of_error hrun, ht', he.imp_right (hE e s')⟩

/-- After a computation that stages nothing. -/
theorem Comes.after {Q₀ : α → Prop} {E₀ : Error → Prop} {Q' : β → Trail Records → Prop}
    {E' : Error → Trail Records → Prop} (h : m.Looks s Q₀ E₀) (hf : ∀ a, Q₀ a → (f a).Comes s Q' E')
    (hE : ∀ e, E₀ e → E' e s) : (m >>= f).Comes s Q' E' := by
  refine Comes.bind h ?_ ?_
  · rintro a s' ⟨rfl, hq⟩
    exact hf a hq
  · rintro e s' ⟨rfl, he⟩
    exact hE e he

/-- After a write. -/
theorem Comes.andThen {Q' : β → Trail Records → Prop} {E' : Error → Trail Records → Prop} (h : m.Stages s s₁)
    (hf : ∀ a, (f a).Comes s₁ Q' E') : (m >>= f).Comes s Q' E' := by
  refine Comes.bind h ?_ fun _ _ he => he.elim
  rintro a s' rfl
  exact hf a

theorem Looks.pure {a : α} {Q : α → Prop} {E : Error → Prop} (h : Q a) : Looks (Pure.pure a : TrailM σ α) s Q E :=
  Comes.pure ⟨rfl, h⟩

theorem Looks.throw {e : Error} {Q : α → Prop} {E : Error → Prop} (h : E e) :
    Looks (MonadExcept.throw e : TrailM σ α) s Q E :=
  Comes.throw ⟨rfl, h⟩

theorem Looks.mono {Q Q' : α → Prop} {E E' : Error → Prop} (h : m.Looks s Q' E') (hQ : ∀ a, Q' a → Q a)
    (hE : ∀ e, E' e → E e) : m.Looks s Q E :=
  Comes.mono h (fun a _ hq => ⟨hq.1, hQ a hq.2⟩) fun e _ he => ⟨he.1, hE e he.2⟩

/-- Looking twice is looking. -/
theorem Looks.bind {Q : α → Prop} {E : Error → Prop} {Q' : β → Prop} {E' : Error → Prop} (h : m.Looks s Q E)
    (hf : ∀ a, Q a → (f a).Looks s Q' E') (hE : ∀ e, E e → E' e) : (m >>= f).Looks s Q' E' :=
  Comes.after h hf fun e he => ⟨rfl, hE e he⟩

/-- A result that needs no records is seen as it is, its errors told as errors of trails. -/
theorem Looks.ofExcept {ε : Type} {asError : ε → Error} {result : Except ε α} {Q : α → Prop} {E : Error → Prop}
    (hok : ∀ a, result = .ok a → Q a) (herror : ∀ e, result = .error e → E (asError e)) :
    Looks (TrailM.ofExcept asError result : TrailM σ α) s Q E := by
  cases result with
  | ok a => exact Looks.pure (hok a rfl)
  | error e => exact Looks.throw (herror e rfl)

/-- A result whose errors are those of trails is seen as it is. -/
theorem Looks.ofResult {result : Except Error α} {Q : α → Prop} {E : Error → Prop}
    (hok : ∀ a, result = .ok a → Q a) (herror : ∀ e, result = .error e → E e) :
    Looks (TrailM.ofResult result : TrailM σ α) s Q E := by
  cases result with
  | ok a => exact Looks.pure (hok a rfl)
  | error e => exact Looks.throw (herror e rfl)

/-- Where a computation can only have one result, it has this one, unless the store fails. -/
theorem Comes.result {result : Except Error α} (h : m.Comes s (fun a _ => result = .ok a) fun e _ => result = .error e)
    {t : Trail σ} (ht : t.Over s) : (m t).1 = result ∨ ∃ e, (m t).1 = .error e ∧ e.IsFault σ := by
  rcases h t ht with ⟨a, t', s', hrun, -, rfl⟩ | ⟨e, t', s', hrun, -, hfault | rfl⟩
  · exact .inl (congrArg Prod.fst hrun)
  · exact .inr ⟨e, congrArg Prod.fst hrun, hfault⟩
  · exact .inl (congrArg Prod.fst hrun)

/-! ## Rules for records -/

/-- Reading a key shows the record that a trail has there. -/
theorem Looks.read (key : Key) :
    (Trail.read key : TrailM σ (Option Bytes)).Looks s (fun value => value = s.records.find? key) fun _ => False := by
  intro t ht
  obtain ⟨t', hvalid, hbase, -, hread⟩ := Trail.read_cases ht.valid key
  have hstaged := Trail.staged_read t key
  rw [← ht.records]
  rcases hread with hread | ⟨hfallible, e, hread⟩
  all_goals
    rw [hread] at hstaged
    have ht' : t'.Over s := ⟨hvalid, hbase.trans ht.base, hstaged.trans ht.staged⟩
  · exact .inl ⟨_, t', s, hread, ht', rfl, rfl⟩
  · exact .inr ⟨_, t', s, hread, ht', .inl ⟨hfallible, e, rfl⟩⟩

/-- A record that is there and can be read gives its item. -/
theorem Looks.record {ε : Type} {key : Key} {decode : Bytes → Except ε α} {asError : ε → Error} {missing : Error}
    {f : Option Bytes → TrailM σ α} (hnone : f none = MonadExcept.throw missing)
    (hsome : ∀ value, f (some value) = TrailM.ofExcept asError (decode value)) :
    (Trail.read key >>= f).Looks s (fun a => ∃ value, s.records.find? key = some value ∧ decode value = .ok a)
      (fun e => s.records.find? key = none ∧ e = missing ∨
        ∃ value cause, s.records.find? key = some value ∧ decode value = .error cause ∧ e = asError cause) := by
  refine Looks.bind (Looks.read key) ?_ fun _ he => he.elim
  rintro value rfl
  cases hfind : s.records.find? key with
  | none =>
    rw [hnone]
    exact Looks.throw (.inl ⟨rfl, rfl⟩)
  | some value =>
    rw [hsome]
    exact Looks.ofExcept (fun a ha => ⟨value, rfl, ha⟩) fun cause hcause => .inr ⟨value, cause, rfl, hcause, rfl⟩

/-- The item of a record that can be read. -/
theorem Looks.record_of_ok {ε : Type} {key : Key} {decode : Bytes → Except ε α} {asError : ε → Error} {missing : Error}
    {f : Option Bytes → TrailM σ α} (hnone : f none = MonadExcept.throw missing)
    (hsome : ∀ value, f (some value) = TrailM.ofExcept asError (decode value))
    {a : α} (h : ∃ value, s.records.find? key = some value ∧ decode value = .ok a) :
    (Trail.read key >>= f).Looks s (fun found => found = a) fun _ => False := by
  obtain ⟨value, hfind, hdecode⟩ := h
  refine Looks.mono (Looks.record hnone hsome) ?_ ?_
  · rintro found ⟨value', hfind', hdecode'⟩
    cases hfind.symm.trans hfind'
    cases hdecode.symm.trans hdecode'
    rfl
  · rintro e (⟨hfind', -⟩ | ⟨value', cause, hfind', hdecode', -⟩)
    · cases hfind.symm.trans hfind'
    · cases hfind.symm.trans hfind'
      cases hdecode.symm.trans hdecode'

/-- A record is staged under its key. -/
theorem Stages.put (key : Key) (value : Bytes) :
    (Trail.put key value : TrailM σ Unit).Stages s (s.stage key (some value)) := by
  intro t ht
  exact .inl ⟨(), t.stage key (some value), _, rfl, ht.stage key (some value), rfl⟩

/-- Asking for a key shows whether a trail has a record there. -/
theorem Looks.contains (key : Key) :
    (Trail.contains key : TrailM σ Bool).Looks s (fun there => there = (s.records.find? key).isSome) fun _ => False := by
  refine Looks.bind (Looks.read key) ?_ fun _ he => he
  rintro value rfl
  exact Looks.pure rfl

/-- There are no more records than the bound says. -/
theorem Looks.bound :
    (Trail.bound : TrailM σ Nat).Looks s (fun bound => s.staged.size + s.store.size ≤ bound) fun _ => False := by
  intro t ht
  have hsize : s.store.size ≤ RecordStore.bound t.store := ht.base ▸ LawfulStore.size_le_bound ht.valid
  refine .inl ⟨_, t, s, rfl, ht, rfl, ?_⟩
  rw [← ht.staged]
  exact Nat.add_le_add_left hsize _

/-- A node is read if there is a record that decodes. Otherwise the error tells which of both is missing. -/
theorem Looks.readNode (id : NodeId) :
    (NodeRecord.read id : TrailM σ NodeRevision).Looks s
      (fun node => ∃ value, s.records.find? (NodeRecord.key id) = some value ∧ NodeRecord.decode value = .ok node)
      (fun e => s.records.find? (NodeRecord.key id) = none ∧ e = .notFound (.node id) ∨
        ∃ value cause, s.records.find? (NodeRecord.key id) = some value ∧ NodeRecord.decode value = .error cause ∧
          e = .malformed cause) :=
  Looks.record rfl fun _ => rfl

/-- A node that the view shows is read. -/
theorem Looks.readNode_of_some [Codec] {id : NodeId} {node : NodeRevision} (h : s.records.view.node id = some node) :
    (NodeRecord.read id : TrailM σ NodeRevision).Looks s (fun found => found = node) fun _ => False :=
  Looks.record_of_ok rfl (fun _ => rfl) (Records.view_node_eq_some.1 h)

/-- A handle on a node that the view shows is loaded. -/
theorem Looks.load_of_some [Codec] {id : NodeId} {revision : NodeRevision} (h : s.records.view.node id = some revision) :
    (Node.load id : TrailM σ Node).Looks s (fun found => found = ⟨id, revision⟩) fun _ => False := by
  refine Looks.bind (Looks.readNode_of_some h) ?_ fun _ he => he
  rintro _ rfl
  exact Looks.pure rfl

/-- A revision is read if there is a record that decodes. Otherwise the error tells which of both is missing. -/
theorem Looks.readRevision (number : UInt64) :
    (Revision.read number : TrailM σ Revision).Looks s
      (fun revision => ∃ value, s.records.find? (Revision.key number) = some value ∧ Revision.decode value = .ok revision)
      (fun e => s.records.find? (Revision.key number) = none ∧ e = .notFound (.revision number.toNat) ∨
        ∃ value cause, s.records.find? (Revision.key number) = some value ∧ Revision.decode value = .error cause ∧
          e = .malformed cause) :=
  Looks.record rfl fun _ => rfl

/-- A transaction is read if there is a record that decodes. Otherwise the error tells which of both is missing. -/
theorem Looks.readTxn (name : String) :
    (Transaction.read name : TrailM σ Transaction).Looks s
      (fun txn => ∃ value, s.records.find? (Transaction.key name) = some value ∧ Transaction.decode value = .ok txn)
      (fun e => s.records.find? (Transaction.key name) = none ∧ e = .notFound (.transaction name) ∨
        ∃ value cause, s.records.find? (Transaction.key name) = some value ∧ Transaction.decode value = .error cause ∧
          e = .malformed cause) :=
  Looks.record rfl fun _ => rfl

/-- A transaction that the view shows is read. -/
theorem Looks.readTxn_of_some [Codec] {name : String} {txn : Transaction} (h : s.records.view.txn name = some txn) :
    (Transaction.read name : TrailM σ Transaction).Looks s (fun found => found = txn) fun _ => False :=
  Looks.record_of_ok rfl (fun _ => rfl) (Records.bind_decode_eq_some.1 h)

/-- A representation is read if there is a record that decodes. Otherwise the error tells which of both is missing. -/
theorem Looks.readRep [Codec] (key : String) :
    (Representation.readRecord key : TrailM σ Representation).Looks s
      (fun rep => ∃ value, s.records.find? (Representation.recordKey key) = some value ∧
        Representation.ofStored value = .ok rep)
      (fun e => s.records.find? (Representation.recordKey key) = none ∧ e = .notFound (.representation key) ∨
        ∃ value cause, s.records.find? (Representation.recordKey key) = some value ∧
          Representation.ofStored value = .error cause ∧ e = .corrupt cause) :=
  Looks.record rfl fun _ => rfl

/-- A representation that the view shows is read. -/
theorem Looks.readRep_of_some [Codec] {key : String} {rep : Representation} (h : s.records.view.rep key = some rep) :
    (Representation.readRecord key : TrailM σ Representation).Looks s (fun found => found = rep) fun _ => False :=
  Looks.record_of_ok rfl (fun _ => rfl) (Records.view_rep_eq_some.1 h)

/-- A counter is read as the view shows it. -/
theorem Looks.readNumber [Codec] (counter : String) :
    (Counter.readNumber counter : TrailM σ (Option UInt64)).Looks s (fun number => number = s.records.view.number counter)
      fun _ => True := by
  refine Looks.bind (Looks.read (Counter.key counter)) ?_ fun _ _ => trivial
  rintro value rfl
  have hnumber : s.records.view.number counter = (s.records.find? (Counter.key counter)).bind Counter.number? := rfl
  rw [hnumber]
  cases s.records.find? (Counter.key counter) with
  | none => exact Looks.pure rfl
  | some value =>
    rw [Option.bind_some]
    dsimp only
    split
    case h_1 n hn => exact Looks.pure hn.symm
    case h_2 => exact Looks.throw trivial

/-- The next number is one more, if there is any. -/
theorem Looks.successor (counter : String) (n : UInt64) :
    (Counter.successor counter n : TrailM σ UInt64).Looks s (fun next => next = n + 1) fun _ => True := by
  unfold Counter.successor
  split
  case isTrue => exact Looks.pure rfl
  case isFalse => exact Looks.throw trivial

end TrailM

/-- If there is a result as in `P`, and nothing else can come out, then `P` says what comes out, unless the store fails. -/
theorem Error.result_iff {run : Except Error α} {P : Except Error α → Prop} (hexists : ∃ result, P result)
    (h : ∀ result, P result → run = result ∨ ∃ e, run = .error e ∧ Error.IsFault σ e) :
    (∀ result, run = result ↔ P result) ∨ ∃ e, run = .error e ∧ Error.IsFault σ e := by
  by_cases hfault : ∃ e, run = .error e ∧ Error.IsFault σ e
  case pos => exact .inr hfault
  case neg =>
    obtain ⟨result, hresult⟩ := hexists
    obtain rfl := (h result hresult).resolve_right hfault
    refine .inl fun result' => ⟨?_, fun hresult' => (h result' hresult').resolve_right hfault⟩
    rintro rfl
    exact hresult

/-! ## Computations of a client -/

namespace ClientM

/-- From every trail that stands for `s`, the computation of a client that holds `held` ends with a value as in `Q` or
    with an error as in `E`, or the store fails. -/
def Comes (m : ClientM ω σ α) (held : ω) (s : Trail Records) (Q : α → ω → Trail Records → Prop)
    (E : Error → ω → Trail Records → Prop) : Prop :=
  ∀ t, t.Over s →
    (∃ a held' t' s', m held t = ((.ok a, held'), t') ∧ t'.Over s' ∧ Q a held' s') ∨
      ∃ e held' t' s', m held t = ((.error e, held'), t') ∧ t'.Over s' ∧ (e.IsFault σ ∨ E e held' s')

variable {m : ClientM ω σ α} {f : α → ClientM ω σ β} {held held' : ω} {s : Trail Records}
  {Q : α → ω → Trail Records → Prop} {E : Error → ω → Trail Records → Prop}

theorem Comes.pure {a : α} (h : Q a held s) : Comes (Pure.pure a : ClientM ω σ α) held s Q E := by
  intro t ht
  exact .inl ⟨a, held, t, s, rfl, ht, h⟩

theorem Comes.mono {Q' : α → ω → Trail Records → Prop} {E' : Error → ω → Trail Records → Prop} (h : m.Comes held s Q' E')
    (hQ : ∀ a held' s', Q' a held' s' → Q a held' s') (hE : ∀ e held' s', E' e held' s' → E e held' s') :
    m.Comes held s Q E := by
  intro t ht
  rcases h t ht with ⟨a, held', t', s', hrun, ht', hq⟩ | ⟨e, held', t', s', hrun, ht', he⟩
  · exact .inl ⟨a, held', t', s', hrun, ht', hQ a held' s' hq⟩
  · exact .inr ⟨e, held', t', s', hrun, ht', he.imp_right (hE e held' s')⟩

/-- For clients, too, what comes second is promised on all that comes first. -/
theorem Comes.bind {Q' : β → ω → Trail Records → Prop} {E' : Error → ω → Trail Records → Prop} (h : m.Comes held s Q E)
    (hf : ∀ a held' s', Q a held' s' → (f a).Comes held' s' Q' E')
    (hE : ∀ e held' s', E e held' s' → E' e held' s') : (m >>= f).Comes held s Q' E' := by
  intro t ht
  rcases h t ht with ⟨a, held', t', s', hrun, ht', hq⟩ | ⟨e, held', t', s', hrun, ht', he⟩
  · rw [bind_of_ok hrun]
    exact hf a held' s' hq t' ht'
  · exact .inr ⟨e, held', t', s', bind_of_error hrun, ht', he.imp_right (hE e held' s')⟩

/-- A computation in the trail does not change what the client holds. -/
theorem Comes.lift {m : TrailM σ α} {Q' : α → Trail Records → Prop} {E' : Error → Trail Records → Prop}
    (h : m.Comes s Q' E') :
    Comes (TrailM.lift m : ClientM ω σ α) held s (fun a held' s' => held' = held ∧ Q' a s')
      (fun e held' s' => held' = held ∧ E' e s') := by
  intro t ht
  have hlift : (TrailM.lift m : ClientM ω σ α) held t = (((m t).1, held), (m t).2) := rfl
  rw [hlift]
  rcases h t ht with ⟨a, t', s', hrun, ht', hq⟩ | ⟨e, t', s', hrun, ht', he⟩
  · rw [hrun]
    exact .inl ⟨a, held, t', s', rfl, ht', rfl, hq⟩
  · rw [hrun]
    exact .inr ⟨e, held, t', s', rfl, ht', he.imp_right fun he => ⟨rfl, he⟩⟩

/-- Where a computation can only have one result, it has this one, unless the store fails. -/
theorem Comes.result {result : Except Error α}
    (h : m.Comes held s (fun a _ _ => result = .ok a) fun e _ _ => result = .error e) {t : Trail σ} (ht : t.Over s) :
    (m held t).1.1 = result ∨ ∃ e, (m held t).1.1 = .error e ∧ e.IsFault σ := by
  have hfst : ∀ {r : (Except Error α × ω) × Trail σ}, m held t = r → (m held t).1.1 = r.1.1 :=
    fun hrun => congrArg (fun r => r.1.1) hrun
  rcases h t ht with ⟨a, held', t', s', hrun, -, rfl⟩ | ⟨e, held', t', s', hrun, -, hfault | rfl⟩
  · exact .inl (hfst hrun)
  · exact .inr ⟨e, hfst hrun, hfault⟩
  · exact .inl (hfst hrun)

/-- After asking what is held. -/
theorem Comes.get {f : ω → ClientM ω σ β} {Q : β → ω → Trail Records → Prop} (h : (f held).Comes held s Q E) :
    (getThe ω >>= f : ClientM ω σ β).Comes held s Q E := by
  intro t ht
  have hget : (getThe ω : ClientM ω σ ω) held t = ((.ok held, held), t) := rfl
  rw [bind_of_ok hget]
  exact h t ht

theorem Comes.set {f : PUnit → ClientM ω σ β} {Q : β → ω → Trail Records → Prop} (h : (f ⟨⟩).Comes held' s Q E) :
    (MonadStateOf.set held' >>= f : ClientM ω σ β).Comes held s Q E := by
  intro t ht
  have hset : (MonadStateOf.set held' : ClientM ω σ PUnit) held t = ((.ok ⟨⟩, held'), t) := rfl
  rw [bind_of_ok hset]
  exact h t ht

/-- After something else is held. -/
theorem Comes.hold {f : PUnit → ClientM ω σ β} {g : ω → ω} {Q : β → ω → Trail Records → Prop}
    (h : (f ⟨⟩).Comes (g held) s Q E) : (modifyThe ω g >>= f : ClientM ω σ β).Comes held s Q E := by
  intro t ht
  have hmodify : (modifyThe ω g : ClientM ω σ PUnit) held t = ((.ok ⟨⟩, g held), t) := rfl
  rw [bind_of_ok hmodify]
  exact h t ht

/-! ## Steps through handles -/

section Handles

variable {handles : Client.Handles} {h : String} {node : Node}

/-- A step through a handle is taken on the node as its record is. -/
theorem Comes.change {step : Node → TrailM σ (α × Node)} {revision : NodeRevision} {Q : α → Trail Records → Prop}
    {E : Error → Trail Records → Prop} (hrecord : s.records.view.node node.id = some revision)
    (hstep : (step ⟨node.id, revision⟩).Comes s (fun result s' => Q result.1 s') E) :
    (Node.change step : Node.HandleM σ α).Comes node s (fun a _ s' => Q a s') fun e _ s' => E e s' := by
  have hreload : (Node.reload : Node.HandleM σ Unit).Comes node s
      (fun _ fresh s' => fresh = ⟨node.id, revision⟩ ∧ s' = s) fun _ _ _ => False := by
    refine Comes.get (Comes.bind (Comes.lift (TrailM.Looks.load_of_some hrecord)) ?_ fun _ _ _ he => he.2.2)
    rintro _ _ _ ⟨-, rfl, rfl⟩ t ht
    exact .inl ⟨⟨⟩, _, t, _, rfl, ht, rfl, rfl⟩
  refine Comes.bind hreload ?_ fun _ _ _ he => he.elim
  rintro _ _ _ ⟨rfl, rfl⟩
  refine Comes.get (Comes.bind (Comes.lift hstep) ?_ fun _ _ _ he => he.2)
  rintro result _ s' ⟨-, hq⟩
  exact Comes.set (Comes.pure hq)

/-- Through a handle the same comes as without. -/
theorem Comes.through {m : Node.HandleM σ α} {Q : α → Trail Records → Prop} {E : Error → Trail Records → Prop}
    (hm : m.Comes node s (fun a _ s' => Q a s') fun e _ s' => E e s') :
    (Client.through h node m).Comes handles s (fun a _ s' => Q a s') fun e _ s' => E e s' := by
  intro t ht
  have hrun : Client.through h node m handles t = (((m node t).1.1, handles.insert h (m node t).1.2), (m node t).2) := rfl
  rw [hrun]
  rcases hm t ht with ⟨a, node', t', s', heq, ht', hq⟩ | ⟨e, node', t', s', heq, ht', he⟩
  · rw [heq]
    exact .inl ⟨a, _, t', s', rfl, ht', hq⟩
  · rw [heq]
    exact .inr ⟨e, _, t', s', rfl, ht', he⟩

/-- A node is the answer, and no trail is changed. -/
theorem Comes.give (keep : Option String) (node : Node) :
    (Client.give keep node : ClientM Client.Handles σ Client.Answer).Comes handles s
      (fun answer _ s' => answer = .node node ∧ s' = s) fun _ _ _ => False := by
  cases keep with
  | none => exact Comes.pure ⟨rfl, rfl⟩
  | some name => exact Comes.hold (Comes.pure ⟨rfl, rfl⟩)

/-- With a handle, its node is worked on. -/
theorem Comes.withHandle {f : Node → ClientM Client.Handles σ Client.Answer}
    {Q : Client.Answer → Client.Handles → Trail Records → Prop} {E : Error → Client.Handles → Trail Records → Prop}
    (hfind : handles.find? h = some node) (hf : (f node).Comes handles s Q E) :
    (Client.withHandle h f).Comes handles s Q E := by
  refine Comes.get ?_
  rw [hfind]
  exact hf

end Handles

end ClientM

end VersionedTree

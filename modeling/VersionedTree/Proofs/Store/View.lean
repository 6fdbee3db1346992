import Mathlib.Logic.Function.Basic
import Mathlib.Tactic.Simps.Basic
import VersionedTree.Contents.Chain
import VersionedTree.Proofs.Contents.RoundTrip
import VersionedTree.Proofs.Record.RoundTrip
import VersionedTree.Proofs.Store.Overlay

/-!
# Views — what records say

The records of a filesystem say which nodes, revisions, transactions and representations there are. A view holds what they
say, so that everything above the records can be described without their texts.

* **`View`** — items by name, and the changes of one item.
* **`Records.view`** — the view of records. Writing the text of an item changes that item of the view and no other
  (**`view_putNode`** and its siblings).
* **`Records.Sound`** — every record can be read. Every such write keeps it so.
-/

namespace VersionedTree

open Function (update)

/-- What records say. -/
@[ext]
structure View where
  node : NodeId → Option NodeRevision
  revision : UInt64 → Option Revision
  txn : String → Option Transaction
  rep : String → Option Representation
  /-- The table of globals, as it is. -/
  global : String → Option Bytes

namespace View

/-- The view without any item. -/
def empty : View :=
  ⟨fun _ => none, fun _ => none, fun _ => none, fun _ => none, fun _ => none⟩

/-- The view with a node revision put under an id. -/
@[simps]
def setNode (v : View) (id : NodeId) (node : NodeRevision) : View :=
  { v with node := update v.node id (some node) }

/-- The view with a revision of this number. -/
@[simps]
def setRevision (v : View) (number : UInt64) (revision : Revision) : View :=
  { v with revision := update v.revision number (some revision) }

/-- The view with a transaction of this name, or without. -/
@[simps]
def setTxn (v : View) (name : String) (txn : Option Transaction) : View :=
  { v with txn := update v.txn name txn }

/-- The view with a representation under a key. -/
@[simps]
def setRep (v : View) (key : String) (rep : Representation) : View :=
  { v with rep := update v.rep key (some rep) }

/-- The view with another value in the table of globals. -/
@[simps]
def setGlobal (v : View) (name : String) (value : Bytes) : View :=
  { v with global := update v.global name (some value) }

/-- The number that a counter holds. -/
def number (v : View) (counter : String) : Option UInt64 :=
  (v.global counter).bind Counter.number?

/-- The view with another number in a counter. -/
@[simps!]
def setNumber (v : View) (counter : String) (n : UInt64) : View :=
  v.setGlobal counter (Text.toBytes (Decimal.text n.toNat))

/-- A counter that was set has its number. -/
theorem number_setNumber (v : View) (counter : String) (n : UInt64) :
    (v.setNumber counter n).number counter = some n := by
  simp [number, Counter.number?_text]

end View

/-! ## The keys of records -/

/-- Keys are told apart by their tables and their names. -/
theorem Key.ofText_inj {table table' : Table} {name name' : String} :
    Key.ofText table name = Key.ofText table' name' ↔ table = table' ∧ name = name' := by
  constructor
  · intro h
    obtain ⟨htable, hname⟩ := Key.mk.inj h
    exact ⟨htable, Text.toBytes_injective hname⟩
  · rintro ⟨rfl, rfl⟩
    rfl

@[simp] theorem NodeRecord.key_inj {i j : NodeId} : NodeRecord.key i = NodeRecord.key j ↔ i = j := by
  rw [NodeRecord.key, NodeRecord.key, Key.ofText_inj]
  exact ⟨fun h => NodeId.text_injective h.2, fun h => ⟨rfl, h ▸ rfl⟩⟩

@[simp] theorem Revision.key_inj {m n : UInt64} : Revision.key m = Revision.key n ↔ m = n := by
  rw [Revision.key, Revision.key, Key.ofText_inj]
  exact ⟨fun h => UInt64.toNat_inj.1 (congrArg UInt64.toNat (Decimal.text_injective h.2)), fun h => ⟨rfl, h ▸ rfl⟩⟩

@[simp] theorem Transaction.key_inj {s t : String} : Transaction.key s = Transaction.key t ↔ s = t := by
  rw [Transaction.key, Transaction.key, Key.ofText_inj]
  exact ⟨fun h => h.2, fun h => ⟨rfl, h⟩⟩

@[simp] theorem Representation.recordKey_inj {s t : String} :
    Representation.recordKey s = Representation.recordKey t ↔ s = t := by
  rw [Representation.recordKey, Representation.recordKey, Key.ofText_inj]
  exact ⟨fun h => h.2, fun h => ⟨rfl, h⟩⟩

@[simp] theorem Counter.key_inj {s t : String} : Counter.key s = Counter.key t ↔ s = t := by
  rw [Counter.key, Counter.key, Key.ofText_inj]
  exact ⟨fun h => h.2, fun h => ⟨rfl, h⟩⟩

/-! ## The view of records -/

namespace Records

variable [Codec]

/-- What the records say. A record that cannot be read says nothing. -/
def view (records : Records) : View where
  node id := (records.find? (NodeRecord.key id)).bind fun value => (NodeRecord.decode value).toOption
  revision number := (records.find? (Revision.key number)).bind fun value => (Revision.decode value).toOption
  txn name := (records.find? (Transaction.key name)).bind fun value => (Transaction.decode value).toOption
  rep key := (records.find? (Representation.recordKey key)).bind fun value =>
    (Representation.ofStored value).toOption
  global name := records.find? (Counter.key name)

/-- True of what is a record: it stands under the key of an item, and the item can be read. The values of globals are read
    where they are used. -/
def Readable (value : Bytes) (key : Key) : Prop :=
  match key.table with
  | .nodes => (∃ id, key = NodeRecord.key id) ∧ ∃ node, NodeRecord.decode value = .ok node
  | .revisions => (∃ number, key = Revision.key number) ∧ ∃ revision, Revision.decode value = .ok revision
  | .transactions => (∃ name, key = Transaction.key name) ∧ ∃ txn, Transaction.decode value = .ok txn
  | .representations => (∃ name, key = Representation.recordKey name) ∧ ∃ rep, Representation.ofStored value = .ok rep
  | .globals => ∃ name, key = Counter.key name

/-- True of records all of which can be read. -/
def Sound (records : Records) : Prop :=
  ∀ key value, records.find? key = some value → Readable value key

/-- Where there are no records, all can be read. -/
theorem sound_empty : Sound SortedMap.empty := by
  intro key value h
  exact nomatch h

variable {records : Records}

/-- All records can still be read after one is put that can. -/
theorem Sound.put (h : records.Sound) {key : Key} {value : Bytes} (hvalue : Readable value key) :
    (records.applyWrite (.put key value)).Sound := by
  intro key' value' hfind
  rw [find?_put] at hfind
  split at hfind
  case isTrue heq =>
    cases hfind
    exact heq ▸ hvalue
  case isFalse => exact h key' value' hfind

/-- All records can still be read after one is deleted. -/
theorem Sound.delete (h : records.Sound) (key : Key) : (records.applyWrite (.delete key)).Sound := by
  intro key' value' hfind
  rw [find?_delete] at hfind
  split at hfind
  case isTrue => exact nomatch hfind
  case isFalse => exact h key' value' hfind

omit [Codec] in
/-- Reading a record gives an item just if the record is there and can be read. -/
theorem bind_decode_eq_some {ε α : Type} {stored : Option Bytes} {decode : Bytes → Except ε α} {a : α} :
    (stored.bind fun value => (decode value).toOption) = some a ↔ ∃ value, stored = some value ∧ decode value = .ok a := by
  rw [Option.bind_eq_some_iff]
  refine exists_congr fun value => and_congr_right fun _ => ?_
  cases decode value with
  | ok a' => simp [Except.toOption]
  | error cause => simp [Except.toOption]

/-- The view has a node just if its record decodes to it. -/
theorem view_node_eq_some {id : NodeId} {node : NodeRevision} : records.view.node id = some node ↔
    ∃ value, records.find? (NodeRecord.key id) = some value ∧ NodeRecord.decode value = .ok node :=
  bind_decode_eq_some

/-- A node that the view has can be stored. -/
theorem storable_of_view {id : NodeId} {node : NodeRevision} (h : records.view.node id = some node) : node.Storable := by
  obtain ⟨value, -, hdecode⟩ := view_node_eq_some.1 h
  exact NodeRecord.storable_of_decode hdecode

/-- The view has a representation just if its record decodes to it. -/
theorem view_rep_eq_some {key : String} {rep : Representation} : records.view.rep key = some rep ↔
    ∃ value, records.find? (Representation.recordKey key) = some value ∧ Representation.ofStored value = .ok rep :=
  bind_decode_eq_some

/-- What is in a sound record is in the view, and nothing else is. -/
theorem view_node_of_some (h : records.Sound) {id : NodeId} {value : Bytes}
    (hfind : records.find? (NodeRecord.key id) = some value) :
    ∃ node, NodeRecord.decode value = .ok node ∧ records.view.node id = some node := by
  obtain ⟨-, node, hdecode⟩ := h _ _ hfind
  refine ⟨node, hdecode, ?_⟩
  simp [view, hfind, hdecode, Except.toOption]

/-- The table of nodes holds the records of the nodes in the view. -/
theorem find?_node_ne_none (h : records.Sound) (id : NodeId) :
    records.find? (NodeRecord.key id) ≠ none ↔ records.view.node id ≠ none := by
  cases hfind : records.find? (NodeRecord.key id) with
  | none => simp [view, hfind]
  | some value =>
    obtain ⟨node, -, hnode⟩ := view_node_of_some h hfind
    simp [hnode]

/-- The table of revisions holds the records of the revisions in the view, and nothing else. -/
theorem find?_revision_ne_none (h : records.Sound) {key : Key} (htable : key.table = .revisions) :
    records.find? key ≠ none ↔ ∃ number, key = Revision.key number ∧ records.view.revision number ≠ none := by
  constructor
  · intro hfind
    obtain ⟨value, hvalue⟩ := Option.ne_none_iff_exists'.1 hfind
    have hreadable := h key value hvalue
    rw [Readable, htable] at hreadable
    obtain ⟨⟨number, rfl⟩, revision, hdecode⟩ := hreadable
    exact ⟨number, rfl, by simp [view, hvalue, hdecode, Except.toOption]⟩
  · rintro ⟨number, rfl, hrevision⟩ hnone
    exact hrevision (by simp [view, hnone])

/-- The table of representations holds the records of those in the view. -/
theorem find?_rep_ne_none (h : records.Sound) (key : String) :
    records.find? (Representation.recordKey key) ≠ none ↔ records.view.rep key ≠ none := by
  cases hfind : records.find? (Representation.recordKey key) with
  | none => simp [view, hfind]
  | some value =>
    obtain ⟨-, rep, hdecode⟩ := h _ value hfind
    simp [view, hfind, hdecode, Except.toOption]

/-! ### Writes, seen in the view -/

variable (records)

/-- Putting the record of a node puts it into the view. -/
theorem view_putNode (id : NodeId) {node : NodeRevision} (h : node.Storable) :
    (records.applyWrite (.put (NodeRecord.key id) (NodeRecord.encode node))).view = records.view.setNode id node := by
  ext1
  case node =>
    funext id'
    by_cases hid : id' = id
    · subst hid
      simp [view, View.setNode, find?_put, NodeRecord.decode_encode h, Except.toOption]
    · simp [view, View.setNode, find?_put, hid]
  all_goals
    funext name
    simp [view, View.setNode, find?_put, Revision.key, Transaction.key, Representation.recordKey, Counter.key,
      NodeRecord.key, Key.ofText_inj]

/-- Putting the record of a revision puts it into the view. -/
theorem view_putRevision (number : UInt64) (revision : Revision) :
    (records.applyWrite (.put (Revision.key number) (Revision.encode revision))).view =
      records.view.setRevision number revision := by
  ext1
  case revision =>
    funext number'
    by_cases hnumber : number' = number
    · subst hnumber
      simp [view, View.setRevision, find?_put, Revision.decode_encode, Except.toOption]
    · simp [view, View.setRevision, find?_put, hnumber]
  all_goals
    funext name
    simp [view, View.setRevision, find?_put, Revision.key, Transaction.key, Representation.recordKey, Counter.key,
      NodeRecord.key, Key.ofText_inj]

/-- Putting the record of a transaction puts it into the view. -/
theorem view_putTxn (name : String) (txn : Transaction) :
    (records.applyWrite (.put (Transaction.key name) (Transaction.encode txn))).view =
      records.view.setTxn name (some txn) := by
  ext1
  case txn =>
    funext name'
    by_cases hname : name' = name
    · subst hname
      simp [view, View.setTxn, find?_put, Transaction.decode_encode, Except.toOption]
    · simp [view, View.setTxn, find?_put, hname]
  all_goals
    funext name'
    simp [view, View.setTxn, find?_put, Revision.key, Transaction.key, Representation.recordKey, Counter.key,
      NodeRecord.key, Key.ofText_inj]

/-- Deleting the record of a transaction takes it out of the view. -/
theorem view_deleteTxn (name : String) :
    (records.applyWrite (.delete (Transaction.key name))).view = records.view.setTxn name none := by
  ext1
  case txn =>
    funext name'
    by_cases hname : name' = name
    · subst hname
      simp [view, View.setTxn, find?_delete]
    · simp [view, View.setTxn, find?_delete, hname]
  all_goals
    funext name'
    simp [view, View.setTxn, find?_delete, Revision.key, Transaction.key, Representation.recordKey, Counter.key,
      NodeRecord.key, Key.ofText_inj]

/-- Putting a record that decodes to a representation puts the representation into the view. -/
theorem view_putRep (key : String) {rep : Representation} {value : Bytes} (h : Representation.ofStored value = .ok rep) :
    (records.applyWrite (.put (Representation.recordKey key) value)).view = records.view.setRep key rep := by
  ext1
  case rep =>
    funext key'
    by_cases hkey : key' = key
    · subst hkey
      simp [view, View.setRep, find?_put, h, Except.toOption]
    · simp [view, View.setRep, find?_put, hkey]
  all_goals
    funext name
    simp [view, View.setRep, find?_put, Revision.key, Transaction.key, Representation.recordKey, Counter.key,
      NodeRecord.key, Key.ofText_inj]

/-- Putting the record of a counter puts it into the view. -/
theorem view_putGlobal (name : String) (value : Bytes) :
    (records.applyWrite (.put (Counter.key name) value)).view = records.view.setGlobal name value := by
  ext1
  case global =>
    funext name'
    by_cases hname : name' = name
    · subst hname
      simp [view, View.setGlobal, find?_put]
    · simp [view, View.setGlobal, find?_put, hname]
  all_goals
    funext name'
    simp [view, View.setGlobal, find?_put, Revision.key, Transaction.key, Representation.recordKey, Counter.key,
      NodeRecord.key, Key.ofText_inj]

end Records

end VersionedTree

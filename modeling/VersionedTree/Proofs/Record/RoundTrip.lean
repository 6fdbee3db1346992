import VersionedTree.Proofs.Skel.RoundTrip
import VersionedTree.Record.Transaction

/-!
# Records — stored texts say what was stored

Every kind of record is decoded to what it was written for. The one condition is on node revisions: a flag that is not a
mutable flag must not look like one, and no file has the empty text as the key of its contents.

* **`NodeId.ofText?_text`** — an id is read back from its text, so no two ids share a record (**`text_injective`**).
* **`NodeRecord.storable_of_decode`** — the condition holds of every node revision that was read.
* **`NodeRecord.decode_encode`**, **`Revision.decode_encode`** and **`Transaction.decode_encode`** — the records.
* **`texts_tell_records_apart`** — no two skels, and no two records of any kind, have one text.
-/

namespace VersionedTree

/-! ## Node ids -/

namespace NodeId

/-- The parts of an id are read first, and what follows them goes on from the id. -/
theorem ofParts?_append (id : NodeId) : ∀ rest : List UInt64, ofParts? (id.parts ++ rest) = id.extend rest := by
  induction id with
  | first node revision =>
    intro rest
    rfl
  | fork base branch revision ih =>
    intro rest
    show ofParts? (base.parts ++ [branch, revision] ++ rest) = _
    rw [List.append_assoc, ih]
    rfl

/-- An id is read back from its parts. -/
theorem ofParts?_parts (id : NodeId) : ofParts? id.parts = some id := by
  have h := ofParts?_append id []
  rwa [List.append_nil] at h

/-- Every id has a part. -/
theorem parts_ne_nil (id : NodeId) : id.parts ≠ [] := by
  cases id <;> simp [parts]

/-- Numbers are read back from their texts, one by one. -/
theorem mapM_read? (parts : List UInt64) :
    (parts.map fun part => (Decimal.text part.toNat).toList).mapM Decimal.read? = some parts := by
  induction parts with
  | nil => rfl
  | cons part parts ih =>
    rw [List.map_cons, List.mapM_cons, Decimal.read?_text, ih]
    rfl

/-- **AN ID IS READ BACK** from its text. -/
theorem ofText?_text (id : NodeId) : ofText? id.text = some id := by
  have hdots : ∀ cs ∈ id.parts.map (fun part => (Decimal.text part.toNat).toList), '.' ∉ cs := by
    intro cs h
    obtain ⟨part, -, rfl⟩ := List.mem_map.1 h
    exact Decimal.dot_not_mem_text _
  have hne : id.parts.map (fun part => (Decimal.text part.toNat).toList) ≠ [] := by
    simpa using parts_ne_nil id
  rw [ofText?, text, String.toList_ofList, List.splitOn_intercalate '.' hdots hne, mapM_read?]
  exact ofParts?_parts id

/-- No two ids have the same text. -/
theorem text_injective {i j : NodeId} (h : i.text = j.text) : i = j := by
  have : some i = some j := by rw [← ofText?_text i, h, ofText?_text]
  exact Option.some.inj this

/-- An id is read back from its text. -/
@[simp] theorem parse_text (id : NodeId) : parse id.text = .ok id := by
  rw [parse, ofText?_text]

/-- The text of an id has a dot, which tells it from every key that a counter hands out. -/
theorem dot_mem_text (id : NodeId) : '.' ∈ id.text.toList := by
  rw [text, String.toList_ofList]
  have htwo : ∃ x y rest, id.parts = x :: y :: rest := by
    cases id with
    | first node revision => exact ⟨node, revision, [], rfl⟩
    | fork base branch revision =>
      cases h : base.parts with
      | nil => exact ⟨branch, revision, [], by rw [parts, h]; rfl⟩
      | cons x rest =>
        cases rest with
        | nil => exact ⟨x, branch, [revision], by rw [parts, h]; rfl⟩
        | cons y rest => exact ⟨x, y, rest ++ [branch, revision], by rw [parts, h]; rfl⟩
  obtain ⟨x, y, rest, h⟩ := htwo
  rw [h, List.map_cons, List.map_cons, List.intercalate_cons_cons]
  simp

/-- No id has the text of a key, since ids have a dot and keys have none. -/
theorem text_ne_keyAt (id : NodeId) (n : Nat) : id.text ≠ Base36.keyAt n := by
  intro h
  have hdot := dot_mem_text id
  rw [h] at hdot
  exact Base36.dot_not_mem_keyAt n hdot

end NodeId

/-! ## Parts of records -/

/-- A text is read back from its atom. -/
@[simp] theorem Skel.text_ofText (s : String) : (Skel.ofText s).text = .ok s := by
  simp [Skel.ofText, Skel.text]

/-- The atom of a text is taken for a name just if the text is that name. -/
theorem Skel.isText_ofText (s name : String) : (Skel.ofText s).isText name = decide (s = name) := by
  rw [Bool.eq_iff_iff]
  simp only [Skel.isText, Skel.ofText, Skel.atom?, beq_iff_eq, Option.some.injEq, decide_eq_true_eq]
  exact ⟨fun h => Text.toBytes_injective h, fun h => h ▸ rfl⟩

/-- Reading a list of parts that are read back one by one. -/
theorem mapM_ofSkel_toSkel {α : Type} {toSkel : α → Skel} {ofSkel : Skel → Except Malformed α} {xs : List α}
    (h : ∀ x ∈ xs, ofSkel (toSkel x) = .ok x) : (xs.map toSkel).mapM ofSkel = .ok xs := by
  induction xs with
  | nil => rfl
  | cons x xs ih =>
    rw [List.map_cons, List.mapM_cons, h x List.mem_cons_self, ih fun y hy => h y (List.mem_cons_of_mem _ hy)]
    rfl

namespace PropList

/-- Pairs are read back from the atoms that they are written as. -/
theorem pairsOfItems_toSkel (pairs : List (Bytes × Bytes)) :
    pairsOfItems (pairs.flatMap fun pair => [.atom pair.1, .atom pair.2]) = .ok pairs := by
  induction pairs with
  | nil => rfl
  | cons pair pairs ih =>
    rw [List.flatMap_cons, List.cons_append, List.cons_append, List.nil_append, pairsOfItems, ih]
    rfl

/-- A property list is read back from its skel. -/
@[simp] theorem ofSkel_toSkel (props : PropList) : ofSkel props.toSkel = .ok props := by
  have heven : (props.pairs.flatMap fun pair => [Skel.atom pair.1, Skel.atom pair.2]).length % 2 = 0 := by
    rw [List.length_flatMap]
    simp only [List.length_cons, List.length_nil, List.map_const', List.sum_replicate_nat]
    omega
  rw [toSkel, ofSkel, if_pos heven, pairsOfItems_toSkel]
  rfl

end PropList

/-- True of flags whose stored form is read back: a flag of another kind is a list that does not start as a mutable
    flag does. -/
def Flag.Storable : Flag → Prop
  | .mutable _ => True
  | .other (.atom _) => False
  | .other (.list []) => True
  | .other (.list (tag :: _)) => tag.isText mutableTag = false

/-- A flag that can be stored is read back from its skel. -/
theorem Flag.ofSkel_toSkel {flag : Flag} (h : flag.Storable) : ofSkel flag.toSkel = .ok flag := by
  cases flag with
  | «mutable» owner => simp [toSkel, ofSkel, Skel.isText_ofText]
  | other s =>
    cases s with
    | atom data => exact h.elim
    | list items =>
      cases items with
      | nil => rfl
      | cons tag rest =>
        have htag : tag.isText mutableTag = false := h
        simp [toSkel, ofSkel, htag]

/-- An entry is read back from its skel. -/
@[simp] theorem Entry.ofSkel_toSkel (entry : Entry) : ofSkel entry.toSkel = .ok entry := by
  simp [toSkel, ofSkel, bind, Except.bind, pure, Except.pure]

/-- True of bodies whose stored form is read back: the key of contents is not the empty text. -/
def Body.Storable : Body → Prop
  | .dir _ => True
  | .file contents => contents ≠ some ""

/-- True of node revisions whose stored form is read back. -/
structure NodeRevision.Storable (node : NodeRevision) : Prop where
  flags : ∀ flag ∈ node.flags, flag.Storable
  body : node.body.Storable

/-- A body that can be stored is read back from its kind and its skel. -/
theorem NodeRevision.bodyOfSkel_toSkel {body : Body} (h : body.Storable) :
    bodyOfSkel (.ofText body.kind.text) body.toSkel = .ok body := by
  cases body with
  | dir entries =>
    have hentries : (entries.map Entry.toSkel).mapM Entry.ofSkel = .ok entries :=
      mapM_ofSkel_toSkel fun entry _ => Entry.ofSkel_toSkel entry
    simp [bodyOfSkel, Body.kind, Kind.text, Skel.isText_ofText, Body.toSkel, Body.dirOfSkel, hentries]
  | file contents =>
    cases contents with
    | none => simp [bodyOfSkel, Body.kind, Kind.text, Skel.isText_ofText, Body.toSkel, Body.fileOfSkel, bind,
        Except.bind, pure, Except.pure]
    | some key =>
      have hne : key ≠ "" := fun heq => h (heq ▸ rfl)
      simp [bodyOfSkel, Body.kind, Kind.text, Skel.isText_ofText, Body.toSkel, Body.fileOfSkel, bind, Except.bind,
        pure, Except.pure, hne]

/-- A node revision that can be stored is read back from its skel. -/
theorem NodeRevision.ofSkel_toSkel {node : NodeRevision} (h : node.Storable) : ofSkel node.toSkel = .ok node := by
  have hflags : (node.flags.map Flag.toSkel).mapM Flag.ofSkel = .ok node.flags :=
    mapM_ofSkel_toSkel fun flag hflag => Flag.ofSkel_toSkel (h.flags flag hflag)
  have hbody : bodyOfSkel (.ofText node.kind.text) node.body.toSkel = .ok node.body := bodyOfSkel_toSkel h.body
  simp [toSkel, ofSkel, hflags, hbody, bind, Except.bind, pure, Except.pure]

/-! ## What is read can be stored -/

/-- A result that was changed comes from one before the change. -/
theorem exists_of_map_ok {α β : Type} {x : Except Malformed α} {f : α → β} {b : β} (h : f <$> x = .ok b) :
    ∃ a, x = .ok a ∧ f a = b := by
  cases x with
  | error e => cases h
  | ok a => exact ⟨a, rfl, Except.ok.inj h⟩

/-- Every part that is read comes from a part of the stored list. -/
theorem mem_of_mapM_ok {α : Type} {f : Skel → Except Malformed α} {items : List Skel} {xs : List α}
    (h : items.mapM f = .ok xs) : ∀ x ∈ xs, ∃ item, f item = .ok x := by
  induction items generalizing xs with
  | nil =>
    cases h
    intro x hx
    exact nomatch hx
  | cons item items ih =>
    rw [List.mapM_cons] at h
    obtain ⟨y, hitem, h⟩ := exists_of_bind_ok h
    obtain ⟨ys, hrest, h⟩ := exists_of_bind_ok h
    cases h
    intro x hx
    rcases List.mem_cons.1 hx with rfl | hx
    · exact ⟨item, hitem⟩
    · exact ih hrest x hx

/-- What is read as a flag is a mutable one with its owner, or a flag of another kind that is kept as it is. -/
theorem Flag.ofSkel_cases {s : Skel} {flag : Flag} (h : ofSkel s = .ok flag) :
    (∃ tag owner name, s = .list [tag, owner] ∧ tag.isText mutableTag = true ∧ owner.text = .ok name ∧
      flag = .mutable name) ∨ (flag = .other s ∧ flag.Storable) := by
  rcases s with data | (_ | ⟨tag, rest⟩)
  · cases h
  · cases h
    exact .inr ⟨rfl, trivial⟩
  · unfold ofSkel at h
    dsimp only at h
    split at h
    case isTrue htag =>
      split at h
      case h_1 owner =>
        obtain ⟨name, howner, rfl⟩ := exists_of_map_ok h
        exact .inl ⟨tag, owner, name, rfl, htag, howner, rfl⟩
      case h_2 => cases h
    case isFalse htag =>
      cases h
      exact .inr ⟨rfl, Bool.eq_false_iff.2 htag⟩

/-- A flag that was read can be stored. -/
theorem Flag.storable_of_ofSkel {s : Skel} {flag : Flag} (h : ofSkel s = .ok flag) : flag.Storable := by
  rcases ofSkel_cases h with ⟨tag, owner, name, -, -, -, rfl⟩ | ⟨-, hstorable⟩
  · trivial
  · exact hstorable

/-- What is read as a body is a list of entries, or the key of contents. -/
theorem NodeRevision.bodyOfSkel_cases {kind s : Skel} {body : Body} (h : bodyOfSkel kind s = .ok body) :
    (kind.isText Kind.dir.text = true ∧
      ∃ items entries, s = .list items ∧ items.mapM Entry.ofSkel = .ok entries ∧ body = .dir entries) ∨
    (kind.isText Kind.file.text = true ∧
      ∃ key, s.text = .ok key ∧ body = .file (if key = "" then none else some key)) := by
  rw [bodyOfSkel] at h
  split at h
  case isTrue hdir =>
    rcases s with data | items
    · cases h
    · obtain ⟨entries, hentries, rfl⟩ := exists_of_map_ok h
      exact .inl ⟨hdir, items, entries, rfl, hentries, rfl⟩
  case isFalse =>
    split at h
    case isTrue hfile =>
      obtain ⟨key, hkey, h⟩ := exists_of_bind_ok h
      cases h
      exact .inr ⟨hfile, key, hkey, rfl⟩
    case isFalse => cases h

/-- A body that was read can be stored. -/
theorem Body.storable_of_bodyOfSkel {kind s : Skel} {body : Body} (h : NodeRevision.bodyOfSkel kind s = .ok body) :
    body.Storable := by
  rcases NodeRevision.bodyOfSkel_cases h with ⟨-, items, entries, -, -, rfl⟩ | ⟨-, key, -, rfl⟩
  case inl => trivial
  case inr =>
    show (if key = "" then none else some key) ≠ some ""
    split
    case isTrue => exact nofun
    case isFalse hne => exact fun heq => hne (Option.some.inj heq)

/-- What is read as a node revision is a header with properties and flags, and a body that goes with its kind. -/
theorem NodeRevision.ofSkel_cases {s : Skel} {node : NodeRevision} (h : ofSkel s = .ok node) :
    ∃ kind props flags body, s = .list [.list (kind :: props :: flags), body] ∧
      PropList.ofSkel props = .ok node.props ∧ flags.mapM Flag.ofSkel = .ok node.flags ∧
      bodyOfSkel kind body = .ok node.body := by
  unfold ofSkel at h
  split at h
  case h_2 => cases h
  case h_1 header body =>
  split at h
  case h_2 => cases h
  case h_1 kind props flags =>
  obtain ⟨props', hprops, h⟩ := exists_of_bind_ok h
  obtain ⟨flags', hflags, h⟩ := exists_of_bind_ok h
  obtain ⟨body', hbody, h⟩ := exists_of_bind_ok h
  cases h
  exact ⟨kind, props, flags, body, rfl, hprops, hflags, hbody⟩

/-- A node revision that was read can be stored. -/
theorem NodeRevision.storable_of_ofSkel {s : Skel} {node : NodeRevision} (h : ofSkel s = .ok node) :
    node.Storable := by
  obtain ⟨kind, props, flags, body, -, -, hflags, hbody⟩ := ofSkel_cases h
  constructor
  case flags =>
    intro flag hflag
    obtain ⟨item, hitem⟩ := mem_of_mapM_ok hflags flag hflag
    exact Flag.storable_of_ofSkel hitem
  case body => exact Body.storable_of_bodyOfSkel hbody

/-- A node revision that was read can be stored again. -/
theorem NodeRecord.storable_of_decode {value : Bytes} {node : NodeRevision} (h : decode value = .ok node) :
    node.Storable := by
  rw [decode] at h
  obtain ⟨s, -, hs⟩ := exists_of_bind_ok h
  exact NodeRevision.storable_of_ofSkel hs

/-! ## Whole records -/

/-- **NODE RECORDS** say what was stored. -/
theorem NodeRecord.decode_encode {node : NodeRevision} (h : node.Storable) : decode (encode node) = .ok node := by
  rw [decode, encode, Skel.parse_print]
  exact NodeRevision.ofSkel_toSkel h

/-- A revision is read back from its skel. -/
theorem Revision.ofSkel_toSkel (revision : Revision) : ofSkel revision.toSkel = .ok revision := by
  simp [toSkel, ofSkel, Skel.isText_ofText, bind, Except.bind, pure, Except.pure]

/-- **REVISION RECORDS** say what was stored. -/
theorem Revision.decode_encode (revision : Revision) : decode (encode revision) = .ok revision := by
  rw [decode, encode, Skel.parse_print]
  exact ofSkel_toSkel revision

/-- A transaction is read back from its skel. -/
theorem Transaction.ofSkel_toSkel (txn : Transaction) : ofSkel txn.toSkel = .ok txn := by
  have hbase : baseOfText (Decimal.text txn.baseRevision.toNat) = .ok txn.baseRevision := by
    rw [baseOfText, Decimal.readSigned?_text]
  simp [toSkel, ofSkel, Skel.isText_ofText, hbase, bind, Except.bind, pure, Except.pure]

/-- **TRANSACTION RECORDS** say what was stored. -/
theorem Transaction.decode_encode (txn : Transaction) : decode (encode txn) = .ok txn := by
  rw [decode, encode, Skel.parse_print]
  exact ofSkel_toSkel txn

/-- The record of a number holds that number. -/
theorem Counter.number?_text (n : UInt64) : number? (Text.toBytes (Decimal.text n.toNat)) = some n := by
  rw [number?, Text.ofBytes?_toBytes]
  exact Decimal.readSigned?_text n

/-! ## Different records, different texts -/

/-- No two skels are printed alike, as each is read back from what is printed. -/
theorem Skel.print_injective : Function.Injective print := by
  intro s s' h
  have hparse := parse_print s
  rw [h, parse_print] at hparse
  exact (Except.ok.inj hparse).symm

/-- What is stored as a skel. -/
inductive Item where
  | node (record : NodeRevision)
  | revision (record : Revision)
  | transaction (record : Transaction)
deriving DecidableEq

namespace Item

/-- The stored form. -/
def toSkel : Item → Skel
  | .node record => record.toSkel
  | .revision record => record.toSkel
  | .transaction record => record.toSkel

/-- The stored text. -/
def encode : Item → Bytes
  | .node record => NodeRecord.encode record
  | .revision record => record.encode
  | .transaction record => record.encode

/-- True of what some stored text is read as. -/
def Stored : Item → Prop
  | .node record => ∃ value, NodeRecord.decode value = .ok record
  | .revision record => ∃ value, Revision.decode value = .ok record
  | .transaction record => ∃ value, Transaction.decode value = .ok record

/-- Reads a record of any kind, which its number of elements tells. -/
def ofSkel (s : Skel) : Except Malformed Item :=
  match s with
  | .list [_, _] => node <$> NodeRevision.ofSkel s
  | .list [_, _, _] => revision <$> Revision.ofSkel s
  | _ => transaction <$> Transaction.ofSkel s

/-- Every record is the print of its skel. -/
theorem encode_eq_print (item : Item) : item.encode = item.toSkel.print := by
  cases item <;> rfl

/-- An item that can be stored is read back from its skel. -/
theorem ofSkel_toSkel {item : Item} (h : item.Stored) : ofSkel item.toSkel = .ok item := by
  cases item with
  | node record =>
    obtain ⟨value, hvalue⟩ := h
    show node <$> NodeRevision.ofSkel record.toSkel = _
    rw [NodeRevision.ofSkel_toSkel (NodeRecord.storable_of_decode hvalue)]
    rfl
  | revision record =>
    show revision <$> Revision.ofSkel record.toSkel = _
    rw [Revision.ofSkel_toSkel]
    rfl
  | transaction record =>
    show transaction <$> Transaction.ofSkel record.toSkel = _
    rw [Transaction.ofSkel_toSkel]
    rfl

/-- Items that can be stored are told apart by their records. -/
theorem eq_of_encode_eq {item item' : Item} (hitem : item.Stored) (hitem' : item'.Stored)
    (h : item.encode = item'.encode) : item = item' := by
  rw [encode_eq_print, encode_eq_print] at h
  have hread : ofSkel item.toSkel = ofSkel item'.toSkel := congrArg ofSkel (Skel.print_injective h)
  rw [ofSkel_toSkel hitem, ofSkel_toSkel hitem'] at hread
  exact Except.ok.inj hread

end Item

/-- **TEXTS TELL RECORDS APART.** Every skel is read back from its text, so no two skels have one text, and no two
    records that a store can hold have one stored text. -/
theorem texts_tell_records_apart :
    (∀ s : Skel, Skel.parse s.print = .ok s) ∧ Function.Injective Skel.print ∧
      ∀ item item' : Item, item.Stored → item'.Stored → item ≠ item' → item.encode ≠ item'.encode :=
  ⟨Skel.parse_print, Skel.print_injective, fun _ _ hitem hitem' hne h => hne (Item.eq_of_encode_eq hitem hitem' h)⟩

/-- The records of a new file and of an empty directory differ. -/
theorem new_file_told_from_directory :
    (Item.node (.newMutable .file "0")).Stored ∧ (Item.node .emptyDir).Stored ∧
      (Item.node (.newMutable .file "0")).encode ≠ (Item.node .emptyDir).encode := by
  have hfile : (Item.node (.newMutable .file "0")).Stored := by
    refine ⟨NodeRecord.encode (.newMutable .file "0"), NodeRecord.decode_encode ⟨?_, nofun⟩⟩
    intro flag hflag
    cases List.mem_singleton.1 hflag
    trivial
  have hdir : (Item.node .emptyDir).Stored := ⟨NodeRecord.encode .emptyDir, NodeRecord.decode_encode ⟨nofun, trivial⟩⟩
  exact ⟨hfile, hdir, texts_tell_records_apart.2.2 _ _ hfile hdir (by decide)⟩

end VersionedTree

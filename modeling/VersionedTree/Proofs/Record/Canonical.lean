import VersionedTree.Proofs.Record.RoundTrip

/-!
# Canonical records — what was read is stored as it was read

The readers of node revisions accept nothing that the writers would not write, with one exception: the ids of directory
entries may have leading zeros in their components, and lose them when they are stored again.

* **`NodeId.exists_parts_iff`** — ids are the lists of components of an even number that is not zero.
* **`NodeId.text_of_ofText?`** — an id that was read is written without leading zeros.
* **`NodeRevision.toSkel_of_ofSkel`** — the exception, stated for a whole node revision: **`Skel.trimEntries`**.
* **`records_decode_as_written`** — both directions for node revisions, and the texts of the other records.
-/

namespace VersionedTree

/-! ## Ids -/

namespace NodeId

/-- An id that is extended has its parts first, and then the others. -/
theorem parts_of_extend {id id' : NodeId} {rest : List UInt64} (h : id.extend rest = some id') :
    id'.parts = id.parts ++ rest := by
  fun_induction extend id rest with
  | case1 id =>
    cases h
    rw [List.append_nil]
  | case2 => exact nomatch h
  | case3 id branch revision rest ih =>
    rw [ih h, parts, List.append_assoc]
    rfl

/-- An id has the parts that it was read from. -/
theorem parts_of_ofParts? {parts : List UInt64} {id : NodeId} (h : ofParts? parts = some id) : id.parts = parts := by
  rcases parts with _ | ⟨node, _ | ⟨revision, rest⟩⟩
  · exact nomatch h
  · exact nomatch h
  · exact parts_of_extend h

/-- Ids have an even number of parts. -/
theorem even_length_parts (id : NodeId) : id.parts.length % 2 = 0 := by
  induction id with
  | first node revision => simp [parts]
  | fork base branch revision ih =>
    rw [parts, List.length_append]
    show (base.parts.length + 2) % 2 = 0
    omega

/-- Any even number of parts extends an id. -/
theorem exists_extend {rest : List UInt64} (heven : rest.length % 2 = 0) (id : NodeId) :
    ∃ id', id.extend rest = some id' := by
  fun_induction extend id rest with
  | case1 id => exact ⟨id, rfl⟩
  | case2 => exact nomatch heven
  | case3 id branch revision rest ih =>
    simp only [List.length_cons] at heven
    exact ih (by omega)

/-- **COMPONENTS OF IDS** are the lists of an even number of components that is not zero. -/
theorem exists_parts_iff {parts : List UInt64} : (∃ id : NodeId, id.parts = parts) ↔
    parts ≠ [] ∧ parts.length % 2 = 0 := by
  constructor
  case mp =>
    rintro ⟨id, rfl⟩
    exact ⟨parts_ne_nil id, even_length_parts id⟩
  case mpr =>
    rintro ⟨hne, heven⟩
    rcases parts with _ | ⟨node, _ | ⟨revision, rest⟩⟩
    · exact absurd rfl hne
    · exact nomatch heven
    · simp only [List.length_cons] at heven
      obtain ⟨id, hid⟩ := exists_extend (show rest.length % 2 = 0 by omega) (first node revision)
      exact ⟨id, parts_of_extend hid⟩

/-- A text of components joined by dots, each without its leading zeros. -/
def trim (s : String) : String :=
  String.ofList (['.'].intercalate ((s.toList.splitOn '.').map Decimal.dropLeadingZeros))

/-- The numbers that were read are written without leading zeros. -/
theorem map_text_of_mapM_read? {runs : List (List Char)} {parts : List UInt64}
    (h : runs.mapM Decimal.read? = some parts) :
    parts.map (fun part => (Decimal.text part.toNat).toList) = runs.map Decimal.dropLeadingZeros := by
  induction runs generalizing parts with
  | nil =>
    cases h
    rfl
  | cons run runs ih =>
    rw [List.mapM_cons] at h
    obtain ⟨part, hpart, h⟩ := Option.bind_eq_some_iff.1 h
    obtain ⟨rest, hrest, h⟩ := Option.bind_eq_some_iff.1 h
    cases h
    rw [List.map_cons, List.map_cons, Decimal.toList_text_of_read? hpart, ih hrest]

/-- **AN ID THAT WAS READ** is written without leading zeros. -/
theorem text_of_ofText? {s : String} {id : NodeId} (h : ofText? s = some id) : id.text = trim s := by
  obtain ⟨parts, hparts, hid⟩ := Option.bind_eq_some_iff.1 h
  rw [text, trim, parts_of_ofParts? hid, map_text_of_mapM_read? hparts]

/-- An id is written as the text that it was read from, without leading zeros. -/
theorem text_of_parse {s : String} {id : NodeId} (h : parse s = .ok id) : id.text = trim s := by
  rw [parse] at h
  split at h
  case h_1 id' hid =>
    cases h
    exact text_of_ofText? hid
  case h_2 => cases h

end NodeId

/-! ## Parts of node revisions -/

/-- A text has the bytes that it was read from. -/
theorem Text.toBytes_of_ofBytes? {data : Bytes} {s : String} (h : ofBytes? data = some s) : toBytes s = data := by
  rw [ofBytes?, String.fromUTF8?] at h
  split at h
  case isTrue =>
    cases h
    rfl
  case isFalse => cases h

/-- A skel that is a text is the atom of that text. -/
theorem Skel.eq_ofText_of_text {s : Skel} {name : String} (h : s.text = .ok name) : s = .ofText name := by
  cases s with
  | list items => cases h
  | atom data =>
    rw [Skel.text] at h
    split at h
    case h_1 name' hname =>
      cases h
      rw [ofText, Text.toBytes_of_ofBytes? hname]
    case h_2 => cases h

/-- A skel that is taken for a name is the atom of that name. -/
theorem Skel.eq_ofText_of_isText {s : Skel} {name : String} (h : s.isText name = true) : s = .ofText name := by
  cases s with
  | list items => cases h
  | atom data =>
    have hdata : data = Text.toBytes name := by simpa [isText, atom?] using h
    rw [ofText, hdata]

/-- Parts that are stored as they were read, one by one, but for `canon`. -/
theorem map_toSkel_of_mapM {α : Type} {toSkel : α → Skel} {ofSkel : Skel → Except Malformed α} {canon : Skel → Skel}
    (hpart : ∀ {s x}, ofSkel s = .ok x → toSkel x = canon s) {items : List Skel} {xs : List α}
    (h : items.mapM ofSkel = .ok xs) : xs.map toSkel = items.map canon := by
  induction items generalizing xs with
  | nil =>
    cases h
    rfl
  | cons item items ih =>
    rw [List.mapM_cons] at h
    obtain ⟨x, hitem, h⟩ := exists_of_bind_ok h
    obtain ⟨rest, hrest, h⟩ := exists_of_bind_ok h
    cases h
    rw [List.map_cons, List.map_cons, hpart hitem, ih hrest]

/-- Pairs are written as the atoms that they were read from. -/
theorem PropList.items_of_pairsOfItems {items : List Skel} {pairs : List (Bytes × Bytes)}
    (h : pairsOfItems items = .ok pairs) : (pairs.flatMap fun pair => [Skel.atom pair.1, Skel.atom pair.2]) = items := by
  fun_induction pairsOfItems items generalizing pairs with
  | case1 =>
    cases h
    rfl
  | case2 name value rest ih =>
    obtain ⟨pairs', hpairs, h⟩ := exists_of_bind_ok h
    cases h
    rw [List.flatMap_cons, ih hpairs]
    rfl
  | case3 => cases h

/-- A property list is written as the skel that it was read from. -/
theorem PropList.toSkel_of_ofSkel {s : Skel} {props : PropList} (h : ofSkel s = .ok props) : props.toSkel = s := by
  rcases s with data | items
  · cases h
  · rw [ofSkel] at h
    split at h
    case isTrue =>
      obtain ⟨pairs, hpairs, rfl⟩ := exists_of_map_ok h
      rw [toSkel, items_of_pairsOfItems hpairs]
    case isFalse => cases h

/-- A flag is written as the skel that it was read from. -/
theorem Flag.toSkel_of_ofSkel {s : Skel} {flag : Flag} (h : ofSkel s = .ok flag) : flag.toSkel = s := by
  rcases ofSkel_cases h with ⟨tag, owner, name, rfl, htag, howner, rfl⟩ | ⟨rfl, -⟩
  · rw [toSkel, Skel.eq_ofText_of_isText htag, Skel.eq_ofText_of_text howner]
  · rfl

/-- An atom that holds an id, without the leading zeros of its components. -/
def Skel.trimId (s : Skel) : Skel :=
  match s.text with
  | .ok id => .ofText (NodeId.trim id)
  | .error _ => s

/-- A stored entry with its id so trimmed. -/
def Skel.trimEntry : Skel → Skel
  | .list [name, id] => .list [name, id.trimId]
  | s => s

/-- The stored body of a node revision, with the ids so trimmed if it is that of a directory. -/
def Skel.trimBody : Skel → Skel
  | .list entries => .list (entries.map trimEntry)
  | s => s

/-- A stored node revision with the ids in its body so trimmed. -/
def Skel.trimEntries : Skel → Skel
  | .list [header, body] => .list [header, body.trimBody]
  | s => s

/-- An entry is written as the skel that it was read from, but for leading zeros in its id. -/
theorem Entry.toSkel_of_ofSkel {s : Skel} {entry : Entry} (h : ofSkel s = .ok entry) : entry.toSkel = s.trimEntry := by
  unfold ofSkel at h
  split at h
  case h_2 => cases h
  case h_1 name id =>
    obtain ⟨name', hname, h⟩ := exists_of_bind_ok h
    obtain ⟨text, htext, h⟩ := exists_of_bind_ok h
    obtain ⟨id', hid, h⟩ := exists_of_bind_ok h
    cases h
    rw [toSkel, Skel.trimEntry, Skel.trimId, htext, ← Skel.eq_ofText_of_text hname, NodeId.text_of_parse hid]

/-- The word for its kind goes with a body that was read. -/
theorem NodeRevision.toSkel_of_bodyOfSkel {kind s : Skel} {body : Body} (h : bodyOfSkel kind s = .ok body) :
    .ofText body.kind.text = kind ∧ body.toSkel = s.trimBody := by
  rcases bodyOfSkel_cases h with ⟨hdir, items, entries, rfl, hentries, rfl⟩ | ⟨hfile, key, hkey, rfl⟩
  case inl =>
    rw [Skel.eq_ofText_of_isText hdir, Body.toSkel, map_toSkel_of_mapM Entry.toSkel_of_ofSkel hentries]
    exact ⟨rfl, rfl⟩
  case inr =>
    have hcontents : (if key = "" then none else some key).getD "" = key := by
      split
      case isTrue hempty => exact hempty.symm
      case isFalse => rfl
    rw [Skel.eq_ofText_of_isText hfile, Body.toSkel, hcontents, Skel.eq_ofText_of_text hkey]
    exact ⟨rfl, rfl⟩

/-! ## Whole records -/

/-- **NODE REVISIONS ARE STORED AS THEY WERE READ**, but for leading zeros in the ids of entries. -/
theorem NodeRevision.toSkel_of_ofSkel {s : Skel} {node : NodeRevision} (h : ofSkel s = .ok node) :
    node.toSkel = s.trimEntries := by
  obtain ⟨kind, props, flags, body, rfl, hprops, hflags, hbody⟩ := ofSkel_cases h
  obtain ⟨hkind, hbody⟩ := toSkel_of_bodyOfSkel hbody
  have hflags : node.flags.map Flag.toSkel = flags.map id := map_toSkel_of_mapM Flag.toSkel_of_ofSkel hflags
  rw [toSkel, PropList.toSkel_of_ofSkel hprops, hflags, List.map_id, hbody]
  exact congrArg (fun kind => Skel.list [.list (kind :: props :: flags), body.trimBody]) hkind

/-- **RECORDS DECODE AS WRITTEN.** The text of a node revision is read as that node revision, whatever its ids are,
    unless a flag of another kind is no list or looks like a mutable one, or the key of a file is empty; no node revision
    is ever read that has such a flag or key; and what was read is stored as it was, but for leading zeros in the ids of
    entries. The texts of revisions and transactions are read as what they were written for. -/
theorem records_decode_as_written :
    (∀ parts : List UInt64, (∃ id : NodeId, id.parts = parts) ↔ parts ≠ [] ∧ parts.length % 2 = 0) ∧
      (∀ node : NodeRevision, node.Storable → NodeRecord.decode (NodeRecord.encode node) = .ok node) ∧
      (∀ s node, NodeRevision.ofSkel s = .ok node → node.Storable ∧ node.toSkel = s.trimEntries) ∧
      (∀ revision : Revision, Revision.decode revision.encode = .ok revision) ∧
      ∀ txn : Transaction, Transaction.decode txn.encode = .ok txn :=
  ⟨fun _ => NodeId.exists_parts_iff, fun _ => NodeRecord.decode_encode,
    fun _ _ h => ⟨NodeRevision.storable_of_ofSkel h, NodeRevision.toSkel_of_ofSkel h⟩,
    Revision.decode_encode, Transaction.decode_encode⟩

/-- The stored form of a directory that a transaction may change, with a flag of another kind and an entry whose id has
    leading zeros. -/
def paddedDirectory : Skel :=
  .list [
    .list [.ofText "dir", .list [], .list [.ofText "mutable", .ofText "0"], .list [.ofText "stable"]],
    .list [.list [.ofText "a", .ofText "04.010"], .list [.ofText "b", .ofText "5.1.00.2"]]]

/-- What that directory is read as. -/
def paddedDirectoryNode : NodeRevision where
  props := .empty
  flags := [.mutable "0", .other (.list [.ofText "stable"])]
  body := .dir [⟨"a", .first 4 10⟩, ⟨"b", .fork (.first 5 1) 0 2⟩]

/-- The directory is stored with other ids than it was read with, and read back nevertheless. -/
theorem padded_directory_trimmed :
    NodeRevision.ofSkel paddedDirectory = .ok paddedDirectoryNode ∧
      paddedDirectoryNode.toSkel = paddedDirectory.trimEntries ∧ paddedDirectory.trimEntries ≠ paddedDirectory ∧
      NodeRecord.decode (NodeRecord.encode paddedDirectoryNode) = .ok paddedDirectoryNode := by
  have hread : NodeRevision.ofSkel paddedDirectory = .ok paddedDirectoryNode := by decide
  obtain ⟨hstorable, hskel⟩ := records_decode_as_written.2.2.1 _ _ hread
  exact ⟨hread, hskel, by decide, records_decode_as_written.2.1 _ hstorable⟩

end VersionedTree

import VersionedTree.Proofs.Tree.Edit

/-!
# Consistent — what holds of the records at all times

A mutable node names its owner: the directory that has an entry for it, or the transaction whose root it is. Everything
else follows from that. No two things can own a node, so a mutable node is found in one place only, and what lies below
an immutable directory is immutable.

* **`View.Consistent`** — the invariant.
* **`Consistent.immutable_child`** and **`Consistent.owner_of_txnRoot`** — what it says of children and of roots.
* **`Consistent.not_editable_of_txn`** — two transactions never reach the root of one another.
* **`Consistent.txnName_free`** and its siblings — the next names and numbers were never used.
-/

namespace VersionedTree

namespace NodeRevision

/-- A node with a mutable flag is mutable. -/
theorem isMutable_of_flags {node : NodeRevision} {owner : String} (h : node.flags = [.mutable owner]) :
    node.isMutable = true := by
  simp [isMutable, h, Flag.isMutable]

/-- Nodes with the same flags are both mutable, or neither is. -/
theorem isMutable_congr {node node' : NodeRevision} (h : node.flags = node'.flags) : node.isMutable = node'.isMutable := by
  rw [isMutable, h, isMutable]

/-- The children of a directory are its entries. -/
theorem children_of_dir {node : NodeRevision} {entries : List Entry} (h : node.body = .dir entries) :
    node.children = entries := by
  simp [children, entries?, h]

/-- A node that says that it is a directory has entries. -/
theorem body_of_kind_dir {node : NodeRevision} (hkind : node.kind = .dir) : ∃ entries, node.body = .dir entries := by
  unfold kind at hkind
  cases hbody : node.body with
  | dir entries => exact ⟨entries, rfl⟩
  | file contents =>
    rw [hbody] at hkind
    cases hkind

/-- A node that says that it is a file has contents, or none yet. -/
theorem body_of_kind_file {node : NodeRevision} (hkind : node.kind = .file) : ∃ contents, node.body = .file contents := by
  unfold kind at hkind
  cases hbody : node.body with
  | file contents => exact ⟨contents, rfl⟩
  | dir entries =>
    rw [hbody] at hkind
    cases hkind

end NodeRevision

namespace Counter

/-- If the keys that were used are those before the one that a counter holds, then that one is free, and the counter
    moves on to the one after it. -/
theorem nextKey_free {α : Type} {records : String → Option α} {value : Option Bytes} {key next : String}
    (hused : ∃ n, currentKey value = .ok (Base36.keyAt n) ∧
      ∀ other, records other ≠ none → ∃ k < n, other = Base36.keyAt k)
    (hkey : currentKey value = .ok key) (hnext : Base36.next? key = some next) :
    records key = none ∧ ∃ n, key = Base36.keyAt n ∧ next = Base36.keyAt (n + 1) ∧
      ∀ other, records other ≠ none → ∃ k < n, other = Base36.keyAt k := by
  obtain ⟨n, hcounter, hused⟩ := hused
  cases hkey.symm.trans hcounter
  cases hnext.symm.trans (Base36.next?_keyAt n)
  refine ⟨?_, n, rfl, rfl, hused⟩
  refine Classical.byContradiction fun hsome => ?_
  obtain ⟨k, hlt, hsame⟩ := hused _ hsome
  exact absurd (Base36.keyAt_injective hsame) (Nat.ne_of_gt hlt)

/-- The keys before the next one are those before this one, and this one. -/
theorem keyAt_lt_succ {n : Nat} {key : String} (h : key = Base36.keyAt n ∨ ∃ k < n, key = Base36.keyAt k) :
    ∃ k < n + 1, key = Base36.keyAt k := by
  rcases h with heq | ⟨k, hlt, heq⟩
  · exact ⟨n, Nat.lt_succ_self n, heq⟩
  · exact ⟨k, Nat.lt_succ_of_lt hlt, heq⟩

/-- A counter that has a number left does not wrap around. -/
theorem toNat_succ {n : UInt64} (hleft : n.toNat + 1 < UInt64.size) : (n + 1).toNat = n.toNat + 1 := by
  rw [UInt64.toNat_add, UInt64.toNat_one]
  exact Nat.mod_eq_of_lt hleft

end Counter

namespace View

/-- True if every directory has a higher rank than what its entries stand for. -/
def Ranked (v : View) (rank : NodeId → Nat) : Prop :=
  ∀ dir id, v.Links dir id → rank id < rank dir

/-- What holds of the records of a filesystem at all times. -/
structure Consistent (v : View) : Prop where
  /-- No node has any flag but one mutable flag. -/
  flags : ∀ {id node}, v.node id = some node → node.flags = [] ∨ ∃ owner, node.flags = [.mutable owner]
  /-- Entries stand for nodes that are there. -/
  closed : ∀ {dir id}, v.Links dir id → v.node id ≠ none
  /-- Only a mutable directory has a mutable child. -/
  mutable_of_child : ∀ {dir id}, v.Links dir id → v.IsMutable id → v.IsMutable dir
  /-- A directory owns its mutable children. -/
  owner : ∀ {dir id node}, v.Links dir id → v.node id = some node → node.isMutable = true →
    node.flags = [.mutable dir.text]
  /-- No two entries of one directory stand for the same mutable node. -/
  single : ∀ {dir node}, v.node dir = some node →
    node.children.Pairwise fun e e' => e.id = e'.id → ¬ v.IsMutable e.id
  /-- A transaction starts from the root of its base revision. -/
  txnBase : ∀ {name txn}, v.txn name = some txn →
    ∃ revision, v.revision txn.baseRevision = some revision ∧ revision.root = txn.baseRoot
  /-- The root of a transaction is still that one, or a node that the transaction owns. -/
  txnRoot : ∀ {name txn}, v.txn name = some txn →
    txn.root = txn.baseRoot ∨ ∃ node, v.node txn.root = some node ∧ node.flags = [.mutable name]
  /-- The root of a revision is an immutable node. -/
  revisionRoot : ∀ {number revision}, v.revision number = some revision →
    ∃ node, v.node revision.root = some node ∧ node.isMutable = false
  /-- Revisions are numbered up to the youngest one. -/
  youngest : ∃ youngest, v.number Counter.youngest = some youngest ∧
    ∀ number, v.revision number ≠ none ↔ number ≤ youngest
  /-- The next name of a transaction was never used. -/
  txnNames : ∃ n, Counter.currentKey (v.global Counter.nextTransaction) = .ok (Base36.keyAt n) ∧
    ∀ name, v.txn name ≠ none → ∃ k < n, name = Base36.keyAt k
  /-- The next key of a representation was never used. -/
  repKeys : ∃ n, Counter.currentKey (v.global Counter.nextRepresentation) = .ok (Base36.keyAt n) ∧
    ∀ key, v.rep key ≠ none → ∃ k < n, key = Base36.keyAt k
  /-- The contents of every file can be read. -/
  backed : v.Backed
  /-- Entries do not lead in circles. -/
  ranked : ∃ rank, v.Ranked rank

variable {v : View} {id dir : NodeId} {node m : NodeRevision}

namespace Consistent

/-! ## Flags and children -/

/-- A node is mutable just if it has a mutable flag, and then that is its only flag. -/
theorem flags_of_mutable (h : v.Consistent) (hnode : v.node id = some node) (hmutable : node.isMutable = true) :
    ∃ owner, node.flags = [.mutable owner] := by
  rcases h.flags hnode with hflags | howner
  · simp [NodeRevision.isMutable, hflags] at hmutable
  · exact howner

/-- An immutable node has no flags at all. -/
theorem flags_of_immutable (h : v.Consistent) (hnode : v.node id = some node) (himmutable : node.isMutable = false) :
    node.flags = [] := by
  rcases h.flags hnode with hflags | ⟨owner, hflags⟩
  · exact hflags
  · exact nomatch himmutable.symm.trans (NodeRevision.isMutable_of_flags hflags)

/-- The children of an immutable directory are there, and immutable. -/
theorem immutable_child (h : v.Consistent) (hnode : v.node dir = some node) (himmutable : node.isMutable = false)
    (hlink : v.Links dir id) : ∃ child, v.node id = some child ∧ child.isMutable = false := by
  obtain ⟨child, hchild⟩ := Option.ne_none_iff_exists'.1 (h.closed hlink)
  refine ⟨child, hchild, Bool.eq_false_iff.2 fun hmutable => ?_⟩
  exact not_isMutable hnode himmutable (h.mutable_of_child hlink ⟨child, hchild, hmutable⟩)

/-- The root that a transaction starts from is immutable. -/
theorem baseRoot_immutable (h : v.Consistent) {name : String} {txn : Transaction} (htxn : v.txn name = some txn) :
    ∃ base, v.node txn.baseRoot = some base ∧ base.isMutable = false := by
  obtain ⟨revision, hrevision, hroot⟩ := h.txnBase htxn
  obtain ⟨base, hbase, himmutable⟩ := h.revisionRoot hrevision
  exact ⟨base, hroot ▸ hbase, himmutable⟩

/-- The root of a transaction is there. -/
theorem txnRoot_exists (h : v.Consistent) {name : String} {txn : Transaction} (htxn : v.txn name = some txn) :
    v.node txn.root ≠ none := by
  rcases h.txnRoot htxn with hroot | ⟨node, hnode, -⟩
  · obtain ⟨base, hbase, -⟩ := h.baseRoot_immutable htxn
    rw [hroot, hbase]
    exact nofun
  · rw [hnode]
    exact nofun

/-! ## Owners -/

/-- The owner of a mutable node is the directory that leads to it, so no transaction is. -/
theorem txn_not_owner_of_link (h : v.Consistent) (hlink : v.Links dir id) (hnode : v.node id = some node)
    {name : String} (hname : v.txn name ≠ none) : node.flags ≠ [.mutable name] := by
  intro hflags
  have howner := h.owner hlink hnode (NodeRevision.isMutable_of_flags hflags)
  obtain ⟨n, -, hused⟩ := h.txnNames
  obtain ⟨k, -, rfl⟩ := hused name hname
  have hsame : Base36.keyAt k = dir.text := by simpa using hflags.symm.trans howner
  exact NodeId.text_ne_keyAt dir k hsame.symm

/-- The root of a transaction that is mutable belongs to the transaction. -/
theorem owner_of_txnRoot (h : v.Consistent) {name : String} {txn : Transaction} (htxn : v.txn name = some txn)
    (hnode : v.node txn.root = some node) (hmutable : node.isMutable = true) : node.flags = [.mutable name] := by
  rcases h.txnRoot htxn with hroot | ⟨node', hnode', hflags⟩
  · obtain ⟨base, hbase, himmutable⟩ := h.baseRoot_immutable htxn
    exact absurd ⟨node, hroot ▸ hnode, hmutable⟩ (not_isMutable hbase himmutable)
  · cases hnode.symm.trans hnode'
    exact hflags

/-- A transaction does not reach the root of another one, so both can be edited at once. -/
theorem not_editable_of_txn (h : v.Consistent) {name other : String} {txn txn' : Transaction}
    (htxn : v.txn name = some txn) (hother : v.txn other = some txn') (hne : other ≠ name)
    (hroot : txn'.root ≠ txn'.baseRoot) : ¬ v.Editable txn.root txn'.root := by
  intro hreach
  obtain ⟨node, hnode, hflags⟩ := (h.txnRoot hother).resolve_left hroot
  generalize txn'.root = root at *
  cases hreach with
  | root hmutable =>
    -- the transactions have one root, which both would own
    obtain ⟨node', hnode', hmutable'⟩ := hmutable
    cases hnode.symm.trans hnode'
    cases hflags.symm.trans (h.owner_of_txnRoot htxn hnode hmutable')
    exact hne rfl
  | child _ hlink _ =>
    -- a directory leads to the root, which a transaction owns
    exact h.txn_not_owner_of_link hlink hnode (hother ▸ nofun) hflags

/-! ## What comes next -/

/-- The counter of transaction names holds the next name, and moves on. -/
theorem txnName_free (h : v.Consistent) {name next : String}
    (hname : Counter.currentKey (v.global Counter.nextTransaction) = .ok name) (hnext : Base36.next? name = some next) :
    v.txn name = none ∧ ∃ n, name = Base36.keyAt n ∧ next = Base36.keyAt (n + 1) ∧
      ∀ other, v.txn other ≠ none → ∃ k < n, other = Base36.keyAt k :=
  Counter.nextKey_free h.txnNames hname hnext

/-- The counter of representation keys holds the next key, and moves on. -/
theorem repKey_free (h : v.Consistent) {key next : String}
    (hkey : Counter.currentKey (v.global Counter.nextRepresentation) = .ok key) (hnext : Base36.next? key = some next) :
    v.rep key = none ∧ ∃ n, key = Base36.keyAt n ∧ next = Base36.keyAt (n + 1) ∧
      ∀ other, v.rep other ≠ none → ∃ k < n, other = Base36.keyAt k :=
  Counter.nextKey_free h.repKeys hkey hnext

/-- The number after the youngest revision is free. -/
theorem nextRevision_free (h : v.Consistent) {youngest : UInt64} (hyoungest : v.number Counter.youngest = some youngest)
    (hleft : youngest.toNat + 1 < UInt64.size) : v.revision (youngest + 1) = none := by
  obtain ⟨youngest', hyoungest', hall⟩ := h.youngest
  cases hyoungest.symm.trans hyoungest'
  refine Classical.byContradiction fun hsome => ?_
  have hle := UInt64.le_iff_toNat_le.1 ((hall _).1 hsome)
  rw [Counter.toNat_succ hleft] at hle
  omega

end Consistent

end View

end VersionedTree

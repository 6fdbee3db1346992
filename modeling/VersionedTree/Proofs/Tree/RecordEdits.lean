import VersionedTree.Proofs.Tree.Consistent

/-!
# RecordEdits — numbers, transactions and revisions

What changes no node: counters move on, transactions begin, get a root of their own and end, and revisions follow one
another.

* **`Consistent.beginTxn`**, **`Consistent.setTxnRoot`** and **`Consistent.closeTxn`** — transactions.
* **`Consistent.addRep`** and **`Consistent.addRevision`** — what is added under the next key or number.
-/

namespace VersionedTree.View

variable {v : View} {id : NodeId} {node : NodeRevision}

/-- Files stay backed if nodes are the same and no representation is lost. -/
theorem Backed.of_reps {w : View} (h : v.Backed) (hnode : w.node = v.node)
    (hreps : ∀ key rep, v.rep key = some rep → w.rep key = some rep) : w.Backed := by
  intro id' node' hnode' key hbody
  rw [hnode] at hnode'
  obtain ⟨data, n, hholds⟩ := h id' node' hnode' key hbody
  exact ⟨data, n, hholds.mono hreps⟩

/-- A transaction that is open after one was put is that one, or was open before. -/
theorem txn_setTxn_cases {name other : String} {txn txn' : Transaction}
    (h : (v.setTxn name (some txn)).txn other = some txn') : (other = name ∧ txn' = txn) ∨ v.txn other = some txn' := by
  by_cases heq : other = name
  · subst heq
    exact .inl ⟨rfl, by simpa using h.symm⟩
  · exact .inr (by simpa [heq] using h)

namespace Consistent

/-- The next node number may be anything. -/
theorem setNextNode (h : v.Consistent) (n : UInt64) : (v.setNumber Counter.nextNode n).Consistent := by
  have hne : Counter.youngest ≠ Counter.nextNode ∧ Counter.nextTransaction ≠ Counter.nextNode ∧
      Counter.nextRepresentation ≠ Counter.nextNode := by decide
  exact {
    h with
    youngest := by simpa [number, hne.1] using h.youngest
    txnNames := by simpa [hne.2.1] using h.txnNames
    repKeys := by simpa [hne.2.2] using h.repKeys
    backed := h.backed.of_reps rfl fun _ _ hrep => hrep }

/-- An open transaction gets a root that it owns. -/
theorem setTxnRoot (h : v.Consistent) {name : String} {txn : Transaction} (htxn : v.txn name = some txn)
    (hnode : v.node id = some node) (hflags : node.flags = [.mutable name]) :
    (v.setTxn name (some { txn with root := id })).Consistent := by
  exact {
    h with
    txnBase := by
      intro other txn' hother
      rcases txn_setTxn_cases hother with ⟨rfl, rfl⟩ | hold
      · obtain ⟨revision, hrevision, hroot⟩ := h.txnBase htxn
        exact ⟨revision, hrevision, hroot⟩
      · exact h.txnBase hold
    txnRoot := by
      intro other txn' hother
      rcases txn_setTxn_cases hother with ⟨rfl, rfl⟩ | hold
      · exact .inr ⟨node, hnode, hflags⟩
      · exact h.txnRoot hold
    txnNames := by
      obtain ⟨n, hcounter, hused⟩ := h.txnNames
      refine ⟨n, hcounter, fun other hother => ?_⟩
      obtain ⟨txn', htxn'⟩ := Option.ne_none_iff_exists'.1 hother
      rcases txn_setTxn_cases htxn' with ⟨rfl, -⟩ | hold
      · exact hused _ (htxn ▸ nofun)
      · exact hused _ (hold ▸ nofun)
    backed := h.backed.of_reps rfl fun _ _ hrep => hrep }

/-- A transaction is gone, and its name stays used. -/
theorem closeTxn (h : v.Consistent) (name : String) : (v.setTxn name none).Consistent := by
  have hold : ∀ {other txn'}, (v.setTxn name none).txn other = some txn' → v.txn other = some txn' := by
    intro other txn' hother
    by_cases heq : other = name
    · simp [heq] at hother
    · simpa [heq] using hother
  exact {
    h with
    txnBase := fun hother => h.txnBase (hold hother)
    txnRoot := fun hother => h.txnRoot (hold hother)
    txnNames := by
      obtain ⟨n, hcounter, hused⟩ := h.txnNames
      refine ⟨n, hcounter, fun other hother => ?_⟩
      obtain ⟨txn', htxn'⟩ := Option.ne_none_iff_exists'.1 hother
      exact hused _ (hold htxn' ▸ nofun)
    backed := h.backed.of_reps rfl fun _ _ hrep => hrep }

/-- A transaction begins at the root of its base revision. -/
theorem beginTxn (h : v.Consistent) {base : UInt64} {revision : Revision} {name next : String}
    (hrevision : v.revision base = some revision)
    (hname : Counter.currentKey (v.global Counter.nextTransaction) = .ok name) (hnext : Base36.next? name = some next) :
    ((v.setGlobal Counter.nextTransaction (Text.toBytes next)).setTxn name
      (some ⟨revision.root, revision.root, base⟩)).Consistent := by
  -- the name is the numeral of the counter, and all names in use are below it
  obtain ⟨-, n, rfl, rfl, hused⟩ := h.txnName_free hname hnext
  have hne : Counter.youngest ≠ Counter.nextTransaction ∧ Counter.nextRepresentation ≠ Counter.nextTransaction := by
    decide
  exact {
    h with
    txnBase := by
      intro other txn' hother
      rcases txn_setTxn_cases hother with ⟨rfl, rfl⟩ | hold
      · exact ⟨revision, hrevision, rfl⟩
      · exact h.txnBase hold
    txnRoot := by
      intro other txn' hother
      rcases txn_setTxn_cases hother with ⟨rfl, rfl⟩ | hold
      · exact .inl rfl
      · exact h.txnRoot hold
    youngest := by simpa [number, hne.1] using h.youngest
    txnNames := by
      refine ⟨n + 1, by simp [Counter.currentKey], fun other hother => ?_⟩
      obtain ⟨txn', htxn'⟩ := Option.ne_none_iff_exists'.1 hother
      rcases txn_setTxn_cases htxn' with ⟨rfl, -⟩ | hold
      · exact Counter.keyAt_lt_succ (.inl rfl)
      · exact Counter.keyAt_lt_succ (.inr (hused other (Option.ne_none_iff_exists'.2 ⟨_, hold⟩)))
    repKeys := by simpa [hne.2] using h.repKeys
    backed := h.backed.of_reps rfl fun _ _ hrep => hrep }

/-- A representation is added under the next key. -/
theorem addRep (h : v.Consistent) {key next : String} (rep : Representation)
    (hkey : Counter.currentKey (v.global Counter.nextRepresentation) = .ok key) (hnext : Base36.next? key = some next) :
    ((v.setGlobal Counter.nextRepresentation (Text.toBytes next)).setRep key rep).Consistent := by
  obtain ⟨hfree, n, rfl, rfl, hused⟩ := h.repKey_free hkey hnext
  have hne : Counter.youngest ≠ Counter.nextRepresentation ∧ Counter.nextTransaction ≠ Counter.nextRepresentation := by
    decide
  exact {
    h with
    youngest := by simpa [number, hne.1] using h.youngest
    txnNames := by simpa [hne.2] using h.txnNames
    repKeys := by
      refine ⟨n + 1, by simp [Counter.currentKey], fun other hother => ?_⟩
      by_cases heq : other = Base36.keyAt n
      · exact Counter.keyAt_lt_succ (.inl heq)
      · exact Counter.keyAt_lt_succ (.inr (hused other (by simpa [heq] using hother)))
    backed := h.backed.of_reps rfl fun _ _ hother => rep_setRep_of_free hfree hother }

/-- A revision with an immutable root follows the youngest one. -/
theorem addRevision (h : v.Consistent) {youngest : UInt64} {revision : Revision}
    (hyoungest : v.number Counter.youngest = some youngest) (hleft : youngest.toNat + 1 < UInt64.size)
    (hroot : v.node revision.root = some node) (himmutable : node.isMutable = false) :
    ((v.setRevision (youngest + 1) revision).setNumber Counter.youngest (youngest + 1)).Consistent := by
  have hsucc := Counter.toNat_succ hleft
  have hall : ∀ number, v.revision number ≠ none ↔ number ≤ youngest := by
    obtain ⟨youngest', hyoungest', hall⟩ := h.youngest
    cases hyoungest.symm.trans hyoungest'
    exact hall
  have hne : Counter.nextTransaction ≠ Counter.youngest ∧ Counter.nextRepresentation ≠ Counter.youngest := by
    decide
  have hfree := h.nextRevision_free hyoungest hleft
  -- the revision that a transaction starts from is an older one, and stays
  exact {
    h with
    txnBase := by
      intro name txn htxn
      obtain ⟨base, hbase, hbaseRoot⟩ := h.txnBase htxn
      have hold : txn.baseRevision ≠ youngest + 1 := by
        intro heq
        rw [heq] at hbase
        exact nomatch hfree.symm.trans hbase
      exact ⟨base, by simpa [hold] using hbase, hbaseRoot⟩
    revisionRoot := by
      intro number revision' hrevision'
      by_cases heq : number = youngest + 1
      · subst heq
        have : revision' = revision := by simpa using hrevision'.symm
        exact ⟨node, this ▸ hroot, himmutable⟩
      · exact h.revisionRoot (by simpa [heq] using hrevision')
    youngest := by
      refine ⟨youngest + 1, number_setNumber _ _ _, fun number => ?_⟩
      by_cases heq : number = youngest + 1
      · simp [heq]
      · have hlt : number ≤ youngest ↔ number ≤ youngest + 1 := by
          have : number.toNat ≠ (youngest + 1).toNat := fun h => heq (UInt64.toNat_inj.1 h)
          rw [UInt64.le_iff_toNat_le, UInt64.le_iff_toNat_le]
          omega
        simpa [heq, hlt] using hall number
    txnNames := by simpa [hne.1] using h.txnNames
    repKeys := by simpa [hne.2] using h.repKeys
    backed := h.backed.of_reps rfl fun _ _ hrep => hrep }

end Consistent

end VersionedTree.View

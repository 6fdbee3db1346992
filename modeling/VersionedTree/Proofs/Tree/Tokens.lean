import VersionedTree.Proofs.Trail.Retention
import VersionedTree.Proofs.Tree.Order

/-!
# Tokens — what is given out

Ids of nodes, names of transactions and keys of representations come from counters and from a search for what is free.
No edit gives back what was given out.

* **`Token`** — what is given out.
* **`View.Used`** — a token that cannot be given out any more. Edits do not change that, and a token is used as soon as it
  is given out, but not before.
* **`Edited.txn_eq_none`** — the name of a transaction that was closed stands for none for good.
-/

namespace VersionedTree

/-- What is given out: the id of a node that was made, the name of a transaction, the key of a representation. -/
inductive Token where
  | node (id : NodeId)
  | txn (name : String)
  | rep (key : String)
deriving DecidableEq, Repr

namespace View

/-- True of what was given out, and of the nodes that were there from the beginning. -/
def Used (v : View) : Token → Prop
  | .node id => v.node id ≠ none
  | .txn name => ∃ n k, Counter.currentKey (v.global Counter.nextTransaction) = .ok (Base36.keyAt n) ∧ k < n ∧
      name = Base36.keyAt k
  | .rep key => v.rep key ≠ none

variable {v w : View} {token : Token} {name : String} {edit : Edit}

/-- Only the beginning of a transaction moves the counter of their names. -/
theorem Edited.nextTransaction (h : v.Edited edit w) :
    (∃ base name, edit = .begin base name) ∨ w.global Counter.nextTransaction = v.global Counter.nextTransaction := by
  have hne : Counter.nextTransaction ≠ Counter.nextNode ∧ Counter.nextTransaction ≠ Counter.nextRepresentation ∧
      Counter.nextTransaction ≠ Counter.youngest := by decide
  cases h with
  | begin _ _ _ => exact .inl ⟨_, _, rfl⟩
  | skip _ _ => exact .inr (by simp [hne])
  | make _ _ _ _ _ _ _ => exact .inr (by simp [hne])
  | setContents _ _ _ _ _ _ => exact .inr (by simp [hne])
  | commit _ _ _ => exact .inr (by simp [hne, freeze, freezeAll])
  | _ => exact .inr rfl

/-- What is used stays used. -/
theorem Used.edited (h : v.Used token) (hv : v.Consistent) (hedit : v.Edited edit w) : w.Used token := by
  cases token with
  | node id => exact hedit.node_ne_none h
  | rep key =>
    obtain ⟨rep, hrep⟩ := Option.ne_none_iff_exists'.1 h
    have hkept := (hv.keeps_of_edited hedit).rep key rep hrep
    exact fun hnone => nomatch hkept.symm.trans hnone
  | txn name =>
    obtain ⟨n, k, hcounter, hlt, rfl⟩ := h
    rcases hedit.nextTransaction with ⟨base, name, rfl⟩ | hsame
    · cases hedit with
      | @begin _ _ name next hrevision hname hnext =>
        obtain ⟨-, m, rfl, rfl, -⟩ := hv.txnName_free hname hnext
        obtain rfl : m = n := Base36.keyAt_injective (Except.ok.inj (hname.symm.trans hcounter))
        exact ⟨m + 1, k, by simp [Counter.currentKey], Nat.lt_succ_of_lt hlt, rfl⟩
    · exact ⟨n, k, by rw [hsame, hcounter], hlt, rfl⟩

/-- The name of a new transaction was not used, and now it is. -/
theorem Edited.used_begin (hv : v.Consistent) {base : UInt64} {name : String} (h : v.Edited (.begin base name) w) :
    ¬ v.Used (.txn name) ∧ w.Used (.txn name) := by
  cases h with
  | @begin _ revision _ next hrevision hname hnext =>
    obtain ⟨-, n, rfl, rfl, -⟩ := hv.txnName_free hname hnext
    refine ⟨?_, n + 1, n, by simp [Counter.currentKey], Nat.lt_succ_self n, rfl⟩
    rintro ⟨m, k, hcounter, hlt, hsame⟩
    cases Base36.keyAt_injective (Except.ok.inj (hname.symm.trans hcounter))
    exact absurd (Base36.keyAt_injective hsame) (Nat.ne_of_gt hlt)

/-- The name of an open transaction is used. -/
theorem Consistent.used_txn (h : v.Consistent) (hopen : v.txn name ≠ none) : v.Used (.txn name) := by
  obtain ⟨n, hcounter, hused⟩ := h.txnNames
  obtain ⟨k, hlt, rfl⟩ := hused name hopen
  exact ⟨n, k, hcounter, hlt, rfl⟩

/-- A transaction that was closed is not opened again. -/
theorem Edited.txn_eq_none (h : v.Edited edit w) (hv : v.Consistent) (hused : v.Used (.txn name))
    (hclosed : v.txn name = none) : w.txn name = none := by
  have hset : ∀ {other : String} {txn : Option Transaction}, name ≠ other → (v.setTxn other txn).txn name = none := by
    intro other txn hne
    simpa [hne] using hclosed
  have hne : ∀ {other : String} {txn : Transaction}, v.txn other = some txn → name ≠ other := by
    rintro other txn htxn rfl
    exact nomatch hclosed.symm.trans htxn
  cases h with
  | begin hrevision hname hnext =>
    refine hset ?_
    rintro rfl
    exact (Edited.used_begin hv (.begin hrevision hname hnext)).1 hused
  | cloneRoot htxn _ _ _ _ => exact hset (hne htxn)
  | close htxn => exact hset (hne htxn)
  | commit htxn _ _ => exact hset (hne htxn)
  | _ => exact hclosed

/-- A new node has a number that no node has. -/
theorem Edited.used_make (h : v.Ordered) {dir : NodeId} {name : String} {kind : Kind} {id : NodeId}
    (hedit : v.Edited (.make dir name kind id) w) :
    ¬ v.Used (.node id) ∧ w.Used (.node id) ∧ ∀ id', v.node id' ≠ none → id'.node ≠ id.node := by
  cases hedit with
  | make hnode _ _ _ hnumber _ hfree =>
    refine ⟨fun hused => hused hfree, node_setNode_ne_none ?_, ?_⟩
    · rw [setNode_node_self]
      exact nofun
    · intro id' hid' heq
      have hlt : id'.node < v.nextNode := h.numbers hid'
      rw [heq, nextNode, ← hnumber] at hlt
      exact absurd hlt (UInt64.lt_irrefl _)

/-- The clone of a child is a successor of it. -/
theorem Edited.used_cloneChild {dir : NodeId} {name : String} {id : NodeId} (h : v.Edited (.cloneChild dir name id) w) :
    ¬ v.Used (.node id) ∧ w.Used (.node id) ∧ ∃ node entry, v.node dir = some node ∧
      node.children.find? (fun entry => entry.name = name) = some entry ∧ v.node entry.id ≠ none ∧
      id.node = entry.id.node := by
  cases h with
  | cloneChild hnode _ hdir hentry hchild _ hfree hid =>
    refine ⟨fun hused => hused hfree, node_setNode_ne_none ?_, _, _, hnode, ?_, hchild ▸ nofun, hid.node_eq⟩
    · rw [setNode_node_self]
      exact nofun
    · rw [NodeRevision.children_of_dir hdir]
      exact hentry

/-- The clone of a root is a successor of it. -/
theorem Edited.used_cloneRoot {name : String} {id : NodeId} (h : v.Edited (.cloneRoot name id) w) :
    ¬ v.Used (.node id) ∧ w.Used (.node id) ∧
      ∃ txn, v.txn name = some txn ∧ v.node txn.root ≠ none ∧ id.node = txn.root.node := by
  cases h with
  | @cloneRoot _ txn base _ htxn hfirst hbase hfree hid =>
    refine ⟨fun hused => hused hfree, ?_, txn, htxn, hfirst ▸ hbase ▸ nofun, hfirst ▸ hid.node_eq⟩
    show (v.setNode id (base.toMutable name)).node id ≠ none
    rw [setNode_node_self]
    exact nofun

/-- The key of new contents was not used, and now it is. -/
theorem Edited.used_setContents (hv : v.Consistent) {id : NodeId} {data : Bytes} (h : v.Edited (.setContents id data) w) :
    ∃ node key, w.node id = some node ∧ node.body = .file (some key) ∧ ¬ v.Used (.rep key) ∧ w.Used (.rep key) := by
  cases h with
  | @setContents _ node _ _ key next rep n hnode _ _ hkey hnext _ =>
    refine ⟨_, key, setNode_node_self _ _ _, rfl, fun hused => hused (hv.repKey_free hkey hnext).1, ?_⟩
    show Function.update v.rep key (some rep) key ≠ none
    rw [Function.update_self]
    exact nofun

end View

end VersionedTree

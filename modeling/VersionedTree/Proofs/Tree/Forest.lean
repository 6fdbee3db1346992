import VersionedTree.Proofs.Tree.Ways

/-!
# Forests — a filesystem as a list of trees

Seen from outside, a filesystem is a list of trees: one for every revision and one for every open transaction. Beginning
a transaction copies a tree, committing it moves the tree to the revisions, and editing changes it in one place. Ids,
clones, owners and shared nodes are not part of this.

* **`Forest`** — the trees, and what operations do to them.
* **`View.HasForest`** — a view stands for a forest.
* **`HasForest.begin`** and its siblings — every edit does to the forest what its operation means.
-/

namespace VersionedTree

open Function (update)

/-- What is done to the node at the end of a path. -/
inductive Change where
  | nothing
  | make (name : String) (kind : Kind)
  | delete (name : String)
  | setProps (props : Skel)
  | setContents (data : Bytes)
deriving DecidableEq, Repr

namespace Tree

/-- A new file or directory. -/
def empty : Kind → Tree
  | .file => file .empty [] []
  | .dir => dir .empty [] []

/-- A tree with other properties. -/
def withProps (props : PropList) : Tree → Tree
  | file _ flags contents => file props flags contents
  | dir _ flags entries => dir props flags entries

/-- A tree after a change, if that is possible. -/
def change : Change → Tree → Option Tree
  | .nothing, tree => some tree
  | .make name kind, dir props flags entries =>
    if entries.any fun entry => entry.1 = name then none
    else some (dir props flags (entries ++ [(name, empty kind)]))
  | .delete name, dir props flags entries =>
    if entries.any fun entry => entry.1 = name then
      some (dir props flags (entries.eraseP fun entry => entry.1 = name))
    else none
  | .setProps props, tree => (PropList.ofSkel props).toOption.map tree.withProps
  | .setContents data, file props flags _ => some (file props flags data)
  | _, _ => none

end Tree

/-- The trees of revisions by number, and of open transactions by name. -/
structure Forest where
  revision : UInt64 → Option Tree
  txn : String → Option Tree

namespace Forest

/-- The forest with another tree for a revision, or none. -/
@[simps]
def setRevision (F : Forest) (number : UInt64) (tree : Option Tree) : Forest :=
  { F with revision := update F.revision number tree }

/-- The forest with another tree for a transaction, or none. -/
@[simps]
def setTxn (F : Forest) (name : String) (tree : Option Tree) : Forest :=
  { F with txn := update F.txn name tree }

/-- A transaction begins with the tree of a revision. -/
def begin (F : Forest) (base : UInt64) (name : String) : Forest :=
  F.setTxn name (F.revision base)

/-- The tree of a transaction is changed at the end of a path. -/
def edit (F : Forest) (name : String) (path : List String) (change : Change) : Option Forest :=
  ((F.txn name).bind (Tree.editAt (Tree.change change) path)).map fun tree => F.setTxn name (some tree)

/-- The tree of a transaction is thrown away. -/
def close (F : Forest) (name : String) : Forest :=
  F.setTxn name none

/-- The tree of a transaction becomes the tree of a revision. -/
def commit (F : Forest) (name : String) (number : UInt64) : Forest :=
  (F.setRevision number (F.txn name)).setTxn name none

end Forest

namespace View

/-- True if a view stands for the forest. -/
structure HasForest (v : View) (F : Forest) : Prop where
  revision : ∀ number, Option.Rel (fun revision tree => v.HasTree revision.root tree) (v.revision number) (F.revision number)
  txn : ∀ name, Option.Rel (fun txn tree => v.HasTree txn.root tree) (v.txn name) (F.txn name)

variable {v w : View} {id dir target : NodeId} {node : NodeRevision} {F : Forest} {T : Tree}

/-! ## Related items -/

/-- Related values stay related if the relation says no more of the value that is there. -/
theorem rel_imp {α β : Type} {r r' : α → β → Prop} {x : Option α} {y : Option β} (h : Option.Rel r x y)
    (himp : ∀ a b, x = some a → r a b → r' a b) : Option.Rel r' x y := by
  cases h with
  | none => exact .none
  | some hab => exact .some (himp _ _ rfl hab)

/-- Related values at all places stay related if one place gets related values. -/
theorem rel_update {ι α β : Type} [DecidableEq ι] {r : α → β → Prop} {f : ι → Option α} {g : ι → Option β}
    (h : ∀ i, Option.Rel r (f i) (g i)) (i : ι) {x : Option α} {y : Option β} (hxy : Option.Rel r x y) (j : ι) :
    Option.Rel r (update f i x j) (update g i y j) := by
  by_cases hj : j = i
  · subst hj
    rwa [Function.update_self, Function.update_self]
  · rw [Function.update_of_ne hj, Function.update_of_ne hj]
    exact h j

/-- A value has one partner only, where the relation gives it one only. -/
theorem rel_unique {α β : Type} {r : α → β → Prop} (hr : ∀ a b b', r a b → r a b' → b = b') {x : Option α}
    {y y' : Option β} (h : Option.Rel r x y) (h' : Option.Rel r x y') : y = y' := by
  cases h with
  | none =>
    cases h'
    rfl
  | some hab =>
    cases h' with
    | some hab' => rw [hr _ _ _ hab hab']

namespace HasForest

/-- A view has one forest only. -/
theorem unique {F' : Forest} (h : v.HasForest F) (h' : v.HasForest F') : F = F' := by
  cases F
  cases F'
  congr
  · funext number
    exact rel_unique (fun _ _ _ htree htree' => htree.unique htree') (h.revision number) (h'.revision number)
  · funext name
    exact rel_unique (fun _ _ _ htree htree' => htree.unique htree') (h.txn name) (h'.txn name)

/-- The tree of a transaction is that of its root. -/
theorem txn_eq (h : v.HasForest F) {name : String} {txn : Transaction} (htxn : v.txn name = some txn) :
    ∃ tree, F.txn name = some tree ∧ v.HasTree txn.root tree := by
  have hrel := h.txn name
  rw [htxn] at hrel
  generalize F.txn name = y at hrel
  cases hrel with
  | some htree => exact ⟨_, rfl, htree⟩

/-- The tree of a revision is that of its root. -/
theorem revision_eq (h : v.HasForest F) {number : UInt64} {revision : Revision}
    (hrevision : v.revision number = some revision) :
    ∃ tree, F.revision number = some tree ∧ v.HasTree revision.root tree := by
  have hrel := h.revision number
  rw [hrevision] at hrel
  generalize F.revision number = y at hrel
  cases hrel with
  | some htree => exact ⟨_, rfl, htree⟩

/-- A transaction that is not open has no tree. -/
theorem txn_eq_none (h : v.HasForest F) {name : String} (htxn : v.txn name = none) : F.txn name = none := by
  have hrel := h.txn name
  rw [htxn] at hrel
  generalize F.txn name = y at hrel
  cases hrel
  rfl

/-- A revision that is not there has no tree. -/
theorem revision_eq_none (h : v.HasForest F) {number : UInt64} (hrevision : v.revision number = none) :
    F.revision number = none := by
  have hrel := h.revision number
  rw [hrevision] at hrel
  generalize F.revision number = y at hrel
  cases hrel
  rfl

/-! ## Nodes change, and no tree does -/

/-- The forest stays as it is, as long as all nodes keep their trees, and roots their nodes. -/
theorem of_hasTree (h : v.HasForest F) (hv : v.Consistent) (hrevision : w.revision = v.revision) (htxn : w.txn = v.txn)
    (htrees : ∀ id T, v.node id ≠ none → v.HasTree id T → w.HasTree id T) : w.HasForest F where
  revision number := by
    rw [hrevision]
    refine rel_imp (h.revision number) fun revision tree hsome htree => htrees _ _ ?_ htree
    obtain ⟨root, hroot, -⟩ := hv.revisionRoot hsome
    exact hroot ▸ nofun
  txn name := by
    rw [htxn]
    exact rel_imp (h.txn name) fun txn tree hsome htree => htrees _ _ (hv.txnRoot_exists hsome) htree

/-- Counters are not seen in the forest. -/
theorem setGlobal (h : v.HasForest F) (name : String) (value : Bytes) : (v.setGlobal name value).HasForest F where
  revision number := rel_imp (h.revision number) fun _ _ _ htree => htree.congr rfl rfl
  txn name := rel_imp (h.txn name) fun _ _ _ htree => htree.congr rfl rfl

/-- A transaction is put into the forest with the tree of its root. -/
theorem setTxn (h : v.HasForest F) (name : String) {txn : Option Transaction} {tree : Option Tree}
    (hrel : Option.Rel (fun txn tree => v.HasTree txn.root tree) txn tree) :
    (v.setTxn name txn).HasForest (F.setTxn name tree) where
  revision number := rel_imp (h.revision number) fun _ _ _ htree => htree.congr rfl rfl
  txn name' := rel_imp (rel_update h.txn name hrel name') fun _ _ _ htree => htree.congr rfl rfl

/-- A revision is put into the forest with the tree of its root. -/
theorem setRevision (h : v.HasForest F) (number : UInt64) {revision : Revision} {tree : Option Tree}
    (hrel : Option.Rel (fun revision tree => v.HasTree revision.root tree) (some revision) tree) :
    (v.setRevision number revision).HasForest (F.setRevision number tree) where
  revision number' := rel_imp (rel_update h.revision number hrel number') fun _ _ _ htree => htree.congr rfl rfl
  txn name := rel_imp (h.txn name) fun _ _ _ htree => htree.congr rfl rfl

/-! ## Transactions -/

/-- **BEGINNING** a transaction copies the tree of its base. -/
theorem begin (h : v.HasForest F) (hv : v.Consistent) {base : UInt64} {name : String}
    (hedit : v.Edited (.begin base name) w) :
    F.revision base ≠ none ∧ F.txn name = none ∧ w.HasForest (F.begin base name) := by
  cases hedit with
  | @begin _ revision _ next hrevision hname hnext =>
    obtain ⟨tree, htree, hroot⟩ := h.revision_eq hrevision
    refine ⟨htree ▸ nofun, h.txn_eq_none (hv.txnName_free hname hnext).1, (h.setGlobal _ _).setTxn name ?_⟩
    rw [htree]
    exact .some (hroot.congr rfl rfl)

/-- Closing a transaction takes its tree away. -/
theorem close (h : v.HasForest F) {name : String} (hedit : v.Edited (.close name) w) :
    F.txn name ≠ none ∧ w.HasForest (F.close name) := by
  cases hedit with
  | close htxn =>
    obtain ⟨tree, htree, -⟩ := h.txn_eq htxn
    exact ⟨htree ▸ nofun, h.setTxn name .none⟩

/-- **COMMITTING** moves the tree of a transaction to the revisions. -/
theorem commit (h : v.HasForest F) (hv : v.Consistent) {name date : String} {number : UInt64}
    (hedit : v.Edited (.commit name date number) w) :
    F.txn name ≠ none ∧ F.revision number = none ∧ w.HasForest (F.commit name number) := by
  cases hedit with
  | @commit _ _ txn htxn hyoungest hleft =>
    obtain ⟨tree, htree, hroot⟩ := h.txn_eq htxn
    refine ⟨htree ▸ nofun, h.revision_eq_none (hv.nextRevision_free hyoungest hleft), ?_⟩
    have hfrozen : (v.freeze txn.root).HasForest F :=
      h.of_hasTree hv rfl rfl fun _ _ _ hT => (hasTree_freezeAll _).2 hT
    refine ((hfrozen.setRevision _ ?_).setGlobal _ _).setTxn name .none
    rw [htree]
    exact .some ((hasTree_freezeAll _).2 hroot)

/-! ## Clones -/

/-- Cloning the root of a transaction is not seen. -/
theorem cloneRoot (h : v.HasForest F) (hv : v.Consistent) {name : String}
    (hedit : v.Edited (.cloneRoot name id) w) : w.HasForest F := by
  cases hedit with
  | @cloneRoot _ txn base _ htxn hfirst hbase hfree _ =>
    obtain ⟨tree, htree, hroot⟩ := h.txn_eq htxn
    have hcloned : (v.setNode id (base.toMutable name)).HasForest F :=
      h.of_hasTree hv rfl rfl fun _ _ hid hT => (hv.hasTree_addClone hbase hfree name (.inl ⟨rfl, hid⟩)).2 hT
    have hclone : (v.setNode id (base.toMutable name)).HasTree id tree :=
      (hv.hasTree_addClone hbase hfree name (.inr ⟨rfl, rfl⟩)).2 (hfirst ▸ hroot)
    have hset := hcloned.setTxn name (.some hclone : Option.Rel _ (some { txn with root := id }) (some tree))
    have hsame : F.setTxn name (some tree) = F := by rw [Forest.setTxn, ← htree, Function.update_eq_self]
    exact hsame ▸ hset

/-- Cloning a child is not seen. -/
theorem cloneChild (h : v.HasForest F) (hv : v.Consistent) {name : String}
    (hedit : v.Edited (.cloneChild dir name id) w) : w.HasForest F := by
  cases hedit with
  | cloneChild hnode _ hdir hentry hchild _ hfree _ =>
    exact h.of_hasTree hv rfl rfl fun _ _ hid hT =>
      (hv.hasTree_cloneChild hnode hdir hentry hchild hfree dir.text (.inl ⟨rfl, hid⟩)).2 hT

end HasForest

/-- **EVERY CONSISTENT VIEW** stands for a forest. -/
theorem Consistent.exists_forest (h : v.Consistent) : ∃ F, v.HasForest F := by
  have hrevision : ∀ number, ∃ tree,
      Option.Rel (fun (revision : Revision) tree => v.HasTree revision.root tree) (v.revision number) tree := by
    intro number
    cases hnumber : v.revision number with
    | none => exact ⟨none, .none⟩
    | some revision =>
      obtain ⟨root, hroot, -⟩ := h.revisionRoot hnumber
      have hexists : v.node revision.root ≠ none := hroot ▸ nofun
      obtain ⟨tree, htree⟩ := h.exists_tree hexists
      exact ⟨some tree, .some htree⟩
  have htxn : ∀ name, ∃ tree, Option.Rel (fun (txn : Transaction) tree => v.HasTree txn.root tree) (v.txn name) tree := by
    intro name
    cases hname : v.txn name with
    | none => exact ⟨none, .none⟩
    | some txn =>
      obtain ⟨tree, htree⟩ := h.exists_tree (h.txnRoot_exists hname)
      exact ⟨some tree, .some htree⟩
  choose revision hrevision using hrevision
  choose txn htxn using htxn
  exact ⟨⟨revision, txn⟩, hrevision, htxn⟩

end View

end VersionedTree

import VersionedTree.Proofs.Tree.Renaming

/-!
# Mirrors — one transaction in two views

A transaction sees the nodes that nobody can change any more, and those that belong to it. Two views mirror each other for
the transaction if what it sees in the one is, but for a renaming, what it sees in the other. The views may differ in
everything else, and what happens beside the transaction in one of them does not break the mirror.

* **`View.Sees`** — what a transaction sees. **`View.Beside`** — nothing of this is changed.
* **`View.Apart`** — nothing that any other transaction sees is changed. **`Works.apart`** — what a transaction does.
* **`Mirror`** — two views with a renaming between them. **`Consistent.mirror`** — each view mirrors itself.
* **`Mirror.newNode`**, **`Mirror.setNode`**, **`Mirror.newKey`**, **`Mirror.setRoot`** — the mirror is kept by what is
  done alike on both sides, **`Mirror.beside`** by what is done beside it.
* **`Mirror.hasTree_iff`** — the trees are the same.
-/

namespace VersionedTree

namespace View

/-- True of the nodes that a transaction sees: they are immutable, or belong to it. -/
def Sees (v : View) (name : String) (id : NodeId) : Prop :=
  ∃ node, v.node id = some node ∧ (node.isMutable = true → v.Belongs name id)

variable {v w : View} {name other : String} {id target : NodeId} {node m : NodeRevision} {edit : Edit}

/-- A transaction sees what belongs to it. -/
theorem Belongs.sees (h : v.Belongs name id) : v.Sees name id := by
  obtain ⟨node, hnode, -⟩ := h.isMutable
  exact ⟨node, hnode, fun _ => h⟩

/-- What is seen is there. -/
theorem Sees.node_ne_none (h : v.Sees name id) : v.node id ≠ none := by
  obtain ⟨node, hnode, -⟩ := h
  exact hnode ▸ nofun

/-- A mutable node that is seen belongs to the transaction. -/
theorem Sees.belongs (h : v.Sees name id) (hnode : v.node id = some node) (hmutable : node.isMutable = true) :
    v.Belongs name id := by
  obtain ⟨node', hnode', hbelongs⟩ := h
  cases hnode.symm.trans hnode'
  exact hbelongs hmutable

/-- Immutable nodes are seen by all transactions. -/
theorem sees_of_immutable (hnode : v.node id = some node) (himmutable : node.isMutable = false) : v.Sees name id :=
  ⟨node, hnode, fun hmutable => nomatch himmutable.symm.trans hmutable⟩

/-- What belongs to one transaction is not seen by another. -/
theorem Belongs.not_sees (h : v.Belongs other id) (hother : IsTxnName other) (hname : IsTxnName name)
    (hne : other ≠ name) : ¬ v.Sees name id := by
  intro hsees
  obtain ⟨node, hnode, hmutable⟩ := h.isMutable
  exact hne (h.unique hother hname (hsees.belongs hnode hmutable))

/-- A child of what is seen is seen. -/
theorem Sees.of_links (h : v.Sees name id) (hv : v.Consistent) (hlink : v.Links id target) : v.Sees name target := by
  obtain ⟨node, hnode⟩ := Option.ne_none_iff_exists'.1 (hv.closed hlink)
  refine ⟨node, hnode, fun hmutable => ?_⟩
  obtain ⟨dir, hdir, hdirMutable⟩ := hv.mutable_of_child hlink ⟨node, hnode, hmutable⟩
  exact (h.belongs hdir hdirMutable).of_links hv hlink ⟨node, hnode, hmutable⟩

/-- No edit takes out of sight what a transaction sees, as long as it stays open. -/
theorem Sees.edited (h : v.Sees name id) (hv : v.Consistent) (hname : IsTxnName name) (hedit : v.Edited edit w)
    (hopen : ∀ date number, edit ≠ .commit name date number) : w.Sees name id := by
  obtain ⟨node, hnode, hbelongs⟩ := h
  obtain ⟨node', hnode', hkept | ⟨_, _, _, _, -, -, -, himmutable⟩⟩ := hedit.flags_cases hnode
  · refine ⟨node', hnode', fun hmutable => (hbelongs ?_).edited hv hname hedit hopen⟩
    rwa [NodeRevision.isMutable, ← hkept]
  · exact sees_of_immutable hnode' himmutable

/-- The names of all that a transaction sees, each called as it is. -/
def seen (v : View) (name : String) : Renaming :=
  .same (v.Sees name) fun key => ∃ data n, v.Holds key data n

/-- A transaction that sees more, where no representation is lost, has more names for what it sees. -/
theorem seen_le (hids : ∀ id, v.Sees name id → w.Sees name id)
    (hreps : ∀ key rep, v.rep key = some rep → w.rep key = some rep) :
    v.seen name ≤ w.seen name := by
  refine Renaming.same_le hids ?_
  rintro key ⟨data, n, hholds⟩
  exact ⟨data, n, hholds.mono hreps⟩

/-! ## Flags that stay -/

/-- As long as nodes keep their flags, they belong to whom they belonged. -/
theorem KeepsFlags.belongs (h : v.KeepsFlags w) (hbelongs : v.Belongs name id) : w.Belongs name id := by
  induction hbelongs with
  | root hnode hflags =>
    obtain ⟨node', hnode', hkept⟩ := h _ _ hnode
    exact .root hnode' (hkept.trans hflags)
  | child hnode hflags _ ih =>
    obtain ⟨node', hnode', hkept⟩ := h _ _ hnode
    exact .child hnode' (hkept.trans hflags) ih

/-- So they are seen by whom they were seen. -/
theorem KeepsFlags.sees (h : v.KeepsFlags w) (hsees : v.Sees name id) : w.Sees name id := by
  obtain ⟨node, hnode, hbelongs⟩ := hsees
  obtain ⟨node', hnode', hkept⟩ := h _ _ hnode
  refine ⟨node', hnode', fun hmutable => h.belongs (hbelongs ?_)⟩
  rwa [NodeRevision.isMutable, ← hkept]

/-- True of what owns nodes of a transaction: itself, or a directory that belongs to it. -/
def Owns (v : View) (name owner : String) : Prop :=
  owner = name ∨ ∃ dir, owner = dir.text ∧ v.Belongs name dir

/-- A new node belongs to whom its owner belongs to. -/
theorem Owns.belongs {owner : String} (h : v.Owns name owner) (hfree : v.node target = none)
    (hflags : m.flags = [.mutable owner]) : (v.setNode target m).Belongs name target := by
  rcases h with rfl | ⟨dir, rfl, hdir⟩
  · exact .root (setNode_node_self v target m) hflags
  · exact .child (setNode_node_self v target m) hflags ((KeepsFlags.add hfree).belongs hdir)

/-! ## Beside a transaction -/

/-- Nothing that a transaction sees is changed. -/
structure Beside (name : String) (v w : View) : Prop where
  node : ∀ {id}, v.Sees name id → w.node id = v.node id
  txn : w.txn name = v.txn name
  revision : w.revision = v.revision
  rep : ∀ key rep, v.rep key = some rep → w.rep key = some rep

namespace Beside

theorem refl (name : String) (v : View) : v.Beside name v :=
  ⟨fun _ => rfl, rfl, rfl, fun _ _ h => h⟩

/-- What belongs to a transaction does so beside it. -/
theorem belongs (h : Beside name v w) (hbelongs : v.Belongs name id) : w.Belongs name id := by
  induction hbelongs with
  | root hnode hflags => exact .root ((h.node (Belongs.root hnode hflags).sees).trans hnode) hflags
  | child hnode hflags hdir ih => exact .child ((h.node (Belongs.child hnode hflags hdir).sees).trans hnode) hflags ih

/-- What a transaction sees it sees beside it. -/
theorem sees (h : Beside name v w) (hsees : v.Sees name id) : w.Sees name id := by
  obtain ⟨node, hnode, hbelongs⟩ := hsees
  exact ⟨node, (h.node ⟨node, hnode, hbelongs⟩).trans hnode, fun hmutable => h.belongs (hbelongs hmutable)⟩

/-- What owns nodes of a transaction does so beside it. -/
theorem owns {owner : String} (h : Beside name v w) (howner : v.Owns name owner) : w.Owns name owner :=
  howner.imp_right fun ⟨dir, htext, hdir⟩ => ⟨dir, htext, h.belongs hdir⟩

theorem trans {u : View} (h : Beside name v w) (h' : Beside name w u) : Beside name v u where
  node hsees := (h'.node (h.sees hsees)).trans (h.node hsees)
  txn := h'.txn.trans h.txn
  revision := h'.revision.trans h.revision
  rep key rep hrep := h'.rep key rep (h.rep key rep hrep)

/-- A new node is beside all transactions. -/
theorem setNode_of_free (name : String) (hfree : v.node target = none) : Beside name v (v.setNode target m) where
  node hsees := setNode_node_of_ne (ne_of_free hfree hsees.node_ne_none)
  txn := rfl
  revision := rfl
  rep _ _ h := h

/-- A counter is beside all transactions. -/
theorem setGlobal (name : String) (v : View) (counter : String) (value : Bytes) : Beside name v (v.setGlobal counter value) :=
  ⟨fun _ => rfl, rfl, rfl, fun _ _ h => h⟩

/-- A new representation is beside all transactions. -/
theorem setRep_of_free (name : String) {key : String} {rep : Representation} (hfree : v.rep key = none) :
    Beside name v (v.setRep key rep) where
  node _ := rfl
  txn := rfl
  revision := rfl
  rep key' rep' hrep' := by
    have hne : key' ≠ key := by
      rintro rfl
      exact nomatch hfree.symm.trans hrep'
    simpa [hne] using hrep'

/-- A transaction is beside all others. -/
theorem setTxn_of_ne (hne : name ≠ other) (txn : Option Transaction) : Beside name v (v.setTxn other txn) where
  node _ := rfl
  txn := by simp [hne]
  revision := rfl
  rep _ _ h := h

end Beside

/-- Nothing is changed that any other transaction sees. -/
def Apart (name : String) (v w : View) : Prop :=
  ∀ other, IsTxnName other → other ≠ name → v.Beside other w

theorem Apart.refl (name : String) (v : View) : Apart name v v :=
  fun other _ _ => .refl other v

theorem Apart.trans {u : View} (h : Apart name v w) (h' : Apart name w u) : Apart name v u :=
  fun other hother hne => (h other hother hne).trans (h' other hother hne)

/-- What is done to a node that belongs to another transaction. -/
theorem ChangedAt.beside (h : v.ChangedAt w target) (htarget : ¬ v.Sees name target) (htxn : w.txn = v.txn)
    (hrevision : w.revision = v.revision) : v.Beside name w where
  node hsees := h.node _ (fun heq => htarget (heq ▸ hsees)) hsees.node_ne_none
  txn := congrFun htxn name
  revision := hrevision
  rep := h.rep

/-- **WHAT A TRANSACTION DOES** through a handle on what it sees is done apart from all others. -/
theorem Works.apart (h : v.Works target w) (hv : v.Consistent) (hname : IsTxnName name) (hsees : v.Sees name target) :
    v.Apart name w := by
  intro other hother hne
  have hnot : v.IsMutable target → ¬ v.Sees other target := by
    rintro ⟨node, hnode, hmutable⟩
    exact (hsees.belongs hnode hmutable).not_sees hname hother hne.symm
  cases h with
  | nothing heq => exact heq ▸ .refl other v
  | skip hedit =>
    cases hedit
    exact .setGlobal other v _ _
  | cloneChild hedit =>
    have hchanged := hedit.changedAt_cloneChild
    cases hedit with
    | cloneChild hdir hmutable _ _ _ _ _ _ => exact hchanged.beside (hnot ⟨_, hdir, hmutable⟩) rfl rfl
  | change hchange =>
    rcases hchange.isMutable with rfl | hmutable
    · exact .refl other _
    · exact (hchange.changedAt hv).beside (hnot hmutable) hchange.txn_eq hchange.revision_eq

/-- A transaction gets a root of its own. -/
theorem Edited.apart_cloneRoot (h : v.Edited (.cloneRoot name id) w) : v.Apart name w := by
  intro other _ hne
  cases h with
  | cloneRoot _ _ _ hfree _ => exact (Beside.setNode_of_free other hfree).trans (.setTxn_of_ne hne _)

end View

/-! ## Mirrors -/

/-- What a transaction sees in two views is the same but for a renaming. -/
structure Mirror (ρ : Renaming) (name : String) (v u : View) : Prop where
  sees : ∀ {a b}, ρ.ids a b → v.Sees name a ∧ u.Sees name b
  node : ∀ {a b node m}, ρ.ids a b → v.node a = some node → u.node b = some m → ρ.Twin name node m
  key : ∀ {k l}, ρ.keys k l → ∃ data n n', v.Holds k data n ∧ u.Holds l data n'
  txn : ∃ txn txn', v.txn name = some txn ∧ u.txn name = some txn' ∧ ρ.ids txn.root txn'.root ∧
    ρ.ids txn.baseRoot txn'.baseRoot
  revision : ∀ number, Option.Rel (fun revision revision' => ρ.ids revision.root revision'.root) (v.revision number)
    (u.revision number)

namespace View.Consistent

variable {v : View} {name : String} {id : NodeId} {node : NodeRevision}

/-- What is seen is its own twin. -/
theorem twin (h : v.Consistent) (hsees : v.Sees name id) (hnode : v.node id = some node) :
    (v.seen name).Twin name node node where
  props := rfl
  flags := by
    rcases h.flags hnode with hflags | ⟨owner, hflags⟩
    · rw [hflags]
      exact .nil
    · rw [hflags]
      refine .cons (.mutable ?_) .nil
      -- the owner is the transaction itself or the directory above, which it sees, too
      cases hsees.belongs hnode (NodeRevision.isMutable_of_flags hflags) with
      | root hnode' hflags' =>
        cases hnode.symm.trans hnode'
        obtain rfl : owner = name := by simpa using hflags.symm.trans hflags'
        exact .inl ⟨rfl, rfl⟩
      | @child dir _ _ hnode' hflags' hdir =>
        cases hnode.symm.trans hnode'
        obtain rfl : owner = dir.text := by simpa using hflags.symm.trans hflags'
        exact .inr ⟨dir, dir, ⟨rfl, hdir.sees⟩, rfl, rfl⟩
  body := by
    cases hbody : node.body with
    | file contents =>
      cases contents with
      | none => exact .empty
      | some key => exact .file ⟨rfl, h.backed id node hnode key hbody⟩
    | dir entries =>
      refine .dir (List.forall₂_same.2 fun entry hentry => ⟨rfl, rfl, hsees.of_links h ?_⟩)
      exact ⟨node, entry, hnode, NodeRevision.children_of_dir hbody ▸ hentry, rfl⟩

/-- **EACH VIEW MIRRORS ITSELF.** -/
theorem mirror (h : v.Consistent) {txn : Transaction} (htxn : v.txn name = some txn) : Mirror (v.seen name) name v v := by
  refine ⟨?_, ?_, ?_, ⟨txn, txn, htxn, htxn, ⟨rfl, ?_⟩, rfl, ?_⟩, ?_⟩
  · rintro a _ ⟨rfl, hsees⟩
    exact ⟨hsees, hsees⟩
  · rintro a _ node m ⟨rfl, hsees⟩ hnode hm
    cases hnode.symm.trans hm
    exact h.twin hsees hnode
  · rintro key _ ⟨rfl, data, n, hholds⟩
    exact ⟨data, n, n, hholds, hholds⟩
  · rcases h.txnRoot htxn with heq | ⟨node, hnode, hflags⟩
    · obtain ⟨base, hbase, himmutable⟩ := h.baseRoot_immutable htxn
      exact heq ▸ View.sees_of_immutable hbase himmutable
    · exact (View.Belongs.root hnode hflags).sees
  · obtain ⟨base, hbase, himmutable⟩ := h.baseRoot_immutable htxn
    exact View.sees_of_immutable hbase himmutable
  · intro number
    cases hrevision : v.revision number with
    | none => exact .none
    | some revision =>
      obtain ⟨root, hroot, himmutable⟩ := h.revisionRoot hrevision
      exact .some ⟨rfl, View.sees_of_immutable hroot himmutable⟩

end View.Consistent

namespace Mirror

open View

variable {ρ : Renaming} {name : String} {v w u : View} {a b : NodeId} {node m old oldm : NodeRevision}

theorem flip (h : Mirror ρ name v u) : Mirror ρ.flip name u v where
  sees hab := (h.sees hab).symm
  node hab hnode hm := (h.node hab hm hnode).flip
  key hkl := by
    obtain ⟨data, n, n', hholds, hholds'⟩ := h.key hkl
    exact ⟨data, n', n, hholds', hholds⟩
  txn := by
    obtain ⟨txn, txn', htxn, htxn', hroot, hbase⟩ := h.txn
    exact ⟨txn', txn, htxn', htxn, hroot, hbase⟩
  revision number := by
    have hrel := h.revision number
    generalize v.revision number = revision, u.revision number = revision' at hrel ⊢
    cases hrel with
    | none => exact .none
    | some hroot => exact .some hroot

/-- What happens beside the transaction on one side is not seen in the mirror. -/
theorem beside (h : Mirror ρ name v u) (hw : v.Beside name w) : Mirror ρ name w u where
  sees hab := ⟨hw.sees (h.sees hab).1, (h.sees hab).2⟩
  node hab hnode hm := h.node hab ((hw.node (h.sees hab).1).symm.trans hnode) hm
  key hkl := by
    obtain ⟨data, n, n', hholds, hholds'⟩ := h.key hkl
    exact ⟨data, n, n', hholds.mono hw.rep, hholds'⟩
  txn := by
    rw [hw.txn]
    exact h.txn
  revision number := by
    rw [hw.revision]
    exact h.revision number

/-- What is beside the transaction may change on both sides of a mirror. -/
theorem beside_both {w' : View} (h : Mirror ρ name v u) (hw : v.Beside name w) (hw' : u.Beside name w') :
    Mirror ρ name w w' :=
  ((h.beside hw).flip.beside hw').flip

/-- What has a name on the left side is seen there. -/
theorem left_le (h : Mirror ρ name v u) : ρ.left ≤ v.seen name := by
  refine Renaming.same_le ?_ ?_
  · rintro a ⟨b, hab⟩
    exact (h.sees hab).1
  · rintro k ⟨l, hkl⟩
    obtain ⟨data, n, n', hholds, -⟩ := h.key hkl
    exact ⟨data, n, hholds⟩

/-- An id that is free on the left side has no twin. -/
theorem free_left (h : Mirror ρ name v u) (hfree : v.node a = none) (b : NodeId) : ¬ ρ.ids a b :=
  fun hab => (h.sees hab).1.node_ne_none hfree

/-- An id that is free on the right side has no twin. -/
theorem free_right (h : Mirror ρ name v u) (hfree : u.node b = none) (a : NodeId) : ¬ ρ.ids a b :=
  fun hab => (h.sees hab).2.node_ne_none hfree

/-- Related nodes are there. -/
theorem exists_twins (h : Mirror ρ name v u) (hab : ρ.ids a b) :
    ∃ node m, v.node a = some node ∧ u.node b = some m ∧ ρ.Twin name node m := by
  obtain ⟨node, hnode, -⟩ := (h.sees hab).1
  obtain ⟨m, hm, -⟩ := (h.sees hab).2
  exact ⟨node, m, hnode, hm, h.node hab hnode hm⟩

/-! ### What is done alike -/

/-- Twins are made. -/
theorem newNode (h : Mirror ρ name v u) (ha : v.node a = none) (hb : u.node b = none) (htwin : ρ.Twin name node m)
    {owner owner' : String} (howner : v.Owns name owner) (howner' : u.Owns name owner')
    (hflags : node.flags = [.mutable owner]) (hflags' : m.flags = [.mutable owner']) :
    ∃ τ : Renaming, ρ ≤ τ ∧ τ.ids a b ∧ Mirror τ name (v.setNode a node) (u.setNode b m) := by
  have hle := ρ.le_withId (h.free_left ha) (h.free_right hb)
  have hbefore : Mirror ρ name (v.setNode a node) (u.setNode b m) :=
    h.beside_both (.setNode_of_free name ha) (.setNode_of_free name hb)
  refine ⟨ρ.withId a b (h.free_left ha) (h.free_right hb), hle, .inr ⟨rfl, rfl⟩, ?_, ?_, hbefore.key, ?_, ?_⟩
  · rintro x y (hxy | ⟨rfl, rfl⟩)
    · exact hbefore.sees hxy
    · exact ⟨(howner.belongs ha hflags).sees, (howner'.belongs hb hflags').sees⟩
  · rintro x y node' m' (hxy | ⟨rfl, rfl⟩) hnode' hm'
    · exact (hbefore.node hxy hnode' hm').mono hle
    · cases (setNode_node_self v x node).symm.trans hnode'
      cases (setNode_node_self u y m).symm.trans hm'
      exact htwin.mono hle
  · obtain ⟨txn, txn', htxn, htxn', hroot, hbase⟩ := hbefore.txn
    exact ⟨txn, txn', htxn, htxn', hle.1 _ _ hroot, hle.1 _ _ hbase⟩
  · intro number
    have hrel := hbefore.revision number
    generalize (v.setNode a node).revision number = revision, (u.setNode b m).revision number = revision' at hrel ⊢
    cases hrel with
    | none => exact .none
    | some hroot => exact .some (hle.1 _ _ hroot)

/-- Twins are put again as twins, with the flags that they had. -/
theorem setNode (h : Mirror ρ name v u) (hab : ρ.ids a b) (hold : v.node a = some old) (hold' : u.node b = some oldm)
    (htwin : ρ.Twin name node m) (hflags : node.flags = old.flags) (hflags' : m.flags = oldm.flags) :
    Mirror ρ name (v.setNode a node) (u.setNode b m) where
  sees hxy := by
    exact ⟨(KeepsFlags.revise hold hflags).sees (h.sees hxy).1, (KeepsFlags.revise hold' hflags').sees (h.sees hxy).2⟩
  node := by
    intro x y node' m' hxy hnode' hm'
    by_cases hx : x = a
    · subst hx
      obtain rfl := ρ.ids_unique.2 hab hxy
      cases (setNode_node_self v x node).symm.trans hnode'
      cases (setNode_node_self u b m).symm.trans hm'
      exact htwin
    · have hy : y ≠ b := fun heq => hx (ρ.ids_unique.1 (heq ▸ hxy) hab)
      rw [setNode_node_of_ne hx] at hnode'
      rw [setNode_node_of_ne hy] at hm'
      exact h.node hxy hnode' hm'
  key hkl := by
    obtain ⟨data, n, n', hholds, hholds'⟩ := h.key hkl
    exact ⟨data, n, n', hholds.mono fun _ _ hrep => hrep, hholds'.mono fun _ _ hrep => hrep⟩
  txn := h.txn
  revision := h.revision

/-- The same contents are stored. -/
theorem newKey {k l : String} {rep rep' : Representation} {data : Bytes} {n n' : Nat} (h : Mirror ρ name v u)
    (hk : v.rep k = none) (hl : u.rep l = none) (hholds : (v.setRep k rep).Holds k data n)
    (hholds' : (u.setRep l rep').Holds l data n') :
    ∃ τ : Renaming, ρ ≤ τ ∧ τ.keys k l ∧ Mirror τ name (v.setRep k rep) (u.setRep l rep') := by
  have hfree : ∀ l, ¬ ρ.keys k l := by
    intro l hkl
    obtain ⟨data, n, n', hholds, -⟩ := h.key hkl
    obtain ⟨rep, hrep, -⟩ := hholds.rep
    exact nomatch hk.symm.trans hrep
  have hfree' : ∀ k, ¬ ρ.keys k l := by
    intro k hkl
    obtain ⟨data, n, n', -, hholds⟩ := h.key hkl
    obtain ⟨rep, hrep, -⟩ := hholds.rep
    exact nomatch hl.symm.trans hrep
  have hle := ρ.le_withKey hfree hfree'
  have hbefore : Mirror ρ name (v.setRep k rep) (u.setRep l rep') :=
    h.beside_both (.setRep_of_free name hk) (.setRep_of_free name hl)
  refine ⟨ρ.withKey k l hfree hfree', hle, .inr ⟨rfl, rfl⟩, hbefore.sees,
    fun hxy hnode hm => (hbefore.node hxy hnode hm).mono hle, ?_, hbefore.txn, hbefore.revision⟩
  rintro x y (hxy | ⟨rfl, rfl⟩)
  · exact hbefore.key hxy
  · exact ⟨data, n, n', hholds, hholds'⟩

/-- The transaction gets another root. -/
theorem setRoot (h : Mirror ρ name v u) (hab : ρ.ids a b) {txn txn' : Transaction} (htxn : v.txn name = some txn)
    (htxn' : u.txn name = some txn') :
    Mirror ρ name (v.setTxn name (some { txn with root := a })) (u.setTxn name (some { txn' with root := b })) where
  sees hxy := by
    have hkeeps : ∀ (x : View) txn, x.KeepsFlags (x.setTxn name txn) := fun _ _ => .of_eq rfl
    exact ⟨(hkeeps v _).sees (h.sees hxy).1, (hkeeps u _).sees (h.sees hxy).2⟩
  node hxy := h.node hxy
  key hkl := by
    obtain ⟨data, n, n', hholds, hholds'⟩ := h.key hkl
    exact ⟨data, n, n', hholds.mono fun _ _ hrep => hrep, hholds'.mono fun _ _ hrep => hrep⟩
  txn := by
    obtain ⟨txn₁, txn₂, htxn₁, htxn₂, -, hbase⟩ := h.txn
    cases htxn.symm.trans htxn₁
    cases htxn'.symm.trans htxn₂
    exact ⟨{ txn with root := a }, { txn' with root := b }, by simp, by simp, hab, hbase⟩
  revision := h.revision

/-! ### Trees -/

/-- **THE SAME TREES** are seen on both sides. -/
theorem hasTree_iff (h : Mirror ρ name v u) (hab : ρ.ids a b) {T : Tree} : u.HasTree b T ↔ v.HasTree a T := by
  refine View.hasTree_iff (R := ρ.ids) (fun x y hxy => ?_) hab
  obtain ⟨node, m, hnode, hm, htwin⟩ := h.exists_twins hxy
  rw [hnode, hm]
  refine .some ⟨htwin.props.symm, htwin.freeze_flags_eq.symm, ?_⟩
  have hbody := htwin.body
  generalize node.body = body, m.body = body' at hbody
  cases hbody with
  | empty => exact .file rfl
  | file hkl =>
    obtain ⟨data, n, n', hholds, hholds'⟩ := h.key hkl
    exact .file ((contents_of_holds hholds').trans (contents_of_holds hholds).symm)
  | dir hentries => exact .dir hentries

end Mirror

end VersionedTree

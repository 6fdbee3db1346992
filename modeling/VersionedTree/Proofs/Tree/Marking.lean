import Mathlib.Algebra.BigOperators.Group.List.Basic
import Mathlib.Data.Finset.Card
import Mathlib.Data.Finset.Image
import VersionedTree.Proofs.Trail.Outcomes
import VersionedTree.Proofs.Tree.Freeze

/-!
# Marking — the walk that freezes, over any records

The walk of a commit has no list of the nodes that it has seen. It ends all the same, also where directories share
children or entries lead back up, because it clears the flag of a node before it goes on to its children: a node that is
met again is immutable then, and the walk turns back.

* **`Trail.Frozen`** — some nodes of a trail are frozen, and nothing else is different. Frozen nodes are not mutable any
  more, so what one part of the walk freezes is not frozen again by the next (**`Frozen.trans`**).
* **`View.Walkable`** — everything that a walk looks at can be read, and the walk may go deep enough. The nodes above the
  one it is at are different ones, so there is no need to go deeper than there are nodes.
* **`Comes.freezeWithin`** — what the walk comes to. It fails only if the store does.
* **`freeze_marks_reachable`** — the theorem, for whatever graph the records make.
-/

namespace VersionedTree

/-- True of the nodes that a walk from `id` looks at: `id`, and what the mutable nodes that it leads to have entries for. -/
def View.Visits (v : View) (id x : NodeId) : Prop :=
  x = id ∨ ∃ dir, v.Editable id dir ∧ v.Links dir x

/-- There are no more nodes than records. -/
theorem Trail.card_nodes_le {s : Trail Records} {ids : Finset NodeId} (h : ∀ x ∈ ids, s.records.view.node x ≠ none) :
    ids.card ≤ s.staged.size + s.store.size := by
  have hkeys : ∀ key ∈ ids.image NodeRecord.key, s.records.find? key ≠ none := by
    intro key hkey
    obtain ⟨x, hx, rfl⟩ := Finset.mem_image.1 hkey
    obtain ⟨node, hnode⟩ := Option.ne_none_iff_exists'.1 (h x hx)
    obtain ⟨value, hfind, -⟩ := Records.view_node_eq_some.1 hnode
    exact Option.ne_none_iff_exists'.2 ⟨value, hfind⟩
  calc ids.card = (ids.image NodeRecord.key).card :=
        (Finset.card_image_of_injective ids fun _ _ => NodeRecord.key_inj.1).symm
    _ ≤ s.records.size := SortedMap.card_le_size hkeys
    _ ≤ s.staged.size + s.store.size := s.size_records_le

/-! ## Frozen nodes -/

/-- The trail `s'` is `s`, but with the records of these nodes frozen, all of which were mutable. -/
structure Trail.Frozen (s : Trail Records) (ids : Finset NodeId) (s' : Trail Records) : Prop where
  store : s'.store = s.store
  nodes : ∀ x ∈ ids, ∃ node, s.records.view.node x = some node ∧ node.isMutable = true ∧
    s'.staged.find? (NodeRecord.key x) = some (some (NodeRecord.encode node.freeze))
  others : ∀ key, (∀ x ∈ ids, key ≠ NodeRecord.key x) → s'.staged.find? key = s.staged.find? key

namespace Trail.Frozen

variable {s s' s'' : Trail Records} {ids ids' : Finset NodeId} {id : NodeId} {node : NodeRevision}

theorem refl (s : Trail Records) : s.Frozen ∅ s where
  store := rfl
  nodes x hx := absurd hx (Finset.notMem_empty x)
  others _ _ := rfl

/-- A single node. -/
theorem single (hnode : s.records.view.node id = some node) (hmutable : node.isMutable = true) :
    s.Frozen {id} (s.stage (NodeRecord.key id) (some (NodeRecord.encode node.freeze))) where
  store := rfl
  nodes x hx := by
    obtain rfl := Finset.mem_singleton.1 hx
    refine ⟨node, hnode, hmutable, ?_⟩
    exact (SortedMap.find?_insert ..).trans (if_pos Std.ReflCmp.compare_self)
  others key hkey := by
    refine (SortedMap.find?_insert ..).trans (if_neg fun heq => ?_)
    exact hkey id (Finset.mem_singleton_self id) (Std.LawfulEqOrd.eq_of_compare heq)

/-- Under the id of a frozen node is what it was, frozen. -/
theorem find?_of_mem (h : s.Frozen ids s') (hid : id ∈ ids) :
    ∃ node, s.records.view.node id = some node ∧ node.isMutable = true ∧
      s'.records.find? (NodeRecord.key id) = some (NodeRecord.encode node.freeze) := by
  obtain ⟨node, hnode, hmutable, hstaged⟩ := h.nodes id hid
  refine ⟨node, hnode, hmutable, ?_⟩
  rw [find?_records, hstaged, Option.getD_some]

/-- Records of other keys are left as they are. -/
theorem find?_of_ne (h : s.Frozen ids s') {key : Key} (hkey : ∀ x ∈ ids, key ≠ NodeRecord.key x) :
    s'.records.find? key = s.records.find? key := by
  rw [find?_records, find?_records, h.others key hkey]
  show _ = (s.staged.find? key).getD (SortedMap.find? s.store key)
  rw [← h.store]
  rfl

/-- What the records say then. -/
theorem view (h : s.Frozen ids s') : s'.records.view = s.records.view.freezeAll (· ∈ ids) := by
  ext1
  case node =>
    funext x
    by_cases hx : x ∈ ids
    · obtain ⟨node, hnode, -, hfind⟩ := h.find?_of_mem hx
      have hstorable := (Records.storable_of_view hnode).freeze
      rw [View.node_freezeAll_of_mem hx, hnode]
      exact Records.view_node_eq_some.2 ⟨_, hfind, NodeRecord.decode_encode hstorable⟩
    · have hkey : ∀ y ∈ ids, NodeRecord.key x ≠ NodeRecord.key y :=
        fun y hy heq => hx (NodeRecord.key_inj.1 heq ▸ hy)
      rw [View.node_freezeAll_of_not_mem hx]
      simp only [Records.view, h.find?_of_ne hkey]
  all_goals
    funext name
    simp only [Records.view, View.freezeAll]
    rw [h.find?_of_ne fun x _ => by
      simp [Revision.key, Transaction.key, Representation.recordKey, Counter.key, NodeRecord.key, Key.ofText_inj]]

/-- No frozen node is mutable any more. -/
theorem not_isMutable (h : s.Frozen ids s') (hid : id ∈ ids) : ¬ s'.records.view.IsMutable id := by
  rw [h.view, View.isMutable_freezeAll]
  exact fun hmutable => hmutable.2 hid

/-- **NOTHING IS FROZEN TWICE**, since what is frozen then is mutable still. -/
theorem disjoint (h : s.Frozen ids s') (h' : s'.Frozen ids' s'') : Disjoint ids ids' := by
  refine Finset.disjoint_left.2 fun x hx hx' => ?_
  obtain ⟨node, hnode, hmutable, -⟩ := h'.nodes x hx'
  exact h.not_isMutable hx ⟨node, hnode, hmutable⟩

/-- Some nodes, and then others. -/
theorem trans (h : s.Frozen ids s') (h' : s'.Frozen ids' s'') : s.Frozen (ids ∪ ids') s'' where
  store := h'.store.trans h.store
  nodes x hx := by
    by_cases hx' : x ∈ ids'
    · obtain ⟨node, hnode, hmutable, hstaged⟩ := h'.nodes x hx'
      have hbefore : x ∉ ids := fun hmem => h.not_isMutable hmem ⟨node, hnode, hmutable⟩
      rw [h.view, View.node_freezeAll_of_not_mem hbefore] at hnode
      exact ⟨node, hnode, hmutable, hstaged⟩
    · obtain ⟨node, hnode, hmutable, hstaged⟩ := h.nodes x ((Finset.mem_union.1 hx).resolve_right hx')
      refine ⟨node, hnode, hmutable, (h'.others _ ?_).trans hstaged⟩
      exact fun y hy heq => hx' (NodeRecord.key_inj.1 heq ▸ hy)
  others key hkey := by
    refine (h'.others key fun x hx => hkey x (Finset.mem_union_right _ hx)).trans (h.others key fun x hx => ?_)
    exact hkey x (Finset.mem_union_left _ hx)

end Trail.Frozen

/-! ## What can be walked over -/

/-- True if a walk from `id` finds a record wherever it looks, and may go `depth` nodes deep among `bound` nodes at most.
    The nodes above `id` were frozen on the way down. -/
structure View.Walkable (v : View) (bound depth : Nat) (id : NodeId) : Prop where
  readable : ∀ x, v.Visits id x → v.node x ≠ none
  few : ∀ ids : Finset NodeId, (∀ x ∈ ids, v.node x ≠ none) → ids.card ≤ bound
  deep : ∃ above : Finset NodeId, (∀ x ∈ above, v.node x ≠ none ∧ ¬ v.IsMutable x) ∧ bound < above.card + depth

namespace View

variable {v : View} {ids : NodeId → Prop} {id x : NodeId} {bound depth : Nat}

/-- Freezing adds no node and takes none away. -/
theorem node_freezeAll_eq_none : (v.freezeAll ids).node x = none ↔ v.node x = none := by
  by_cases hx : ids x
  · rw [node_freezeAll_of_mem hx, Option.map_eq_none_iff]
  · rw [node_freezeAll_of_not_mem hx]

/-- After some nodes are frozen a walk looks at nothing more than before. -/
theorem Visits.of_freezeAll (h : (v.freezeAll ids).Visits id x) : v.Visits id x := by
  rcases h with rfl | ⟨dir, hdir, hlink⟩
  · exact .inl rfl
  · exact .inr ⟨dir, hdir.of_freezeAll, links_freezeAll.1 hlink⟩

/-- A walk from a child looks at nothing that the walk from its directory does not look at. -/
theorem Visits.of_child {node : NodeRevision} {entry : Entry} (hnode : v.node id = some node)
    (hmutable : node.isMutable = true) (hentry : entry ∈ node.children) (h : v.Visits entry.id x) : v.Visits id x := by
  rcases h with rfl | ⟨dir, hdir, hbelow⟩
  · exact .inr ⟨id, .root ⟨node, hnode, hmutable⟩, node, entry, hnode, hentry, rfl⟩
  · exact .inr ⟨dir, hdir.of_child hnode hmutable hentry, hbelow⟩

namespace Walkable

/-- What can be walked over can be walked over after some nodes are frozen. -/
theorem freezeAll (h : v.Walkable bound depth id) : (v.freezeAll ids).Walkable bound depth id where
  readable x hx := fun hnone => h.readable x hx.of_freezeAll (node_freezeAll_eq_none.1 hnone)
  few ids' hids := h.few ids' fun x hx hnone => hids x hx (node_freezeAll_eq_none.2 hnone)
  deep := by
    obtain ⟨above, habove, hlt⟩ := h.deep
    refine ⟨above, fun x hx => ⟨?_, ?_⟩, hlt⟩
    · exact fun hnone => (habove x hx).1 (node_freezeAll_eq_none.1 hnone)
    · exact fun hmutable => (habove x hx).2 (isMutable_freezeAll.1 hmutable).1

/-- A walk that may not go any deeper is at none of the nodes that there are. -/
theorem absurd_zero (h : v.Walkable bound 0 id) : False := by
  obtain ⟨above, habove, hlt⟩ := h.deep
  have hle := h.few above fun x hx => (habove x hx).1
  omega

/-- One node further down. The node itself is above its children then, and it was not before, since it was mutable. -/
theorem child {node : NodeRevision} {entry : Entry} (h : v.Walkable bound (depth + 1) id) (hnode : v.node id = some node)
    (hmutable : node.isMutable = true) (hentry : entry ∈ node.children) :
    (v.freezeAll fun x => x = id).Walkable bound depth entry.id where
  readable x hx hnone := h.readable x (hx.of_freezeAll.of_child hnode hmutable hentry) (node_freezeAll_eq_none.1 hnone)
  few := h.freezeAll.few
  deep := by
    obtain ⟨above, habove, hlt⟩ := h.deep
    have hnew : id ∉ above := fun hmem => (habove id hmem).2 ⟨node, hnode, hmutable⟩
    refine ⟨insert id above, fun x hx => ?_, ?_⟩
    · rw [Ne, node_freezeAll_eq_none, isMutable_freezeAll]
      rcases Finset.mem_insert.1 hx with rfl | hx
      · exact ⟨hnode ▸ Option.some_ne_none node, fun hm => hm.2 rfl⟩
      · exact ⟨(habove x hx).1, fun hm => (habove x hx).2 hm.1⟩
    · rw [Finset.card_insert_of_notMem hnew]
      omega

end Walkable

end View

/-! ## The walk -/

namespace TrailM

variable {σ : Type} [RecordStore σ] [LawfulStore σ] {s : Trail Records} {bound depth : Nat}

/-- If the walk is right from one node, then it is right from one node after the other. -/
theorem Comes.freezeEach
    (h : ∀ (s : Trail Records) (id : NodeId), s.records.view.Walkable bound depth id →
      (NodeRecord.freezeWithin depth id : TrailM σ Nat).Comes s
        (fun count s' => ∃ ids : Finset NodeId, s.Frozen ids s' ∧ s.records.view.Walked [id] (· ∈ ids) ∧ count = ids.card)
        fun _ _ => False)
    (entries : List Entry) (hentries : ∀ entry ∈ entries, s.records.view.Walkable bound depth entry.id) :
    (entries.mapM fun entry => NodeRecord.freezeWithin depth entry.id : TrailM σ (List Nat)).Comes s
      (fun counts s' => ∃ ids : Finset NodeId, s.Frozen ids s' ∧
        s.records.view.Walked (entries.map Entry.id) (· ∈ ids) ∧ counts.sum = ids.card)
      fun _ _ => False := by
  induction entries generalizing s with
  | nil =>
    refine Comes.pure ⟨∅, .refl s, ?_, rfl⟩
    simpa using View.Walked.nil
  | cons entry entries ih =>
    rw [List.mapM_cons]
    refine Comes.bind (h s entry.id (hentries entry List.mem_cons_self)) ?_ fun _ _ he => he
    rintro count s' ⟨ids, hfrozen, hwalked, rfl⟩
    -- the walk over the other entries starts where the first one ended
    have hrest : ∀ other ∈ entries, s'.records.view.Walkable bound depth other.id := by
      intro other hother
      rw [hfrozen.view]
      exact (hentries other (List.mem_cons_of_mem entry hother)).freezeAll
    refine Comes.bind (ih hrest) ?_ fun _ _ he => he
    rintro counts s'' ⟨ids', hfrozen', hwalked', hsum⟩
    refine Comes.pure ⟨ids ∪ ids', hfrozen.trans hfrozen', ?_, ?_⟩
    · have happend := hwalked.append (hfrozen.view ▸ hwalked')
      simpa only [Finset.mem_union, List.singleton_append, List.map_cons] using happend
    · rw [List.sum_cons, hsum, Finset.card_union_of_disjoint (hfrozen.disjoint hfrozen')]

/-- **THE WALK** freezes what it has to and counts each node once. -/
theorem Comes.freezeWithin (depth : Nat) (s : Trail Records) (id : NodeId)
    (h : s.records.view.Walkable bound depth id) :
    (NodeRecord.freezeWithin depth id : TrailM σ Nat).Comes s
      (fun count s' => ∃ ids : Finset NodeId, s.Frozen ids s' ∧ s.records.view.Walked [id] (· ∈ ids) ∧ count = ids.card)
      fun _ _ => False := by
  induction depth generalizing s id with
  | zero => exact h.absurd_zero.elim
  | succ depth ih =>
    obtain ⟨node, hnode⟩ := Option.ne_none_iff_exists'.1 (h.readable id (.inl rfl))
    refine Comes.after (Looks.readNode_of_some hnode) ?_ fun _ he => he.elim
    intro found hfound
    subst found
    cases hmutable : node.isMutable with
    | true =>
      rw [if_pos rfl]
      refine Comes.andThen (Stages.put _ _) fun _ => ?_
      have hfrozen := Trail.Frozen.single hnode hmutable
      have hview := hfrozen.view
      simp only [Finset.mem_singleton] at hview
      refine Comes.bind (Comes.freezeEach ih node.children fun entry hentry => ?_) ?_ fun _ _ he => he
      · rw [hview]
        exact h.child hnode hmutable hentry
      · rintro counts s' ⟨ids, hfrozen', hwalked, hsum⟩
        refine Comes.pure ⟨{id} ∪ ids, hfrozen.trans hfrozen', ?_, ?_⟩
        · rw [hview] at hwalked
          have hall := View.Walked.node hnode hmutable hwalked
          simpa only [Finset.mem_union, Finset.mem_singleton] using hall
        · rw [hsum, Finset.card_union_of_disjoint (hfrozen.disjoint hfrozen'), Finset.card_singleton, Nat.add_comm]
    | false =>
      -- the walk turns back
      refine Comes.pure ⟨∅, .refl s, ⟨?_, ?_, ?_⟩, rfl⟩
      · exact fun x hx => absurd hx (Finset.notMem_empty x)
      · intro start hstart hstartMutable
        cases List.mem_singleton.1 hstart
        exact absurd hstartMutable (View.not_isMutable hnode hmutable)
      · exact fun x _ hx => absurd hx (Finset.notMem_empty x)

/-- The walk may go as deep as there are records, which is deep enough. -/
theorem Comes.freeze (s : Trail Records) (id : NodeId)
    (h : ∀ x, s.records.view.Visits id x → s.records.view.node x ≠ none) :
    (NodeRecord.freeze id : TrailM σ Nat).Comes s
      (fun count s' => ∃ ids : Finset NodeId, s.Frozen ids s' ∧ (∀ x, x ∈ ids ↔ s.records.view.Editable id x) ∧
        count = ids.card)
      fun _ _ => False := by
  refine Comes.after Looks.bound ?_ fun _ he => he
  intro bound hbound
  have hwalk : s.records.view.Walkable bound (bound + 1) id := by
    refine ⟨h, fun ids hids => (Trail.card_nodes_le hids).trans hbound, ∅, ?_, ?_⟩
    · exact fun x hx => absurd hx (Finset.notMem_empty x)
    · simp
  refine Comes.mono (Comes.freezeWithin (bound + 1) s id hwalk) ?_ fun _ _ he => he
  rintro count s' ⟨ids, hfrozen, hwalked, hcount⟩
  exact ⟨ids, hfrozen, fun x => iff_of_eq (congrFun hwalked.eq_editable x), hcount⟩

end TrailM

/-- A frozen tree is not frozen again. -/
theorem Trail.Frozen.editable_empty {s s' : Trail Records} {ids : Finset NodeId} {id x : NodeId} (h : s.Frozen ids s')
    (hids : ∀ x, x ∈ ids ↔ s.records.view.Editable id x) : ¬ s'.records.view.Editable id x := by
  rw [h.view]
  intro hedit
  induction hedit with
  | root hmutable =>
    obtain ⟨hmutable, hnot⟩ := View.isMutable_freezeAll.1 hmutable
    exact hnot ((hids id).2 (.root hmutable))
  | child _ _ _ ih => exact ih

/-- If no node was frozen, then nothing was staged. -/
theorem Trail.Frozen.eq_of_empty {s s' : Trail Records} (h : s.Frozen ∅ s') : s' = s := by
  have hstaged : s'.staged = s.staged :=
    SortedMap.ext fun key => h.others key fun x hx => absurd hx (Finset.notMem_empty x)
  obtain ⟨store, staged⟩ := s
  obtain ⟨store', staged'⟩ := s'
  cases h.store
  cases hstaged
  rfl

namespace NodeRecord

variable {σ : Type} [RecordStore σ] [LawfulStore σ]

/-- **FREEZING MARKS WHAT IT CAN REACH.** Whatever graph the records make, as long as every node that is looked at can be
    read: the walk ends, the nodes that `id` leads to through mutable nodes are frozen, each of them is counted once, and
    no other record is changed. To freeze again then changes nothing. -/
theorem freeze_marks_reachable {t : Trail σ} (hvalid : LawfulStore.Valid t.store) (id : NodeId)
    (hread : ∀ x, t.records.view.Visits id x → t.records.view.node x ≠ none) :
    ∃ ids : Finset NodeId, (∀ x, x ∈ ids ↔ t.records.view.Editable id x) ∧
      ((∃ t', freeze id t = (.ok ids.card, t') ∧
          LawfulStore.records t'.store = LawfulStore.records t.store ∧
          (∀ x ∈ ids, ∃ node, t.records.view.node x = some node ∧
            t'.records.find? (key x) = some (encode node.freeze) ∧ t'.records.view.node x = some node.freeze) ∧
          (∀ other, (∀ x ∈ ids, other ≠ key x) →
            t'.records.find? other = t.records.find? other ∧ t'.staged.find? other = t.staged.find? other) ∧
          (∀ x, t.records.view.Editable id x → ¬ t'.records.view.IsMutable x) ∧
          ((∃ t'', freeze id t' = (.ok 0, t'') ∧ t''.records = t'.records ∧ t''.staged = t'.staged) ∨
            ∃ e t'', freeze id t' = (.error e, t'') ∧ e.IsFault σ)) ∨
        ∃ e t', freeze id t = (.error e, t') ∧ e.IsFault σ) := by
  have hfinite : ∃ ids : Finset NodeId, ∀ x, x ∈ ids ↔ t.records.view.Editable id x := by
    have hplain := TrailM.Comes.freeze (σ := Records) t.plain id hread t.plain (Trail.over_plain trivial)
    rcases hplain with ⟨_, _, _, -, -, ids, -, hids, -⟩ | ⟨e, _, _, -, -, he⟩
    · exact ⟨ids, hids⟩
    · exact (he.elim (Records.not_isFault e) fun h => h).elim
  obtain ⟨ids, hids⟩ := hfinite
  refine ⟨ids, hids, ?_⟩
  rcases TrailM.Comes.freeze t.plain id hread t (Trail.over_plain hvalid) with
    ⟨count, t', s', hrun, ht', ids', hfrozen, hids', rfl⟩ | ⟨e, t', s', hrun, -, he⟩
  case inr => exact .inr ⟨e, t', hrun, he.elim (fun h => h) False.elim⟩
  obtain rfl : ids' = ids := Finset.ext fun x => (hids' x).trans (hids x).symm
  have hrecords : t'.records = s'.records := ht'.records
  refine .inl ⟨t', hrun, ht'.base.trans hfrozen.store, ?_, ?_, ?_, ?_⟩
  · intro x hx
    obtain ⟨node, hnode, -, hfind⟩ := hfrozen.find?_of_mem hx
    refine ⟨node, hnode, hrecords ▸ hfind, ?_⟩
    rw [hrecords, hfrozen.view, View.node_freezeAll_of_mem hx, hnode]
    rfl
  · intro other hother
    exact ⟨hrecords ▸ hfrozen.find?_of_ne hother, ht'.staged ▸ hfrozen.others other hother⟩
  · intro x hx
    rw [hrecords]
    exact hfrozen.not_isMutable ((hids x).2 hx)
  · -- the second walk turns back where it starts
    have hread' : ∀ x, s'.records.view.Visits id x → s'.records.view.node x ≠ none := by
      intro x hx hnone
      rw [hfrozen.view] at hx hnone
      exact hread x hx.of_freezeAll (View.node_freezeAll_eq_none.1 hnone)
    rcases TrailM.Comes.freeze s' id hread' t' ht' with
      ⟨count, t'', s'', hrun', ht'', ids', hfrozen', hids', rfl⟩ | ⟨e, t'', s'', hrun', -, he⟩
    · obtain rfl : ids' = ∅ := Finset.eq_empty_of_forall_notMem fun x hx => hfrozen.editable_empty hids ((hids' x).1 hx)
      obtain rfl := hfrozen'.eq_of_empty
      exact .inl ⟨t'', hrun', ht''.records.trans hrecords.symm, ht''.staged.trans ht'.staged.symm⟩
    · exact .inr ⟨e, t'', hrun', he.elim (fun h => h) False.elim⟩

namespace Sample

/-- Two directories that may be changed. The first has two entries for the second, which leads back up to it. -/
def knot : Trail Records :=
  let up : NodeRevision := ⟨.empty, [.mutable "0"], .dir [⟨"a", .ofNode 2⟩, ⟨"b", .ofNode 2⟩]⟩
  let down : NodeRevision := ⟨.empty, [.mutable "1.1"], .dir [⟨"up", .ofNode 1⟩]⟩
  ((Trail.start .empty).stage (key (.ofNode 1)) (some (encode up))).stage (key (.ofNode 2)) (some (encode down))

/-- Each of the two is frozen once. -/
theorem knot_frozen : (∀ x, knot.records.view.Visits (.ofNode 1) x → knot.records.view.node x ≠ none) ∧
    ∃ t', freeze (.ofNode 1) knot = (.ok 2, t') ∧
      ∀ x, knot.records.view.Editable (.ofNode 1) x → ¬ t'.records.view.IsMutable x := by
  have hfirst : knot.records.view.node (.ofNode 1) =
      some ⟨.empty, [.mutable "0"], .dir [⟨"a", .ofNode 2⟩, ⟨"b", .ofNode 2⟩]⟩ := by decide +kernel
  have hsecond : knot.records.view.node (.ofNode 2) = some ⟨.empty, [.mutable "1.1"], .dir [⟨"up", .ofNode 1⟩]⟩ := by
    decide +kernel
  have hlinks : ∀ dir x, dir = .ofNode 1 ∨ dir = .ofNode 2 → knot.records.view.Links dir x →
      x = .ofNode 1 ∨ x = .ofNode 2 := by
    rintro dir x (rfl | rfl) ⟨node, entry, hnode, hentry, rfl⟩
    · cases hfirst.symm.trans hnode
      have hname : entry = ⟨"a", .ofNode 2⟩ ∨ entry = ⟨"b", .ofNode 2⟩ := by
        simpa [NodeRevision.children, NodeRevision.entries?] using hentry
      rcases hname with rfl | rfl
      · exact .inr rfl
      · exact .inr rfl
    · cases hsecond.symm.trans hnode
      obtain rfl : entry = ⟨"up", .ofNode 1⟩ := by
        simpa [NodeRevision.children, NodeRevision.entries?] using hentry
      exact .inl rfl
  have heditable : ∀ x, knot.records.view.Editable (.ofNode 1) x → x = .ofNode 1 ∨ x = .ofNode 2 := by
    intro x hx
    induction hx with
    | root => exact .inl rfl
    | child _ hlink _ ih => exact hlinks _ _ ih hlink
  have hread : ∀ x, knot.records.view.Visits (.ofNode 1) x → knot.records.view.node x ≠ none := by
    have hthere : ∀ x, x = .ofNode 1 ∨ x = .ofNode 2 → knot.records.view.node x ≠ none := by
      rintro x (rfl | rfl)
      · exact hfirst ▸ Option.some_ne_none _
      · exact hsecond ▸ Option.some_ne_none _
    rintro x (rfl | ⟨dir, hdir, hlink⟩)
    · exact hthere _ (.inl rfl)
    · exact hthere x (hlinks dir x (heditable dir hdir) hlink)
  have hcount : (freeze (.ofNode 1) knot).1 = .ok 2 := by decide +kernel
  refine ⟨hread, ?_⟩
  obtain ⟨ids, -, ⟨t', hrun, -, -, -, hfrozen, -⟩ | ⟨e, t', hrun, hfault⟩⟩ :=
    freeze_marks_reachable (t := knot) trivial (.ofNode 1) hread
  · have htwo : ids.card = 2 := by
      rw [hrun] at hcount
      exact Except.ok.inj hcount
    exact ⟨t', htwo ▸ hrun, hfrozen⟩
  · exact absurd hfault (Records.not_isFault e)

end Sample

end NodeRecord

end VersionedTree

import VersionedTree.Proofs.Tree.Forest

/-!
# Changes — edits at the end of a way

A change is made to one mutable node, which names lead to from the root of a transaction. To the trees it does what it
does to the tree of the node: in the tree of the transaction, at the end of the path, and nowhere else.

* **`View.ChangedBy`** — a change is made to a node.
* **`ChangedBy.hasTree_target`** — what it does to the tree of the node.
* **`HasForest.edit`** — what it does to the forest.
-/

namespace VersionedTree.View

/-- True if a change of the target leads to another view. -/
inductive ChangedBy (v : View) (target : NodeId) (w : View) : Change → Prop where
  | nothing (h : w = v) : v.ChangedBy target w .nothing
  | make {name : String} {kind : Kind} {id : NodeId} (h : v.Edited (.make target name kind id) w) :
      v.ChangedBy target w (.make name kind)
  | delete {name : String} (h : v.Edited (.delete target name) w) : v.ChangedBy target w (.delete name)
  | setProps {props : Skel} {list : PropList} (hprops : PropList.ofSkel props = .ok list)
      (h : v.Edited (.setProps target list) w) : v.ChangedBy target w (.setProps props)
  | setContents {data : Bytes} (h : v.Edited (.setContents target data) w) : v.ChangedBy target w (.setContents data)

variable {v w : View} {target id : NodeId} {node m : NodeRevision} {T : Tree} {entries : List Entry}
  {trees : List (String × Tree)} {change : Change} {F : Forest}

/-! ## One node is changed -/

theorem ChangedAt.refl (v : View) (target : NodeId) : v.ChangedAt v target :=
  ⟨fun _ _ _ => rfl, fun _ _ hrep => hrep⟩

/-- Putting the target changes nothing else. -/
theorem ChangedAt.setNode (v : View) (target : NodeId) (m : NodeRevision) : v.ChangedAt (v.setNode target m) target :=
  ⟨fun _ hne _ => setNode_node_of_ne hne, fun _ _ hrep => hrep⟩

/-- Something new may come before the change. -/
theorem ChangedAt.setNode_of_new {u : View} (hnode : ∀ id, v.node id ≠ none → u.node id = v.node id)
    (hrep : ∀ key rep, v.rep key = some rep → u.rep key = some rep) : v.ChangedAt (u.setNode target m) target :=
  ⟨fun id hne hid => (setNode_node_of_ne hne).trans (hnode id hid), hrep⟩

/-- A change of the target changes nothing else that was there. -/
theorem ChangedBy.changedAt (h : v.ChangedBy target w change) (hv : v.Consistent) : v.ChangedAt w target := by
  cases h with
  | nothing heq => exact heq ▸ .refl v target
  | make hedit =>
    cases hedit with
    | make _ _ _ _ _ _ hfree =>
      exact .setNode_of_new (fun id hid => setNode_node_of_ne (ne_of_free hfree hid)) fun _ _ hrep => hrep
  | delete hedit =>
    cases hedit
    exact .setNode v target _
  | setProps _ hedit =>
    cases hedit
    exact .setNode v target _
  | setContents hedit =>
    cases hedit with
    | setContents _ _ _ hkey hnext _ =>
      refine .setNode_of_new (fun _ _ => rfl) fun other rep hrep => ?_
      refine (Function.update_of_ne ?_ _ _).trans hrep
      rintro rfl
      exact nomatch (hv.repKey_free hkey hnext).1.symm.trans hrep

/-- Cloning a child changes the directory only. -/
theorem Edited.changedAt_cloneChild {name : String} (h : v.Edited (.cloneChild target name id) w) :
    v.ChangedAt w target := by
  cases h with
  | cloneChild _ _ _ _ _ _ hfree _ =>
    exact .setNode_of_new (fun id' hid' => setNode_node_of_ne (ne_of_free hfree hid')) fun _ _ hrep => hrep

/-- Changes leave revisions alone. -/
theorem ChangedBy.revision_eq (h : v.ChangedBy target w change) : w.revision = v.revision := by
  rcases h with rfl | hedit | hedit | ⟨-, hedit⟩ | hedit
  case nothing => rfl
  all_goals
    cases hedit
    rfl

/-- Changes leave transactions alone. -/
theorem ChangedBy.txn_eq (h : v.ChangedBy target w change) : w.txn = v.txn := by
  rcases h with rfl | hedit | hedit | ⟨-, hedit⟩ | hedit
  case nothing => rfl
  all_goals
    cases hedit
    rfl

/-! ## Trees and entries -/

/-- A name is taken among entries just if it is among their trees. -/
theorem HasTrees.any_eq (h : v.HasTrees entries trees) (name : String) :
    (trees.any fun entry => entry.1 = name) = entries.any fun entry => entry.name = name := by
  induction h with
  | nil => rfl
  | cons hhead _ ih => rw [List.any_cons, List.any_cons, ih, hhead.1]

/-- Without the entry of a name there are the trees without the one of that name. -/
theorem HasTrees.eraseP (h : v.HasTrees entries trees) (name : String) :
    v.HasTrees (entries.eraseP fun entry => entry.name = name) (trees.eraseP fun entry => entry.1 = name) := by
  induction h with
  | nil => exact .nil
  | @cons head child rest trees hhead hrest ih =>
    by_cases heq : head.name = name
    · rw [List.eraseP_cons_of_pos (by simpa using heq), List.eraseP_cons_of_pos (by simpa [← hhead.1] using heq)]
      exact hrest
    · rw [List.eraseP_cons_of_neg (by simpa using heq), List.eraseP_cons_of_neg (by simpa [← hhead.1] using heq)]
      exact .cons hhead ih

/-- One more entry has one more tree. -/
theorem HasTrees.append_singleton (h : v.HasTrees entries trees) {name : String} (hT : v.HasTree id T) :
    v.HasTrees (entries ++ [⟨name, id⟩]) (trees ++ [(name, T)]) :=
  List.rel_append h (.cons ⟨rfl, hT⟩ .nil)

/-- What is below a change keeps its trees. -/
theorem Consistent.hasTrees_below (h : v.Consistent) (hchanged : v.ChangedAt w target) (hnode : v.node target = some node)
    (hdir : node.body = .dir entries) (htrees : v.HasTrees entries trees) : w.HasTrees entries trees := by
  have hkept : ∀ entry ∈ entries, ∀ T, v.HasTree entry.id T → w.HasTree entry.id T := by
    intro entry hentry T hT
    have hlink : v.Links target entry.id := ⟨node, entry, hnode, NodeRevision.children_of_dir hdir ▸ hentry, rfl⟩
    exact (h.hasTree_of_not_leads hchanged (h.closed hlink) (h.not_leads_up hlink)).2 hT
  exact htrees.imp_of_mem hkept

/-- A new node has an empty tree. -/
theorem hasTree_newMutable {kind : Kind} {owner : String} (hnode : v.node id = some (.newMutable kind owner)) :
    v.HasTree id (.empty kind) := by
  cases kind with
  | file => exact (hasTree_file hnode rfl).2 ⟨[], rfl, rfl⟩
  | dir => exact (hasTree_dir hnode rfl).2 ⟨[], .nil, rfl⟩

/-! ## The tree of the target -/

/-- **THE CHANGE OF ITS TREE** is what a change of a node is about. -/
theorem ChangedBy.hasTree_target (h : v.ChangedBy target w change) (hv : v.Consistent) (hT : v.HasTree target T) :
    ∃ T', T.change change = some T' ∧ w.HasTree target T' := by
  have hchanged := h.changedAt hv
  cases h with
  | nothing heq => exact ⟨T, by cases T <;> rfl, heq ▸ hT⟩
  | @make name kind id hedit =>
    cases hedit with
    | @make _ node entries _ _ n hnode _ hdir hnew _ _ hfree =>
      obtain ⟨trees, htrees, rfl⟩ := (hasTree_dir hnode hdir).1 hT
      have hne : NodeId.ofNode n ≠ target := (ne_of_free hfree (hnode ▸ nofun)).symm
      have hnone : entries.any (fun entry => entry.name = name) = false := by simpa using hnew
      refine ⟨.dir node.props node.freeze.flags (trees ++ [(name, .empty kind)]), ?_, ?_⟩
      · simp only [Tree.change, htrees.any_eq, hnone, Bool.false_eq_true, if_false]
      · have hbelow := hv.hasTrees_below hchanged hnode hdir htrees
        refine (hasTree_dir (setNode_node_self _ _ _) rfl).2 ⟨_, hbelow.append_singleton ?_, rfl⟩
        exact hasTree_newMutable ((setNode_node_of_ne hne).trans (setNode_node_self _ _ _))
  | @delete name hedit =>
    cases hedit with
    | @delete _ node entries _ entry _ hnode _ hdir hentry _ _ =>
      obtain ⟨trees, htrees, rfl⟩ := (hasTree_dir hnode hdir).1 hT
      have hsome : entries.any (fun entry => entry.name = name) = true :=
        List.any_eq_true.2 ⟨entry, List.mem_of_find?_eq_some hentry, by simpa using List.find?_some hentry⟩
      refine ⟨.dir node.props node.freeze.flags (trees.eraseP fun entry => entry.1 = name), ?_, ?_⟩
      · simp only [Tree.change, htrees.any_eq, hsome, if_true]
      · have hbelow := hv.hasTrees_below hchanged hnode hdir htrees
        exact (hasTree_dir (setNode_node_self _ _ _) rfl).2 ⟨_, hbelow.eraseP name, rfl⟩
  | @setProps props list hprops hedit =>
    cases hedit with
    | @setProps _ node _ hnode _ =>
      -- properties do not touch what is below, whichever kind the node has
      refine ⟨T.withProps list, by simp [Tree.change, hprops, Except.toOption], ?_⟩
      have hnode' := setNode_node_self v target { node with props := list }
      have hbody : (∃ contents, node.body = .file contents) ∨ ∃ entries, node.body = .dir entries := by
        cases node.body with
        | file contents => exact .inl ⟨contents, rfl⟩
        | dir entries => exact .inr ⟨entries, rfl⟩
      rcases hbody with ⟨contents, hbody⟩ | ⟨entries, hbody⟩
      · obtain ⟨data, hdata, rfl⟩ := (hasTree_file hnode hbody).1 hT
        refine (hasTree_file hnode' hbody).2 ⟨data, ?_, rfl⟩
        rw [contents_congr (show (v.setNode target _).rep = v.rep from rfl), hdata]
      · obtain ⟨trees, htrees, rfl⟩ := (hasTree_dir hnode hbody).1 hT
        exact (hasTree_dir hnode' hbody).2 ⟨trees, hv.hasTrees_below hchanged hnode hbody htrees, rfl⟩
  | @setContents data hedit =>
    cases hedit with
    | @setContents _ node previous _ key next rep n hnode _ hfile hkey hnext hheld =>
      obtain ⟨old, -, rfl⟩ := (hasTree_file hnode hfile).1 hT
      refine ⟨_, rfl, (hasTree_file (setNode_node_self _ _ _) rfl).2 ⟨data, ?_, rfl⟩⟩
      -- the contents are those of the new representation, which is under a key that was free
      exact contents_of_holds ((hheld (hv.repKey_free hkey hnext).1).mono fun _ _ hrep => hrep)

/-! ## The forest -/

/-- The root of a transaction is not below another node, if it is mutable. -/
theorem Consistent.eq_txnRoot_of_leads (h : v.Consistent) {name : String} {txn : Transaction} (htxn : v.txn name = some txn)
    (hmutable : v.IsMutable txn.root) (hleads : v.Leads id txn.root) : id = txn.root := by
  rcases hleads.cases_tail with heq | ⟨dir, -, hlink⟩
  · exact heq.symm
  · obtain ⟨node, hnode, hmutable⟩ := hmutable
    exact absurd (h.owner_of_txnRoot htxn hnode hmutable) (h.txn_not_owner_of_link hlink hnode (htxn ▸ nofun))

/-- Two transactions do not lead to the same mutable node. -/
theorem Consistent.txn_unique_of_leads (h : v.Consistent) {name other : String} {txn txn' : Transaction}
    (htxn : v.txn name = some txn) (htxn' : v.txn other = some txn') (htarget : v.IsMutable target)
    (hleads : v.Leads txn.root target) (hleads' : v.Leads txn'.root target) : other = name := by
  have hmutable := h.mutable_of_leads hleads htarget
  have hsame : txn.root = txn'.root := by
    rcases h.linear htarget hleads hleads' with hdown | hup
    · exact h.eq_txnRoot_of_leads htxn' (h.mutable_of_leads hleads' htarget) hdown
    · exact (h.eq_txnRoot_of_leads htxn hmutable hup).symm
  obtain ⟨node, hnode, hmutable⟩ := hmutable
  have howner := h.owner_of_txnRoot htxn hnode hmutable
  have howner' := h.owner_of_txnRoot htxn' (hsame ▸ hnode) hmutable
  simpa using howner'.symm.trans howner

/-- **A CHANGE** at the end of a way is a change of one tree. -/
theorem HasForest.edit (h : v.HasForest F) (hv : v.Consistent) {name : String} {txn : Transaction}
    (htxn : v.txn name = some txn) {path : List String} (hway : v.Way target txn.root path) (htarget : v.IsMutable target)
    (hchange : v.ChangedBy target w change) : ∃ F', F.edit name path change = some F' ∧ w.HasForest F' := by
  have hchanged := hchange.changedAt hv
  obtain ⟨tree, htree, hroot⟩ := h.txn_eq htxn
  obtain ⟨tree', hedited, hroot'⟩ :=
    hv.hasTree_editAt hchanged htarget (fun T hT => hchange.hasTree_target hv hT) hway hroot
  refine ⟨F.setTxn name (some tree'), ?_, ?_, ?_⟩
  · rw [Forest.edit, htree, Option.bind_some, hedited]
    rfl
  · -- nodes above the target are mutable, so no revision leads there
    intro number
    rw [hchange.revision_eq]
    refine rel_imp (h.revision number) fun revision T hsome hT => ?_
    obtain ⟨root, hrevisionRoot, himmutable⟩ := hv.revisionRoot hsome
    refine (hv.hasTree_of_not_leads hchanged (hrevisionRoot ▸ nofun) fun hleads => ?_).2 hT
    exact not_isMutable hrevisionRoot himmutable (hv.mutable_of_leads hleads htarget)
  · intro other
    rw [hchange.txn_eq]
    by_cases hother : other = name
    · subst hother
      rw [htxn, Forest.setTxn_txn, Function.update_self]
      exact .some hroot'
    · -- two transactions do not lead to the target
      rw [Forest.setTxn_txn, Function.update_of_ne hother]
      refine rel_imp (h.txn other) fun txn' T hsome hT => ?_
      refine (hv.hasTree_of_not_leads hchanged (hv.txnRoot_exists hsome) fun hleads => ?_).2 hT
      exact hother (hv.txn_unique_of_leads htxn hsome htarget hway.leads hleads)

end VersionedTree.View

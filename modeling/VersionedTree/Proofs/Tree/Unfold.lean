import Mathlib.Data.List.Forall2
import VersionedTree.Proofs.Tree.Permanence

/-!
# Unfolding — the tree that a node stands for

Nodes refer to each other by ids, and share what has not changed. A tree is what they stand for: a value, in which there
are neither ids nor mutable flags.

* **`View.unfold`** — follows entries from a node down, to a certain depth.
* **`View.HasTree`** — the tree of a node, at whatever depth that takes. A node has one tree, if entries lead nowhere and
  do not go in circles.
* **`hasTree_iff`** — nodes that look alike, and whose entries lead to nodes that look alike, have the same tree.
-/

namespace VersionedTree

/-- What a file or a directory is, as a value. -/
inductive Tree where
  | file (props : PropList) (flags : List Flag) (contents : Bytes)
  | dir (props : PropList) (flags : List Flag) (entries : List (String × Tree))

/-! ## Lists of results -/

/-- A list is mapped just if each of its items is. -/
theorem mapM_eq_some_iff {α β : Type} {f : α → Option β} {as : List α} {bs : List β} :
    as.mapM f = some bs ↔ List.Forall₂ (fun a b => f a = some b) as bs := by
  induction as generalizing bs with
  | nil =>
    constructor
    · intro h
      cases h
      exact .nil
    · rintro ⟨⟩
      rfl
  | cons a as ih =>
    constructor
    · intro h
      obtain ⟨b, hb, bs', hbs', rfl⟩ : ∃ b, f a = some b ∧ ∃ bs', as.mapM f = some bs' ∧ b :: bs' = bs := by
        simpa [List.mapM_cons, Option.bind_eq_some_iff] using h
      exact .cons hb (ih.1 hbs')
    · rintro (⟨⟩ | ⟨hb, hbs⟩)
      simp [List.mapM_cons, hb, ih.2 hbs]

/-- Lists whose items are mapped alike are mapped alike. -/
theorem mapM_congr_of_forall₂ {α α' β : Type} {f : α → Option β} {g : α' → Option β} {as : List α} {as' : List α'}
    (h : List.Forall₂ (fun a a' => g a' = f a) as as') : as'.mapM g = as.mapM f := by
  induction h with
  | nil => rfl
  | cons hhead _ ih => rw [List.mapM_cons, List.mapM_cons, hhead, ih]

namespace View

/-! ## Contents -/

/-- The contents that a key stands for, at the end of `left` deltas at most. -/
def contentsWithin (v : View) : (left : Nat) → (key : String) → Option Bytes
  | 0, key => (v.rep key).bind fun rep =>
    match rep.form with
    | .fullText data => some data
    | .delta _ _ => none
  | left + 1, key => (v.rep key).bind fun rep =>
    match rep.form with
    | .fullText data => some data
    | .delta base ops => (v.contentsWithin left base).bind fun source => (Delta.rebuild source ops).toOption

/-- The contents of a file, which are empty if none were ever set. -/
def contents (v : View) : Option String → Option Bytes
  | none => some []
  | some key => (v.rep key).bind fun rep => v.contentsWithin rep.chainLength key

variable {v w : View} {id : NodeId} {node m : NodeRevision} {T : Tree}

/-- Contents that are held are the contents. -/
theorem contents_of_holds {key : String} {data : Bytes} {n : Nat} (h : v.Holds key data n) :
    v.contents (some key) = some data := by
  obtain ⟨rep, hrep, hchain, -⟩ := h.rep
  show (v.rep key).bind (fun rep => v.contentsWithin rep.chainLength key) = _
  rw [hrep, Option.bind_some, hchain]
  clear hrep hchain
  induction h with
  | fullText hrep hform _ _ => simp [contentsWithin, hrep, hform]
  | delta hrep hform _ happly _ _ ih => simp [contentsWithin, hrep, hform, ih, happly, Except.toOption]

/-- Contents depend on representations only. -/
theorem contents_congr (hrep : w.rep = v.rep) (contents : Option String) : w.contents contents = v.contents contents := by
  have hwithin : ∀ left key, w.contentsWithin left key = v.contentsWithin left key := by
    intro left
    induction left with
    | zero => simp only [contentsWithin, hrep, implies_true]
    | succ left ih => simp only [contentsWithin, hrep, ih, implies_true]
  cases contents with
  | none => rfl
  | some key =>
    simp only [View.contents, hrep, hwithin]

/-- What is in a file does not change as long as no representation does. -/
theorem Backed.contents_eq (h : v.Backed) (hreps : ∀ key rep, v.rep key = some rep → w.rep key = some rep)
    (hnode : v.node id = some node) {contents : Option String} (hbody : node.body = .file contents) :
    ∃ data, v.contents contents = some data ∧ w.contents contents = some data := by
  cases contents with
  | none => exact ⟨[], rfl, rfl⟩
  | some key =>
    obtain ⟨data, n, hholds⟩ := h id node hnode key hbody
    exact ⟨data, contents_of_holds hholds, contents_of_holds (hholds.mono hreps)⟩

/-! ## Unfolding -/

/-- The tree of a node, if it is `depth` levels deep at most. -/
def unfold (v : View) : (depth : Nat) → NodeId → Option Tree
  | 0, _ => none
  | depth + 1, id => (v.node id).bind fun node =>
    match node.body with
    | .file contents => (v.contents contents).map (.file node.props node.freeze.flags)
    | .dir entries =>
      (entries.mapM fun entry => (v.unfold depth entry.id).map (Prod.mk entry.name)).map
        (.dir node.props node.freeze.flags)

/-- True if the node unfolds to the tree. -/
def HasTree (v : View) (id : NodeId) (T : Tree) : Prop :=
  ∃ depth, v.unfold depth id = some T

/-- True if entries stand for these trees, in this order. -/
def HasTrees (v : View) : List Entry → List (String × Tree) → Prop :=
  List.Forall₂ fun entry child => entry.name = child.1 ∧ v.HasTree entry.id child.2

/-- A file unfolds to its contents. -/
theorem unfold_file (hnode : v.node id = some node) {contents : Option String} (hbody : node.body = .file contents)
    (depth : Nat) : v.unfold (depth + 1) id = (v.contents contents).map (.file node.props node.freeze.flags) := by
  simp [unfold, hnode, hbody]

/-- A directory unfolds to what its entries unfold to. -/
theorem unfold_dir (hnode : v.node id = some node) {entries : List Entry} (hbody : node.body = .dir entries)
    (depth : Nat) : v.unfold (depth + 1) id =
      (entries.mapM fun entry => (v.unfold depth entry.id).map (Prod.mk entry.name)).map
        (.dir node.props node.freeze.flags) := by
  simp [unfold, hnode, hbody]

/-- A directory unfolds just if all its entries do. -/
theorem unfold_dir_eq_some (hnode : v.node id = some node) {entries : List Entry} (hbody : node.body = .dir entries)
    {depth : Nat} : v.unfold (depth + 1) id = some T ↔
      ∃ trees, List.Forall₂ (fun entry child => entry.name = child.1 ∧ v.unfold depth entry.id = some child.2) entries trees ∧
        T = .dir node.props node.freeze.flags trees := by
  have hchild : ∀ (entry : Entry) (child : String × Tree),
      (v.unfold depth entry.id).map (Prod.mk entry.name) = some child ↔
        entry.name = child.1 ∧ v.unfold depth entry.id = some child.2 := by
    rintro entry ⟨name, tree⟩
    rw [Option.map_eq_some_iff]
    constructor
    · rintro ⟨tree', htree, hpair⟩
      cases hpair
      exact ⟨rfl, htree⟩
    · rintro ⟨rfl, htree⟩
      exact ⟨tree, htree, rfl⟩
  rw [unfold_dir hnode hbody, Option.map_eq_some_iff]
  simp only [mapM_eq_some_iff, hchild]
  exact exists_congr fun trees => and_congr_right fun _ => eq_comm

/-- What unfolds within some depth unfolds within one more. -/
theorem unfold_succ {depth : Nat} (h : v.unfold depth id = some T) : v.unfold (depth + 1) id = some T := by
  induction depth generalizing id T with
  | zero => exact nomatch h
  | succ depth ih =>
    obtain ⟨node, hnode⟩ : ∃ node, v.node id = some node := by
      cases hnode : v.node id with
      | none => simp [unfold, hnode] at h
      | some node => exact ⟨node, rfl⟩
    cases hbody : node.body with
    | file contents =>
      rw [unfold_file hnode hbody] at h ⊢
      exact h
    | dir entries =>
      rw [unfold_dir_eq_some hnode hbody] at h ⊢
      obtain ⟨trees, htrees, rfl⟩ := h
      exact ⟨trees, htrees.imp fun _ _ hchild => ⟨hchild.1, ih hchild.2⟩, rfl⟩

/-- What unfolds within some depth unfolds within any greater one. -/
theorem unfold_mono {depth depth' : Nat} (hle : depth ≤ depth') (h : v.unfold depth id = some T) :
    v.unfold depth' id = some T := by
  induction hle with
  | refl => exact h
  | step _ ih => exact unfold_succ ih

/-! ## The tree of a node -/

/-- A node has one tree at most. -/
theorem HasTree.unique {T' : Tree} (h : v.HasTree id T) (h' : v.HasTree id T') : T = T' := by
  obtain ⟨depth, hdepth⟩ := h
  obtain ⟨depth', hdepth'⟩ := h'
  have := (unfold_mono (Nat.le_max_left depth depth') hdepth).symm.trans (unfold_mono (Nat.le_max_right _ _) hdepth')
  exact Option.some.inj this

/-- The tree of a file has its contents. -/
theorem hasTree_file (hnode : v.node id = some node) {contents : Option String} (hbody : node.body = .file contents) :
    v.HasTree id T ↔ ∃ data, v.contents contents = some data ∧ T = .file node.props node.freeze.flags data := by
  constructor
  · rintro ⟨_ | depth, hdepth⟩
    · exact nomatch hdepth
    · rw [unfold_file hnode hbody, Option.map_eq_some_iff] at hdepth
      obtain ⟨data, hdata, rfl⟩ := hdepth
      exact ⟨data, hdata, rfl⟩
  · rintro ⟨data, hdata, rfl⟩
    exact ⟨1, by rw [unfold_file hnode hbody, hdata]; rfl⟩

/-- One depth does for all entries of a directory. -/
theorem HasTrees.exists_depth {entries : List Entry} {trees : List (String × Tree)} (h : v.HasTrees entries trees) :
    ∃ depth, List.Forall₂ (fun entry child => entry.name = child.1 ∧ v.unfold depth entry.id = some child.2) entries trees := by
  induction h with
  | nil => exact ⟨0, .nil⟩
  | cons hhead _ ih =>
    obtain ⟨hname, depth, hdepth⟩ := hhead
    obtain ⟨depth', hrest⟩ := ih
    refine ⟨max depth depth', .cons ⟨hname, unfold_mono (Nat.le_max_left _ _) hdepth⟩ ?_⟩
    exact hrest.imp fun _ _ hchild => ⟨hchild.1, unfold_mono (Nat.le_max_right _ _) hchild.2⟩

/-- The tree of a directory has the trees of its entries. -/
theorem hasTree_dir (hnode : v.node id = some node) {entries : List Entry} (hbody : node.body = .dir entries) :
    v.HasTree id T ↔ ∃ trees, v.HasTrees entries trees ∧ T = .dir node.props node.freeze.flags trees := by
  constructor
  · rintro ⟨_ | depth, hdepth⟩
    · exact nomatch hdepth
    · obtain ⟨trees, htrees, rfl⟩ := (unfold_dir_eq_some hnode hbody).1 hdepth
      exact ⟨trees, List.Forall₂.imp (fun _ _ hchild => ⟨hchild.1, depth, hchild.2⟩) htrees, rfl⟩
  · rintro ⟨trees, htrees, rfl⟩
    obtain ⟨depth, hdepth⟩ := htrees.exists_depth
    exact ⟨depth + 1, (unfold_dir_eq_some hnode hbody).2 ⟨trees, hdepth, rfl⟩⟩

/-- Entries stand for the same trees in another view, if each of them keeps its tree. -/
theorem HasTrees.imp_of_mem {entries : List Entry} {trees : List (String × Tree)} (h : v.HasTrees entries trees)
    (hkept : ∀ entry ∈ entries, ∀ T, v.HasTree entry.id T → w.HasTree entry.id T) : w.HasTrees entries trees := by
  refine List.Forall₂.imp ?_ ((List.forall₂_and_left _ _).2 ⟨hkept, h⟩)
  rintro entry child ⟨hkeep, hname, hchild⟩
  exact ⟨hname, hkeep _ hchild⟩

/-- If each entry stands for a tree, there is a list of trees for all of them. -/
theorem exists_hasTrees {entries : List Entry} (h : ∀ entry ∈ entries, ∃ T, v.HasTree entry.id T) :
    ∃ trees, v.HasTrees entries trees := by
  induction entries with
  | nil => exact ⟨[], .nil⟩
  | cons entry entries ih =>
    obtain ⟨T, hT⟩ := h entry List.mem_cons_self
    obtain ⟨trees, htrees⟩ := ih fun entry hentry => h entry (List.mem_cons_of_mem _ hentry)
    exact ⟨(entry.name, T) :: trees, .cons ⟨rfl, hT⟩ htrees⟩

/-- **EVERY NODE HAS A TREE.** -/
theorem Consistent.exists_tree (h : v.Consistent) (hid : v.node id ≠ none) : ∃ T, v.HasTree id T := by
  obtain ⟨rank, hrank⟩ := h.ranked
  -- entries lead to nodes of lower rank
  induction hn : rank id using Nat.strong_induction_on generalizing id with
  | _ n ih =>
    obtain ⟨node, hnode⟩ := Option.ne_none_iff_exists'.1 hid
    cases hbody : node.body with
    | file contents =>
      obtain ⟨data, hdata, -⟩ := h.backed.contents_eq (fun _ _ hrep => hrep) hnode hbody
      exact ⟨_, (hasTree_file hnode hbody).2 ⟨data, hdata, rfl⟩⟩
    | dir entries =>
      have hchildren : ∀ entry ∈ entries, ∃ T, v.HasTree entry.id T := by
        intro entry hentry
        have hlink : v.Links id entry.id := ⟨node, entry, hnode, NodeRevision.children_of_dir hbody ▸ hentry, rfl⟩
        exact ih (rank entry.id) (hn ▸ hrank _ _ hlink) (h.closed hlink) rfl
      obtain ⟨trees, htrees⟩ := exists_hasTrees hchildren
      exact ⟨_, (hasTree_dir hnode hbody).2 ⟨trees, htrees, rfl⟩⟩

/-! ## Nodes that look alike -/

/-- True of bodies that hold the same contents, or entries of the same names for related nodes. -/
inductive BodyAlike (v w : View) (R : NodeId → NodeId → Prop) : Body → Body → Prop where
  | file {contents contents' : Option String} (h : w.contents contents' = v.contents contents) :
      BodyAlike v w R (.file contents) (.file contents')
  | dir {entries entries' : List Entry}
      (h : List.Forall₂ (fun entry entry' => entry.name = entry'.name ∧ R entry.id entry'.id) entries entries') :
      BodyAlike v w R (.dir entries) (.dir entries')

/-- True of node revisions that differ in mutable flags only, and in the ids of related nodes. -/
structure Alike (v w : View) (R : NodeId → NodeId → Prop) (node m : NodeRevision) : Prop where
  props : m.props = node.props
  flags : m.freeze.flags = node.freeze.flags
  body : BodyAlike v w R node.body m.body

variable {R : NodeId → NodeId → Prop}

/-- Nodes that are alike unfold to the same if their children do. -/
theorem Alike.unfold_eq {depth : Nat} (h : Alike v w R node m) (hnode : v.node id = some node) {id' : NodeId}
    (hm : w.node id' = some m) (hR : ∀ a b, R a b → w.unfold depth b = v.unfold depth a) :
    w.unfold (depth + 1) id' = v.unfold (depth + 1) id := by
  cases hbody : node.body with
  | file contents =>
    have halike := hbody ▸ h.body
    generalize hbody' : m.body = body' at halike
    cases halike with
    | file hcontents => rw [unfold_file hnode hbody, unfold_file hm hbody', hcontents, h.props, h.flags]
  | dir entries =>
    have halike := hbody ▸ h.body
    generalize hbody' : m.body = body' at halike
    cases halike with
    | dir hentries =>
      rw [unfold_dir hnode hbody, unfold_dir hm hbody', h.props, h.flags]
      refine congrArg _ (mapM_congr_of_forall₂ (hentries.imp ?_))
      rintro entry entry' ⟨hname, hrelated⟩
      rw [hname, hR _ _ hrelated]

/-- **NODES THAT LOOK ALIKE** all the way down unfold alike. -/
theorem hasTree_iff (h : ∀ a b, R a b → Option.Rel (Alike v w R) (v.node a) (w.node b)) {id' : NodeId} (hid : R id id') :
    w.HasTree id' T ↔ v.HasTree id T := by
  -- related nodes unfold alike to every depth, so also to the one that is enough
  have hunfold : ∀ depth a b, R a b → w.unfold depth b = v.unfold depth a := by
    intro depth
    induction depth with
    | zero => exact fun _ _ _ => rfl
    | succ depth ih =>
      intro a b hab
      have hrel := h a b hab
      cases hnode : v.node a with
      | none =>
        rw [hnode] at hrel
        generalize hm : w.node b = m at hrel
        cases hrel
        simp [unfold, hnode, hm]
      | some node =>
        rw [hnode] at hrel
        generalize hm : w.node b = m at hrel
        cases hrel with
        | some halike => exact halike.unfold_eq hnode hm ih
  exact exists_congr fun depth => by rw [hunfold depth id id' hid]

/-- A node revision with the same properties, body and flags that are not mutable. -/
theorem Backed.alike (h : v.Backed) (hreps : ∀ key rep, v.rep key = some rep → w.rep key = some rep)
    (hnode : v.node id = some node) (hprops : m.props = node.props) (hflags : m.freeze.flags = node.freeze.flags)
    (hbody : m.body = node.body) (hR : ∀ entry ∈ node.children, R entry.id entry.id) : Alike v w R node m where
  props := hprops
  flags := hflags
  body := by
    rw [hbody]
    cases hbody' : node.body with
    | file contents =>
      obtain ⟨data, hv, hw⟩ := h.contents_eq hreps hnode hbody'
      exact .file (hw.trans hv.symm)
    | dir entries =>
      rw [NodeRevision.children_of_dir hbody'] at hR
      exact .dir (List.forall₂_same.2 fun entry hentry => ⟨rfl, hR entry hentry⟩)

/-! ## Changes that are not seen -/

/-- Only what a node leads to counts for its tree. -/
theorem Consistent.hasTree_of_leads (h : v.Consistent) (hreps : ∀ key rep, v.rep key = some rep → w.rep key = some rep)
    (hnodes : ∀ a, v.Leads id a → w.node a = v.node a) : w.HasTree id T ↔ v.HasTree id T := by
  refine hasTree_iff (R := fun a b => b = a ∧ v.Leads id a) ?_ ⟨rfl, .refl⟩
  rintro a b ⟨rfl, hleads⟩
  rw [hnodes b hleads]
  cases hnode : v.node b with
  | none => exact .none
  | some node =>
    refine .some (h.backed.alike hreps hnode rfl rfl rfl ?_)
    exact fun entry hentry => ⟨rfl, hleads.tail ⟨node, entry, hnode, hentry, rfl⟩⟩

/-- Only mutable flags differ. -/
theorem hasTree_of_freeze_eq (hnode : ∀ id, (w.node id).map NodeRevision.freeze = (v.node id).map NodeRevision.freeze)
    (hrep : w.rep = v.rep) : w.HasTree id T ↔ v.HasTree id T := by
  refine hasTree_iff (R := fun a b => b = a) ?_ rfl
  rintro a b rfl
  have hsame := hnode b
  cases hv : v.node b with
  | none =>
    rw [hv, Option.map_none, Option.map_eq_none_iff] at hsame
    rw [hsame]
    exact .none
  | some node =>
    rw [hv, Option.map_some, Option.map_eq_some_iff] at hsame
    obtain ⟨m, hm, hfreeze⟩ := hsame
    have hprops : m.freeze.props = node.freeze.props := by rw [hfreeze]
    have hbody : m.freeze.body = node.freeze.body := by rw [hfreeze]
    rw [hm]
    refine .some ⟨hprops, by rw [hfreeze], ?_⟩
    rw [show m.body = node.body from hbody]
    cases node.body with
    | file contents => exact .file (contents_congr hrep contents)
    | dir entries => exact .dir (List.forall₂_same.2 fun _ _ => ⟨rfl, rfl⟩)

/-- Revisions, transactions and globals do not matter. -/
theorem HasTree.congr (h : v.HasTree id T) (hnode : w.node = v.node) (hrep : w.rep = v.rep) : w.HasTree id T :=
  (hasTree_of_freeze_eq (fun _ => by rw [hnode]) hrep).2 h

/-- Freezing is not seen. -/
theorem hasTree_freezeAll (ids : NodeId → Prop) : (v.freezeAll ids).HasTree id T ↔ v.HasTree id T := by
  refine hasTree_of_freeze_eq (fun a => ?_) rfl
  by_cases ha : ids a
  · rw [node_freezeAll_of_mem ha, Option.map_map]
    exact congrArg (fun f => (v.node a).map f) (funext NodeRevision.freeze_freeze)
  · rw [node_freezeAll_of_not_mem ha]

/-- Every node that is there stands for itself, and a clone for what it is a clone of. -/
def StandsFor (v : View) (old clone a b : NodeId) : Prop :=
  (b = a ∧ v.node a ≠ none) ∨ (a = old ∧ b = clone)

/-- A clone is not seen, and neither is that entries lead to the clone. -/
theorem Consistent.hasTree_clone (h : v.Consistent) {old clone : NodeId} (hold : v.node old = some node) {owner : String}
    (hclone : w.node clone = some (node.toMutable owner)) (hreps : ∀ key rep, v.rep key = some rep → w.rep key = some rep)
    (hothers : ∀ a old', v.node a = some old' → ∃ m, w.node a = some m ∧ Alike v w (v.StandsFor old clone) old' m)
    {id' : NodeId} (hid : v.StandsFor old clone id id') : w.HasTree id' T ↔ v.HasTree id T := by
  refine hasTree_iff ?_ hid
  rintro a b (⟨rfl, ha⟩ | ⟨rfl, rfl⟩)
  · obtain ⟨old', hold'⟩ := Option.ne_none_iff_exists'.1 ha
    obtain ⟨m, hm, halike⟩ := hothers b old' hold'
    rw [hold', hm]
    exact .some halike
  · rw [hold, hclone]
    refine .some (h.backed.alike hreps hold rfl (by simp [NodeRevision.toMutable, NodeRevision.freeze, Flag.isMutable]) rfl ?_)
    exact fun entry hentry => .inl ⟨rfl, h.closed ⟨node, entry, hold, hentry, rfl⟩⟩

/-- A node that is as it was looks as it did. -/
theorem Consistent.alike_self (h : v.Consistent) (hreps : ∀ key rep, v.rep key = some rep → w.rep key = some rep)
    (old clone : NodeId) (hnode : v.node id = some node) : Alike v w (v.StandsFor old clone) node node :=
  h.backed.alike hreps hnode rfl rfl rfl fun entry hentry => .inl ⟨rfl, h.closed ⟨node, entry, hnode, hentry, rfl⟩⟩

end View

/-- If one entry is redirected, it and all others are related to what they were. -/
theorem Node.forall₂_redirect {R : Entry → Entry → Prop} {entries : List Entry} {name : String} {entry : Entry}
    {id : NodeId} (hentry : entries.find? (fun entry => entry.name = name) = some entry) (hsame : ∀ e ∈ entries, R e e)
    (hnew : R entry { entry with id := id }) : List.Forall₂ R entries (redirect name id entries) := by
  induction entries with
  | nil => exact nomatch hentry
  | cons head rest ih =>
    have hrest : ∀ e ∈ rest, R e e := fun e he => hsame e (List.mem_cons_of_mem _ he)
    rw [redirect]
    split
    case isTrue hname =>
      obtain rfl : head = entry := by simpa [List.find?_cons, hname] using hentry
      exact .cons hnew (List.forall₂_same.2 hrest)
    case isFalse hname =>
      exact .cons (hsame head List.mem_cons_self) (ih (by simpa [List.find?_cons, hname] using hentry) hrest)

namespace View

variable {v : View} {id dir : NodeId} {node child : NodeRevision} {T : Tree}

/-- A clone has the tree of what it is a clone of, and no other tree changes. -/
theorem Consistent.hasTree_addClone (h : v.Consistent) {old clone : NodeId} (hold : v.node old = some node)
    (hfree : v.node clone = none) (owner : String) {id' : NodeId} (hid : v.StandsFor old clone id id') :
    (v.setNode clone (node.toMutable owner)).HasTree id' T ↔ v.HasTree id T := by
  have hreps : ∀ key rep, v.rep key = some rep → (v.setNode clone (node.toMutable owner)).rep key = some rep :=
    fun _ _ hrep => hrep
  refine h.hasTree_clone hold (setNode_node_self v clone _) hreps ?_ hid
  intro a old' hold'
  have hne : a ≠ clone := ne_of_free hfree (hold' ▸ nofun)
  exact ⟨old', (setNode_node_of_ne hne).trans hold', h.alike_self hreps old clone hold'⟩

/-- If the entry of a directory is redirected to a clone, no tree changes. -/
theorem Consistent.hasTree_cloneChild (h : v.Consistent) {entries : List Entry} {name : String} {entry : Entry}
    {clone : NodeId} (hnode : v.node dir = some node) (hdir : node.body = .dir entries)
    (hentry : entries.find? (fun entry => entry.name = name) = some entry) (hchild : v.node entry.id = some child)
    (hfree : v.node clone = none) (owner : String) {id' : NodeId} (hid : v.StandsFor entry.id clone id id') :
    ((v.setNode clone (child.toMutable owner)).setNode dir
      { node with body := .dir (Node.redirect name clone entries) }).HasTree id' T ↔ v.HasTree id T := by
  generalize hw : (v.setNode clone (child.toMutable owner)).setNode dir
    { node with body := .dir (Node.redirect name clone entries) } = w
  have hreps : ∀ key rep, v.rep key = some rep → w.rep key = some rep := fun _ _ hrep => hw ▸ hrep
  have hne : ∀ {a old'}, v.node a = some old' → a ≠ clone := fun hold' => ne_of_free hfree (hold' ▸ nofun)
  have hclone : w.node clone = some (child.toMutable owner) := by
    rw [← hw, setNode_node_of_ne (hne hnode).symm, setNode_node_self]
  have hredirected : w.node dir = some { node with body := .dir (Node.redirect name clone entries) } := by
    rw [← hw, setNode_node_self]
  refine h.hasTree_clone hchild hclone hreps ?_ hid
  intro a old' hold'
  by_cases ha : a = dir
  · -- the directory is the one node that changed, in one entry
    subst ha
    cases hnode.symm.trans hold'
    refine ⟨_, hredirected, rfl, rfl, ?_⟩
    rw [hdir]
    refine .dir (Node.forall₂_redirect hentry ?_ ⟨rfl, .inr ⟨rfl, rfl⟩⟩)
    intro e he
    exact ⟨rfl, .inl ⟨rfl, h.closed ⟨node, e, hnode, NodeRevision.children_of_dir hdir ▸ he, rfl⟩⟩⟩
  · refine ⟨old', ?_, h.alike_self hreps entry.id clone hold'⟩
    rw [← hw, setNode_node_of_ne ha, setNode_node_of_ne (hne hold'), hold']

end View

end VersionedTree

import VersionedTree.Proofs.Trail.Pairs
import VersionedTree.Proofs.Tree.Mirror

/-!
# Lockstep — the same step on both sides of a mirror

Where two views mirror each other for a transaction, a step that is taken on both sides through twin handles comes to
twins, or fails on both sides for the same reason. New nodes get ids of their own on each side, and are called the same
from then on.

* **`TrailM.ComeTo`**, **`TrailM.FailAlike`** — what the two sides have in common in the end.
* **`Pairs.cloneChildStep`**, **`Pairs.makeStep`**, **`Pairs.deleteStep`**, **`Pairs.setPropsStep`**,
  **`Pairs.setContentsStep`** — the steps on a fresh node. **`Pairs.ofTransaction`** — the root of the transaction.
-/

namespace VersionedTree

variable {σ α : Type} [RecordStore σ] [LawfulStore σ]

/-- True of a handle that was just read. -/
def View.Fresh (v : View) (node : Node) : Prop :=
  v.Current node ∧ node.revision.Storable

/-- A handle stays fresh when a new node is put. -/
theorem View.Fresh.setNode {v : View} {node : Node} (h : v.Fresh node) {id : NodeId} {m : NodeRevision}
    (hfree : v.node id = none) : (v.setNode id m).Fresh node :=
  ⟨(View.setNode_node_of_ne (h.1.ne_of_free hfree).symm).trans h.1, h.2⟩

namespace NodeRevision

/-- A clone of a node without flags has that of its owner, and no other. -/
theorem flags_toMutable {node : NodeRevision} (owner : String) (h : node.flags = []) :
    (node.toMutable owner).flags = [.mutable owner] := by
  simp [toMutable, freeze, h]

/-- Entries may change without the flags. -/
theorem flags_mapEntries (node : NodeRevision) (f : List Entry → List Entry) : (node.mapEntries f).flags = node.flags := by
  rw [mapEntries]
  split <;> rfl

end NodeRevision

namespace TrailM

/-- The two sides mirror each other, maybe with more names, and what they have come to is related. -/
def ComeTo (ρ : Renaming) (name : String) (P : Renaming → α → α → Prop) (a : α) (w : View) (a' : α) (w' : View) : Prop :=
  ∃ τ, ρ ≤ τ ∧ Mirror τ name w w' ∧ P τ a a'

/-- The same after something was added to both sides: what was fresh is still so. -/
def Adds (ρ : Renaming) (name : String) (v u : View) (P : Renaming → α → α → Prop) (a : α) (w : View) (a' : α) (w' : View) :
    Prop :=
  ∃ τ, ρ ≤ τ ∧ Mirror τ name w w' ∧ P τ a a' ∧ (∀ node, v.Fresh node → w.Fresh node) ∧ ∀ node, u.Fresh node → w'.Fresh node

/-- Both sides have failed for the same reason, and nothing has changed. -/
def FailAlike (v u : View) (e : Error) (w : View) (e' : Error) (w' : View) : Prop :=
  e.erase = e'.erase ∧ w = v ∧ w' = u

variable {ρ : Renaming} {name owner owner' : String} {v u : View} {n n' : Node}
  {E : Error → View → Error → View → Prop}

/-- What was found without any change is come to under the same names. -/
theorem Pairs.comeTo {m m' : TrailM σ α} {P : Renaming → α → α → Prop} (h : Mirror ρ name v u)
    (hm : m.Pairs m' v u (fun a w a' w' => (w = v ∧ w' = u) ∧ P ρ a a') E) : m.Pairs m' v u (ComeTo ρ name P) E := by
  refine .mono hm ?_ fun _ _ _ _ he => he
  rintro a _ a' _ ⟨⟨rfl, rfl⟩, hp⟩
  exact ⟨ρ, le_refl ρ, h, hp⟩

/-- A fault of the store is a limit, and so is an error that is one. -/
theorem isLimit_of_fault_or {e limit : Error} (h : e.IsFault σ ∨ e = limit) (hlimit : limit.isLimit = true) :
    e.isLimit = true := by
  rcases h with hfault | rfl
  · exact hfault.isLimit
  · exact hlimit

/-- Looking up what is there fails only at a limit. -/
theorem isLimit_of_there {e : Error} {found : Option α} {a : α} {P : Prop} (hthere : found = some a)
    (h : e.IsFault σ ∨ found = none ∧ P) : e.isLimit = true := by
  rcases h with hfault | ⟨hnone, -⟩
  · exact hfault.isLimit
  · exact nomatch hthere.symm.trans hnone

/-! ## Looking -/

/-- Handles on twins are loaded as twins, and are fresh. -/
theorem Pairs.load (h : Mirror ρ name v u) {a b : NodeId} (hab : ρ.ids a b) :
    (Node.load a : TrailM σ Node).Pairs (Node.load b) v u
      (fun node w node' w' => (w = v ∧ w' = u) ∧ (node.id = a ∧ node'.id = b) ∧ ρ.NodeTwin name node node' ∧ v.Fresh node ∧
        u.Fresh node') E := by
  obtain ⟨r, r', hr, hr', -⟩ := h.exists_twins hab
  refine .of_reads (Reads.load a) (Reads.load b) ?_ (fun e he => isLimit_of_there hr he) fun e he => isLimit_of_there hr' he
  rintro node node' ⟨rfl, hnode, hstorable⟩ ⟨rfl, hnode', hstorable'⟩
  exact ⟨⟨rfl, rfl⟩, ⟨hab, h.node hab hnode hnode'⟩, ⟨hnode, hstorable⟩, hnode', hstorable'⟩

/-- Under a name twins have twin entries, or fail alike. -/
theorem Pairs.entry (htwin : ρ.NodeTwin name n n') (entry : String) :
    (TrailM.ofResult (n.entry entry) : TrailM σ Entry).Pairs (TrailM.ofResult (n'.entry entry)) v u
      (fun entry w entry' w' => (w = v ∧ w' = u) ∧ ρ.EntryTwin entry entry') (FailAlike v u) := by
  refine .ofResult ?_
  rcases htwin.entry_cases entry with hok | ⟨e, e', hleft, hright, he⟩
  · exact .inl hok
  · exact .inr ⟨e, e', hleft, hright, he, rfl, rfl⟩

/-- Twin directories have twin entries. Twins that are none fail alike. -/
theorem Pairs.entries (htwin : ρ.NodeTwin name n n') :
    (TrailM.ofResult n.entries : TrailM σ _).Pairs (TrailM.ofResult n'.entries) v u
      (fun entries w entries' w' => (w = v ∧ w' = u) ∧ (n.revision.body = .dir entries ∧ n'.revision.body = .dir entries') ∧
        List.Forall₂ ρ.EntryTwin entries entries') (FailAlike v u) := by
  refine .ofResult ?_
  rcases htwin.entries_cases with ⟨entries, entries', hleft, hright, hentries⟩ | ⟨e, e', hleft, hright, he⟩
  · exact .inl ⟨entries, entries', hleft, hright, ⟨Node.entries_eq_ok.1 hleft, Node.entries_eq_ok.1 hright⟩, hentries⟩
  · exact .inr ⟨e, e', hleft, hright, he, rfl, rfl⟩

/-- Under a name twins have twin children, or fail alike. -/
theorem Pairs.openChild (h : Mirror ρ name v u) (htwin : ρ.NodeTwin name n n') (entry : String) :
    (n.openChild entry : TrailM σ Node).Pairs (n'.openChild entry) v u
      (fun child w child' w' => (w = v ∧ w' = u) ∧ ρ.NodeTwin name child child') (FailAlike v u) := by
  refine .after (Pairs.entry htwin entry) fun entry entry' hentry => ?_
  exact .mono (Pairs.load h hentry.2) (fun _ _ _ _ hq => ⟨hq.1, hq.2.2.1⟩) fun _ _ _ _ he => he

/-- Names lead from twins to twins, or fail alike, by induction on them. -/
theorem Pairs.follow (h : Mirror ρ name v u) (htwin : ρ.NodeTwin name n n') (names : List String) :
    (Path.follow n names : TrailM σ Node).Pairs (Path.follow n' names) v u
      (fun node w node' w' => (w = v ∧ w' = u) ∧ ρ.NodeTwin name node node') (FailAlike v u) := by
  induction names generalizing n n' with
  | nil => exact .pure ⟨⟨rfl, rfl⟩, htwin⟩
  | cons entry names ih => exact .after (Pairs.openChild h htwin entry) fun child child' hchild => ih hchild

/-- The contents that a handle stands for are the same, also if the handle is not fresh. -/
theorem Pairs.contents (h : Mirror ρ name v u) (htwin : ρ.NodeTwin name n n') :
    (n.contents : TrailM σ Bytes).Pairs n'.contents v u (fun data w data' w' => (w = v ∧ w' = u) ∧ data = data')
      (FailAlike v u) := by
  have hbody := htwin.revision.body
  rw [Node.contents, Node.contents]
  generalize n.revision.body = body, n'.revision.body = body' at hbody
  cases hbody with
  | empty => exact .pure ⟨⟨rfl, rfl⟩, rfl⟩
  | dir _ => exact .throw ⟨rfl, rfl, rfl⟩
  | file hkl =>
    obtain ⟨data, k, l, hholds, hholds'⟩ := h.key hkl
    exact .of_reads (Reads.contents hholds) (Reads.contents hholds') (fun _ _ hq hq' => hq.trans hq'.symm)
      (fun _ he => he.isLimit) fun _ he => he.isLimit

/-- Twins are both mutable, or fail alike. -/
theorem Pairs.requireMutable (htwin : ρ.NodeTwin name n n') :
    (n.requireMutable : TrailM σ Unit).Pairs n'.requireMutable v u
      (fun _ w _ w' => (w = v ∧ w' = u) ∧ n.revision.isMutable = true ∧ n'.revision.isMutable = true) (FailAlike v u) := by
  have hsame : n.revision.isMutable = n'.revision.isMutable := htwin.revision.isMutable_eq
  rw [Node.requireMutable, Node.requireMutable, Node.isMutable, Node.isMutable, ← hsame]
  cases hmutable : n.revision.isMutable with
  | true => exact .pure ⟨⟨rfl, rfl⟩, rfl, rfl⟩
  | false => exact .throw ⟨rfl, rfl, rfl⟩

/-! ## Writing -/

/-- Steps end like this: a node revision takes the place of the one that the handle is fresh from, under the same owner, and
    the handle holds it. -/
theorem Pairs.saveAndHold {τ : Renaming} {a a' : α} {P : Renaming → α → α → Prop} {r r' : NodeRevision} (hle : ρ ≤ τ)
    (h : Mirror τ name v u) (hids : τ.ids n.id n'.id) (hn : v.Fresh n) (hn' : u.Fresh n') (htwin : τ.Twin name r r')
    (hflags : r.flags = n.revision.flags) (hflags' : r'.flags = n'.revision.flags) (hstorable : r.Storable)
    (hstorable' : r'.Storable) (ha : P τ a a') :
    (Node.save ⟨n.id, r⟩ >>= fun _ => Pure.pure (a, ⟨n.id, r⟩) : TrailM σ (α × Node)).Pairs
      (Node.save ⟨n'.id, r'⟩ >>= fun _ => Pure.pure (a', ⟨n'.id, r'⟩)) v u
      (ComeTo ρ name fun τ r r' => P τ r.1 r'.1 ∧ τ.NodeTwin name r.2 r'.2) E := by
  refine .bind (.of_ends (Q := fun _ w _ w' => Mirror τ name w w') (Writes.putNode hstorable) (Writes.putNode hstorable')
    ?_ (fun _ _ he => he.elim) fun _ _ he => he.elim) ?_ fun _ _ _ _ he => he
  · rintro _ w _ w' rfl rfl
    exact h.setNode hids hn.1 hn'.1 htwin hflags hflags'
  · intro _ w _ w' hsaved
    exact .pure ⟨τ, hle, hsaved, ha, hids, htwin⟩

/-- Mutable successors are made of twins that nobody owns. -/
theorem Pairs.cloneFor (h : Mirror ρ name v u) (htwin : ρ.NodeTwin name n n') (hn : v.Fresh n) (hn' : u.Fresh n')
    (hflags : n.revision.flags = []) (hflags' : n'.revision.flags = []) (howners : ρ.OwnerTwin name owner owner')
    (howner : v.Owns name owner) (howner' : u.Owns name owner') :
    (n.cloneFor owner : TrailM σ Node).Pairs (n'.cloneFor owner') v u
      (Adds ρ name v u fun τ clone clone' => τ.NodeTwin name clone clone') E := by
  refine .of_ends (Ends.cloneFor owner hn.2) (Ends.cloneFor owner' hn'.2) ?_ ?_ ?_
  · rintro clone w clone' w' ⟨hfree, -, hrevision, rfl⟩ ⟨hfree', -, hrevision', rfl⟩
    have hrevisions := htwin.revision.toMutable howners
    obtain ⟨τ, hle, hids, hmirror⟩ := h.newNode hfree hfree' hrevisions howner howner'
      (NodeRevision.flags_toMutable owner hflags) (NodeRevision.flags_toMutable owner' hflags')
    refine ⟨τ, hle, hmirror, ⟨hids, ?_⟩, fun _ hx => hx.setNode hfree, fun _ hx => hx.setNode hfree'⟩
    rw [hrevision, hrevision']
    exact hrevisions.mono hle
  · exact fun e w he => isLimit_of_fault_or he.2 rfl
  · exact fun e w he => isLimit_of_fault_or he.2 rfl

/-- New nodes of the same kind are made. -/
theorem Pairs.create (h : Mirror ρ name v u) (hv : v.Ordered) (hu : u.Ordered) (kind : Kind)
    (howners : ρ.OwnerTwin name owner owner') (howner : v.Owns name owner) (howner' : u.Owns name owner') :
    (NodeRecord.create (.newMutable kind owner) : TrailM σ NodeId).Pairs (NodeRecord.create (.newMutable kind owner')) v u
      (Adds ρ name v u fun τ id id' => τ.ids id id') E := by
  refine .of_ends (Ends.createFree hv (.newMutable kind owner)) (Ends.createFree hu (.newMutable kind owner')) ?_ ?_ ?_
  · rintro _ _ _ _ ⟨rfl, -, rfl⟩ ⟨rfl, -, rfl⟩
    have hbeside := View.Beside.setGlobal name v Counter.nextNode (Text.toBytes (Decimal.text (v.nextNode + 1).toNat))
    have hbeside' := View.Beside.setGlobal name u Counter.nextNode (Text.toBytes (Decimal.text (u.nextNode + 1).toNat))
    have hfree := hv.nextNode_free
    have hfree' := hu.nextNode_free
    obtain ⟨τ, hle, hids, hmirror⟩ := (h.beside_both hbeside hbeside').newNode hfree hfree' (.newMutable kind howners)
      (hbeside.owns howner) (hbeside'.owns howner') rfl rfl
    exact ⟨τ, hle, hmirror, hids, fun _ hx => hx.setNode hfree, fun _ hx => hx.setNode hfree'⟩
  · exact fun e w he => isLimit_of_fault_or he.2 rfl
  · exact fun e w he => isLimit_of_fault_or he.2 rfl

/-- The same contents are stored, also as different deltas. -/
theorem Pairs.storeContents (config config' : Config) (h : Mirror ρ name v u) (hv : v.Consistent) (hu : u.Consistent)
    {previous previous' : Option String} (hprevious : Option.Rel ρ.keys previous previous') (data : Bytes) :
    (Representation.storeContents config previous data : TrailM σ String).Pairs
      (Representation.storeContents config' previous' data) v u
      (Adds ρ name v u fun τ key key' => τ.keys key key' ∧ key ≠ "" ∧ key' ≠ "") E := by
  have hholds : ∀ base, previous = some base → ∃ source n, v.Holds base source n := by
    rintro base rfl
    cases hprevious with
    | some hkl =>
      obtain ⟨source, n, -, hholds, -⟩ := h.key hkl
      exact ⟨source, n, hholds⟩
  have hholds' : ∀ base, previous' = some base → ∃ source n, u.Holds base source n := by
    rintro base rfl
    cases hprevious with
    | some hkl =>
      obtain ⟨source, -, n, -, hholds⟩ := h.key hkl
      exact ⟨source, n, hholds⟩
  -- a counter of keys always has a next one, so what is left are limits
  have hlimit : ∀ {x : View} {config : Config} {previous : Option String} {e : Error}, x.Consistent →
      (e.IsFault σ ∨ (∃ cause rep n, e = .storage cause ∧ x.Proposes config previous data rep n ∧ ¬ rep.Fits) ∨
        ∀ key, Counter.currentKey (x.global Counter.nextRepresentation) = .ok key → Base36.next? key = none) →
      e.isLimit = true := by
    rintro x config previous e hx (hfault | ⟨cause, -, -, rfl, -⟩ | hstuck)
    · exact hfault.isLimit
    · rfl
    · obtain ⟨n, hkey, -⟩ := hx.repKeys
      exact nomatch (Base36.next?_keyAt n).symm.trans (hstuck _ hkey)
  refine .of_ends (Ends.storeContents config data hholds) (Ends.storeContents config' data hholds') ?_
    (fun e w he => hlimit hv he.2) fun e w he => hlimit hu he.2
  rintro key w key' w' ⟨next, rep, n, hrep, hkey, hnext, rfl⟩ ⟨next', rep', n', hrep', hkey', hnext', rfl⟩
  have hne : ∀ {key next}, Base36.next? key = some next → key ≠ "" := by
    rintro _ _ hnext rfl
    exact nomatch hnext
  have hfree := (hv.repKey_free hkey hnext).1
  have hfree' := (hu.repKey_free hkey' hnext').1
  have hcounted := h.beside_both (.setGlobal name v Counter.nextRepresentation (Text.toBytes next))
    (.setGlobal name u Counter.nextRepresentation (Text.toBytes next'))
  obtain ⟨τ, hle, hkeys, hmirror⟩ := hcounted.newKey hfree hfree' (hrep.holds_stored hfree) (hrep'.holds_stored hfree')
  exact ⟨τ, hle, hmirror, ⟨hkeys, hne hnext, hne hnext'⟩, fun _ hx => hx, fun _ hx => hx⟩

/-! ## Steps on fresh nodes -/

section Steps

variable (h : Mirror ρ name v u) (htwin : ρ.NodeTwin name n n') (hn : v.Fresh n) (hn' : u.Fresh n')

include h htwin hn hn'

/-- What is mutable and seen owns what is made in it. -/
theorem owns_of_mutable (hmutable : n.revision.isMutable = true) (hmutable' : n'.revision.isMutable = true) :
    ρ.OwnerTwin name n.id.text n'.id.text ∧ v.Owns name n.id.text ∧ u.Owns name n'.id.text := by
  obtain ⟨hsees, hsees'⟩ := h.sees htwin.id
  exact ⟨.inr ⟨n.id, n'.id, htwin.id, rfl, rfl⟩, .inr ⟨n.id, rfl, hsees.belongs hn.1 hmutable⟩,
    .inr ⟨n'.id, rfl, hsees'.belongs hn'.1 hmutable'⟩⟩

/-- Cloning the child of twins gives twins, or fails alike. -/
theorem Pairs.cloneChildStep (hv : v.Consistent) (hu : u.Consistent) (entry : String) :
    (n.cloneChildStep entry : TrailM σ (Node × Node)).Pairs (n'.cloneChildStep entry) v u
      (ComeTo ρ name fun τ r r' => τ.NodeTwin name r.1 r'.1 ∧ τ.NodeTwin name r.2 r'.2) (FailAlike v u) := by
  refine .after (Pairs.requireMutable htwin) ?_
  rintro _ _ ⟨hmutable, hmutable'⟩
  refine .after (Pairs.entry htwin entry) ?_
  intro found found' hfound
  refine .after (Pairs.load h hfound.2) ?_
  rintro child child' ⟨-, hchild, hfresh, hfresh'⟩
  have hsame := hchild.isMutable_eq
  by_cases hcloned : child.isMutable = true
  · rw [if_pos hcloned, if_pos (hsame ▸ hcloned)]
    exact .pure ⟨ρ, le_refl ρ, h, hchild, htwin⟩
  · rw [if_neg hcloned, if_neg (hsame ▸ hcloned)]
    have hflags := hv.flags_of_immutable hfresh.1 (Bool.eq_false_iff.2 hcloned)
    have hcloned' : ¬ child'.isMutable = true := hsame ▸ hcloned
    have hflags' := hu.flags_of_immutable hfresh'.1 (Bool.eq_false_iff.2 hcloned')
    obtain ⟨howners, howner, howner'⟩ := owns_of_mutable h htwin hn hn' hmutable hmutable'
    refine .bind (Pairs.cloneFor h hchild hfresh hfresh' hflags hflags' howners howner howner') ?_ fun _ _ _ _ he => he
    rintro clone w clone' w' ⟨τ, hle, hmirror, hclone, hkeeps, hkeeps'⟩
    have hdir := (htwin.mono hle).revision.mapEntries fun _ _ hentries =>
      Renaming.redirect_twin hentries entry hclone.id
    exact .saveAndHold hle hmirror (hle.1 _ _ htwin.id) (hkeeps n hn) (hkeeps' n' hn') hdir
      (NodeRevision.flags_mapEntries _ _) (NodeRevision.flags_mapEntries _ _) (hn.2.mapEntries _) (hn'.2.mapEntries _) hclone

/-- Making a child of twins gives twins, or fails alike. -/
theorem Pairs.makeStep (hv : v.Ordered) (hu : u.Ordered) (entry : String) (kind : Kind) :
    (n.makeStep entry kind : TrailM σ (Node × Node)).Pairs (n'.makeStep entry kind) v u
      (ComeTo ρ name fun τ r r' => τ.NodeTwin name r.1 r'.1 ∧ τ.NodeTwin name r.2 r'.2) (FailAlike v u) := by
  refine .after (Pairs.requireMutable htwin) ?_
  rintro _ _ ⟨hmutable, hmutable'⟩
  refine .after (Pairs.entries htwin) ?_
  rintro entries entries' ⟨-, hentries⟩
  dsimp only
  rw [← Renaming.any_name_eq hentries entry]
  by_cases htaken : (entries.any fun found => found.name = entry) = true
  · rw [if_pos htaken, if_pos htaken]
    exact .throw ⟨rfl, rfl, rfl⟩
  · rw [if_neg htaken, if_neg htaken]
    obtain ⟨howners, howner, howner'⟩ := owns_of_mutable h htwin hn hn' hmutable hmutable'
    refine .bind (Pairs.create h hv hu kind howners howner howner') ?_ fun _ _ _ _ he => he
    rintro id w id' w' ⟨τ, hle, hmirror, hid, hkeeps, hkeeps'⟩
    have hdir := (htwin.mono hle).revision.mapEntries fun _ _ (hentries : List.Forall₂ τ.EntryTwin _ _) =>
      List.rel_append hentries (.cons (⟨rfl, hid⟩ : τ.EntryTwin ⟨entry, id⟩ ⟨entry, id'⟩) .nil)
    exact .saveAndHold hle hmirror (hle.1 _ _ htwin.id) (hkeeps n hn) (hkeeps' n' hn') hdir
      (NodeRevision.flags_mapEntries _ _) (NodeRevision.flags_mapEntries _ _) (hn.2.mapEntries _) (hn'.2.mapEntries _)
      ⟨hid, .newMutable kind (howners.mono hle)⟩

/-- Deleting a child of twins leaves twins, or fails alike. -/
theorem Pairs.deleteStep (entry : String) :
    (n.deleteStep entry : TrailM σ (Unit × Node)).Pairs (n'.deleteStep entry) v u
      (ComeTo ρ name fun τ r r' => r.1 = r'.1 ∧ τ.NodeTwin name r.2 r'.2) (FailAlike v u) := by
  refine .after (Pairs.entries htwin) ?_
  rintro entries entries' ⟨-, hentries⟩
  refine .after (Pairs.requireMutable htwin) ?_
  intro _ _ _
  have hfind := Renaming.find?_twin hentries entry
  generalize (entries.find? fun found => found.name = entry) = found,
    (entries'.find? fun found => found.name = entry) = found' at hfind
  cases hfind with
  | none => exact .throw ⟨rfl, rfl, rfl⟩
  | some hfound =>
    refine .after (Pairs.load h hfound.2) ?_
    rintro child child' ⟨-, hchild, -⟩
    rw [← hchild.holdsChanges_eq]
    by_cases hholds : child.holdsChanges = true
    · rw [if_pos hholds, if_pos hholds]
      exact .throw ⟨rfl, rfl, rfl⟩
    · rw [if_neg hholds, if_neg hholds]
      have hdir := htwin.revision.withBody (.dir (Renaming.eraseP_twin hentries entry))
      exact .saveAndHold (P := fun _ => Eq) (le_refl ρ) h htwin.id hn hn' hdir rfl rfl (hn.2.withEntries _)
        (hn'.2.withEntries _) rfl

/-- Setting the properties of twins leaves twins, or fails alike. -/
theorem Pairs.setPropsStep (props : Skel) :
    (n.setPropsStep props : TrailM σ (Unit × Node)).Pairs (n'.setPropsStep props) v u
      (ComeTo ρ name fun τ r r' => r.1 = r'.1 ∧ τ.NodeTwin name r.2 r'.2) (FailAlike v u) := by
  refine .after (Pairs.requireMutable htwin) ?_
  intro _ _ _
  refine .after (Pairs.ofExcept (P := Eq) ?_) ?_
  · cases PropList.ofSkel props with
    | ok list => exact .inl ⟨list, list, rfl, rfl, rfl⟩
    | error cause => exact .inr ⟨cause, cause, rfl, rfl, rfl, rfl, rfl⟩
  · rintro list _ rfl
    have hnode := htwin.revision.withProps list
    exact .saveAndHold (P := fun _ => Eq) (le_refl ρ) h htwin.id hn hn' hnode rfl rfl ⟨hn.2.flags, hn.2.body⟩
      ⟨hn'.2.flags, hn'.2.body⟩ rfl

/-- Setting the contents of twins leaves twins, or fails alike. -/
theorem Pairs.setContentsStep (config config' : Config) (hv : v.Consistent) (hu : u.Consistent) (data : Bytes) :
    (n.setContentsStep config data : TrailM σ (Unit × Node)).Pairs (n'.setContentsStep config' data) v u
      (ComeTo ρ name fun τ r r' => r.1 = r'.1 ∧ τ.NodeTwin name r.2 r'.2) (FailAlike v u) := by
  -- what is stored when both are files
  have hstore : ∀ {previous previous'}, Option.Rel ρ.keys previous previous' →
      (n.requireMutable >>= fun _ => Representation.storeContents config previous data >>= fun key =>
        Node.save ⟨n.id, { n.revision with body := .file (some key) }⟩ >>= fun _ =>
          Pure.pure ((), ⟨n.id, { n.revision with body := .file (some key) }⟩) : TrailM σ (Unit × Node)).Pairs
        (n'.requireMutable >>= fun _ => Representation.storeContents config' previous' data >>= fun key =>
          Node.save ⟨n'.id, { n'.revision with body := .file (some key) }⟩ >>= fun _ =>
            Pure.pure ((), ⟨n'.id, { n'.revision with body := .file (some key) }⟩)) v u
        (ComeTo ρ name fun τ r r' => r.1 = r'.1 ∧ τ.NodeTwin name r.2 r'.2) (FailAlike v u) := by
    intro previous previous' hprevious
    refine .after (Pairs.requireMutable htwin) ?_
    intro _ _ _
    refine .bind (Pairs.storeContents config config' h hv hu hprevious data) ?_ fun _ _ _ _ he => he
    rintro key w key' w' ⟨τ, hle, hmirror, ⟨hkeys, hne, hne'⟩, hkeeps, hkeeps'⟩
    have hfile := (htwin.mono hle).revision.withBody (.file hkeys)
    exact .saveAndHold (P := fun _ => Eq) hle hmirror (hle.1 _ _ htwin.id) (hkeeps n hn) (hkeeps' n' hn') hfile rfl rfl
      ⟨hn.2.flags, fun heq => hne (Option.some.inj heq)⟩ ⟨hn'.2.flags, fun heq => hne' (Option.some.inj heq)⟩ rfl
  have hbody := htwin.revision.body
  rw [Node.setContentsStep, Node.setContentsStep]
  generalize n.revision.body = body, n'.revision.body = body' at hbody
  cases hbody with
  | dir _ => exact .throw ⟨rfl, rfl, rfl⟩
  | empty => exact hstore .none
  | file hkeys => exact hstore (.some hkeys)

end Steps

/-! ## Roots -/

/-- A revision has twin roots on both sides, or is missing on both. -/
theorem Pairs.readRevision (h : Mirror ρ name v u) (number : UInt64) :
    (Revision.read number : TrailM σ Revision).Pairs (Revision.read number) v u
      (fun revision w revision' w' => (w = v ∧ w' = u) ∧ ρ.ids revision.root revision'.root) (FailAlike v u) := by
  have hrel := h.revision number
  generalize hleft : v.revision number = left, hright : u.revision number = right at hrel
  cases hrel with
  | none =>
    have hfails : ∀ {x : View}, x.revision number = none → (Revision.read number : TrailM σ Revision).Ends x (fun _ _ => False)
        (fun e w => w = x ∧ (e.IsFault σ ∨ e = .notFound (.revision number.toNat))) := by
      intro x hx
      refine Ends.mono (Reads.revision number) ?_ fun e w he => ⟨he.1, he.2.imp_right And.right⟩
      rintro revision w ⟨-, hrevision⟩
      exact nomatch hx.symm.trans hrevision
    refine .of_errors (hfails hleft) (hfails hright) ?_
    rintro e w e' w' ⟨rfl, hfault | rfl⟩ ⟨rfl, hfault' | rfl⟩
    · exact .inl hfault.isLimit
    · exact .inl hfault.isLimit
    · exact .inr (.inl hfault'.isLimit)
    · exact .inr (.inr ⟨rfl, rfl, rfl⟩)
  | some hroot =>
    refine .of_reads (Reads.revision number) (Reads.revision number) ?_ (fun e he => isLimit_of_there hleft he) fun e he =>
      isLimit_of_there hright he
    intro revision revision' hrevision hrevision'
    cases hleft.symm.trans hrevision
    cases hright.symm.trans hrevision'
    exact hroot

/-- The roots of a revision are twins, or the revision is missing on both sides. -/
theorem Pairs.ofRevision (h : Mirror ρ name v u) (number : UInt64) :
    (Root.ofRevision number : TrailM σ Node).Pairs (Root.ofRevision number) v u
      (fun root w root' w' => (w = v ∧ w' = u) ∧ ρ.NodeTwin name root root') (FailAlike v u) := by
  refine .after (Pairs.readRevision h number) fun revision revision' hroot => ?_
  exact .mono (Pairs.load h hroot) (fun _ _ _ _ hq => ⟨hq.1, hq.2.2.1⟩) fun _ _ _ _ he => he

/-- The root that a transaction started from has no flags. -/
theorem flags_of_base {txn : Transaction} (hv : v.Consistent) (htxn : v.txn name = some txn) (hid : n.id = txn.baseRoot)
    (hn : v.Fresh n) : n.revision.flags = [] := by
  obtain ⟨old, hold, himmutable⟩ := hv.baseRoot_immutable htxn
  have hnode : v.node n.id = some n.revision := hn.1
  rw [hid] at hnode
  cases hnode.symm.trans hold
  exact hv.flags_of_immutable hnode himmutable

/-- The root of the transaction is cloned on both sides, or on none. -/
theorem Pairs.ofTransaction (h : Mirror ρ name v u) (hv : v.Consistent) (hu : u.Consistent) :
    (Root.ofTransaction name : TrailM σ Node).Pairs (Root.ofTransaction name) v u
      (ComeTo ρ name fun τ root root' => τ.NodeTwin name root root') (FailAlike v u) := by
  obtain ⟨txn, txn', htxn, htxn', hroot, hbase⟩ := h.txn
  refine .after (Pairs.of_reads (P := fun found found' => txn = found ∧ txn' = found') (Reads.txn name) (Reads.txn name)
    ?_ (fun e he => isLimit_of_there htxn he) fun e he => isLimit_of_there htxn' he) ?_
  · intro found found' hfound hfound'
    exact ⟨Option.some.inj (htxn.symm.trans hfound), Option.some.inj (htxn'.symm.trans hfound')⟩
  rintro _ _ ⟨rfl, rfl⟩
  -- twins are one to one, so the transaction was entered on both sides or on neither
  have hfirst : txn.root = txn.baseRoot ↔ txn'.root = txn'.baseRoot := Relator.rel_eq ρ.ids_unique hroot hbase
  by_cases hentered : txn.root = txn.baseRoot
  · rw [if_pos hentered, if_pos (hfirst.1 hentered)]
    refine .after (Pairs.load h hbase) ?_
    rintro base base' ⟨⟨hid, hid'⟩, htwin, hfresh, hfresh'⟩
    have hflags := flags_of_base hv htxn hid hfresh
    have hflags' := flags_of_base hu htxn' hid' hfresh'
    refine .bind (Pairs.cloneFor h htwin hfresh hfresh' hflags hflags' (.inl ⟨rfl, rfl⟩) (.inl rfl) (.inl rfl)) ?_
      fun _ _ _ _ he => he
    rintro root w root' w' ⟨τ, hle, hmirror, hroots, -⟩
    obtain ⟨found, found', hfound, hfound', -⟩ := hmirror.txn
    refine .bind (.of_ends (Q := fun _ x _ x' => Mirror τ name x x') (Ends.setRoot name root.id) (Ends.setRoot name root'.id)
      ?_ (fun e x he => isLimit_of_there hfound he.2) fun e x he => isLimit_of_there hfound' he.2) ?_ fun _ _ _ _ he => he
    · rintro _ x _ x' ⟨t, ht, rfl⟩ ⟨t', ht', rfl⟩
      exact hmirror.setRoot hroots.id ht ht'
    · intro _ x _ x' hset
      exact .pure ⟨τ, hle, hset, hroots⟩
  · rw [if_neg hentered, if_neg fun heq => hentered (hfirst.2 heq)]
    refine .mono (Pairs.load h hroot) ?_ fun _ _ _ _ he => he
    rintro root _ root' _ ⟨⟨rfl, rfl⟩, -, htwin, -⟩
    exact ⟨ρ, le_refl ρ, h, htwin⟩

end TrailM

end VersionedTree

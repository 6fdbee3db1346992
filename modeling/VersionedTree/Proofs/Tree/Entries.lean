import VersionedTree.Proofs.Tree.Consistent

/-!
# Entries — what a directory may hold

A directory may have entries for any nodes that are immutable, and for the mutable ones that it owns, for each of them
once. Whatever happens to the nodes it still may, unless one of them gets another owner.

* **`View.MayHold`** — what entries a directory may have. **`MayHold.keep`** — it still may, if no node changes its owner.
* **`MayHold.redirect`** and **`MayHold.append`** — an entry comes for one more node that the directory owns.
-/

namespace VersionedTree

namespace Node

variable {name : String} {id : NodeId}

/-- After a redirection all entries are old ones, but for one with the new id. -/
theorem mem_redirect {entry : Entry} {entries : List Entry} (h : entry ∈ redirect name id entries) :
    entry ∈ entries ∨ entry.id = id := by
  induction entries with
  | nil => exact nomatch h
  | cons head rest ih =>
    rw [redirect] at h
    split at h
    case isTrue =>
      rcases List.mem_cons.1 h with rfl | h
      · exact .inr rfl
      · exact .inl (List.mem_cons_of_mem _ h)
    case isFalse =>
      rcases List.mem_cons.1 h with rfl | h
      · exact .inl List.mem_cons_self
      · exact (ih h).imp_left (List.mem_cons_of_mem _)

/-- The entry that is redirected is still found by its name. -/
theorem find?_redirect {entry : Entry} {entries : List Entry}
    (hentry : entries.find? (fun entry => entry.name = name) = some entry) :
    (redirect name id entries).find? (fun entry => entry.name = name) = some { entry with id := id } := by
  induction entries with
  | nil => cases hentry
  | cons head rest ih =>
    rw [redirect]
    split
    case isTrue hname =>
      obtain rfl : head = entry := by simpa [List.find?_cons, hname] using hentry
      simp [hname]
    case isFalse hname =>
      have hentry' : rest.find? (fun entry => entry.name = name) = some entry := by
        simpa [List.find?_cons, hname] using hentry
      simpa [List.find?_cons, hname] using ih hentry'

/-- Under all other names the same entries are found. -/
theorem find?_redirect_of_ne {other : String} {entries : List Entry} (h : other ≠ name) :
    (redirect name id entries).find? (fun entry => entry.name = other) =
      entries.find? fun entry => entry.name = other := by
  induction entries with
  | nil => rfl
  | cons head rest ih =>
    rw [redirect]
    split
    case isTrue heq => simp [heq, h.symm]
    case isFalse => rw [List.find?_cons, List.find?_cons, ih]

/-- What held of all pairs of entries still does, if it holds of the new id with any of them. -/
theorem pairwise_redirect {R : Entry → Entry → Prop} {entries : List Entry} (h : entries.Pairwise R)
    (hnew : ∀ entry other : Entry, entry.id = id → other ∈ entries → R entry other ∧ R other entry) :
    (redirect name id entries).Pairwise R := by
  induction entries with
  | nil => exact .nil
  | cons head rest ih =>
    obtain ⟨hhead, hrest⟩ := List.pairwise_cons.1 h
    rw [redirect]
    split
    case isTrue =>
      exact List.pairwise_cons.2 ⟨fun other hother => (hnew _ other rfl (List.mem_cons_of_mem _ hother)).1, hrest⟩
    case isFalse =>
      refine List.pairwise_cons.2
        ⟨?_, ih hrest fun entry other hid hother => hnew entry other hid (List.mem_cons_of_mem _ hother)⟩
      intro other hother
      rcases mem_redirect hother with hother | hid
      · exact hhead other hother
      · exact (hnew other head hid List.mem_cons_self).2

end Node

namespace View

variable {v w : View} {id dir : NodeId} {node : NodeRevision} {entries : List Entry}

/-! ## Owners -/

/-- An id that is taken is not the one that is free. -/
theorem ne_of_free {id' : NodeId} (hfree : v.node id = none) (h : v.node id' ≠ none) : id' ≠ id := by
  rintro rfl
  exact h hfree

/-- True if every node stays and keeps its flags, unless it is immutable from now on. So no node gets another owner. -/
def KeepsOwners (v w : View) : Prop :=
  ∀ id old, v.node id = some old → ∃ node, w.node id = some node ∧ (node.flags = old.flags ∨ node.isMutable = false)

namespace KeepsOwners

/-- No node goes away. -/
theorem node_ne_none (h : v.KeepsOwners w) (hid : v.node id ≠ none) : w.node id ≠ none := by
  obtain ⟨old, hold⟩ := Option.ne_none_iff_exists'.1 hid
  obtain ⟨node, hnode, -⟩ := h id old hold
  exact hnode ▸ nofun

/-- A node that was there and is mutable was mutable before, and had its owner. -/
theorem of_mutable (h : v.KeepsOwners w) (hid : v.node id ≠ none) (hnode : w.node id = some node)
    (hmutable : node.isMutable = true) : ∃ old, v.node id = some old ∧ old.isMutable = true ∧ node.flags = old.flags := by
  obtain ⟨old, hold⟩ := Option.ne_none_iff_exists'.1 hid
  obtain ⟨node', hnode', hflags | himmutable⟩ := h id old hold
  · cases hnode.symm.trans hnode'
    exact ⟨old, hold, (NodeRevision.isMutable_congr hflags).symm.trans hmutable, hflags⟩
  · cases hnode.symm.trans hnode'
    exact nomatch himmutable.symm.trans hmutable

/-- What was there and is mutable was mutable before. -/
theorem isMutable_before (h : v.KeepsOwners w) (hid : v.node id ≠ none) : w.IsMutable id → v.IsMutable id := by
  rintro ⟨node, hnode, hmutable⟩
  obtain ⟨old, hold, hmutable, -⟩ := h.of_mutable hid hnode hmutable
  exact ⟨old, hold, hmutable⟩

/-- What was immutable still is. -/
theorem immutable (h : v.KeepsOwners w) (hnode : v.node id = some node) (himmutable : node.isMutable = false) :
    ∃ node', w.node id = some node' ∧ node'.isMutable = false := by
  obtain ⟨node', hnode', hflags | himmutable'⟩ := h id node hnode
  · exact ⟨node', hnode', (NodeRevision.isMutable_congr hflags).trans himmutable⟩
  · exact ⟨node', hnode', himmutable'⟩

end KeepsOwners

/-! ## Entries of a directory -/

/-- True of entries that a directory may have: for nodes that are there, and of the mutable ones for those that it owns,
    for each of them once. -/
structure MayHold (v : View) (dir : NodeId) (entries : List Entry) : Prop where
  closed : ∀ entry ∈ entries, v.node entry.id ≠ none
  owner : ∀ entry ∈ entries, ∀ child, v.node entry.id = some child → child.isMutable = true →
    child.flags = [.mutable dir.text]
  single : entries.Pairwise fun e e' => e.id = e'.id → ¬ v.IsMutable e.id

namespace MayHold

/-- Any directory may be empty. -/
theorem nil (v : View) (dir : NodeId) : v.MayHold dir [] where
  closed := nofun
  owner := nofun
  single := .nil

/-- Any directory may have entries for immutable nodes. -/
theorem of_immutable (h : ∀ entry ∈ entries, ∃ child, v.node entry.id = some child ∧ child.isMutable = false) :
    v.MayHold dir entries where
  closed entry hentry := by
    obtain ⟨child, hchild, -⟩ := h entry hentry
    exact hchild ▸ nofun
  owner entry hentry child hchild hmutable := by
    obtain ⟨child', hchild', himmutable⟩ := h entry hentry
    exact absurd ⟨child, hchild, hmutable⟩ (not_isMutable hchild' himmutable)
  single := by
    refine List.pairwise_of_forall_mem_list ?_
    intro entry hentry _ _ _
    obtain ⟨child, hchild, himmutable⟩ := h entry hentry
    exact not_isMutable hchild himmutable

/-- A directory may have fewer entries. -/
theorem sublist (h : v.MayHold dir entries) {entries' : List Entry} (hsub : entries'.Sublist entries) :
    v.MayHold dir entries' where
  closed entry hentry := h.closed entry (hsub.subset hentry)
  owner entry hentry := h.owner entry (hsub.subset hentry)
  single := h.single.sublist hsub

/-- What a directory may hold does not change as long as no node gets another owner. -/
theorem keep (h : v.MayHold dir entries) (hkept : v.KeepsOwners w) : w.MayHold dir entries where
  closed entry hentry := hkept.node_ne_none (h.closed entry hentry)
  owner entry hentry child hchild hmutable := by
    obtain ⟨old, hold, hmutable', hflags⟩ := hkept.of_mutable (h.closed entry hentry) hchild hmutable
    exact hflags.trans (h.owner entry hentry old hold hmutable')
  single := by
    refine h.single.imp_of_mem ?_
    intro entry entry' hentry _ hpair heq hmutable
    exact hpair heq (hkept.isMutable_before (h.closed entry hentry) hmutable)

/-- Entries may come for one more node that the directory owns. -/
theorem add (h : v.MayHold dir entries) (hnode : v.node id = some node) (hflags : node.flags = [.mutable dir.text])
    {entries' : List Entry} (hmem : ∀ entry ∈ entries', entry ∈ entries ∨ entry.id = id)
    (hsingle : entries'.Pairwise fun e e' => e.id = e'.id → ¬ v.IsMutable e.id) : v.MayHold dir entries' where
  closed entry hentry := by
    rcases hmem entry hentry with hentry | rfl
    · exact h.closed entry hentry
    · exact hnode ▸ nofun
  owner entry hentry child hchild hmutable := by
    rcases hmem entry hentry with hentry | rfl
    · exact h.owner entry hentry child hchild hmutable
    · cases hnode.symm.trans hchild
      exact hflags
  single := hsingle

/-- An entry may be redirected to a node that the directory owns, if no entry is for that node yet. -/
theorem redirect (h : v.MayHold dir entries) (name : String) (hnode : v.node id = some node)
    (hflags : node.flags = [.mutable dir.text]) (hnew : ∀ entry ∈ entries, entry.id ≠ id) :
    v.MayHold dir (Node.redirect name id entries) := by
  refine h.add hnode hflags (fun _ => Node.mem_redirect) (Node.pairwise_redirect h.single ?_)
  intro entry other hentry hother
  have hne : other.id ≠ entry.id := hentry ▸ hnew other hother
  exact ⟨fun heq => absurd heq.symm hne, fun heq => absurd heq hne⟩

/-- An entry may come at the end for a node that the directory owns, if no entry is for that node yet. -/
theorem append (h : v.MayHold dir entries) (name : String) (hnode : v.node id = some node)
    (hflags : node.flags = [.mutable dir.text]) (hnew : ∀ entry ∈ entries, entry.id ≠ id) :
    v.MayHold dir (entries ++ [⟨name, id⟩]) := by
  refine h.add hnode hflags ?_ (List.pairwise_append.2 ⟨h.single, List.pairwise_singleton _ _, ?_⟩)
  · intro entry hentry
    rcases List.mem_append.1 hentry with hentry | hentry
    · exact .inl hentry
    · exact .inr (congrArg Entry.id (List.mem_singleton.1 hentry))
  · intro entry hentry other hother heq
    cases List.mem_singleton.1 hother
    exact absurd heq (hnew entry hentry)

end MayHold

namespace Consistent

/-- A directory may hold what it holds. -/
theorem mayHold (h : v.Consistent) (hnode : v.node dir = some node) : v.MayHold dir node.children where
  closed entry hentry := h.closed ⟨node, entry, hnode, hentry, rfl⟩
  owner entry hentry _ hchild := h.owner ⟨node, entry, hnode, hentry, rfl⟩ hchild
  single := h.single hnode

/-- No entry is for an id that is free. -/
theorem entry_ne_of_free (h : v.Consistent) (hfree : v.node id = none) (hnode : v.node dir = some node) :
    ∀ entry ∈ node.children, entry.id ≠ id :=
  fun entry hentry => ne_of_free hfree ((h.mayHold hnode).closed entry hentry)

end Consistent

end View

end VersionedTree

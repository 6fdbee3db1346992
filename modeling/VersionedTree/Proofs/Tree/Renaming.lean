import Mathlib.Data.List.Forall2
import Mathlib.Order.Defs.PartialOrder
import VersionedTree.Proofs.Tree.Belonging

/-!
# Renamings — the same but for ids

Which id a new node gets, and under which key contents are stored, depends on what all others have done before. Somebody
who does not look at ids and keys sees the same nodes under any of them.

* **`Answer.erase`**, **`Error.erase`** — what is left of answers and errors without ids and keys.
* **`Renaming`** — which ids and keys on the one side stand for which on the other, one to one.
* **`Renaming.Twin`** — node revisions that are the same but for a renaming. Whatever is done to two of them alike gives
  twins again.
* **`NodeTwin`** — the same for handles. **`NodeTwin.entry_cases`** — looking through twins finds twins, or fails alike.
* **`HeldTwin`** — the same for all that a client holds.
-/

namespace VersionedTree

/-! ## What is left without ids -/

/-- The entry without the id that it stands for. -/
def Entry.erase (entry : Entry) : Entry :=
  { entry with id := .root }

/-- The flag without its owner. -/
def Flag.erase : Flag → Flag
  | mutable _ => mutable ""
  | other s => other s

/-- The body without ids and keys. -/
def Body.erase : Body → Body
  | dir entries => dir (entries.map Entry.erase)
  | file contents => file (contents.map fun _ => "")

/-- The node revision without ids and keys. -/
def NodeRevision.erase (node : NodeRevision) : NodeRevision :=
  ⟨node.props, node.flags.map Flag.erase, node.body.erase⟩

/-- The handle without ids and keys. -/
def Node.erase (node : Node) : Node :=
  ⟨.root, node.revision.erase⟩

/-- The name of what is missing without ids and keys. -/
def Missing.erase : Missing → Missing
  | node _ => node .root
  | representation _ => representation ""
  | entry name _ => entry name .root
  | what => what

/-- The corruption without ids and keys. -/
def Corruption.erase : Corruption → Corruption
  | nodeExists _ => nodeExists .root
  | noForkLeft _ => noForkLeft .root
  | chainTooLong _ limit => chainTooLong "" limit
  | badDelta _ cause => badDelta "" cause
  | contentsMismatch _ => contentsMismatch ""
  | cause => cause

/-- The error without ids and keys. -/
def Error.erase : Error → Error
  | notMutable _ => notMutable .root
  | notFound what => notFound what.erase
  | notDirectory _ => notDirectory .root
  | notFile _ => notFile .root
  | corrupt cause => corrupt cause.erase
  | e => e

/-- The answer without ids and keys. -/
def Client.Answer.erase : Client.Answer → Client.Answer
  | node found => node found.erase
  | entries found => entries (found.map Entry.erase)
  | answer => answer

/-- The result of a step without ids and keys. -/
def Client.eraseResult : Except Error Client.Answer → Except Error Client.Answer
  | .ok answer => .ok answer.erase
  | .error e => .error e.erase

/-! ## Renamings -/

/-- The ids and keys of one side, and what they are called on the other side. -/
structure Renaming where
  ids : NodeId → NodeId → Prop
  keys : String → String → Prop
  ids_unique : Relator.BiUnique ids
  keys_unique : Relator.BiUnique keys

namespace Renaming

/-- A renaming is below another that renames what it renames, and maybe more. -/
instance : Preorder Renaming where
  le ρ τ := (∀ a b, ρ.ids a b → τ.ids a b) ∧ ∀ k l, ρ.keys k l → τ.keys k l
  le_refl _ := ⟨fun _ _ h => h, fun _ _ h => h⟩
  le_trans _ _ _ h h' := ⟨fun _ _ hab => h'.1 _ _ (h.1 _ _ hab), fun _ _ hkl => h'.2 _ _ (h.2 _ _ hkl)⟩

/-- Seen from the other side. -/
def flip (ρ : Renaming) : Renaming where
  ids a b := ρ.ids b a
  keys k l := ρ.keys l k
  ids_unique := ⟨fun _ _ _ h h' => ρ.ids_unique.2 h h', fun _ _ _ h h' => ρ.ids_unique.1 h h'⟩
  keys_unique := ⟨fun _ _ _ h h' => ρ.keys_unique.2 h h', fun _ _ _ h h' => ρ.keys_unique.1 h h'⟩

/-- Some ids and some keys, each called the same on both sides. -/
def same (ids : NodeId → Prop) (keys : String → Prop) : Renaming where
  ids a b := a = b ∧ ids a
  keys k l := k = l ∧ keys k
  ids_unique := ⟨fun _ _ _ h h' => h.1.trans h'.1.symm, fun _ _ _ h h' => h.1.symm.trans h'.1⟩
  keys_unique := ⟨fun _ _ _ h h' => h.1.trans h'.1.symm, fun _ _ _ h h' => h.1.symm.trans h'.1⟩

/-- Of two renamings that leave names alone, the one that knows more extends the other. -/
theorem same_le {ids ids' : NodeId → Prop} {keys keys' : String → Prop} (hids : ∀ a, ids a → ids' a)
    (hkeys : ∀ k, keys k → keys' k) : same ids keys ≤ same ids' keys' :=
  ⟨fun _ _ hab => ⟨hab.1, hids _ hab.2⟩, fun _ _ hkl => ⟨hkl.1, hkeys _ hkl.2⟩⟩

/-- What is renamed on the left side, each called as it is. -/
def left (ρ : Renaming) : Renaming :=
  .same (fun a => ∃ b, ρ.ids a b) fun k => ∃ l, ρ.keys k l

/-- A relation that pairs one with one still does so with one more pair, if neither side was in it. -/
theorem biUnique_or {α : Type} {r : α → α → Prop} {a b : α} (h : Relator.BiUnique r) (ha : ∀ y, ¬ r a y)
    (hb : ∀ x, ¬ r x b) : Relator.BiUnique fun x y => r x y ∨ x = a ∧ y = b := by
  constructor
  · rintro x x' y (hx | ⟨rfl, hy⟩) (hx' | ⟨rfl, hy'⟩)
    · exact h.1 hx hx'
    · exact absurd (hy' ▸ hx) (hb x)
    · exact absurd (hy ▸ hx') (hb x')
    · rfl
  · rintro x y y' (hy | ⟨hx, rfl⟩) (hy' | ⟨hx', rfl⟩)
    · exact h.2 hy hy'
    · exact absurd (hx' ▸ hy) (ha y)
    · exact absurd (hx ▸ hy') (ha y')
    · rfl

/-- One more id. -/
def withId (ρ : Renaming) (a b : NodeId) (ha : ∀ y, ¬ ρ.ids a y) (hb : ∀ x, ¬ ρ.ids x b) : Renaming where
  ids x y := ρ.ids x y ∨ x = a ∧ y = b
  keys := ρ.keys
  ids_unique := biUnique_or ρ.ids_unique ha hb
  keys_unique := ρ.keys_unique

/-- One more key. -/
def withKey (ρ : Renaming) (k l : String) (hk : ∀ y, ¬ ρ.keys k y) (hl : ∀ x, ¬ ρ.keys x l) : Renaming where
  ids := ρ.ids
  keys x y := ρ.keys x y ∨ x = k ∧ y = l
  ids_unique := ρ.ids_unique
  keys_unique := biUnique_or ρ.keys_unique hk hl

variable {ρ τ : Renaming} {name : String}

/-- One more pair of ids extends a renaming. -/
theorem le_withId {a b : NodeId} (ha : ∀ y, ¬ ρ.ids a y) (hb : ∀ x, ¬ ρ.ids x b) : ρ ≤ ρ.withId a b ha hb :=
  ⟨fun _ _ h => .inl h, fun _ _ h => h⟩

/-- One more pair of keys extends a renaming. -/
theorem le_withKey {k l : String} (hk : ∀ y, ¬ ρ.keys k y) (hl : ∀ x, ¬ ρ.keys x l) : ρ ≤ ρ.withKey k l hk hl :=
  ⟨fun _ _ h => h, fun _ _ h => .inl h⟩

/-! ## Twins -/

/-- Owners that are called the same but for a renaming. All owners that matter are of one transaction. -/
def OwnerTwin (ρ : Renaming) (name owner owner' : String) : Prop :=
  (owner = name ∧ owner' = name) ∨ ∃ dir dir', ρ.ids dir dir' ∧ owner = dir.text ∧ owner' = dir'.text

inductive FlagTwin (ρ : Renaming) (name : String) : Flag → Flag → Prop where
  | mutable {owner owner' : String} (h : ρ.OwnerTwin name owner owner') : FlagTwin ρ name (.mutable owner) (.mutable owner')
  | other (s : Skel) : FlagTwin ρ name (.other s) (.other s)

/-- Entries of the same name that stand for nodes that are called the same. -/
def EntryTwin (ρ : Renaming) (entry entry' : Entry) : Prop :=
  entry.name = entry'.name ∧ ρ.ids entry.id entry'.id

inductive BodyTwin (ρ : Renaming) : Body → Body → Prop where
  | empty : BodyTwin ρ (.file none) (.file none)
  | file {k l : String} (h : ρ.keys k l) : BodyTwin ρ (.file (some k)) (.file (some l))
  | dir {entries entries' : List Entry} (h : List.Forall₂ ρ.EntryTwin entries entries') :
      BodyTwin ρ (.dir entries) (.dir entries')

/-- Node revisions that are the same but for a renaming. -/
structure Twin (ρ : Renaming) (name : String) (node m : NodeRevision) : Prop where
  props : node.props = m.props
  flags : List.Forall₂ (ρ.FlagTwin name) node.flags m.flags
  body : ρ.BodyTwin node.body m.body

/-- Handles that are the same but for a renaming. -/
structure NodeTwin (ρ : Renaming) (name : String) (node node' : Node) : Prop where
  id : ρ.ids node.id node'.id
  revision : ρ.Twin name node.revision node'.revision

variable {owner owner' : String} {flag flag' : Flag} {entry entry' : Entry} {body body' : Body} {node m : NodeRevision}
  {h h' : Node} {entries entries' : List Entry}

/-! ### Under more names, and from the other side -/

theorem OwnerTwin.mono (howner : ρ.OwnerTwin name owner owner') (hle : ρ ≤ τ) : τ.OwnerTwin name owner owner' :=
  howner.imp_right fun ⟨dir, dir', hdir, htext⟩ => ⟨dir, dir', hle.1 _ _ hdir, htext⟩

theorem FlagTwin.mono (hflag : ρ.FlagTwin name flag flag') (hle : ρ ≤ τ) : τ.FlagTwin name flag flag' := by
  cases hflag with
  | mutable howner => exact .mutable (howner.mono hle)
  | other s => exact .other s

theorem EntryTwin.mono (hentry : ρ.EntryTwin entry entry') (hle : ρ ≤ τ) : τ.EntryTwin entry entry' :=
  ⟨hentry.1, hle.1 _ _ hentry.2⟩

theorem BodyTwin.mono (hbody : ρ.BodyTwin body body') (hle : ρ ≤ τ) : τ.BodyTwin body body' := by
  cases hbody with
  | empty => exact .empty
  | file hkey => exact .file (hle.2 _ _ hkey)
  | dir hentries => exact .dir (hentries.imp fun _ _ hentry => hentry.mono hle)

theorem Twin.mono (htwin : ρ.Twin name node m) (hle : ρ ≤ τ) : τ.Twin name node m :=
  ⟨htwin.props, htwin.flags.imp fun _ _ hflag => hflag.mono hle, htwin.body.mono hle⟩

theorem NodeTwin.mono (htwin : ρ.NodeTwin name h h') (hle : ρ ≤ τ) : τ.NodeTwin name h h' :=
  ⟨hle.1 _ _ htwin.id, htwin.revision.mono hle⟩

theorem OwnerTwin.flip (howner : ρ.OwnerTwin name owner owner') : ρ.flip.OwnerTwin name owner' owner :=
  howner.imp And.symm fun ⟨dir, dir', hdir, htext⟩ => ⟨dir', dir, hdir, htext.symm⟩

theorem FlagTwin.flip (hflag : ρ.FlagTwin name flag flag') : ρ.flip.FlagTwin name flag' flag := by
  cases hflag with
  | mutable howner => exact .mutable howner.flip
  | other s => exact .other s

theorem BodyTwin.flip (hbody : ρ.BodyTwin body body') : ρ.flip.BodyTwin body' body := by
  cases hbody with
  | empty => exact .empty
  | file hkey => exact .file (ρ := ρ.flip) hkey
  | dir hentries => exact .dir (hentries.flip.imp fun _ _ hentry => ⟨hentry.1.symm, hentry.2⟩)

theorem Twin.flip (htwin : ρ.Twin name node m) : ρ.flip.Twin name m node :=
  ⟨htwin.props.symm, htwin.flags.flip.imp fun _ _ => FlagTwin.flip, htwin.body.flip⟩

theorem NodeTwin.flip (htwin : ρ.NodeTwin name h h') : ρ.flip.NodeTwin name h' h :=
  ⟨htwin.id, htwin.revision.flip⟩

/-! ### What has a twin is its own twin -/

/-- What a relation says of pairs, another may say of the left ones alone. -/
theorem forall₂_left {α : Type} {r r' : α → α → Prop} {as bs : List α} (hlist : List.Forall₂ r as bs)
    (h : ∀ a b, r a b → r' a a) : List.Forall₂ r' as as := by
  induction hlist with
  | nil => exact .nil
  | cons hhead _ ih => exact .cons (h _ _ hhead) ih

/-- A flag that has a twin is its own twin on the left side. -/
theorem FlagTwin.left (hflag : ρ.FlagTwin name flag flag') : ρ.left.FlagTwin name flag flag := by
  cases hflag with
  | mutable howner =>
    rcases howner with ⟨rfl, -⟩ | ⟨dir, dir', hdir, rfl, -⟩
    · exact .mutable (.inl ⟨rfl, rfl⟩)
    · exact .mutable (.inr ⟨dir, dir, ⟨rfl, dir', hdir⟩, rfl, rfl⟩)
  | other s => exact .other s

/-- A body that has a twin is its own twin on the left side. -/
theorem BodyTwin.left (hbody : ρ.BodyTwin body body') : ρ.left.BodyTwin body body := by
  cases hbody with
  | empty => exact .empty
  | file hkey => exact .file ⟨rfl, _, hkey⟩
  | dir hentries => exact .dir (forall₂_left hentries fun _ _ hentry => ⟨rfl, rfl, _, hentry.2⟩)

/-- A handle that has a twin is its own twin on the left side. -/
theorem NodeTwin.left (htwin : ρ.NodeTwin name h h') : ρ.left.NodeTwin name h h where
  id := ⟨rfl, _, htwin.id⟩
  revision := ⟨rfl, forall₂_left htwin.revision.flags fun _ _ hflag => hflag.left, htwin.revision.body.left⟩

/-! ### Nothing has two twins -/

/-- No owner has two twins, since the name of a transaction is never the text of an id. -/
theorem ownerTwin_biUnique (ρ : Renaming) (hname : View.IsTxnName name) : Relator.BiUnique (ρ.OwnerTwin name) := by
  constructor
  · rintro a b c (⟨rfl, rfl⟩ | ⟨dir, dir', hdir, rfl, rfl⟩) (⟨rfl, heq⟩ | ⟨other, other', hother, rfl, heq⟩)
    · rfl
    · exact absurd heq (hname.ne_text other')
    · exact absurd heq.symm (hname.ne_text dir')
    · rw [ρ.ids_unique.1 hdir (NodeId.text_injective heq ▸ hother)]
  · rintro a b c (⟨rfl, rfl⟩ | ⟨dir, dir', hdir, rfl, rfl⟩) (⟨heq, rfl⟩ | ⟨other, other', hother, heq, rfl⟩)
    · rfl
    · exact absurd heq (hname.ne_text other)
    · exact absurd heq.symm (hname.ne_text dir)
    · rw [ρ.ids_unique.2 hdir (NodeId.text_injective heq ▸ hother)]

/-- No flag has two twins. -/
theorem flagTwin_biUnique (ρ : Renaming) (hname : View.IsTxnName name) : Relator.BiUnique (ρ.FlagTwin name) := by
  have howners := ρ.ownerTwin_biUnique hname
  constructor
  · intro a b c ha hb
    cases ha with
    | mutable ha =>
      cases hb with
      | mutable hb => rw [howners.1 ha hb]
    | other s =>
      cases hb
      rfl
  · intro a b c hb hc
    cases hb with
    | mutable hb =>
      cases hc with
      | mutable hc => rw [howners.2 hb hc]
    | other s =>
      cases hc
      rfl

/-- No entry has two twins. -/
theorem entryTwin_biUnique (ρ : Renaming) : Relator.BiUnique ρ.EntryTwin := by
  constructor
  · rintro ⟨_, a⟩ ⟨_, b⟩ c ⟨rfl, ha⟩ ⟨rfl, hb⟩
    exact congrArg _ (ρ.ids_unique.1 ha hb)
  · rintro a ⟨_, b⟩ ⟨_, c⟩ ⟨rfl, hb⟩ ⟨rfl, hc⟩
    exact congrArg _ (ρ.ids_unique.2 hb hc)

/-- No body has two twins. -/
theorem bodyTwin_biUnique (ρ : Renaming) : Relator.BiUnique ρ.BodyTwin := by
  have hentries := ρ.entryTwin_biUnique.forall₂
  constructor
  · intro a b c ha hb
    cases ha with
    | empty =>
      cases hb
      rfl
    | file ha =>
      cases hb with
      | file hb => rw [ρ.keys_unique.1 ha hb]
    | dir ha =>
      cases hb with
      | dir hb => rw [hentries.1 ha hb]
  · intro a b c hb hc
    cases hb with
    | empty =>
      cases hc
      rfl
    | file hb =>
      cases hc with
      | file hc => rw [ρ.keys_unique.2 hb hc]
    | dir hb =>
      cases hc with
      | dir hc => rw [hentries.2 hb hc]

/-- **TWINS COME IN PAIRS**, so two handles are equal where their twins are. -/
theorem nodeTwin_biUnique (ρ : Renaming) (hname : View.IsTxnName name) : Relator.BiUnique (ρ.NodeTwin name) := by
  have hflags := (ρ.flagTwin_biUnique hname).forall₂
  constructor
  · rintro ⟨a, props, flags, body⟩ ⟨b, props', flags', body'⟩ c ha hb
    obtain rfl := ρ.ids_unique.1 ha.id hb.id
    obtain rfl := ha.revision.props.trans hb.revision.props.symm
    obtain rfl := hflags.1 ha.revision.flags hb.revision.flags
    obtain rfl := ρ.bodyTwin_biUnique.1 ha.revision.body hb.revision.body
    rfl
  · rintro a ⟨b, props, flags, body⟩ ⟨c, props', flags', body'⟩ hb hc
    obtain rfl := ρ.ids_unique.2 hb.id hc.id
    obtain rfl := hb.revision.props.symm.trans hc.revision.props
    obtain rfl := hflags.2 hb.revision.flags hc.revision.flags
    obtain rfl := ρ.bodyTwin_biUnique.2 hb.revision.body hc.revision.body
    rfl

/-! ### Twins look the same -/

/-- Twin flags are both mutable, or neither is. -/
theorem FlagTwin.isMutable_eq (hflag : ρ.FlagTwin name flag flag') : flag.isMutable = flag'.isMutable := by
  cases hflag <;> rfl

/-- Twin flags differ in their owners only. -/
theorem FlagTwin.erase_eq (hflag : ρ.FlagTwin name flag flag') : flag.erase = flag'.erase := by
  cases hflag <;> rfl

/-- Twin entries differ in their ids only. -/
theorem EntryTwin.erase_eq (hentry : ρ.EntryTwin entry entry') : entry.erase = entry'.erase := by
  simp [Entry.erase, hentry.1]

/-- Lists that are mapped to the same element by element are mapped to the same. -/
theorem map_eq_of_forall₂ {α β : Type} {r : α → α → Prop} {f : α → β} {as bs : List α} (hlist : List.Forall₂ r as bs)
    (hf : ∀ a b, r a b → f a = f b) : as.map f = bs.map f := by
  induction hlist with
  | nil => rfl
  | cons hhead _ ih => rw [List.map_cons, List.map_cons, hf _ _ hhead, ih]

/-- Twin bodies differ in ids and keys only. -/
theorem BodyTwin.erase_eq (hbody : ρ.BodyTwin body body') : body.erase = body'.erase := by
  cases hbody with
  | empty => rfl
  | file _ => rfl
  | dir hentries => exact congrArg Body.dir (map_eq_of_forall₂ hentries fun _ _ => EntryTwin.erase_eq)

/-- Twin bodies are of one kind. -/
theorem BodyTwin.kind_eq (hbody : ρ.BodyTwin body body') : body.kind = body'.kind := by
  cases hbody <;> rfl

namespace Twin

/-- Twins are both mutable, or neither is. -/
theorem isMutable_eq (htwin : ρ.Twin name node m) : node.isMutable = m.isMutable := by
  have hmap := map_eq_of_forall₂ htwin.flags fun _ _ => FlagTwin.isMutable_eq
  have hany := congrArg (fun marks => marks.any id) hmap
  rw [List.any_map, List.any_map] at hany
  exact hany

/-- Twins are of one kind. -/
theorem kind_eq (htwin : ρ.Twin name node m) : node.kind = m.kind :=
  htwin.body.kind_eq

/-- Twins differ in owners, ids and keys only. -/
theorem erase_eq (htwin : ρ.Twin name node m) : node.erase = m.erase := by
  rw [NodeRevision.erase, NodeRevision.erase, htwin.props, htwin.body.erase_eq,
    map_eq_of_forall₂ htwin.flags fun _ _ => FlagTwin.erase_eq]

/-- Of flags that nobody owns, twins have the same. -/
theorem freeze_flags_eq (htwin : ρ.Twin name node m) : node.freeze.flags = m.freeze.flags := by
  rw [NodeRevision.freeze, NodeRevision.freeze]
  have hflags := htwin.flags
  generalize node.flags = flags, m.flags = flags' at hflags
  induction hflags with
  | nil => rfl
  | cons hflag _ ih =>
    cases hflag with
    | mutable _ => simpa [Flag.isMutable] using ih
    | other s => simpa [Flag.isMutable] using ih

end Twin

/-- Twin handles differ in ids, keys and owners only. -/
theorem NodeTwin.erase_eq (htwin : ρ.NodeTwin name h h') : h.erase = h'.erase :=
  congrArg (Node.mk .root) htwin.revision.erase_eq

/-! ### Entries of twins -/

section Entries

variable (hentries : List.Forall₂ ρ.EntryTwin entries entries')

include hentries

/-- Under a name twins are found on both sides, or nothing is. -/
theorem find?_twin (name : String) :
    Option.Rel ρ.EntryTwin (entries.find? fun entry => entry.name = name)
      (entries'.find? fun entry => entry.name = name) := by
  induction hentries with
  | nil => exact .none
  | @cons entry entry' _ _ hentry _ ih =>
    by_cases hname : entry.name = name
    · have hname' : entry'.name = name := hentry.1 ▸ hname
      simpa [List.find?_cons, hname, hname'] using Option.Rel.some hentry
    · have hname' : ¬ entry'.name = name := hentry.1 ▸ hname
      simpa [List.find?_cons, hname, hname'] using ih

/-- A name is taken on both sides, or on neither. -/
theorem any_name_eq (name : String) :
    (entries.any fun entry => entry.name = name) = entries'.any fun entry => entry.name = name := by
  have hnames := map_eq_of_forall₂ (f := Entry.name) hentries fun _ _ hentry => hentry.1
  have hany := congrArg (fun names => names.any fun other => decide (other = name)) hnames
  rw [List.any_map, List.any_map] at hany
  exact hany

/-- Entries that are redirected to twins are twins again. -/
theorem redirect_twin (name : String) {a b : NodeId} (hab : ρ.ids a b) :
    List.Forall₂ ρ.EntryTwin (Node.redirect name a entries) (Node.redirect name b entries') := by
  induction hentries with
  | nil => exact .nil
  | @cons entry entry' _ _ hentry hrest ih =>
    by_cases hname : entry.name = name
    · have hname' : entry'.name = name := hentry.1 ▸ hname
      rw [Node.redirect, Node.redirect, if_pos hname, if_pos hname']
      exact .cons ⟨hentry.1, hab⟩ hrest
    · have hname' : ¬ entry'.name = name := hentry.1 ▸ hname
      rw [Node.redirect, Node.redirect, if_neg hname, if_neg hname']
      exact .cons hentry ih

/-- Without the entry of a name they are twins again. -/
theorem eraseP_twin (name : String) :
    List.Forall₂ ρ.EntryTwin (entries.eraseP fun entry => entry.name = name)
      (entries'.eraseP fun entry => entry.name = name) := by
  induction hentries with
  | nil => exact .nil
  | @cons entry entry' _ _ hentry hrest ih =>
    by_cases hname : entry.name = name
    · have hname' : entry'.name = name := hentry.1 ▸ hname
      simpa [List.eraseP_cons, hname, hname'] using hrest
    · have hname' : ¬ entry'.name = name := hentry.1 ▸ hname
      simpa [List.eraseP_cons, hname, hname'] using ⟨hentry, ih⟩

/-- Twin directories are both empty, or neither is. -/
theorem isEmpty_eq : entries.isEmpty = entries'.isEmpty := by
  cases hentries <;> rfl

end Entries

/-! ### Looking through twins -/

namespace NodeTwin

variable (htwin : ρ.NodeTwin name h h')

include htwin

/-- Twin handles hold mutable nodes, or neither does. -/
theorem isMutable_eq : h.isMutable = h'.isMutable :=
  htwin.revision.isMutable_eq

/-- Both are directories, and have twin entries, or both are not. -/
theorem entries_cases : (∃ entries entries', h.entries = .ok entries ∧ h'.entries = .ok entries' ∧
      List.Forall₂ ρ.EntryTwin entries entries') ∨
    ∃ e e', h.entries = .error e ∧ h'.entries = .error e' ∧ e.erase = e'.erase := by
  have hbody := htwin.revision.body
  generalize hleft : h.revision.body = body at hbody
  generalize hright : h'.revision.body = body' at hbody
  cases hbody with
  | empty =>
    refine .inr ⟨.notDirectory h.id, .notDirectory h'.id, ?_, ?_, rfl⟩
    · simp [Node.entries, NodeRevision.entries?, hleft]
    · simp [Node.entries, NodeRevision.entries?, hright]
  | file hkey =>
    refine .inr ⟨.notDirectory h.id, .notDirectory h'.id, ?_, ?_, rfl⟩
    · simp [Node.entries, NodeRevision.entries?, hleft]
    · simp [Node.entries, NodeRevision.entries?, hright]
  | dir hentries => exact .inl ⟨_, _, Node.entries_eq_ok.2 hleft, Node.entries_eq_ok.2 hright, hentries⟩

/-- Looking for a name finds twins, or fails alike. -/
theorem entry_cases (name : String) : (∃ entry entry', h.entry name = .ok entry ∧ h'.entry name = .ok entry' ∧
      ρ.EntryTwin entry entry') ∨
    ∃ e e', h.entry name = .error e ∧ h'.entry name = .error e' ∧ e.erase = e'.erase := by
  rcases htwin.entries_cases with ⟨entries, entries', hleft, hright, hentries⟩ | ⟨e, e', hleft, hright, he⟩
  · have hfind := find?_twin hentries name
    generalize hfound : (entries.find? fun entry => entry.name = name) = found at hfind
    generalize hfound' : (entries'.find? fun entry => entry.name = name) = found' at hfind
    cases hfind with
    | none =>
      refine .inr ⟨.notFound (.entry name h.id), .notFound (.entry name h'.id), ?_, ?_, rfl⟩
      · simp only [Node.entry, hleft, bind, Except.bind, hfound]
        rfl
      · simp only [Node.entry, hright, bind, Except.bind, hfound']
        rfl
    | some hentry =>
      refine .inl ⟨_, _, ?_, ?_, hentry⟩
      · exact Node.entry_eq_ok.2 ⟨entries, Node.entries_eq_ok.1 hleft, hfound⟩
      · exact Node.entry_eq_ok.2 ⟨entries', Node.entries_eq_ok.1 hright, hfound'⟩
  · refine .inr ⟨e, e', ?_, ?_, he⟩
    · simp [Node.entry, hleft, bind, Except.bind]
    · simp [Node.entry, hright, bind, Except.bind]

/-- Twin handles both hold changes that deleting would lose, or neither does. -/
theorem holdsChanges_eq : h.holdsChanges = h'.holdsChanges := by
  have hbody := htwin.revision.body
  generalize hleft : h.revision.body = body at hbody
  generalize hright : h'.revision.body = body' at hbody
  rw [Node.holdsChanges, Node.holdsChanges, htwin.isMutable_eq]
  cases hbody with
  | empty => simp [NodeRevision.entries?, hleft, hright]
  | file _ => simp [NodeRevision.entries?, hleft, hright]
  | dir hentries => simp [NodeRevision.entries?, hleft, hright, isEmpty_eq hentries]

end NodeTwin

/-! ### What is done to twins alike -/

namespace Twin

/-- Clones of twins for twin owners are twins. -/
theorem toMutable (htwin : ρ.Twin name node m) (howner : ρ.OwnerTwin name owner owner') :
    ρ.Twin name (node.toMutable owner) (m.toMutable owner') where
  props := htwin.props
  flags := by
    refine List.rel_append (List.rel_filter ?_ htwin.flags) (.cons (.mutable howner) .nil)
    intro flag flag' hflag
    show (!flag.isMutable) = true ↔ (!flag'.isMutable) = true
    rw [hflag.isMutable_eq]
  body := htwin.body

/-- New nodes of one kind for twin owners are twins. -/
theorem newMutable (kind : Kind) (howner : ρ.OwnerTwin name owner owner') :
    ρ.Twin name (.newMutable kind owner) (.newMutable kind owner') where
  props := rfl
  flags := .cons (.mutable howner) .nil
  body := by
    cases kind with
    | file => exact .empty
    | dir => exact .dir .nil

/-- Twins with twin bodies put into them are twins. -/
theorem withBody (htwin : ρ.Twin name node m) (hbody : ρ.BodyTwin body body') :
    ρ.Twin name { node with body := body } { m with body := body' } :=
  ⟨htwin.props, htwin.flags, hbody⟩

/-- Twins whose entries are changed alike are twins. -/
theorem mapEntries (htwin : ρ.Twin name node m) {f g : List Entry → List Entry}
    (hfg : ∀ entries entries', List.Forall₂ ρ.EntryTwin entries entries' →
      List.Forall₂ ρ.EntryTwin (f entries) (g entries')) : ρ.Twin name (node.mapEntries f) (m.mapEntries g) := by
  have hbody := htwin.body
  rw [NodeRevision.mapEntries, NodeRevision.mapEntries]
  generalize hleft : node.body = body, hright : m.body = body' at hbody
  cases hbody with
  | empty => exact htwin
  | file _ => exact htwin
  | dir hentries => exact htwin.withBody (.dir (hfg _ _ hentries))

/-- Twins with the same properties put into them are twins. -/
theorem withProps (htwin : ρ.Twin name node m) (props : PropList) :
    ρ.Twin name { node with props := props } { m with props := props } :=
  ⟨rfl, htwin.flags, htwin.body⟩

end Twin

/-! ## All handles of a client -/

/-- Two clients hold twins under the same names. -/
def HeldTwin (ρ : Renaming) (name : String) (held held' : Client.Handles) : Prop :=
  ∀ h, Option.Rel (ρ.NodeTwin name) (held.find? h) (held'.find? h)

namespace HeldTwin

variable {held held' : Client.Handles}

theorem mono (htwin : ρ.HeldTwin name held held') (hle : ρ ≤ τ) : τ.HeldTwin name held held' := by
  intro handle
  have hrel := htwin handle
  generalize held.find? handle = found, held'.find? handle = found' at hrel ⊢
  cases hrel with
  | none => exact .none
  | some hnode => exact .some (hnode.mono hle)

theorem flip (htwin : ρ.HeldTwin name held held') : ρ.flip.HeldTwin name held' held := by
  intro handle
  have hrel := htwin handle
  generalize held.find? handle = found, held'.find? handle = found' at hrel ⊢
  cases hrel with
  | none => exact .none
  | some hnode => exact .some hnode.flip

/-- Twins may be kept under one name. -/
theorem insert (htwin : ρ.HeldTwin name held held') (handle : String) (hnode : ρ.NodeTwin name h h') :
    ρ.HeldTwin name (held.insert handle h) (held'.insert handle h') := by
  intro other
  rw [SortedMap.find?_insert, SortedMap.find?_insert]
  split
  case isTrue => exact .some hnode
  case isFalse => exact htwin other

/-- A handle holds a node if and only if it holds the twin of the node on the other side. -/
theorem find?_eq_some_iff (htwin : ρ.HeldTwin name held held') (hname : View.IsTxnName name) (handle : String)
    (hnode : ρ.NodeTwin name h h') : held.find? handle = some h ↔ held'.find? handle = some h' := by
  have hrel := htwin handle
  generalize held.find? handle = found, held'.find? handle = found' at hrel ⊢
  cases hrel with
  | none => exact ⟨nofun, nofun⟩
  | some hother => simp [Relator.rel_eq (ρ.nodeTwin_biUnique hname) hother hnode]

end HeldTwin

end Renaming

end VersionedTree

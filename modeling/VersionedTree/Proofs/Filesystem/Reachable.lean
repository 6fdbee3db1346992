import Mathlib.Logic.Relation
import VersionedTree.Filesystem
import VersionedTree.Proofs.Tree.Answers
import VersionedTree.Proofs.Tree.Ownership

/-!
# Reachable filesystems — what clients and time can bring about

A filesystem starts out fresh on an empty store. From then on transactions begin, are committed and thrown away, it is
closed and opened again, and clients run trails, of which they decide step by step what to do next, and whether to give
up. The handles that a trail starts with may be any: from before a commit, from a trail that failed, or from nowhere.

* **`Client.Body`** — what a client does in a trail.
* **`Filesystem.Step`** and **`Filesystem.Reachable`** — the steps, and what they lead to.
* **`Step.evolves`** — every step is a number of edits of the view, and keeps the filesystem healthy.
* **`Reachable.healthy`** — so every reachable filesystem is healthy.
-/

namespace VersionedTree

variable {σ : Type} [RecordStore σ]

namespace Client

/-- What a client does in a trail: it ends the trail, or takes a step and goes on from what that step gives. -/
inductive Body where
  | finish
  | fail (e : Error)
  | step (step : Step) (next : Except Error Answer → Body)

/-- Runs the steps of a client. -/
def Body.run (config : Config) : Body → ClientM Handles σ Unit
  | finish => pure ()
  | fail e => throw e
  | step s next => ExceptT.mk fun handles => do
    let (result, handles) ← s.run config handles
    (next result).run config handles

/-- The body that takes some steps one after the other, and fails with the first that fails. -/
def Body.ofSteps : List Step → Body
  | [] => finish
  | s :: rest => step s fun
    | .ok _ => ofSteps rest
    | .error e => fail e

end Client

variable [LawfulStore σ]

namespace Filesystem

/-- The records of a filesystem. -/
def records (fs : Filesystem σ) : Records :=
  LawfulStore.records fs.store

/-- What the records of a filesystem say. -/
def view (fs : Filesystem σ) : View :=
  fs.records.view

/-- One step of the time of a filesystem. -/
inductive Step (fs : Filesystem σ) : Filesystem σ → Prop where
  | begin (base : UInt64) : Step fs (fs.begin base).2
  | commit (txn date : String) : Step fs (fs.commit txn date).2
  | abort (txn : String) : Step fs (fs.abort txn).2
  | trail (body : Client.Body) (handles : Client.Handles) : Step fs (runClient (body.run fs.config) handles fs).2
  /-- The records are opened again, in whatever state their store is then. -/
  | reopen {config : Config} {new : Metadata} {date : String} {store : σ} {fs' : Filesystem σ}
      (hvalid : LawfulStore.Valid store) (hrecords : LawfulStore.records store = fs.records)
      (hopen : (openOver config new date store).1 = .ok fs') : Step fs fs'

/-- Any number of steps. -/
def Steps : Filesystem σ → Filesystem σ → Prop :=
  Relation.ReflTransGen Step

/-- True of a filesystem that was made on an empty store, and of what it can become. -/
inductive Reachable : Filesystem σ → Prop where
  | fresh {config : Config} {new : Metadata} {date : String} {store : σ} {fs : Filesystem σ}
      (hvalid : LawfulStore.Valid store) (hempty : LawfulStore.records store = .empty)
      (hopen : (openOver config new date store).1 = .ok fs) : Reachable fs
  | step {fs fs' : Filesystem σ} (h : Reachable fs) (hstep : fs.Step fs') : Reachable fs'

end Filesystem

/-! ## Bodies -/

/-- Any number of edits. -/
def View.Evolves : View → View → Prop :=
  Relation.ReflTransGen fun v w => ∃ edit, v.Edited edit w

/-- Any number of steps by clients. -/
def View.ClientSteps : View → View → Prop :=
  Relation.ReflTransGen View.ClientStep

/-- No edit removes anything from the table of globals. -/
theorem View.Edited.global_ne_none {v w : View} {edit : Edit} (h : v.Edited edit w) {name : String}
    (hname : v.global name ≠ none) : w.global name ≠ none := by
  have hset : ∀ other value, (v.setGlobal other value).global name ≠ none := by
    intro other value
    by_cases heq : name = other
    · simp [heq]
    · simpa [heq] using hname
  cases h with
  | skip _ _ => exact hset _ _
  | make _ _ _ _ _ _ _ => exact hset _ _
  | setContents _ _ _ _ _ _ => exact hset _ _
  | begin _ _ _ => exact hset _ _
  | commit _ _ _ => exact hset _ _
  | strand _ _ _ _ _ => exact hname
  | cloneRoot _ _ _ _ _ => exact hname
  | cloneChild _ _ _ _ _ _ _ _ => exact hname
  | delete _ _ _ _ _ _ => exact hname
  | setProps _ _ => exact hname
  | close _ => exact hname

/-- One edit is a number of edits. -/
theorem View.Follows.evolves {v w : View} (h : v.Follows w) : v.Evolves w := by
  rcases h with rfl | hedit
  · exact .refl
  · exact .single hedit

/-- The steps of clients are a number of edits. -/
theorem View.ClientSteps.evolves {v w : View} (h : v.ClientSteps w) : v.Evolves w := by
  induction h with
  | refl => exact .refl
  | tail _ hstep ih => exact ih.trans hstep.follows.evolves

/-- A number of edits keeps the invariant. -/
theorem View.Consistent.evolves {v w : View} (h : v.Consistent) (hw : v.Evolves w) : w.Consistent := by
  induction hw with
  | refl => exact h
  | tail _ hedit ih =>
    obtain ⟨edit, hedit⟩ := hedit
    exact ih.edited hedit

/-- A step of a client first, and then what it does with the result. -/
theorem ClientM.Ends.step {config : Config} {v : View} {held : Client.Handles} {step : Client.Step}
    {next : Except Error Client.Answer → Client.Body} {Q : Client.Answer → Client.Handles → View → Prop}
    {E E' : Error → Client.Handles → View → Prop} {Q' : Unit → Client.Handles → View → Prop}
    (h : (step.run config : ClientM Client.Handles σ Client.Answer).Ends held v Q E)
    (hok : ∀ answer held' w, Q answer held' w →
      ((next (.ok answer)).run config : ClientM Client.Handles σ Unit).Ends held' w Q' E')
    (herror : ∀ e held' w, E e held' w →
      ((next (.error e)).run config : ClientM Client.Handles σ Unit).Ends held' w Q' E') :
    ((Client.Body.step step next).run config : ClientM Client.Handles σ Unit).Ends held v Q' E' := by
  intro base t ht
  have hrun : (Client.Body.step step next).run config held t =
      (next (step.run config held t).1.1).run config (step.run config held t).1.2 (step.run config held t).2 := rfl
  rw [hrun]
  rcases h base t ht with ⟨answer, held', t', w, heq, ht', hq⟩ | ⟨e, held', t', w, heq, ht', he⟩
  · rw [heq]
    exact hok answer held' w hq base t' ht'
  · rw [heq]
    exact herror e held' w he base t' ht'

/-- Whatever a client does in a trail comes to a number of steps of clients. -/
theorem ClientM.Ends.bodySteps (config : Config) {v : View} (h : v.Consistent) (body : Client.Body)
    (handles : Client.Handles) :
    (body.run config : ClientM Client.Handles σ Unit).Ends handles v (fun _ _ w => v.ClientSteps w)
      (fun _ _ w => v.ClientSteps w) := by
  induction body generalizing v handles with
  | finish => exact Ends.pure .refl
  | fail e => exact Ends.throw .refl
  | step step next ih =>
    -- the rest of the body starts from what the step came to, be it an answer or an error
    have hnext : ∀ result handles' (w : View), v.ClientStep w →
        ((next result).run config : ClientM Client.Handles σ Unit).Ends handles' w (fun _ _ w' => v.ClientSteps w')
          (fun _ _ w' => v.ClientSteps w') := by
      intro result handles' w hw
      exact Ends.mono (ih result (h.evolves hw.follows.evolves) handles') (fun _ _ _ hw' => .head hw hw')
        fun _ _ _ hw' => .head hw hw'
    exact Ends.step (Follows.step config h.backed step) (fun answer => hnext (.ok answer)) fun e => hnext (.error e)

/-- Whatever a client does in a trail comes to a number of edits. -/
theorem ClientM.Ends.body (config : Config) {v : View} (h : v.Consistent) (body : Client.Body) (handles : Client.Handles) :
    (body.run config : ClientM Client.Handles σ Unit).Ends handles v (fun _ _ w => v.Evolves w)
      (fun _ _ w => v.Evolves w) :=
  Ends.mono (Ends.bodySteps config h body handles) (fun _ _ _ hw => hw.evolves) fun _ _ _ hw => hw.evolves

/-! ## Opening -/

/-- What a new filesystem shows: revision 0, with an empty directory. -/
def View.fresh (new : Metadata) (date : String) : View :=
  ((((View.empty.setNode .root .emptyDir).setRevision 0 ⟨.root, Revision.propsAt date⟩).setNumber Counter.youngest 0).setGlobal
    "metadata" new.encode)

namespace View

variable {new : Metadata} {date : String}

/-- The root of a new filesystem is an empty directory. -/
theorem node_root_fresh (new : Metadata) (date : String) : (View.fresh new date).node .root = some .emptyDir := by
  simp [View.fresh]

/-- A new filesystem has no other node. -/
theorem node_fresh {id : NodeId} {node : NodeRevision} (h : (View.fresh new date).node id = some node) :
    id = .root ∧ node = .emptyDir := by
  by_cases hid : id = .root
  · subst hid
    exact ⟨rfl, Option.some.inj (h.symm.trans (node_root_fresh new date))⟩
  · simp [View.fresh, hid, View.empty] at h

/-- Nothing leads anywhere. -/
theorem not_links_fresh {dir id : NodeId} : ¬ (View.fresh new date).Links dir id := by
  rintro ⟨node, entry, hdir, hentry, -⟩
  obtain ⟨-, rfl⟩ := node_fresh hdir
  exact nomatch hentry

/-- A new filesystem has revision 0, and no later one. -/
theorem number_fresh (new : Metadata) (date : String) : (View.fresh new date).number Counter.youngest = some 0 := by
  simp only [View.fresh, View.number, View.setGlobal_global, Counter.youngest]
  exact Counter.number?_text 0

/-- All its revisions have the empty directory as their root. -/
theorem root_fresh {number : UInt64} {revision : Revision} (h : (View.fresh new date).revision number = some revision) :
    revision.root = .root := by
  by_cases hnumber : number = 0
  · subst hnumber
    have : revision = ⟨.root, Revision.propsAt date⟩ := by simpa [View.fresh] using h.symm
    rw [this]
  · simp [View.fresh, hnumber, View.empty] at h

/-- Its revisions are those up to the youngest one, which is the first. -/
theorem revision_fresh_ne_none_iff {number : UInt64} : (View.fresh new date).revision number ≠ none ↔ number ≤ 0 := by
  by_cases hnumber : number = 0
  · simp [View.fresh, hnumber]
  · have : ¬ number ≤ 0 := by
      rw [UInt64.le_iff_toNat_le]
      intro hle
      exact hnumber (UInt64.toNat_inj.1 (Nat.le_zero.1 hle))
    simp [View.fresh, hnumber, this, View.empty]

/-- A new filesystem has the invariant. -/
theorem consistent_fresh (new : Metadata) (date : String) : (View.fresh new date).Consistent := by
  constructor
  case flags =>
    intro id node hid
    obtain ⟨-, rfl⟩ := node_fresh hid
    exact .inl rfl
  case closed => exact fun h => absurd h not_links_fresh
  case mutable_of_child => exact fun h => absurd h not_links_fresh
  case owner => exact fun h => absurd h not_links_fresh
  case single =>
    intro dir node hdir
    obtain ⟨-, rfl⟩ := node_fresh hdir
    exact .nil
  case txnBase => exact nofun
  case txnRoot => exact nofun
  case revisionRoot =>
    intro number revision hrevision
    exact ⟨.emptyDir, root_fresh hrevision ▸ node_root_fresh new date, rfl⟩
  case youngest => exact ⟨0, number_fresh new date, fun _ => revision_fresh_ne_none_iff⟩
  case txnNames => exact ⟨0, rfl, fun name hname => absurd rfl hname⟩
  case repKeys => exact ⟨0, rfl, fun key hkey => absurd rfl hkey⟩
  case backed =>
    intro id node hid key hbody
    obtain ⟨-, rfl⟩ := node_fresh hid
    cases hbody
  case ranked => exact ⟨fun _ => 0, fun _ _ h => absurd h not_links_fresh⟩

end View

namespace TrailM

/-- Opening looks at the metadata, and makes a new filesystem where there is nothing. -/
theorem Ends.readOrInit {v : View} (new : Metadata) (date : String) (h : v.global "metadata" ≠ none ∨ v = .empty) :
    (Metadata.readOrInit new date : TrailM σ Metadata).Ends v
      (fun _ w => v.global "metadata" ≠ none ∧ w = v ∨ v = .empty ∧ w = .fresh new date) (fun _ _ => True) := by
  refine Ends.read ?_ fun _ _ => trivial
  rintro records hsound rfl
  have hglobal : records.view.global "metadata" = records.find? Metadata.key := rfl
  cases hfind : records.find? Metadata.key with
  | some value =>
    cases hdecode : Metadata.decode? value with
    | none =>
      simp only [hdecode]
      exact Ends.throw trivial
    | some metadata =>
      simp only [hdecode]
      exact Ends.pure (.inl ⟨by rw [hglobal, hfind]; exact nofun, rfl⟩)
  | none =>
    -- a store without metadata is empty, as no edit takes them away
    have hempty := h.resolve_left fun hne => hne (hglobal.trans hfind)
    rw [hempty]
    refine Ends.bind (Q := fun _ w => w = ((View.empty.setNode .root .emptyDir).setRevision 0
      ⟨.root, Revision.propsAt date⟩).setNumber Counter.youngest 0) (E := fun _ _ => True) ?_ ?_ fun _ _ _ => trivial
    · refine Ends.andThen (Writes.putNode ⟨nofun, trivial⟩) fun _ => ?_
      refine Ends.bind (Ends.appendRevision _) ?_ fun _ _ _ => trivial
      rintro number w ⟨hnumber, rfl⟩
      obtain ⟨-, rfl⟩ : _ ∧ number = 0 := hnumber
      exact Ends.pure rfl
    · rintro _ w rfl
      have hput : Writes (Trail.put Metadata.key new.encode : TrailM σ Unit) _ (View.fresh new date) := Writes.putGlobal
      exact Ends.andThen hput fun _ => Ends.pure (.inr ⟨rfl, rfl⟩)

end TrailM

/-! ## Steps -/

namespace Filesystem

/-- What holds of every reachable filesystem. -/
structure Healthy (fs : Filesystem σ) : Prop where
  valid : LawfulStore.Valid fs.store
  sound : fs.records.Sound
  consistent : fs.view.Consistent
  metadata : fs.view.global "metadata" ≠ none

variable {fs : Filesystem σ} {ω α : Type}

/-- The store of a healthy filesystem shows its view. -/
theorem Healthy.shows (h : fs.Healthy) : StoreShows fs.view fs.store :=
  ⟨h.valid, h.sound, rfl⟩

/-- The same records in another store. -/
theorem Healthy.of_records (h : fs.Healthy) {fs' : Filesystem σ} (hvalid : LawfulStore.Valid fs'.store)
    (hrecords : fs'.records = fs.records) : fs'.Healthy ∧ fs'.view = fs.view := by
  have hview : fs'.view = fs.view := congrArg Records.view hrecords
  exact ⟨⟨hvalid, hrecords ▸ h.sound, hview ▸ h.consistent, hview ▸ h.metadata⟩, hview⟩

/-- A view that is reached by edits, shown by another store. -/
theorem Healthy.of_evolves (h : fs.Healthy) {fs' : Filesystem σ} {w : View} (hstore : StoreShows w fs'.store)
    (hw : fs.view.Evolves w) : fs'.Healthy ∧ fs'.view = w := by
  have hview : fs'.view = w := hstore.view
  have hmetadata : w.global "metadata" ≠ none := by
    clear hstore hview
    induction hw with
    | refl => exact h.metadata
    | tail _ hedit ih =>
      obtain ⟨edit, hedit⟩ := hedit
      exact hedit.global_ne_none ih
  exact ⟨⟨hstore.valid, hstore.sound, hview ▸ h.consistent.evolves hw, hview ▸ hmetadata⟩, hview⟩

/-- A trail changes the view as its computation does, or not at all. -/
theorem Healthy.run_cases (h : fs.Healthy) {m : TrailM σ α} {Q : α → View → Prop} {E : Error → View → Prop}
    (hm : m.Ends fs.view Q E) (hQ : ∀ a w, Q a w → fs.view.Evolves w) :
    ∃ fs', fs'.Healthy ∧ fs'.config = fs.config ∧ ((∃ a, run m fs = (.ok a, fs') ∧ Q a fs'.view) ∨
      ∃ e, run m fs = (.error e, fs') ∧ fs'.records = fs.records ∧ ((∃ w, E e w) ∨ e.IsFault σ)) := by
  have hrun : run m fs = ((Trail.run m fs.store).1, { fs with store := (Trail.run m fs.store).2 }) := rfl
  obtain ⟨store', ⟨a, w, heq, hstore, hq⟩ | ⟨e, heq, hvalid, hrecords, herror⟩⟩ := Trail.run_cases h.shows hm
  · rw [heq] at hrun
    have hshows : StoreShows w (Filesystem.store { fs with store := store' }) := hstore
    obtain ⟨hhealthy, hview⟩ := h.of_evolves hshows (hQ a w hq)
    exact ⟨_, hhealthy, rfl, .inl ⟨a, hrun, hview ▸ hq⟩⟩
  · rw [heq] at hrun
    obtain ⟨hhealthy, -⟩ := @of_records _ _ _ _ h { fs with store := store' } hvalid hrecords
    exact ⟨_, hhealthy, rfl, .inr ⟨e, hrun, hrecords, herror⟩⟩

/-- A client leaves the filesystem healthy, with what it came to or as it was. -/
theorem Healthy.runClient_cases (h : fs.Healthy) {m : ClientM ω σ α} {held : ω} {Q : α → ω → View → Prop}
    {E : Error → ω → View → Prop} (hm : m.Ends held fs.view Q E) (hQ : ∀ a held' w, Q a held' w → fs.view.Evolves w) :
    ∃ fs' held', fs'.Healthy ∧ fs'.config = fs.config ∧
      ((∃ a, runClient m held fs = ((.ok a, held'), fs') ∧ Q a held' fs'.view) ∨
        ∃ e, runClient m held fs = ((.error e, held'), fs') ∧ fs'.view = fs.view ∧
          ((∃ held' w, E e held' w) ∨ e.IsFault σ)) := by
  have hrun : runClient m held fs =
      ((Trail.runClient m held fs.store).1, { fs with store := (Trail.runClient m held fs.store).2 }) := rfl
  obtain ⟨held', store', ⟨a, w, heq, hstore, hq⟩ | ⟨e, heq, hvalid, hrecords, herror⟩⟩ := Trail.runClient_cases h.shows hm
  · rw [heq] at hrun
    have hshows : StoreShows w (Filesystem.store { fs with store := store' }) := hstore
    obtain ⟨hhealthy, hview⟩ := h.of_evolves hshows (hQ a held' w hq)
    exact ⟨_, held', hhealthy, rfl, .inl ⟨a, hrun, hview ▸ hq⟩⟩
  · rw [heq] at hrun
    obtain ⟨hhealthy, hview⟩ := @of_records _ _ _ _ h { fs with store := store' } hvalid hrecords
    exact ⟨_, held', hhealthy, rfl, .inr ⟨e, hrun, hview, herror⟩⟩

/-- A trail of edits leaves a filesystem healthy, whether it succeeds or not. -/
theorem Healthy.run_evolves (h : fs.Healthy) {m : TrailM σ α} {Q : α → View → Prop} {E : Error → View → Prop}
    (hm : m.Ends fs.view Q E) (hQ : ∀ a w, Q a w → fs.view.Evolves w) :
    (run m fs).2.Healthy ∧ fs.view.Evolves (run m fs).2.view := by
  obtain ⟨fs', hhealthy, -, ⟨a, heq, hq⟩ | ⟨e, heq, hsame, -⟩⟩ := h.run_cases hm hQ
  · rw [heq]
    exact ⟨hhealthy, hQ a fs'.view hq⟩
  · -- nothing of a trail that fails reaches the store
    have hview : fs'.view = fs.view := congrArg Records.view hsame
    rw [heq]
    exact ⟨hhealthy, hview ▸ .refl⟩

/-- What a trail that succeeds has come to. -/
theorem Healthy.of_run (h : fs.Healthy) {m : TrailM σ α} {Q : α → View → Prop} {E : Error → View → Prop}
    (hm : m.Ends fs.view Q E) (hQ : ∀ a w, Q a w → fs.view.Evolves w) {a : α} {fs' : Filesystem σ}
    (hrun : run m fs = (.ok a, fs')) : Q a fs'.view := by
  obtain ⟨fs'', -, -, ⟨a', heq, hq⟩ | ⟨e, heq, -⟩⟩ := h.run_cases hm hQ
  · cases hrun.symm.trans heq
    exact hq
  · exact nomatch hrun.symm.trans heq

/-- A client that succeeds leaves the filesystem healthy, and with what it came to. -/
theorem Healthy.of_runClient (h : fs.Healthy) {m : ClientM ω σ α} {held : ω} {Q : α → ω → View → Prop}
    {E : Error → ω → View → Prop} (hm : m.Ends held fs.view Q E) (hQ : ∀ a held' w, Q a held' w → fs.view.Evolves w)
    {a : α} {held' : ω} {fs' : Filesystem σ} (hrun : runClient m held fs = ((.ok a, held'), fs')) :
    Q a held' fs'.view := by
  obtain ⟨fs'', held'', -, -, ⟨a', heq, hq⟩ | ⟨e, heq, -⟩⟩ := h.runClient_cases hm hQ
  · cases hrun.symm.trans heq
    exact hq
  · exact nomatch hrun.symm.trans heq

/-- Opening a store that holds a filesystem changes nothing, and an empty store becomes a fresh one. -/
theorem openOver_cases {v : View} {config : Config} {new : Metadata} {date : String} {store : σ} {fs : Filesystem σ}
    (hstore : StoreShows v store) (h : v.global "metadata" ≠ none ∨ v = .empty)
    (hopen : (openOver config new date store).1 = .ok fs) :
    StoreShows fs.view fs.store ∧ (v.global "metadata" ≠ none ∧ fs.view = v ∨ v = .empty ∧ fs.view = .fresh new date) := by
  rw [openOver] at hopen
  split at hopen
  case h_1 => exact nomatch hopen
  case h_2 =>
    obtain ⟨store', ⟨metadata, w, heq, hstore', hq⟩ | ⟨e, heq, -⟩⟩ :=
      Trail.run_cases hstore (TrailM.Ends.readOrInit new date h)
    · rw [heq] at hopen
      cases hopen
      have hview : view (⟨store', config, metadata⟩ : Filesystem σ) = w := hstore'.view
      rw [hview]
      exact ⟨hstore', hq⟩
    · rw [heq] at hopen
      exact nomatch hopen

/-- Opening an empty store makes a fresh filesystem. -/
theorem openOver_empty {config : Config} {new : Metadata} {date : String} {store : σ} {fs : Filesystem σ}
    (hvalid : LawfulStore.Valid store) (hempty : LawfulStore.records store = .empty)
    (hopen : (openOver config new date store).1 = .ok fs) : StoreShows fs.view fs.store ∧ fs.view = .fresh new date := by
  have hview : (LawfulStore.records store).view = .empty := by
    rw [hempty]
    rfl
  obtain ⟨hstore, ⟨hne, -⟩ | ⟨-, hfresh⟩⟩ :=
    openOver_cases ⟨hvalid, hempty ▸ Records.sound_empty, hview⟩ (.inr rfl) hopen
  · exact absurd rfl hne
  · exact ⟨hstore, hfresh⟩

/-- Opening the records of a healthy filesystem again gives the same. -/
theorem Healthy.of_open (h : fs.Healthy) {config : Config} {new : Metadata} {date : String} {store : σ}
    {fs' : Filesystem σ} (hvalid : LawfulStore.Valid store) (hrecords : LawfulStore.records store = fs.records)
    (hopen : (openOver config new date store).1 = .ok fs') : fs'.Healthy ∧ fs'.view = fs.view := by
  have hview : (LawfulStore.records store).view = fs.view := congrArg Records.view hrecords
  obtain ⟨hstore, ⟨-, hsame⟩ | ⟨hempty, -⟩⟩ :=
    openOver_cases ⟨hvalid, hrecords ▸ h.sound, hview⟩ (.inl h.metadata) hopen
  · exact h.of_evolves (hsame ▸ hstore) .refl
  · exact absurd (congrArg (fun v => v.global "metadata") hempty) h.metadata

/-- **EVERY STEP** of a healthy filesystem is a number of edits, and leaves it healthy. -/
theorem Step.evolves {fs fs' : Filesystem σ} (hstep : fs.Step fs') (h : fs.Healthy) :
    fs'.Healthy ∧ fs.view.Evolves fs'.view := by
  have hedit : ∀ {edit : Edit} {w : View}, fs.view.Edited edit w → fs.view.Evolves w := fun hedit => hedit.follows.evolves
  cases hstep with
  | begin base => exact h.run_evolves (TrailM.Ends.begin base) fun _ _ => hedit
  | commit txn date => exact h.run_evolves (TrailM.Ends.commit txn date) fun _ _ => hedit
  | abort txn => exact h.run_evolves (TrailM.Ends.close txn) fun _ _ => hedit
  | trail body handles =>
    obtain ⟨fs', held', hhealthy, -, ⟨a, heq, hq⟩ | ⟨e, heq, hsame, -⟩⟩ :=
      h.runClient_cases (ClientM.Ends.body fs.config h.consistent body handles) fun _ _ _ hw => hw
    · exact (congrArg Prod.snd heq) ▸ ⟨hhealthy, hq⟩
    · exact (congrArg Prod.snd heq) ▸ ⟨hhealthy, hsame ▸ .refl⟩
  | reopen hvalid hrecords hopen =>
    obtain ⟨hhealthy, hsame⟩ := h.of_open hvalid hrecords hopen
    exact ⟨hhealthy, hsame ▸ .refl⟩

/-- **EVERY REACHABLE FILESYSTEM IS HEALTHY.** -/
theorem Reachable.healthy {fs : Filesystem σ} (h : Reachable fs) : fs.Healthy := by
  induction h with
  | @fresh config new date store fs hvalid hempty hopen =>
    obtain ⟨hstore, hfresh⟩ := openOver_empty hvalid hempty hopen
    refine ⟨hstore.valid, hstore.sound, hfresh ▸ View.consistent_fresh new date, ?_⟩
    rw [hfresh]
    simp [View.fresh]
  | step _ hstep ih => exact (hstep.evolves ih).1

/-- A number of steps is a number of edits, and leaves the filesystem healthy. -/
theorem Steps.evolves {fs fs' : Filesystem σ} (hsteps : Steps fs fs') (h : fs.Healthy) :
    fs'.Healthy ∧ fs.view.Evolves fs'.view := by
  induction hsteps with
  | refl => exact ⟨h, .refl⟩
  | tail _ hstep ih =>
    obtain ⟨hhealthy, hevolves⟩ := hstep.evolves ih.1
    exact ⟨hhealthy, ih.2.trans hevolves⟩

/-- What is reached from what can be reached can be reached. -/
theorem Reachable.steps {fs fs' : Filesystem σ} (h : Reachable fs) (hsteps : Steps fs fs') : Reachable fs' := by
  induction hsteps with
  | refl => exact h
  | tail _ hstep ih => exact .step ih hstep

/-! ## A first commit -/

namespace Sample

/-- A new filesystem in memory. -/
def new : Filesystem Records :=
  ⟨(openOver Config.default ⟨"0", 0⟩ "" (.empty : Records)).2, Config.default, ⟨"0", 0⟩⟩

/-- A transaction is begun. -/
def begun : Filesystem Records :=
  (new.begin 0).2

/-- A second transaction is begun on the first revision. -/
def rivals : Filesystem Records :=
  (begun.begin 0).2

/-- What a client does to make a file in the root directory. -/
def makeFile : Client.Body :=
  .ofSteps [.cloneRoot "0" (some "root"), .make "root" "a" .file none]

def edited : Filesystem Records :=
  (runClient (makeFile.run begun.config) .empty begun).2

def committed : Filesystem Records :=
  (edited.commit "0" "").2

/-- A new filesystem can be reached. -/
theorem reachable_new : Reachable new := by
  have hopen : (openOver Config.default ⟨"0", 0⟩ "" (.empty : Records)).1 = .ok new := by rfl
  exact .fresh trivial rfl hopen

/-- So can one with a transaction. -/
theorem reachable_begun : Reachable begun :=
  reachable_new.step (.begin 0)

/-- So can one with two transactions on the same base. -/
theorem reachable_rivals : Reachable rivals :=
  reachable_begun.step (.begin 0)

/-- So can one where a transaction was edited. -/
theorem reachable_edited : Reachable edited :=
  reachable_begun.step (.trail makeFile .empty)

/-- The edits are committed. -/
theorem steps_committed : Steps new committed :=
  ((Relation.ReflTransGen.single (.begin 0)).tail (.trail makeFile .empty)).tail (.commit "0" "")

end Sample

end Filesystem

end VersionedTree

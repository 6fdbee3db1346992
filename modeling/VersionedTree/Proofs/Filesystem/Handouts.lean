import VersionedTree.Proofs.Filesystem.Traces
import VersionedTree.Proofs.Tree.Answers
import VersionedTree.Proofs.Tree.Tokens

/-!
# Handouts — nothing is given out twice

Ids of nodes, names of transactions and keys of representations come from counters and from a search for what is free.
What was given out once stays in use for good, so it is never given out again, and what it names is not written over.

* **`Taken.token`** — what a single step gives out. **`Taken.token_spec`** — it was not used before, and now it is.
* **`Filesystem.Handed`** — the log of all that was given out since the beginning.
* **`Handed.never_again`** — the theorem.
-/

namespace VersionedTree

/-- What is used stays used. -/
theorem View.Used.evolves {v w : View} {token : Token} (h : v.Used token) (hv : v.Consistent) (hw : v.Evolves w) :
    w.Used token := by
  induction hw with
  | refl => exact h
  | tail hevolves hedit ih =>
    obtain ⟨edit, hedit⟩ := hedit
    exact ih.edited (hv.evolves hevolves) hedit

variable {σ : Type} [RecordStore σ] [LawfulStore σ]

/-! ## The numbers of nodes do not clash -/

/-- True of the error that the id of a new node is taken. -/
def Error.IsClash (e : Error) : Prop :=
  ∃ id, e = .corrupt (.nodeExists id)

/-- A fault of the store is no clash of ids. -/
theorem Error.IsFault.not_isClash {e : Error} (h : e.IsFault σ) : ¬ e.IsClash := by
  obtain ⟨-, cause, rfl⟩ := h
  rintro ⟨id, heq⟩
  cases heq

namespace TrailM

variable {v : View} {node : Node}

/-- Where records are in order the id of a new node is free. -/
theorem Ends.create_not_clash (h : v.Ordered) {revision : NodeRevision} (hstorable : revision.Storable) :
    (NodeRecord.create revision : TrailM σ NodeId).Ends v (fun _ _ => True) (fun e _ => ¬ e.IsClash) := by
  refine Ends.mono (Ends.createFree h hstorable) (fun _ _ _ => trivial) ?_
  rintro e w ⟨-, hfault | rfl⟩
  · exact hfault.not_isClash
  · rintro ⟨id, heq⟩
    cases heq

/-- A new child never has an id that is taken, as the number of the next node is above all others. -/
theorem Ends.makeStep_not_clash (h : v.Ordered) (hstorable : node.revision.Storable) (name : String) (kind : Kind) :
    (node.makeStep name kind : TrailM σ _).Ends v (fun _ _ => True) (fun e _ => ¬ e.IsClash) := by
  have hentries : (TrailM.ofResult node.entries : TrailM σ _).Reads v (fun entries => node.revision.body = .dir entries)
      (fun e => ¬ e.IsClash) := by
    refine Reads.ofResult (fun _ hok => Node.entries_eq_ok.1 hok) fun e he => ?_
    unfold Node.entries at he
    split at he
    case h_1 => exact nomatch he
    case h_2 =>
      cases he
      exact fun ⟨id, heq⟩ => nomatch heq
  refine Ends.after (Reads.requireMutable node) (fun _ _ => ?_) fun e he => he.2 ▸ fun ⟨id, heq⟩ => nomatch heq
  refine Ends.after hentries (fun entries hdir => ?_) fun _ he => he
  split
  case isTrue => exact Ends.throw fun ⟨id, heq⟩ => nomatch heq
  case isFalse =>
    refine Ends.bind (Ends.create_not_clash h (.newMutable kind node.id.text)) (fun id w _ => ?_) fun _ _ he => he
    have hsave : (node.revision.mapEntries fun entries => entries ++ [⟨name, id⟩]).Storable := by
      simpa [NodeRevision.mapEntries, hdir] using hstorable.withEntries (entries ++ [⟨name, id⟩])
    exact Ends.andThen (Writes.putNode hsave) fun _ => Ends.pure trivial

end TrailM

/-- **NO ID IS TAKEN** when an entry is made. -/
theorem ClientM.Ends.make_not_clash {v : View} (hv : v.Ordered) (config : Config) (h name : String) (kind : Kind)
    (keep : Option String) (handles : Client.Handles) :
    ((Client.Step.make h name kind keep).run config : ClientM Client.Handles σ Client.Answer).Ends handles v
      (fun _ _ _ => True) (fun e _ _ => ¬ e.IsClash) := by
  cases hfind : handles.find? h with
  | none => exact Ends.mono (Ends.withoutHandle hfind) (fun _ _ _ _ => trivial) fun _ _ _ he => he.elim
  | some node =>
    have hchange : (Node.make name kind : Node.HandleM σ Node).Ends node v (fun _ _ _ => True) (fun e _ _ => ¬ e.IsClash) := by
      refine Ends.change (Q := fun _ _ => True) (E := fun e _ => ¬ e.IsClash) ?_ ?_
      · exact fun fresh _ _ hstorable => TrailM.Ends.makeStep_not_clash hv hstorable name kind
      · rintro e (hfault | ⟨-, rfl⟩)
        · exact hfault.not_isClash
        · exact fun ⟨id, heq⟩ => nomatch heq
    refine Ends.withHandle hfind (Ends.bind (Ends.through hchange) (fun child handles' w _ => ?_) ?_)
    · exact Ends.mono (Ends.give keep child) (fun _ _ _ _ => trivial) fun _ _ _ he => he.elim
    · rintro e handles' w ⟨-, -, he⟩
      exact he

/-! ## What a step gives out -/

namespace Client.Taken

/-- What stood before the step where the node that it gives stands now: a node that is cloned. A new entry is made where
    nothing stood. -/
def original (s : Taken σ) : Option NodeId :=
  match s.step with
  | .cloneRoot txn _ => (s.before.txn txn).map Transaction.root
  | .cloneChild h name _ => do
    let dir ← s.before.node (← s.held.find? h).id
    let entry ← dir.children.find? fun entry => entry.name = name
    return entry.id
  | _ => none

/-- The id of the node that the step gives, if the step has made it: another one stood there before, or none. -/
def made (s : Taken σ) : Option NodeId :=
  match s.step, s.result with
  | .cloneRoot _ _, .ok (.node node) | .cloneChild _ _ _, .ok (.node node) | .make _ _ _ _, .ok (.node node) =>
    if s.original = some node.id then none else some node.id
  | _, _ => none

/-- The key that the step has stored contents under. -/
def storedKey (s : Taken σ) : Option String :=
  match s.step, s.result with
  | .setContents h _, .ok .done => do
    match (← s.heldAfter.find? h).revision.body with
    | .file key => key
    | .dir _ => none
  | _, _ => none

/-- What the step gives out. -/
def token (s : Taken σ) : Option Token :=
  s.made.map .node <|> s.storedKey.map .rep

variable {s : Taken σ} {base : Records} {id : NodeId}

/-- Only three steps make nodes. -/
theorem made_eq_some (h : s.made = some id) :
    ∃ node, s.result = .ok (.node node) ∧ node.id = id ∧ s.original ≠ some id ∧
      ((∃ txn keep, s.step = .cloneRoot txn keep) ∨ (∃ h name keep, s.step = .cloneChild h name keep) ∨
        ∃ h name kind keep, s.step = .make h name kind keep) := by
  have hnode : ∀ node : Node, (if s.original = some node.id then none else some node.id) = some id →
      node.id = id ∧ s.original ≠ some id := by
    intro node hif
    split at hif
    case isTrue => exact nomatch hif
    case isFalse hne =>
      cases hif
      exact ⟨rfl, hne⟩
  unfold made at h
  split at h
  case h_1 node hstep hresult => exact ⟨node, hresult, (hnode node h).1, (hnode node h).2, .inl ⟨_, _, hstep⟩⟩
  case h_2 node hstep hresult => exact ⟨node, hresult, (hnode node h).1, (hnode node h).2, .inr (.inl ⟨_, _, _, hstep⟩)⟩
  case h_3 node hstep hresult =>
    exact ⟨node, hresult, (hnode node h).1, (hnode node h).2, .inr (.inr ⟨_, _, _, _, hstep⟩)⟩
  case h_4 => exact nomatch h

/-- A step that has done something through a handle had this handle. -/
theorem exists_handle {h : String} {f : Node → ClientM Handles σ Answer} {answer : Answer}
    (hstep : s.step.run s.config = Client.withHandle h f) (hs : s.trail.Shows base s.before)
    (hresult : s.result = .ok answer) (hanswer : answer ≠ .noHandle) : ∃ node, s.held.find? h = some node := by
  cases hfind : s.held.find? h with
  | some node => exact ⟨node, rfl⟩
  | none =>
    exact absurd (of_ends_ok hs (hstep ▸ ClientM.Ends.withoutHandle hfind) hresult).1 hanswer

/-- **A NODE THAT IS MADE** was not there. It has a number of its own if nothing stood there before, and else it goes on
    from what stood there. -/
theorem made_spec (hs : s.trail.Shows base s.before) (ho : s.before.Ordered) (hmade : s.made = some id) :
    ¬ s.before.Used (.node id) ∧ s.after.Used (.node id) ∧
      (s.original = none → ∀ id', s.before.node id' ≠ none → id'.node ≠ id.node) ∧
      ∀ old, s.original = some old → s.before.node old ≠ none ∧ id.node = old.node := by
  -- a node is given by three steps, and is made by a step if it is not the one that was asked for
  obtain ⟨node, hresult, rfl, hne, ⟨txn, keep, hstep⟩ | ⟨h, name, keep, hstep⟩ | ⟨h, name, kind, keep, hstep⟩⟩ :=
    made_eq_some hmade
  · obtain ⟨root, hanswer, hroot⟩ := of_ends_ok hs (hstep ▸ ClientM.Ends.cloneRoot s.config txn keep) hresult
    cases hanswer
    have horiginal : s.original = (s.before.txn txn).map Transaction.root := by rw [original, hstep]
    rcases hroot with ⟨-, t, htxn, -, hid⟩ | hedit
    · exact absurd (by rw [horiginal, htxn, hid]; rfl) hne
    · obtain ⟨hfree, hused, t, htxn, ht, hnumber⟩ := hedit.used_cloneRoot
      rw [horiginal, htxn]
      refine ⟨hfree, hused, nofun, ?_⟩
      intro old hold
      cases hold
      exact ⟨ht, hnumber⟩
  · obtain ⟨dir, hfind⟩ := exists_handle (by rw [hstep]; rfl) hs hresult nofun
    obtain ⟨child, hanswer, hchild⟩ := of_ends_ok hs (hstep ▸ ClientM.Ends.cloneChild s.config hfind name keep) hresult
    cases hanswer
    have horiginal : ∀ {old entry}, s.before.node dir.id = some old →
        old.children.find? (fun entry => entry.name = name) = some entry → s.original = some entry.id := by
      intro old entry hold hentry
      simp [original, hstep, hfind, hold, hentry]
    rcases hchild with ⟨-, -, old, entries, entry, hold, hdir, hentry, hid⟩ | hedit
    · rw [← NodeRevision.children_of_dir hdir] at hentry
      exact absurd (hid ▸ horiginal hold hentry) hne
    · obtain ⟨hfree, hused, old, entry, hold, hentry, hthere, hnumber⟩ := hedit.used_cloneChild
      rw [horiginal hold hentry]
      refine ⟨hfree, hused, nofun, ?_⟩
      intro old' hold'
      cases hold'
      exact ⟨hthere, hnumber⟩
  · obtain ⟨dir, hfind⟩ := exists_handle (by rw [hstep]; rfl) hs hresult nofun
    obtain ⟨child, hanswer, hedit⟩ := of_ends_ok hs (hstep ▸ ClientM.Ends.make s.config hfind name kind keep) hresult
    cases hanswer
    obtain ⟨hfree, hused, hnumber⟩ := hedit.used_make ho
    refine ⟨hfree, hused, fun _ => hnumber, fun old hold => ?_⟩
    rw [original, hstep] at hold
    exact nomatch hold

/-- **A KEY THAT IS GIVEN TO CONTENTS** was not in use. -/
theorem stored_spec (hs : s.trail.Shows base s.before) (hv : s.before.Consistent) {key : String}
    (hkey : s.storedKey = some key) : ¬ s.before.Used (.rep key) ∧ s.after.Used (.rep key) := by
  unfold storedKey at hkey
  split at hkey
  case h_2 => cases hkey
  case h_1 h data hstep hresult =>
    have hanswer : Answer.done ≠ .noHandle := by decide
    obtain ⟨node, hfind⟩ := exists_handle (by rw [hstep]; rfl) hs hresult hanswer
    obtain ⟨file, hheld, hfile, hid, hedit⟩ :=
      of_ends_ok hs (hstep ▸ ClientM.Ends.setContents s.config hfind hv.backed data) hresult
    obtain ⟨stored, key', hnode, hbody, hfree, hused⟩ := hedit.used_setContents hv
    rw [View.Current, hid, hnode] at hfile
    have hlook : s.heldAfter.find? h = some file := by
      rw [hheld, SortedMap.find?_insert, if_pos Std.ReflCmp.compare_self]
    obtain rfl : key' = key := by simpa [hlook, ← Option.some.inj hfile, hbody] using hkey
    exact ⟨hfree, hused⟩

/-- **WHAT IS GIVEN OUT** was not in use, and now it is. -/
theorem token_spec (hs : s.trail.Shows base s.before) (hv : s.before.Consistent) (ho : s.before.Ordered) {token : Token}
    (htoken : s.token = some token) : ¬ s.before.Used token ∧ s.after.Used token := by
  cases hmade : s.made with
  | some id =>
    obtain ⟨hfree, hused, -⟩ := made_spec hs ho hmade
    obtain rfl : Token.node id = token := by simpa [Taken.token, hmade] using htoken
    exact ⟨hfree, hused⟩
  | none =>
    cases hkey : s.storedKey with
    | some key =>
      obtain rfl : Token.rep key = token := by simpa [Taken.token, hmade, hkey] using htoken
      exact stored_spec hs hv hkey
    | none => simp [Taken.token, hmade, hkey] at htoken

end Client.Taken

/-! ## Nothing is lost -/

/-- What a client does in a trail loses nothing. -/
theorem Client.Body.retains {base : Records} {v : View} {t : Trail σ} (hv : v.Consistent) (ht : t.Shows base v)
    (config : Config) (body : Client.Body) (held : Client.Handles) :
    t.records.Retains (body.run config held t).2.records := by
  induction body generalizing v held t with
  | finish => exact .refl _
  | fail e => exact .refl _
  | step step next ih =>
    let first : Client.Taken σ := ⟨config, step, held, t⟩
    have hbefore : first.before = v := ht.view
    obtain ⟨hafter, hstep⟩ := Client.Taken.shows_after (s := first) (hbefore.symm ▸ ht) (hbefore.symm ▸ hv)
    have hrun : (Client.Body.step step next).run config held t =
        (next first.result).run config first.heldAfter first.trailAfter := rfl
    rw [hrun]
    exact (ht.retains_step hv config step held).trans
      (ih first.result (hv.evolves (hbefore ▸ hstep).follows.evolves) hafter first.heldAfter)

namespace Filesystem

variable {fs fs' : Filesystem σ} {α : Type}

/-- A computation in a trail loses nothing if it removes no node and leaves alone what has to stay. -/
theorem Healthy.run_retains (h : fs.Healthy) {m : TrailM σ α} {Q : α → View → Prop} {E : Error → View → Prop}
    (hm : m.Ends fs.view Q E) (hnode : ∀ a w, Q a w → ∀ id, fs.view.node id ≠ none → w.node id ≠ none)
    (hspares : ∀ key, key.table = .revisions ∨ key.table = .representations → fs.records.find? key ≠ none →
      m.Spares fs.view key) : fs.records.Retains (run m fs).2.records := by
  have hstart := h.shows.start
  have hrun : (run m fs).2.records =
      LawfulStore.records ((m (Trail.start fs.store)).2.complete (m (Trail.start fs.store)).1).2 := rfl
  rcases hm _ _ hstart with ⟨a, t', w, heq, ht', hq⟩ | ⟨e, t', w, heq, ht', -⟩
  · rw [heq] at hrun
    obtain ⟨store', -, ⟨_, -, hcomplete, hrecords⟩ | ⟨e, hcomplete, hrecords, -⟩⟩ := Trail.complete_cases ht'.valid (.ok a)
    · have hkept : ∀ key value, key.table = .revisions ∨ key.table = .representations →
          (Trail.start fs.store).records.find? key = some value →
          t'.staged.find? key = (Trail.start fs.store).staged.find? key := by
        intro key value htable hfind
        have := hspares key htable (hfind ▸ nofun) _ _ hstart
        rwa [heq] at this
      rw [hcomplete] at hrun
      rw [hrun, hrecords]
      exact hstart.retains ht' hkept (hnode a w hq)
    · rw [hcomplete] at hrun
      rw [hrun, hrecords, ht'.base]
      exact .refl _
  · -- what was staged is thrown away
    rw [heq] at hrun
    rw [hrun]
    show fs.records.Retains (LawfulStore.records t'.store)
    rw [ht'.base]
    exact .refl _

/-- Where there are metadata, opening writes nothing. -/
theorem readOrInit_records (new : Metadata) (date : String) {t : Trail σ} (hvalid : LawfulStore.Valid t.store)
    (hthere : t.records.find? Metadata.key ≠ none) :
    LawfulStore.Valid (Metadata.readOrInit new date t).2.store ∧ (Metadata.readOrInit new date t).2.records = t.records := by
  obtain ⟨value, hvalue⟩ := Option.ne_none_iff_exists'.1 hthere
  obtain ⟨t', hvalid', -, hrecords, hread | ⟨-, e, hread⟩⟩ := Trail.read_cases hvalid Metadata.key
  · rw [hvalue] at hread
    rw [Metadata.readOrInit, TrailM.bind_of_ok hread]
    dsimp only
    cases Metadata.decode? value with
    | some metadata => exact ⟨hvalid', hrecords⟩
    | none => exact ⟨hvalid', hrecords⟩
  · rw [Metadata.readOrInit, TrailM.bind_of_error hread]
    exact ⟨hvalid', hrecords⟩

/-- Opening a filesystem again changes no record. -/
theorem Healthy.records_of_open (h : fs.Healthy) {config : Config} {new : Metadata} {date : String} {store : σ}
    (hvalid : LawfulStore.Valid store) (hrecords : LawfulStore.records store = fs.records)
    (hopen : (openOver config new date store).1 = .ok fs') : fs'.records = fs.records := by
  have hstart : (Trail.start store).records = fs.records := hrecords
  obtain ⟨hvalid', hsame⟩ := readOrInit_records new date (t := Trail.start store) hvalid (hstart ▸ h.metadata)
  have hrun : Trail.run (Metadata.readOrInit new date) store =
      (Metadata.readOrInit new date (Trail.start store)).2.complete (Metadata.readOrInit new date (Trail.start store)).1 := rfl
  rw [openOver] at hopen
  split at hopen
  case h_1 => cases hopen
  case h_2 =>
    obtain ⟨store', -, ⟨_, -, hcomplete, hrecords'⟩ | ⟨e, hcomplete, -⟩⟩ :=
      Trail.complete_cases hvalid' (Metadata.readOrInit new date (Trail.start store)).1
    · rw [hrun, hcomplete] at hopen
      cases hopen
      exact hrecords'.trans (hsame.trans hstart)
    · rw [hrun, hcomplete] at hopen
      cases hopen

/-- **NO STEP LOSES ANYTHING.** -/
theorem Step.retains (hstep : fs.Step fs') (h : fs.Healthy) : fs.records.Retains fs'.records := by
  have hv := h.consistent
  cases hstep with
  | begin base =>
    refine h.run_retains (TrailM.Ends.begin base) (fun _ _ hedit _ => hedit.node_ne_none) fun key hkey _ => ?_
    have hstages : (Transaction.create base : TrailM σ String).StagesIn [.transactions, .globals] :=
      .createTxn (by decide) (by decide) base
    refine .frame hstages ?_
    rcases hkey with hkey | hkey <;> rw [hkey] <;> decide
  | abort txn =>
    refine h.run_retains (TrailM.Ends.close txn) (fun _ _ hedit _ => hedit.node_ne_none) fun key hkey _ => ?_
    have hstages : (Transaction.close txn : TrailM σ Unit).StagesIn [.transactions] := .closeTxn (by decide) txn
    refine .frame hstages ?_
    rcases hkey with hkey | hkey <;> rw [hkey] <;> decide
  | commit txn date =>
    refine h.run_retains (TrailM.Ends.commit txn date) (fun _ _ hedit _ => hedit.node_ne_none) fun key hkey hfind => ?_
    refine .commit txn date (by rcases hkey with hkey | hkey <;> rw [hkey] <;> decide) ?_
    -- the record of the next revision is put, and there was none under its number
    rintro number hnext rfl
    obtain ⟨_, heq, hthere⟩ := (Records.find?_revision_ne_none h.sound rfl).1 hfind
    cases Revision.key_inj.1 heq
    obtain ⟨youngest, hyoungest, -⟩ := hv.youngest
    rw [View.IsNextRevision, show fs.view.number Counter.youngest = some youngest from hyoungest] at hnext
    obtain ⟨hleft, rfl⟩ := hnext
    exact hthere (hv.nextRevision_free hyoungest hleft)
  | trail body handles =>
    rcases h.trail_cases body handles with ⟨-, hrecords⟩ | ⟨-, hrecords⟩
    · exact hrecords ▸ Client.Body.retains hv h.shows.start fs.config body handles
    · exact hrecords ▸ .refl _
  | reopen hvalid hrecords hopen => exact h.records_of_open hvalid hrecords hopen ▸ .refl _

/-! ## The log -/

/-- One step of the time of a filesystem, with what it gives out. Only a trail that is completed gives anything out. -/
inductive Hands (fs : Filesystem σ) : List Token → Filesystem σ → Prop where
  | begin (base : UInt64) : Hands fs ((fs.begin base).1.toOption.toList.map .txn) (fs.begin base).2
  | commit (txn date : String) : Hands fs [] (fs.commit txn date).2
  | abort (txn : String) : Hands fs [] (fs.abort txn).2
  | completed (body : Client.Body) (held : Client.Handles) (h : fs.Completes body held) :
      Hands fs ((fs.taken body held).filterMap Client.Taken.token) (runClient (body.run fs.config) held fs).2
  | discarded (body : Client.Body) (held : Client.Handles) (h : ¬ fs.Completes body held) :
      Hands fs [] (runClient (body.run fs.config) held fs).2
  | reopen {config : Config} {new : Metadata} {date : String} {store : σ} {fs' : Filesystem σ}
      (hvalid : LawfulStore.Valid store) (hrecords : LawfulStore.records store = fs.records)
      (hopen : (openOver config new date store).1 = .ok fs') : Hands fs [] fs'

/-- The log of all that was given out since the filesystem was made, and the filesystem now. -/
inductive Handed : List Token → Filesystem σ → Prop where
  | fresh {config : Config} {new : Metadata} {date : String} {store : σ} {fs : Filesystem σ}
      (hvalid : LawfulStore.Valid store) (hempty : LawfulStore.records store = .empty)
      (hopen : (openOver config new date store).1 = .ok fs) : Handed [] fs
  | next {log tokens : List Token} {fs fs' : Filesystem σ} (h : Handed log fs) (hstep : fs.Hands tokens fs') :
      Handed (log ++ tokens) fs'

/-- Whatever hands out ids and keys is a step of the filesystem. -/
theorem Hands.step {tokens : List Token} (h : fs.Hands tokens fs') : fs.Step fs' := by
  cases h with
  | begin base => exact .begin base
  | commit txn date => exact .commit txn date
  | abort txn => exact .abort txn
  | completed body held _ => exact .trail body held
  | discarded body held _ => exact .trail body held
  | reopen hvalid hrecords hopen => exact .reopen hvalid hrecords hopen

namespace Handed

variable {log : List Token}

/-- What the log was kept of can be reached. -/
theorem reachable (h : Handed log fs) : Reachable fs := by
  induction h with
  | fresh hvalid hempty hopen => exact .fresh hvalid hempty hopen
  | next _ hstep ih => exact ih.step hstep.step

end Handed

/-- What the steps of a trail give out is new, and no two give out the same. -/
theorem Reachable.taken_tokens (h : Reachable fs) (body : Client.Body) (held : Client.Handles) :
    ((fs.taken body held).filterMap Client.Taken.token).Nodup ∧
      ∀ token ∈ (fs.taken body held).filterMap Client.Taken.token, ¬ fs.view.Used token := by
  have hv := h.healthy.consistent
  have hspec : ∀ s ∈ fs.taken body held, ∀ token, s.token = some token → ¬ s.before.Used token ∧ s.after.Used token := by
    intro s hs token htoken
    obtain ⟨hshows, hbefore, hordered⟩ := h.taken hs
    exact Client.Taken.token_spec hshows hbefore hordered htoken
  constructor
  · have hpairs : (fs.taken body held).Pairwise fun s s' => s.after.ClientSteps s'.before :=
      Client.Body.taken_pairwise hv h.healthy.shows.start
    refine List.Pairwise.filterMap (R := fun s s' => s ∈ fs.taken body held ∧ s' ∈ fs.taken body held ∧
      s.after.ClientSteps s'.before) _ ?_ (hpairs.imp_of_mem fun hs hs' hsteps => ⟨hs, hs', hsteps⟩)
    -- what the earlier step has given out is in use when the later one is taken
    rintro s s' ⟨hs, hs', hsteps⟩ token htoken token' htoken' rfl
    obtain ⟨hshows, hbefore, -⟩ := h.taken hs
    have hafter := hbefore.evolves (Client.Taken.shows_after hshows hbefore).2.follows.evolves
    exact (hspec s' hs' token htoken').1 ((hspec s hs token htoken).2.evolves hafter hsteps.evolves)
  · intro token htoken hused
    obtain ⟨s, hs, hsome⟩ := List.mem_filterMap.1 htoken
    obtain ⟨hshows, hsteps⟩ := h.healthy.taken_shows hs
    exact (hspec s hs token hsome).1 (hused.evolves hv hsteps.evolves)

/-- **WHAT A STEP GIVES OUT** is new, no two tokens of it are the same, and all are in use from then on. -/
theorem Hands.tokens_spec {tokens : List Token} (hstep : fs.Hands tokens fs') (h : Reachable fs) :
    tokens.Nodup ∧ ∀ token ∈ tokens, ¬ fs.view.Used token ∧ fs'.view.Used token := by
  have hv := h.healthy.consistent
  have hnothing : ([] : List Token).Nodup ∧ ∀ token ∈ ([] : List Token), ¬ fs.view.Used token ∧ fs'.view.Used token :=
    ⟨.nil, fun _ hmem => nomatch hmem⟩
  cases hstep with
  | begin base =>
    obtain ⟨fs'', -, -, ⟨name, heq, hedit⟩ | ⟨e, heq, -⟩⟩ :=
      h.healthy.run_cases (TrailM.Ends.begin base) fun _ _ hedit => hedit.follows.evolves
    · have hbegin : fs.begin base = (.ok name, fs'') := heq
      rw [hbegin]
      refine ⟨List.nodup_singleton _, fun token htoken => ?_⟩
      cases List.mem_singleton.1 htoken
      exact hedit.used_begin hv
    · have hbegin : fs.begin base = (.error e, fs'') := heq
      rw [hbegin]
      exact ⟨.nil, fun _ hmem => nomatch hmem⟩
  | completed body held hcompletes =>
    obtain ⟨hnodup, hnew⟩ := h.taken_tokens body held
    refine ⟨hnodup, fun token htoken => ⟨hnew token htoken, ?_⟩⟩
    -- a token is in use after its own step, and stays so up to the end of the trail
    obtain ⟨s, hs, hsome⟩ := List.mem_filterMap.1 htoken
    obtain ⟨hshows, hbefore, hordered⟩ := h.taken hs
    have hafter := hbefore.evolves (Client.Taken.shows_after hshows hbefore).2.follows.evolves
    have hused := (Client.Taken.token_spec hshows hbefore hordered hsome).2
    obtain ⟨-, hrecords⟩ := (h.healthy.trail_cases body held).resolve_right fun hnot => hnot.1 hcompletes
    rw [view, hrecords]
    exact hused.evolves hafter (Client.Body.taken_ends hv h.healthy.shows.start hs).evolves
  | commit _ _ => exact hnothing
  | abort _ => exact hnothing
  | discarded _ _ _ => exact hnothing
  | reopen _ _ _ => exact hnothing

namespace Handed

variable {log : List Token}

/-- No two entries of the log are the same, and all of them are in use. -/
theorem log_spec (h : Handed log fs) : log.Nodup ∧ ∀ token ∈ log, fs.view.Used token := by
  induction h with
  | fresh _ _ _ => exact ⟨.nil, fun _ hmem => nomatch hmem⟩
  | next h hstep ih =>
    have hhealthy := h.reachable.healthy
    obtain ⟨hnodup, hused⟩ := ih
    obtain ⟨hnodup', hnew⟩ := hstep.tokens_spec h.reachable
    refine ⟨List.nodup_append.2 ⟨hnodup, hnodup', ?_⟩, ?_⟩
    · rintro token htoken _ htoken' rfl
      exact (hnew token htoken').1 (hused token htoken)
    · intro token htoken
      rcases List.mem_append.1 htoken with htoken | htoken
      · exact (hused token htoken).evolves hhealthy.consistent (hstep.step.evolves hhealthy).2
      · exact (hnew token htoken).2

/-- What was given out is in use when a step of a trail is taken, be it from the log or by a step before. -/
theorem used_before (h : Handed log fs) {body : Client.Body} {held : Client.Handles} {earlier later : List (Client.Taken σ)}
    {s : Client.Taken σ} (htaken : fs.taken body held = earlier ++ s :: later) {token : Token}
    (htoken : token ∈ log ++ earlier.filterMap Client.Taken.token) : s.before.Used token := by
  have hreachable := h.reachable
  have hv := hreachable.healthy.consistent
  have hmem : ∀ s', s' ∈ earlier ∨ s' = s → s' ∈ fs.taken body held := by
    rintro s' (hs' | rfl)
    · exact htaken ▸ List.mem_append_left _ hs'
    · exact htaken ▸ List.mem_append_right _ List.mem_cons_self
  rcases List.mem_append.1 htoken with hlog | hearlier
  · exact (h.log_spec.2 token hlog).evolves hv (hreachable.healthy.taken_shows (hmem s (.inr rfl))).2.evolves
  · obtain ⟨s', hs', hsome⟩ := List.mem_filterMap.1 hearlier
    obtain ⟨hshows, hbefore, hordered⟩ := hreachable.taken (hmem s' (.inl hs'))
    have hafter := hbefore.evolves (Client.Taken.shows_after hshows hbefore).2.follows.evolves
    have hpairs : (fs.taken body held).Pairwise fun s s' => s.after.ClientSteps s'.before :=
      Client.Body.taken_pairwise hv hreachable.healthy.shows.start
    rw [htaken] at hpairs
    have hsteps := (List.pairwise_append.1 hpairs).2.2 s' hs' s List.mem_cons_self
    exact (Client.Taken.token_spec hshows hbefore hordered hsome).2.evolves hafter hsteps.evolves

/-- **NOTHING IS GIVEN OUT TWICE.** Whatever has happened to a filesystem since it was made: (a) all that was given out is
    different. (b) No step takes away or writes over the record of a representation or a revision, or takes away that of
    a node. (c) What a step gives out was not in use, and is from then on. (d) The same goes for each single step of a
    trail, whether the trail is completed or not; and what such a step gives out was not given out before. Under the id of
    a node that is made there was no record. A node that is made where nothing stood has a number that no node ever had,
    one that takes the place of another has the number of that one, and making a node never fails because its id is
    taken. -/
theorem never_again (h : Handed log fs) :
    log.Nodup ∧
    (∀ fs', fs.Step fs' → fs.records.Retains fs'.records) ∧
    (∀ tokens fs', fs.Hands tokens fs' → ∀ token ∈ tokens, ¬ fs.view.Used token ∧ fs'.view.Used token) ∧
    ∀ body held earlier s later, fs.taken body held = earlier ++ s :: later →
      s.trail.records.Retains s.trailAfter.records ∧
      (∀ token, s.token = some token → ¬ s.before.Used token ∧ s.after.Used token ∧
        token ∉ log ++ earlier.filterMap Client.Taken.token) ∧
      (∀ id, s.made = some id → s.trail.records.find? (NodeRecord.key id) = none ∧
        (s.original = none → ∀ id', s.before.node id' ≠ none ∨ .node id' ∈ log ++ earlier.filterMap Client.Taken.token →
          id'.node ≠ id.node) ∧
        ∀ old, s.original = some old → id.node = old.node) ∧
      (∀ revision : NodeRevision, revision.Storable → ∀ e,
        ((NodeRecord.create revision : TrailM σ NodeId) s.trail).1 = .error e → ¬ e.IsClash) ∧
      ∀ handle name kind keep, s.step = .make handle name kind keep → ∀ e, s.result = .error e → ¬ e.IsClash := by
  refine ⟨h.log_spec.1, fun fs' hstep => hstep.retains h.reachable.healthy,
    fun tokens fs' hstep => (hstep.tokens_spec h.reachable).2, ?_⟩
  intro body held earlier s later htaken
  -- all the rest is about one step of a trail, with the invariants of the view in front of it
  obtain ⟨hshows, hv, hordered⟩ := h.reachable.taken (htaken ▸ List.mem_append_right _ List.mem_cons_self)
  refine ⟨hshows.retains_step hv s.config s.step s.held, ?_, ?_, ?_, ?_⟩
  · intro token htoken
    obtain ⟨hfree, hused⟩ := Client.Taken.token_spec hshows hv hordered htoken
    exact ⟨hfree, hused, fun hgiven => hfree (h.used_before htaken hgiven)⟩
  · intro id hmade
    obtain ⟨hfree, -, hnew, hsuccessor⟩ := Client.Taken.made_spec hshows hordered hmade
    have hnone : s.trail.records.find? (NodeRecord.key id) = none :=
      Classical.byContradiction fun hthere => hfree ((Records.find?_node_ne_none hshows.sound id).1 hthere)
    refine ⟨hnone, fun horiginal id' hid' => hnew horiginal id' ?_, fun old hold => (hsuccessor old hold).2⟩
    exact hid'.elim (fun hthere => hthere) fun hgiven => h.used_before htaken hgiven
  · intro revision hstorable e he
    rcases TrailM.Ends.create_not_clash hordered hstorable _ _ hshows with ⟨id, t', w, heq, -⟩ | ⟨e', t', w, heq, -, hclash⟩
    · rw [heq] at he
      exact nomatch he
    · rw [heq] at he
      cases he
      exact hclash
  · intro handle name kind keep hstep e he
    exact Client.Taken.of_ends_error hshows
      (hstep ▸ ClientM.Ends.make_not_clash hordered s.config handle name kind keep s.held) he

end Handed

namespace Sample

/-- What has been given out when the root of a transaction was entered and a file was made in it. -/
def log : List Token :=
  [.txn "0", .node (.first 0 1), .node (.ofNode 1)]

/-- Ids and keys that a transaction with two changes hands out. -/
theorem handed : Handed log edited := by
  have hopen : (openOver Config.default ⟨"0", 0⟩ "" (.empty : Records)).1 = .ok new := by rfl
  have hname : (new.begin 0).1 = .ok "0" := by decide +kernel
  have hcompletes : begun.Completes makeFile .empty := by rw [Completes]; decide +kernel
  have htokens : (begun.taken makeFile .empty).filterMap Client.Taken.token = [.node (.first 0 1), .node (.ofNode 1)] := by
    decide +kernel
  have hbegin : new.Hands [.txn "0"] begun := by
    have h := @Hands.begin _ _ _ new 0
    rwa [hname] at h
  have htrail : begun.Hands [.node (.first 0 1), .node (.ofNode 1)] edited := htokens ▸ .completed makeFile .empty hcompletes
  exact ((Handed.fresh trivial rfl hopen).next hbegin).next htrail

/-- The transaction, its root and the file have got different tokens, and a commit loses no record of them. -/
theorem log_nodup : Handed log edited ∧ log.Nodup ∧ edited.records.Retains committed.records := by
  obtain ⟨hnodup, hretains, -⟩ := handed.never_again
  exact ⟨handed, hnodup, hretains committed (.commit "0" "")⟩

end Sample

end Filesystem

end VersionedTree

import Mathlib.Data.List.Nodup
import Mathlib.Data.List.Pairwise
import VersionedTree.Proofs.Filesystem.History

/-!
# Commits — one after the other

Clients begin, edit, commit and abort any number of transactions, in any order. A log says what they were told. The name
of a transaction is given once, and of all transactions that were begun on one revision at most one is ever committed:
from then on the others are out of date.

* **`Filesystem.Run`** — a filesystem, with the log of all that happened to it since it was made.
* **`View.Standing`** — what the course of transactions depends on. What clients do in their trails leaves it alone.
* **`Ledger`** — what a log has to do with the records. **`Happens.ledger`** is one step, **`Run.ledger`** is a whole run.
* **`Run.commits_serialized`** — the theorem.
-/

namespace VersionedTree

open Function (update update_self update_of_ne update_eq_self)

/-- In a list whose images are all different, one image is of one element. -/
theorem eq_of_nodup_filterMap {α β : Type} {f : α → Option β} {xs : List α} (h : (xs.filterMap f).Nodup) {x y : α} {b : β}
    (hx : x ∈ xs) (hy : y ∈ xs) (hfx : f x = some b) (hfy : f y = some b) : x = y := by
  rw [List.Nodup, List.pairwise_filterMap] at h
  have hsymm : Std.Symm fun x y => ∀ b, f x = some b → ∀ b', f y = some b' → b ≠ b' :=
    ⟨fun x y hxy b hb b' hb' => (hxy b' hb' b hb).symm⟩
  exact Classical.byContradiction fun hne => h.forall hx hy hne b hfx b hfy rfl

/-! ## What the course of transactions depends on -/

namespace View

/-- Two counters, and the base revisions of open transactions. -/
structure Standing where
  nextName : Option Bytes
  youngest : Option UInt64
  base : String → Option UInt64

/-- What a view says about it. -/
def standing (v : View) : Standing where
  nextName := v.global Counter.nextTransaction
  youngest := v.number Counter.youngest
  base name := (v.txn name).map Transaction.baseRevision

variable {v w : View}

/-- Of a transaction, its base is all that the ledger sees. -/
theorem standing_setTxn (v : View) (name : String) (txn : Option Transaction) :
    (v.setTxn name txn).standing =
      { v.standing with base := update v.standing.base name (txn.map Transaction.baseRevision) } := by
  have hbase : (v.setTxn name txn).standing.base = update v.standing.base name (txn.map Transaction.baseRevision) := by
    funext other
    by_cases hother : other = name
    · subst hother
      simp [standing]
    · simp [standing, hother]
  exact congrArg (Standing.mk _ _) hbase

/-- The ledger sees the next name. -/
theorem standing_setNextName (v : View) (value : Bytes) :
    (v.setGlobal Counter.nextTransaction value).standing = { v.standing with nextName := some value } := by
  simp [standing, number, Counter.youngest, Counter.nextTransaction]

/-- The ledger sees the youngest revision. -/
theorem standing_setYoungest (v : View) (n : UInt64) :
    (v.setNumber Counter.youngest n).standing = { v.standing with youngest := some n } := by
  simp [standing, number_setNumber, Counter.youngest, Counter.nextTransaction]

/-- The clients in their trails do not change it. -/
theorem Edited.standing_eq {edit : Edit} (h : v.Edited edit w) (hclient : edit.ByClient) : w.standing = v.standing := by
  cases h with
  | begin _ _ _ => exact hclient.elim
  | close _ => exact hclient.elim
  | commit _ _ _ => exact hclient.elim
  | @cloneRoot name txn base id htxn _ _ _ _ =>
    -- the transaction gets another root, and keeps its base
    have hbase : v.standing.base name = some txn.baseRevision := congrArg (Option.map Transaction.baseRevision) htxn
    rw [standing_setTxn]
    exact congrArg (Standing.mk _ _) ((congrArg (update _ name) hbase.symm).trans (update_eq_self name _))
  | _ => simp [standing, number, Counter.nextNode, Counter.youngest, Counter.nextTransaction, Counter.nextRepresentation]

/-- Nothing that clients do in their trails is seen by the ledger. -/
theorem ClientSteps.standing_eq (h : v.ClientSteps w) : w.standing = v.standing := by
  induction h with
  | refl => rfl
  | tail _ hstep ih =>
    rcases hstep with rfl | ⟨edit, hclient, hedit⟩
    · exact ih
    · exact (hedit.standing_eq hclient).trans ih

end View

namespace Filesystem

/-! ## Logs -/

/-- What happens to a filesystem, with what its client is told. -/
inductive Event where
  | begin (base : UInt64) (result : Except Error String)
  | commit (txn : String) (result : Except Error UInt64)
  | abort (txn : String) (result : Except Error Unit)
  | trail
  | reopen

namespace Event

/-- The name of a transaction that was begun. -/
def name? : Event → Option String
  | begin _ (.ok name) => some name
  | _ => none

/-- The number of a revision that was committed. -/
def number? : Event → Option UInt64
  | commit _ (.ok number) => some number
  | _ => none

/-- True if no transaction has begun or ended. -/
def Quiet : Event → Prop
  | begin _ (.ok _) | commit _ (.ok _) | abort _ (.ok _) => False
  | _ => True

end Event

/-- A log, oldest event first, has to do with what the records say. -/
structure Ledger (log : List Event) (s : View.Standing) : Prop where
  /-- Names were given out in the order of keys, up to the one that comes next. -/
  names : ∃ n, Counter.currentKey s.nextName = .ok (Base36.keyAt n) ∧
    log.filterMap Event.name? = (List.range n).map Base36.keyAt
  /-- Revisions were committed in the order of their numbers, up to the youngest one. -/
  numbers : ∃ youngest, s.youngest = some youngest ∧
    (log.filterMap Event.number?).map UInt64.toNat = List.range' 1 youngest.toNat
  /-- A transaction that was begun is open on its base, or it was aborted or committed. -/
  begun : ∀ {base name}, .begin base (.ok name) ∈ log → s.base name = some base ∨
    s.base name = none ∧ (.abort name (.ok ()) ∈ log ∨ ∃ number, .commit name (.ok number) ∈ log)
  /-- Every open transaction was begun on its base. -/
  opened : ∀ {base name}, s.base name = some base → .begin base (.ok name) ∈ log
  /-- Every revision that was committed follows the base of its transaction. -/
  committed : ∀ {name number}, .commit name (.ok number) ∈ log →
    ∃ base, .begin base (.ok name) ∈ log ∧ number.toNat = base.toNat + 1

namespace Ledger

variable {log : List Event} {event : Event} {s : View.Standing} {base base' number youngest : UInt64}
  {name name' next : String}

/-- The ledger is empty where nothing was begun or committed. -/
theorem fresh {s : View.Standing} (hname : s.nextName = none) (hyoungest : s.youngest = some 0)
    (hbase : ∀ name, s.base name = none) : Ledger [] s where
  names := ⟨0, by rw [hname]; rfl, rfl⟩
  numbers := ⟨0, hyoungest, rfl⟩
  begun := nofun
  opened h := nomatch (hbase _).symm.trans h
  committed := nofun

/-- No name is given to two transactions. -/
theorem nodup_names (h : Ledger log s) : (log.filterMap Event.name?).Nodup := by
  obtain ⟨n, -, hnames⟩ := h.names
  rw [hnames]
  exact List.nodup_range.map fun _ _ => Base36.keyAt_injective

/-- No number is given to two revisions. -/
theorem nodup_numbers (h : Ledger log s) : (log.filterMap Event.number?).Nodup := by
  obtain ⟨youngest, -, hnumbers⟩ := h.numbers
  refine List.Nodup.of_map UInt64.toNat ?_
  rw [hnumbers]
  exact List.nodup_range' 1

/-- A name was given to a transaction on one base. -/
theorem base_unique (h : Ledger log s) (hbegun : .begin base (.ok name) ∈ log) (hbegun' : .begin base' (.ok name) ∈ log) :
    base = base' := by
  have heq := eq_of_nodup_filterMap h.nodup_names hbegun hbegun' rfl rfl
  exact (Event.begin.inj heq).1

/-- A number was given to one transaction. -/
theorem committer_unique (h : Ledger log s) (hcommit : .commit name (.ok number) ∈ log)
    (hcommit' : .commit name' (.ok number) ∈ log) : name = name' := by
  have heq := eq_of_nodup_filterMap h.nodup_numbers hcommit hcommit' rfl rfl
  exact (Event.commit.inj heq).1

/-- A commit makes the revision after the one that its transaction began at. -/
theorem committed_of_begun (h : Ledger log s) (hbegun : .begin base (.ok name) ∈ log)
    (hcommit : .commit name (.ok number) ∈ log) : number.toNat = base.toNat + 1 := by
  obtain ⟨base', hbegun', hnumber⟩ := h.committed hcommit
  rw [h.base_unique hbegun hbegun', hnumber]

/-- Of all transactions that were begun on one base only one was committed. -/
theorem one_committed (h : Ledger log s) (hbegun : .begin base (.ok name) ∈ log) (hbegun' : .begin base (.ok name') ∈ log)
    {number number' : UInt64} (hcommit : .commit name (.ok number) ∈ log)
    (hcommit' : .commit name' (.ok number') ∈ log) : name = name' := by
  have hsame : number = number' := by
    rw [← UInt64.toNat_inj, h.committed_of_begun hbegun hcommit, h.committed_of_begun hbegun' hcommit']
  exact h.committer_unique hcommit (hsame ▸ hcommit')

/-- No commit has a number above the youngest. -/
theorem le_youngest (h : Ledger log s) (hyoungest : s.youngest = some youngest) (hcommit : .commit name (.ok number) ∈ log) :
    number.toNat ≤ youngest.toNat := by
  obtain ⟨youngest', hyoungest', hnumbers⟩ := h.numbers
  cases hyoungest.symm.trans hyoungest'
  have hmem : number.toNat ∈ (log.filterMap Event.number?).map UInt64.toNat :=
    List.mem_map_of_mem (List.mem_filterMap.2 ⟨_, hcommit, rfl⟩)
  rw [hnumbers, List.mem_range'_1] at hmem
  omega

/-! ### One more event -/

/-- An event that names no transaction leaves the names as they are. -/
theorem names_of_none (h : Ledger log s) (hname : event.name? = none) :
    ∃ n, Counter.currentKey s.nextName = .ok (Base36.keyAt n) ∧
      (log ++ [event]).filterMap Event.name? = (List.range n).map Base36.keyAt := by
  obtain ⟨n, hcounter, hnames⟩ := h.names
  exact ⟨n, hcounter, by simp [hname, hnames]⟩

/-- An event that makes no revision leaves the numbers as they are. -/
theorem numbers_of_none (h : Ledger log s) (hnumber : event.number? = none) :
    ∃ youngest, s.youngest = some youngest ∧
      ((log ++ [event]).filterMap Event.number?).map UInt64.toNat = List.range' 1 youngest.toNat := by
  obtain ⟨youngest, hyoungest, hnumbers⟩ := h.numbers
  exact ⟨youngest, hyoungest, by simp [hnumber, hnumbers]⟩

/-- What was begun is still open or has ended after any event that opens and closes nothing. -/
theorem begun_append (h : Ledger log s) (hbegun : .begin base (.ok name) ∈ log) : s.base name = some base ∨
    s.base name = none ∧ (.abort name (.ok ()) ∈ log ++ [event] ∨ ∃ number, .commit name (.ok number) ∈ log ++ [event]) := by
  rcases h.begun hbegun with hopen | ⟨hclosed, habort | ⟨number, hcommit⟩⟩
  · exact .inl hopen
  · exact .inr ⟨hclosed, .inl (List.mem_append_left _ habort)⟩
  · exact .inr ⟨hclosed, .inr ⟨number, List.mem_append_left _ hcommit⟩⟩

/-- What was committed still follows its base after any event that makes no revision. -/
theorem committed_of_none (h : Ledger log s) (hnumber : event.number? = none)
    (hcommit : .commit name (.ok number) ∈ log ++ [event]) :
    ∃ base, .begin base (.ok name) ∈ log ++ [event] ∧ number.toNat = base.toNat + 1 := by
  rcases List.mem_append.1 hcommit with hold | hlast
  · obtain ⟨base, hbegun, hsucc⟩ := h.committed hold
    exact ⟨base, List.mem_append_left _ hbegun, hsucc⟩
  · cases List.mem_singleton.1 hlast
    cases hnumber

/-- An event at which no transaction begins or ends. -/
theorem quiet (h : Ledger log s) (hquiet : event.Quiet) : Ledger (log ++ [event]) s := by
  have hname : event.name? = none := by
    rcases event with ⟨_, _ | _⟩ | ⟨_, _ | _⟩ | ⟨_, _ | _⟩ | _ | _ <;> first | rfl | exact hquiet.elim
  have hnumber : event.number? = none := by
    rcases event with ⟨_, _ | _⟩ | ⟨_, _ | _⟩ | ⟨_, _ | _⟩ | _ | _ <;> first | rfl | exact hquiet.elim
  constructor
  case names => exact h.names_of_none hname
  case numbers => exact h.numbers_of_none hnumber
  case begun =>
    intro base name hbegun
    rcases List.mem_append.1 hbegun with hold | hlast
    · exact h.begun_append hold
    · cases List.mem_singleton.1 hlast
      exact hquiet.elim
  case opened => exact fun hopen => List.mem_append_left _ (h.opened hopen)
  case committed => exact h.committed_of_none hnumber

/-- A transaction begins, under the next name. -/
theorem begin (h : Ledger log s) (hname : Counter.currentKey s.nextName = .ok name)
    (hnext : Base36.next? name = some next) :
    Ledger (log ++ [.begin base (.ok name)])
      { s with nextName := some (Text.toBytes next), base := update s.base name (some base) } := by
  obtain ⟨n, hcounter, hnames⟩ := h.names
  cases hname.symm.trans hcounter
  cases hnext.symm.trans (Base36.next?_keyAt n)
  -- the name was not given out before
  have hfresh : ∀ {base' name'}, Event.begin base' (.ok name') ∈ log → name' ≠ Base36.keyAt n := by
    rintro base' name' hbegun rfl
    have hmem : Base36.keyAt n ∈ log.filterMap Event.name? := List.mem_filterMap.2 ⟨_, hbegun, rfl⟩
    rw [hnames] at hmem
    obtain ⟨k, hk, hsame⟩ := List.mem_map.1 hmem
    exact absurd (Base36.keyAt_injective hsame) (Nat.ne_of_lt (List.mem_range.1 hk))
  constructor
  case names =>
    refine ⟨n + 1, by simp [Counter.currentKey], ?_⟩
    rw [List.filterMap_append, hnames, List.range_succ, List.map_append]
    rfl
  case numbers => exact h.numbers_of_none rfl
  case begun =>
    intro base' name' hbegun
    dsimp only
    rcases List.mem_append.1 hbegun with hold | hlast
    · rw [update_of_ne (hfresh hold)]
      exact h.begun_append hold
    · cases List.mem_singleton.1 hlast
      exact .inl (update_self _ _ _)
  case opened =>
    intro base' name' hopen
    dsimp only at hopen
    by_cases hself : name' = Base36.keyAt n
    · subst hself
      rw [update_self] at hopen
      cases hopen
      exact List.mem_append_right _ List.mem_cons_self
    · rw [update_of_ne hself] at hopen
      exact List.mem_append_left _ (h.opened hopen)
  case committed => exact h.committed_of_none rfl

/-- The end of a transaction leaves the others as they are. -/
theorem begun_close (h : Ledger log s)
    (hend : event = .abort name (.ok ()) ∨ ∃ number, event = .commit name (.ok number))
    (hbegun : .begin base' (.ok name') ∈ log ++ [event]) : update s.base name none name' = some base' ∨
      update s.base name none name' = none ∧ (.abort name' (.ok ()) ∈ log ++ [event] ∨
        ∃ number, .commit name' (.ok number) ∈ log ++ [event]) := by
  have hold : Event.begin base' (.ok name') ∈ log := by
    refine (List.mem_append.1 hbegun).resolve_right fun hlast => ?_
    rcases hend with rfl | ⟨number, rfl⟩ <;> exact nomatch List.mem_singleton.1 hlast
  by_cases hself : name' = name
  · subst hself
    refine .inr ⟨update_self _ _ _, hend.imp ?_ ?_⟩
    · rintro rfl
      exact List.mem_append_right _ List.mem_cons_self
    · rintro ⟨number, rfl⟩
      exact ⟨number, List.mem_append_right _ List.mem_cons_self⟩
  · rw [update_of_ne hself]
    exact h.begun_append hold

/-- What is open after a transaction was closed was begun before. -/
theorem opened_close (h : Ledger log s) (hopen : update s.base name none name' = some base') :
    .begin base' (.ok name') ∈ log ++ [event] := by
  by_cases hself : name' = name
  · subst hself
    rw [update_self] at hopen
    exact nomatch hopen
  · rw [update_of_ne hself] at hopen
    exact List.mem_append_left _ (h.opened hopen)

/-- A transaction is thrown away. -/
theorem abort (h : Ledger log s) :
    Ledger (log ++ [.abort name (.ok ())]) { s with base := update s.base name none } where
  names := h.names_of_none rfl
  numbers := h.numbers_of_none rfl
  begun := h.begun_close (.inl rfl)
  opened := h.opened_close
  committed := h.committed_of_none rfl

/-- A transaction that is based on the youngest revision becomes the next one. -/
theorem commit (h : Ledger log s) (hopen : s.base name = some base) (hyoungest : s.youngest = some base)
    (hleft : base.toNat + 1 < UInt64.size) :
    Ledger (log ++ [.commit name (.ok (base + 1))])
      { s with youngest := some (base + 1), base := update s.base name none } where
  names := h.names_of_none rfl
  numbers := by
    obtain ⟨youngest, hyoungest', hnumbers⟩ := h.numbers
    cases hyoungest.symm.trans hyoungest'
    refine ⟨base + 1, rfl, ?_⟩
    rw [List.filterMap_append, List.map_append, hnumbers, Counter.toNat_succ hleft, List.range'_1_concat,
      Nat.add_comm 1, ← Counter.toNat_succ hleft]
    rfl
  begun := h.begun_close (.inr ⟨base + 1, rfl⟩)
  opened := h.opened_close
  committed := by
    intro name' number hcommit
    rcases List.mem_append.1 hcommit with hold | hlast
    · obtain ⟨base', hbegun, hnumber⟩ := h.committed hold
      exact ⟨base', List.mem_append_left _ hbegun, hnumber⟩
    · cases List.mem_singleton.1 hlast
      exact ⟨base, List.mem_append_left _ (h.opened hopen), Counter.toNat_succ hleft⟩

end Ledger

/-! ## Runs -/

variable {σ α : Type} [RecordStore σ] [LawfulStore σ]

/-- An event leads from one filesystem to the next. -/
inductive Happens (fs : Filesystem σ) : Event → Filesystem σ → Prop where
  | begin (base : UInt64) : Happens fs (.begin base (fs.begin base).1) (fs.begin base).2
  | commit (txn date : String) : Happens fs (.commit txn (fs.commit txn date).1) (fs.commit txn date).2
  | abort (txn : String) : Happens fs (.abort txn (fs.abort txn).1) (fs.abort txn).2
  | trail (body : Client.Body) (handles : Client.Handles) :
      Happens fs .trail (runClient (body.run fs.config) handles fs).2
  | reopen {config : Config} {new : Metadata} {date : String} {store : σ} {fs' : Filesystem σ}
      (hvalid : LawfulStore.Valid store) (hrecords : LawfulStore.records store = fs.records)
      (hopen : (openOver config new date store).1 = .ok fs') : Happens fs .reopen fs'

/-- A filesystem, with the log of all that has happened since it was made on an empty store. -/
inductive Run : List Event → Filesystem σ → Prop where
  | fresh {config : Config} {new : Metadata} {date : String} {store : σ} {fs : Filesystem σ}
      (hvalid : LawfulStore.Valid store) (hempty : LawfulStore.records store = .empty)
      (hopen : (openOver config new date store).1 = .ok fs) : Run [] fs
  | next {log : List Event} {fs fs' : Filesystem σ} {event : Event} (h : Run log fs) (hevent : fs.Happens event fs') :
      Run (log ++ [event]) fs'

variable {log : List Event} {event : Event} {fs fs' : Filesystem σ}

/-- Every event is a step of the filesystem. -/
theorem Happens.step (h : fs.Happens event fs') : fs.Step fs' := by
  cases h with
  | begin base => exact .begin base
  | commit txn date => exact .commit txn date
  | abort txn => exact .abort txn
  | trail body handles => exact .trail body handles
  | reopen hvalid hrecords hopen => exact .reopen hvalid hrecords hopen

/-- Every run comes to a filesystem that can be reached. -/
theorem Run.reachable (h : Run log fs) : Reachable fs := by
  induction h with
  | fresh hvalid hempty hopen => exact .fresh hvalid hempty hopen
  | next _ hevent ih => exact ih.step hevent.step

/-- An operation that makes one edit or fails: the log goes on with what it says. -/
theorem Ledger.run (hledger : Ledger log fs.view.standing) (h : fs.Healthy) {m : TrailM σ α} {edit : α → Edit}
    {E : Error → View → Prop} (hm : m.Ends fs.view (fun a w => fs.view.Edited (edit a) w) E)
    {event : Except Error α → Event} (hok : ∀ a w, fs.view.Edited (edit a) w → Ledger (log ++ [event (.ok a)]) w.standing)
    (herror : ∀ e, (event (.error e)).Quiet) :
    Ledger (log ++ [event (Filesystem.run m fs).1]) (Filesystem.run m fs).2.view.standing := by
  obtain ⟨fs', -, -, ⟨a, heq, hedited⟩ | ⟨e, heq, hsame, -⟩⟩ := h.run_cases hm fun _ _ hedited => hedited.follows.evolves
  · rw [heq]
    exact hok a fs'.view hedited
  · have hview : fs'.view = fs.view := congrArg Records.view hsame
    rw [heq, hview]
    exact hledger.quiet (herror e)

/-- **EVERY EVENT** is one more line of the ledger. -/
theorem Happens.ledger (hevent : fs.Happens event fs') (h : fs.Healthy) (hledger : Ledger log fs.view.standing) :
    Ledger (log ++ [event]) fs'.view.standing := by
  cases hevent with
  | begin base =>
    refine hledger.run h (TrailM.Ends.begin base) ?_ fun _ => trivial
    intro name w hedited
    cases hedited with
    | begin _ hname hnext =>
      rw [View.standing_setTxn, View.standing_setNextName]
      exact hledger.begin hname hnext
  | commit name date =>
    refine hledger.run h (TrailM.Ends.commit name date) ?_ fun _ => trivial
    intro number w hedited
    cases hedited with
    | commit htxn hyoungest hleft =>
      rw [View.standing_setTxn, View.standing_setYoungest]
      exact hledger.commit (congrArg (Option.map Transaction.baseRevision) htxn) hyoungest hleft
  | abort name =>
    refine hledger.run h (TrailM.Ends.close name) ?_ fun _ => trivial
    intro _ w hedited
    cases hedited with
    | close _ =>
      rw [View.standing_setTxn]
      exact hledger.abort
  | trail body handles =>
    -- a trail that is completed only edits trees, and one that is not leaves everything as it was
    obtain ⟨fs', held', -, -, ⟨a, heq, hsteps⟩ | ⟨e, heq, hsame, -⟩⟩ :=
      h.runClient_cases (ClientM.Ends.bodySteps fs.config h.consistent body handles) fun _ _ _ hw => hw.evolves
    · rw [heq, hsteps.standing_eq]
      exact hledger.quiet trivial
    · rw [heq, hsame]
      exact hledger.quiet trivial
  | reopen hvalid hrecords hopen =>
    rw [(h.of_open hvalid hrecords hopen).2]
    exact hledger.quiet trivial

/-- The ledger of a run is kept in step with the filesystem, by induction on its events. -/
theorem Run.ledger (h : Run log fs) : Ledger log fs.view.standing := by
  induction h with
  | @fresh config new date store fs hvalid hempty hopen =>
    rw [(openOver_empty hvalid hempty hopen).2]
    exact .fresh rfl (View.number_fresh new date) fun _ => rfl
  | next hrun hevent ih => exact hevent.ledger hrun.reachable.healthy ih

/-! ## Commits -/

/-- Every attempt to commit the transaction fails with this error, unless the store fails. -/
def CommitFails (fs : Filesystem σ) (name : String) (e : Error) : Prop :=
  ∀ date, (fs.commit name date).1 = .error e ∨ ∃ fault, (fs.commit name date).1 = .error fault ∧ fault.IsFault σ

/-- A commit gives the transaction the number after its base, which was the youngest revision. -/
theorem Healthy.of_commit (h : fs.Healthy) {name date : String} {number : UInt64}
    (hrun : fs.commit name date = (.ok number, fs')) :
    ∃ txn, fs.view.txn name = some txn ∧ fs.view.number Counter.youngest = some txn.baseRevision ∧
      number.toNat = txn.baseRevision.toNat + 1 ∧
      (∃ revision, fs'.view.revision number = some revision ∧ revision.root = txn.root) ∧
      fs'.view.txn name = none ∧ fs'.view.number Counter.youngest = some number := by
  have hedited := h.of_run (TrailM.Ends.commit name date) (fun _ _ hedited => hedited.follows.evolves) hrun
  generalize fs'.view = w at hedited ⊢
  cases hedited with
  | @commit _ _ txn htxn hyoungest hleft =>
    let revision : Revision := ⟨txn.root, Revision.propsAt date⟩
    refine ⟨txn, htxn, hyoungest, Counter.toNat_succ hleft, ⟨revision, ?_, rfl⟩, ?_, ?_⟩
    · simp [revision]
    · simp
    · exact View.number_setNumber ((fs.view.freeze txn.root).setRevision (txn.baseRevision + 1) revision)
        Counter.youngest (txn.baseRevision + 1)

/-- A commit that fails changes no record. -/
theorem Healthy.of_commit_error (h : fs.Healthy) {name date : String} {e : Error}
    (hrun : fs.commit name date = (.error e, fs')) : fs'.records = fs.records := by
  obtain ⟨fs'', -, -, ⟨number, heq, -⟩ | ⟨e', heq, hsame, -⟩⟩ :=
    h.run_cases (TrailM.Ends.commit name date) fun _ _ hedited => hedited.follows.evolves
  · exact nomatch hrun.symm.trans heq
  · cases hrun.symm.trans heq
    exact hsame

/-- A transaction that is not based on the youngest revision is out of date. -/
theorem Healthy.commitFails (h : fs.Healthy) {name : String} {txn : Transaction} {youngest : UInt64}
    (htxn : fs.view.txn name = some txn) (hyoungest : fs.view.number Counter.youngest = some youngest)
    (hne : txn.baseRevision ≠ youngest) :
    fs.CommitFails name (.outOfDate name txn.baseRevision.toNat youngest.toNat) := by
  intro date
  have hgives : (Transaction.commit name date : TrailM σ UInt64).Gives fs.view
      (.error (.outOfDate name txn.baseRevision.toNat youngest.toNat)) := by
    refine .bind_ok (.txn htxn) (.bind_ok (.youngest hyoungest) ?_)
    rw [if_pos hne]
    exact .bind_error (.throw _)
  exact hgives.run h.shows

/-- Once a transaction is committed, every other one that was begun on the same revision is out of date, until it is
    aborted. -/
theorem Ledger.rival (hledger : Ledger log fs.view.standing) (h : fs.Healthy) {base youngest number : UInt64}
    {name name' : String} (hyoungest : fs.view.number Counter.youngest = some youngest)
    (hbegun : .begin base (.ok name) ∈ log) (hbegun' : .begin base (.ok name') ∈ log)
    (hcommit : .commit name (.ok number) ∈ log) (hne : name' ≠ name) :
    .abort name' (.ok ()) ∈ log ∨ fs.CommitFails name' (.outOfDate name' base.toNat youngest.toNat) := by
  have hold : base ≠ youngest := by
    rintro rfl
    have hle := hledger.le_youngest hyoungest hcommit
    have hsucc := hledger.committed_of_begun hbegun hcommit
    omega
  rcases hledger.begun hbegun' with hopen | ⟨-, habort | ⟨number', hcommit'⟩⟩
  · obtain ⟨txn, htxn, rfl⟩ := Option.map_eq_some_iff.1 hopen
    exact .inr (h.commitFails htxn hyoungest hold)
  · exact .inl habort
  · exact absurd (hledger.one_committed hbegun' hbegun hcommit' hcommit) hne

/-- **COMMITS ARE SERIALIZED.** After any run the table of revisions holds the records from 0 to the youngest one, and the
    commits that succeeded gave the numbers from 1 to the youngest one, in this order. A commit succeeds only on an open
    transaction that is based on the youngest revision, and makes its root the root of the next one; any other open
    transaction is out of date. A commit that fails changes no record. No name is given twice. Of the transactions that
    were begun on one revision at most one is committed, and then the others are out of date until they are aborted. -/
theorem Run.commits_serialized (h : Run log fs) : ∃ youngest, fs.view.number Counter.youngest = some youngest ∧
    (∀ key : Key, key.table = .revisions →
      (fs.records.find? key ≠ none ↔ ∃ number ≤ youngest, key = Revision.key number)) ∧
    (log.filterMap Event.number?).map UInt64.toNat = List.range' 1 youngest.toNat ∧
    (∀ name txn, fs.view.txn name = some txn →
      ∃ revision, fs.view.revision txn.baseRevision = some revision ∧ revision.root = txn.baseRoot) ∧
    (∀ name date number fs', fs.commit name date = (.ok number, fs') →
      ∃ txn, fs.view.txn name = some txn ∧ txn.baseRevision = youngest ∧ number.toNat = youngest.toNat + 1 ∧
        (∃ revision, fs'.view.revision number = some revision ∧ revision.root = txn.root) ∧
        fs'.view.txn name = none ∧ fs'.view.number Counter.youngest = some number) ∧
    (∀ name date e fs', fs.commit name date = (.error e, fs') → fs'.records = fs.records) ∧
    (∀ name txn, fs.view.txn name = some txn → txn.baseRevision ≠ youngest →
      fs.CommitFails name (.outOfDate name txn.baseRevision.toNat youngest.toNat)) ∧
    (log.filterMap Event.name?).Nodup ∧
    ∀ base name name' number, .begin base (.ok name) ∈ log → .begin base (.ok name') ∈ log →
      .commit name (.ok number) ∈ log → name' ≠ name →
      (∀ number', .commit name' (.ok number') ∉ log) ∧
      (.abort name' (.ok ()) ∈ log ∨ fs.CommitFails name' (.outOfDate name' base.toNat youngest.toNat)) := by
  have hhealthy := h.reachable.healthy
  have hledger := h.ledger
  obtain ⟨youngest, hyoungest, hall⟩ := hhealthy.consistent.youngest
  refine ⟨youngest, hyoungest, ?_, ?_, ?_, ?_, ?_, ?_, hledger.nodup_names, ?_⟩
  · intro key htable
    rw [Records.find?_revision_ne_none hhealthy.sound htable]
    refine exists_congr fun number => ?_
    rw [and_comm]
    exact and_congr_left' (hall number)
  · -- the ledger has one number for each commit, up to the youngest
    obtain ⟨youngest', hyoungest', hnumbers⟩ := hledger.numbers
    cases hyoungest.symm.trans hyoungest'
    exact hnumbers
  · exact fun name txn htxn => hhealthy.consistent.txnBase htxn
  · intro name date number fs' hrun
    obtain ⟨txn, htxn, hbase, hcommitted⟩ := hhealthy.of_commit hrun
    cases hyoungest.symm.trans hbase
    exact ⟨txn, htxn, rfl, hcommitted⟩
  · exact fun name date e fs' hrun => hhealthy.of_commit_error hrun
  · exact fun name txn htxn hne => hhealthy.commitFails htxn hyoungest hne
  · intro base name name' number hbegun hbegun' hcommit hne
    refine ⟨fun number' hcommit' => ?_, hledger.rival hhealthy hyoungest hbegun hbegun' hcommit hne⟩
    exact hne (hledger.one_committed hbegun' hbegun hcommit' hcommit)

namespace Sample

/-- The first transaction is committed. -/
def won : Filesystem Records :=
  (rivals.commit "0" "").2

/-- Of two transactions on the first revision, the one that commits first makes the second. -/
theorem run_won : Run [.begin 0 (.ok "0"), .begin 0 (.ok "1"), .commit "0" (.ok 1)] won := by
  have hopen : (openOver Config.default ⟨"0", 0⟩ "" (.empty : Records)).1 = .ok new := by rfl
  have hfirst : (new.begin 0).1 = .ok "0" := by decide +kernel
  have hsecond : (begun.begin 0).1 = .ok "1" := by decide +kernel
  have hcommit : (rivals.commit "0" "").1 = .ok 1 := by decide +kernel
  rw [← hfirst, ← hsecond, ← hcommit]
  exact (((Run.fresh trivial rfl hopen).next (.begin 0)).next (.begin 0)).next (.commit "0" "")

/-- The second transaction cannot be committed any more. -/
theorem rival_out_of_date : (won.commit "1" "").1 = .error (.outOfDate "1" 0 1) := by
  have hyoungest : won.view.number Counter.youngest = some 1 := by decide +kernel
  obtain ⟨youngest, hyoungest', -, -, -, -, -, -, -, honce⟩ := run_won.commits_serialized
  cases hyoungest.symm.trans hyoungest'
  obtain ⟨-, habort | hfails⟩ := honce 0 "0" "1" 1 (by simp) (by simp) (by simp) (by decide)
  · simp at habort
  · exact (hfails "").resolve_right fun ⟨fault, _, hfault⟩ => Records.not_isFault fault hfault

end Sample

end Filesystem

end VersionedTree

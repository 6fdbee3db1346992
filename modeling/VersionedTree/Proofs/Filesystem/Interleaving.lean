import VersionedTree.Proofs.Filesystem.Handouts
import VersionedTree.Proofs.Filesystem.History
import VersionedTree.Proofs.Filesystem.Turns

/-!
# Interleavings — clients do not see each other's turns

Clients take turns on a filesystem, each on a transaction of its own. The ids and keys that a client gets depend on the
order of all turns, and so does what is left of the numbers. Nothing else does: as long as nothing runs out, a client is
told the same in every order in which its own turns come one after the other as before, and its tree is the same in the end.

* **`Session.play`** — some turns, one after the other.
* **`Session.Reached`** — what clients hold: what they got in turns of their own. **`Reached.steady`** — all of it names
  nothing but what their transactions see.
* **`SameFor`** — two orders of turns that are the same for one client.
* **`SameFor.alongside`** — the client cannot tell them apart.
* **`Reached.interleaving`** — the theorem.
-/

namespace VersionedTree

namespace View

variable {v w : View} {name : String} {id : NodeId} {n : Node}

/-! ## As long as a transaction is open -/

/-- What a transaction sees it sees as long as it is open. -/
theorem Sees.evolves (h : v.Sees name id) (hv : v.Consistent) (hopen : v.txn name ≠ none) (hw : v.Evolves w)
    (hstill : w.txn name ≠ none) : w.Sees name id := by
  induction hw with
  | refl => exact h
  | tail hevolves hedit ih =>
    obtain ⟨edit, hedit⟩ := hedit
    have hu := hv.evolves hevolves
    -- it was open all the time, since no name is used twice
    have hbefore := fun hclosed => hstill (hedit.txn_eq_none hu ((hv.used_txn hopen).evolves hv hevolves) hclosed)
    refine (ih hbefore).edited hu (hv.isTxnName hopen) hedit ?_
    rintro date number rfl
    cases hedit with
    | commit _ _ _ => exact hstill (by simp)

/-- What a client knows it still knows after edits, as long as its transaction is open. -/
theorem Knows.evolves (h : v.Knows name n) (hv : v.Consistent) (hopen : v.txn name ≠ none) (hw : v.Evolves w)
    (hstill : w.txn name ≠ none) : w.Knows name n :=
  Renaming.NodeTwin.mono h (seen_le (fun _ hsees => hsees.evolves hv hopen hw hstill) (hv.keeps_of_evolves hw).rep)

/-- What a client knows it knows beside its transaction. -/
theorem Knows.beside (h : v.Knows name n) (hw : v.Beside name w) : w.Knows name n :=
  Renaming.NodeTwin.mono h (seen_le (fun _ => hw.sees) hw.rep)

end View

variable {σ : Type} [RecordStore σ]

namespace Session

/-- Some turns, one after the other. -/
def play (s : Session σ) : List Turn → List Outcome × Session σ
  | [] => ([], s)
  | t :: turns => ((s.turn t).1 :: ((s.turn t).2.play turns).1, ((s.turn t).2.play turns).2)

variable [LawfulStore σ]

/-- True of sessions where clients hold what they got in turns of their own. Others may do to the filesystem whatever they
    like. With its transaction a client loses all it holds. -/
inductive Reached : Session σ → Prop where
  | start {fs : Filesystem σ} (h : fs.Reachable) : Reached ⟨fs, fun _ => .empty⟩
  | turn {s : Session σ} {t : Turn} (h : Reached s) (hopen : s.fs.view.txn t.name ≠ none)
      (hprivate : t.body.IsPrivate t.name) (hlimit : ¬ (s.turn t).1.MeetsLimit) : Reached (s.turn t).2
  | step {s : Session σ} {fs : Filesystem σ} (h : Reached s) (hstep : s.fs.Step fs) :
      Reached ⟨fs, fun name => if (s.fs.view.txn name).isSome then s.held name else .empty⟩

/-- True of sessions where clients hold nothing but what their transactions see. -/
structure Steady (s : Session σ) : Prop where
  reachable : s.fs.Reachable
  knows : ∀ {name}, s.fs.view.txn name ≠ none → ∀ {handle n}, (s.held name).find? handle = some n → s.fs.view.Knows name n

/-- True of turns that can be taken: each is private to a transaction that is open, and nothing runs out. -/
structure CanPlay (s : Session σ) (turns : List Turn) : Prop where
  isPrivate : ∀ t ∈ turns, t.body.IsPrivate t.name
  isOpen : ∀ t ∈ turns, s.fs.view.txn t.name ≠ none
  unlimited : ∀ o ∈ (s.play turns).1, ¬ o.MeetsLimit

variable {s s' : Session σ} {t : Turn} {turns turns' : List Turn} {name : String}

/-- A turn is a step of the filesystem. -/
theorem turn_fs (s : Session σ) (t : Turn) : s.fs.Step (s.turn t).2.fs :=
  .trail t.body (s.held t.name)

namespace Steady

/-- A session is alongside itself. -/
theorem alongside (h : s.Steady) (hopen : s.fs.view.txn name ≠ none) : s.Alongside name s :=
  .of_knows h.reachable.healthy.consistent hopen fun _ _ => h.knows hopen

/-- **A TURN IS TAKEN APART** from all other transactions, and everything stays steady. -/
theorem turn (h : s.Steady) (hopen : s.fs.view.txn t.name ≠ none) (hprivate : t.body.IsPrivate t.name)
    (hlimit : ¬ (s.turn t).1.MeetsLimit) :
    (s.turn t).2.Steady ∧ (s.turn t).2.fs.view.txn t.name ≠ none ∧ s.fs.view.Apart t.name (s.turn t).2.fs.view := by
  obtain ⟨-, halong, hapart, -⟩ :=
    turn_together h.reachable h.reachable hprivate (h.alongside hopen) hlimit hlimit
  have hreachable : (s.turn t).2.fs.Reachable := h.reachable.step (s.turn_fs t)
  refine ⟨⟨hreachable, fun {name} hname {handle n} hfind => ?_⟩, halong.txn_ne_none, hapart⟩
  by_cases heq : name = t.name
  · subst heq
    exact halong.knows hfind
  · have hbeside := hapart name (hreachable.healthy.consistent.isTxnName hname) heq
    rw [turn_held_of_ne s heq] at hfind
    exact (h.knows (hbeside.txn ▸ hname) hfind).beside hbeside

end Steady

/-- What is reached is steady, by induction on its turns. -/
theorem Reached.steady (h : s.Reached) : s.Steady := by
  induction h with
  | start h => exact ⟨h, fun _ _ _ hfind => nomatch hfind⟩
  | turn _ hopen hprivate hlimit ih => exact (ih.turn hopen hprivate hlimit).1
  | @step s fs _ hstep ih =>
    have hhealthy := ih.reachable.healthy
    refine ⟨ih.reachable.step hstep, fun {name} hname {handle n} hfind => ?_⟩
    dsimp only at hname hfind
    split at hfind
    case isTrue hsome =>
      have hopen : s.fs.view.txn name ≠ none := Option.isSome_iff_ne_none.1 hsome
      exact (ih.knows hopen hfind).evolves hhealthy.consistent hopen (hstep.evolves hhealthy).2 hname
    case isFalse => exact nomatch hfind

/-- After the first turn the others can be taken. -/
theorem CanPlay.tail (h : s.CanPlay (t :: turns)) (hs : s.Steady) :
    (s.turn t).2.Steady ∧ (s.turn t).2.CanPlay turns ∧ s.fs.view.Apart t.name (s.turn t).2.fs.view := by
  obtain ⟨hsteady, hopen, hapart⟩ := hs.turn (h.isOpen t List.mem_cons_self) (h.isPrivate t List.mem_cons_self)
    (h.unlimited _ List.mem_cons_self)
  refine ⟨hsteady, ⟨fun t' ht' => h.isPrivate t' (List.mem_cons_of_mem t ht'), fun t' ht' => ?_,
    fun o ho => h.unlimited o (List.mem_cons_of_mem _ ho)⟩, hapart⟩
  by_cases heq : t'.name = t.name
  · exact heq ▸ hopen
  · have hbefore := h.isOpen t' (List.mem_cons_of_mem t ht')
    rw [(hapart t'.name (hs.reachable.healthy.consistent.isTxnName hbefore) heq).txn]
    exact hbefore

/-- The turn of another client is not noticed. -/
theorem Alongside.turn (h : s.Alongside name s') (hs : s.Steady) (hne : t.name ≠ name)
    (hapart : s.fs.view.Apart t.name (s.turn t).2.fs.view) : (s.turn t).2.Alongside name s' := by
  have hname := hs.reachable.healthy.consistent.isTxnName h.txn_ne_none
  rw [Alongside, turn_held_of_ne s hne.symm]
  exact h.beside (hapart name hname hne.symm)

/-- A session stays steady while turns are played. -/
theorem CanPlay.steady (h : s.CanPlay turns) (hs : s.Steady) : (s.play turns).2.Steady := by
  induction turns generalizing s with
  | nil => exact hs
  | cons t turns ih =>
    obtain ⟨hsteady, hrest, -⟩ := h.tail hs
    exact ih hrest hsteady

end Session

/-! ## Two orders of turns -/

/-- Two orders of turns in which the turns on one transaction are the same, one after the other. -/
inductive SameFor (name : String) : List Turn → List Turn → Prop where
  | nil : SameFor name [] []
  | both {t : Turn} {turns turns' : List Turn} (hname : t.name = name) (h : SameFor name turns turns') :
      SameFor name (t :: turns) (t :: turns')
  | left {t : Turn} {turns turns' : List Turn} (hname : t.name ≠ name) (h : SameFor name turns turns') :
      SameFor name (t :: turns) turns'
  | right {t : Turn} {turns turns' : List Turn} (hname : t.name ≠ name) (h : SameFor name turns turns') :
      SameFor name turns (t :: turns')

namespace SameFor

variable {name : String} {turns turns' others : List Turn}

/-- The turns of others may come first. -/
theorem append_right (h : SameFor name turns turns') (hothers : ∀ t ∈ others, t.name ≠ name) :
    SameFor name turns (others ++ turns') := by
  induction others with
  | nil => exact h
  | cons t others ih =>
    exact .right (hothers t List.mem_cons_self) (ih fun t' ht' => hothers t' (List.mem_cons_of_mem t ht'))

/-- Turns are the same for a client if its own are. -/
theorem of_filter_eq (h : turns.filter (fun t => t.name = name) = turns'.filter fun t => t.name = name) :
    SameFor name turns turns' := by
  induction turns generalizing turns' with
  | nil =>
    have hothers : ∀ t ∈ turns', t.name ≠ name := by simpa using List.filter_eq_nil_iff.1 h.symm
    simpa using SameFor.nil.append_right hothers
  | cons t turns ih =>
    by_cases hname : t.name = name
    · rw [List.filter_cons_of_pos (by simpa using hname)] at h
      obtain ⟨others, rest, rfl, hothers, -, hrest⟩ := List.filter_eq_cons_iff.1 h.symm
      exact (SameFor.both hname (ih hrest.symm)).append_right (by simpa using hothers)
    · rw [List.filter_cons_of_neg (by simpa using hname)] at h
      exact .left hname (ih h)

open Session

variable [LawfulStore σ] {s s' : Session σ}

/-- The client of the transaction cannot tell the two orders apart: it is told the same, and it still cannot tell the
    sessions apart at the end. -/
theorem alongside (h : SameFor name turns turns') (hs : s.Steady) (hs' : s'.Steady) (halong : s.Alongside name s')
    (hturns : s.CanPlay turns) (hturns' : s'.CanPlay turns') :
    ((s.play turns).1.filter fun o => o.name = name).map Outcome.erase =
        ((s'.play turns').1.filter fun o => o.name = name).map Outcome.erase ∧
      (s.play turns).2.Alongside name (s'.play turns').2 := by
  -- the turns of the client are made on both sides at once, those of all others on either side alone
  induction h generalizing s s' with
  | nil => exact ⟨rfl, halong⟩
  | @both t turns turns' hname _ ih =>
    subst hname
    obtain ⟨hsteady, hrest, -⟩ := hturns.tail hs
    obtain ⟨hsteady', hrest', -⟩ := hturns'.tail hs'
    obtain ⟨houtcome, hafter, -, -⟩ := turn_together hs.reachable hs'.reachable
      (hturns.isPrivate t List.mem_cons_self) halong (hturns.unlimited _ List.mem_cons_self)
      (hturns'.unlimited _ List.mem_cons_self)
    obtain ⟨houtcomes, hend⟩ := ih hsteady hsteady' hafter hrest hrest'
    refine ⟨?_, hend⟩
    have hname : ∀ s : Session σ, (s.turn t).1.name = t.name := fun _ => rfl
    rw [play, play, List.filter_cons_of_pos (by simp [hname]), List.filter_cons_of_pos (by simp [hname]), List.map_cons,
      List.map_cons, houtcome, houtcomes]
  | @left t turns turns' hname _ ih =>
    obtain ⟨hsteady, hrest, hapart⟩ := hturns.tail hs
    obtain ⟨houtcomes, hend⟩ := ih hsteady hs' (halong.turn hs hname hapart) hrest hturns'
    refine ⟨?_, hend⟩
    have hother : (s.turn t).1.name ≠ name := hname
    rw [play, List.filter_cons_of_neg (by simpa using hother), houtcomes]
  | @right t turns turns' hname _ ih =>
    obtain ⟨hsteady, hrest, hapart⟩ := hturns'.tail hs'
    obtain ⟨houtcomes, hend⟩ := ih hs hsteady (Alongside.turn halong.flip hs' hname hapart).flip hturns hrest
    refine ⟨?_, hend⟩
    have hother : (s'.turn t).1.name ≠ name := hname
    rw [houtcomes]
    conv_rhs => rw [play, List.filter_cons_of_neg (by simpa using hother)]

end SameFor

namespace Session

variable [LawfulStore σ] {s : Session σ} {turns turns' : List Turn} {name : String}

/-- What the client of a transaction is told. -/
def told (s : Session σ) (turns : List Turn) (name : String) : List Outcome :=
  (s.play turns).1.filter fun o => o.name = name

/-- The tree of a transaction after some turns. -/
def EndsWith (s : Session σ) (turns : List Turn) (name : String) (T : Tree) : Prop :=
  ∃ txn, (s.play turns).2.fs.view.txn name = some txn ∧ (s.play turns).2.fs.view.HasTree txn.root T

/-- **CLIENTS DO NOT SEE EACH OTHER'S TURNS.** Take turns of clients on open transactions, in two orders that are the same for
    each client. As long as nothing runs out, each client is told the same in both, but for ids and keys, and its transaction
    has the same tree in the end. -/
theorem Reached.interleaving (h : s.Reached) (hprivate : ∀ t ∈ turns, t.body.IsPrivate t.name)
    (hopen : ∀ t ∈ turns, s.fs.view.txn t.name ≠ none)
    (hsame : ∀ name, turns.filter (fun t => t.name = name) = turns'.filter fun t => t.name = name)
    (hunlimited : ∀ o ∈ (s.play turns).1, ¬ o.MeetsLimit) (hunlimited' : ∀ o ∈ (s.play turns').1, ¬ o.MeetsLimit)
    (hname : s.fs.view.txn name ≠ none) :
    (s.told turns name).map Outcome.erase = (s.told turns' name).map Outcome.erase ∧
      ∃ T, s.EndsWith turns name T ∧ s.EndsWith turns' name T := by
  -- each turn is among those of its own client
  have hmem : ∀ t ∈ turns', t ∈ turns := by
    intro t ht
    have hfilter : t ∈ turns'.filter fun other => other.name = t.name := List.mem_filter.2 ⟨ht, by simp⟩
    rw [← hsame t.name] at hfilter
    exact List.mem_of_mem_filter hfilter
  have hturns : s.CanPlay turns := ⟨hprivate, hopen, hunlimited⟩
  have hturns' : s.CanPlay turns' :=
    ⟨fun t ht => hprivate t (hmem t ht), fun t ht => hopen t (hmem t ht), hunlimited'⟩
  obtain ⟨houtcomes, ρ, hmirror, -⟩ := (SameFor.of_filter_eq (hsame name)).alongside h.steady h.steady
    (h.steady.alongside hname) hturns hturns'
  obtain ⟨txn, txn', htxn, htxn', hroot, -⟩ := hmirror.txn
  have hsteady := hturns.steady h.steady
  obtain ⟨T, hT⟩ := hsteady.reachable.healthy.consistent.exists_tree (hmirror.sees hroot).1.node_ne_none
  exact ⟨houtcomes, T, ⟨txn, htxn, hT⟩, ⟨txn', htxn', (hmirror.hasTree_iff hroot).2 hT⟩⟩

/-! ### Two clients clone the same file -/

namespace Sample

/-- Two transactions are open on a revision with a file, and nobody holds anything. -/
def open₂ : Session Records :=
  ⟨((Filesystem.Sample.committed.begin 1).2.begin 1).2, fun _ => .empty⟩

/-- A client clones the file. -/
def clones (txn : String) : Turn :=
  ⟨txn, .ofSteps [.cloneRoot txn (some "r"), .cloneChild "r" "a" (some "f")]⟩

/-- It goes on with what it holds from then. -/
def changes (txn : String) : Turn :=
  ⟨txn, .ofSteps [.setProps "f" (.list [.atom (Text.toBytes "k"), .atom (Text.toBytes "v")]), .make "r" "b" .dir none,
    .entries "r"]⟩

def oneByOne : List Turn :=
  [clones "1", changes "1", clones "2", changes "2"]

def mixed : List Turn :=
  [clones "2", clones "1", changes "2", changes "1"]

/-- The two clients of the sample keep to their transactions. -/
theorem isPrivate_oneByOne : ∀ t ∈ oneByOne, t.body.IsPrivate t.name := by
  have hclones : ∀ txn, (clones txn).body.IsPrivate txn :=
    fun txn => Client.Body.isPrivate_ofSteps (by simp [Client.Step.IsPrivate])
  have hchanges : ∀ txn, (changes txn).body.IsPrivate txn :=
    fun txn => Client.Body.isPrivate_ofSteps (by simp [Client.Step.IsPrivate])
  simp only [oneByOne, List.forall_mem_cons, List.not_mem_nil, false_imp_iff, implies_true, and_true]
  exact ⟨hclones "1", hchanges "1", hclones "2", hchanges "2"⟩

/-- **THE ORDER IS NOT SEEN.** Who comes first gets the short ids, and this is all that the clients are told differently. -/
theorem mixed_told_alike : open₂.told oneByOne "1" ≠ open₂.told mixed "1" ∧
    (open₂.told oneByOne "1").map Outcome.erase = (open₂.told mixed "1").map Outcome.erase ∧
      ∃ T, open₂.EndsWith oneByOne "1" T ∧ open₂.EndsWith mixed "1" T := by
  have hreached : open₂.Reached :=
    .start (((Filesystem.Sample.reachable_new.steps Filesystem.Sample.steps_committed).step (.begin 1)).step (.begin 1))
  refine ⟨by decide +kernel, hreached.interleaving isPrivate_oneByOne (by decide +kernel) (fun name => ?_)
    (by decide +kernel) (by decide +kernel) (by decide +kernel)⟩
  by_cases hfirst : "1" = name
  · subst hfirst
    rfl
  · by_cases hsecond : "2" = name
    · subst hsecond
      rfl
    · simp [oneByOne, mixed, clones, changes, hfirst, hsecond]

end Sample

end Session

end VersionedTree

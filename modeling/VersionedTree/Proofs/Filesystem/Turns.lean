import VersionedTree.Proofs.Filesystem.Traces
import VersionedTree.Proofs.Tree.Privacy

/-!
# Turns — a trail of a client on one transaction

A client takes a turn: it runs a trail on its transaction, and keeps what it has got if the trail is completed. What it
does next may depend on all that it gets, but for ids and keys. Where two filesystems mirror each other for its
transaction it takes the same turn on both, and they mirror each other again afterwards.

* **`Body.IsPrivate`** — what a client does that knows of one transaction only. **`Body.isPrivate_ofSteps`** — some steps
  one after the other.
* **`Body.together`** — such a body on both sides, step by step.
* **`Session`** and **`Session.turn`** — a filesystem with clients, one for each transaction, and a turn of one of them.
* **`Session.turn_together`** — a turn on both sides.
-/

namespace VersionedTree

namespace Client

/-! ## Private bodies -/

/-- True of bodies that take the same private steps, and fail for the same reason, as long as what they get is the same but
    for ids and keys. -/
inductive Body.Alike (name : String) : Body → Body → Prop where
  | finish : Alike name .finish .finish
  | fail {e e' : Error} (h : e.erase = e'.erase) : Alike name (.fail e) (.fail e')
  | step {s : Step} {next next' : Except Error Answer → Body} (hs : s.IsPrivate name)
      (h : ∀ r r', eraseResult r = eraseResult r' → Alike name (next r) (next' r')) :
      Alike name (.step s next) (.step s next')

/-- True of what a client does that works on one transaction, and that goes by nothing that hangs on ids and keys. -/
def Body.IsPrivate (name : String) (body : Body) : Prop :=
  body.Alike name body

/-- The result of a trail without ids and keys. -/
def eraseEnd : Except Error Unit → Except Error Unit
  | .ok () => .ok ()
  | .error e => .error e.erase

/-- A list of private steps makes a private body. -/
theorem Body.isPrivate_ofSteps {name : String} {steps : List Step} (h : ∀ s ∈ steps, s.IsPrivate name) :
    (Body.ofSteps steps).IsPrivate name := by
  induction steps with
  | nil => exact .finish
  | cons s steps ih =>
    refine .step (h s List.mem_cons_self) fun r r' hr => ?_
    cases r with
    | ok a =>
      cases r' with
      | ok a' => exact ih fun s hs => h s (List.mem_cons_of_mem _ hs)
      | error e' => exact nomatch hr
    | error e =>
      cases r' with
      | ok a' => exact nomatch hr
      | error e' => exact .fail (Except.error.inj hr)

variable {σ : Type} [RecordStore σ] [LawfulStore σ] {base base' : Records} {v w u : View} {name : String}
  {body body' : Body} {held held' : Handles} {t t' : Trail σ} {s : Taken σ}

/-- A step that was taken is at most one edit. -/
theorem Taken.clientStep (ht : s.trail.Shows base v) (hv : v.Consistent) (hw : s.trailAfter.Shows base w) :
    v.ClientStep w := by
  obtain rfl : s.before = v := ht.view
  obtain rfl : s.after = w := hw.view
  exact (Taken.shows_after ht hv).2

/-- **A STEP ON BOTH SIDES** gets the same, whether it succeeds or not, and nobody else sees anything of it. -/
theorem Step.together {step : Step} (config config' : Config) (hprivate : step.IsPrivate name) (ht : t.Shows base v)
    (ht' : t'.Shows base' u) (hv : v.Consistent) (hu : u.Consistent) (ho : v.Ordered) (ho' : u.Ordered)
    (hcoupled : Coupled name held v held' u) (hleft : ¬ IsLimited (step.run config held t).1.1)
    (hright : ¬ IsLimited (step.run config' held' t').1.1) :
    ∃ r held₁ t₁ w r' held₁' t₁' w', step.run config held t = ((r, held₁), t₁) ∧ t₁.Shows base w ∧
      step.run config' held' t' = ((r', held₁'), t₁') ∧ t₁'.Shows base' w' ∧ eraseResult r = eraseResult r' ∧
        Coupled name held₁ w held₁' w' ∧ v.Apart name w ∧ u.Apart name w' := by
  have hname := hv.isTxnName hcoupled.txn_ne_none
  have hpair := ((ClientM.Pairs.step (σ := σ) config config' hprivate hv hu ho ho' hcoupled).and_left
    (ClientM.Ends.apart config hprivate hv hname fun _ _ => hcoupled.sees)).and_right
    (ClientM.Ends.apart config' hprivate hu hname fun _ _ => hcoupled.flip.sees)
  rcases hpair base base' t t' ht ht' hleft hright with
    ⟨a, held₁, t₁, w, a', held₁', t₁', w', hrun, hw, hrun', hw', ⟨⟨ha, hcoupled₁⟩, hapart⟩, hapart'⟩ |
      ⟨e, held₁, t₁, w, e', held₁', t₁', w', hrun, hw, hrun', hw', ⟨he, rfl, rfl⟩, hcoupled₁⟩
  · exact ⟨_, held₁, t₁, w, _, held₁', t₁', w', hrun, hw, hrun', hw', congrArg Except.ok ha, hcoupled₁, hapart, hapart'⟩
  · exact ⟨_, held₁, t₁, _, _, held₁', t₁', _, hrun, hw, hrun', hw', congrArg Except.error he, hcoupled₁, .refl name _,
      .refl name _⟩

section First

variable {config : Config} {first : Step} {next : Except Error Answer → Body} {r : Except Error Answer} {held₁ : Handles}
  {t₁ : Trail σ}

omit [LawfulStore σ] in
/-- What a body takes after its first step it takes on what that has come to. -/
theorem Body.taken_step (hrun : first.run config held t = ((r, held₁), t₁)) :
    (Body.step first next).taken config held t = ⟨config, first, held, t⟩ :: (next r).taken config held₁ t₁ := by
  have hrun' : (⟨config, first, held, t⟩ : Taken σ).run = ((r, held₁), t₁) := hrun
  rw [Body.taken, Taken.result, Taken.heldAfter, Taken.trailAfter, hrun']

omit [LawfulStore σ] in
/-- What a body does after its first step it does on what that has come to. -/
theorem Body.run_step (hrun : first.run config held t = ((r, held₁), t₁)) :
    (Body.step first next).run config held t = (next r).run config held₁ t₁ := by
  show (next (first.run config held t).1.1).run config (first.run config held t).1.2 (first.run config held t).2 = _
  rw [hrun]

/-- What a step comes to is a number of edits. -/
theorem Step.evolves (hrun : first.run config held t = ((r, held₁), t₁)) (ht : t.Shows base v) (hv : v.Consistent)
    (hw : t₁.Shows base w) : v.Evolves w := by
  have hafter : (⟨config, first, held, t⟩ : Taken σ).trailAfter = t₁ := congrArg Prod.snd hrun
  exact (Taken.clientStep (s := ⟨config, first, held, t⟩) ht hv (hafter ▸ hw)).follows.evolves

end First

/-- **A BODY ON BOTH SIDES** gets the same, step by step, ends alike, and nobody else sees anything of it. -/
theorem Body.together (config config' : Config) (hbody : body.Alike name body') (ht : t.Shows base v)
    (ht' : t'.Shows base' u) (hv : v.Consistent) (hu : u.Consistent) (ho : v.Ordered) (ho' : u.Ordered)
    (hcoupled : Coupled name held v held' u) (hleft : ∀ s ∈ body.taken config held t, ¬ IsLimited s.result)
    (hright : ∀ s ∈ body'.taken config' held' t', ¬ IsLimited s.result) :
    (body.taken config held t).map (fun s => eraseResult s.result) =
        (body'.taken config' held' t').map (fun s => eraseResult s.result) ∧
      eraseEnd (body.run config held t).1.1 = eraseEnd (body'.run config' held' t').1.1 ∧
      ∃ w w', (body.run config held t).2.Shows base w ∧ (body'.run config' held' t').2.Shows base' w' ∧
        Coupled name (body.run config held t).1.2 w (body'.run config' held' t').1.2 w' ∧ v.Apart name w ∧ u.Apart name w' := by
  induction hbody generalizing held held' t t' v u with
  | finish => exact ⟨rfl, rfl, v, u, ht, ht', hcoupled, .refl name v, .refl name u⟩
  | fail he => exact ⟨rfl, congrArg Except.error he, v, u, ht, ht', hcoupled, .refl name v, .refl name u⟩
  | @step first next next' hprivate _ ih =>
    -- the step comes to the same on both sides, and so does what follows from it
    obtain ⟨r, held₁, t₁, w, r', held₁', t₁', w', hrun, hw, hrun', hw', hr, hcoupled₁, hapart, hapart'⟩ :=
      Step.together config config' hprivate ht ht' hv hu ho ho' hcoupled (hleft ⟨config, first, held, t⟩ List.mem_cons_self)
        (hright ⟨config', first, held', t'⟩ List.mem_cons_self)
    have hevolves := Step.evolves hrun ht hv hw
    have hevolves' := Step.evolves hrun' ht' hu hw'
    rw [Body.taken_step hrun] at hleft ⊢
    rw [Body.taken_step hrun'] at hright ⊢
    rw [Body.run_step hrun, Body.run_step hrun']
    obtain ⟨hanswers, hend, x, x', hx, hx', hcoupled₂, hapart₂, hapart₂'⟩ := ih r r' hr hw hw' (hv.evolves hevolves)
      (hu.evolves hevolves') (ho.evolves hv hevolves) (ho'.evolves hu hevolves') hcoupled₁
      (fun s hs => hleft s (List.mem_cons_of_mem _ hs)) fun s hs => hright s (List.mem_cons_of_mem _ hs)
    refine ⟨?_, hend, x, x', hx, hx', hcoupled₂, hapart.trans hapart₂, hapart'.trans hapart₂'⟩
    have hfirst : eraseResult (first.run config held t).1.1 = eraseResult (first.run config' held' t').1.1 := by
      rw [hrun, hrun']
      exact hr
    rw [List.map_cons, List.map_cons, hanswers]
    exact congrArg (· :: _) hfirst

end Client

/-! ## Sessions -/

/-- What a client does next: a trail on its transaction. -/
structure Turn where
  name : String
  body : Client.Body

/-- What a client is told in a turn: what each of its steps gives, and whether the trail was completed. -/
structure Outcome where
  name : String
  answers : List (Except Error Client.Answer)
  result : Except Error Unit
deriving DecidableEq

namespace Outcome

/-- The outcome without ids and keys. -/
def erase (o : Outcome) : Outcome :=
  ⟨o.name, o.answers.map Client.eraseResult, Client.eraseEnd o.result⟩

/-- True of turns in which something has run out. -/
def MeetsLimit (o : Outcome) : Prop :=
  (∃ answer ∈ o.answers, IsLimited answer) ∨ IsLimited o.result

instance (o : Outcome) : Decidable o.MeetsLimit :=
  inferInstanceAs (Decidable (_ ∨ _))

end Outcome

/-- A filesystem with clients, one for each transaction, and what they hold. -/
structure Session (σ : Type) where
  fs : Filesystem σ
  held : String → Client.Handles

namespace Session

open Client

variable {σ : Type} [RecordStore σ]

/-- What the body of a turn comes to in its trail, before the trail is completed. -/
def staged (s : Session σ) (t : Turn) : (Except Error Unit × Handles) × Trail σ :=
  t.body.run s.fs.config (s.held t.name) (Trail.start s.fs.store)

/-- A client takes a turn. What it gets hold of in a trail that is thrown away it lets go again. -/
def turn (s : Session σ) (t : Turn) : Outcome × Session σ :=
  match Filesystem.runClient (t.body.run s.fs.config) (s.held t.name) s.fs with
  | ((result, kept), fs) =>
    (⟨t.name, (s.fs.taken t.body (s.held t.name)).map Taken.result, result⟩,
      ⟨fs, if result.isOk then Function.update s.held t.name kept else s.held⟩)

/-- The answers of a turn are the results of its steps. -/
theorem turn_answers (s : Session σ) (t : Turn) :
    (s.turn t).1.answers = (s.fs.taken t.body (s.held t.name)).map Taken.result :=
  rfl

/-- Nobody else gets hold of anything. -/
theorem turn_held_of_ne (s : Session σ) {t : Turn} {name : String} (hne : name ≠ t.name) :
    (s.turn t).2.held name = s.held name := by
  have hheld : (s.turn t).2.held = if (s.turn t).1.result.isOk then Function.update s.held t.name
      (Filesystem.runClient (t.body.run s.fs.config) (s.held t.name) s.fs).1.2 else s.held := rfl
  rw [hheld]
  split
  case isTrue => exact Function.update_of_ne hne _ _
  case isFalse => rfl

variable [LawfulStore σ] {s s' : Session σ} {t : Turn} {name : String} {w : View}

/-- A turn comes to what its body has come to, or to nothing, unless something has run out. -/
theorem turn_cases (hw : (s.staged t).2.Shows s.fs.records w) :
    (s.turn t).1.MeetsLimit ∨
      ((s.staged t).1.1 = .ok () ∧ (s.turn t).1.result = .ok () ∧
        (s.turn t).2.held = Function.update s.held t.name (s.staged t).1.2 ∧ (s.turn t).2.fs.view = w) ∨
      ∃ e, (s.staged t).1.1 = .error e ∧ (s.turn t).1.result = .error e ∧ (s.turn t).2.held = s.held ∧
        (s.turn t).2.fs.view = s.fs.view := by
  rcases hrun : s.staged t with ⟨⟨result, kept⟩, trail⟩
  rw [hrun] at hw
  have hclient : Filesystem.runClient (t.body.run s.fs.config) (s.held t.name) s.fs =
      (((trail.complete result).1, kept), { s.fs with store := (trail.complete result).2 }) := by
    rw [staged] at hrun
    simp only [Filesystem.runClient, Trail.runClient, hrun]
  rw [Outcome.MeetsLimit, turn, hclient]
  cases result with
  | ok a =>
    obtain ⟨store', ⟨hcomplete, hshows⟩ | ⟨e, hcomplete, -, -, hfault⟩⟩ := hw.complete a
    · rw [hcomplete]
      exact .inr (.inl ⟨rfl, rfl, rfl, hshows.view⟩)
    · rw [hcomplete]
      exact .inl (.inr (isLimited_error.2 hfault.isLimit))
  | error e => exact .inr (.inr ⟨e, rfl, rfl, rfl, congrArg Records.view hw.base⟩)

/-- The client of a transaction cannot tell the one session from the other. -/
def Alongside (name : String) (s s' : Session σ) : Prop :=
  Coupled name (s.held name) s.fs.view (s'.held name) s'.fs.view

/-- **A TURN ON BOTH SIDES** comes to the same, its client cannot tell the sides apart afterwards, and no other client sees
    anything of it. -/
theorem turn_together (hr : s.fs.Reachable) (hr' : s'.fs.Reachable) (hprivate : t.body.IsPrivate t.name)
    (h : s.Alongside t.name s') (hleft : ¬ (s.turn t).1.MeetsLimit) (hright : ¬ (s'.turn t).1.MeetsLimit) :
    (s.turn t).1.erase = (s'.turn t).1.erase ∧ (s.turn t).2.Alongside t.name (s'.turn t).2 ∧
      s.fs.view.Apart t.name (s.turn t).2.fs.view ∧ s'.fs.view.Apart t.name (s'.turn t).2.fs.view := by
  have hlimits : ∀ {s : Session σ}, ¬ (s.turn t).1.MeetsLimit →
      ∀ taken ∈ s.fs.taken t.body (s.held t.name), ¬ IsLimited taken.result :=
    fun hmeets taken htaken hlimit => hmeets (.inl ⟨_, List.mem_map_of_mem htaken, hlimit⟩)
  obtain ⟨hanswers, hend, w, w', hw, hw', hcoupled, hapart, hapart'⟩ := Body.together s.fs.config s'.fs.config hprivate
    hr.healthy.shows.start hr'.healthy.shows.start hr.healthy.consistent hr'.healthy.consistent hr.ordered hr'.ordered h
    (hlimits hleft) (hlimits hright)
  have herase : eraseEnd (s.turn t).1.result = eraseEnd (s'.turn t).1.result →
      (s.turn t).1.erase = (s'.turn t).1.erase := by
    intro hresult
    rw [Outcome.erase, Outcome.erase, hresult, turn_answers, turn_answers, List.map_map, List.map_map]
    exact congrArg (fun answers => Outcome.mk t.name answers _) hanswers
  -- both trails end in the same way, so both are completed or both are thrown away
  rcases (turn_cases hw).resolve_left hleft with ⟨hok, hresult, hheld, hview⟩ | ⟨e, herror, hresult, hheld, hview⟩
  · rcases (turn_cases hw').resolve_left hright with ⟨-, hresult', hheld', hview'⟩ | ⟨e', herror', -, -, -⟩
    · refine ⟨herase (by rw [hresult, hresult']), ?_, hview ▸ hapart, hview' ▸ hapart'⟩
      rw [Alongside, hheld, hheld', hview, hview', Function.update_self, Function.update_self]
      exact hcoupled
    · rw [staged] at hok herror'
      rw [hok, herror'] at hend
      exact nomatch hend
  · rcases (turn_cases hw').resolve_left hright with ⟨hok', -, -, -⟩ | ⟨e', herror', hresult', hheld', hview'⟩
    · rw [staged] at herror hok'
      rw [herror, hok'] at hend
      exact nomatch hend
    · rw [staged] at herror herror'
      rw [herror, herror'] at hend
      refine ⟨herase (by rw [hresult, hresult', hend]), ?_, hview ▸ .refl _ _, hview' ▸ .refl _ _⟩
      rw [Alongside, hheld, hheld', hview, hview']
      exact h

end Session

end VersionedTree

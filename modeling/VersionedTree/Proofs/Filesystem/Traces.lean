import VersionedTree.Proofs.Filesystem.Integrity
import VersionedTree.Proofs.Trail.Retention

/-!
# Traces — the steps that a trail is made of

What a client does in a trail depends on what its steps give, and only the end of the trail is seen from outside. To speak
of a single step, the trail is taken apart into the steps as they are taken, each with what was held and staged then.

* **`Client.Taken`** and **`Client.Body.taken`** — the steps of a trail, one after the other.
* **`Body.run_shows`** — what the trail shows in the end.
* **`Body.taken_shows`** and **`Body.taken_ends`** — each of them is taken on a view that comes from that of the filesystem
  by steps of clients, and the view in the end comes from there, too.
* **`Body.taken_pairwise`** — so does that of each later step.
* **`Healthy.trail_cases`** — what is seen of a trail from outside.
-/

namespace VersionedTree

variable {σ : Type} [RecordStore σ]

namespace Client

/-- A step as it is taken: what is held and staged by then. -/
structure Taken (σ : Type) where
  config : Config
  step : Step
  held : Handles
  trail : Trail σ

namespace Taken

def run (s : Taken σ) : (Except Error Answer × Handles) × Trail σ :=
  s.step.run s.config s.held s.trail

def result (s : Taken σ) : Except Error Answer :=
  s.run.1.1

def heldAfter (s : Taken σ) : Handles :=
  s.run.1.2

def trailAfter (s : Taken σ) : Trail σ :=
  s.run.2

end Taken

/-- The steps that a client takes in a trail, one after the other. -/
def Body.taken (config : Config) : Body → Handles → Trail σ → List (Taken σ)
  | finish, _, _ => []
  | fail _, _, _ => []
  | step s next, held, t =>
    let first : Taken σ := ⟨config, s, held, t⟩
    first :: (next first.result).taken config first.heldAfter first.trailAfter

end Client

/-- The steps that a client takes in a trail over a filesystem. -/
def Filesystem.taken (fs : Filesystem σ) (body : Client.Body) (held : Client.Handles) : List (Client.Taken σ) :=
  body.taken fs.config held (Trail.start fs.store)

variable [LawfulStore σ]

namespace Client

/-- The view that a step is taken on. -/
def Taken.before (s : Taken σ) : View :=
  s.trail.records.view

/-- The view that a step leaves. -/
def Taken.after (s : Taken σ) : View :=
  s.trailAfter.records.view

variable {base : Records} {v : View} {config : Config} {held : Handles} {t : Trail σ} {s : Taken σ} {body : Body}

/-! ## Single steps -/

/-- What a step comes to is what there is to say about its computation. -/
theorem Taken.of_ends {Q : Answer → Handles → View → Prop} {E : Error → Handles → View → Prop}
    (hs : s.trail.Shows base s.before) (h : (s.step.run s.config : ClientM Handles σ Answer).Ends s.held s.before Q E) :
    (∃ answer, s.result = .ok answer ∧ Q answer s.heldAfter s.after) ∨
      ∃ e, s.result = .error e ∧ E e s.heldAfter s.after := by
  rcases h base s.trail hs with ⟨answer, held', t', w, hrun, ht', hq⟩ | ⟨e, held', t', w, hrun, ht', he⟩
  · have hrun' : s.run = ((.ok answer, held'), t') := hrun
    refine .inl ⟨answer, ?_, ?_⟩
    · rw [result, hrun']
    · rw [heldAfter, after, trailAfter, hrun', ht'.view]
      exact hq
  · have hrun' : s.run = ((.error e, held'), t') := hrun
    refine .inr ⟨e, ?_, ?_⟩
    · rw [result, hrun']
    · rw [heldAfter, after, trailAfter, hrun', ht'.view]
      exact he

/-- What holds of a step that gives an answer. -/
theorem Taken.of_ends_ok {Q : Answer → Handles → View → Prop} {E : Error → Handles → View → Prop} {answer : Answer}
    (hs : s.trail.Shows base s.before) (h : (s.step.run s.config : ClientM Handles σ Answer).Ends s.held s.before Q E)
    (hresult : s.result = .ok answer) : Q answer s.heldAfter s.after := by
  rcases of_ends hs h with ⟨other, hother, hq⟩ | ⟨e, he, -⟩
  · cases hresult.symm.trans hother
    exact hq
  · cases hresult.symm.trans he

/-- What holds of a step that fails. -/
theorem Taken.of_ends_error {Q : Answer → Handles → View → Prop} {E : Error → Handles → View → Prop} {e : Error}
    (hs : s.trail.Shows base s.before) (h : (s.step.run s.config : ClientM Handles σ Answer).Ends s.held s.before Q E)
    (hresult : s.result = .error e) : E e s.heldAfter s.after := by
  rcases of_ends hs h with ⟨answer, hanswer, -⟩ | ⟨other, hother, he⟩
  · cases hresult.symm.trans hanswer
  · cases hresult.symm.trans hother
    exact he

/-- The view after a step is shown by the trail, and at most one edit away. -/
theorem Taken.shows_after (hs : s.trail.Shows base s.before) (hv : s.before.Consistent) :
    s.trailAfter.Shows base s.after ∧ s.before.ClientStep s.after := by
  rcases ClientM.Follows.step s.config hv.backed s.step base s.trail hs with
    ⟨answer, held', t', w, hrun, ht', hstep⟩ | ⟨e, held', t', w, hrun, ht', hstep⟩
  all_goals
    have hafter : s.trailAfter = t' := congrArg Prod.snd hrun
    obtain rfl : s.after = w := by rw [after, hafter, ht'.view]
    exact ⟨hafter ▸ ht', hstep⟩

/-! ## All steps of a trail -/

/-- What a trail shows in the end comes from what it showed first. -/
theorem Body.run_shows (hv : v.Consistent) (ht : t.Shows base v) (body : Body) :
    (body.run config held t).2.Shows base (body.run config held t).2.records.view ∧
      v.ClientSteps (body.run config held t).2.records.view := by
  rcases ClientM.Ends.bodySteps config hv body held base t ht with
    ⟨_, held', t', w, hrun, ht', hsteps⟩ | ⟨e, held', t', w, hrun, ht', hsteps⟩
  all_goals
    rw [hrun, ht'.view]
    exact ⟨ht', hsteps⟩

/-- Each step is taken on what the steps before it have come to. -/
theorem Body.taken_shows (hv : v.Consistent) (ht : t.Shows base v) (hs : s ∈ body.taken config held t) :
    s.trail.Shows base s.before ∧ v.ClientSteps s.before := by
  induction body generalizing v held t with
  | finish => exact nomatch hs
  | fail e => exact nomatch hs
  | step step next ih =>
    let first : Taken σ := ⟨config, step, held, t⟩
    have hbefore : first.before = v := ht.view
    rcases List.mem_cons.1 hs with heq | hrest
    · obtain rfl : s = first := heq
      exact ⟨hbefore.symm ▸ ht, hbefore.symm ▸ .refl⟩
    · obtain ⟨hafter, hstep⟩ := Taken.shows_after (s := first) (hbefore.symm ▸ ht) (hbefore.symm ▸ hv)
      rw [hbefore] at hstep
      obtain ⟨hshows, hsteps⟩ := ih first.result (hv.evolves hstep.follows.evolves) hafter hrest
      exact ⟨hshows, .head hstep hsteps⟩

/-- What a later step is taken on comes from what an earlier one has left. -/
theorem Body.taken_pairwise (hv : v.Consistent) (ht : t.Shows base v) :
    (body.taken config held t).Pairwise fun s s' => s.after.ClientSteps s'.before := by
  induction body generalizing v held t with
  | finish => exact .nil
  | fail e => exact .nil
  | step step next ih =>
    let first : Taken σ := ⟨config, step, held, t⟩
    have hbefore : first.before = v := ht.view
    obtain ⟨hafter, hstep⟩ := Taken.shows_after (s := first) (hbefore.symm ▸ ht) (hbefore.symm ▸ hv)
    have hv' : first.after.Consistent := hv.evolves (hbefore ▸ hstep).follows.evolves
    exact .cons (fun s hs => (taken_shows hv' hafter hs).2) (ih first.result hv' hafter)

/-- The view in the end comes from what each step has left. -/
theorem Body.taken_ends (hv : v.Consistent) (ht : t.Shows base v) (hs : s ∈ body.taken config held t) :
    s.after.ClientSteps (body.run config held t).2.records.view := by
  induction body generalizing v held t with
  | finish => exact nomatch hs
  | fail e => exact nomatch hs
  | step step next ih =>
    let first : Taken σ := ⟨config, step, held, t⟩
    have hbefore : first.before = v := ht.view
    obtain ⟨hafter, hstep⟩ := Taken.shows_after (s := first) (hbefore.symm ▸ ht) (hbefore.symm ▸ hv)
    have hv' : first.after.Consistent := hv.evolves (hbefore ▸ hstep).follows.evolves
    have hrun : (Body.step step next).run config held t =
        (next first.result).run config first.heldAfter first.trailAfter := rfl
    rw [hrun]
    rcases List.mem_cons.1 hs with heq | hrest
    · obtain rfl : s = first := heq
      exact (run_shows hv' hafter (next first.result)).2
    · exact ih first.result hv' hafter hrest

end Client

/-! ## Whole trails -/

namespace Filesystem

variable {fs : Filesystem σ} {body : Client.Body} {held : Client.Handles} {s : Client.Taken σ}

/-- The trail is completed: what it has come to is in the store, and nothing went wrong. -/
def Completes (fs : Filesystem σ) (body : Client.Body) (held : Client.Handles) : Prop :=
  (runClient (body.run fs.config) held fs).1.1 = .ok ()

/-- A trail that is completed leaves the records as it has seen them, and any other trail leaves them as they were. -/
theorem Healthy.trail_cases (h : fs.Healthy) (body : Client.Body) (held : Client.Handles) :
    (fs.Completes body held ∧ (runClient (body.run fs.config) held fs).2.records =
        (body.run fs.config held (Trail.start fs.store)).2.records) ∨
      ¬ fs.Completes body held ∧ (runClient (body.run fs.config) held fs).2.records = fs.records := by
  have hshows : (body.run fs.config held (Trail.start fs.store)).2.Shows fs.records _ :=
    (Client.Body.run_shows h.consistent h.shows.start body).1
  obtain ⟨store', -, hcases⟩ := Trail.complete_cases hshows.valid (body.run fs.config held (Trail.start fs.store)).1.1
  have hrun : runClient (body.run fs.config) held fs =
      ((((body.run fs.config held (Trail.start fs.store)).2.complete
            (body.run fs.config held (Trail.start fs.store)).1.1).1,
          (body.run fs.config held (Trail.start fs.store)).1.2),
        { fs with store := ((body.run fs.config held (Trail.start fs.store)).2.complete
            (body.run fs.config held (Trail.start fs.store)).1.1).2 }) := rfl
  rw [Completes, hrun]
  rcases hcases with ⟨a, -, hcomplete, hrecords⟩ | ⟨e, hcomplete, hrecords, -⟩
  · rw [hcomplete]
    exact .inl ⟨rfl, hrecords⟩
  · rw [hcomplete]
    exact .inr ⟨nofun, hrecords.trans hshows.base⟩

/-- Each step of a turn is taken on what the steps before it have come to. -/
theorem Healthy.taken_shows (h : fs.Healthy) (hs : s ∈ fs.taken body held) :
    s.trail.Shows fs.records s.before ∧ fs.view.ClientSteps s.before :=
  Client.Body.taken_shows h.consistent h.shows.start hs

/-- Each step is taken on records that are consistent and in order. -/
theorem Reachable.taken (h : Reachable fs) (hs : s ∈ fs.taken body held) :
    s.trail.Shows fs.records s.before ∧ s.before.Consistent ∧ s.before.Ordered := by
  obtain ⟨hshows, hsteps⟩ := h.healthy.taken_shows hs
  exact ⟨hshows, h.healthy.consistent.evolves hsteps.evolves, h.ordered.evolves h.healthy.consistent hsteps.evolves⟩

end Filesystem

end VersionedTree

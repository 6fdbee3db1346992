import VersionedTree.Proofs.Trail.Ends

/-!
# Pairs — two computations side by side

The same computation comes to different things on different views, and still to the same as far as somebody can tell who
does not know the ids. So two computations are followed at once, each on a view of its own. What the two come to is
compared only if neither of them has met a limit: how much is left of what can run out depends on everything else that
was ever done.

* **`Error.isLimit`** — the errors that say that the store fails, or that there is no number left.
* **`TrailM.Pairs`** — two computations both end with a value, or both with an error, and what they end with is related.
  The rules are those of `Ends`, for both sides at once. **`Pairs.of_ends`** — each side may be followed alone, if it
  cannot fail but at a limit.
* **`ClientM.Pairs`** — the same for the computations of a client.
-/

namespace VersionedTree

variable {σ ω α β : Type}

namespace Error

/-- True of errors that are met when something has run out: the store fails, or there is no number left. -/
def isLimit : Error → Bool
  | storage _ => true
  | corrupt (.noNumberLeft _) => true
  | corrupt (.noForkLeft _) => true
  | _ => false

/-- A fault of the store is a limit. -/
theorem IsFault.isLimit [RecordStore σ] [LawfulStore σ] {e : Error} (h : e.IsFault σ) : e.isLimit = true := by
  obtain ⟨-, cause, rfl⟩ := h
  rfl

end Error

/-- True of results that are an error at a limit. -/
def IsLimited (result : Except Error α) : Prop :=
  ∃ e, result = .error e ∧ e.isLimit = true

/-- A value is not cut short by a limit. -/
theorem not_isLimited_ok (a : α) : ¬ IsLimited (.ok a : Except Error α) := by
  rintro ⟨e, heq, -⟩
  exact nomatch heq

/-- An error is cut short just if it is a limit. -/
theorem isLimited_error {e : Error} : IsLimited (.error e : Except Error α) ↔ e.isLimit = true := by
  constructor
  · rintro ⟨e', heq, hlimit⟩
    cases heq
    exact hlimit
  · exact fun hlimit => ⟨e, rfl, hlimit⟩

instance (result : Except Error α) : Decidable (IsLimited result) :=
  match result with
  | .ok a => .isFalse (not_isLimited_ok a)
  | .error e => decidable_of_iff (e.isLimit = true) isLimited_error.symm

variable [RecordStore σ] [LawfulStore σ] [Codec]

namespace TrailM

/-- Unless one of the computations meets a limit, they end both with a value and a view, as in `Q`, or both with an error
    and a view, as in `E`. The first one starts on a trail that shows `v`, and the second one on a trail that shows `u`. -/
def Pairs (m m' : TrailM σ α) (v u : View) (Q : α → View → α → View → Prop) (E : Error → View → Error → View → Prop) :
    Prop :=
  ∀ base base' t t', t.Shows base v → t'.Shows base' u → ¬ IsLimited (m t).1 → ¬ IsLimited (m' t').1 →
    (∃ a t₁ w a' t₁' w', m t = (.ok a, t₁) ∧ t₁.Shows base w ∧ m' t' = (.ok a', t₁') ∧ t₁'.Shows base' w' ∧ Q a w a' w') ∨
      ∃ e t₁ w e' t₁' w', m t = (.error e, t₁) ∧ t₁.Shows base w ∧ m' t' = (.error e', t₁') ∧ t₁'.Shows base' w' ∧
        E e w e' w'

variable {m m' : TrailM σ α} {f f' : α → TrailM σ β} {v u : View} {Q : α → View → α → View → Prop}
  {E : Error → View → Error → View → Prop}

theorem Pairs.pure {a a' : α} (h : Q a v a' u) : Pairs (Pure.pure a : TrailM σ α) (Pure.pure a') v u Q E :=
  fun _ _ t t' ht ht' _ _ => .inl ⟨a, t, v, a', t', u, rfl, ht, rfl, ht', h⟩

theorem Pairs.throw {e e' : Error} (h : E e v e' u) :
    Pairs (MonadExcept.throw e : TrailM σ α) (MonadExcept.throw e') v u Q E :=
  fun _ _ t t' ht ht' _ _ => .inr ⟨e, t, v, e', t', u, rfl, ht, rfl, ht', h⟩

theorem Pairs.mono {Q' : α → View → α → View → Prop} {E' : Error → View → Error → View → Prop} (h : m.Pairs m' v u Q' E')
    (hQ : ∀ a w a' w', Q' a w a' w' → Q a w a' w') (hE : ∀ e w e' w', E' e w e' w' → E e w e' w') : m.Pairs m' v u Q E := by
  intro base base' t t' ht ht' hleft hright
  rcases h base base' t t' ht ht' hleft hright with
    ⟨a, t₁, w, a', t₁', w', hrun, hw, hrun', hw', hq⟩ | ⟨e, t₁, w, e', t₁', w', hrun, hw, hrun', hw', he⟩
  · exact .inl ⟨a, t₁, w, a', t₁', w', hrun, hw, hrun', hw', hQ _ _ _ _ hq⟩
  · exact .inr ⟨e, t₁, w, e', t₁', w', hrun, hw, hrun', hw', hE _ _ _ _ he⟩

omit [RecordStore σ] [LawfulStore σ] [Codec] in
/-- A computation that meets a limit is not gone on with. -/
theorem not_isLimited_of_bind {t : Trail σ} (h : ¬ IsLimited ((m >>= f) t).1) : ¬ IsLimited (m t).1 := by
  rintro ⟨e, hresult, hlimit⟩
  have hrun : m t = (.error e, (m t).2) := Prod.ext hresult rfl
  rw [bind_of_error hrun] at h
  exact h ⟨e, rfl, hlimit⟩

/-- What is second is promised on all pairs of views that the first ends with. -/
theorem Pairs.bind {Q' : β → View → β → View → Prop} {E' : Error → View → Error → View → Prop} (h : m.Pairs m' v u Q E')
    (hf : ∀ a w a' w', Q a w a' w' → (f a).Pairs (f' a') w w' Q' E) (hE : ∀ e w e' w', E' e w e' w' → E e w e' w') :
    (m >>= f).Pairs (m' >>= f') v u Q' E := by
  intro base base' t t' ht ht' hleft hright
  rcases h base base' t t' ht ht' (not_isLimited_of_bind hleft) (not_isLimited_of_bind hright) with
    ⟨a, t₁, w, a', t₁', w', hrun, hw, hrun', hw', hq⟩ | ⟨e, t₁, w, e', t₁', w', hrun, hw, hrun', hw', he⟩
  · rw [bind_of_ok hrun] at hleft ⊢
    rw [bind_of_ok hrun'] at hright ⊢
    exact hf a w a' w' hq base base' t₁ t₁' hw hw' hleft hright
  · exact .inr ⟨e, t₁, w, e', t₁', w', bind_of_error hrun, hw, bind_of_error hrun', hw', hE _ _ _ _ he⟩

/-- After computations that leave their views alone. -/
theorem Pairs.after {P : α → α → Prop} {Q' : β → View → β → View → Prop}
    (h : m.Pairs m' v u (fun a w a' w' => (w = v ∧ w' = u) ∧ P a a') E)
    (hf : ∀ a a', P a a' → (f a).Pairs (f' a') v u Q' E) : (m >>= f).Pairs (m' >>= f') v u Q' E := by
  refine Pairs.bind h ?_ fun _ _ _ _ he => he
  rintro a w a' w' ⟨⟨rfl, rfl⟩, hp⟩
  exact hf a a' hp

/-- Each side may be followed alone, if it can only fail at a limit. -/
theorem Pairs.of_ends {Q₁ Q₂ : α → View → Prop} {E₁ E₂ : Error → View → Prop} (h : m.Ends v Q₁ E₁) (h' : m'.Ends u Q₂ E₂)
    (hQ : ∀ a w a' w', Q₁ a w → Q₂ a' w' → Q a w a' w') (hE : ∀ e w, E₁ e w → e.isLimit = true)
    (hE' : ∀ e w, E₂ e w → e.isLimit = true) : m.Pairs m' v u Q E := by
  intro base base' t t' ht ht' hleft hright
  rcases h base t ht with ⟨a, t₁, w, hrun, hw, hq⟩ | ⟨e, t₁, w, hrun, -, he⟩
  · rcases h' base' t' ht' with ⟨a', t₁', w', hrun', hw', hq'⟩ | ⟨e, t₁', w', hrun', -, he⟩
    · exact .inl ⟨a, t₁, w, a', t₁', w', hrun, hw, hrun', hw', hQ _ _ _ _ hq hq'⟩
    · rw [hrun'] at hright
      exact absurd (isLimited_error.2 (hE' e w' he)) hright
  · rw [hrun] at hleft
    exact absurd (isLimited_error.2 (hE e w he)) hleft

/-- Both sides fail. -/
theorem Pairs.of_errors {E₁ E₂ : Error → View → Prop} (h : m.Ends v (fun _ _ => False) E₁)
    (h' : m'.Ends u (fun _ _ => False) E₂)
    (hE : ∀ e w e' w', E₁ e w → E₂ e' w' → e.isLimit = true ∨ e'.isLimit = true ∨ E e w e' w') : m.Pairs m' v u Q E := by
  intro base base' t t' ht ht' hleft hright
  rcases h base t ht with ⟨_, _, _, -, -, hfalse⟩ | ⟨e, t₁, w, hrun, hw, he⟩
  · exact hfalse.elim
  · rcases h' base' t' ht' with ⟨_, _, _, -, -, hfalse⟩ | ⟨e', t₁', w', hrun', hw', he'⟩
    · exact hfalse.elim
    · rw [hrun] at hleft
      rw [hrun'] at hright
      rcases hE e w e' w' he he' with hlimit | hlimit | hfail
      · exact absurd (isLimited_error.2 hlimit) hleft
      · exact absurd (isLimited_error.2 hlimit) hright
      · exact .inr ⟨e, t₁, w, e', t₁', w', hrun, hw, hrun', hw', hfail⟩

/-- Each side may be followed alone if it leaves its view alone. -/
theorem Pairs.of_reads {P : α → α → Prop} {Q₁ Q₂ : α → Prop} {E₁ E₂ : Error → Prop} (h : m.Reads v Q₁ E₁)
    (h' : m'.Reads u Q₂ E₂) (hP : ∀ a a', Q₁ a → Q₂ a' → P a a') (hE : ∀ e, E₁ e → e.isLimit = true)
    (hE' : ∀ e, E₂ e → e.isLimit = true) : m.Pairs m' v u (fun a w a' w' => (w = v ∧ w' = u) ∧ P a a') E :=
  .of_ends h h' (fun _ _ _ _ hq hq' => ⟨⟨hq.1, hq'.1⟩, hP _ _ hq.2 hq'.2⟩) (fun e _ he => hE e he.2) fun e _ he => hE' e he.2

/-- Results that need no records pair if both are values, or both are errors. -/
theorem Pairs.ofExcept {ε : Type} {asError asError' : ε → Error} {result result' : Except ε α} {P : α → α → Prop}
    (h : (∃ a a', result = .ok a ∧ result' = .ok a' ∧ P a a') ∨
      ∃ e e', result = .error e ∧ result' = .error e' ∧ E (asError e) v (asError' e') u) :
    Pairs (TrailM.ofExcept asError result : TrailM σ α) (TrailM.ofExcept asError' result') v u
      (fun a w a' w' => (w = v ∧ w' = u) ∧ P a a') E := by
  rcases h with ⟨a, a', rfl, rfl, hp⟩ | ⟨e, e', rfl, rfl, he⟩
  · exact .pure ⟨⟨rfl, rfl⟩, hp⟩
  · exact .throw he

/-- The same for results whose errors are those of trails. -/
theorem Pairs.ofResult {result result' : Except Error α} {P : α → α → Prop}
    (h : (∃ a a', result = .ok a ∧ result' = .ok a' ∧ P a a') ∨
      ∃ e e', result = .error e ∧ result' = .error e' ∧ E e v e' u) :
    Pairs (TrailM.ofResult result : TrailM σ α) (TrailM.ofResult result') v u
      (fun a w a' w' => (w = v ∧ w' = u) ∧ P a a') E := by
  rcases h with ⟨a, a', rfl, rfl, hp⟩ | ⟨e, e', rfl, rfl, he⟩
  · exact .pure ⟨⟨rfl, rfl⟩, hp⟩
  · exact .throw he

end TrailM

/-! ## Computations of clients -/

namespace ClientM

/-- Unless one of the computations meets a limit, they end both with a value, what is held then and a view, as in `Q`, or
    both with an error, what is held and a view, as in `E`. -/
def Pairs (m m' : ClientM ω σ α) (held held' : ω) (v u : View) (Q : α → ω → View → α → ω → View → Prop)
    (E : Error → ω → View → Error → ω → View → Prop) : Prop :=
  ∀ base base' t t', t.Shows base v → t'.Shows base' u → ¬ IsLimited (m held t).1.1 → ¬ IsLimited (m' held' t').1.1 →
    (∃ a held₁ t₁ w a' held₁' t₁' w', m held t = ((.ok a, held₁), t₁) ∧ t₁.Shows base w ∧
        m' held' t' = ((.ok a', held₁'), t₁') ∧ t₁'.Shows base' w' ∧ Q a held₁ w a' held₁' w') ∨
      ∃ e held₁ t₁ w e' held₁' t₁' w', m held t = ((.error e, held₁), t₁) ∧ t₁.Shows base w ∧
        m' held' t' = ((.error e', held₁'), t₁') ∧ t₁'.Shows base' w' ∧ E e held₁ w e' held₁' w'

variable {m m' : ClientM ω σ α} {f f' : α → ClientM ω σ β} {held held' : ω} {v u : View}
  {Q : α → ω → View → α → ω → View → Prop} {E : Error → ω → View → Error → ω → View → Prop}

theorem Pairs.pure {a a' : α} (h : Q a held v a' held' u) :
    Pairs (Pure.pure a : ClientM ω σ α) (Pure.pure a') held held' v u Q E :=
  fun _ _ t t' ht ht' _ _ => .inl ⟨a, held, t, v, a', held', t', u, rfl, ht, rfl, ht', h⟩

omit [RecordStore σ] [LawfulStore σ] [Codec] in
/-- If a sequence is not cut short, then its first part is not. -/
theorem not_isLimited_of_bind {t : Trail σ} (h : ¬ IsLimited ((m >>= f) held t).1.1) : ¬ IsLimited (m held t).1.1 := by
  rintro ⟨e, hresult, hlimit⟩
  have hrun : m held t = ((.error e, (m held t).1.2), (m held t).2) := Prod.ext (Prod.ext hresult rfl) rfl
  rw [bind_of_error hrun] at h
  exact h ⟨e, rfl, hlimit⟩

/-- For clients, too, what is second is promised on all pairs that the first ends with. -/
theorem Pairs.bind {Q' : β → ω → View → β → ω → View → Prop} {E' : Error → ω → View → Error → ω → View → Prop}
    (h : m.Pairs m' held held' v u Q E')
    (hf : ∀ a held₁ w a' held₁' w', Q a held₁ w a' held₁' w' → (f a).Pairs (f' a') held₁ held₁' w w' Q' E)
    (hE : ∀ e held₁ w e' held₁' w', E' e held₁ w e' held₁' w' → E e held₁ w e' held₁' w') :
    (m >>= f).Pairs (m' >>= f') held held' v u Q' E := by
  intro base base' t t' ht ht' hleft hright
  rcases h base base' t t' ht ht' (not_isLimited_of_bind hleft) (not_isLimited_of_bind hright) with
    ⟨a, held₁, t₁, w, a', held₁', t₁', w', hrun, hw, hrun', hw', hq⟩ |
      ⟨e, held₁, t₁, w, e', held₁', t₁', w', hrun, hw, hrun', hw', he⟩
  · rw [bind_of_ok hrun] at hleft ⊢
    rw [bind_of_ok hrun'] at hright ⊢
    exact hf _ _ _ _ _ _ hq base base' t₁ t₁' hw hw' hleft hright
  · exact .inr ⟨e, held₁, t₁, w, e', held₁', t₁', w', bind_of_error hrun, hw, bind_of_error hrun', hw', hE _ _ _ _ _ _ he⟩

/-- Computations in the trail do not change what is held. -/
theorem Pairs.lift {m m' : TrailM σ α} {Q' : α → View → α → View → Prop} {E' : Error → View → Error → View → Prop}
    (h : m.Pairs m' v u Q' E') (hQ : ∀ a w a' w', Q' a w a' w' → Q a held w a' held' w')
    (hE : ∀ e w e' w', E' e w e' w' → E e held w e' held' w') :
    Pairs (TrailM.lift m : ClientM ω σ α) (TrailM.lift m') held held' v u Q E := by
  intro base base' t t' ht ht' hleft hright
  have hlift : (TrailM.lift m : ClientM ω σ α) held t = (((m t).1, held), (m t).2) := rfl
  have hlift' : (TrailM.lift m' : ClientM ω σ α) held' t' = (((m' t').1, held'), (m' t').2) := rfl
  rcases h base base' t t' ht ht' hleft hright with
    ⟨a, t₁, w, a', t₁', w', hrun, hw, hrun', hw', hq⟩ | ⟨e, t₁, w, e', t₁', w', hrun, hw, hrun', hw', he⟩
  · rw [hrun] at hlift
    rw [hrun'] at hlift'
    exact .inl ⟨a, held, t₁, w, a', held', t₁', w', hlift, hw, hlift', hw', hQ _ _ _ _ hq⟩
  · rw [hrun] at hlift
    rw [hrun'] at hlift'
    exact .inr ⟨e, held, t₁, w, e', held', t₁', w', hlift, hw, hlift', hw', hE _ _ _ _ he⟩

/-- After asking what is held. -/
theorem Pairs.get {f f' : ω → ClientM ω σ β} {Q : β → ω → View → β → ω → View → Prop}
    (h : (f held).Pairs (f' held') held held' v u Q E) :
    (getThe ω >>= f : ClientM ω σ β).Pairs (getThe ω >>= f') held held' v u Q E :=
  fun base base' t t' ht ht' hleft hright => h base base' t t' ht ht' hleft hright

/-- After something else is held. -/
theorem Pairs.hold {f f' : PUnit → ClientM ω σ β} {g g' : ω → ω} {Q : β → ω → View → β → ω → View → Prop}
    (h : (f ⟨⟩).Pairs (f' ⟨⟩) (g held) (g' held') v u Q E) :
    (modifyThe ω g >>= f : ClientM ω σ β).Pairs (modifyThe ω g' >>= f') held held' v u Q E :=
  fun base base' t t' ht ht' hleft hright => h base base' t t' ht ht' hleft hright

theorem Pairs.set {f f' : PUnit → ClientM ω σ β} {held₁ held₁' : ω} {Q : β → ω → View → β → ω → View → Prop}
    (h : (f ⟨⟩).Pairs (f' ⟨⟩) held₁ held₁' v u Q E) :
    (MonadStateOf.set held₁ >>= f : ClientM ω σ β).Pairs (MonadStateOf.set held₁' >>= f') held held' v u Q E :=
  fun base base' t t' ht ht' hleft hright => h base base' t t' ht ht' hleft hright

/-- What else there is to say of the left side. -/
theorem Pairs.and_left {Q₁ : α → ω → View → Prop} {E₁ : Error → ω → View → Prop} (h : m.Pairs m' held held' v u Q E)
    (hm : m.Ends held v Q₁ E₁) :
    m.Pairs m' held held' v u (fun a held₁ w a' held₁' w' => Q a held₁ w a' held₁' w' ∧ Q₁ a held₁ w) E := by
  intro base base' t t' ht ht' hleft hright
  rcases h base base' t t' ht ht' hleft hright with
    ⟨a, held₁, t₁, w, a', held₁', t₁', w', hrun, hw, hrun', hw', hq⟩ | herror
  · rcases hm base t ht with ⟨b, held₂, t₂, x, heq, hx, hq₁⟩ | ⟨_, _, _, _, heq, -, -⟩
    · cases hrun.symm.trans heq
      cases hw.view.symm.trans hx.view
      exact .inl ⟨a, held₁, t₁, w, a', held₁', t₁', w', hrun, hw, hrun', hw', hq, hq₁⟩
    · exact nomatch hrun.symm.trans heq
  · exact .inr herror

/-- What else there is to say of the right side. -/
theorem Pairs.and_right {Q₂ : α → ω → View → Prop} {E₂ : Error → ω → View → Prop} (h : m.Pairs m' held held' v u Q E)
    (hm : m'.Ends held' u Q₂ E₂) :
    m.Pairs m' held held' v u (fun a held₁ w a' held₁' w' => Q a held₁ w a' held₁' w' ∧ Q₂ a' held₁' w') E := by
  intro base base' t t' ht ht' hleft hright
  rcases h base base' t t' ht ht' hleft hright with
    ⟨a, held₁, t₁, w, a', held₁', t₁', w', hrun, hw, hrun', hw', hq⟩ | herror
  · rcases hm base' t' ht' with ⟨b, held₂, t₂, x, heq, hx, hq₂⟩ | ⟨_, _, _, _, heq, -, -⟩
    · cases hrun'.symm.trans heq
      cases hw'.view.symm.trans hx.view
      exact .inl ⟨a, held₁, t₁, w, a', held₁', t₁', w', hrun, hw, hrun', hw', hq, hq₂⟩
    · exact nomatch hrun'.symm.trans heq
  · exact .inr herror

end ClientM

end VersionedTree

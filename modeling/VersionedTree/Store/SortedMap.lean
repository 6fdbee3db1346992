/-!
# Sorted maps — values by key, in the order of the keys

A map is a list of pairs with strictly increasing keys, so two maps with the same look-ups are the same list (**`ext`**),
and the pairs come out in the order of their keys. Look-ups after an insertion or an erasure are described by
**`find?_insert`** and **`find?_erase`**.
-/

namespace VersionedTree

open Std

variable {κ α : Type} [Ord κ]

/-- Values of type `α` by keys of type `κ`. -/
structure SortedMap (κ α : Type) [Ord κ] where
  pairs : List (κ × α)
  sorted : pairs.Pairwise fun p q => compare p.1 q.1 = .lt
deriving DecidableEq

namespace SortedMap

/-! ## On lists of pairs -/

/-- The value of the first pair with this key. -/
def findIn (k : κ) : List (κ × α) → Option α
  | [] => none
  | (k', a) :: rest =>
    match compare k k' with
    | .eq => some a
    | _ => findIn k rest

/-- The list with the key set to a value, in its place. -/
def insertIn (k : κ) (a : α) : List (κ × α) → List (κ × α)
  | [] => [(k, a)]
  | (k', a') :: rest =>
    match compare k k' with
    | .lt => (k, a) :: (k', a') :: rest
    | .eq => (k, a) :: rest
    | .gt => (k', a') :: insertIn k a rest

/-- The list without the pairs of a key. -/
def eraseIn (k : κ) (pairs : List (κ × α)) : List (κ × α) :=
  pairs.filter fun p => compare k p.1 != .eq

/-- Every pair is the new one, or was there before. -/
theorem mem_insertIn {k : κ} {a : α} {p : κ × α} {pairs : List (κ × α)} (h : p ∈ insertIn k a pairs) :
    p = (k, a) ∨ p ∈ pairs := by
  induction pairs with
  | nil => simpa [insertIn] using h
  | cons hd tl ih =>
    obtain ⟨k', a'⟩ := hd
    simp only [insertIn] at h
    split at h <;> grind

/-- Pairs stay sorted when one is inserted. -/
theorem sorted_insertIn [TransOrd κ] [LawfulEqOrd κ] (k : κ) (a : α) {pairs : List (κ × α)}
    (h : pairs.Pairwise fun p q => compare p.1 q.1 = .lt) :
    (insertIn k a pairs).Pairwise fun p q => compare p.1 q.1 = .lt := by
  induction pairs with
  | nil => simp [insertIn]
  | cons hd tl ih =>
    obtain ⟨k', a'⟩ := hd
    obtain ⟨hhd, htl⟩ := List.pairwise_cons.1 h
    simp only [insertIn]
    split
    case h_1 hlt =>
      refine List.pairwise_cons.2 ⟨fun p hp => ?_, h⟩
      rcases List.mem_cons.1 hp with rfl | hp
      · exact hlt
      · exact TransCmp.lt_trans hlt (hhd p hp)
    case h_2 heq =>
      cases LawfulEqOrd.eq_of_compare heq
      exact List.pairwise_cons.2 ⟨hhd, htl⟩
    case h_3 hgt =>
      refine List.pairwise_cons.2 ⟨fun p hp => ?_, ih htl⟩
      rcases mem_insertIn hp with rfl | hp
      · exact OrientedCmp.lt_of_gt hgt
      · exact hhd p hp

/-- A key below all others is not found. -/
theorem findIn_eq_none_of_lt [TransOrd κ] {k : κ} {pairs : List (κ × α)} (h : ∀ p ∈ pairs, compare k p.1 = .lt) :
    findIn k pairs = none := by
  induction pairs with
  | nil => rfl
  | cons hd tl ih =>
    obtain ⟨k', a'⟩ := hd
    simp only [findIn, h (k', a') (by simp)]
    exact ih fun p hp => h p (List.mem_cons_of_mem _ hp)

/-- The first pair is found under its key. -/
theorem findIn_cons_self [TransOrd κ] (k : κ) (a : α) (rest : List (κ × α)) : findIn k ((k, a) :: rest) = some a := by
  simp [findIn, ReflCmp.compare_self]

/-- A key that is found in sorted pairs is not below the first key of them. -/
theorem not_lt_of_findIn [TransOrd κ] {k k' : κ} {a a' : α} {rest : List (κ × α)}
    (hsorted : ((k', a') :: rest).Pairwise fun p q => compare p.1 q.1 = .lt)
    (h : findIn k ((k', a') :: rest) = some a) : compare k k' ≠ .lt := by
  intro hlt
  have hnone : findIn k ((k', a') :: rest) = none := findIn_eq_none_of_lt fun p hp => by
    rcases List.mem_cons.1 hp with rfl | hp
    · exact hlt
    · exact TransCmp.lt_trans hlt ((List.pairwise_cons.1 hsorted).1 p hp)
  simp [hnone] at h

/-- Behind the first pair there is nothing under its key, and what there was under any other. -/
theorem findIn_tail [TransOrd κ] [LawfulEqOrd κ] {k : κ} {a : α} {rest : List (κ × α)}
    (hsorted : ((k, a) :: rest).Pairwise fun p q => compare p.1 q.1 = .lt) (k' : κ) :
    findIn k' rest = if compare k' k = .eq then none else findIn k' ((k, a) :: rest) := by
  cases hc : compare k' k with
  | eq =>
    cases LawfulEqOrd.eq_of_compare hc
    exact findIn_eq_none_of_lt (List.pairwise_cons.1 hsorted).1
  | lt => simp [findIn, hc]
  | gt => simp [findIn, hc]

/-- Sorted pairs are determined by what is found in them. -/
theorem eq_of_findIn [TransOrd κ] [LawfulEqOrd κ] {ps qs : List (κ × α)}
    (hps : ps.Pairwise fun p q => compare p.1 q.1 = .lt) (hqs : qs.Pairwise fun p q => compare p.1 q.1 = .lt)
    (h : ∀ k, findIn k ps = findIn k qs) : ps = qs := by
  induction ps generalizing qs with
  | nil =>
    cases qs with
    | nil => rfl
    | cons q qs => cases (h q.1).trans (findIn_cons_self q.1 q.2 qs)
  | cons p ps ih =>
    cases qs with
    | nil => cases (findIn_cons_self p.1 p.2 ps).symm.trans (h p.1)
    | cons q qs =>
      obtain ⟨kp, ap⟩ := p
      obtain ⟨kq, aq⟩ := q
      have hp : findIn kp ((kq, aq) :: qs) = some ap := (h kp).symm.trans (findIn_cons_self kp ap ps)
      have hq : findIn kq ((kp, ap) :: ps) = some aq := (h kq).trans (findIn_cons_self kq aq qs)
      -- either first key is found on the other side, so neither is below the other
      have hkey : compare kp kq = .eq := by
        cases hc : compare kp kq with
        | eq => rfl
        | lt => exact absurd hc (not_lt_of_findIn hqs hp)
        | gt => exact absurd (OrientedCmp.lt_of_gt hc) (not_lt_of_findIn hps hq)
      cases LawfulEqOrd.eq_of_compare hkey
      cases hp.symm.trans (findIn_cons_self kp aq qs)
      have htails : ∀ k, findIn k ps = findIn k qs := by
        intro k
        rw [findIn_tail hps, findIn_tail hqs, h]
      rw [ih (List.pairwise_cons.1 hps).2 (List.pairwise_cons.1 hqs).2 htails]

/-! ## On maps -/

/-- The map without keys. -/
def empty : SortedMap κ α :=
  ⟨[], .nil⟩

/-- The number of keys. -/
def size (m : SortedMap κ α) : Nat :=
  m.pairs.length

/-- The value of a key. -/
def find? (m : SortedMap κ α) (k : κ) : Option α :=
  findIn k m.pairs

/-- The map with a key set to a value. -/
def insert [TransOrd κ] [LawfulEqOrd κ] (m : SortedMap κ α) (k : κ) (a : α) : SortedMap κ α :=
  ⟨insertIn k a m.pairs, sorted_insertIn k a m.sorted⟩

/-- The map without a key. -/
def erase (m : SortedMap κ α) (k : κ) : SortedMap κ α :=
  ⟨eraseIn k m.pairs, m.sorted.filter _⟩

/-- After an insertion the key has the new value, and every other key has its old one. -/
theorem find?_insert [TransOrd κ] [LawfulEqOrd κ] (m : SortedMap κ α) (k : κ) (a : α) (k' : κ) :
    (m.insert k a).find? k' = if compare k' k = .eq then some a else m.find? k' := by
  obtain ⟨pairs, sorted⟩ := m
  show findIn k' (insertIn k a pairs) = if compare k' k = .eq then some a else findIn k' pairs
  clear sorted
  induction pairs with
  | nil =>
    simp only [insertIn, findIn]
    cases compare k' k <;> simp
  | cons hd tl ih =>
    obtain ⟨k₁, a₁⟩ := hd
    simp only [insertIn]
    split
    case h_1 =>
      simp only [findIn]
      cases compare k' k <;> simp
    case h_2 heq =>
      cases LawfulEqOrd.eq_of_compare heq
      simp only [findIn]
      cases compare k' k <;> simp
    case h_3 hgt =>
      simp only [findIn, ih]
      cases h : compare k' k₁ <;> simp only
      cases LawfulEqOrd.eq_of_compare h
      rw [OrientedCmp.lt_of_gt hgt]
      simp

/-- After an erasure the key has no value, and every other key has its old one. -/
theorem find?_erase [TransOrd κ] [LawfulEqOrd κ] (m : SortedMap κ α) (k k' : κ) :
    (m.erase k).find? k' = if compare k' k = .eq then none else m.find? k' := by
  obtain ⟨pairs, sorted⟩ := m
  show findIn k' (eraseIn k pairs) = if compare k' k = .eq then none else findIn k' pairs
  clear sorted
  induction pairs with
  | nil => simp [eraseIn, findIn]
  | cons hd tl ih =>
    obtain ⟨k₁, a₁⟩ := hd
    by_cases h : compare k k₁ = .eq
    · cases LawfulEqOrd.eq_of_compare h
      have : eraseIn k ((k, a₁) :: tl) = eraseIn k tl := by simp [eraseIn, ReflCmp.compare_self]
      rw [this, ih]
      simp only [findIn]
      cases compare k' k <;> simp
    · have : eraseIn k ((k₁, a₁) :: tl) = (k₁, a₁) :: eraseIn k tl := by simp [eraseIn, h]
      rw [this]
      simp only [findIn, ih]
      cases h' : compare k' k₁ <;> simp only
      cases LawfulEqOrd.eq_of_compare h'
      have hne : compare k' k ≠ .eq := fun he => h (LawfulEqOrd.eq_of_compare he ▸ ReflCmp.compare_self)
      simp [hne]

/-- Maps with the same look-ups are equal. -/
theorem ext [TransOrd κ] [LawfulEqOrd κ] {m n : SortedMap κ α} (h : ∀ k, m.find? k = n.find? k) : m = n := by
  obtain ⟨ps, hps⟩ := m
  obtain ⟨qs, hqs⟩ := n
  cases eq_of_findIn hps hqs h
  rfl

end SortedMap

end VersionedTree

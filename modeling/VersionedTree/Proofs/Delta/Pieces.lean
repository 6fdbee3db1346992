import VersionedTree.Proofs.Delta.Positions

/-!
# Pieces — what the operations of a delta come to

A delta may come from anywhere, so its copies may reach beyond the source. Applying it gives the pieces of all
operations, one after the other, if no copy does, and otherwise names the first copy that does. The numbers of a copy
have 64 bits, so the end of its range may be too great for a word; such a copy is refused like any other that reaches
too far.

* **`Inside`** — no copy reaches beyond the source. **`apply_of_inside`** and **`apply_of_outside`** — what comes of
  a delta if that is so, and if it is not.
* **`applyWords_eq`** — with numbers of 64 bits, a sum that may overflow and a slice that may be out of range make no
  difference.
* **`wordLength?_eq`** — the length of the target in 64 bits.
* **`pieces_applied`** — the theorem.
-/

namespace VersionedTree.Delta

/-! ## Copies inside and outside -/

/-- The bytes that an operation stands for. -/
def Op.piece (source : Bytes) : Op → Bytes
  | copy offset length => (source.drop offset).take length
  | insert data => data

/-- True if no copy reaches beyond the source. -/
def Inside (source : Bytes) (ops : List Op) : Prop :=
  ∀ offset length, .copy offset length ∈ ops → offset + length ≤ source.length

/-- True if the first copy that reaches beyond the source is this one. -/
def FirstOutside (source : Bytes) (ops : List Op) (offset length : Nat) : Prop :=
  ∃ before after, ops = before ++ .copy offset length :: after ∧ Inside source before ∧
    source.length < offset + length

variable {source : Bytes} {ops : List Op} {offset length : Nat}

/-- No operations stay inside any source. -/
theorem inside_nil : Inside source [] :=
  fun _ _ h => nomatch h

/-- What stays inside does so without its first operation. -/
theorem Inside.tail {op : Op} (h : Inside source (op :: ops)) : Inside source ops :=
  fun offset length hop => h offset length (List.mem_cons_of_mem _ hop)

/-- **A DELTA WITHOUT SUCH A COPY** gives all its pieces, in order. -/
theorem apply_of_inside (h : Inside source ops) : apply source ops = .ok (ops.flatMap (Op.piece source)) := by
  induction ops with
  | nil => rfl
  | cons op ops ih =>
    have hop : op.apply source = .ok (op.piece source) := by
      cases op with
      | copy offset length => exact if_pos (h offset length List.mem_cons_self)
      | insert data => rfl
    exact apply_cons hop (ih h.tail)

/-- **THE FIRST COPY THAT REACHES TOO FAR** is the failure, whatever follows it. -/
theorem apply_of_outside (h : FirstOutside source ops offset length) :
    apply source ops = .error ⟨offset, length, source.length⟩ := by
  obtain ⟨before, after, rfl, hbefore, hlt⟩ := h
  have hcopy : (Op.copy offset length).apply source = .error ⟨offset, length, source.length⟩ :=
    if_neg (Nat.not_le.2 hlt)
  rw [apply_append_eq, apply_of_inside hbefore, apply, hcopy]
  rfl

/-- In every delta that is not inside there is a first such copy. -/
theorem inside_or_firstOutside (source : Bytes) (ops : List Op) :
    Inside source ops ∨ ∃ offset length, FirstOutside source ops offset length := by
  induction ops with
  | nil => exact .inl inside_nil
  | cons op ops ih =>
    by_cases hop : ∀ offset length, op = .copy offset length → offset + length ≤ source.length
    case pos =>
      -- this holds of what is left, and of what is in front of a copy further on
      have hcons : ∀ {rest}, Inside source rest → Inside source (op :: rest) := by
        intro rest hrest offset length hmem
        rcases List.mem_cons.1 hmem with heq | hmem
        · exact hop offset length heq.symm
        · exact hrest offset length hmem
      rcases ih with hinside | ⟨offset, length, before, after, rfl, hbefore, hlt⟩
      · exact .inl (hcons hinside)
      · exact .inr ⟨offset, length, op :: before, after, rfl, hcons hbefore, hlt⟩
    case neg =>
      simp only [Classical.not_forall, exists_prop, Nat.not_le] at hop
      obtain ⟨offset, length, rfl, hlt⟩ := hop
      exact .inr ⟨offset, length, [], ops, rfl, inside_nil, hlt⟩

/-- Operations make something just if all copies stay inside. -/
theorem exists_apply_iff : (∃ target, apply source ops = .ok target) ↔ Inside source ops := by
  constructor
  · rintro ⟨target, htarget⟩ offset length hop
    exact copy_le_of_apply htarget hop
  · intro h
    exact ⟨_, apply_of_inside h⟩

/-- The error is that of the first copy outside. -/
theorem apply_eq_error_iff {e : OutOfBounds} : apply source ops = .error e ↔
    ∃ offset length, FirstOutside source ops offset length ∧ e = ⟨offset, length, source.length⟩ := by
  constructor
  · intro h
    rcases inside_or_firstOutside source ops with hinside | ⟨offset, length, hfirst⟩
    · cases h.symm.trans (apply_of_inside hinside)
    · exact ⟨offset, length, hfirst, Except.error.inj (h.symm.trans (apply_of_outside hfirst))⟩
  · rintro ⟨offset, length, hfirst, rfl⟩
    exact apply_of_outside hfirst

/-! ## Words -/

/-- Words add up as numbers do, unless they wrap around. -/
theorem toNat_plus {a b : UInt64} (h : a.toNat + b.toNat < UInt64.size) : (a + b).toNat = a.toNat + b.toNat := by
  rw [UInt64.toNat_add]
  exact Nat.mod_eq_of_lt h

/-- **NO COPY IS TAKEN FOR ANOTHER** because its numbers are great: a sum that overflows is beyond every source. -/
theorem WordOp.piece?_eq (h : source.length < UInt64.size) (op : WordOp) : op.piece? source = op.op.apply source := by
  cases op with
  | insert data => rfl
  | copy offset length =>
    rw [piece?, WordOp.op, Op.apply]
    by_cases hle : offset.toNat + length.toNat ≤ source.length
    case pos =>
      have hsum : offset.toNat + length.toNat < UInt64.size := Nat.lt_of_le_of_lt hle h
      have hslice : slice? source offset.toNat (offset + length).toNat =
          some ((source.drop offset.toNat).take length.toNat) := by
        rw [toNat_plus hsum, slice?_eq (Nat.le_add_right _ _) hle, List.drop_take, Nat.add_sub_cancel_left]
      rw [plus?, if_pos hsum, Option.bind_some, hslice, if_pos hle]
    case neg =>
      -- the sum may fit a word and be too great all the same
      have hnone : ((plus? offset length).bind fun stop => slice? source offset.toNat stop.toNat) = none := by
        by_cases hsum : offset.toNat + length.toNat < UInt64.size
        · rw [plus?, if_pos hsum, Option.bind_some, toNat_plus hsum]
          exact if_neg fun hrange => hle hrange.2
        · rw [plus?, if_neg hsum]
          rfl
      rw [hnone, if_neg hle]

/-- What is put behind the target so far is what the operations produce. -/
theorem extendWords_eq (h : source.length < UInt64.size) (target : Bytes) (ops : List WordOp) :
    extendWords source target ops = (apply source (ops.map WordOp.op)).map (target ++ ·) := by
  -- the target grows at its end, so the induction is for any target so far
  induction ops generalizing target with
  | nil => exact congrArg Except.ok (List.append_nil target).symm
  | cons op ops ih =>
    rw [extendWords, List.foldlM_cons, WordOp.piece?_eq h, List.map_cons, apply]
    cases op.op.apply source with
    | error e => rfl
    | ok piece =>
      refine (ih (target ++ piece)).trans ?_
      cases apply source (ops.map WordOp.op) with
      | error e => rfl
      | ok rest => exact congrArg Except.ok (List.append_assoc target piece rest)

/-- Operations on words make what they make on numbers, if the source has an address for each byte. -/
theorem applyWords_eq (h : source.length < UInt64.size) (ops : List WordOp) :
    applyWords source ops = apply source (ops.map WordOp.op) := by
  rw [applyWords, extendWords_eq h]
  cases apply source (ops.map WordOp.op) <;> rfl

/-- What an operation puts out has its length as a word, if it fits. -/
theorem WordOp.toNat_outputLength {op : WordOp} (h : op.op.outputLength < UInt64.size) :
    op.outputLength.toNat = op.op.outputLength := by
  cases op with
  | copy offset length => rfl
  | insert data => exact UInt64.toNat_ofNat_of_lt' h

/-- Lengths add up in words as they do in numbers, if their sum fits. -/
theorem countWords?_eq {total : UInt64} {ops : List WordOp}
    (h : total.toNat + targetLength (ops.map WordOp.op) < UInt64.size) :
    countWords? total ops = some (UInt64.ofNat (total.toNat + targetLength (ops.map WordOp.op))) := by
  induction ops generalizing total with
  | nil => exact congrArg some (UInt64.ofNat_toNat).symm
  | cons op ops ih =>
    rw [List.map_cons, targetLength] at h ⊢
    have hlength : op.outputLength.toNat = op.op.outputLength := WordOp.toNat_outputLength (by omega)
    have hsum : total.toNat + op.outputLength.toNat < UInt64.size := by omega
    have htotal : (total + op.outputLength).toNat = total.toNat + op.op.outputLength := by
      rw [toNat_plus hsum, hlength]
    rw [countWords?, List.foldlM_cons, plus?, if_pos hsum, ← Nat.add_assoc, ← htotal]
    exact ih (by omega)

/-- **THE LENGTH OF A TARGET** that fits a word is counted without overflow. -/
theorem wordLength?_eq {ops : List WordOp} (h : targetLength (ops.map WordOp.op) < UInt64.size) :
    wordLength? ops = some (UInt64.ofNat (targetLength (ops.map WordOp.op))) := by
  have hzero : (0 : UInt64).toNat + targetLength (ops.map WordOp.op) = targetLength (ops.map WordOp.op) := Nat.zero_add _
  have hcount := countWords?_eq (hzero.symm ▸ h)
  rwa [hzero] at hcount

/-- **PIECES ARE APPLIED, OR THE FIRST COPY OUTSIDE IS NAMED.** (a) A delta can be applied if and only if no copy in it
    reaches beyond the source. The target then is all pieces in order, and has the length that the delta counts.
    (b) Otherwise the first such copy is named. (c) Two deltas, one after the other, give both targets, one after the
    other, or the first failure. (d) With numbers of 64 bits, sums that may overflow and slices that may be out of range,
    a delta comes to the same, and the length of a target that has room in memory is counted without overflow. -/
theorem pieces_applied (source : Bytes) :
    (∀ ops, (∃ target, apply source ops = .ok target) ↔
      ∀ offset length, .copy offset length ∈ ops → offset + length ≤ source.length) ∧
    (∀ ops target, apply source ops = .ok target →
      target = ops.flatMap (Op.piece source) ∧ target.length = targetLength ops) ∧
    (∀ ops e, apply source ops = .error e ↔
      ∃ offset length, FirstOutside source ops offset length ∧ e = ⟨offset, length, source.length⟩) ∧
    (∀ ops more, apply source (ops ++ more) = do return (← apply source ops) ++ (← apply source more)) ∧
    (source.length < UInt64.size → ∀ ops : List WordOp,
      applyWords source ops = apply source (ops.map WordOp.op) ∧
      ∀ target, applyWords source ops = .ok target → target.length < UInt64.size →
        wordLength? ops = some (UInt64.ofNat target.length)) := by
  refine ⟨fun ops => exists_apply_iff, ?_, fun ops e => apply_eq_error_iff, apply_append_eq source, ?_⟩
  · intro ops target h
    refine ⟨?_, (length_of_apply h).symm⟩
    exact Except.ok.inj (h.symm.trans (apply_of_inside (exists_apply_iff.1 ⟨target, h⟩)))
  · intro hsource ops
    refine ⟨applyWords_eq hsource ops, fun target htarget hlt => ?_⟩
    rw [applyWords_eq hsource] at htarget
    -- the words add up without overflow, since the target itself has a length that is a word
    rw [← length_of_apply htarget] at hlt ⊢
    exact wordLength?_eq hlt

namespace Sample

/-- Three bytes. -/
def bytes : Bytes :=
  [1, 2, 3]

/-- An empty copy from the end of the source is inside. -/
def reachingEnd : List WordOp :=
  [.copy 1 2, .insert [9], .copy 3 0]

/-- The end of the first copy does not fit a word, and a second one starts behind the source. -/
def reachingBeyond : List WordOp :=
  [.insert [9], .copy 18446744073709551615 2, .copy 4 0]

/-- What the empty copy leaves as it is, and what is said about the copy that overflows. -/
theorem overflowing_copy_refused :
    (applyWords bytes reachingEnd = .ok [2, 3, 9] ∧
      (reachingEnd.map WordOp.op).flatMap (Op.piece bytes) = [2, 3, 9] ∧ wordLength? reachingEnd = some 3) ∧
    (FirstOutside bytes (reachingBeyond.map WordOp.op) 18446744073709551615 2 ∧
      applyWords bytes reachingBeyond = .error ⟨18446744073709551615, 2, 3⟩) := by
  have hsource : bytes.length < UInt64.size := by decide
  have hend : apply bytes (reachingEnd.map WordOp.op) = .ok [2, 3, 9] := rfl
  have hfirst : FirstOutside bytes (reachingBeyond.map WordOp.op) 18446744073709551615 2 :=
    ⟨[.insert [9]], [.copy 4 0], rfl, by simp [Inside], by decide⟩
  obtain ⟨-, hpieces, herror, -, hwords⟩ := pieces_applied bytes
  obtain ⟨hinside, hlength⟩ := hwords hsource reachingEnd
  have hbeyond := (herror _ _).2 ⟨_, _, hfirst, rfl⟩
  refine ⟨⟨hinside.trans hend, ?_, hlength _ (hinside.trans hend) (by decide)⟩, hfirst, ?_⟩
  · exact (hpieces _ _ hend).1.symm
  · exact (hwords hsource reachingBeyond).1.trans hbeyond

end Sample

end VersionedTree.Delta

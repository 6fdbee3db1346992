import VersionedTree.Delta.Matcher

/-!
# Round trip — a delta rebuilds its target

What the walk of the matcher emits rebuilds the waiting bytes and the rest of the target, from any state of the walk.

* **`Match.apply_op`** — the copy of a verified match produces the waiting bytes that it takes back and the bytes that
  it covers from the position on.
* **`apply_scan`** — the invariant of the walk: whatever the table and the checksum say, the operations produce the
  waiting bytes and then the rest.
* **`rebuild_deltaOf`** — in memory the delta of a byte string that fits it is never refused.
-/

namespace VersionedTree

/-! ## How far two byte strings agree -/

/-- Texts agree on no more than there is of the first. -/
theorem agreement_le_left : ∀ xs ys : Bytes, agreement xs ys ≤ xs.length
  | [], _ => Nat.zero_le _
  | _ :: _, [] => Nat.zero_le _
  | x :: xs, y :: ys => by
    have ih := agreement_le_left xs ys
    simp only [agreement, List.length_cons]
    split <;> omega

/-- Texts agree on no more than there is of the second. -/
theorem agreement_le_right : ∀ xs ys : Bytes, agreement xs ys ≤ ys.length
  | [], _ => Nat.zero_le _
  | _ :: _, [] => Nat.zero_le _
  | x :: xs, y :: ys => by
    have ih := agreement_le_right xs ys
    simp only [agreement, List.length_cons]
    split <;> omega

/-- Two byte strings have the same first bytes as far as they agree. -/
theorem take_agreement : ∀ xs ys : Bytes, xs.take (agreement xs ys) = ys.take (agreement xs ys)
  | [], ys => by simp [agreement]
  | x :: xs, [] => by simp [agreement]
  | x :: xs, y :: ys => by
    have ih := take_agreement xs ys
    by_cases h : x = y
    · rw [agreement, if_pos h, List.take_succ_cons, List.take_succ_cons, ih, h]
    · rw [agreement, if_neg h, List.take_zero, List.take_zero]

namespace Delta

/-! ## Applying one operation after the other -/

/-- A piece comes before what the other operations make. -/
theorem apply_cons {source piece rest : Bytes} {op : Op} {ops : List Op} (h : op.apply source = .ok piece)
    (hs : apply source ops = .ok rest) : apply source (op :: ops) = .ok (piece ++ rest) := by
  rw [apply, h, hs]
  rfl

/-- A delta that can be applied is applied operation by operation. -/
theorem exists_of_apply_cons {source target : Bytes} {op : Op} {ops : List Op}
    (h : apply source (op :: ops) = .ok target) :
    ∃ piece rest, op.apply source = .ok piece ∧ apply source ops = .ok rest ∧ target = piece ++ rest := by
  rw [apply] at h
  cases hop : op.apply source with
  | error e =>
    rw [hop] at h
    exact nomatch h
  | ok piece =>
    rw [hop] at h
    cases hops : apply source ops with
    | error e =>
      rw [hops] at h
      exact nomatch h
    | ok rest =>
      rw [hops] at h
      cases h
      exact ⟨piece, rest, rfl, rfl, rfl⟩

/-- Deltas can be put one after the other: their targets follow each other, and it is the first one that fails whose
    failure is seen. -/
theorem apply_append_eq (source : Bytes) (ops more : List Op) :
    apply source (ops ++ more) = do return (← apply source ops) ++ (← apply source more) := by
  induction ops with
  | nil =>
    rw [List.nil_append, apply]
    cases apply source more <;> rfl
  | cons op ops ih =>
    rw [List.cons_append, apply, apply, ih]
    cases op.apply source with
    | error e => rfl
    | ok piece =>
      cases apply source ops with
      | error e => rfl
      | ok rest =>
        cases apply source more with
        | error e => rfl
        | ok target => exact congrArg Except.ok (List.append_assoc piece rest target).symm

/-- What operations make comes before what more of them make. -/
theorem apply_append {source first rest : Bytes} {ops more : List Op} (h : apply source ops = .ok first)
    (hs : apply source more = .ok rest) : apply source (ops ++ more) = .ok (first ++ rest) := by
  rw [apply_append_eq, h, hs]
  rfl

/-- Waiting bytes are put in as they are. -/
theorem apply_flush (source pending : Bytes) : apply source (flush pending) = .ok pending.reverse := by
  by_cases h : pending = []
  · rw [flush, if_pos h, h]
    rfl
  · rw [flush, if_neg h]
    show Except.ok (pending.reverse ++ []) = _
    rw [List.append_nil]

/-- An operation makes as many bytes as it says. -/
theorem Op.length_of_apply {source piece : Bytes} {op : Op} (h : op.apply source = .ok piece) :
    op.outputLength = piece.length := by
  cases op with
  | insert data =>
    cases h
    rfl
  | copy offset length =>
    rw [Op.apply] at h
    split at h
    case isTrue hle =>
      cases h
      rw [List.length_take, List.length_drop, Op.outputLength]
      omega
    case isFalse => cases h

/-- A delta that can be applied has the length it counts. -/
theorem length_of_apply {source target : Bytes} {ops : List Op} (h : apply source ops = .ok target) :
    targetLength ops = target.length := by
  induction ops generalizing target with
  | nil =>
    cases h
    rfl
  | cons op ops ih =>
    obtain ⟨piece, rest, hop, hops, rfl⟩ := exists_of_apply_cons h
    rw [targetLength, List.length_append, Op.length_of_apply hop, ih hops]

/-- The copies of a delta that can be applied are inside the source. -/
theorem copy_le_of_apply {source target : Bytes} {ops : List Op} (h : apply source ops = .ok target) {offset length : Nat}
    (hcopy : .copy offset length ∈ ops) : offset + length ≤ source.length := by
  induction ops generalizing target with
  | nil => exact nomatch hcopy
  | cons op ops ih =>
    obtain ⟨piece, rest, hop, hops, -⟩ := exists_of_apply_cons h
    rcases List.mem_cons.1 hcopy with rfl | hcopy
    · rw [Op.apply] at hop
      split at hop
      case isTrue hle => exact hle
      case isFalse => exact nomatch hop
    · exact ih hops hcopy

/-! ## Running a delta -/

section Rebuild

variable {source target : Bytes} {ops : List Op}

/-- A delta that asks for no more memory than there can be runs as it is applied. -/
theorem rebuild_of_le (h : targetLength ops ≤ maxLength) : rebuild source ops = (apply source ops).mapError .outOfBounds :=
  if_pos h

/-- A delta that asks for more stops before its first operation. -/
theorem rebuild_of_gt (h : maxLength < targetLength ops) : rebuild source ops = .error (.tooLong (targetLength ops)) :=
  if_neg (Nat.not_le.2 h)

/-- A delta that can be applied runs, if its target fits memory. -/
theorem rebuild_of_apply (h : apply source ops = .ok target) (hlength : target.length ≤ maxLength) :
    rebuild source ops = .ok target := by
  rw [rebuild_of_le (length_of_apply h ▸ hlength), h]
  rfl

/-- What a delta rebuilds is what it produces when it is applied. -/
theorem apply_of_rebuild (h : rebuild source ops = .ok target) : apply source ops = .ok target := by
  rcases Nat.lt_or_ge maxLength (targetLength ops) with hgt | hle
  · exact nomatch (rebuild_of_gt hgt).symm.trans h
  · rw [rebuild_of_le hle] at h
    cases happly : apply source ops with
    | error cause =>
      rw [happly] at h
      exact nomatch h
    | ok data =>
      rw [happly] at h
      cases h
      rfl

end Rebuild

/-! ## Matches -/

/-- The bytes before a position, read backwards as far as they agree with the waiting ones, stand in front of it. -/
theorem take_drop_backward {source pending : Bytes} {offset : Nat} (h : offset ≤ source.length) :
    (source.drop (offset - agreement (source.take offset).reverse pending)).take
        (agreement (source.take offset).reverse pending) =
      (pending.take (agreement (source.take offset).reverse pending)).reverse := by
  have hlength : (source.take offset).length = offset := List.length_take_of_le h
  have hle := agreement_le_left (source.take offset).reverse pending
  have htake := take_agreement (source.take offset).reverse pending
  rw [List.length_reverse, hlength] at hle
  generalize agreement (source.take offset).reverse pending = k at hle htake ⊢
  rw [← htake, List.reverse_take, List.reverse_reverse, List.length_reverse, hlength, List.drop_take]
  congr 1
  omega

/-- **THE COPY OF A MATCH** produces the waiting bytes that it takes back, and the bytes of the target that it covers. -/
theorem Match.apply_op {source : Bytes} {offset : Nat} {pending rest : Bytes} {m : Match}
    (h : Match.at? source offset pending rest = some m) :
    m.op.apply source = .ok ((pending.take m.backward).reverse ++ rest.take m.forward) := by
  rw [Match.at?, blockAt] at h
  split at h
  case isFalse => exact nomatch h
  case isTrue hblock =>
    cases h
    -- the block has a byte at least, so its offset is inside the source
    have hlt : offset < source.length := by
      rcases Nat.lt_or_ge offset source.length with hlt | hge
      · exact hlt
      · exact absurd (by rw [List.drop_eq_nil_of_le hge, List.take_nil]) hblock.1
    have hback := agreement_le_left (source.take offset).reverse pending
    have hforward := agreement_le_left (source.drop offset) rest
    have hlength : (source.take offset).length = offset := List.length_take_of_le (Nat.le_of_lt hlt)
    rw [List.length_reverse, hlength] at hback
    rw [List.length_drop] at hforward
    show Op.apply source (.copy (offset - agreement (source.take offset).reverse pending)
      (agreement (source.take offset).reverse pending + agreement (source.drop offset) rest)) = _
    rw [Op.apply, if_pos (by omega), List.take_add, List.drop_drop, take_drop_backward (Nat.le_of_lt hlt),
      Nat.sub_add_cancel hback, take_agreement (source.drop offset)]
    rfl

/-- A match copies the bytes that it takes back, and those in front of it. -/
theorem apply_op_of_findMatch {source : Bytes} {table : BlockTable} {sum : Checksum} {pending rest : Bytes} {m : Match}
    (h : findMatch source table sum pending rest = some m) :
    m.op.apply source = .ok ((pending.take m.backward).reverse ++ rest.take m.forward) := by
  obtain ⟨offset, -, hm⟩ := Option.bind_eq_some_iff.1 h
  exact Match.apply_op hm

/-! ## The walk -/

/-- **THE INVARIANT OF THE WALK**: what it emits from any state on produces the waiting bytes and the rest. -/
theorem apply_scan (source : Bytes) (table : BlockTable) (sum : Checksum) (pending rest : Bytes) :
    apply source (scan source table sum pending rest) = .ok (pending.reverse ++ rest) := by
  fun_induction scan source table sum pending rest with
  | case1 sum pending =>
    rw [List.append_nil]
    exact apply_flush source pending
  | case2 sum pending c cs hnone ih =>
    rw [ih, List.reverse_cons, List.append_assoc]
    rfl
  | case3 sum pending c cs m hsome ih =>
    -- the bytes that a match takes back are the latest waiting ones, so the insert before it loses exactly these
    have hcopy := apply_op_of_findMatch hsome
    have hpending : (pending.drop m.backward).reverse ++ (pending.take m.backward).reverse = pending.reverse := by
      rw [← List.reverse_append, List.take_append_drop]
    refine (apply_append (apply_flush source _) (apply_cons hcopy ih)).trans ?_
    rw [List.reverse_nil, List.nil_append, List.append_assoc, List.take_append_drop, ← List.append_assoc, hpending]

/-- The delta between two byte strings rebuilds the second one from the first one. -/
theorem apply_deltaOf (source target : Bytes) : apply source (deltaOf source target) = .ok target := by
  have hinsert : apply source (flush target.reverse) = .ok target := by
    rw [apply_flush, List.reverse_reverse]
  by_cases hs : source = []
  · rw [deltaOf, matchBlocks, if_pos hs]
    exact hinsert
  · by_cases ht : target.length < blockSize
    · rw [deltaOf, matchBlocks, if_neg hs, if_pos ht]
      exact hinsert
    · rw [deltaOf, matchBlocks, if_neg hs, if_neg ht]
      exact apply_scan source _ _ [] target

/-- It does so in memory, for any byte string that fits it. -/
theorem rebuild_deltaOf (source : Bytes) {target : Bytes} (h : target.length ≤ maxLength) :
    rebuild source (deltaOf source target) = .ok target :=
  rebuild_of_apply (apply_deltaOf source target) h

end Delta

end VersionedTree

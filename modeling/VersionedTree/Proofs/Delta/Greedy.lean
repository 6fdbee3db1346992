import Mathlib.Data.List.Chain
import VersionedTree.Proofs.Delta.PlainScan

/-!
# Greedy deltas — copies that cannot be longer

A delta is worth its name only if it copies as much as it can. What the walk of the matcher emits is fixed by this: bytes
that were not found are inserted, and what was found is copied as far as source and target agree, in both directions.

* **`agreement_stops`** — two byte strings that agree no further have ended, or differ there.
* **`MaximalCopy`** — a copy that holds a whole block of the source and cannot be extended.
* **`Greedy`** — inserts and maximal copies by turns, up to the end of the target. The plain scan emits nothing else
  (**`greedy_plainScan`**), so no delta is anything else (**`greedy_deltaOf`**).
* **`deltaOf_shape`** — what that means for the list of operations.
-/

namespace VersionedTree

/-! ## Where agreement ends -/

/-- Two byte strings have different bytes at two positions, both of which are inside. -/
def DifferAt (xs ys : Bytes) (i j : Nat) : Prop :=
  ∃ x y, xs[i]? = some x ∧ ys[j]? = some y ∧ x ≠ y

/-- **AGREEMENT STOPS** at the end of one of the byte strings, or where they differ. -/
theorem agreement_stops : ∀ xs ys : Bytes, agreement xs ys = xs.length ∨ agreement xs ys = ys.length ∨
    DifferAt xs ys (agreement xs ys) (agreement xs ys)
  | [], _ => .inl rfl
  | _ :: _, [] => .inr (.inl rfl)
  | x :: xs, y :: ys => by
    by_cases h : x = y
    · rw [agreement, if_pos h]
      rcases agreement_stops xs ys with hx | hy | hdiffer
      · exact .inl (congrArg (· + 1) hx)
      · exact .inr (.inl (congrArg (· + 1) hy))
      · exact .inr (.inr hdiffer)
    · rw [agreement, if_neg h]
      exact .inr (.inr ⟨x, y, rfl, rfl, h⟩)

/-- Byte strings with a common beginning agree on all of it. -/
theorem length_le_agreement {common xs ys : Bytes} (hx : common <+: xs) (hy : common <+: ys) :
    common.length ≤ agreement xs ys := by
  obtain ⟨xs, rfl⟩ := hx
  obtain ⟨ys, rfl⟩ := hy
  rw [Delta.agreement_append]
  exact Nat.le_add_right _ _

/-- Where the rest of two texts differ, the texts do, further on. -/
theorem DifferAt.of_drop {xs ys : Bytes} {i j m n : Nat} (h : DifferAt (xs.drop i) (ys.drop j) m n) :
    DifferAt xs ys (i + m) (j + n) := by
  obtain ⟨x, y, hx, hy, hne⟩ := h
  rw [List.getElem?_drop] at hx hy
  exact ⟨x, y, hx, hy, hne⟩

/-- The bytes between two positions, read backwards. -/
theorem getElem?_reverse_drop_take {data : Bytes} {i j k : Nat} (hj : j ≤ data.length) (hk : k < j - i) :
    ((data.take j).drop i).reverse[k]? = data[j - k - 1]? := by
  have hlength : ((data.take j).drop i).length = j - i := by
    rw [List.length_drop, List.length_take_of_le hj]
  rw [List.getElem?_reverse (by omega), hlength, List.getElem?_drop, List.getElem?_take, if_pos (by omega)]
  congr 1
  omega

/-- Bytes that differ, counted backwards from two positions. -/
theorem DifferAt.of_reverse {xs ys : Bytes} {i j start k : Nat} (hi : i ≤ xs.length) (hj : j ≤ ys.length)
    (h : DifferAt (xs.take i).reverse ((ys.take j).drop start).reverse k k) :
    DifferAt xs ys (i - k - 1) (j - k - 1) := by
  obtain ⟨x, y, hx, hy, hne⟩ := h
  have hki := (List.getElem?_eq_some_iff.1 hx).1
  have hkj := (List.getElem?_eq_some_iff.1 hy).1
  rw [List.length_reverse, List.length_take_of_le hi] at hki
  rw [List.length_reverse, List.length_drop, List.length_take_of_le hj] at hkj
  have hback := getElem?_reverse_drop_take (i := 0) hi hki
  rw [List.drop_zero] at hback
  rw [hback] at hx
  rw [getElem?_reverse_drop_take hj hkj] at hy
  exact ⟨x, y, hx, hy, hne⟩

/-- Read on from two positions, byte strings agree up to an end or up to a difference. -/
theorem agreement_drop_stops {xs ys : Bytes} {i j : Nat} (hi : i ≤ xs.length) (hj : j ≤ ys.length) :
    i + agreement (xs.drop i) (ys.drop j) = xs.length ∨ j + agreement (xs.drop i) (ys.drop j) = ys.length ∨
      DifferAt xs ys (i + agreement (xs.drop i) (ys.drop j)) (j + agreement (xs.drop i) (ys.drop j)) := by
  rcases agreement_stops (xs.drop i) (ys.drop j) with hx | hy | hdiffer
  · rw [List.length_drop] at hx
    exact .inl (by omega)
  · rw [List.length_drop] at hy
    exact .inr (.inl (by omega))
  · exact .inr (.inr hdiffer.of_drop)

/-- Read backwards from two positions, in one of them not beyond `start`, they do so, too. -/
theorem agreement_reverse_stops {xs ys : Bytes} {i j start k : Nat} (hi : i ≤ xs.length) (hj : j ≤ ys.length)
    (hk : agreement (xs.take i).reverse ((ys.take j).drop start).reverse = k) :
    k = i ∨ k = j - start ∨ DifferAt xs ys (i - k - 1) (j - k - 1) := by
  have hstops := agreement_stops (xs.take i).reverse ((ys.take j).drop start).reverse
  rw [hk, List.length_reverse, List.length_take_of_le hi, List.length_reverse, List.length_drop,
    List.length_take_of_le hj] at hstops
  exact hstops.imp_right fun h => h.imp_right fun hdiffer => hdiffer.of_reverse hi hj

namespace Delta

/-! ## Copies -/

/-- A copy of `length` bytes from `offset` of the source, which makes the target from `position` on and which cannot be
    longer. `inserted` says that the bytes right before it are inserted, and not copied by another operation. -/
structure MaximalCopy (source target : Bytes) (inserted : Prop) (position offset length : Nat) : Prop where
  inside : offset + length ≤ source.length
  within : position + length ≤ target.length
  same : (source.drop offset).take length = (target.drop position).take length
  /-- It holds a whole block of the source. The last block may be short. -/
  block : ∃ block, blockSize ∣ block ∧ block < source.length ∧ offset ≤ block ∧
    min (block + blockSize) source.length ≤ offset + length
  forward : offset + length = source.length ∨ position + length = target.length ∨
    DifferAt source target (offset + length) (position + length)
  backward : inserted → offset = 0 ∨ DifferAt source target (offset - 1) (position - 1)

variable {source target : Bytes} {start position offset length : Nat}

theorem MaximalCopy.mono {inserted inserted' : Prop} (h : MaximalCopy source target inserted position offset length)
    (himp : inserted' → inserted) : MaximalCopy source target inserted' position offset length :=
  { h with backward := fun h' => h.backward (himp h') }

/-- A maximal copy is not empty. -/
theorem MaximalCopy.length_pos {inserted : Prop} (h : MaximalCopy source target inserted position offset length) :
    0 < length := by
  obtain ⟨block, -, hlt, hle, hend⟩ := h.block
  have hsize : 0 < blockSize := by decide
  omega

/-- The block of the source stands in the target, too. -/
theorem MaximalCopy.exists_block_infix {inserted : Prop} (h : MaximalCopy source target inserted position offset length) :
    ∃ block, blockSize ∣ block ∧ block < source.length ∧ blockAt source block <:+: target := by
  obtain ⟨block, hdvd, hlt, hle, hend⟩ := h.block
  have hblock : blockAt source block = (((source.drop offset).take length).drop (block - offset)).take blockSize := by
    rw [blockAt, List.drop_take, List.drop_drop, List.take_take, Nat.add_sub_cancel' hle, List.take_eq_take_iff,
      List.length_drop]
    omega
  refine ⟨block, hdvd, hlt, ?_⟩
  rw [hblock, h.same]
  exact (List.take_prefix _ _).isInfix.trans <| (List.drop_suffix _ _).isInfix.trans <|
    (List.take_prefix _ _).isInfix.trans (List.drop_suffix _ _).isInfix

/-! ## What the scan finds -/

/-- The block that a search finds starts at a multiple of the size, inside the source. -/
theorem aligned_of_firstBlock? {sum : UInt32} {block : Nat} (h : firstBlock? source sum = some block) :
    blockSize ∣ block ∧ block < source.length := by
  obtain ⟨hfound, hrange, -⟩ := List.find?_range_eq_some.1 h
  exact ⟨Nat.dvd_of_mod_eq_zero (of_decide_eq_true hfound).1, List.mem_range.1 hrange⟩

/-- A copy that can be applied gives what is in its range. -/
theorem Op.take_drop_of_apply {piece : Bytes} (h : (Op.copy offset length).apply source = .ok piece) :
    offset + length ≤ source.length ∧ (source.drop offset).take length = piece := by
  rw [Op.apply] at h
  split at h
  case isTrue hle => exact ⟨hle, Except.ok.inj h⟩
  case isFalse => cases h

/-- The latest waiting bytes and the first bytes from a position on are a range around the position. -/
theorem reverse_take_append_take {k f : Nat} (hstart : start ≤ position) (hposition : position ≤ target.length)
    (hk : k ≤ position - start) :
    (((target.take position).drop start).reverse.take k).reverse ++ (target.drop position).take f =
      (target.drop (position - k)).take (k + f) := by
  have hlength : ((target.take position).drop start).length = position - start := by
    rw [List.length_drop, List.length_take_of_le hposition]
  have hbefore : (((target.take position).drop start).reverse.take k).reverse = (target.drop (position - k)).take k := by
    rw [List.reverse_take, List.reverse_reverse, List.length_reverse, hlength, List.drop_drop, List.drop_take]
    congr 1
    · omega
    · congr 1
      omega
  rw [List.take_add, List.drop_drop, hbefore]
  congr 3
  omega

/-- **A MATCH IS A MAXIMAL COPY**, in front of which something is inserted if it does not take back all that waits. -/
theorem maximalCopy_of_plainMatch? {m : Match} (hstart : start ≤ position) (hposition : position ≤ target.length)
    (h : plainMatch? source target start position = some m) :
    m.backward ≤ position - start ∧
      MaximalCopy source target (start < position - m.backward) (position - m.backward) m.offset
        (m.backward + m.forward) := by
  obtain ⟨block, hfirst, hm⟩ := Option.bind_eq_some_iff.1 h
  obtain ⟨hdvd, hlt⟩ := aligned_of_firstBlock? hfirst
  obtain ⟨hinside, hsame⟩ := Op.take_drop_of_apply (Match.apply_op hm)
  rw [Match.at?] at hm
  split at hm
  case isFalse => cases hm
  case isTrue hstands =>
    cases hm
    simp only [Match.extend] at hinside hsame ⊢
    -- how far the match reaches, and why not further
    have hblock : block ≤ source.length := Nat.le_of_lt hlt
    have hback := agreement_le_left (source.take block).reverse ((target.take position).drop start).reverse
    have hback' := agreement_le_right (source.take block).reverse ((target.take position).drop start).reverse
    have hforth := agreement_le_right (source.drop block) (target.drop position)
    have hforward := agreement_drop_stops hblock hposition
    have hcovers := length_le_agreement (List.take_prefix blockSize (source.drop block))
      (List.isPrefixOf_iff_prefix.1 hstands.2)
    simp only [List.length_reverse, List.length_drop, List.length_take_of_le hblock, List.length_take_of_le hposition,
      List.length_take] at hback hback' hforth hcovers
    generalize hk : agreement (source.take block).reverse ((target.take position).drop start).reverse = k at *
    generalize agreement (source.drop block) (target.drop position) = f at *
    have hend : block - k + (k + f) = block + f := by omega
    have hend' : position - k + (k + f) = position + f := by omega
    refine ⟨hback', ?_⟩
    constructor
    case inside => exact hinside
    case within => omega
    case same => rw [hsame, reverse_take_append_take hstart hposition hback']
    case block => exact ⟨block, hdvd, hlt, Nat.sub_le _ _, by omega⟩
    case forward => rwa [hend, hend']
    case backward =>
      intro hwaits
      rcases agreement_reverse_stops hblock hposition hk with hall | hall | hdiffer
      · exact .inl (by omega)
      · -- all that waits is taken back, so nothing is inserted
        omega
      · exact .inr hdiffer

/-! ## Inserts and copies by turns -/

/-- What a greedy matcher may emit for the target from `start` on. -/
inductive Greedy (source target : Bytes) : (start : Nat) → List Op → Prop where
  /-- The rest of the target is inserted. -/
  | rest {start : Nat} : Greedy source target start (insertBetween target start target.length)
  /-- What comes before a maximal copy is inserted, and it goes on after the copy. -/
  | copy {start position offset length : Nat} {ops : List Op} (hstart : start ≤ position)
      (hcopy : MaximalCopy source target (start < position) position offset length)
      (hops : Greedy source target (position + length) ops) :
      Greedy source target start (insertBetween target start position ++ .copy offset length :: ops)

/-- **THE SCAN IS GREEDY**, from any position on. -/
theorem greedy_plainScan (hstart : start ≤ position) (hposition : position ≤ target.length) :
    Greedy source target start (plainScan source target start position) := by
  fun_induction plainScan source target start position with
  | case1 start position hlt hnone ih => exact ih (Nat.le_succ_of_le hstart) hlt
  | case2 start position hlt m hsome ih =>
    obtain ⟨hback, hcopy⟩ := maximalCopy_of_plainMatch? hstart hposition hsome
    have hwithin := hcopy.within
    have hend : position - m.backward + (m.backward + m.forward) = position + m.forward := by omega
    rw [hend] at hwithin
    refine .copy (by omega) hcopy ?_
    rw [hend]
    exact ih (Nat.le_refl _) hwithin
  | case3 start position hge => exact .rest

/-- The delta of the matcher is that of the plain scan, from a source with a byte at least to a target of a block at
    least. -/
theorem deltaOf_eq_plainScan (hsource : source ≠ []) (htarget : blockSize ≤ target.length) :
    deltaOf source target = plainScan source target 0 0 := by
  have hscan := plainScan_eq_scan source target (Nat.le_refl 0) (Nat.zero_le _)
  rw [List.take_zero, List.drop_nil, List.reverse_nil, List.drop_zero] at hscan
  rw [deltaOf, matchBlocks, if_neg hsource, if_neg (Nat.not_lt.2 htarget), hscan]

/-- Everything is inserted if there is no block to look for, or no room for one. -/
theorem deltaOf_eq_insertBetween (h : source = [] ∨ target.length < blockSize) :
    deltaOf source target = insertBetween target 0 target.length := by
  have hall : ((target.take target.length).drop 0).reverse = target.reverse := by
    rw [List.take_length, List.drop_zero]
  rw [insertBetween_eq_flush (Nat.le_refl _), hall, deltaOf, matchBlocks]
  by_cases hsource : source = []
  · rw [if_pos hsource]
  · rw [if_neg hsource, if_pos (h.resolve_left hsource)]

/-- **EVERY DELTA IS GREEDY.** -/
theorem greedy_deltaOf (source target : Bytes) : Greedy source target 0 (deltaOf source target) := by
  by_cases h : source = [] ∨ target.length < blockSize
  · rw [deltaOf_eq_insertBetween h]
    exact .rest
  · obtain ⟨hsource, htarget⟩ := not_or.1 h
    rw [deltaOf_eq_plainScan hsource (Nat.le_of_not_lt htarget)]
    exact greedy_plainScan (Nat.le_refl 0) (Nat.zero_le _)

/-! ## The list of operations -/

/-- Operations make as many bytes together as one after the other. -/
theorem targetLength_append (ops more : List Op) : targetLength (ops ++ more) = targetLength ops + targetLength more := by
  induction ops with
  | nil => exact (Nat.zero_add _).symm
  | cons op ops ih => rw [List.cons_append, targetLength, targetLength, ih, Nat.add_assoc]

/-- As many bytes are inserted as are between two positions. -/
theorem targetLength_insertBetween (hposition : position ≤ target.length) :
    targetLength (insertBetween target start position) = position - start := by
  by_cases h : start < position
  · rw [insertBetween, if_pos h]
    show ((target.take position).drop start).length + 0 = _
    rw [Nat.add_zero, List.length_drop, List.length_take_of_le hposition]
  · rw [insertBetween, if_neg h]
    show 0 = _
    omega

/-- Between two positions there is nothing but an insertion. -/
theorem isInsert_of_mem_insertBetween {op : Op} (h : op ∈ insertBetween target start position) : op.isInsert = true := by
  rw [insertBetween] at h
  split at h
  case isTrue => rw [List.mem_singleton.1 h, Op.isInsert]
  case isFalse => exact absurd h List.not_mem_nil

/-- An insert that is emitted has a byte at least. -/
theorem outputLength_pos_of_mem_insertBetween {op : Op} (hposition : position ≤ target.length)
    (h : op ∈ insertBetween target start position) : 0 < op.outputLength := by
  have hlength : targetLength (insertBetween target start position) = position - start :=
    targetLength_insertBetween hposition
  rw [insertBetween] at h hlength
  split at h
  case isFalse => exact absurd h List.not_mem_nil
  case isTrue hlt =>
    rw [if_pos hlt] at hlength
    rw [List.mem_singleton.1 h]
    have houtput : targetLength [Op.insert ((target.take position).drop start)] =
        (Op.insert ((target.take position).drop start)).outputLength := Nat.add_zero _
    omega

/-- Where a list of inserts is followed by a copy, a copy of the whole list is this one or comes later. -/
theorem copy_cases {inserts before ops after : List Op} {op : Op} {offset length : Nat}
    (hinserts : ∀ op ∈ inserts, op.isInsert = true)
    (h : inserts ++ op :: ops = before ++ .copy offset length :: after) :
    (before = inserts ∧ op = .copy offset length ∧ ops = after) ∨
      ∃ between, before = inserts ++ op :: between ∧ ops = between ++ .copy offset length :: after := by
  rcases List.append_eq_append_iff.1 h with ⟨between, rfl, hrest⟩ | ⟨between, hinsert, hrest⟩
  · rcases List.cons_eq_append_iff.1 hrest with ⟨rfl, hcopy⟩ | ⟨between, rfl, hops⟩
    · cases hcopy
      exact .inl ⟨List.append_nil _, rfl, rfl⟩
    · exact .inr ⟨between, rfl, hops⟩
  · rcases List.cons_eq_append_iff.1 hrest with ⟨rfl, hcopy⟩ | ⟨between, rfl, -⟩
    · cases hcopy
      exact .inl ⟨(hinsert.trans (List.append_nil _)).symm, rfl, rfl⟩
    · -- a copy among the inserts
      have hmem : Op.copy offset length ∈ inserts := by
        rw [hinsert]
        exact List.mem_append_right _ List.mem_cons_self
      exact absurd (hinserts _ hmem) Bool.false_ne_true

namespace Greedy

variable {ops before after : List Op}

/-- No operation is empty. -/
theorem outputLength_pos (h : Greedy source target start ops) : ∀ op ∈ ops, 0 < op.outputLength := by
  induction h with
  | rest => exact fun op hop => outputLength_pos_of_mem_insertBetween (Nat.le_refl _) hop
  | copy hstart hcopy hops ih =>
    intro op hop
    have hwithin := hcopy.within
    rcases List.mem_append.1 hop with hinsert | hop
    · exact outputLength_pos_of_mem_insertBetween (by omega) hinsert
    · rcases List.mem_cons.1 hop with rfl | hop
      · exact hcopy.length_pos
      · exact ih op hop

/-- An insert is followed by a copy. -/
theorem isChain (h : Greedy source target start ops) :
    ops.IsChain fun op next => ¬(op.isInsert = true ∧ next.isInsert = true) := by
  induction h with
  | @rest start =>
    rw [insertBetween]
    split
    case isTrue => exact .singleton _
    case isFalse => exact .nil
  | @copy start position offset length ops hstart hcopy hops ih =>
    have htail : (Op.copy offset length :: ops).IsChain fun op next => ¬(op.isInsert = true ∧ next.isInsert = true) :=
      ih.cons fun next _ h => Bool.false_ne_true h.1
    rw [insertBetween]
    split
    case isTrue => exact htail.cons_cons fun h => Bool.false_ne_true h.2
    case isFalse => exact htail

/-- **EVERY COPY IS MAXIMAL** where it stands, be the operation before it an insert or not. -/
theorem maximalCopy (h : Greedy source target start ops) (hops : ops = before ++ .copy offset length :: after) :
    MaximalCopy source target (∃ data, before.getLast? = some (.insert data)) (start + targetLength before) offset
      length := by
  induction h generalizing before with
  | @rest start =>
    have hmem : Op.copy offset length ∈ insertBetween target start target.length := by
      rw [hops]
      exact List.mem_append_right _ List.mem_cons_self
    exact absurd (isInsert_of_mem_insertBetween hmem) Bool.false_ne_true
  | @copy start position offset' length' ops hstart hcopy _ ih =>
    have hwithin := hcopy.within
    have hlength : targetLength (insertBetween target start position) = position - start :=
      targetLength_insertBetween (by omega)
    rcases copy_cases (fun op hop => isInsert_of_mem_insertBetween hop) hops with ⟨rfl, heq, rfl⟩ | ⟨between, rfl, hrest⟩
    · cases heq
      rw [hlength, Nat.add_sub_cancel' hstart]
      refine hcopy.mono ?_
      rintro ⟨data, hdata⟩
      rcases Nat.lt_or_ge start position with hlt | hge
      · exact hlt
      · rw [insertBetween, if_neg (Nat.not_lt.2 hge)] at hdata
        cases hdata
    · have hposition : start + targetLength (insertBetween target start position ++ .copy offset' length' :: between) =
          position + length' + targetLength between := by
        rw [targetLength_append, hlength, targetLength, Op.outputLength]
        omega
      rw [hposition]
      refine (ih hrest).mono ?_
      rintro ⟨data, hdata⟩
      -- the last operation before the copy is in `between`, since the one before `between` is a copy
      rcases List.eq_nil_or_concat' between with rfl | ⟨init, last, rfl⟩
      · simp at hdata
      · rw [← List.cons_append, ← List.append_assoc, List.getLast?_concat] at hdata
        exact ⟨data, by rw [List.getLast?_concat, hdata]⟩

end Greedy

/-- **THE SHAPE OF A DELTA.** No operation is empty and no insert follows another one. Every copy is of a range of the
    source with a whole block in it, and makes the bytes at its place in the target; it ends where source or target end or
    differ, and if an insert comes before it, it begins where the source begins or both differ. So if the target has no
    block of the source in it, it is inserted as a whole. -/
theorem deltaOf_shape (source target : Bytes) :
    (∀ op ∈ deltaOf source target, 0 < op.outputLength) ∧
      (deltaOf source target).IsChain (fun op next => ¬(op.isInsert = true ∧ next.isInsert = true)) ∧
      (∀ before offset length after, deltaOf source target = before ++ .copy offset length :: after →
        MaximalCopy source target (∃ data, before.getLast? = some (.insert data)) (targetLength before) offset length) ∧
      ((∀ block, blockSize ∣ block → block < source.length → ¬blockAt source block <:+: target) →
        deltaOf source target = if target = [] then [] else [.insert target]) := by
  have hgreedy := greedy_deltaOf source target
  refine ⟨hgreedy.outputLength_pos, hgreedy.isChain, ?_, ?_⟩
  · intro before offset length after hops
    have hcopy := hgreedy.maximalCopy hops
    rwa [Nat.zero_add] at hcopy
  · intro hnone
    generalize deltaOf source target = ops at hgreedy
    cases hgreedy with
    | copy hstart hcopy hops =>
      -- a copy would have a block of the source in it
      obtain ⟨block, hdvd, hlt, hinfix⟩ := hcopy.exists_block_infix
      exact absurd hinfix (hnone block hdvd hlt)
    | rest =>
      rw [insertBetween, List.take_length, List.drop_zero]
      simp only [List.length_pos_iff, ite_not]

/-- `count` bytes, each greater by one than the one before. -/
def Sample.counting (first count : Nat) : Bytes :=
  (List.range' first count).map UInt8.ofNat

/-- Of a source of two blocks and a short one, the last 70 bytes stand behind another byte. They are found where the second
    block begins, and the copy takes back the four bytes before it, which wait by then, but not the first byte. -/
theorem waiting_bytes_taken_back :
    deltaOf (Sample.counting 0 130) (255 :: Sample.counting 60 70) = [.insert [255]] ++ .copy 60 70 :: [] ∧
      MaximalCopy (Sample.counting 0 130) (255 :: Sample.counting 60 70) True 1 60 70 := by
  have hops : deltaOf (Sample.counting 0 130) (255 :: Sample.counting 60 70) =
      [.insert [255]] ++ .copy 60 70 :: [] := by decide +kernel
  have hcopy := (deltaOf_shape (Sample.counting 0 130) (255 :: Sample.counting 60 70)).2.2.1 _ _ _ _ hops
  exact ⟨hops, hcopy.mono fun _ => ⟨[255], rfl⟩⟩

end Delta

end VersionedTree

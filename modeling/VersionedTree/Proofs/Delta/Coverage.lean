import VersionedTree.Proofs.Delta.Greedy

/-!
# Coverage — what a delta is sure to copy

The walk of the matcher does not look at every position of the target, since it goes on after each copy. Still it misses
no block of the source that the table can tell by its checksum: a position at which such a block stands is looked at, or it
is copied already.

* **`firstBlock?_eq`** and **`plainMatch?_of_block`** — what is found at a position at which a block stands.
* **`Op.at?`** — the operation that makes a byte of the target.
* **`full_block_copied`** — the first byte of a block that stands in the target is made by a copy.
* **`shared_beginning_copied`** — what source and target have in common at their beginning is one copy.
-/

namespace VersionedTree.Delta

variable {source target : Bytes} {first offset start position : Nat}

/-! ## Blocks that are found -/

/-- The block at `first` is the first block of the source with the checksum of the bytes at `offset`. -/
structure FirstWithSum (source : Bytes) (first offset : Nat) : Prop where
  dvd : blockSize ∣ first
  lt : first < source.length
  sum : (Checksum.ofWindow (blockAt source first)).value = (Checksum.ofWindow (blockAt source offset)).value
  least : ∀ block < first, blockSize ∣ block →
    (Checksum.ofWindow (blockAt source block)).value ≠ (Checksum.ofWindow (blockAt source offset)).value

/-- The first block with a sum is the one that is found. -/
theorem firstBlock?_eq (h : FirstWithSum source first offset) :
    firstBlock? source (Checksum.ofWindow (blockAt source offset)).value = some first := by
  refine List.find?_range_eq_some.2 ⟨?_, List.mem_range.2 h.lt, fun block hlt => ?_⟩
  · exact decide_eq_true ⟨Nat.mod_eq_zero_of_dvd h.dvd, h.sum⟩
  · simp only [Bool.not_eq_true', decide_eq_false_iff_not]
    rintro ⟨hmod, hsum⟩
    exact h.least block hlt (Nat.dvd_of_mod_eq_zero hmod) hsum

/-- The first block of a source comes before all others. -/
theorem firstWithSum_zero (hsource : source ≠ []) : FirstWithSum source 0 0 where
  dvd := Nat.dvd_zero _
  lt := List.length_pos_iff.2 hsource
  sum := rfl
  least _ hlt := absurd hlt (Nat.not_lt_zero _)

/-- **A BLOCK THAT STANDS AT A POSITION IS FOUND** there, whatever waits. -/
theorem plainMatch?_of_block (hfirst : FirstWithSum source first offset)
    (hsame : blockAt source first = blockAt source offset) (hstands : blockAt target position = blockAt source offset) :
    plainMatch? source target start position =
      some (Match.extend source first ((target.take position).drop start).reverse (target.drop position)) := by
  have hwindow : windowAt target position = blockAt source offset := (windowAt_eq target position).trans hstands
  have hprefix : (blockAt source first).isPrefixOf (target.drop position) = true := by
    rw [List.isPrefixOf_iff_prefix, hsame, ← hstands]
    exact List.take_prefix _ _
  rw [plainMatch?, hwindow, firstBlock?_eq hfirst, Option.bind_some, Match.at?, if_pos ⟨blockAt_ne_nil hfirst.lt, hprefix⟩]

/-- Where there is a match, the scan emits it and goes on behind it. -/
theorem plainScan_of_some {m : Match} (hlt : position < target.length)
    (h : plainMatch? source target start position = some m) : plainScan source target start position =
      insertBetween target start (position - m.backward) ++
        m.op :: plainScan source target (position + m.forward) (position + m.forward) := by
  rw [plainScan, if_pos hlt]
  split
  case h_1 hnone => cases hnone.symm.trans h
  case h_2 m' hsome =>
    cases hsome.symm.trans h
    rfl

/-- At the end the scan inserts what waits. -/
theorem plainScan_of_le (h : target.length ≤ position) :
    plainScan source target start position = insertBetween target start target.length := by
  rw [plainScan, if_neg (Nat.not_lt.2 h)]

/-! ## The operation that makes a byte -/

/-- The operation of a delta that makes the byte of the target at a position. -/
def Op.at? : List Op → Nat → Option Op
  | [], _ => none
  | op :: ops, position => if position < op.outputLength then some op else at? ops (position - op.outputLength)

/-- A position is in the first operations, or in the others further on. -/
theorem Op.at?_append (ops more : List Op) (position : Nat) : at? (ops ++ more) position =
    if position < targetLength ops then at? ops position else at? more (position - targetLength ops) := by
  induction ops generalizing position with
  | nil => rfl
  | cons op ops ih =>
    rw [List.cons_append, at?, at?, targetLength]
    by_cases h : position < op.outputLength
    · rw [if_pos h, if_pos h, if_pos (by omega)]
    · rw [if_neg h, if_neg h, ih, Nat.sub_sub]
      exact if_congr (by omega) rfl rfl

/-- A match covers the bytes that it takes back and those in front of it. -/
theorem Match.outputLength_op (m : Match) : m.op.outputLength = m.backward + m.forward := rfl

/-! ## No block is missed -/

/-- From any position on, the byte at which a block stands is made by a copy. -/
theorem at?_plainScan (hfirst : FirstWithSum source first offset)
    (hsame : blockAt source first = blockAt source offset) {stands : Nat}
    (hstands : blockAt target stands = blockAt source offset) (hinside : stands < target.length)
    (hstart : start ≤ position) (hposition : position ≤ stands) :
    ∃ block length, Op.at? (plainScan source target start position) (stands - start) = some (.copy block length) := by
  fun_induction plainScan source target start position with
  | case1 start position hlt hnone ih =>
    -- nothing is found here, so the block is further on
    have hne : position ≠ stands := by
      rintro rfl
      rw [plainMatch?_of_block hfirst hsame hstands] at hnone
      cases hnone
    exact ih (Nat.le_succ_of_le hstart) (by omega)
  | case2 start position hlt m hsome ih =>
    obtain ⟨hback, hcopy⟩ := maximalCopy_of_plainMatch? hstart (Nat.le_of_lt hlt) hsome
    have hwithin := hcopy.within
    have hlength : targetLength (insertBetween target start (position - m.backward)) = position - m.backward - start :=
      targetLength_insertBetween (by omega)
    rw [Op.at?_append, hlength, if_neg (by omega), Op.at?, Match.outputLength_op]
    -- the copy covers the block, or ends before it
    by_cases hcovered : stands < position + m.forward
    · rw [if_pos (by omega)]
      exact ⟨m.offset, m.backward + m.forward, rfl⟩
    · have hrest : stands - start - (position - m.backward - start) - (m.backward + m.forward) =
          stands - (position + m.forward) := by omega
      rw [if_neg (by omega), hrest]
      exact ih (Nat.le_refl _) (Nat.le_of_not_lt hcovered)
  | case3 start position hge => omega

/-- **NO FULL BLOCK IS MISSED.** Where a block of the source stands in the target, as a whole, the delta has a copy, if the
    first block of the source with its checksum has its bytes, too. -/
theorem full_block_copied (hfull : offset + blockSize ≤ source.length) (hfirst : FirstWithSum source first offset)
    (hsame : blockAt source first = blockAt source offset) (hstands : blockAt target position = blockAt source offset) :
    ∃ block length, Op.at? (deltaOf source target) position = some (.copy block length) := by
  have hsize : 0 < blockSize := by decide
  have hsource : source ≠ [] := List.length_pos_iff.1 (by omega)
  have hroom : position + blockSize ≤ target.length := by
    have hlength := congrArg List.length hstands
    rw [length_blockAt, length_blockAt] at hlength
    omega
  rw [deltaOf_eq_plainScan hsource (by omega)]
  exact at?_plainScan hfirst hsame hstands (by omega) (Nat.le_refl 0) (Nat.zero_le _)

/-- The second block of a source of two blocks and a short one, with four bytes and another one in front of it. -/
theorem second_block_copied :
    64 + blockSize ≤ (Sample.counting 0 130).length ∧ FirstWithSum (Sample.counting 0 130) 64 64 ∧
      blockAt (255 :: Sample.counting 60 70) 5 = blockAt (Sample.counting 0 130) 64 ∧
      ∃ block length, Op.at? (deltaOf (Sample.counting 0 130) (255 :: Sample.counting 60 70)) 5 =
        some (.copy block length) := by
  have hfull : 64 + blockSize ≤ (Sample.counting 0 130).length := by decide +kernel
  have hfirst : FirstWithSum (Sample.counting 0 130) 64 64 := by
    constructor
    case dvd => decide
    case lt => decide +kernel
    case sum => rfl
    case least => decide +kernel
  have hstands : blockAt (255 :: Sample.counting 60 70) 5 = blockAt (Sample.counting 0 130) 64 := by decide +kernel
  exact ⟨hfull, hfirst, hstands, full_block_copied hfull hfirst rfl hstands⟩

/-! ## Shared beginnings -/

/-- The longest byte string with which two byte strings begin. -/
structure SharedBeginning (shared xs ys : Bytes) : Prop where
  left : shared <+: xs
  right : shared <+: ys
  longest : ∀ other, other <+: xs → other <+: ys → other.length ≤ shared.length

/-- Two texts share what they agree on. -/
theorem sharedBeginning_take_agreement (xs ys : Bytes) : SharedBeginning (xs.take (agreement xs ys)) xs ys where
  left := List.take_prefix _ _
  right := by
    rw [take_agreement]
    exact List.take_prefix _ _
  longest other hx hy := by
    rw [List.length_take_of_le (agreement_le_left xs ys)]
    exact length_le_agreement hx hy

/-- A text agrees with itself as far as it goes. -/
theorem agreement_self (xs : Bytes) : agreement xs xs = xs.length :=
  Nat.le_antisymm (agreement_le_left xs xs) (length_le_agreement List.prefix_rfl List.prefix_rfl)

/-- A target that begins as the source does, with a whole block of it at least, is copied from the source's beginning as
    far as both agree. -/
theorem deltaOf_of_take_eq (hsource : blockSize ≤ source.length) (htarget : blockSize ≤ target.length)
    (h : source.take blockSize = target.take blockSize) : deltaOf source target =
      .copy 0 (agreement source target) :: plainScan source target (agreement source target) (agreement source target) := by
  have hsize : 0 < blockSize := by decide
  have hne : source ≠ [] := List.length_pos_iff.1 (by omega)
  have hmatch : plainMatch? source target 0 0 = some (Match.extend source 0 [] target) :=
    plainMatch?_of_block (firstWithSum_zero hne) rfl h.symm
  have hextend : Match.extend source 0 [] target = ⟨0, 0, agreement source target⟩ := rfl
  have hempty : insertBetween target 0 (0 - 0) = [] := if_neg (Nat.lt_irrefl 0)
  rw [deltaOf_eq_plainScan hne htarget, plainScan_of_some (by omega) (hmatch.trans (congrArg some hextend)), hempty,
    Match.op, Nat.zero_add, List.nil_append]

/-- **A SHARED BEGINNING IS ONE COPY.** If source and target agree in their first block, the delta begins with the copy of
    all that they share at their beginning; and a delta from a byte string to itself is the copy of it. -/
theorem shared_beginning_copied :
    (∀ source target : Bytes, blockSize ≤ source.length → blockSize ≤ target.length →
        source.take blockSize = target.take blockSize →
        ∃ shared rest, SharedBeginning shared source target ∧ deltaOf source target = .copy 0 shared.length :: rest) ∧
      ∀ source : Bytes, blockSize ≤ source.length → deltaOf source source = [.copy 0 source.length] := by
  constructor
  · intro source target hsource htarget h
    refine ⟨source.take (agreement source target), plainScan source target (agreement source target)
      (agreement source target), sharedBeginning_take_agreement source target, ?_⟩
    rw [deltaOf_of_take_eq hsource htarget h, List.length_take_of_le (agreement_le_left source target)]
  · intro source hsource
    have hnothing : insertBetween source source.length source.length = [] := if_neg (Nat.lt_irrefl _)
    rw [deltaOf_of_take_eq hsource hsource rfl, agreement_self, plainScan_of_le (Nat.le_refl _), hnothing]

/-- Two hundred bytes and others that begin with a hundred of them, of which 36 come after the first block. -/
theorem hundred_bytes_copied :
    (∃ shared rest, SharedBeginning shared (Sample.counting 0 200) (Sample.counting 0 100 ++ [7, 7]) ∧
        deltaOf (Sample.counting 0 200) (Sample.counting 0 100 ++ [7, 7]) = .copy 0 shared.length :: rest) ∧
      deltaOf (Sample.counting 0 200) (Sample.counting 0 200) = [.copy 0 (Sample.counting 0 200).length] :=
  ⟨shared_beginning_copied.1 _ _ (by decide +kernel) (by decide +kernel) (by decide +kernel),
    shared_beginning_copied.2 _ (by decide +kernel)⟩

end VersionedTree.Delta

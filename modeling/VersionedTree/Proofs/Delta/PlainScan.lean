import VersionedTree.Proofs.Delta.Positions

/-!
# Plain scan — the matcher without a table and without a rolling checksum

The walk of the matcher is fast because it keeps the checksum of its window and looks it up in a hash table. The plain scan
does neither: at each position it computes the checksum of the window from scratch and tries one block of the source after
the other. What it then does with a block is the same.

* **`firstBlock?`** and **`plainScan`** are this scan, over positions in the target.
* **`find_eq_firstBlock?`** — the table answers as the search from block to block does.
* **`plainScan_eq_scan`** — from any position on, both walks emit the same operations.
* **`matchBlocks_eq_plainScan`** — both find the same delta.
-/

namespace VersionedTree.Delta

/-! ## The scan -/

/-- The offset of the first block of the source with this checksum, looked for from block to block. -/
def firstBlock? (source : Bytes) (sum : UInt32) : Option Nat :=
  (List.range source.length).find? fun offset =>
    offset % blockSize = 0 ∧ (Checksum.ofWindow (blockAt source offset)).value = sum

/-- The window at a position: `blockSize` bytes, or fewer where the target ends. -/
def windowAt (target : Bytes) (position : Nat) : Bytes :=
  (target.take (min (position + blockSize) target.length)).drop position

/-- The match at a position, where the bytes from `start` on wait to be inserted. -/
def plainMatch? (source target : Bytes) (start position : Nat) : Option Match :=
  (firstBlock? source (Checksum.ofWindow (windowAt target position)).value).bind fun offset =>
    Match.at? source offset ((target.take position).drop start).reverse (target.drop position)

/-- A match has a byte in front. -/
theorem plainMatch?_forward_pos {source target : Bytes} {start position : Nat} {m : Match}
    (h : plainMatch? source target start position = some m) : 0 < m.forward := by
  obtain ⟨offset, -, hm⟩ := Option.bind_eq_some_iff.1 h
  exact Match.forward_pos hm

/-- The insert of the target from `start` up to `stop`; nothing if there is no byte between. -/
def insertBetween (target : Bytes) (start stop : Nat) : List Op :=
  if start < stop then [.insert ((target.take stop).drop start)] else []

/-- Scans the target from a position on, where the bytes from `start` on wait to be inserted. -/
def plainScan (source target : Bytes) (start position : Nat) : List Op :=
  if position < target.length then
    match _found : plainMatch? source target start position with
    | none => plainScan source target start (position + 1)
    | some m =>
      insertBetween target start (position - m.backward) ++
        m.op :: plainScan source target (position + m.forward) (position + m.forward)
  else
    insertBetween target start target.length
termination_by target.length - position
decreasing_by
  · omega
  · have := plainMatch?_forward_pos _found
    omega

/-! ## The search from block to block -/

/-- There is a block for every multiple of the block size inside the source. -/
theorem lt_length_blocks_iff {source : Bytes} {i : Nat} :
    i < (BlockTable.blocks source).length ↔ i * blockSize < source.length := by
  rw [BlockTable.blocks, List.length_mapIdx]
  exact BlockTable.lt_length_chunks_iff

/-- A block has the checksum of its bytes, and their offset. -/
theorem getElem_blocks {source : Bytes} {i : Nat} (h : i < (BlockTable.blocks source).length) :
    (BlockTable.blocks source)[i] =
      ⟨(Checksum.ofWindow (blockAt source (i * blockSize))).value, i * blockSize⟩ := by
  simp only [BlockTable.blocks, List.getElem_mapIdx, BlockTable.getElem_chunks, blockAt]

/-- **THE TABLE ANSWERS AS THE SEARCH FROM BLOCK TO BLOCK.** -/
theorem find_eq_firstBlock? (source : Bytes) (sum : UInt32) :
    (BlockTable.ofSource source).find sum = firstBlock? source sum := by
  -- a multiple of the size is the offset of the block with that number
  have hmultiple : ∀ offset, offset % blockSize = 0 → offset / blockSize * blockSize = offset := fun offset h =>
    Nat.div_mul_cancel (Nat.dvd_of_mod_eq_zero h)
  rw [BlockTable.find_ofSource]
  symm
  cases hfind : (BlockTable.blocks source).find? fun block => block.sum = sum with
  | none =>
    refine List.find?_range_eq_none.2 fun offset hlt => ?_
    simp only [Bool.not_eq_true', decide_eq_false_iff_not]
    rintro ⟨hmod, hsum⟩
    have hi : offset / blockSize < (BlockTable.blocks source).length := by
      rwa [lt_length_blocks_iff, hmultiple offset hmod]
    refine List.find?_eq_none.1 hfind _ (List.getElem_mem hi) ?_
    rw [getElem_blocks hi, hmultiple offset hmod]
    exact decide_eq_true hsum
  | some block =>
    obtain ⟨hsum, i, hi, rfl, hbefore⟩ := List.find?_eq_some_iff_getElem.1 hfind
    rw [Option.map_some]
    rw [getElem_blocks hi] at hsum ⊢
    refine List.find?_range_eq_some.2 ⟨?_, List.mem_range.2 (lt_length_blocks_iff.1 hi), fun offset hlt => ?_⟩
    · exact decide_eq_true ⟨Nat.mul_mod_left _ _, of_decide_eq_true hsum⟩
    · simp only [Bool.not_eq_true', decide_eq_false_iff_not]
      rintro ⟨hmod, hsum'⟩
      have hj : offset / blockSize < i := by
        rw [← hmultiple offset hmod] at hlt
        exact Nat.lt_of_mul_lt_mul_right hlt
      have hother := hbefore _ hj
      rw [getElem_blocks (Nat.lt_trans hj hi), hmultiple offset hmod] at hother
      simp [hsum'] at hother

/-! ## Both walks -/

/-- The window at a position has the block size, or is shorter at the end. -/
theorem windowAt_eq (target : Bytes) (position : Nat) : windowAt target position = (target.drop position).take blockSize := by
  rw [windowAt, ← List.take_eq_take_min, List.drop_take, Nat.add_sub_cancel_left]

/-- **ONE LOOK-UP** of the walk, with the checksum of the window, finds the match of the plain scan. -/
theorem findMatch_eq_plainMatch? (source target : Bytes) (start position : Nat) :
    findMatch source (.ofSource source) (.ofWindow ((target.drop position).take blockSize))
        ((target.take position).drop start).reverse (target.drop position) =
      plainMatch? source target start position := by
  rw [findMatch, plainMatch?, find_eq_firstBlock?, windowAt_eq]

/-- The bytes between two positions are written as waiting bytes are. -/
theorem insertBetween_eq_flush {target : Bytes} {start stop : Nat} (h : stop ≤ target.length) :
    insertBetween target start stop = flush ((target.take stop).drop start).reverse := by
  have hlength : ((target.take stop).drop start).length = stop - start := by
    rw [List.length_drop, List.length_take_of_le h]
  by_cases hlt : start < stop
  · have hne : ((target.take stop).drop start).reverse ≠ [] := by
      rw [Ne, List.reverse_eq_nil_iff, ← List.length_eq_zero_iff, hlength]
      omega
    rw [insertBetween, if_pos hlt, flush, if_neg hne, List.reverse_reverse]
  · have hnil : (target.take stop).drop start = [] := by
      rw [← List.length_eq_zero_iff, hlength]
      omega
    rw [insertBetween, if_neg hlt, hnil]
    rfl

/-- The waiting bytes that a match leaves end where the match begins. -/
theorem drop_pending (target : Bytes) {start position n : Nat} (hposition : position ≤ target.length)
    (hn : n ≤ position - start) :
    ((target.take position).drop start).reverse.drop n = ((target.take (position - n)).drop start).reverse := by
  have hlength : ((target.take position).drop start).length = position - start := by
    rw [List.length_drop, List.length_take_of_le hposition]
  rw [List.drop_reverse, hlength, List.take_drop, List.take_take]
  congr 3
  omega

/-- **FROM ANY POSITION ON** the walk emits what the plain scan emits. Its checksum is that of the window, and stays so. -/
theorem plainScan_eq_scan (source target : Bytes) {start position : Nat} (hstart : start ≤ position)
    (hposition : position ≤ target.length) :
    plainScan source target start position =
      scan source (.ofSource source) (.ofWindow ((target.drop position).take blockSize))
        ((target.take position).drop start).reverse (target.drop position) := by
  fun_induction plainScan source target start position with
  | case1 start position hlt hnone ih =>
    -- no match: the window slides by one byte, which joins those that wait
    have hrest : target.drop position = target[position] :: target.drop (position + 1) := List.drop_eq_getElem_cons hlt
    have hfind := (findMatch_eq_plainMatch? source target start position).trans hnone
    have hslide := Checksum.slide_ofWindow (target.drop position)
    rw [List.drop_drop] at hslide
    rw [ih (by omega) hlt, reverse_drop_take_succ hstart hlt, ← hslide]
    rw [hrest] at hfind ⊢
    rw [scan_of_findMatch_none hfind]
  | case2 start position hlt m hsome ih =>
    have hrest : target.drop position = target[position] :: target.drop (position + 1) := List.drop_eq_getElem_cons hlt
    have hfind := (findMatch_eq_plainMatch? source target start position).trans hsome
    have hadvance := Checksum.advance_ofWindow m.forward (target.drop position)
    -- a match: it takes back bytes that wait, and the walk goes on behind it
    obtain ⟨hback, hforward⟩ := findMatch_le hfind
    rw [List.length_reverse, List.length_drop, List.length_take_of_le hposition] at hback
    rw [List.length_drop] at hforward
    have hnone : (target.take (position + m.forward)).drop (position + m.forward) = [] :=
      List.drop_eq_nil_of_le (List.length_take_le _ _)
    rw [ih (Nat.le_refl _) (by omega), insertBetween_eq_flush (by omega), ← drop_pending target hposition hback, hnone,
      ← List.drop_drop, ← hadvance]
    rw [hrest] at hfind ⊢
    rw [scan_of_findMatch_some hfind]
    rfl
  | case3 start position hge =>
    -- at the end only the bytes that wait are left
    have hend : position = target.length := Nat.le_antisymm hposition (Nat.le_of_not_lt hge)
    rw [insertBetween_eq_flush (Nat.le_refl _), hend, List.drop_length, scan_nil]

/-- **THE FAST MATCHER FINDS THE PLAIN DELTA**: from a source with a byte at least to a target of a block at least, the
    table and the rolling checksum never change what is found, be the walk over what is left or over checked positions. -/
theorem matchBlocks_eq_plainScan {source target : Bytes} (hsource : source ≠ []) (htarget : blockSize ≤ target.length) :
    matchBlocks source target = .ok (plainScan source target 0 0) ∧
      deltaBy? source target = some (plainScan source target 0 0) := by
  have hscan := plainScan_eq_scan source target (Nat.le_refl 0) (Nat.zero_le _)
  rw [List.take_zero, List.drop_nil, List.reverse_nil, List.drop_zero] at hscan
  have hmatch : matchBlocks source target = .ok (plainScan source target 0 0) := by
    rw [matchBlocks, if_neg hsource, if_neg (Nat.not_lt.2 htarget), hscan]
  refine ⟨hmatch, ?_⟩
  rw [deltaBy?_eq, deltaOf, hmatch]

/-- A source of two equal blocks and a short one, and a target in which they stand one byte late. -/
theorem repeated_blocks_matched :
    (List.replicate 130 7 : Bytes) ≠ [] ∧ blockSize ≤ (9 :: List.replicate 130 7 : Bytes).length ∧
      matchBlocks (List.replicate 130 7) (9 :: List.replicate 130 7) =
        .ok (plainScan (List.replicate 130 7) (9 :: List.replicate 130 7) 0 0) :=
  have hsource : (List.replicate 130 7 : Bytes) ≠ [] := List.cons_ne_nil _ _
  have htarget : blockSize ≤ (9 :: List.replicate 130 7 : Bytes).length := by
    rw [List.length_cons, List.length_replicate]
    decide
  ⟨hsource, htarget, (matchBlocks_eq_plainScan hsource htarget).1⟩

end VersionedTree.Delta

import VersionedTree.Delta.Cursor
import VersionedTree.Proofs.Delta.Probing
import VersionedTree.Proofs.Delta.Rolling
import VersionedTree.Proofs.Delta.RoundTrip

/-!
# Positions — the walk with every access checked

The cursor walks over positions in the two byte strings, and checks every access. No access ever fails, and the walk gets on
in every round, so it finds what the walk over the rest of the target finds.

* **`findMatch?_eq`** and **`round?_eq`** — one look-up, and one round, succeed and do what the walk over the rest does.
* **`deltaBy?_eq`** — the checked walk succeeds, and finds the same delta.
-/

namespace VersionedTree.Delta

/-! ## Offsets of the table -/

/-- What the table of a source answers is the offset of a block, so the block has at least one byte. -/
theorem BlockTable.find_lt {source : Bytes} {sum : UInt32} {offset : Nat}
    (h : (ofSource source).find sum = some offset) : offset < source.length := by
  rw [find_ofSource] at h
  obtain ⟨block, hfind, rfl⟩ := Option.map_eq_some_iff.1 h
  exact offset_lt_of_mem_blocks (List.mem_of_find?_eq_some hfind)

/-! ## One access after the other succeeds -/

/-- Bytes between two positions in range are those after the first and before the second. -/
theorem slice?_eq {data : Bytes} {i j : Nat} (hij : i ≤ j) (hj : j ≤ data.length) :
    slice? data i j = some ((data.take j).drop i) :=
  if_pos ⟨hij, hj⟩

/-- A difference that is not negative is had without a stop. -/
theorem minus?_eq {m n : Nat} (h : n ≤ m) : minus? m n = some (m - n) :=
  if_pos h

/-- One byte more from the front is one more at the head of the reversed bytes. -/
theorem reverse_take_succ {data : Bytes} {i : Nat} (h : i < data.length) :
    (data.take (i + 1)).reverse = data[i] :: (data.take i).reverse := by
  rw [List.take_succ_eq_append_getElem h, List.reverse_append]
  rfl

/-- The bytes of a range, the latest one first. -/
theorem reverse_drop_take_succ {data : Bytes} {i j : Nat} (hij : i ≤ j) (h : j < data.length) :
    ((data.take (j + 1)).drop i).reverse = data[j] :: ((data.take j).drop i).reverse := by
  have hlength : (data.take j).length = j := List.length_take_of_le (Nat.le_of_lt h)
  rw [List.take_succ_eq_append_getElem h, List.drop_append_of_le_length (by omega), List.reverse_append]
  rfl

/-- The walk backwards takes as many waiting bytes as agree. -/
theorem backward?_eq (source : Bytes) {target : Bytes} {start waiting : Nat} (ht : start + waiting ≤ target.length) :
    ∀ {offset : Nat}, offset ≤ source.length → backward? source target offset (start + waiting) waiting =
      some (agreement (source.take offset).reverse ((target.take (start + waiting)).drop start).reverse) := by
  induction waiting with
  | zero =>
    intro offset hs
    -- nothing waits, but the bytes before the positions are compared all the same
    have hnone : ((target.take (start + 0)).drop start).reverse = [] := by simp
    rw [hnone]
    cases offset with
    | zero => simp [backward?, agreement]
    | succ offset =>
      cases start with
      | zero => simp [backward?, agreement]
      | succ start =>
        have hx := List.getElem?_eq_getElem (show offset < source.length by omega)
        have hy := List.getElem?_eq_getElem (show start < target.length by omega)
        rw [Nat.add_zero, backward?, hx, hy]
        simp [agreement]
  | succ waiting ih =>
    intro offset hs
    cases offset with
    | zero => simp [backward?, agreement]
    | succ offset =>
      have hx := List.getElem?_eq_getElem (show offset < source.length by omega)
      have hy := List.getElem?_eq_getElem (show start + waiting < target.length by omega)
      rw [show start + (waiting + 1) = start + waiting + 1 from rfl, backward?, hx, hy, reverse_take_succ (by omega),
        reverse_drop_take_succ (by omega) (by omega), agreement]
      simp only [Option.bind_eq_bind, Option.bind_some, ih (by omega) (show offset ≤ source.length by omega)]
      split <;> rfl

/-- What two texts have in front in common adds to what they agree on. -/
theorem agreement_append (common xs ys : Bytes) :
    agreement (common ++ xs) (common ++ ys) = common.length + agreement xs ys := by
  induction common with
  | nil => simp
  | cons c common ih =>
    simp only [List.cons_append, agreement, if_pos, ih, List.length_cons]
    omega

/-- Shorter texts agree on no more than there is of them. -/
theorem agreement_take : ∀ (n : Nat) (xs ys : Bytes), agreement (xs.take n) (ys.take n) = min n (agreement xs ys)
  | 0, xs, ys => by simp [agreement]
  | n + 1, [], ys => by simp [agreement]
  | n + 1, x :: xs, [] => by simp [agreement]
  | n + 1, x :: xs, y :: ys => by
    have ih := agreement_take n xs ys
    simp only [List.take_succ_cons, agreement]
    split <;> omega

/-- What is compared past a block stops at the shorter end, which cuts nothing off. -/
theorem agreement_take_of_le {n : Nat} {xs ys : Bytes} (hn : n = min xs.length ys.length) :
    agreement (xs.take n) (ys.take n) = agreement xs ys := by
  have hx := agreement_le_left xs ys
  have hy := agreement_le_right xs ys
  rw [agreement_take]
  omega

/-! ## One look-up -/

/-- The block at an offset is a full one, or as long as there is of the source. -/
theorem length_blockAt (source : Bytes) (offset : Nat) :
    (blockAt source offset).length = min blockSize (source.length - offset) := by
  rw [blockAt, List.length_take, List.length_drop]

/-- Where there is anything of the source there is a block. -/
theorem blockAt_ne_nil {source : Bytes} {offset : Nat} (h : offset < source.length) : blockAt source offset ≠ [] := by
  have hsize : 0 < blockSize := by decide
  rw [← List.length_pos_iff, length_blockAt]
  omega

/-- The block at an offset is the range of the source that begins there and is as long. -/
theorem blockAt_eq_slice (source : Bytes) (offset : Nat) :
    blockAt source offset = (source.take (offset + (blockAt source offset).length)).drop offset := by
  rw [length_blockAt, List.drop_take, Nat.add_sub_cancel_left, blockAt, List.take_eq_take_iff, List.length_drop]
  omega

/-- No block stands where it would run past the end of the target. -/
theorem not_isPrefixOf_drop {block target : Bytes} {position : Nat} (hposition : position ≤ target.length)
    (h : target.length < position + block.length) : ¬block.isPrefixOf (target.drop position) = true := by
  intro hstands
  have hle := (List.isPrefixOf_iff_prefix.1 hstands).length_le
  rw [List.length_drop] at hle
  omega

/-- The block is a beginning of the rest exactly if the range of the target that is as long holds the same bytes. -/
theorem isPrefixOf_drop_iff {block target : Bytes} {position : Nat} :
    block.isPrefixOf (target.drop position) = true ↔
      (target.take (position + block.length)).drop position = block := by
  rw [List.isPrefixOf_iff_prefix, List.prefix_iff_eq_take, List.drop_take, Nat.add_sub_cancel_left]
  exact eq_comm

/-- A block that stands at a position is covered by the agreement there, and what follows it is compared apart. -/
theorem agreement_drop_block {source target : Bytes} {offset position length : Nat}
    (hs : offset + length ≤ source.length)
    (h : (source.take (offset + length)).drop offset = (target.take (position + length)).drop position) :
    agreement (source.drop offset) (target.drop position) =
      length + agreement (source.drop (offset + length)) (target.drop (position + length)) := by
  have hlength : ((source.take (offset + length)).drop offset).length = length := by
    rw [List.length_drop, List.length_take_of_le hs]
    omega
  have hsource : source.drop offset = (source.take (offset + length)).drop offset ++ source.drop (offset + length) := by
    rw [List.drop_take, Nat.add_sub_cancel_left, ← List.drop_drop, List.take_append_drop]
  have htarget : target.drop position = (target.take (position + length)).drop position ++
      target.drop (position + length) := by
    rw [List.drop_take, Nat.add_sub_cancel_left, ← List.drop_drop, List.take_append_drop]
  rw [hsource, htarget, ← h, agreement_append, hlength]

/-- **ONE LOOK-UP** by positions succeeds, and finds the match that the walk over the rest finds. -/
theorem findMatch?_eq (source : Bytes) {target : Bytes} (sum : Checksum) {start waiting : Nat}
    (ht : start + waiting ≤ target.length) :
    findMatch? source target (.ofSource source) sum (start + waiting) waiting =
      some (findMatch source (.ofSource source) sum ((target.take (start + waiting)).drop start).reverse
        (target.drop (start + waiting))) := by
  rw [findMatch?, findMatch]
  cases hfind : (BlockTable.ofSource source).find sum.value with
  | none => rfl
  | some offset =>
    have hoffset := BlockTable.find_lt hfind
    have hne := blockAt_ne_nil hoffset
    have hblock := blockAt_eq_slice source offset
    have hmin := length_blockAt source offset
    generalize hposition : start + waiting = position at ht ⊢
    generalize hlength : (blockAt source offset).length = length at hblock hmin
    have hs : offset + length ≤ source.length := by omega
    simp only [Option.bind_eq_bind, Option.bind_some, minus?_eq (Nat.le_of_lt hoffset), ← hmin, Match.at?]
    by_cases hroom : target.length < position + length
    · -- the block would run past the end of the target
      have hstands : ¬(blockAt source offset).isPrefixOf (target.drop position) = true :=
        not_isPrefixOf_drop ht (hlength ▸ hroom)
      rw [if_pos hroom, if_neg (fun h => hstands h.2)]
      rfl
    · have htle : position + length ≤ target.length := Nat.le_of_not_lt hroom
      have hstands : (blockAt source offset).isPrefixOf (target.drop position) = true ↔
          (source.take (offset + length)).drop offset = (target.take (position + length)).drop position := by
        rw [isPrefixOf_drop_iff, hlength, ← hblock]
        exact eq_comm
      rw [if_neg hroom, slice?_eq (Nat.le_add_right _ _) hs, slice?_eq (Nat.le_add_right _ _) htle]
      simp only [Option.bind_some]
      by_cases heq : (source.take (offset + length)).drop offset = (target.take (position + length)).drop position
      · have hback := backward?_eq source (hposition ▸ ht) (Nat.le_of_lt hoffset)
        rw [hposition] at hback
        rw [if_pos heq, if_pos ⟨hne, hstands.2 heq⟩, minus?_eq hs, minus?_eq htle, slice?_eq hs (Nat.le_refl _),
          slice?_eq htle (Nat.le_refl _)]
        simp only [Option.bind_some, List.take_length, hback]
        rw [agreement_take_of_le (by rw [List.length_drop, List.length_drop]), ← agreement_drop_block hs heq]
        rfl
      · rw [if_neg heq, if_neg (fun h => heq (hstands.1 h.2))]
        rfl

/-! ## Moving the window -/

/-- Moving a window by one byte succeeds if the checksum is that of a window of the right length, and then it is so again. -/
theorem slide?_eq {target : Bytes} {sum : Checksum} {position : Nat} (h : position < target.length)
    (hlength : sum.length = min blockSize (target.length - position)) :
    slide? target sum position = some (sum.slide (target.drop position)) ∧
      (sum.slide (target.drop position)).length = min blockSize (target.length - (position + 1)) := by
  have hnext : (target.drop position)[blockSize]? = target[position + blockSize]? := List.getElem?_drop
  rw [slide?, List.getElem?_eq_getElem h, Option.bind_eq_bind, Option.bind_some]
  rw [List.drop_eq_getElem_cons h] at hnext ⊢
  rw [Checksum.slide, hnext]
  by_cases hroom : position + blockSize < target.length
  · have hfull : sum.length = blockSize := by omega
    rw [if_pos hroom, List.getElem?_eq_getElem hroom, Option.bind_some, replace?, if_pos hfull]
    refine ⟨rfl, ?_⟩
    show sum.length = _
    omega
  · have hpos : 0 < sum.length := by
      have hsize : 0 < blockSize := by decide
      omega
    rw [if_neg hroom, List.getElem?_eq_none (Nat.le_of_not_lt hroom), feedOut?, if_pos hpos]
    refine ⟨rfl, ?_⟩
    show sum.length - 1 = _
    omega

/-- The window is moved on by positions as it is by lists, by induction on the moves. -/
theorem slideBy?_eq {target : Bytes} :
    ∀ (n : Nat) {sum : Checksum} {position : Nat}, position + n ≤ target.length →
      sum.length = min blockSize (target.length - position) →
      slideBy? target n sum position = some (sum.slideBy n (target.drop position)) ∧
        (sum.slideBy n (target.drop position)).length = min blockSize (target.length - (position + n)) := by
  intro n
  induction n with
  | zero =>
    intro sum position _ hlength
    exact ⟨rfl, hlength⟩
  | succ n ih =>
    intro sum position h hlength
    obtain ⟨hslide, hnext⟩ := slide?_eq (by omega) hlength
    have hrest := ih (show position + 1 + n ≤ target.length by omega) hnext
    rw [slideBy?, hslide, Option.bind_eq_bind, Option.bind_some, Checksum.slideBy, List.drop_drop]
    rw [Nat.add_right_comm] at hrest
    exact hrest

/-- Moving a window past a match succeeds. At the end of the target nothing is left of it. -/
theorem advance?_eq {target : Bytes} {sum : Checksum} {position n : Nat} (h : position + n ≤ target.length)
    (hlength : sum.length = min blockSize (target.length - position)) :
    ∃ moved, advance? target n sum position = some moved ∧
      (position + n < target.length → moved = sum.advance n (target.drop position) ∧
        moved.length = min blockSize (target.length - (position + n))) := by
  rw [advance?, Checksum.advance]
  by_cases hn : blockSize ≤ n
  · rw [if_pos hn, if_pos hn]
    by_cases hroom : position + n < target.length
    · have hwindow : (target.take (min (position + n + blockSize) target.length)).drop (position + n) =
          (target.drop (position + n)).take blockSize := by
        rw [← List.take_eq_take_min, List.drop_take, Nat.add_sub_cancel_left]
      rw [if_pos hroom, slice?_eq (by omega) (Nat.min_le_right _ _), hwindow, List.drop_drop]
      refine ⟨_, rfl, fun _ => ⟨rfl, ?_⟩⟩
      rw [Checksum.length_ofWindow, List.length_take, List.length_drop]
    · rw [if_neg hroom]
      exact ⟨sum, rfl, fun hlt => absurd hlt hroom⟩
  · rw [if_neg hn, if_neg hn]
    obtain ⟨hslide, hnext⟩ := slideBy?_eq n h hlength
    exact ⟨_, hslide, fun _ => ⟨rfl, hnext⟩⟩

/-! ## Rounds -/

/-- Without a match one byte waits, and the scan goes on behind it. -/
theorem scan_of_findMatch_none {source : Bytes} {table : BlockTable} {sum : Checksum} {pending cs : Bytes} {c : UInt8}
    (h : findMatch source table sum pending (c :: cs) = none) :
    scan source table sum pending (c :: cs) = scan source table (sum.slide (c :: cs)) (c :: pending) cs := by
  rw [scan]
  split
  case h_1 => rfl
  case h_2 m hm => cases h.symm.trans hm

/-- With a match the waiting bytes are written, then the match, and the scan goes on behind it. -/
theorem scan_of_findMatch_some {source : Bytes} {table : BlockTable} {sum : Checksum} {pending cs : Bytes} {c : UInt8}
    {m : Match} (h : findMatch source table sum pending (c :: cs) = some m) :
    scan source table sum pending (c :: cs) = flush (pending.drop m.backward) ++
      m.op :: scan source table (sum.advance m.forward (c :: cs)) [] ((c :: cs).drop m.forward) := by
  rw [scan]
  split
  case h_1 hm => cases h.symm.trans hm
  case h_2 m' hm =>
    cases h.symm.trans hm
    rfl

/-- At the end the waiting bytes are written. -/
@[simp] theorem scan_nil (source : Bytes) (table : BlockTable) (sum : Checksum) (pending : Bytes) :
    scan source table sum pending [] = flush pending := by
  rw [scan]

/-- A match takes back no more than waits, and covers no more than is left. -/
theorem findMatch_le {source : Bytes} {table : BlockTable} {sum : Checksum} {pending rest : Bytes} {m : Match}
    (h : findMatch source table sum pending rest = some m) :
    m.backward ≤ pending.length ∧ m.forward ≤ rest.length := by
  obtain ⟨offset, -, hm⟩ := Option.bind_eq_some_iff.1 h
  rw [Match.at?] at hm
  split at hm
  case isTrue =>
    cases hm
    exact ⟨agreement_le_right _ _, agreement_le_right _ _⟩
  case isFalse => cases hm

namespace Cursor

/-- The waiting bytes of a state, the latest one first. -/
def pending (target : Bytes) (s : Cursor) : Bytes :=
  ((target.take (s.start + s.waiting)).drop s.start).reverse

/-- What a state has emitted, and what the walk over the rest emits from there. -/
def result (source target : Bytes) (s : Cursor) : List Op :=
  s.ops ++ scan source (.ofSource source) s.sum (s.pending target) (target.drop s.position)

/-- The states of the walk: the waiting bytes stand right before the position, and the checksum is that of a window as
    long as it can be. -/
structure Good (target : Bytes) (s : Cursor) : Prop where
  range : s.start + s.waiting = s.position
  inside : s.position ≤ target.length
  window : s.position < target.length → s.sum.length = min blockSize (target.length - s.position)

/-- As many bytes wait as the cursor says, as long as they are in range. -/
theorem length_pending {target : Bytes} {s : Cursor} (h : s.start + s.waiting ≤ target.length) :
    (s.pending target).length = s.waiting := by
  rw [pending, List.length_reverse, List.length_drop, List.length_take_of_le h, Nat.add_sub_cancel_left]

/-- Waiting bytes in range are written without a stop. -/
theorem flush?_eq {target : Bytes} {s : Cursor} (h : s.start + s.waiting ≤ target.length) :
    s.flush? target = some (s.ops ++ flush (s.pending target)) := by
  by_cases hwaiting : s.waiting = 0
  · have hnil : s.pending target = [] := List.eq_nil_of_length_eq_zero ((length_pending h).trans hwaiting)
    rw [flush?, if_pos hwaiting, hnil, flush, if_pos rfl, List.append_nil]
  · have hne : s.pending target ≠ [] := by
      intro hnil
      rw [← length_pending h, hnil] at hwaiting
      exact hwaiting rfl
    rw [flush?, if_neg hwaiting, slice?_eq (Nat.le_add_right _ _) h, flush, if_neg hne, pending, List.reverse_reverse]
    rfl

/-- Giving back the latest waiting bytes shortens the range at its end. -/
theorem pending_of_minus {target : Bytes} {s : Cursor} (h : s.start + s.waiting ≤ target.length) {n : Nat}
    (hn : n ≤ s.waiting) :
    pending target { s with waiting := s.waiting - n } = (s.pending target).drop n := by
  have hlength : ((target.take (s.start + s.waiting)).drop s.start).length = s.waiting := by
    rw [List.length_drop, List.length_take_of_le h, Nat.add_sub_cancel_left]
  rw [pending, pending, List.drop_reverse, hlength, List.take_drop, List.take_take]
  congr 4
  show s.start + (s.waiting - n) = min (s.start + (s.waiting - n)) (s.start + s.waiting)
  omega

/-- The waiting bytes of a good cursor are in range. -/
theorem Good.waits {target : Bytes} {s : Cursor} (h : s.Good target) : s.start + s.waiting ≤ target.length :=
  h.range ▸ h.inside

/-- A look-up in the middle of the walk. -/
theorem Good.findMatch?_eq (source : Bytes) {target : Bytes} {s : Cursor} (h : s.Good target) :
    findMatch? source target (.ofSource source) s.sum s.position s.waiting =
      some (findMatch source (.ofSource source) s.sum (s.pending target) (target.drop s.position)) := by
  rw [pending, ← h.range]
  exact Delta.findMatch?_eq source s.sum h.waits

/-- A round without a match: one more byte waits. -/
theorem round?_of_none {source target : Bytes} {s : Cursor} (h : s.Good target) (hlt : s.position < target.length)
    (hmatch : findMatch source (.ofSource source) s.sum (s.pending target) (target.drop s.position) = none) :
    ∃ s', s.round? source target (.ofSource source) = some s' ∧ s'.Good target ∧ s.position < s'.position ∧
      s'.result source target = s.result source target := by
  obtain ⟨hslide, hnext⟩ := slide?_eq hlt (h.window hlt)
  have hrest : target.drop s.position = target[s.position] :: target.drop (s.position + 1) :=
    List.drop_eq_getElem_cons hlt
  have hrange := h.range
  rw [round?, h.findMatch?_eq source, hmatch, Option.bind_eq_bind, Option.bind_some]
  refine ⟨⟨s.position + 1, s.sum.slide (target.drop s.position), s.start, s.waiting + 1, s.ops⟩, ?_, ?_, ?_, ?_⟩
  · simp only [hslide]
    rfl
  · exact ⟨by show s.start + (s.waiting + 1) = s.position + 1; omega, hlt, fun _ => hnext⟩
  · exact Nat.lt_succ_self _
  · have hpending : pending target ⟨s.position + 1, s.sum.slide (target.drop s.position), s.start, s.waiting + 1, s.ops⟩ =
        target[s.position] :: s.pending target := by
      show ((target.take (s.start + (s.waiting + 1))).drop s.start).reverse =
        target[s.position] :: ((target.take (s.start + s.waiting)).drop s.start).reverse
      rw [← Nat.add_assoc, hrange]
      exact reverse_drop_take_succ (by omega) hlt
    rw [result, result, hpending]
    show s.ops ++ scan _ _ (s.sum.slide (target.drop s.position)) _ _ = _
    rw [hrest] at hmatch ⊢
    rw [scan_of_findMatch_none hmatch]

/-- A round with a match: what waits is emitted, less what the match takes back, and then the match. -/
theorem round?_of_some {source target : Bytes} {s : Cursor} (h : s.Good target) (hlt : s.position < target.length)
    {m : Match}
    (hmatch : findMatch source (.ofSource source) s.sum (s.pending target) (target.drop s.position) = some m) :
    ∃ s', s.round? source target (.ofSource source) = some s' ∧ s'.Good target ∧ s.position < s'.position ∧
      s'.result source target = s.result source target := by
  obtain ⟨hback, hforward⟩ := findMatch_le hmatch
  have hpos := findMatch_forward_pos hmatch
  have hrest : target.drop s.position = target[s.position] :: target.drop (s.position + 1) :=
    List.drop_eq_getElem_cons hlt
  rw [length_pending h.waits] at hback
  rw [List.length_drop] at hforward
  obtain ⟨moved, hmoved, hsum⟩ := advance?_eq (show s.position + m.forward ≤ target.length by omega) (h.window hlt)
  have hflush : flush? target { s with waiting := s.waiting - m.backward } =
      some (s.ops ++ flush ((s.pending target).drop m.backward)) := by
    have hwaits : s.start + (s.waiting - m.backward) ≤ target.length :=
      Nat.le_trans (Nat.add_le_add_left (Nat.sub_le _ _) _) h.waits
    rw [flush?_eq hwaits, pending_of_minus h.waits hback]
  rw [round?, h.findMatch?_eq source, hmatch, Option.bind_eq_bind, Option.bind_some]
  refine ⟨⟨s.position + m.forward, moved, s.position + m.forward, 0,
    (s.ops ++ flush ((s.pending target).drop m.backward)) ++ [m.op]⟩, ?_, ?_, ?_, ?_⟩
  · simp only [minus?_eq hback, hflush, hmoved, Option.bind_eq_bind, Option.bind_some]
    rfl
  · exact ⟨rfl, by show s.position + m.forward ≤ _; omega, fun h => (hsum h).2⟩
  · show s.position < s.position + m.forward
    omega
  · have hpending : pending target ⟨s.position + m.forward, moved, s.position + m.forward, 0,
        (s.ops ++ flush ((s.pending target).drop m.backward)) ++ [m.op]⟩ = [] := by
      simp [pending]
    rw [result, result, hpending]
    show ((s.ops ++ flush ((s.pending target).drop m.backward)) ++ [m.op]) ++
      scan _ _ moved [] (target.drop (s.position + m.forward)) = _
    have hscan : scan source (.ofSource source) moved [] (target.drop (s.position + m.forward)) =
        scan source (.ofSource source) (s.sum.advance m.forward (target.drop s.position)) []
          ((target.drop s.position).drop m.forward) := by
      rw [List.drop_drop]
      rcases Nat.lt_or_ge (s.position + m.forward) target.length with hroom | hend
      · rw [(hsum hroom).1]
      · -- at the end of the target the checksum is not looked at
        rw [List.drop_eq_nil_of_le hend, scan_nil, scan_nil]
    rw [hscan]
    rw [hrest] at hmatch ⊢
    rw [scan_of_findMatch_some hmatch, List.append_assoc, List.append_assoc]
    rfl

/-- **ONE ROUND** succeeds, moves on, and leaves what is emitted in the end as it was. -/
theorem round?_eq (source : Bytes) {target : Bytes} {s : Cursor} (h : s.Good target) (hlt : s.position < target.length) :
    ∃ s', s.round? source target (.ofSource source) = some s' ∧ s'.Good target ∧ s.position < s'.position ∧
      s'.result source target = s.result source target := by
  cases hmatch : findMatch source (.ofSource source) s.sum (s.pending target) (target.drop s.position) with
  | none => exact round?_of_none h hlt hmatch
  | some m => exact round?_of_some h hlt hmatch

/-- **THE WHOLE WALK** succeeds if it has as many rounds as there are bytes left. -/
theorem walk?_eq {source target : Bytes} :
    ∀ (rounds : Nat) {s : Cursor}, s.Good target → target.length ≤ s.position + rounds →
      walk? source target (.ofSource source) rounds s = some (s.result source target) := by
  -- the walk is at its end when nothing of the target is left
  have hend : ∀ {s : Cursor}, s.Good target → ¬s.position < target.length →
      s.flush? target = some (s.result source target) := by
    intro s h hge
    rw [flush?_eq h.waits, result, List.drop_eq_nil_of_le (Nat.le_of_not_lt hge), scan_nil]
  intro rounds
  -- each round gets on, so the number of rounds is enough
  induction rounds with
  | zero =>
    intro s h hrounds
    have hge : ¬s.position < target.length := by omega
    rw [walk?, if_neg hge]
    exact hend h hge
  | succ rounds ih =>
    intro s h hrounds
    by_cases hlt : s.position < target.length
    · obtain ⟨s', hround, hgood, hmoves, hresult⟩ := round?_eq source h hlt
      rw [walk?, if_pos hlt, hround, Option.bind_eq_bind, Option.bind_some, ih hgood (by omega), hresult]
    · rw [walk?, if_neg hlt]
      exact hend h hlt

end Cursor

/-- **EVERY ACCESS IS IN RANGE**: the walk by positions ends without a failure, and its delta is that of the walk over
    the rest. -/
theorem deltaBy?_eq (source target : Bytes) : deltaBy? source target = some (deltaOf source target) := by
  by_cases hs : source = []
  · rw [deltaBy?, deltaOf, matchBlocks, if_pos (Or.inl hs), if_pos hs]
  · by_cases ht : target.length < blockSize
    · rw [deltaBy?, deltaOf, matchBlocks, if_pos (Or.inr ht), if_neg hs, if_pos ht]
    · have hle : blockSize ≤ target.length := Nat.le_of_not_lt ht
      have hgood : Cursor.Good target ⟨0, .ofWindow (target.take blockSize), 0, 0, []⟩ := by
        refine ⟨rfl, Nat.zero_le _, fun _ => ?_⟩
        show (Checksum.ofWindow (target.take blockSize)).length = _
        rw [Checksum.length_ofWindow, List.length_take]
        rfl
      rw [deltaBy?, deltaOf, matchBlocks, if_neg (fun h => h.elim hs ht), if_neg hs, if_neg ht,
        slice?_eq (Nat.zero_le _) hle, Option.bind_eq_bind, Option.bind_some, List.drop_zero,
        Cursor.walk?_eq target.length hgood (Nat.le_add_left _ _)]
      rfl

/-- **ROUND TRIP**: for any two byte strings the delta makes the second from the first and has its length, and it
    rebuilds every second one that fits memory. The walk that finds it ends without an access out of range. -/
theorem deltaOf_roundTrip (source target : Bytes) :
    apply source (deltaOf source target) = .ok target ∧ targetLength (deltaOf source target) = target.length ∧
      (target.length ≤ maxLength → rebuild source (deltaOf source target) = .ok target) ∧
      deltaBy? source target = some (deltaOf source target) :=
  ⟨apply_deltaOf source target, length_of_apply (apply_deltaOf source target), rebuild_deltaOf source,
    deltaBy?_eq source target⟩

end VersionedTree.Delta

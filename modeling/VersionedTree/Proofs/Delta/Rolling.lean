import VersionedTree.Delta.Checksum

/-!
# Rolling — a checksum kept while its window moves

However a window is moved on, its checksum stays the one that the bytes now in it have from scratch.

* **`foldl_feedIn`** — what bytes appended to a window add to its checksum; so **`ofWindow_cons`**, what its first byte
  stands for in it.
* **`feedOut_ofWindow`** and **`replace_ofWindow`** — dropping the first byte, and doing so while another is appended.
* **`slide_ofWindow`** and **`advance_ofWindow`** — the window over a target, by one byte and by any number of them, also
  where the target ends and the window shrinks.
-/

namespace VersionedTree.Delta.Checksum

/-! ## Windows byte by byte -/

/-- **BYTES APPENDED** to a window add their own checksum. The bytes before them are counted in each new beginning. -/
theorem foldl_feedIn (window : Bytes) : ∀ sum : Checksum, window.foldl feedIn sum =
    ⟨sum.low + (ofWindow window).low, sum.high + UInt16.ofNat window.length * sum.low + (ofWindow window).high,
      sum.length + window.length⟩ := by
  -- the sum is any one, since the first byte is in it when the others are fed in
  induction window with
  | nil =>
    intro sum
    simp [ofWindow, empty]
  | cons c window ih =>
    intro sum
    have hfresh : ofWindow (c :: window) = window.foldl feedIn (empty.feedIn c) := rfl
    have hlength : UInt16.ofNat (window.length + 1) = UInt16.ofNat window.length + 1 := UInt16.ofNat_add _ _
    rw [hfresh, List.foldl_cons, ih, ih, List.length_cons, hlength]
    generalize UInt16.ofNat window.length = n
    simp only [feedIn, empty, mk.injEq]
    refine ⟨?_, ?_, ?_⟩
    · grind
    · grind
    · omega

/-- A checksum knows the length of its window. -/
@[simp] theorem length_ofWindow (window : Bytes) : (ofWindow window).length = window.length := by
  rw [ofWindow, foldl_feedIn]
  exact Nat.zero_add _

/-- One byte more is fed in. -/
theorem ofWindow_concat (window : Bytes) (c : UInt8) : ofWindow (window ++ [c]) = (ofWindow window).feedIn c := by
  rw [ofWindow, List.foldl_append]
  rfl

/-- The first byte of a window is counted in every beginning. -/
theorem ofWindow_cons (c : UInt8) (window : Bytes) : ofWindow (c :: window) =
    ⟨(ofWindow window).low + c.toUInt16, (ofWindow window).high + UInt16.ofNat (window.length + 1) * c.toUInt16,
      window.length + 1⟩ := by
  have hfresh : ofWindow (c :: window) = window.foldl feedIn (empty.feedIn c) := rfl
  have hlength : UInt16.ofNat (window.length + 1) = UInt16.ofNat window.length + 1 := UInt16.ofNat_add _ _
  rw [hfresh, foldl_feedIn, hlength]
  generalize UInt16.ofNat window.length = n
  simp only [feedIn, empty, mk.injEq]
  refine ⟨?_, ?_, ?_⟩
  · grind
  · grind
  · omega

/-- **DROPPING THE FIRST BYTE** of a window gives the checksum of the others. -/
theorem feedOut_ofWindow (c : UInt8) (window : Bytes) : (ofWindow (c :: window)).feedOut c = ofWindow window := by
  rw [ofWindow_cons, feedOut]
  simp only [UInt16.add_sub_cancel, Nat.add_sub_cancel]
  rw [← length_ofWindow window]

/-- On a full window, to replace is to drop the first byte and then to append one. -/
theorem replace_eq_feedIn_feedOut {sum : Checksum} (h : sum.length = blockSize) (out c : UInt8) :
    sum.replace out c = (sum.feedOut out).feedIn c := by
  rw [replace, feedOut, feedIn, h]
  rfl

/-- **A FULL WINDOW MOVED ON** by one byte has the checksum of its new bytes. -/
theorem replace_ofWindow {out : UInt8} {window : Bytes} (h : (out :: window).length = blockSize) (c : UInt8) :
    (ofWindow (out :: window)).replace out c = ofWindow (window ++ [c]) := by
  rw [replace_eq_feedIn_feedOut (by rw [length_ofWindow, h]), feedOut_ofWindow, ofWindow_concat]

/-! ## The window over a target -/

/-- **SLIDING** over a target, of which `rest` is left: the window is as long as it can be before and after. -/
theorem slide_ofWindow (rest : Bytes) :
    (ofWindow (rest.take blockSize)).slide rest = ofWindow ((rest.drop 1).take blockSize) := by
  cases rest with
  | nil => rfl
  | cons out rest =>
    have htake : (out :: rest).take blockSize = out :: rest.take (blockSize - 1) := rfl
    have hnext : (out :: rest)[blockSize]? = rest[blockSize - 1]? := rfl
    rw [slide, hnext, htake, List.drop_one, List.tail_cons]
    cases hc : rest[blockSize - 1]? with
    | none =>
      -- no byte follows the window, so all of the rest is in it
      have hle : rest.length ≤ blockSize - 1 := List.getElem?_eq_none_iff.1 hc
      have hle' : rest.length ≤ blockSize := Nat.le_succ_of_le hle
      rw [List.take_of_length_le hle, List.take_of_length_le hle']
      exact feedOut_ofWindow out rest
    | some c =>
      obtain ⟨hlt, rfl⟩ := List.getElem?_eq_some_iff.1 hc
      have hfull : (out :: rest.take (blockSize - 1)).length = blockSize := by
        rw [List.length_cons, List.length_take_of_le (Nat.le_of_lt hlt)]
        rfl
      have hmoved : rest.take blockSize = rest.take (blockSize - 1) ++ [rest[blockSize - 1]] :=
        List.take_succ_eq_append_getElem hlt
      rw [hmoved]
      exact replace_ofWindow hfull _

/-- Sliding by some bytes gives the checksum of the window further on, by induction on them. -/
theorem slideBy_ofWindow (n : Nat) : ∀ rest : Bytes,
    (ofWindow (rest.take blockSize)).slideBy n rest = ofWindow ((rest.drop n).take blockSize) := by
  induction n with
  | zero =>
    intro rest
    rfl
  | succ n ih =>
    intro rest
    rw [slideBy, slide_ofWindow, ih, List.drop_drop, Nat.add_comm]

/-- **ADVANCING** by any number of bytes, short or long. -/
theorem advance_ofWindow (n : Nat) (rest : Bytes) :
    (ofWindow (rest.take blockSize)).advance n rest = ofWindow ((rest.drop n).take blockSize) := by
  rw [advance]
  split
  case isTrue => rfl
  case isFalse => exact slideBy_ofWindow n rest

end VersionedTree.Delta.Checksum

import Mathlib.Algebra.BigOperators.Fin
import VersionedTree.Proofs.Delta.Rolling

/-!
# Moves — a window that grows, shrinks and slides

A window changes at its ends: a byte is appended, the first byte is dropped, or a full window is moved on by one byte. In
whatever order this is done, the checksum that is kept along the way is that of the bytes in the window. What it says of
these bytes can be read off the window: their sum, and their sum with each byte counted from its place to the end.

* **`Move.Leads`** — the windows that steps lead to.
* **`run_of_leads`** — the checksum that they leave.
* **`low_ofWindow`** and **`high_ofWindow`** — the two sums of a window.
* **`Words.run_of_leads`** — in words of 32 bits that wrap around, with a mask on the sums, no bit of the checksum is lost.
* **`kept_by_moves`** — the theorem.
-/

namespace VersionedTree.Delta

namespace Move

/-- What a step makes of a window. Only what comes first in a window can be dropped from it. -/
inductive Takes : Move → Bytes → Bytes → Prop where
  | feedIn {window : Bytes} {c : UInt8} : Takes (.feedIn c) window (window ++ [c])
  | feedOut {window : Bytes} {c : UInt8} : Takes (.feedOut c) (c :: window) window
  | replace {window : Bytes} {out c : UInt8} (hfull : (out :: window).length = blockSize) :
      Takes (.replace out c) (out :: window) (window ++ [c])

/-- The windows that steps lead to, one after the other. -/
inductive Leads : Bytes → List Move → Bytes → Prop where
  | nil {window : Bytes} : Leads window [] window
  | cons {start next window : Bytes} {move : Move} {moves : List Move} (h : move.Takes start next)
      (hrest : Leads next moves window) : Leads start (move :: moves) window

end Move

namespace Checksum

/-! ## Steps on a checksum -/

variable {start next window : Bytes}

/-- The checksum of a window becomes that of the next one. -/
theorem move_ofWindow {m : Move} (h : m.Takes start next) : (ofWindow start).move m = ofWindow next := by
  cases h with
  | feedIn => exact (ofWindow_concat _ _).symm
  | feedOut => exact feedOut_ofWindow _ _
  | replace hfull => exact replace_ofWindow hfull _

/-- **THE CHECKSUM OF THE WINDOW** is what steps leave, whichever they are. -/
theorem run_of_leads {moves : List Move} (h : Move.Leads start moves window) :
    (ofWindow start).run moves = ofWindow window := by
  induction h with
  | nil => rfl
  | cons hmove _ ih =>
    rw [run, List.foldl_cons, move_ofWindow hmove]
    exact ih

/-! ## The sums of a window -/

/-- Every byte is counted once in the low sum. -/
theorem low_ofWindow (window : Bytes) :
    (ofWindow window).low.toNat = (∑ i : Fin window.length, window[i].toNat) % UInt16.size := by
  induction window with
  | nil => rfl
  | cons c window ih =>
    have hsum : ∑ i : Fin (c :: window).length, (c :: window)[i].toNat =
        c.toNat + ∑ i : Fin window.length, window[i].toNat := Fin.sum_univ_succ _
    rw [ofWindow_cons, UInt16.toNat_add, ih, hsum, UInt8.toNat_toUInt16, Nat.mod_add_mod, Nat.add_comm]

/-- In the high sum a byte is counted as often as there are bytes from its place on. -/
theorem high_ofWindow (window : Bytes) : (ofWindow window).high.toNat =
    (∑ i : Fin window.length, (window.length - i) * window[i].toNat) % UInt16.size := by
  induction window with
  | nil => rfl
  | cons c window ih =>
    have hsum : ∑ i : Fin (c :: window).length, ((c :: window).length - i) * (c :: window)[i].toNat =
        (window.length + 1) * c.toNat + ∑ i : Fin window.length, (window.length - i) * window[i].toNat := by
      refine (Fin.sum_univ_succ _).trans (congrArg₂ (· + ·) rfl (Finset.sum_congr rfl fun i _ => ?_))
      have hplace : (c :: window).length - (i.succ : Nat) = window.length - i := Nat.add_sub_add_right ..
      exact congrArg (· * window[i].toNat) hplace
    have hfirst : (UInt16.ofNat (window.length + 1) * c.toUInt16).toNat =
        (window.length + 1) * c.toNat % UInt16.size := by
      rw [UInt16.toNat_mul, UInt16.toNat_ofNat', UInt8.toNat_toUInt16, Nat.mod_mul_mod]
    rw [ofWindow_cons, UInt16.toNat_add, ih, hsum, hfirst, ← Nat.add_mod, Nat.add_comm]

/-- Both sums are in the word, one in each half. -/
theorem toNat_value (sum : Checksum) : sum.value.toNat = sum.high.toNat * UInt16.size + sum.low.toNat := by
  have hlow : sum.low.toNat < 2 ^ 16 := sum.low.toNat_lt
  have hhigh : sum.high.toNat <<< 16 < 2 ^ 32 := by
    rw [Nat.shiftLeft_eq]
    exact Nat.mul_lt_mul_of_pos_right sum.high.toNat_lt (by decide)
  rw [value, UInt32.toNat_or, UInt32.toNat_shiftLeft, UInt16.toNat_toUInt32, UInt16.toNat_toUInt32]
  show sum.high.toNat <<< 16 % 2 ^ 32 ||| sum.low.toNat = _
  rw [Nat.mod_eq_of_lt hhigh, ← Nat.shiftLeft_add_eq_or_of_lt hlow, Nat.shiftLeft_eq]

end Checksum

/-! ## Words -/

namespace Words

/-- Masking a word keeps its lower half. -/
theorem and_mask (x : UInt32) : x &&& mask = x.toUInt16.toUInt32 := by
  refine UInt32.toNat_inj.1 ?_
  rw [UInt32.toNat_and, UInt16.toNat_toUInt32, UInt32.toNat_toUInt16]
  exact Nat.and_two_pow_sub_one_eq_mod _ 16

/-- **NO BIT IS LOST** in words that wrap around, since the mask keeps as many bits as the sums have. -/
theorem move_words {start next : Bytes} {m : Move} (h : m.Takes start next) :
    (Checksum.ofWindow start).words.move m = (Checksum.ofWindow next).words := by
  have hlength : (Checksum.ofWindow start).length = start.length := Checksum.length_ofWindow start
  rw [← Checksum.move_ofWindow h]
  generalize Checksum.ofWindow start = sum at hlength
  cases h with
  | feedIn =>
    simp only [move, Checksum.words, Checksum.move, Checksum.feedIn, and_mask, UInt32.toUInt16_add,
      UInt16.toUInt16_toUInt32, UInt8.toUInt16_toUInt32, UInt32.ofNat_add]
    rfl
  | feedOut =>
    -- there is a byte to drop, so the length does not wrap around
    have hone : 1 ≤ sum.length := by
      rw [hlength]
      exact Nat.succ_pos _
    simp only [move, Checksum.words, Checksum.move, Checksum.feedOut, and_mask, UInt32.toUInt16_sub, UInt32.toUInt16_mul,
      UInt16.toUInt16_toUInt32, UInt8.toUInt16_toUInt32, UInt32.toUInt16_ofNat', UInt32.ofNat_sub hone]
    rfl
  | replace _ =>
    simp only [move, Checksum.words, Checksum.move, Checksum.replace, and_mask, UInt32.toUInt16_add, UInt32.toUInt16_sub,
      UInt32.toUInt16_mul, UInt16.toUInt16_toUInt32, UInt8.toUInt16_toUInt32, UInt32.toUInt16_ofNat']

/-- Moves that lead from one window to another bring the words of its checksum along. -/
theorem run_of_leads {start window : Bytes} {moves : List Move} (h : Move.Leads start moves window) :
    (Checksum.ofWindow start).words.run moves = (Checksum.ofWindow window).words := by
  induction h with
  | nil => rfl
  | cons hmove _ ih =>
    rw [run, List.foldl_cons, move_words hmove]
    exact ih

end Words

/-- Feeding bytes in one by one leads to the window with them at its end. -/
theorem Move.leads_feedIn (start window : Bytes) : Leads start (window.map .feedIn) (start ++ window) := by
  induction window generalizing start with
  | nil => exact (List.append_nil start).symm ▸ .nil
  | cons c window ih =>
    have hrest := ih (start ++ [c])
    rw [List.append_assoc, List.singleton_append] at hrest
    exact .cons .feedIn hrest

/-- The words of a window are those of its checksum. -/
theorem Words.ofWindow_eq (window : Bytes) : ofWindow window = (Checksum.ofWindow window).words :=
  run_of_leads (Move.leads_feedIn [] window)

/-- **A CHECKSUM IS KEPT BY ALL MOVES.** (a) Whatever steps lead from one window to another, they make the checksum of the
    one into that of the other, in both sums and in the length. (b) The same is true in words of 32 bits. (c) The checksum of
    a window has the sum of the bytes in its low half, and in its high half their sum with each byte counted from its place
    to the end, both modulo 2^16; in words it is the same, and the length is exact up to 2^32. -/
theorem Checksum.kept_by_moves :
    (∀ start moves window, Move.Leads start moves window →
      (ofWindow start).run moves = ofWindow window ∧ (Words.ofWindow start).run moves = Words.ofWindow window) ∧
    ∀ window : Bytes, window.length < UInt32.size →
      (ofWindow window).value.toNat % UInt16.size = (∑ i : Fin window.length, window[i].toNat) % UInt16.size ∧
      (ofWindow window).value.toNat / UInt16.size =
        (∑ i : Fin window.length, (window.length - i) * window[i].toNat) % UInt16.size ∧
      (ofWindow window).length = window.length ∧
      (Words.ofWindow window).value = (ofWindow window).value ∧
      (Words.ofWindow window).length.toNat = window.length := by
  constructor
  · intro start moves window hleads
    refine ⟨run_of_leads hleads, ?_⟩
    rw [Words.ofWindow_eq, Words.ofWindow_eq]
    exact Words.run_of_leads hleads
  · intro window hlength
    -- the low half of the word is below its base, so a quotient and a remainder take the word apart
    have hlow : (ofWindow window).low.toNat < UInt16.size := (ofWindow window).low.toNat_lt
    rw [toNat_value, Words.ofWindow_eq]
    refine ⟨?_, ?_, length_ofWindow window, rfl, ?_⟩
    · rw [Nat.mul_add_mod_self_right, Nat.mod_eq_of_lt hlow, low_ofWindow]
    · rw [Nat.add_comm, Nat.add_mul_div_right _ _ (by decide), Nat.div_eq_of_lt hlow, Nat.zero_add, high_ofWindow]
    · rw [words, length_ofWindow]
      exact UInt32.toNat_ofNat_of_lt' hlength

/-- A full window of high bytes is moved on, shrinks and grows again. Its high sum was beyond 2^16 several times over. -/
theorem Checksum.high_bytes_moved :
    (ofWindow (.replicate 64 255)).run [.replace 255 1, .feedOut 255, .feedIn 2] = ofWindow (.replicate 62 255 ++ [1, 2]) ∧
      (ofWindow (.replicate 64 255)).value.toNat % UInt16.size = 64 * 255 ∧
      (ofWindow (.replicate 64 255)).value.toNat / UInt16.size = 2080 * 255 % UInt16.size := by
  have hleads : Move.Leads (.replicate 64 255) [.replace 255 1, .feedOut 255, .feedIn 2] (.replicate 62 255 ++ [1, 2]) :=
    .cons (.replace rfl) (.cons .feedOut (.cons .feedIn .nil))
  have hlength : (List.replicate 64 255 : Bytes).length < UInt32.size := by decide
  obtain ⟨hlow, hhigh, -⟩ := kept_by_moves.2 _ hlength
  exact ⟨(kept_by_moves.1 _ _ _ hleads).1, hlow.trans (by decide +kernel), hhigh.trans (by decide +kernel)⟩

end VersionedTree.Delta

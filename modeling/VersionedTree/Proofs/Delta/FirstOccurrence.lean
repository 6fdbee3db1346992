import Mathlib.Order.Bounds.Basic
import VersionedTree.Proofs.Delta.PlainScan

/-!
# First occurrences — what the block table stands for

The table of a source is the map that sends a checksum to the first block that has it. It answers so although a search
goes round from slot to slot with no bound on its steps: at any time while the table is filled more than half of the slots
are free, and the number of slots is a power of two, so the mask that keeps a search inside the table takes it past
every slot.

* **`IsBlock`** — the offsets of the blocks with a checksum.
* **`Walks`** — a search as a walk that ends only where it has to. **`walks_search`** says that every search ends like
  that, as long as there is a free slot.
* **`filled`** — the table when some blocks have been added. **`two_mul_taken_lt`** is its load.
* **`first_occurrence`** — the theorem.
-/

namespace VersionedTree.Delta.BlockTable

variable {slots : Array (Option Slot)} {source : Bytes} {sum : UInt32} {offset : Nat} {table : BlockTable}

/-! ## Blocks by their checksum -/

/-- True of the offset of a block of the source with this checksum. The last block may be short, but it is not empty. -/
structure IsBlock (source : Bytes) (sum : UInt32) (offset : Nat) : Prop where
  dvd : blockSize ∣ offset
  lt : offset < source.length
  sum_eq : (Checksum.ofWindow (blockAt source offset)).value = sum

/-- An offset is that of a block with some sum just if it is a multiple of the block size inside the source. -/
theorem isBlock_iff : IsBlock source sum offset ↔
    offset < source.length ∧ offset % blockSize = 0 ∧ (Checksum.ofWindow (blockAt source offset)).value = sum := by
  constructor
  · intro h
    exact ⟨h.lt, Nat.mod_eq_zero_of_dvd h.dvd, h.sum_eq⟩
  · rintro ⟨hlt, hmod, hsum⟩
    exact ⟨Nat.dvd_of_mod_eq_zero hmod, hlt, hsum⟩

/-- The first block is the one at the least offset. -/
theorem firstBlock?_eq_some_iff : firstBlock? source sum = some offset ↔ IsLeast {o | IsBlock source sum o} offset := by
  constructor
  case mp =>
    intro h
    obtain ⟨hblock, hrange, hbefore⟩ := List.find?_range_eq_some.1 h
    have hlt := List.mem_range.1 hrange
    refine ⟨isBlock_iff.2 ⟨hlt, of_decide_eq_true hblock⟩, ?_⟩
    intro other hother
    obtain ⟨-, hsum⟩ := isBlock_iff.1 hother
    refine Nat.le_of_not_lt fun hless => ?_
    have hnot := hbefore other hless
    rw [decide_eq_true hsum] at hnot
    exact nomatch hnot
  case mpr =>
    rintro ⟨hblock, hleast⟩
    obtain ⟨hlt, hsum⟩ := isBlock_iff.1 hblock
    refine List.find?_range_eq_some.2 ⟨decide_eq_true hsum, List.mem_range.2 hlt, fun other hless => ?_⟩
    simp only [Bool.not_eq_true', decide_eq_false_iff_not]
    intro hother
    exact Nat.not_le_of_lt hless (hleast (isBlock_iff.2 ⟨Nat.lt_trans hless hlt, hother⟩))

/-- There is no first block just if there is none at all. -/
theorem firstBlock?_eq_none_iff : firstBlock? source sum = none ↔ ∀ offset, ¬ IsBlock source sum offset := by
  constructor
  case mp =>
    intro h offset hblock
    obtain ⟨hlt, hsum⟩ := isBlock_iff.1 hblock
    have hnot := List.find?_range_eq_none.1 h offset hlt
    rw [decide_eq_true hsum] at hnot
    exact nomatch hnot
  case mpr =>
    intro h
    refine List.find?_range_eq_none.2 fun offset hlt => ?_
    simp only [Bool.not_eq_true', decide_eq_false_iff_not]
    exact fun hsum => h offset (isBlock_iff.2 ⟨hlt, hsum⟩)

/-! ## Searches without a bound -/

/-- A search for a checksum, from a slot on. It ends at a slot that is free or holds the checksum, and goes on to the next
    slot from any other; a mask brings it back to the beginning. -/
inductive Walks (slots : Array (Option Slot)) (sum : UInt32) : (index : Nat) → Probe → Prop where
  | free {index : Nat} (h : slots[index]? = some none) : Walks slots sum index (.free index)
  | found {index : Nat} {slot : Slot} (h : slots[index]? = some (some slot)) (hsum : slot.sum = sum) :
      Walks slots sum index (.found slot)
  | next {index : Nat} {slot : Slot} {probe : Probe} (h : slots[index]? = some (some slot)) (hsum : slot.sum ≠ sum)
      (hrest : Walks slots sum ((index + 1) &&& (slots.size - 1)) probe) : Walks slots sum index probe

/-- Masking by a power of two less one is the remainder. -/
theorem and_mask_eq_mod {size : Nat} (h : size.isPowerOfTwo) (index : Nat) : index &&& (size - 1) = index % size := by
  obtain ⟨k, rfl⟩ := h
  exact Nat.and_two_pow_sub_one_eq_mod index k

/-- A search that ends before its steps are used up ends where the walk does. -/
theorem walks_probe (hsize : slots.size.isPowerOfTwo) : ∀ {steps index : Nat}, index < slots.size →
    probe slots sum steps index ≠ .full → Walks slots sum index (probe slots sum steps index)
  | 0, _, _, h => absurd rfl h
  | steps + 1, index, hindex, h => by
    rw [probe] at h ⊢
    split at h
    case h_1 slot hslot =>
      split at h
      case isTrue hsum =>
        rw [if_pos hsum]
        exact .found hslot hsum
      case isFalse hsum =>
        have hnext : (index + 1) % slots.size < slots.size := Nat.mod_lt _ (Nat.zero_lt_of_lt hindex)
        rw [if_neg hsum]
        refine .next hslot hsum ?_
        rw [and_mask_eq_mod hsize]
        exact walks_probe hsize hnext h
    case h_2 hfree =>
      refine .free ?_
      rw [Array.getElem?_eq_getElem hindex] at hfree ⊢
      exact congrArg some (Option.eq_none_iff_forall_ne_some.2 fun slot hslot => hfree slot (congrArg some hslot))

/-- **EVERY SEARCH ENDS** in a table that is not full, from the slot that its checksum hashes to. -/
theorem walks_search (hsize : table.capacity.isPowerOfTwo) (hroom : table.taken < table.capacity) (sum : UInt32) :
    Walks table.slots sum (hash sum &&& (table.capacity - 1)) (table.search sum) := by
  have hhome : hash sum % table.capacity < table.slots.size := Nat.mod_lt _ (Nat.zero_lt_of_lt hroom)
  rw [and_mask_eq_mod hsize]
  exact walks_probe hsize hhome (search_ne_full hroom)

/-! ## The table while it is filled -/

/-- The table of a source when its first `n` blocks have been added. -/
def filled (source : Bytes) (n : Nat) : BlockTable :=
  ((blocks source).take n).foldl insert (empty source.length)

/-- The table of a source is filled with all its blocks. -/
theorem filled_length_blocks (source : Bytes) : filled source (blocks source).length = ofSource source := by
  rw [filled, List.take_length, ofSource]

/-- Filling a table leaves its capacity alone. -/
theorem capacity_foldl_insert (more : List Slot) (table : BlockTable) :
    (more.foldl insert table).capacity = table.capacity := by
  induction more generalizing table with
  | nil => rfl
  | cons block more ih => exact (ih _).trans (capacity_insert table block)

/-- A table has the capacity that it was made with, however far it is filled. -/
theorem capacity_filled (source : Bytes) (n : Nat) : (filled source n).capacity = (empty source.length).capacity :=
  capacity_foldl_insert _ _

/-- The table of a source has the capacity that is made for its length. -/
theorem capacity_ofSource (source : Bytes) : (ofSource source).capacity = (empty source.length).capacity := by
  rw [← filled_length_blocks, capacity_filled]

/-- Capacities are powers of two. -/
theorem isPowerOfTwo_capacity_empty (length : Nat) : (empty length).capacity.isPowerOfTwo := by
  rw [capacity, empty, Array.size_replicate, powerAbove, Nat.one_shiftLeft, Nat.mul_comm]
  exact Nat.isPowerOfTwo_mul_two_of_isPowerOfTwo ⟨_, rfl⟩

/-- **THE TABLE IS NEVER HALF FULL.** -/
theorem two_mul_taken_lt (source : Bytes) (n : Nat) : 2 * (filled source n).taken < (filled source n).capacity := by
  have hcount : ((blocks source).take n).length ≤ (blocks source).length := List.length_take_le' n _
  have hblocks := length_blocks_le_div source
  have hslots := lt_capacity_empty source.length
  have hheld := (holds_empty source.length).foldl_insert ((blocks source).take n) (by
    rw [List.length_nil]
    omega)
  have hroom : (filled source n).taken ≤ ([] ++ (blocks source).take n).length := hheld.room
  rw [List.nil_append] at hroom
  rw [capacity_filled]
  omega

/-- **THE TABLE IS THE MAP OF FIRST OCCURRENCES.** For a checksum it gives the least offset of a block with this checksum,
    and nothing if there is no such block. The number of its slots is a power of two, more than twice the number of blocks
    that there can be; so at any time while the table is filled, and when it is, there is a free slot, and every search
    ends where the walk ends that has no bound on its steps. -/
theorem first_occurrence (source : Bytes) :
    (∀ sum offset, (ofSource source).find sum = some offset ↔ IsLeast {o | IsBlock source sum o} offset) ∧
      (∀ sum, (ofSource source).find sum = none ↔ ∀ offset, ¬ IsBlock source sum offset) ∧
      (ofSource source).capacity.isPowerOfTwo ∧
      2 * (source.length / blockSize + 1) < (ofSource source).capacity ∧
      ∀ n, (∃ i : Nat, (filled source n).slots[i]? = some none) ∧
        ∀ sum, Walks (filled source n).slots sum (hash sum &&& ((filled source n).capacity - 1))
          ((filled source n).search sum) := by
  have hpower := isPowerOfTwo_capacity_empty source.length
  refine ⟨?_, ?_, ?_, ?_, ?_⟩
  · intro sum offset
    rw [find_eq_firstBlock?]
    exact firstBlock?_eq_some_iff
  · intro sum
    rw [find_eq_firstBlock?]
    exact firstBlock?_eq_none_iff
  · rwa [capacity_ofSource]
  · rw [capacity_ofSource]
    exact lt_capacity_empty source.length
  · intro n
    -- at any time less than half of the slots are taken, so every walk meets a free one
    have hload := two_mul_taken_lt source n
    have hroom : (filled source n).taken < (filled source n).capacity := by omega
    refine ⟨exists_free_of_lt hroom, fun sum => walks_search ?_ hroom sum⟩
    rwa [capacity_filled]

end VersionedTree.Delta.BlockTable

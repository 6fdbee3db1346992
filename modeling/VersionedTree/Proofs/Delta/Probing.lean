import VersionedTree.Delta.BlockTable

/-!
# Probing — the table answers with the first block of a checksum

A search goes from slot to slot until it meets its checksum or a free slot. Blocks are never taken out, so what lies on
the way of a search stays there, and a block that is added at a free slot is in nobody's way.

* **`Holds`** — the table holds a list of blocks: a search for the checksum of one ends at the first of the list that has
  it. **`Holds.insert`** is the step, **`holds_ofSource`** the table of a whole source.
* **`exists_free_of_lt`** — with more slots than blocks there is a free slot, so no search goes round in vain
  (**`probe_ne_full`**).
* **`find_ofSource`** — the table of a source answers as a search through the list of its blocks does.
-/

namespace VersionedTree.Delta.BlockTable

variable {slots : Array (Option Slot)} {sum : UInt32} {slot block : Slot} {i j : Nat}

/-! ## Where a search ends -/

/-- A search finds a slot of the table, and one with its checksum. -/
theorem found_of_probe : ∀ {steps index : Nat}, probe slots sum steps index = .found slot →
    some slot ∈ slots ∧ slot.sum = sum
  | 0, _, h => nomatch h
  | steps + 1, index, h => by
    rw [probe] at h
    split at h
    case h_1 met hmet =>
      split at h
      case isTrue hsum =>
        cases h
        exact ⟨Array.mem_of_getElem? hmet, hsum⟩
      case isFalse => exact found_of_probe h
    case h_2 => exact nomatch h

/-- A search that ends at a free slot ends inside the table. -/
theorem free_of_probe : ∀ {steps index : Nat}, index < slots.size → probe slots sum steps index = .free i →
    slots[i]? = some none
  | 0, _, _, h => nomatch h
  | steps + 1, index, hindex, h => by
    rw [probe] at h
    split at h
    case h_1 =>
      split at h
      case isTrue => exact nomatch h
      case isFalse => exact free_of_probe (Nat.mod_lt _ (Nat.zero_lt_of_lt hindex)) h
    case h_2 hfree =>
      cases h
      rw [Array.getElem?_eq_getElem hindex] at hfree ⊢
      exact congrArg some (Option.eq_none_iff_forall_ne_some.2 fun met hmet => hfree met (congrArg some hmet))

/-- A search that ends nowhere has met only slots that are taken. -/
theorem taken_of_probe_full : ∀ {steps index : Nat}, index < slots.size → probe slots sum steps index = .full →
    ∀ k < steps, ∃ met, slots[(index + k) % slots.size]? = some (some met)
  | 0, _, _, _, _, hk => absurd hk (Nat.not_lt_zero _)
  | steps + 1, index, hindex, h, k, hk => by
    rw [probe] at h
    split at h
    case h_1 met hmet =>
      split at h
      case isTrue => exact nomatch h
      case isFalse =>
        cases k with
        | zero =>
          refine ⟨met, ?_⟩
          rw [Nat.add_zero, Nat.mod_eq_of_lt hindex]
          exact hmet
        | succ k =>
          have hnext := taken_of_probe_full (Nat.mod_lt _ (Nat.zero_lt_of_lt hindex)) h k (Nat.lt_of_succ_lt_succ hk)
          rw [Nat.mod_add_mod] at hnext
          rwa [Nat.add_right_comm] at hnext
    case h_2 => exact nomatch h

/-- **A SEARCH THROUGH ALL SLOTS ENDS** if one of them is free. -/
theorem probe_ne_full {index : Nat} (hindex : index < slots.size) (hfree : slots[j]? = some none) :
    probe slots sum slots.size index ≠ .full := by
  intro h
  have hj : j < slots.size := (Array.getElem?_eq_some_iff.1 hfree).1
  -- the slot at `j` is met after as many steps as it lies ahead, going round
  obtain ⟨met, hmet⟩ := taken_of_probe_full hindex h ((j + (slots.size - index)) % slots.size)
    (Nat.mod_lt _ (Nat.zero_lt_of_lt hindex))
  have hround : (index + (j + (slots.size - index)) % slots.size) % slots.size = j := by
    rw [Nat.add_mod_mod, show index + (j + (slots.size - index)) = j + slots.size by omega, Nat.add_mod_right,
      Nat.mod_eq_of_lt hj]
  rw [hround, hfree] at hmet
  exact nomatch hmet

/-! ## Filling a free slot -/

/-- A slot that is taken is another one than a free slot, so it stays when that is filled. -/
theorem getElem?_fill (hfree : slots[i]? = some none) (hslot : slots[j]? = some (some slot)) :
    (slots.setIfInBounds i (some block))[j]? = some (some slot) := by
  have hne : i ≠ j := by
    rintro rfl
    exact nomatch hfree.symm.trans hslot
  rw [Array.getElem?_setIfInBounds, if_neg hne, hslot]

/-- What a search finds, it finds when a free slot is filled. -/
theorem probe_fill_of_found (hfree : slots[i]? = some none) : ∀ {steps index : Nat},
    probe slots sum steps index = .found slot →
      probe (slots.setIfInBounds i (some block)) sum steps index = .found slot
  | 0, _, h => nomatch h
  | steps + 1, index, h => by
    rw [probe] at h
    split at h
    case h_1 met hmet =>
      rw [probe, getElem?_fill hfree hmet, Array.size_setIfInBounds]
      dsimp only
      split at h
      case isTrue hsum =>
        rw [if_pos hsum]
        exact h
      case isFalse hsum =>
        rw [if_neg hsum]
        exact probe_fill_of_found hfree h
    case h_2 => exact nomatch h

/-- A search that ended at a free slot finds the block with which that slot is filled. -/
theorem probe_fill_of_free : ∀ {steps index : Nat}, index < slots.size →
    probe slots block.sum steps index = .free i →
      probe (slots.setIfInBounds i (some block)) block.sum steps index = .found block
  | 0, _, _, h => nomatch h
  | steps + 1, index, hindex, h => by
    have hfree := free_of_probe hindex h
    rw [probe] at h
    split at h
    case h_1 met hmet =>
      rw [probe, getElem?_fill hfree hmet, Array.size_setIfInBounds]
      dsimp only
      split at h
      case isTrue => exact nomatch h
      case isFalse hsum =>
        rw [if_neg hsum]
        exact probe_fill_of_free (Nat.mod_lt _ (Nat.zero_lt_of_lt hindex)) h
    case h_2 =>
      cases h
      rw [probe, Array.getElem?_setIfInBounds, if_pos rfl, if_pos hindex]
      dsimp only
      rw [if_pos rfl]

/-! ## Tables that hold blocks -/

/-- The number of slots that are taken. -/
def taken (table : BlockTable) : Nat :=
  table.slots.countP Option.isSome

/-- The table holds the blocks of a list, of those with one checksum the first. -/
structure Holds (table : BlockTable) (held : List Slot) : Prop where
  search : ∀ {sum slot}, held.find? (fun other => other.sum = sum) = some slot → table.search sum = .found slot
  mem : ∀ {slot}, some slot ∈ table.slots → slot ∈ held
  room : table.taken ≤ held.length

variable {table : BlockTable} {held : List Slot}

/-- A table with fewer blocks than slots has a free slot. -/
theorem exists_free_of_lt (h : table.taken < table.capacity) : ∃ j : Nat, table.slots[j]? = some none := by
  have hnot : ¬∀ slot ∈ table.slots, slot.isSome = true := fun hall => Nat.ne_of_lt h (Array.countP_eq_size.2 hall)
  simp only [Classical.not_forall] at hnot
  obtain ⟨slot, hmem, hnone⟩ := hnot
  obtain ⟨j, hj, hslot⟩ := Array.mem_iff_getElem.1 hmem
  refine ⟨j, ?_⟩
  rw [Array.getElem?_eq_getElem hj, hslot, Option.not_isSome_iff_eq_none.1 hnone]

/-- Searching such a table does not come back to where it started. -/
theorem search_ne_full (h : table.taken < table.capacity) : table.search sum ≠ .full := by
  obtain ⟨j, hfree⟩ := exists_free_of_lt h
  exact probe_ne_full (Nat.mod_lt _ (Nat.zero_lt_of_lt h)) hfree

/-- Inserting leaves the capacity alone. -/
theorem capacity_insert (table : BlockTable) (block : Slot) : (table.insert block).capacity = table.capacity := by
  rw [insert]
  split
  case h_1 => exact Array.size_setIfInBounds
  case h_2 => rfl

/-- Filling a free slot takes one more. -/
theorem taken_fill (hfree : table.slots[i]? = some none) :
    taken ⟨table.slots.setIfInBounds i (some block)⟩ = table.taken + 1 := by
  obtain ⟨hi, hslot⟩ := Array.getElem?_eq_some_iff.1 hfree
  rw [taken, Array.setIfInBounds, dif_pos hi, Array.countP_set, hslot]
  rfl

/-- With one more block the first of a checksum is what it was, or it is the new block and there was none. -/
theorem find?_concat_cases (h : (held ++ [block]).find? (fun other => other.sum = sum) = some slot) :
    held.find? (fun other => other.sum = sum) = some slot ∨
      (∀ other ∈ held, other.sum ≠ sum) ∧ block = slot ∧ block.sum = sum := by
  rw [List.find?_append] at h
  cases hfind : held.find? fun other => other.sum = sum with
  | some slot' => exact .inl (by rwa [hfind, Option.some_or] at h)
  | none =>
    rw [hfind, Option.none_or, List.find?_singleton] at h
    have hnone : ∀ other ∈ held, other.sum ≠ sum := fun other hother hsum =>
      List.find?_eq_none.1 hfind other hother (decide_eq_true hsum)
    split at h
    case isTrue hsum => exact .inr ⟨hnone, Option.some.inj h, of_decide_eq_true hsum⟩
    case isFalse => exact nomatch h

/-- What a table answers about the blocks that it holds. -/
theorem Holds.find_eq (h : table.Holds held) (sum : UInt32) :
    table.find sum = (held.find? fun block => block.sum = sum).map Slot.offset := by
  cases hfind : held.find? fun block => block.sum = sum with
  | some slot => rw [find, h.search hfind, Option.map_some]
  | none =>
    rw [find, Option.map_none]
    split
    case h_1 slot hslot =>
      obtain ⟨hmem, hsum⟩ := found_of_probe hslot
      exact absurd (decide_eq_true hsum) (List.find?_eq_none.1 hfind slot (h.mem hmem))
    case h_2 => rfl

/-- **ONE BLOCK MORE**: it comes last, so it is found only if no block before it has its checksum. -/
theorem Holds.insert (h : table.Holds held) (hroom : held.length < table.capacity) (block : Slot) :
    (table.insert block).Holds (held ++ [block]) := by
  have htaken : table.taken < table.capacity := Nat.lt_of_le_of_lt h.room hroom
  have hindex : hash block.sum % table.capacity < table.slots.size := Nat.mod_lt _ (Nat.zero_lt_of_lt htaken)
  rw [BlockTable.insert]
  cases hsearch : table.search block.sum with
  | full => exact absurd hsearch (search_ne_full htaken)
  | found first =>
    obtain ⟨hmem, hsum⟩ := found_of_probe hsearch
    constructor
    case search =>
      intro sum slot hslot
      rcases find?_concat_cases hslot with hfind | ⟨hnone, -, hblock⟩
      · exact h.search hfind
      · -- the block that was found has the checksum, too
        exact absurd (hsum.trans hblock) (hnone first (h.mem hmem))
    case mem => exact fun hslot => List.mem_append_left _ (h.mem hslot)
    case room => exact Nat.le_trans h.room (by simp)
  | free i =>
    have hfree : table.slots[i]? = some none := free_of_probe hindex hsearch
    constructor
    case search =>
      intro sum slot hslot
      rw [BlockTable.search, capacity, Array.size_setIfInBounds]
      rcases find?_concat_cases hslot with hfind | ⟨-, rfl, rfl⟩
      · exact probe_fill_of_found hfree (h.search hfind)
      · exact probe_fill_of_free hindex hsearch
    case mem =>
      intro slot hslot
      rcases Array.mem_or_eq_of_mem_setIfInBounds hslot with hold | hnew
      · exact List.mem_append_left _ (h.mem hold)
      · exact List.mem_append_right _ (List.mem_singleton.2 (Option.some.inj hnew))
    case room =>
      rw [taken_fill hfree, List.length_append]
      exact Nat.succ_le_succ h.room

/-- An empty table holds no blocks. -/
theorem holds_empty (length : Nat) : (empty length).Holds [] := by
  constructor
  case search => exact fun h => nomatch h
  case mem =>
    intro slot hslot
    exact nomatch (Array.mem_replicate.1 hslot).2
  case room =>
    rw [taken, empty, Array.countP_replicate]
    exact Nat.le_refl 0

/-- Blocks added one after the other are held in that order, as long as there is room. -/
theorem Holds.foldl_insert (more : List Slot) : ∀ {table : BlockTable} {held : List Slot}, table.Holds held →
    held.length + more.length ≤ table.capacity → (more.foldl BlockTable.insert table).Holds (held ++ more) := by
  induction more with
  | nil =>
    intro table held h _
    rwa [List.append_nil]
  | cons block more ih =>
    intro table held h hroom
    rw [List.length_cons] at hroom
    have hleft : (held ++ [block]).length + more.length ≤ (table.insert block).capacity := by
      rw [capacity_insert, List.length_append, List.length_singleton]
      omega
    have hnext := ih (h.insert (by omega) block) hleft
    rwa [List.append_assoc] at hnext

/-! ## The blocks of a source -/

/-- A piece of a byte string starts inside it, and every place for a piece that does has one. -/
theorem lt_length_chunks_iff {size : Nat} {hsize : 0 < size} {data : Bytes} :
    ∀ {i : Nat}, i < (chunks size hsize data).length ↔ i * size < data.length := by
  fun_induction chunks size hsize data with
  | case1 =>
    intro i
    exact ⟨fun h => absurd h (Nat.not_lt_zero _), fun h => absurd h (Nat.not_lt_zero _)⟩
  | case2 b rest ih =>
    intro i
    cases i with
    | zero => simp
    | succ i =>
      -- the pieces after the first are those of what is left
      have hrest := @ih i
      rw [List.length_drop] at hrest
      rw [List.length_cons, Nat.succ_lt_succ_iff, hrest, Nat.succ_mul]
      omega

/-- The pieces of a byte string, by their number. -/
theorem getElem_chunks {size : Nat} {hsize : 0 < size} {data : Bytes} :
    ∀ {i : Nat} (h : i < (chunks size hsize data).length),
      (chunks size hsize data)[i] = (data.drop (i * size)).take size := by
  fun_induction chunks size hsize data with
  | case1 =>
    intro i h
    exact absurd h (Nat.not_lt_zero i)
  | case2 b rest ih =>
    intro i h
    cases i with
    | zero => simp
    | succ i =>
      rw [List.getElem_cons_succ, ih (Nat.lt_of_succ_lt_succ h), List.drop_drop, Nat.succ_mul, Nat.add_comm]

/-- The power of two above a number is above it. -/
theorem lt_powerAbove (n : Nat) : n < powerAbove n := by
  rw [powerAbove, Nat.one_shiftLeft]
  exact Nat.lt_log2_self

/-- Every block but the last one is full. -/
theorem length_blocks_le_div (source : Bytes) : (blocks source).length ≤ source.length / blockSize + 1 := by
  cases hn : (blocks source).length with
  | zero => exact Nat.zero_le _
  | succ n =>
    rw [blocks, List.length_mapIdx] at hn
    have hlast : n < (chunks blockSize (by decide) source).length := by omega
    exact Nat.succ_le_succ ((Nat.le_div_iff_mul_le (by decide)).2 (Nat.le_of_lt (lt_length_chunks_iff.1 hlast)))

/-- There are more than twice as many slots as there can be blocks. -/
theorem lt_capacity_empty (length : Nat) : 2 * (length / blockSize + 1) < (empty length).capacity := by
  have hlt := lt_powerAbove (length / blockSize + 1)
  rw [capacity, empty, Array.size_replicate]
  omega

/-- There are more slots than blocks. -/
theorem length_blocks_le (source : Bytes) : (blocks source).length ≤ (empty source.length).capacity := by
  have hblocks := length_blocks_le_div source
  have hslots := lt_capacity_empty source.length
  omega

/-- **THE TABLE OF A SOURCE** holds its blocks, in their order. -/
theorem holds_ofSource (source : Bytes) : (ofSource source).Holds (blocks source) := by
  have h := (holds_empty source.length).foldl_insert (blocks source) (by
    rw [List.length_nil, Nat.zero_add]
    exact length_blocks_le source)
  rwa [List.nil_append] at h

/-- The offset of a block is inside the source. -/
theorem offset_lt_of_mem_blocks {source : Bytes} (h : block ∈ blocks source) : block.offset < source.length := by
  obtain ⟨i, hi, rfl⟩ := List.mem_iff_getElem.1 h
  simp only [blocks, List.getElem_mapIdx]
  simp only [blocks, List.length_mapIdx] at hi
  exact lt_length_chunks_iff.1 hi

/-- **THE FIRST BLOCK OF A CHECKSUM** is what the table of a source answers with, and nothing if there is none. -/
theorem find_ofSource (source : Bytes) (sum : UInt32) :
    (ofSource source).find sum = ((blocks source).find? fun block => block.sum = sum).map Slot.offset :=
  (holds_ofSource source).find_eq sum

end VersionedTree.Delta.BlockTable

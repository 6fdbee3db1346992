import VersionedTree.Delta.Checksum

/-!
# Block table — where each checksum first occurs

The source is cut into blocks of `blockSize` bytes, the last one possibly shorter, and the table maps the checksum of
a block to the offset of the first block that has it. It is a hash table with linear probing whose slots are at least
twice as many as the blocks, so a probe always meets a free slot.

* **`insert`** keeps the first offset of a checksum and ignores later ones.
* **`find`** answers with that offset.
-/

namespace VersionedTree.Delta

/-- A block of the source, known by its checksum and its offset. -/
structure Slot where
  sum : UInt32
  offset : Nat
deriving DecidableEq, Repr

/-- Offsets of source blocks by checksum; `none` marks a free slot. -/
structure BlockTable where
  slots : Array (Option Slot)

/-- Where the search for a checksum ends. -/
inductive Probe where
  /-- At the slot that holds it. -/
  | found (slot : Slot)
  /-- At a free slot, its place. -/
  | free (index : Nat)
  /-- Nowhere: every slot holds another checksum. -/
  | full

namespace BlockTable

/-- The number of slots. -/
def capacity (table : BlockTable) : Nat :=
  table.slots.size

/-- Bits 11 to 16 of a checksum vary little over short windows, so upper bits are folded into them. -/
def hash (sum : UInt32) : Nat :=
  (sum ^^^ (sum >>> 12)).toNat

/-- Looks for `sum` in up to `steps` slots from `index` on, going round at the end. -/
def probe (slots : Array (Option Slot)) (sum : UInt32) : (steps index : Nat) → Probe
  | 0, _ => .full
  | steps + 1, index =>
    match slots[index]? with
    | some (some slot) =>
      if slot.sum = sum then .found slot else probe slots sum steps ((index + 1) % slots.size)
    | _ => .free index

/-- Looks for `sum` in the whole table, from the slot it hashes to. -/
def search (table : BlockTable) (sum : UInt32) : Probe :=
  probe table.slots sum table.capacity (hash sum % table.capacity)

/-- Adds a block; a checksum that is in the table already stays with its first block. -/
def insert (table : BlockTable) (block : Slot) : BlockTable :=
  match table.search block.sum with
  | .free index => ⟨table.slots.setIfInBounds index (some block)⟩
  | _ => table

/-- The offset of the first block with this checksum. -/
def find (table : BlockTable) (sum : UInt32) : Option Nat :=
  match table.search sum with
  | .found slot => some slot.offset
  | _ => none

/-- The least power of two above `n`. -/
def powerAbove (n : Nat) : Nat :=
  1 <<< (n.log2 + 1)

/-- A table of free slots for a source of `length` bytes: twice the least power of two above the number of blocks. -/
def empty (length : Nat) : BlockTable :=
  ⟨Array.replicate (2 * powerAbove (length / blockSize + 1)) none⟩

/-- The blocks of a source, in order, with their checksums. -/
def blocks (source : Bytes) : List Slot :=
  (chunks blockSize (by decide) source).mapIdx fun i block => ⟨(Checksum.ofWindow block).value, i * blockSize⟩

/-- The table of all blocks of a source. -/
def ofSource (source : Bytes) : BlockTable :=
  (blocks source).foldl insert (empty source.length)

end BlockTable

end VersionedTree.Delta

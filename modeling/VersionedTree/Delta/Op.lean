import VersionedTree.Bytes

/-!
# Delta operations — rebuilding a target from a source

A delta is a list of operations, each of which produces the next piece of the target: a copy of a range of the source,
or new bytes.

* **`apply`** puts the pieces together; it fails exactly on a copy that reaches beyond the source, and then names the first
  such copy.
* **`rebuild`** runs a delta: memory for the whole target comes first, and only then are its pieces put there. The lengths
  of the copies are summed up before any of them is checked, so a delta that was tampered with may ask for more memory than
  there can be.
* **`applyWords`** puts the pieces together for operations with numbers of 64 bits, whose sums may overflow.
-/

namespace VersionedTree.Delta

/-- One step in rebuilding a target from a source. -/
inductive Op where
  /-- The `length` bytes of the source from `offset` on. -/
  | copy (offset length : Nat)
  /-- New bytes. -/
  | insert (data : Bytes)
deriving DecidableEq, Repr

namespace Op

/-- The number of target bytes the operation produces. -/
def outputLength : Op → Nat
  | copy _ length => length
  | insert data => data.length

/-- True for a copy. -/
def isCopy : Op → Bool
  | copy _ _ => true
  | insert _ => false

/-- True for an insert. -/
def isInsert : Op → Bool
  | copy _ _ => false
  | insert _ => true

end Op

/-- A copy whose range is not inside the source. -/
structure OutOfBounds where
  offset : Nat
  length : Nat
  sourceLength : Nat
deriving DecidableEq, Repr

/-- The text of the failure. -/
def OutOfBounds.message (e : OutOfBounds) : String :=
  s!"copy of {e.length} bytes at offset {e.offset} exceeds source of {e.sourceLength} bytes"

/-- The length of the target that a delta produces. -/
def targetLength : List Op → Nat
  | [] => 0
  | op :: ops => op.outputLength + targetLength ops

/-- The piece of target that one operation produces. -/
def Op.apply (source : Bytes) : Op → Except OutOfBounds Bytes
  | copy offset length =>
    if offset + length ≤ source.length then
      .ok ((source.drop offset).take length)
    else
      .error ⟨offset, length, source.length⟩
  | insert data => .ok data

/-- The target that a delta produces from `source`: the pieces of its operations, in order. -/
def apply (source : Bytes) : List Op → Except OutOfBounds Bytes
  | [] => .ok []
  | op :: ops => do
    let piece ← op.apply source
    let rest ← apply source ops
    return piece ++ rest

/-- The length of the longest byte string: one less than half the range of a word, since distances between addresses are
    signed. -/
def maxLength : Nat :=
  UInt64.size / 2 - 1

/-- Why a target is not rebuilt. -/
inductive Failure where
  /-- The target has more bytes than memory can hold. This is no error that is handed to a caller: it stops the program, as
      a sum of lengths does that has no number. -/
  | tooLong (length : Nat)
  /-- A copy reaches beyond the source. -/
  | outOfBounds (cause : OutOfBounds)
deriving DecidableEq, Repr

/-- The target that a delta produces from `source`, in memory that is taken for the whole of it at the start. There is
    memory for any byte string that is not longer than `maxLength`. -/
def rebuild (source : Bytes) (ops : List Op) : Except Failure Bytes :=
  if targetLength ops ≤ maxLength then
    (apply source ops).mapError .outOfBounds
  else
    .error (.tooLong (targetLength ops))

/-- Counts over a delta. -/
structure Stats where
  copies : Nat
  inserts : Nat
  bytesCopied : Nat
  bytesInserted : Nat
deriving DecidableEq, Repr

/-- The counts of a delta. -/
def Stats.ofOps (ops : List Op) : Stats where
  copies := ops.countP Op.isCopy
  inserts := ops.countP Op.isInsert
  bytesCopied := targetLength (ops.filter Op.isCopy)
  bytesInserted := targetLength (ops.filter Op.isInsert)

/-! ## Operations in words -/

/-- The bytes from position `i` up to position `j`, if there are such positions. -/
def slice? (data : Bytes) (i j : Nat) : Option Bytes :=
  if i ≤ j ∧ j ≤ data.length then some ((data.take j).drop i) else none

/-- The sum of two words, if it fits a word. -/
def plus? (a b : UInt64) : Option UInt64 :=
  if a.toNat + b.toNat < UInt64.size then some (a + b) else none

/-- An operation whose numbers have 64 bits. -/
inductive WordOp where
  | copy (offset length : UInt64)
  | insert (data : Bytes)
deriving DecidableEq, Repr

namespace WordOp

/-- The operation, with numbers of any size. -/
def op : WordOp → Op
  | copy offset length => .copy offset.toNat length.toNat
  | insert data => .insert data

/-- The bytes that an operation stands for. The end of a range may not fit a word, or lie outside the source. -/
def piece? (source : Bytes) : WordOp → Except OutOfBounds Bytes
  | copy offset length =>
    match (plus? offset length).bind fun stop => slice? source offset.toNat stop.toNat with
    | some piece => .ok piece
    | none => .error ⟨offset.toNat, length.toNat, source.length⟩
  | insert data => .ok data

/-- How many bytes these are. -/
def outputLength : WordOp → UInt64
  | copy _ length => length
  | insert data => UInt64.ofNat data.length

end WordOp

/-- The target so far, with the pieces of the operations put behind it, one after the other. -/
def extendWords (source target : Bytes) (ops : List WordOp) : Except OutOfBounds Bytes :=
  ops.foldlM (fun target op => do return target ++ (← op.piece? source)) target

/-- The target that operations with words produce. -/
def applyWords (source : Bytes) (ops : List WordOp) : Except OutOfBounds Bytes :=
  extendWords source [] ops

/-- The length of the target, counted on from `total`, if it fits a word at any time. -/
def countWords? (total : UInt64) (ops : List WordOp) : Option UInt64 :=
  ops.foldlM (fun total op => plus? total op.outputLength) total

/-- The length of the target, if it fits a word. -/
def wordLength? (ops : List WordOp) : Option UInt64 :=
  countWords? 0 ops

end VersionedTree.Delta

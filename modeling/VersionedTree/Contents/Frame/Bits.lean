import VersionedTree.Contents.Binary

/-!
# Bits — streams of bits, read forwards and backwards

The parts of a compressed block are written bit by bit. Some are read from their first byte on, the lowest bit of a byte
first. Others are read from their end, the highest bit first; the last bit set in them only marks where they end.

* **`ofBytes`** and **`ofBackward?`** list the bits of a stream in the order in which they are read.
* **`readLow`** and **`readHigh`** take a number off a stream; they fail where the stream is too short.
-/

namespace VersionedTree.Frame

/-- Bits in the order in which they are read. -/
abbrev Bits := List Bool

namespace Bits

/-- Reads a value off the front of a stream of bits. -/
abbrev Reader (α : Type) : Type :=
  StateT Bits Option α

/-- The bits of a byte, the lowest one first. -/
def ofByte (b : UInt8) : Bits :=
  (List.range 8).map b.toNat.testBit

/-- The bits of a stream that is read from its first byte on. -/
def ofBytes (data : Bytes) : Bits :=
  data.flatMap ofByte

/-- The bits of a stream that is read from its end, without the mark. The mark has to be in the last byte. -/
def ofBackward? (data : Bytes) : Option Bits :=
  match data.getLast? with
  | none => none
  | some last =>
    if last = 0 then none else some (((ofBytes data).reverse.dropWhile fun bit => !bit).drop 1)

/-- Reads a number of `width` bits of which the lowest one comes first. -/
def readLow : (width : Nat) → Reader Nat
  | 0 => pure 0
  | width + 1 => fun bits =>
    match bits with
    | [] => none
    | bit :: rest => do
      let (n, rest) ← readLow width rest
      return (bit.toNat + 2 * n, rest)

/-- Reads a number of `width` bits of which the highest one comes first. -/
def readHigh : (width : Nat) → Reader Nat
  | 0 => pure 0
  | width + 1 => fun bits =>
    match bits with
    | [] => none
    | bit :: rest => do
      let (n, rest) ← readHigh width rest
      return ((bit.toNat <<< width) + n, rest)

end Bits

end VersionedTree.Frame

import VersionedTree.Bytes

/-!
# Rolling checksum — a window's checksum under sliding

The checksum of a window of bytes is a pair of sums modulo 2^16: the sum of the bytes, and the sum of the sums of all
non-empty beginnings of the window. Both can be kept up to date while the window slides, without a look at the bytes
in between:

* **`feedIn`** appends a byte, **`feedOut`** drops the first one.
* **`replace`** does both at once on a full window of `blockSize` bytes.
* **`ofWindow`** computes the checksum from scratch.
* **`Words`** is the checksum in words of 32 bits, which wrap around and are masked.
-/

namespace VersionedTree.Delta

/-- Blocks of the source are `blockSize` bytes long, and so is a full window on the target. -/
abbrev blockSize : Nat := 64

/-- The checksum of a window, with the window's length. -/
structure Checksum where
  /-- The sum of the bytes, modulo 2^16. -/
  low : UInt16
  /-- The sum of the sums of all non-empty beginnings, modulo 2^16. -/
  high : UInt16
  /-- The number of bytes in the window. -/
  length : Nat
deriving DecidableEq, Repr

namespace Checksum

/-- The checksum of the empty window. -/
def empty : Checksum :=
  ⟨0, 0, 0⟩

/-- The window with `c` appended. -/
def feedIn (sum : Checksum) (c : UInt8) : Checksum :=
  let low := sum.low + c.toUInt16
  ⟨low, sum.high + low, sum.length + 1⟩

/-- The window without its first byte `c`, which is counted once in every beginning. -/
def feedOut (sum : Checksum) (c : UInt8) : Checksum :=
  ⟨sum.low - c.toUInt16, sum.high - UInt16.ofNat sum.length * c.toUInt16, sum.length - 1⟩

/-- The full window with its first byte `out` dropped and `c` appended. -/
def replace (sum : Checksum) (out c : UInt8) : Checksum :=
  let low := sum.low - out.toUInt16 + c.toUInt16
  ⟨low, sum.high - UInt16.ofNat blockSize * out.toUInt16 + low, sum.length⟩

/-- The checksum of a window, computed from scratch. -/
def ofWindow (window : Bytes) : Checksum :=
  window.foldl feedIn empty

/-- Both sums in one word, the high sum in its upper half. -/
def value (sum : Checksum) : UInt32 :=
  sum.high.toUInt32 <<< 16 ||| sum.low.toUInt32

/-- True for the checksum of the empty window. -/
def isEmpty (sum : Checksum) : Bool :=
  sum.length == 0

/-- Slides the window by one byte over `rest`, the target from the window's first byte on. Near the end of the
    target, where no byte follows the window, the window shrinks. -/
def slide (sum : Checksum) (rest : Bytes) : Checksum :=
  match rest with
  | [] => sum
  | out :: _ =>
    match rest[blockSize]? with
    | some c => sum.replace out c
    | none => sum.feedOut out

/-- Slides the window by `n` bytes, one at a time. -/
def slideBy : Nat → Checksum → Bytes → Checksum
  | 0, sum, _ => sum
  | n + 1, sum, rest => slideBy n (sum.slide rest) (rest.drop 1)

/-- Moves the window `n` bytes on over `rest`. A full window or more is cheaper to checksum from scratch. -/
def advance (n : Nat) (sum : Checksum) (rest : Bytes) : Checksum :=
  if blockSize ≤ n then ofWindow ((rest.drop n).take blockSize) else slideBy n sum rest

end Checksum

/-! ## Steps, and words -/

/-- A step of a window, with the bytes that it takes in and out. -/
inductive Move where
  /-- Appends a byte. -/
  | feedIn (c : UInt8)
  /-- Drops the first byte. -/
  | feedOut (c : UInt8)
  /-- Drops the first byte of a full window, and appends one. -/
  | replace (out c : UInt8)
deriving DecidableEq, Repr

/-- What a step makes of a checksum. -/
def Checksum.move (sum : Checksum) : Move → Checksum
  | .feedIn c => sum.feedIn c
  | .feedOut c => sum.feedOut c
  | .replace out c => sum.replace out c

/-- What any number of steps make of a checksum. -/
def Checksum.run (sum : Checksum) (moves : List Move) : Checksum :=
  moves.foldl move sum

/-- A checksum in words of 32 bits. The sums are kept in the lower halves of their words. -/
structure Words where
  low : UInt32
  high : UInt32
  length : UInt32
deriving DecidableEq, Repr

/-- A checksum as it is kept in words. -/
def Checksum.words (sum : Checksum) : Words :=
  ⟨sum.low.toUInt32, sum.high.toUInt32, UInt32.ofNat sum.length⟩

namespace Words

/-- The lower half of a word. -/
def mask : UInt32 := 0xffff

/-- What a step makes of the words. All arithmetic wraps around, and the sums are masked at the end. -/
def move (words : Words) : Move → Words
  | .feedIn c =>
    let low := (words.low + c.toUInt32) &&& mask
    ⟨low, (words.high + low) &&& mask, words.length + 1⟩
  | .feedOut c =>
    ⟨(words.low - c.toUInt32) &&& mask, (words.high - words.length * c.toUInt32) &&& mask, words.length - 1⟩
  | .replace out c =>
    let high := words.high - UInt32.ofNat blockSize * out.toUInt32
    let low := words.low - out.toUInt32 + c.toUInt32
    ⟨low &&& mask, (high + low) &&& mask, words.length⟩

/-- What any number of steps make of the words. -/
def run (words : Words) (moves : List Move) : Words :=
  moves.foldl move words

/-- The words of a window, computed from scratch. -/
def ofWindow (window : Bytes) : Words :=
  run ⟨0, 0, 0⟩ (window.map .feedIn)

/-- Both sums in one word. -/
def value (words : Words) : UInt32 :=
  words.high <<< 16 ||| words.low

end Words

end VersionedTree.Delta

import VersionedTree.Contents.Binary

/-!
# Headers — what a frame says about itself

The header of a frame says how far back its copies may reach, how long its data are if that is known, and whether a
digest of the data follows them. It sets the limits that the blocks are held to.

* **`Header.read`** reads the header.
* **`Header.isSmall`** tells frames that are read at once, into room for all of their data, from those that are read
  block by block.
-/

namespace VersionedTree.Frame

/-- The header of a frame. -/
structure Header where
  /-- The length of the data, if it is announced. -/
  length? : Option Nat
  /-- How many of the latest bytes a reader has to keep. -/
  window : Nat
  hasDigest : Bool
deriving DecidableEq, Repr

namespace Header

/-- Reads the length of the data. It has two, four or eight bytes, or one if the frame is a single segment. -/
def readLength? (code : Nat) (isSegment : Bool) : Binary.Reader (Option Nat) :=
  match code with
  | 0 => if isSegment then some <$> Binary.readNumber 1 else pure none
  | 1 => (fun n => some (n + 256)) <$> Binary.readNumber 2
  | 2 => some <$> Binary.readNumber 4
  | _ => some <$> Binary.readNumber 8

/-- Reads the size of the window, of 41 bits at most: a power of two, and some eighths of it. -/
def readWindow : Binary.Reader Nat := do
  let n ← Binary.readNumber 1
  if n / 8 + 10 ≤ 31 then
    return (8 + n % 8) <<< (n / 8 + 7)
  else
    failure

/-- Reads a header. A frame that needs a dictionary is not read. In a frame that is a single segment the window holds
    all of the data. -/
def read : Binary.Reader Header := do
  let flags ← Binary.readNumber 1
  let isSegment := flags / 32 % 2 == 1
  if flags / 8 % 2 = 1 then
    failure
  let window? ← if isSegment then pure none else some <$> readWindow
  let dictionary ← Binary.readNumber ([0, 1, 2, 4].getD (flags % 4) 0)
  if dictionary ≠ 0 then
    failure
  let length? ← readLength? (flags / 64) isSegment
  return {
    length? := if length? = some (UInt64.size - 1) then none else length?
    window := window?.getD (length?.getD 0)
    hasDigest := flags / 4 % 2 == 1 }

/-- The longest data of a frame that is read at once. -/
def smallLength : Nat := 8192

/-- The largest window of a frame that is read block by block. -/
def maxWindow : Nat := 128 * 1024 * 1024 + 1

/-- True of frames that are read at once. -/
def isSmall (header : Header) : Bool :=
  header.length?.any fun length => decide (length ≤ smallLength)

/-- True of headers of frames that can be read. -/
def isReadable (header : Header) : Bool :=
  header.isSmall || decide (header.window ≤ maxWindow)

/-- The longest block that a frame can have. -/
def maxBlock : Nat := 128 * 1024

/-- The longest block, coded or not, in a frame that is read block by block. -/
def blockLimit (header : Header) : Nat :=
  min header.window maxBlock

/-- How long the data may be after a block, if they were `before` bytes long before it. -/
def limitAfter (header : Header) (before : Nat) : Nat :=
  match header.length? with
  | some length => if header.isSmall then length else before + header.blockLimit
  | none => before + header.blockLimit

/-- True if the data may end at this length. A frame that is read block by block may fall short of the length that it
    announces if it ends with an empty block. -/
def endsAt (header : Header) (length : Nat) (emptyEnd : Bool) : Bool :=
  header.length?.all fun announced =>
    length == announced || (!header.isSmall && emptyEnd && decide (length ≤ announced))

end Header

end VersionedTree.Frame

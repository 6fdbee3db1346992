import VersionedTree.Contents.Frame.PrefixCode

/-!
# Literals — the bytes that a block brings along

A compressed block begins with its literals: the bytes that its sequences do not copy. They are written as they are, as
one byte that is repeated, or with a prefix code, which is described first or is the one of an earlier block.

* **`Literals.read`** reads the section.
-/

namespace VersionedTree.Frame

/-- The literals of a block, and the prefix code that later blocks may use. -/
structure Literals where
  bytes : Bytes
  code : Option PrefixCode

namespace Literals

/-- The fewest literals that are coded in four streams. -/
def fourStreams : Nat := 6

/-- Reads literals that are written as they are, or as one byte that is repeated. The size is in the upper bits of a
    number of one to three bytes. -/
def readPlain (repeated : Bool) (format limit : Nat) (code : Option PrefixCode) : Binary.Reader Literals := do
  let size ← match format with
    | 1 => (· / 16) <$> Binary.readNumber 2
    | 3 => (· / 16) <$> Binary.readNumber 3
    | _ => (· / 8) <$> Binary.readNumber 1
  if limit < size then
    failure
  if repeated then
    let bytes ← Binary.readBytes 1
    return ⟨bytes.flatMap (List.replicate size), code⟩
  else
    return ⟨← Binary.readBytes size, code⟩

/-- The bytes that `data` holds in one or four streams, after the description of the code unless it is known. -/
def decode? (known : Option PrefixCode) (single : Bool) (size : Nat) (data : Bytes) : Option Literals := do
  let (code, streams) ← match known with
    | some code => some (code, data)
    | none => PrefixCode.read data
  let bytes ← if single then code.decode? size streams else code.decodeFour? size streams
  return ⟨bytes, some code⟩

/-- Reads coded literals. Both sizes, of the literals and of what codes them, are in the upper bits of a number of three
    to five bytes, each with as many bits as the other. -/
def readCoded (known : Option PrefixCode) (format limit : Nat) : Binary.Reader Literals := do
  let width := [10, 10, 14, 18].getD format 0
  let sizes ← Binary.readNumber ((4 + 2 * width) / 8)
  let size := sizes / 16 % (1 <<< width)
  if limit < size ∨ (format ≠ 0 ∧ size < fourStreams) then
    failure
  let data ← Binary.readBytes ((sizes / 16) >>> width)
  StateT.lift (decode? known (format = 0) size data)

/-- Reads the literals of a block, at most `limit` of them. `code` is the prefix code of an earlier block. -/
def read (limit : Nat) (code : Option PrefixCode) : Binary.Reader Literals := fun input =>
  match input with
  | first :: _ :: more =>
    let format := first.toNat / 4 % 4
    match first.toNat % 4 with
    | 0 => readPlain false format limit code input
    | 1 => readPlain true format limit code input
    | kind =>
      if more.length < 3 then none
      else if kind = 2 then readCoded none format limit input
      else code.bind fun code => readCoded (some code) format limit input
  | _ => none

end Literals

end VersionedTree.Frame

import VersionedTree.Contents.Frame.Header
import VersionedTree.Contents.Frame.Literals
import VersionedTree.Contents.Frame.Sequences

/-!
# Blocks — the data of a frame, piece by piece

The data of a frame come in blocks. A block gives its bytes as they are, as one byte that is repeated, or compressed, as
literals and sequences. Compressed blocks may refer to what the frame has given so far, and reuse codes and tables of
earlier blocks.

* **`Progress`** is what a block may refer to, **`Progress.take`** goes on by a block.
-/

namespace VersionedTree.Frame

/-- How the bytes of a block are written. -/
inductive BlockKind where
  | raw
  | repeated
  | compressed
deriving DecidableEq, Repr

/-- What a frame has given so far, and what a compressed block may reuse. -/
structure Progress where
  output : Array UInt8
  code : Option PrefixCode
  tables : Option Sequences.Tables
  recent : Sequences.Recent

namespace Progress

/-- The progress before the first block. -/
def start : Progress :=
  ⟨#[], none, none, .initial⟩

/-- The progress with bytes added to the output, unless it grows beyond `limit` bytes. -/
def add (progress : Progress) (limit : Nat) (data : Bytes) : Option Progress :=
  if progress.output.size + data.length ≤ limit then
    some { progress with output := progress.output ++ data }
  else
    none

/-- The progress after a compressed block. -/
def decompress (progress : Progress) (limit literalLimit : Nat) (body : Bytes) : Option Progress := do
  let (literals, rest) ← Literals.read literalLimit progress.code body
  let (sequences, tables) ← Sequences.read progress.tables rest
  let (output, recent) ← Sequences.execute limit sequences literals.bytes progress.output progress.recent
  return ⟨output, literals.code, tables, recent⟩

/-- The progress after a block that has a kind, a size and a body. The body of a repeated byte is that byte. -/
def take (progress : Progress) (header : Header) (kind : BlockKind) (size : Nat) (body : Bytes) : Option Progress :=
  let limit := header.limitAfter progress.output.size
  match kind with
  | .raw => progress.add limit body
  | .repeated => progress.add limit (body.flatMap (List.replicate size))
  | .compressed =>
    if body = [] ∧ !header.isSmall then
      some progress
    else if header.blockLimit < body.length then
      none
    else
      progress.decompress (min limit (progress.output.size + header.blockLimit)) header.blockLimit body

end Progress

end VersionedTree.Frame

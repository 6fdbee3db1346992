import VersionedTree.Contents.Binary

/-!
# Digest — the check of a frame

A frame may end with the lower half of the 64-bit digest of its data, which is computed in words that wrap (XXH64
without a seed). Four lanes take in 32 bytes at a time; what is left is taken in by words of eight bytes, of four bytes
and of one byte.

* **`Digest.ofBytes`** is the digest.
-/

namespace VersionedTree.Frame.Digest

/-! ## The multipliers -/

def prime1 : UInt64 := 0x9E3779B185EBCA87
def prime2 : UInt64 := 0xC2B2AE3D27D4EB4F
def prime3 : UInt64 := 0x165667B19E3779F9
def prime4 : UInt64 := 0x85EBCA77C2B2AE63
def prime5 : UInt64 := 0x27D4EB2F165667C5

/-- A word turned to the left by `n` bits. -/
def turn (word n : UInt64) : UInt64 :=
  (word <<< n) ||| (word >>> (64 - n))

/-- The word that bytes spell, the lowest byte first. -/
def word : Bytes → UInt64
  | [] => 0
  | b :: rest => b.toUInt64 + 256 * word rest

/-- A lane with a word taken in. -/
def lane (state input : UInt64) : UInt64 :=
  turn (state + input * prime2) 31 * prime1

/-- The lanes before the first word. -/
def lanes : List UInt64 :=
  [prime1 + prime2, prime2, 0, 0 - prime1]

/-- The lanes with blocks of 32 bytes taken in, each lane a quarter of every block. -/
def takeBlocks (blocks : List Bytes) : List UInt64 :=
  blocks.foldl (fun lanes block => lanes.zipWith lane ((chunks 8 (by decide) block).map word)) lanes

/-- The lanes as one word. -/
def join (lanes : List UInt64) : UInt64 :=
  let sum := (lanes.zipWith turn [1, 7, 12, 18]).foldl (· + ·) 0
  lanes.foldl (fun state input => (state ^^^ lane 0 input) * prime1 + prime4) sum

/-- Takes in fewer than four bytes, one by one. -/
def takeBytes (state : UInt64) (data : Bytes) : UInt64 :=
  data.foldl (fun state b => turn (state ^^^ b.toUInt64 * prime5) 11 * prime1) state

/-- Takes in fewer than eight bytes. -/
def takeHalf (state : UInt64) (data : Bytes) : UInt64 :=
  if data.length < 4 then
    takeBytes state data
  else
    takeBytes (turn (state ^^^ word (data.take 4) * prime1) 23 * prime2 + prime3) (data.drop 4)

/-- Takes in fewer than 32 bytes. -/
def takeRest (state : UInt64) (data : Bytes) : UInt64 :=
  (chunks 8 (by decide) data).foldl (fun state piece =>
    if piece.length < 8 then takeHalf state piece
    else turn (state ^^^ lane 0 (word piece)) 27 * prime1 + prime4) state

/-- Spreads the bits of a word over the word. -/
def finish (state : UInt64) : UInt64 :=
  let state := (state ^^^ (state >>> 33)) * prime2
  let state := (state ^^^ (state >>> 29)) * prime3
  state ^^^ (state >>> 32)

/-- The digest of a byte string. -/
def ofBytes (data : Bytes) : UInt64 :=
  let blocks := chunks 32 (by decide) (data.take (data.length / 32 * 32))
  let start := if data.length < 32 then prime5 else join (takeBlocks blocks)
  finish (takeRest (start + data.length.toUInt64) (data.drop (data.length / 32 * 32)))

end VersionedTree.Frame.Digest

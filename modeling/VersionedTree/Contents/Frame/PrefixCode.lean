import VersionedTree.Contents.Frame.StateTable

/-!
# Prefix codes — Huffman coding of literals

The bytes of a literals section may be coded with a prefix code: the bits lead down a tree, and the leaf they end at is
the byte. A code is described by the weight of each byte. A byte of weight `w` has a leaf that is `w - 1` levels above
the deepest one, and a byte of weight 0 has none. The weight of the last byte is not written, because the leaves have to
fill the tree.

* **`PrefixCode.ofWeights?`** grows the tree, **`PrefixCode.read`** reads a description.
* **`PrefixCode.decode?`** decodes a stream.
-/

namespace VersionedTree.Frame

/-- A prefix code, as the tree that its bits lead down. -/
inductive PrefixCode where
  | leaf (byte : UInt8)
  | node (zero one : PrefixCode)
deriving DecidableEq, Repr

namespace PrefixCode

/-! ## Codes from weights -/

/-- Grows a tree of `depth` levels from bytes with their weights, the lightest ones first, and gives the bytes that are
    left over. -/
def grow (depth : Nat) (leaves : List (Nat × UInt8)) : Option (PrefixCode × List (Nat × UInt8)) :=
  match leaves with
  | [] => none
  | (weight, byte) :: rest =>
    if weight = depth + 1 then
      some (leaf byte, rest)
    else
      match depth with
      | 0 => none
      | depth + 1 => do
        let (zero, leaves) ← grow depth leaves
        let (one, leaves) ← grow depth leaves
        return (node zero one, leaves)

/-- The greatest number of bits in a code, and the greatest weight. -/
def maxBits : Nat := 12

/-- The number of leaves on the deepest level that leaves of these weights take the place of. -/
def leafCount (weights : List Nat) : Nat :=
  weights.foldl (fun count weight => count + (1 <<< weight) / 2) 0

/-- The weight of the last byte: what fills the tree, if one leaf can do it. -/
def lastWeight? (weights : List Nat) : Option Nat :=
  let total := leafCount weights
  let missing := (1 <<< (total.log2 + 1)) - total
  if total = 0 ∨ 1 <<< missing.log2 ≠ missing then none else some (missing.log2 + 1)

/-- The code in which the bytes have these weights, followed by the weight of one more byte. At least two leaves have to
    be on the deepest level. -/
def ofWeights? (weights : List Nat) : Option PrefixCode := do
  let weights := weights ++ [← lastWeight? weights]
  let depth := (leafCount weights).log2
  if depth ≤ maxBits ∧ (∀ weight ∈ weights, weight ≤ maxBits) ∧ 2 ≤ weights.count 1 then
    let leaves := (weights.zipIdx.map fun (weight, byte) => (weight, byte.toUInt8)).filter fun leaf => leaf.1 ≠ 0
    let (code, _) ← grow depth (leaves.mergeSort fun a b => a.1 ≤ b.1)
    return code
  else
    none

/-! ## Descriptions -/

/-- Reads weights that are coded as two walks through a table, which take turns. The bits end in the middle of a step;
    the cell that the other walk has reached then gives the last weight. There are at most `room` weights. -/
def readWalks (table : StateTable) : (room : Nat) → (cell other : Cell) → Bits → Option (List Nat)
  | room + 2, cell, other, bits =>
    match table.next cell bits with
    | none => some [cell.symbol, other.symbol]
    | some (next, bits) => (readWalks table (room + 1) other next bits).map fun weights => cell.symbol :: weights
  | _, _, _, _ => none

/-- How many symbols the table of the weights has room for. -/
def weightRoom (log : Nat) : Nat :=
  if log = 6 then 12 else 92

/-- The weights that are coded in `data`. -/
def codedWeights? (data : Bytes) : Option (List Nat) := do
  let (table, stream) ← StateTable.read 6 weightRoom data
  let bits ← Bits.ofBackward? stream
  let (first, bits) ← table.start bits
  let (second, bits) ← table.start bits
  readWalks table 255 first second bits

/-- The first `count` of the weights that are written as the halves of bytes, the upper half first. -/
def plainWeights (count : Nat) (data : Bytes) : List Nat :=
  (data.flatMap fun b => [b.toNat / 16, b.toNat % 16]).take count

/-- Reads the description of a code. Its first byte says how long it is, and whether the weights are coded. -/
def read : Binary.Reader PrefixCode := do
  let length ← Binary.readNumber 1
  if length < 128 then
    let data ← Binary.readBytes length
    StateT.lift ((codedWeights? data).bind ofWeights?)
  else
    let count := length - 127
    let data ← Binary.readBytes ((count + 1) / 2)
    StateT.lift (ofWeights? (plainWeights count data))

/-! ## Streams -/

/-- Reads one byte: the leaf that the bits lead to. -/
def readByte : PrefixCode → Bits → Option (UInt8 × Bits)
  | leaf byte, bits => some (byte, bits)
  | node _ _, [] => none
  | node zero one, bit :: bits => if bit then one.readByte bits else zero.readByte bits

/-- Reads `count` bytes to the end of the bits. `done` holds the bytes before them, the latest one first. -/
def readAll (code : PrefixCode) : (count : Nat) → (done : Bytes) → Bits → Option Bytes
  | 0, done, bits => if bits = [] then some done.reverse else none
  | count + 1, done, bits =>
    match code.readByte bits with
    | none => none
    | some (byte, bits) => readAll code count (byte :: done) bits

/-- The `count` bytes that a stream codes. -/
def decode? (code : PrefixCode) (count : Nat) (stream : Bytes) : Option Bytes := do
  code.readAll count [] (← Bits.ofBackward? stream)

/-- The `count` bytes that four streams code. The lengths of the first three come before them, and each of the three
    codes a quarter of the bytes, rounded up. -/
def decodeFour? (code : PrefixCode) (count : Nat) (data : Bytes) : Option Bytes := do
  let (lengths, rest) ← Binary.readMany (Binary.readNumber 2) 3 data
  let (streams, last) ← (lengths.mapM fun length => Binary.readBytes length) rest
  let quarter := (count + 3) / 4
  if 3 * quarter ≤ count then
    let parts ← streams.mapM (code.decode? quarter)
    return parts.flatten ++ (← code.decode? (count - 3 * quarter) last)
  else
    none

end PrefixCode

end VersionedTree.Frame

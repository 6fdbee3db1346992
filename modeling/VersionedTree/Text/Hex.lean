import VersionedTree.Bytes

/-!
# Hexadecimal — bytes as pairs of digits

A byte is written as two hexadecimal digits in lower case, the upper half first.
-/

namespace VersionedTree.Hex

/-- The digit of a number below 16. -/
def digit (n : Nat) : Char :=
  n.digitChar

/-- The two digits of each byte, in order. -/
def text (data : Bytes) : String :=
  String.ofList (data.flatMap fun b => [digit (b.toNat / 16), digit (b.toNat % 16)])

end VersionedTree.Hex

import VersionedTree.Skel.Basic
import VersionedTree.Text.Decimal

/-!
# Skel printer — the text of a skel

A list is written in round brackets, its elements separated by one space. An atom is written as it is if it is short
and looks like a name; otherwise its length in decimal and one space stand before its bytes. **`write`** puts the text
of a skel before a given rest, and **`print`** is the text alone.
-/

namespace VersionedTree.Skel

/-- True of atoms that are written without their length: one to 99 bytes, a letter first, no whitespace or brackets. -/
def isName (data : Bytes) : Bool :=
  match data with
  | [] => false
  | c :: _ => data.length < 100 && isLetter c && data.all isNameByte

/-- The text of an atom. -/
def atomText (data : Bytes) : Bytes :=
  if isName data then data else Text.toBytes (Decimal.text data.length) ++ 32 :: data

mutual

/-- The text of a skel, followed by `rest`. -/
def write : Skel → Bytes → Bytes
  | atom data, rest => atomText data ++ rest
  | list items, rest => 40 :: writeItems items (41 :: rest)

/-- The texts of the elements of a list, followed by `rest`. -/
def writeItems : List Skel → Bytes → Bytes
  | [], rest => rest
  | x :: xs, rest => write x (writeTail xs rest)

/-- The texts of all elements after the first, each after a space, followed by `rest`. -/
def writeTail : List Skel → Bytes → Bytes
  | [], rest => rest
  | x :: xs, rest => 32 :: write x (writeTail xs rest)

end

/-- The text of a skel. -/
def print (s : Skel) : Bytes :=
  write s []

end VersionedTree.Skel

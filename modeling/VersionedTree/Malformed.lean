import VersionedTree.Text.Hex

/-!
# Malformed records — why a stored text is refused

Each constructor is one way in which a text is no skel, or a skel is no record of the expected kind. The wording is in
**`Malformed.message`** alone.
-/

namespace VersionedTree

/-- A cause for which a stored text, or a part of one, is refused. Positions count bytes from the start of the text. -/
inductive Malformed where
  /-- A skel was expected, and the text ends. -/
  | endOfInput
  /-- No skel starts with this byte. -/
  | unexpectedByte (byte : UInt8) (position : Nat)
  /-- The text ends inside a list. -/
  | unterminatedList
  /-- The length of the atom at `start` does not fit 64 bits. -/
  | badLength (start : Nat)
  /-- The length of the atom at `start` is not followed by whitespace. -/
  | missingSpace (start : Nat)
  /-- The text ends inside the atom at `start`. -/
  | truncatedAtom (start : Nat)
  /-- A complete skel is followed by something else than whitespace. -/
  | trailingData (position : Nat)
  /-- An atom was expected. -/
  | listForAtom
  /-- A text was expected, and the atom is not UTF-8. -/
  | atomNotText
  /-- The text is no node revision id. -/
  | nodeId (text : String)
  | propListNotList
  | propListOdd
  | propListElement
  | flagNotList
  | flagOwner
  | nodeShape
  | headerShape
  | entriesNotList
  | entryShape
  | unknownKind
  | revisionShape
  | transactionShape
  | baseRevision
  /-- Any other cause, in words. -/
  | other (reason : String)
deriving DecidableEq, Repr

/-- The wording of a cause. -/
def Malformed.message : Malformed → String
  | endOfInput => "unexpected end of input"
  | unexpectedByte byte position => s!"unexpected byte 0x{Hex.text [byte]} at {position}"
  | unterminatedList => "unterminated list"
  | badLength start => s!"bad atom length at {start}"
  | missingSpace start => s!"missing space after length at {start}"
  | truncatedAtom start => s!"truncated atom at {start}"
  | trailingData position => s!"trailing data at byte {position}"
  | listForAtom => "expected an atom, found a list"
  | atomNotText => "atom is not valid UTF-8"
  | nodeId text => s!"invalid node revision id '{text}'"
  | propListNotList => "proplist is not a list"
  | propListOdd => "proplist has an odd number of elements"
  | propListElement => "proplist element is not an atom"
  | flagNotList => "header flag is not a list"
  | flagOwner => "mutable flag must name exactly one owner"
  | nodeShape => "node revision must be (HEADER KIND-SPECIFIC)"
  | headerShape => "node header must be (KIND PROPLIST FLAG ...)"
  | entriesNotList => "directory entries must be a list"
  | entryShape => "directory entry must be (NAME ID)"
  | unknownKind => "unknown node kind"
  | revisionShape => "revision must be (revision ROOT-ID PROPLIST)"
  | transactionShape => "transaction must be (transaction ROOT-ID BASE-ROOT-ID BASE-REV)"
  | baseRevision => "transaction base revision is not a number"
  | other reason => reason

end VersionedTree

import VersionedTree.Text
import VersionedTree.Malformed

/-!
# Skels — atoms and nested lists

Every record of the filesystem is a skel: an atom, which is a byte string, or a list of skels. This file holds the
type, its decidable equality and the ways to look into a skel.
-/

namespace VersionedTree

/-- An atom or a list of skels. -/
inductive Skel where
  | atom (data : Bytes)
  | list (items : List Skel)
deriving Repr

namespace Skel

mutual

/-- Decides whether two skels are equal. -/
def decEq : (a b : Skel) → Decidable (a = b)
  | atom x, atom y => if h : x = y then isTrue (h ▸ rfl) else isFalse fun e => h (Skel.atom.inj e)
  | atom _, list _ => isFalse nofun
  | list _, atom _ => isFalse nofun
  | list xs, list ys =>
    match decEqItems xs ys with
    | isTrue h => isTrue (h ▸ rfl)
    | isFalse h => isFalse fun e => h (Skel.list.inj e)

/-- Decides whether two lists of skels are equal. -/
def decEqItems : (a b : List Skel) → Decidable (a = b)
  | [], [] => isTrue rfl
  | [], _ :: _ => isFalse nofun
  | _ :: _, [] => isFalse nofun
  | x :: xs, y :: ys =>
    match decEq x y, decEqItems xs ys with
    | isTrue h, isTrue t => isTrue (by rw [h, t])
    | isFalse h, _ => isFalse fun e => h (List.cons.inj e).1
    | _, isFalse t => isFalse fun e => t (List.cons.inj e).2

end

instance : DecidableEq Skel := decEq

/-- The atom that holds a text. -/
def ofText (s : String) : Skel :=
  atom (Text.toBytes s)

/-- The bytes of an atom. -/
def atom? : Skel → Option Bytes
  | atom data => some data
  | list _ => none

/-- The elements of a list. -/
def list? : Skel → Option (List Skel)
  | atom _ => none
  | list items => some items

/-- The number of elements of a list. -/
def length? (s : Skel) : Option Nat :=
  s.list?.map List.length

/-- True of the atom that holds the text `name`, and of nothing else. -/
def isText (s : Skel) (name : String) : Bool :=
  s.atom? == some (Text.toBytes name)

/-- The text that an atom holds. -/
def text : Skel → Except Malformed String
  | atom data =>
    match Text.ofBytes? data with
    | some s => .ok s
    | none => .error .atomNotText
  | list _ => .error .listForAtom

/-! ## Classes of bytes -/

/-- Space, tab, line feed, carriage return and form feed separate skels. -/
def isSpace (c : UInt8) : Bool :=
  c == 32 || c == 9 || c == 10 || c == 13 || c == 12

/-- Round and square brackets end an atom that is written without its length. -/
def isBracket (c : UInt8) : Bool :=
  c == 40 || c == 41 || c == 91 || c == 93

/-- The letters of ASCII. -/
def isLetter (c : UInt8) : Bool :=
  (65 ≤ c && c ≤ 90) || (97 ≤ c && c ≤ 122)

/-- The bytes that an atom written without its length may hold. -/
def isNameByte (c : UInt8) : Bool :=
  !isSpace c && !isBracket c

end Skel

end VersionedTree

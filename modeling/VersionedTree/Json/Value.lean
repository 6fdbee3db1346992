import VersionedTree.Text

/-!
# JSON values — what a configuration file may hold

A value as it was written. Strings keep their escapes, because a string that nobody asks for need not be well-formed
text; **`text?`** decodes one. Numbers are integers or not: a fraction, an exponent and a negative zero make a number
that is no integer.

* **`fields?`** reads a value as a record with given field names, in either of the two forms a record can have.
-/

namespace VersionedTree.Json

/-- A part of a string between its quotes. -/
inductive Piece where
  /-- A byte, as it is or by a short escape. -/
  | byte (b : UInt8)
  /-- A UTF-16 unit, given by four hexadecimal digits. -/
  | unit (n : Nat)
deriving DecidableEq, Repr

/-- A JSON value. -/
inductive Value where
  | null
  | bool (b : Bool)
  | integer (n : Int)
  /-- A number that is no integer. Nothing here depends on its value. -/
  | real
  | string (pieces : List Piece)
  | array (items : List Value)
  | object (members : List (List Piece × Value))

/-- The UTF-8 bytes of a code point. -/
def codePoint (n : Nat) : Bytes :=
  Text.toBytes (String.singleton (Char.ofNat n))

/-- The bytes of a string. A unit that is half of a pair has to be followed by the other half. -/
def bytes? : List Piece → Option Bytes
  | [] => some []
  | .byte b :: rest => (bytes? rest).map (b :: ·)
  | .unit n :: .unit m :: rest =>
    if 0xD800 ≤ n ∧ n < 0xDC00 then
      if 0xDC00 ≤ m ∧ m < 0xE000 then
        (bytes? rest).map (codePoint (0x10000 + (n - 0xD800) * 0x400 + (m - 0xDC00)) ++ ·)
      else
        none
    else if 0xDC00 ≤ n ∧ n < 0xE000 then
      none
    else
      (bytes? (.unit m :: rest)).map (codePoint n ++ ·)
  | .unit n :: rest =>
    if 0xD800 ≤ n ∧ n < 0xE000 then none else (bytes? rest).map (codePoint n ++ ·)

/-- The text of a string, if it is well-formed. -/
def text? (pieces : List Piece) : Option String :=
  (bytes? pieces).bind Text.ofBytes?

namespace Value

/-- The text of a string value. -/
def asText? : Value → Option String
  | string pieces => text? pieces
  | _ => none

/-- The number of an integer value between two bounds, which may be reached. -/
def asInteger? (least greatest : Int) : Value → Option Int
  | integer n => if least ≤ n ∧ n ≤ greatest then some n else none
  | _ => none

/-- The number of an integer value from 0 to a bound. -/
def asNat? (greatest : Nat) (v : Value) : Option Nat :=
  (v.asInteger? 0 greatest).map Int.toNat

/-- The truth value. -/
def asBool? : Value → Option Bool
  | bool b => some b
  | _ => none

end Value

/-- The one value of a name among the members of an object; `none` outside if there are several, `none` inside if there
    is none. -/
def member? (members : List (String × Value)) (name : String) : Option (Option Value) :=
  match members.filter fun m => m.1 = name with
  | [] => some none
  | [m] => some (some m.2)
  | _ => none

/-- The fields of a record, in the order of `names`. The record is an object, where names that are not asked for do not
    matter, or a list of the first few fields in order. -/
def fields? (names : List String) : Value → Option (List (Option Value))
  | .array items =>
    if items.length ≤ names.length then
      some (items.map some ++ List.replicate (names.length - items.length) none)
    else
      none
  | .object members => do
    let members ← members.mapM fun (key, value) => return (← text? key, value)
    names.mapM (member? members)
  | _ => none

/-- A field that is read if it is there. An outer `none` says that it is there and cannot be read. -/
def optional {α : Type} (read : Value → Option α) (default : α) : Option Value → Option α
  | none => some default
  | some v => read v

end VersionedTree.Json

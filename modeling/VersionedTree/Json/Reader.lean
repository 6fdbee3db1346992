import VersionedTree.Json.Value
import VersionedTree.Text.Decimal

/-!
# JSON reader — values from text

The grammar of JSON over bytes. A reader gives the value at the start of its input and the rest of it, or nothing
if the input is not of the form. **`Value.ofText?`** reads a whole text.
-/

namespace VersionedTree.Json

/-- Space, line feed, tab and carriage return may stand between tokens. -/
def isWhite (c : UInt8) : Bool :=
  c == 32 || c == 10 || c == 9 || c == 13

/-- The input without the white space at its start. -/
def skipWhite (input : Bytes) : Bytes :=
  input.dropWhile isWhite

/-- The value of a hexadecimal digit in either case. -/
def hexValue? (c : UInt8) : Option Nat :=
  if 48 ≤ c ∧ c ≤ 57 then some (c.toNat - 48)
  else if 97 ≤ c ∧ c ≤ 102 then some (c.toNat - 87)
  else if 65 ≤ c ∧ c ≤ 70 then some (c.toNat - 55)
  else none

/-- The byte that a short escape stands for, by the letter after the backslash. -/
def shortEscape? (c : UInt8) : Option UInt8 :=
  if c = 34 ∨ c = 92 ∨ c = 47 then some c
  else if c = 98 then some 8
  else if c = 102 then some 12
  else if c = 110 then some 10
  else if c = 114 then some 13
  else if c = 116 then some 9
  else none

/-- Reads the pieces of a string up to its closing quote. Control characters have to be escaped. -/
def readPieces : Bytes → Option (List Piece × Bytes)
  | [] => none
  | 34 :: rest => some ([], rest)
  | 92 :: 117 :: a :: b :: c :: d :: rest => do
    let n := (((← hexValue? a) * 16 + (← hexValue? b)) * 16 + (← hexValue? c)) * 16 + (← hexValue? d)
    let (pieces, rest) ← readPieces rest
    return (.unit n :: pieces, rest)
  | 92 :: c :: rest => do
    let b ← shortEscape? c
    let (pieces, rest) ← readPieces rest
    return (.byte b :: pieces, rest)
  | c :: rest => do
    if c < 32 ∨ c = 92 then
      failure
    let (pieces, rest) ← readPieces rest
    return (.byte c :: pieces, rest)

/-- Reads one or more digits, as a number. -/
def readDigits (input : Bytes) : Option (Nat × Bytes) :=
  match input.takeWhile Decimal.isDigit with
  | [] => none
  | digits => some (digits.foldl (fun n c => 10 * n + (c.toNat - 48)) 0, input.dropWhile Decimal.isDigit)

/-- Reads the digits before the point: a zero stands alone. -/
def readWhole (input : Bytes) : Option (Nat × Bytes) :=
  match input with
  | 48 :: c :: rest => if Decimal.isDigit c then none else some (0, c :: rest)
  | _ => readDigits input

/-- Skips a point with the digits after it, and says whether it was there. -/
def skipFraction : Bytes → Option (Bool × Bytes)
  | 46 :: rest => (readDigits rest).map fun (_, rest) => (true, rest)
  | rest => some (false, rest)

/-- Skips an exponent, and says whether it was there. -/
def skipExponent : Bytes → Option (Bool × Bytes)
  | c :: rest =>
    if c = 101 ∨ c = 69 then
      let digits :=
        match rest with
        | s :: more => if s = 43 ∨ s = 45 then more else rest
        | [] => rest
      (readDigits digits).map fun (_, rest) => (true, rest)
    else
      some (false, c :: rest)
  | [] => some (false, [])

/-- Reads a number. -/
def readNumber (input : Bytes) : Option (Value × Bytes) := do
  let (negative, input) :=
    match input with
    | 45 :: rest => (true, rest)
    | _ => (false, input)
  let (n, rest) ← readWhole input
  let (fraction, rest) ← skipFraction rest
  let (exponent, rest) ← skipExponent rest
  let value :=
    if fraction || exponent || (negative && n == 0) then Value.real
    else Value.integer (if negative then -(n : Int) else n)
  return (value, rest)

/-- Reads a given word. -/
def readWord (word : String) (value : Value) (input : Bytes) : Option (Value × Bytes) :=
  if (Text.toBytes word).isPrefixOf input then
    some (value, input.drop (Text.toBytes word).length)
  else
    none

mutual

/-- Reads a value. `fuel` bounds the depth of the recursion, which is at most twice the length of the input. -/
def readValue (fuel : Nat) (input : Bytes) : Option (Value × Bytes) :=
  match fuel, skipWhite input with
  | 0, _ => none
  | _, [] => none
  | fuel + 1, c :: rest =>
    if c = 110 then readWord "null" .null (c :: rest)
    else if c = 116 then readWord "true" (.bool true) (c :: rest)
    else if c = 102 then readWord "false" (.bool false) (c :: rest)
    else if c = 34 then (readPieces rest).map fun (pieces, rest) => (.string pieces, rest)
    else if c = 91 then
      match skipWhite rest with
      | 93 :: rest => some (.array [], rest)
      | rest => (readItems fuel rest).map fun (items, rest) => (.array items, rest)
    else if c = 123 then
      match skipWhite rest with
      | 125 :: rest => some (.object [], rest)
      | rest => (readMembers fuel rest).map fun (members, rest) => (.object members, rest)
    else readNumber (c :: rest)

/-- Reads one or more items of an array, with the closing bracket. -/
def readItems (fuel : Nat) (input : Bytes) : Option (List Value × Bytes) :=
  match fuel with
  | 0 => none
  | fuel + 1 => do
    let (item, rest) ← readValue fuel input
    match skipWhite rest with
    | 93 :: rest => return ([item], rest)
    | 44 :: rest =>
      let (items, rest) ← readItems fuel rest
      return (item :: items, rest)
    | _ => none

/-- Reads one or more members of an object, with the closing bracket. -/
def readMembers (fuel : Nat) (input : Bytes) : Option (List (List Piece × Value) × Bytes) :=
  match fuel, skipWhite input with
  | fuel + 1, 34 :: rest => do
    let (key, rest) ← readPieces rest
    match skipWhite rest with
    | 58 :: rest =>
      let (value, rest) ← readValue fuel rest
      match skipWhite rest with
      | 125 :: rest => return ([(key, value)], rest)
      | 44 :: rest =>
        let (members, rest) ← readMembers fuel rest
        return ((key, value) :: members, rest)
      | _ => none
    | _ => none
  | _, _ => none

end

/-- The value that a text is, with any white space around it. -/
def Value.ofText? (text : Bytes) : Option Value :=
  match readValue (2 * text.length + 2) text with
  | some (value, rest) => if skipWhite rest = [] then some value else none
  | none => none

end VersionedTree.Json

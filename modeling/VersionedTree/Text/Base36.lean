/-!
# Base-36 keys — counting with digits and letters

Transaction names and representation keys are numerals in base 36, with the digits `0` to `9` and `a` to `z`. **`next?`**
is the numeral after a given one: it keeps its leading zeros and grows by a digit only after a run of `z`.
-/

namespace VersionedTree.Base36

/-- The value of a digit, if it is one. -/
def digitValue? (c : Char) : Option Nat :=
  if '0' ≤ c ∧ c ≤ '9' then some (c.toNat - '0'.toNat)
  else if 'a' ≤ c ∧ c ≤ 'z' then some (c.toNat - 'a'.toNat + 10)
  else none

/-- The digit with this value below 36. -/
def digit (value : Nat) : Char :=
  if value < 10 then Char.ofNat ('0'.toNat + value) else Char.ofNat ('a'.toNat + (value - 10))

/-- Adds one to a number given by its digits, the last digit first. -/
def increment : List Nat → List Nat
  | [] => [1]
  | d :: ds => if d + 1 = 36 then 0 :: increment ds else (d + 1) :: ds

/-- The key after `key`; none if `key` is empty or has a character that is no digit. -/
def next? (key : String) : Option String :=
  if key.toList = [] then
    none
  else
    (key.toList.mapM digitValue?).map fun digits =>
      String.ofList ((increment digits.reverse).reverse.map digit)

end VersionedTree.Base36

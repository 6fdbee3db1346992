import VersionedTree.Bytes

/-!
# Decimal numerals — reading 64-bit numbers

Ids, counters and revision numbers are written in decimal without leading zeros and have to fit 64 bits. Two readers
differ only in the sign: a component of an id is digits alone (**`read?`**), a counter may carry a leading `+`
(**`readSigned?`**). Both accept leading zeros, and neither accepts the empty text.
-/

namespace VersionedTree.Decimal

/-- The decimal digits of ASCII. -/
def isDigit (c : UInt8) : Bool :=
  48 ≤ c && c ≤ 57

/-- The decimal numeral of `n`, without leading zeros. -/
def text (n : Nat) : String :=
  n.repr

/-- The value of a non-empty run of ASCII digits below 2^64. -/
def read? (digits : List Char) : Option UInt64 :=
  let value := Nat.ofDigitChars 10 digits 0
  if digits ≠ [] ∧ digits.all Char.isDigit ∧ value < UInt64.size then
    some (UInt64.ofNat value)
  else
    none

/-- The value of a run of digits that may follow one `+`. -/
def readSigned? : List Char → Option UInt64
  | '+' :: digits => read? digits
  | digits => read? digits

end VersionedTree.Decimal

import VersionedTree.Skel.Basic
import VersionedTree.Text.Decimal

/-!
# Skel parser — reading the text of a skel

A parser of one token or one list gives what it read together with the rest of its input. The rest is shorter than the
input, which the result says in its type, so parsing ends.

* **`element`** reads a skel, **`elements`** the inside of a list with its closing bracket.
* **`parse`** reads a whole text: one skel, with whitespace around it.
-/

namespace VersionedTree.Skel

/-- What was read at the start of `input`, and what is left of it. -/
abbrev Parsed (α : Type) (input : Bytes) : Type :=
  α × { rest : Bytes // rest.length < input.length }

/-- The input without the whitespace at its start. -/
def skipSpace (input : Bytes) : Bytes :=
  input.dropWhile isSpace

/-- Dropping bytes leaves no more than there were. -/
theorem length_dropWhile_le (p : UInt8 → Bool) (input : Bytes) :
    (input.dropWhile p).length ≤ input.length :=
  (List.dropWhile_suffix p).length_le

/-- Reads an atom that is written without its length, from its first byte `c` on. -/
def nameAtom (c : UInt8) (cs : Bytes) : Parsed Skel (c :: cs) :=
  (atom (c :: cs.takeWhile isNameByte), ⟨cs.dropWhile isNameByte, by
    have := length_dropWhile_le isNameByte cs
    simp only [List.length_cons]
    omega⟩)

/-- The number that a run of ASCII digits spells. -/
def numeral (digits : Bytes) : Nat :=
  Nat.ofDigitChars 10 (digits.map fun b => Char.ofNat b.toNat) 0

/-- Reads an atom that is written with its length: digits, one byte of whitespace, and as many bytes as the digits
    say. `start` is the position of the first digit. A length that does not fit 64 bits is refused as such whatever
    else is wrong: no input of 64-bit length has as many bytes. -/
def sizedAtom (start : Nat) (c : UInt8) (cs : Bytes) : Except Malformed (Parsed Skel (c :: cs)) :=
  let length := numeral (c :: cs.takeWhile Decimal.isDigit)
  let refuse (cause : Malformed) := Except.error (if length < UInt64.size then cause else .badLength start)
  match h : cs.dropWhile Decimal.isDigit with
  | [] => refuse (.missingSpace start)
  | s :: data =>
    if !isSpace s then
      refuse (.missingSpace start)
    else if data.length < length then
      refuse (.truncatedAtom start)
    else
      .ok (atom (data.take length), ⟨data.drop length, by
        have := length_dropWhile_le Decimal.isDigit cs
        simp only [h, List.length_cons] at this
        simp only [List.length_drop, List.length_cons]
        omega⟩)

mutual

/-- Reads the skel at the start of `input`, which is the end of a text of `size` bytes. -/
def element (size : Nat) (input : Bytes) : Except Malformed (Parsed Skel input) :=
  match input with
  | [] => .error .endOfInput
  | c :: cs =>
    if c = 40 then do
      let ⟨items, rest, _shorter⟩ ← elements size cs
      return (list items, ⟨rest, Nat.lt_succ_of_lt _shorter⟩)
    else if Decimal.isDigit c then
      sizedAtom (size - (c :: cs).length) c cs
    else if isLetter c then
      .ok (nameAtom c cs)
    else
      .error (.unexpectedByte c (size - (c :: cs).length))
termination_by 2 * input.length
decreasing_by
  simp only [List.length_cons]
  omega

/-- Reads the elements of a list up to its closing bracket, which is read as well. -/
def elements (size : Nat) (input : Bytes) : Except Malformed (Parsed (List Skel) input) :=
  match _h : skipSpace input with
  | [] => .error .unterminatedList
  | c :: cs =>
    have _bound : cs.length < input.length := by
      have := length_dropWhile_le isSpace input
      simp only [skipSpace] at _h
      simp only [_h, List.length_cons] at this
      omega
    if c = 41 then
      .ok ([], ⟨cs, _bound⟩)
    else do
      let ⟨x, rest, _shorter⟩ ← element size (c :: cs)
      have _shorter' : rest.length < input.length := by
        simp only [List.length_cons] at _shorter
        omega
      let ⟨xs, rest', _shorter''⟩ ← elements size rest
      return (x :: xs, ⟨rest', Nat.lt_trans _shorter'' _shorter'⟩)
termination_by 2 * input.length + 1
decreasing_by
  · simp only [List.length_cons]
    omega
  · omega

end

/-- Reads a text that is one skel with any whitespace around it. -/
def parse (text : Bytes) : Except Malformed Skel := do
  let (s, rest) ← element text.length (skipSpace text)
  match skipSpace rest.1 with
  | [] => return s
  | c :: cs => throw (.trailingData (text.length - (c :: cs).length))

end VersionedTree.Skel

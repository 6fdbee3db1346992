import VersionedTree.Text

/-!
# Binary fields — little-endian numbers and counted data

The fields of a binary record: numbers of a fixed width with the lowest byte first, and data or text after a length of
eight bytes. Every writer has a **`Reader`**, which takes the field off the front of its input; **`readNumber_number`**
and **`readBytes_append`** say that it takes exactly the field.
-/

namespace VersionedTree.Binary

/-- The `width` lowest bytes of `n`, the lowest one first. -/
def number : (width n : Nat) → Bytes
  | 0, _ => []
  | width + 1, n => UInt8.ofNat n :: number width (n / 256)

/-- Data after its length. -/
def counted (data : Bytes) : Bytes :=
  number 8 data.length ++ data

/-- Reads a value off the front of the input. -/
abbrev Reader (α : Type) : Type :=
  StateT Bytes Option α

/-- Reads a number of `width` bytes. -/
def readNumber : (width : Nat) → Reader Nat
  | 0 => pure 0
  | width + 1 => fun input =>
    match input with
    | [] => none
    | b :: rest => do
      let (n, rest) ← readNumber width rest
      return (b.toNat + 256 * n, rest)

/-- A number takes as many bytes as its width. -/
@[simp] theorem length_number (width n : Nat) : (number width n).length = width := by
  induction width generalizing n with
  | zero => rfl
  | succ width ih => simp [number, ih]

/-- A number that fits its width is read back, and nothing beyond it is taken. -/
theorem readNumber_number {width n : Nat} (h : n < 1 <<< (8 * width)) (rest : Bytes) :
    readNumber width (number width n ++ rest) = some (n, rest) := by
  induction width generalizing n with
  | zero =>
    have : n = 0 := Nat.lt_one_iff.1 h
    subst this
    rfl
  | succ width ih =>
    have hlt : n / 256 < 1 <<< (8 * width) := by
      rw [Nat.one_shiftLeft, Nat.mul_add_one, Nat.pow_add] at h
      rw [Nat.one_shiftLeft]
      omega
    have hmod : (UInt8.ofNat n).toNat = n % 256 := UInt8.toNat_ofNat'
    simp only [number, List.cons_append, readNumber, ih hlt, Option.bind_eq_bind, Option.bind_some, Option.pure_def,
      hmod]
    have := Nat.mod_add_div n 256
    rw [this]

/-- Reads `length` bytes. -/
def readBytes (length : Nat) : Reader Bytes := fun input =>
  if length ≤ input.length then some (input.take length, input.drop length) else none

/-- As many bytes as asked for are taken. -/
theorem readBytes_append (data rest : Bytes) :
    readBytes data.length (data ++ rest) = some (data, rest) := by
  simp [readBytes]

/-- Reads data after its length. -/
def readCounted : Reader Bytes := do
  readBytes (← readNumber 8)

/-- Reads text after its length. -/
def readText : Reader String := do
  let data ← readCounted
  StateT.lift (Text.ofBytes? data)

/-- Reads `n` values one after the other. -/
def readMany {α : Type} (read : Reader α) : Nat → Reader (List α)
  | 0 => pure []
  | n + 1 => do
    let x ← read
    let xs ← readMany read n
    return x :: xs

end VersionedTree.Binary

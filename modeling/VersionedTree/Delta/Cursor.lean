import VersionedTree.Delta.Matcher

/-!
# Cursor — the walk of the matcher by positions

The walk of the matcher over positions in the two byte strings, and not over what is left of them: the waiting bytes are a
range of the target. Every byte, slice, difference and checksum update is checked, so that an access out of range gives
`none`. Rounds are counted, so that a walk which does not get on gives `none`, too.

* **`Cursor.round?`** is one round, **`Cursor.walk?`** goes round up to the end of the target.
* **`deltaBy?`** is the delta that this walk finds.
-/

namespace VersionedTree.Delta

/-! ## Checked accesses -/

/-- The difference of two numbers, if it is not negative. -/
def minus? (m n : Nat) : Option Nat :=
  if n ≤ m then some (m - n) else none

/-- The full window moved on by one byte. -/
def replace? (sum : Checksum) (out c : UInt8) : Option Checksum :=
  if sum.length = blockSize then some (sum.replace out c) else none

/-- The window without its first byte. -/
def feedOut? (sum : Checksum) (out : UInt8) : Option Checksum :=
  if 0 < sum.length then some (sum.feedOut out) else none

/-! ## The walk by positions -/

/-- How many bytes before two positions agree; `waiting` of them may be taken at most. -/
def backward? (source target : Bytes) : (offset position waiting : Nat) → Option Nat
  | i + 1, j + 1, waiting => do
    let x ← source[i]?
    let y ← target[j]?
    if x = y then
      match waiting with
      | 0 => return 0
      | waiting + 1 => return (← backward? source target i j waiting) + 1
    else
      return 0
  | _, _, _ => some 0

/-- The match at a position, if there is one. -/
def findMatch? (source target : Bytes) (table : BlockTable) (sum : Checksum) (position waiting : Nat) :
    Option (Option Match) :=
  match table.find sum.value with
  | none => some none
  | some offset => do
    let length := min blockSize (← minus? source.length offset)
    if target.length < position + length then
      return none
    let block ← slice? source offset (offset + length)
    let window ← slice? target position (position + length)
    if block = window then
      let sourceLeft ← minus? source.length (offset + length)
      let targetLeft ← minus? target.length (position + length)
      let sourceTail ← slice? source (offset + length) source.length
      let targetTail ← slice? target (position + length) target.length
      let more := agreement (sourceTail.take (min sourceLeft targetLeft)) (targetTail.take (min sourceLeft targetLeft))
      let backward ← backward? source target offset position waiting
      return some ⟨offset - backward, backward, length + more⟩
    else
      return none

/-- The window moved on by one byte from a position; it shrinks where no byte follows it. -/
def slide? (target : Bytes) (sum : Checksum) (position : Nat) : Option Checksum := do
  let out ← target[position]?
  if position + blockSize < target.length then
    replace? sum out (← target[position + blockSize]?)
  else
    feedOut? sum out

/-- The window moved on by `n` bytes, one at a time. -/
def slideBy? (target : Bytes) : (n : Nat) → Checksum → (position : Nat) → Option Checksum
  | 0, sum, _ => some sum
  | n + 1, sum, position => do slideBy? target n (← slide? target sum position) (position + 1)

/-- The window moved on by `n` bytes. At the end of the target there is no window any more. -/
def advance? (target : Bytes) (n : Nat) (sum : Checksum) (position : Nat) : Option Checksum :=
  if blockSize ≤ n then
    if position + n < target.length then do
      let window ← slice? target (position + n) (min (position + n + blockSize) target.length)
      return .ofWindow window
    else
      some sum
  else
    slideBy? target n sum position

/-- The state of the walk: its position, the checksum of its window, the range of waiting bytes, and what was emitted. -/
structure Cursor where
  position : Nat
  sum : Checksum
  start : Nat
  waiting : Nat
  ops : List Op

/-- What was emitted, and the insert of the waiting bytes. -/
def Cursor.flush? (target : Bytes) (s : Cursor) : Option (List Op) :=
  if s.waiting = 0 then some s.ops
  else do return s.ops ++ [.insert (← slice? target s.start (s.start + s.waiting))]

/-- One round of the walk. -/
def Cursor.round? (source target : Bytes) (table : BlockTable) (s : Cursor) : Option Cursor := do
  match ← findMatch? source target table s.sum s.position s.waiting with
  | none =>
    return { s with
      position := s.position + 1
      sum := ← slide? target s.sum s.position
      waiting := s.waiting + 1 }
  | some m =>
    let waiting ← minus? s.waiting m.backward
    let ops ← Cursor.flush? target { s with waiting := waiting }
    return {
      position := s.position + m.forward
      sum := ← advance? target m.forward s.sum s.position
      start := s.position + m.forward
      waiting := 0
      ops := ops ++ [m.op] }

/-- Rounds up to the end of the target, at most `rounds` of them. -/
def Cursor.walk? (source target : Bytes) (table : BlockTable) : (rounds : Nat) → Cursor → Option (List Op)
  | 0, s => if s.position < target.length then none else s.flush? target
  | rounds + 1, s =>
    if s.position < target.length then do (← s.round? source target table).walk? source target table rounds
    else s.flush? target

/-- The delta from `source` to `target` that the walk by positions finds. It has as many rounds as the target has
    bytes. -/
def deltaBy? (source target : Bytes) : Option (List Op) :=
  if source = [] ∨ target.length < blockSize then
    some (flush target.reverse)
  else do
    let window ← slice? target 0 blockSize
    Cursor.walk? source target (.ofSource source) target.length ⟨0, .ofWindow window, 0, 0, []⟩

end VersionedTree.Delta

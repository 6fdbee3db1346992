import VersionedTree.Text.Base36
import VersionedTree.Text.Decimal
import VersionedTree.Trail

/-!
# Counters — numbers and keys that are handed out once

Counters are records in the table of globals. A number is kept in decimal; a counter of keys holds the next key to hand
out, and starts at `0`. **`Counter.allocateKey`** takes a key and moves the counter on, so no key is taken twice.
-/

namespace VersionedTree.Counter

variable {σ : Type} [RecordStore σ]

/-- The number of the next new node. -/
def nextNode : String := "next-node-id"

/-- The number of the youngest revision. -/
def youngest : String := "youngest"

/-- The name of the next transaction. -/
def nextTransaction : String := "next-txn-key"

/-- The key of the next representation. -/
def nextRepresentation : String := "next-rep-key"

/-- The record of a counter. -/
def key (counter : String) : Key :=
  .ofText .globals counter

/-- The number that a record holds. -/
def number? (value : Bytes) : Option UInt64 :=
  (Text.ofBytes? value).bind fun s => Decimal.readSigned? s.toList

/-- The number in a counter, if the counter was ever written. -/
def readNumber (counter : String) : TrailM σ (Option UInt64) := do
  match ← Trail.read (key counter) with
  | none => return none
  | some value =>
    match number? value with
    | some n => return some n
    | none => throw (.corrupt (.notANumber counter))

/-- Sets the number in a counter. -/
def writeNumber (counter : String) (n : UInt64) : TrailM σ Unit :=
  Trail.put (key counter) (Text.toBytes (Decimal.text n.toNat))

/-- The number after `n` for a counter. There is none after the greatest: a checked sum stops the program then, and the error
    stands for that stop. No caller gets it. -/
def successor (counter : String) (n : UInt64) : TrailM σ UInt64 :=
  if n.toNat + 1 < UInt64.size then
    return n + 1
  else
    throw (.corrupt (.noNumberLeft counter))

/-- The key that a record of a counter of keys holds. -/
def currentKey : Option Bytes → Except Corruption String
  | none => .ok "0"
  | some value =>
    match Text.ofBytes? value with
    | some key => .ok key
    | none => .error .counterNotText

/-- Takes the key that a counter of keys holds, and moves the counter on to the next one. -/
def allocateKey (record : Key) : TrailM σ String := do
  let current ← TrailM.ofExcept .corrupt (currentKey (← Trail.read record))
  match Base36.next? current with
  | some next =>
    Trail.put record (Text.toBytes next)
    return current
  | none => throw (.corrupt (.badCounter current))

end VersionedTree.Counter

import VersionedTree.Contents.Representation
import VersionedTree.Delta.Matcher
import VersionedTree.Record.Counter
import VersionedTree.Config

/-!
# Delta chains — storing and reading contents

Representations are kept under keys and never written over. New contents are stored as a delta against the ones they
replace if that pays and the chain of deltas stays within the configured length.

* **`readContents`** follows the chain of a representation down to a full text, applies the deltas on the way back, and
  compares the result with the recorded length and digest.
* **`storeContents`** stores contents under a new key.
-/

namespace VersionedTree.Representation

variable [Codec] {σ : Type} [RecordStore σ]

/-- The key of the record of a representation. -/
def recordKey (key : String) : Key :=
  .ofText .representations key

/-- The representation with this key. -/
def readRecord (key : String) : TrailM σ Representation := do
  match ← Trail.read (recordKey key) with
  | none => throw (.notFound (.representation key))
  | some stored => TrailM.ofExcept .corrupt (ofStored stored)

/-- Puts a representation under a key. -/
def putRecord (config : Config) (key : String) (rep : Representation) : TrailM σ Unit := do
  let stored ← TrailM.ofExcept .storage (rep.toStored config.compressionLevel)
  Trail.put (recordKey key) stored

/-- Puts a representation under a new key. -/
def create (config : Config) (rep : Representation) : TrailM σ String := do
  let stored ← TrailM.ofExcept .storage (rep.toStored config.compressionLevel)
  let key ← Counter.allocateKey (Counter.key Counter.nextRepresentation)
  Trail.put (recordKey key) stored
  return key

/-- The full text that the chain of a representation ends at, and the deltas on the way, the first one first. The chain
    has `left` deltas at most; `head` and `limit` name it where it is too long. -/
def followChain (head : String) (limit : Nat) : (left : Nat) → Representation → TrailM σ (Bytes × List (List Delta.Op))
  | left, rep =>
    match rep.form, left with
    | .fullText data, _ => return (data, [])
    | .delta _ _, 0 => throw (.corrupt (.chainTooLong head limit))
    | .delta base ops, left + 1 => do
      let (data, deltas) ← followChain head limit left (← readRecord base)
      return (data, ops :: deltas)

/-- The contents that deltas make from a full text. The last delta is applied first. -/
def applyChain (data : Bytes) : List (List Delta.Op) → Except Delta.Failure Bytes
  | [] => .ok data
  | ops :: deltas => do
    let base ← applyChain data deltas
    Delta.rebuild base ops

/-- The error of a chain under this key, one of whose deltas cannot be run. -/
def chainError (key : String) : Delta.Failure → Error
  | .tooLong length => .capacity length
  | .outOfBounds cause => .corrupt (.badDelta key cause)

/-- True if contents have the length and the digest that a representation records. -/
def isOf (rep : Representation) (data : Bytes) : Bool :=
  data.length == rep.size && Sha256.hexDigest data == rep.sha256

/-- The contents that the representation with this key stands for. -/
def readContents (key : String) : TrailM σ Bytes := do
  let head ← readRecord key
  let (fullText, deltas) ← followChain key head.chainLength head.chainLength head
  let data ← TrailM.ofExcept (chainError key) (applyChain fullText deltas)
  if head.isOf data then
    return data
  else
    throw (.corrupt (.contentsMismatch key))

/-- Contents as a delta against the representation `base`, if that may have a further delta on it and the delta is
    shorter than the contents. -/
def deltify? (config : Config) (base : String) (data : Bytes) : TrailM σ (Option Representation) := do
  let rep ← readRecord base
  if rep.size = 0 ∨ config.maxDeltaChain ≤ rep.chainLength then
    return none
  let source ← readContents base
  let ops := Delta.deltaOf source data
  if data.length ≤ opsLength ops then
    return none
  return some {
    size := data.length
    sha256 := Sha256.hexDigest data
    chainLength := rep.chainLength + 1
    form := .delta base ops }

/-- Contents as a delta against those that they replace, if there are such and it pays. No contents in memory are longer
    than `Delta.maxLength`, and no delta for longer ones could be run. -/
def deltaFor? (config : Config) (data : Bytes) : (previous : Option String) → TrailM σ (Option Representation)
  | none => return none
  | some base => if data.length ≤ Delta.maxLength then deltify? config base data else return none

/-- Stores contents under a new key. `previous` is the key of the contents that they replace, if there are any. -/
def storeContents (config : Config) (previous : Option String) (data : Bytes) : TrailM σ String := do
  let delta ← deltaFor? config data previous
  create config (delta.getD (ofContents data))

end VersionedTree.Representation

import VersionedTree.Delta.BlockTable
import VersionedTree.Delta.Op

/-!
# Matcher — finding a delta

The target is walked from its first byte on. At each position the checksum of the window there is looked up in the
block table of the source. A block with that checksum is compared with the target; if it is really there, the match is
extended forwards as far as source and target agree and backwards into the bytes that wait to be inserted, and a copy
is emitted. Otherwise the first byte of the window joins the bytes that wait.

The walk is written over the two parts of the target around its position: `pending`, the waiting bytes with the latest
one first, and `rest`, the target from the position on.

* **`Match.at?`** verifies and extends one candidate.
* **`scan`** is the walk, **`deltaOf`** the delta between any two byte strings.
-/

namespace VersionedTree.Delta

/-- A range of the source that agrees with the target around a position. -/
structure Match where
  /-- Where the range starts in the source. -/
  offset : Nat
  /-- How many waiting bytes before the position the range covers. -/
  backward : Nat
  /-- How many bytes from the position on the range covers. -/
  forward : Nat
deriving DecidableEq, Repr

/-- The block of `source` at `offset`. -/
def blockAt (source : Bytes) (offset : Nat) : Bytes :=
  (source.drop offset).take blockSize

/-- The match around a position at which the block of `source` at `offset` is known to stand: as many bytes as agree
    from the position on, and as many waiting bytes as agree before it. -/
def Match.extend (source : Bytes) (offset : Nat) (pending rest : Bytes) : Match where
  offset := offset - agreement (source.take offset).reverse pending
  backward := agreement (source.take offset).reverse pending
  forward := agreement (source.drop offset) rest

/-- Compares the block of `source` at `offset` with the target after a position, and extends the match if the whole
    block is there. -/
def Match.at? (source : Bytes) (offset : Nat) (pending rest : Bytes) : Option Match :=
  if blockAt source offset ≠ [] ∧ (blockAt source offset).isPrefixOf rest then
    some (Match.extend source offset pending rest)
  else
    none

/-- The copy that a match stands for. -/
def Match.op (m : Match) : Op :=
  .copy m.offset (m.backward + m.forward)

/-- The insert of the waiting bytes, which are kept with the latest one first; nothing if none wait. -/
def flush (pending : Bytes) : List Op :=
  if pending = [] then [] else [.insert pending.reverse]

/-- The match at a position: the block of the source that the table has for the window's checksum, if it is there. -/
def findMatch (source : Bytes) (table : BlockTable) (sum : Checksum) (pending rest : Bytes) : Option Match :=
  (table.find sum.value).bind fun offset => Match.at? source offset pending rest

/-- A match covers at least the byte it was found at. -/
theorem Match.forward_pos {source : Bytes} {offset : Nat} {pending rest : Bytes} {m : Match}
    (h : Match.at? source offset pending rest = some m) : 0 < m.forward := by
  unfold Match.at? blockAt at h
  split at h
  case isTrue hb =>
    obtain ⟨hne, hpre⟩ := hb
    cases h
    show 0 < agreement (source.drop offset) rest
    cases hs : source.drop offset with
    | nil => simp [hs] at hne
    | cons x xs =>
      cases rest with
      | nil => simp [hs] at hpre
      | cons y ys =>
        simp only [hs, blockSize, List.take_succ_cons, List.isPrefixOf, Bool.and_eq_true, beq_iff_eq] at hpre
        simp [agreement, hpre.1]
  case isFalse => cases h

/-- A match that was found covers at least the byte it was found at. -/
theorem findMatch_forward_pos {source : Bytes} {table : BlockTable} {sum : Checksum} {pending rest : Bytes} {m : Match}
    (h : findMatch source table sum pending rest = some m) : 0 < m.forward := by
  obtain ⟨offset, -, hm⟩ := Option.bind_eq_some_iff.1 h
  exact Match.forward_pos hm

/-- Walks over `rest`, with the checksum of its window and the bytes that wait to be inserted. -/
def scan (source : Bytes) (table : BlockTable) (sum : Checksum) (pending rest : Bytes) : List Op :=
  match rest with
  | [] => flush pending
  | c :: cs =>
    match _found : findMatch source table sum pending (c :: cs) with
    | none => scan source table (sum.slide (c :: cs)) (c :: pending) cs
    | some m =>
      flush (pending.drop m.backward) ++
        m.op :: scan source table (sum.advance m.forward (c :: cs)) [] ((c :: cs).drop m.forward)
termination_by rest.length
decreasing_by
  · simp
  · have := findMatch_forward_pos _found
    simp only [List.length_drop, List.length_cons]
    omega

/-- Why no delta is searched for: a source without bytes has no blocks. -/
inductive MatchError where
  | emptySource
deriving DecidableEq, Repr

/-- The text of the failure. -/
def MatchError.message : MatchError → String
  | emptySource => "xdelta requires a non-empty source"

/-- The delta from a non-empty source to a target. A target shorter than a block is inserted as it is. -/
def matchBlocks (source target : Bytes) : Except MatchError (List Op) :=
  if source = [] then
    .error .emptySource
  else if target.length < blockSize then
    .ok (flush target.reverse)
  else
    .ok (scan source (.ofSource source) (.ofWindow (target.take blockSize)) [] target)

/-- The delta from `source` to `target`. From an empty source everything is inserted. -/
def deltaOf (source target : Bytes) : List Op :=
  match matchBlocks source target with
  | .ok ops => ops
  | .error .emptySource => flush target.reverse

end VersionedTree.Delta

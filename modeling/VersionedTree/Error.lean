import VersionedTree.NodeId
import VersionedTree.Delta.Op

/-!
# Errors — why an operation fails

An error is a kind with its cause. The kinds are the constructors of **`Error`**; where one kind has several causes it
carries a value that says which. All wording is in the `message` functions. One of the kinds, `capacity`, stands for the
end of the program.
-/

namespace VersionedTree

/-- A failure of the record store. -/
inductive StorageError where
  /-- A failure of the operating system. -/
  | io
  | database (reason : String)
  | serialization (reason : String)
  | backend (reason : String)
deriving DecidableEq, Repr

/-- The wording of a failure of the record store. -/
def StorageError.message : StorageError → String
  | io => "I/O error"
  | database reason => s!"Database error: {reason}"
  | serialization reason => s!"Serialization error: {reason}"
  | backend reason => s!"Storage backend error: {reason}"

/-- A thing that was looked for and is not there. -/
inductive Missing where
  | node (id : NodeId)
  | revision (number : Nat)
  | transaction (name : String)
  | representation (key : String)
  /-- An entry of the directory `dir`. -/
  | entry (name : String) (dir : NodeId)
  /-- Anything else, in words. -/
  | other (what : String)
deriving DecidableEq, Repr

/-- The name of what is missing. -/
def Missing.message : Missing → String
  | node id => s!"node-revision {id}"
  | revision number => s!"revision {number}"
  | transaction name => s!"transaction '{name}'"
  | representation key => s!"representation '{key}'"
  | entry name dir => s!"'{name}' in {dir}"
  | other what => what

/-- A way in which records contradict each other or themselves. -/
inductive Corruption where
  /-- A counter that has to be a decimal number is none. -/
  | notANumber (counter : String)
  /-- A counter of keys is not UTF-8. -/
  | counterNotText
  /-- A counter of keys is no key. -/
  | badCounter (counter : String)
  /-- The id of a new node is taken. -/
  | nodeExists (id : NodeId)
  /-- There is no number for a further fork of a node revision. -/
  | noForkLeft (id : NodeId)
  /-- There is no number for a further node or revision. No caller gets this error: the program stops. -/
  | noNumberLeft (counter : String)
  /-- The revision of a new filesystem is not the first one. -/
  | initialRevision (number : Nat)
  /-- No revision was ever made. -/
  | noRevisions
  /-- The metadata record is not as it should be. -/
  | metadata
  /-- The frame of a stored representation is broken. -/
  | notCompressed
  /-- What is in the frame is no representation. -/
  | notDecodable
  /-- More deltas follow the representation than it counts. -/
  | chainTooLong (key : String) (limit : Nat)
  /-- A delta on the way to the contents does not fit its base. -/
  | badDelta (key : String) (cause : Delta.OutOfBounds)
  /-- Contents have another length or digest than recorded. -/
  | contentsMismatch (key : String)
  /-- Anything else, in words. -/
  | other (what : String)
deriving DecidableEq, Repr

/-- The wording of a corruption. -/
def Corruption.message : Corruption → String
  | notANumber counter => s!"meta record '{counter}' is not a number"
  | counterNotText => "key counter is not valid UTF-8"
  | badCounter counter => s!"invalid key counter '{counter}'"
  | nodeExists id => s!"node-revision {id} already exists"
  | noForkLeft id => s!"node-revision {id} has no free fork"
  | noNumberLeft counter => s!"meta record '{counter}' is at its limit"
  | initialRevision number => s!"initial revision is {number}, not 0"
  | noRevisions => "filesystem has no revisions"
  | metadata => "invalid filesystem metadata"
  | notCompressed => "representation does not decompress"
  | notDecodable => "representation does not decode"
  | chainTooLong key limit => s!"representation '{key}' has a delta chain longer than {limit}"
  | badDelta key cause => s!"representation '{key}': {cause.message}"
  | contentsMismatch key => s!"representation '{key}' does not match its checksum"
  | other what => what

/-- Why a configuration is refused. -/
inductive ConfigError where
  | zeroCacheCapacity
  | levelOutOfRange (level : Int)
  | cannotOpen
  | cannotParse
  | cannotCreate
  /-- Anything else, in words. -/
  | other (what : String)
deriving DecidableEq, Repr

/-- The wording of a refusal. -/
def ConfigError.message : ConfigError → String
  | zeroCacheCapacity => "node_cache_capacity must be positive"
  | levelOutOfRange level => s!"compression_level {level} outside 1..=22"
  | cannotOpen => "cannot open"
  | cannotParse => "cannot parse"
  | cannotCreate => "cannot create"
  | other what => what

/-- Why an operation on the filesystem fails. -/
inductive Error where
  | notMutable (id : NodeId)
  | notFound (what : Missing)
  | alreadyExists (name : String)
  | notDirectory (id : NodeId)
  | notFile (id : NodeId)
  | dirNotEmpty (name : String)
  | noSuchEntry (name : String)
  | malformed (cause : Malformed)
  | corrupt (cause : Corruption)
  /-- The transaction is based on revision `base`, and there is a later one. -/
  | outOfDate (txn : String) (base youngest : Nat)
  | config (cause : ConfigError)
  | storage (cause : StorageError)
  /-- The program stops, since it asks for memory for `length` bytes. No caller gets this error. -/
  | capacity (length : Nat)
deriving DecidableEq, Repr

/-- The wording of an error. -/
def Error.message : Error → String
  | notMutable id => s!"node-revision {id} is not mutable"
  | notFound what => s!"not found: {what.message}"
  | alreadyExists name => s!"entry '{name}' already exists"
  | notDirectory id => s!"node-revision {id} is not a directory"
  | notFile id => s!"node-revision {id} is not a file"
  | dirNotEmpty name => s!"cannot delete non-empty directory '{name}'"
  | noSuchEntry name => s!"no entry named '{name}' in parent directory"
  | malformed cause => s!"malformed skel: {cause.message}"
  | corrupt cause => s!"filesystem corrupt: {cause.message}"
  | outOfDate txn base youngest => s!"transaction '{txn}' is based on r{base} but youngest is r{youngest}"
  | config cause => s!"invalid configuration: {cause.message}"
  | storage cause => cause.message
  | capacity _ => "capacity overflow"

end VersionedTree

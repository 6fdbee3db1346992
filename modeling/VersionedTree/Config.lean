import VersionedTree.Json.Reader
import VersionedTree.Json.Printer
import VersionedTree.Error

/-!
# Configuration — how a filesystem is opened

A configuration is valid if its node cache can hold a record and its compression level is one of 1 to 22. It is kept in
a file as a JSON record; fields that a file leaves out have their defaults. **`load`** reads and checks the text of such
a file, **`print`** is the text that is saved.
-/

namespace VersionedTree

/-- The settings of a filesystem. -/
structure Config where
  /-- The directory of the persistent store. -/
  path : String
  /-- How many node records the cache of the persistent store holds. -/
  nodeCacheCapacity : Nat
  /-- The longest chain of deltas before contents are stored as a whole again. -/
  maxDeltaChain : Nat
  /-- The level at which stored representations are compressed. -/
  compressionLevel : Int
  /-- Whether the store waits for the disk after each batch. -/
  syncWrites : Bool
deriving DecidableEq, Repr

namespace Config

/-- The settings where nothing else is said. -/
def default : Config where
  path := "data/fs"
  nodeCacheCapacity := 1024
  maxDeltaChain := 16
  compressionLevel := 3
  syncWrites := true

/-- Refuses a cache without capacity, then a level outside 1 to 22. -/
def validate (config : Config) : Except ConfigError Unit :=
  if config.nodeCacheCapacity = 0 then
    .error .zeroCacheCapacity
  else if config.compressionLevel < 1 ∨ 22 < config.compressionLevel then
    .error (.levelOutOfRange config.compressionLevel)
  else
    .ok ()

/-- The names of the fields in a file, in order. -/
def fieldNames : List String :=
  ["path", "node_cache_capacity", "max_delta_chain", "compression_level", "sync_writes"]

/-- Reads a configuration from a JSON value. Numbers have 64, 32 and, with a sign, 32 bits. -/
def ofJson? (value : Json.Value) : Option Config := do
  match ← Json.fields? fieldNames value with
  | [path, capacity, chain, level, sync] =>
    return {
      path := ← Json.optional Json.Value.asText? default.path path
      nodeCacheCapacity := ← Json.optional (Json.Value.asNat? (UInt64.size - 1)) default.nodeCacheCapacity capacity
      maxDeltaChain := ← Json.optional (Json.Value.asNat? (UInt32.size - 1)) default.maxDeltaChain chain
      compressionLevel :=
        ← Json.optional (Json.Value.asInteger? Int32.minValue.toInt Int32.maxValue.toInt) default.compressionLevel level
      syncWrites := ← Json.optional Json.Value.asBool? default.syncWrites sync }
  | _ => none

/-- Reads the text of a file and checks the configuration in it. -/
def load (file : Bytes) : Except ConfigError Config :=
  match (Json.Value.ofText? file).bind ofJson? with
  | none => .error .cannotParse
  | some config => do
    config.validate
    return config

/-- The text of the file that holds a configuration. -/
def print (config : Config) : String :=
  Json.pretty (fieldNames.zip [
    Json.quoted config.path,
    toString config.nodeCacheCapacity,
    toString config.maxDeltaChain,
    toString config.compressionLevel,
    toString config.syncWrites])

end Config

end VersionedTree

import VersionedTree.Bytes

/-!
# Codecs — compression that loses nothing

Stored representations are compressed. Nothing that is said about them depends on how: a **`Codec`** is any way to compress
at a level and to have back what was compressed. What the compressed bytes are, and which other bytes are taken for such,
is left to it.
-/

namespace VersionedTree

/-- A way to compress byte strings. It carries the proof that it loses nothing. -/
class Codec where
  /-- The compressed form of a byte string, at a level. -/
  compress : (level : Int) → Bytes → Bytes
  /-- What was compressed, unless the bytes are no compressed form. -/
  decompress? : Bytes → Option Bytes
  /-- Whatever the level, a byte string is had back from its compressed form. -/
  decompress?_compress (level : Int) (data : Bytes) : decompress? (compress level data) = some data

attribute [simp] Codec.decompress?_compress

end VersionedTree

import VersionedTree.Contents.Binary
import VersionedTree.Contents.Codec
import VersionedTree.Contents.Sha256
import VersionedTree.Error

/-!
# Representations — how the contents of a file are stored

The contents of a file are stored as a whole, or as a delta against the contents of another representation. Either way
the representation records the length and the digest of the contents it stands for, and how many deltas there are
between it and a full text. Its stored form is a compressed binary record, with any codec.

* **`encode`** and **`decode?`** are the binary record, **`toStored`** and **`ofStored`** the stored form.
* **`opsLength`** is the length of the encoded operations of a delta, computed without encoding them.
-/

namespace VersionedTree

/-- The two forms of stored contents. -/
inductive Form where
  /-- The contents themselves. -/
  | fullText (data : Bytes)
  /-- Operations on the contents of the representation with key `base`. -/
  | delta (base : String) (ops : List Delta.Op)
deriving DecidableEq, Repr

/-- Stored contents of a file. -/
structure Representation where
  /-- The length of the contents. -/
  size : Nat
  /-- The SHA-256 digest of the contents, in hexadecimal. -/
  sha256 : String
  /-- The number of deltas between this representation and a full text. -/
  chainLength : Nat
  form : Form
deriving DecidableEq, Repr

namespace Representation

/-- The contents as a whole. -/
def ofContents (data : Bytes) : Representation where
  size := data.length
  sha256 := Sha256.hexDigest data
  chainLength := 0
  form := .fullText data

/-! ## The binary record -/

/-- The record of one operation: its number, and its fields. -/
def encodeOp : Delta.Op → Bytes
  | .copy offset length => Binary.number 4 0 ++ Binary.number 8 offset ++ Binary.number 8 length
  | .insert data => Binary.number 4 1 ++ Binary.counted data

/-- The records of the operations of a delta, after their count. -/
def encodeOps (ops : List Delta.Op) : Bytes :=
  Binary.number 8 ops.length ++ ops.flatMap encodeOp

/-- The length of the record of one operation. -/
def opLength : Delta.Op → Nat
  | .copy _ _ => 20
  | .insert data => 12 + data.length

/-- The length of the records of the operations of a delta. -/
def opsLength (ops : List Delta.Op) : Nat :=
  ops.foldl (fun length op => length + opLength op) 8

/-- The record of a form: its number, and its fields. -/
def encodeForm : Form → Bytes
  | .fullText data => Binary.number 4 0 ++ Binary.counted data
  | .delta base ops => Binary.number 4 1 ++ Binary.counted (Text.toBytes base) ++ encodeOps ops

/-- The binary record of a representation. -/
def encode (rep : Representation) : Bytes :=
  Binary.number 8 rep.size ++ Binary.counted (Text.toBytes rep.sha256) ++ Binary.number 4 rep.chainLength ++
    encodeForm rep.form

/-- Reads one operation. -/
def readOp : Binary.Reader Delta.Op := do
  match ← Binary.readNumber 4 with
  | 0 =>
    let offset ← Binary.readNumber 8
    let length ← Binary.readNumber 8
    return .copy offset length
  | 1 => Delta.Op.insert <$> Binary.readCounted
  | _ => failure

/-- Reads the operations of a delta. -/
def readOps : Binary.Reader (List Delta.Op) := do
  Binary.readMany readOp (← Binary.readNumber 8)

/-- Reads a form. -/
def readForm : Binary.Reader Form := do
  match ← Binary.readNumber 4 with
  | 0 => Form.fullText <$> Binary.readCounted
  | 1 =>
    let base ← Binary.readText
    let ops ← readOps
    return .delta base ops
  | _ => failure

/-- Reads a representation. -/
def read : Binary.Reader Representation := do
  let size ← Binary.readNumber 8
  let sha256 ← Binary.readText
  let chainLength ← Binary.readNumber 4
  let form ← readForm
  return ⟨size, sha256, chainLength, form⟩

/-- The representation at the start of a binary record; what follows it does not count. -/
def decode? (record : Bytes) : Option Representation :=
  (read record).map Prod.fst

/-! ## The stored form -/

/-- True of operations whose numbers and lengths fit the eight bytes of their fields. -/
def OpFits : Delta.Op → Prop
  | .copy offset length => offset < UInt64.size ∧ length < UInt64.size
  | .insert data => data.length < UInt64.size

instance (op : Delta.Op) : Decidable (OpFits op) := by
  cases op <;> unfold OpFits <;> infer_instance

/-- True of forms whose numbers and lengths fit their fields. -/
def FormFits : Form → Prop
  | .fullText data => data.length < UInt64.size
  | .delta base ops => (Text.toBytes base).length < UInt64.size ∧ ops.length < UInt64.size ∧ ∀ op ∈ ops, OpFits op

instance (form : Form) : Decidable (FormFits form) := by
  cases form <;> unfold FormFits <;> infer_instance

/-- True of representations whose numbers and lengths fit the fields of the binary record. -/
def Fits (rep : Representation) : Prop :=
  rep.size < UInt64.size ∧ (Text.toBytes rep.sha256).length < UInt64.size ∧ rep.chainLength < UInt32.size ∧ FormFits rep.form

instance (rep : Representation) : Decidable rep.Fits := by
  unfold Fits
  infer_instance

variable [Codec]

/-- What is stored for a representation. Numbers that do not fit their fields are refused. -/
def toStored (level : Int) (rep : Representation) : Except StorageError Bytes :=
  if rep.Fits then
    .ok (Codec.compress level rep.encode)
  else
    .error (.serialization "number out of range")

/-- Reads what is stored. -/
def ofStored (stored : Bytes) : Except Corruption Representation :=
  match Codec.decompress? stored with
  | none => .error .notCompressed
  | some record =>
    match decode? record with
    | none => .error .notDecodable
    | some rep => .ok rep

end Representation

end VersionedTree

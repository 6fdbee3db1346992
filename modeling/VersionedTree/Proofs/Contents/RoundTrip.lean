import VersionedTree.Contents.Representation
import VersionedTree.Proofs.Text.Numerals

/-!
# Stored contents — a representation is read back

Every reader of the binary record takes exactly the field that its writer wrote, whatever follows it. So the record of a
representation whose numbers fit their fields is read back, and so is its stored form (**`ofStored_of_toStored`**), with
any codec and at any level of compression. The length that is computed for the operations of a delta is
that of their records (**`length_encodeOps`**).
-/

namespace VersionedTree

namespace Binary

variable {α β : Type}

/-- What is read first is passed on, together with what follows it. -/
theorem Reader.bind_eq {m : Reader α} {f : α → Reader β} {input rest : Bytes} {a : α} (h : m input = some (a, rest)) :
    (m >>= f) input = f a rest := by
  show ((m input).bind fun r => f r.1 r.2) = f a rest
  rw [h]
  rfl

/-- A value that was read may be changed after it. -/
theorem Reader.map_eq {m : Reader α} {f : α → β} {input rest : Bytes} {a : α} (h : m input = some (a, rest)) :
    (f <$> m) input = some (f a, rest) := by
  show ((m input).bind fun r => some (f r.1, r.2)) = some (f a, rest)
  rw [h]
  rfl

/-- A number of eight bytes, which is how lengths and counts are written. -/
theorem readNumber_eight {n : Nat} (h : n < UInt64.size) (rest : Bytes) :
    readNumber 8 (number 8 n ++ rest) = some (n, rest) :=
  readNumber_number h rest

/-- Bytes are read back with their length before them. -/
theorem readCounted_counted {data : Bytes} (h : data.length < UInt64.size) (rest : Bytes) :
    readCounted (counted data ++ rest) = some (data, rest) := by
  rw [counted, List.append_assoc, readCounted, Reader.bind_eq (readNumber_eight h _)]
  exact readBytes_append data rest

/-- A text is read back with its length before it. -/
theorem readText_counted {s : String} (h : (Text.toBytes s).length < UInt64.size) (rest : Bytes) :
    readText (counted (Text.toBytes s) ++ rest) = some (s, rest) := by
  rw [readText, Reader.bind_eq (readCounted_counted h rest), Text.ofBytes?_toBytes]
  rfl

/-- Things are read back one after the other, by induction on them. -/
theorem readMany_append {read : Reader α} {write : α → Bytes} {xs : List α}
    (h : ∀ x ∈ xs, ∀ rest, read (write x ++ rest) = some (x, rest)) (rest : Bytes) :
    readMany read xs.length (xs.flatMap write ++ rest) = some (xs, rest) := by
  induction xs with
  | nil => rfl
  | cons x xs ih =>
    have hrest := ih fun y hy => h y (List.mem_cons_of_mem _ hy)
    rw [List.flatMap_cons, List.append_assoc, List.length_cons, readMany,
      Reader.bind_eq (h x List.mem_cons_self _), Reader.bind_eq hrest]
    rfl

end Binary

namespace Representation

open Binary

/-- An operation is read back if its numbers fit. -/
theorem readOp_encodeOp {op : Delta.Op} (h : OpFits op) (rest : Bytes) :
    readOp (encodeOp op ++ rest) = some (op, rest) := by
  cases op with
  | copy offset length =>
    obtain ⟨hoffset, hlength⟩ := h
    rw [encodeOp, List.append_assoc, List.append_assoc, readOp, Reader.bind_eq (readNumber_number (by decide) _)]
    show (readNumber 8 >>= fun o => readNumber 8 >>= fun l => pure (Delta.Op.copy o l)) _ = _
    rw [Reader.bind_eq (readNumber_eight hoffset _), Reader.bind_eq (readNumber_eight hlength _)]
    rfl
  | insert data =>
    have hdata : data.length < UInt64.size := h
    rw [encodeOp, List.append_assoc, readOp, Reader.bind_eq (readNumber_number (by decide) _)]
    exact Reader.map_eq (readCounted_counted hdata rest)

/-- Operations are read back if there are not too many. -/
theorem readOps_encodeOps {ops : List Delta.Op} (hlength : ops.length < UInt64.size) (h : ∀ op ∈ ops, OpFits op)
    (rest : Bytes) : readOps (encodeOps ops ++ rest) = some (ops, rest) := by
  rw [encodeOps, List.append_assoc, readOps, Reader.bind_eq (readNumber_eight hlength _)]
  exact readMany_append (fun op hop => readOp_encodeOp (h op hop)) rest

/-- A form is read back if its fields fit. -/
theorem readForm_encodeForm {form : Form} (h : FormFits form) (rest : Bytes) :
    readForm (encodeForm form ++ rest) = some (form, rest) := by
  cases form with
  | fullText data =>
    have hdata : data.length < UInt64.size := h
    rw [encodeForm, List.append_assoc, readForm, Reader.bind_eq (readNumber_number (by decide) _)]
    exact Reader.map_eq (readCounted_counted hdata rest)
  | delta base ops =>
    obtain ⟨hbase, hcount, hops⟩ := h
    rw [encodeForm, List.append_assoc, List.append_assoc, readForm,
      Reader.bind_eq (readNumber_number (by decide) _)]
    show (readText >>= fun base => readOps >>= fun ops => pure (Form.delta base ops)) _ = _
    rw [Reader.bind_eq (readText_counted hbase _), Reader.bind_eq (readOps_encodeOps hcount hops rest)]
    rfl

/-- The record of a representation is taken off the front of the input. -/
theorem read_encode {rep : Representation} (h : rep.Fits) (rest : Bytes) :
    read (rep.encode ++ rest) = some (rep, rest) := by
  obtain ⟨hsize, hdigest, hchain, hform⟩ := h
  rw [encode, List.append_assoc, List.append_assoc, List.append_assoc, read, Reader.bind_eq (readNumber_eight hsize _),
    Reader.bind_eq (readText_counted hdigest _), Reader.bind_eq (readNumber_number hchain _),
    Reader.bind_eq (readForm_encodeForm hform rest)]
  rfl

/-- **A STORED REPRESENTATION IS READ BACK**, with any codec, at any level. -/
theorem ofStored_of_toStored [Codec] {level : Int} {rep : Representation} {stored : Bytes}
    (h : rep.toStored level = .ok stored) : ofStored stored = .ok rep := by
  rw [toStored] at h
  split at h
  case isTrue hfits =>
    cases h
    have hread := read_encode hfits []
    rw [List.append_nil] at hread
    rw [ofStored, Codec.decompress?_compress]
    simp only [decode?, hread, Option.map_some]
  case isFalse => exact nomatch h

/-! ## Lengths -/

/-- An operation is as long as was worked out for it. -/
theorem length_encodeOp (op : Delta.Op) : (encodeOp op).length = opLength op := by
  cases op with
  | copy offset length => simp [encodeOp, opLength]
  | insert data =>
    simp only [encodeOp, opLength, counted, List.length_append, length_number]
    omega

/-- Operations are as long as was worked out for all of them. -/
theorem foldl_opLength (ops : List Delta.Op) (n : Nat) :
    ops.foldl (fun length op => length + opLength op) n = n + (ops.flatMap encodeOp).length := by
  induction ops generalizing n with
  | nil => rfl
  | cons op ops ih =>
    rw [List.foldl_cons, ih, List.flatMap_cons, List.length_append, length_encodeOp, Nat.add_assoc]

/-- The length that is computed for operations is the length of their records. -/
theorem length_encodeOps (ops : List Delta.Op) : (encodeOps ops).length = opsLength ops := by
  rw [opsLength, foldl_opLength, encodeOps, List.length_append, length_number]

/-- There are no more operations than their records have bytes, and none has a longer record. -/
theorem le_opsLength (ops : List Delta.Op) : ops.length ≤ opsLength ops ∧ ∀ op ∈ ops, opLength op ≤ opsLength ops := by
  rw [opsLength, foldl_opLength]
  induction ops with
  | nil => exact ⟨Nat.zero_le _, nofun⟩
  | cons op ops ih =>
    have hpos : 0 < opLength op := by
      cases op <;> simp only [opLength] <;> omega
    rw [List.flatMap_cons, List.length_append, length_encodeOp, List.length_cons]
    refine ⟨by omega, fun op' hop' => ?_⟩
    rcases List.mem_cons.1 hop' with rfl | hop'
    · omega
    · have := ih.2 op' hop'
      omega

end Representation

namespace Sha256

/-- A number takes as many bytes as its width. -/
theorem length_bigEndian (width n : Nat) : (bigEndian width n).length = width := by
  induction width generalizing n with
  | zero => rfl
  | succ width ih => rw [bigEndian, List.length_append, ih, List.length_singleton]

/-- A digest has 32 bytes. -/
theorem length_digest (message : Bytes) : (digest message).length = 32 := by
  simp [digest, length_bigEndian]

/-- A digest has 64 digits, of at most four bytes each. -/
theorem length_hexDigest_le (message : Bytes) : (Text.toBytes (hexDigest message)).length ≤ 256 := by
  have hdigits : ∀ data : Bytes,
      (data.flatMap fun b => [Hex.digit (b.toNat / 16), Hex.digit (b.toNat % 16)]).length = 2 * data.length := by
    intro data
    induction data with
    | nil => rfl
    | cons b data ih =>
      rw [List.flatMap_cons, List.length_append, ih, List.length_cons, List.length_cons, List.length_cons]
      simp only [List.length_nil]
      omega
  refine (Text.length_toBytes_ofList_le _).trans ?_
  rw [hdigits, length_digest]

end Sha256

/-- A digest always fits its field, so a representation with one fits if everything else does. -/
theorem Representation.fits_of_digest {size chainLength : Nat} {data : Bytes} {form : Form} (hsize : size < UInt64.size)
    (hchain : chainLength < UInt32.size) (hform : FormFits form) :
    Fits ⟨size, Sha256.hexDigest data, chainLength, form⟩ :=
  ⟨hsize, Nat.lt_of_le_of_lt (Sha256.length_hexDigest_le data) (by decide), hchain, hform⟩

end VersionedTree

import VersionedTree.Proofs.Contents.Fields
import VersionedTree.Proofs.Contents.Reading

/-!
# Exactness — which byte strings are records of representations

Every reader of the binary record is exact because of how it is put together. So the bytes that decode to a
representation are its record and what follows it, and all others have a flaw in one of their fields.

* **`Awaits`** — which field comes after which beginning of a record.
* **`exact_read`** — the reader of representations is exact. **`decode?_of_cut`** — no beginning of a record decodes.
* **`Looks.deltify`** — the size by which a delta is compared with contents is the length of its record.
* **`record_exact`** — the theorem.
-/

namespace VersionedTree

namespace Representation

open Binary

/-! ## The fields of a record -/

/-- The fields of a copy. -/
inductive CopyAwaits : Bytes → Field → Prop where
  | offset : CopyAwaits [] (.number 8)
  | length {offset : Nat} (hoffset : offset < UInt64.size) : CopyAwaits (number 8 offset) (.number 8)

/-- The fields of an operation. -/
abbrev OpAwaits : Bytes → Field → Prop :=
  VariantAwaits CopyAwaits (CountedAwaits .data)

/-- The fields of the operations of a delta. -/
inductive OpsAwaits : Bytes → Field → Prop where
  | count : OpsAwaits [] (.number 8)
  | op {count : Nat} {start : Bytes} {field : Field} (hcount : count < UInt64.size)
      (h : ManyAwaits OpFits encodeOp OpAwaits count start field) : OpsAwaits (number 8 count ++ start) field

/-- The fields of a delta. -/
inductive DeltaAwaits : Bytes → Field → Prop where
  | base {start : Bytes} {field : Field} (h : CountedAwaits .text start field) : DeltaAwaits start field
  | ops {base : String} {start : Bytes} {field : Field} (hbase : (Text.toBytes base).length < UInt64.size)
      (h : OpsAwaits start field) : DeltaAwaits (counted (Text.toBytes base) ++ start) field

/-- The fields of a form. -/
abbrev FormAwaits : Bytes → Field → Prop :=
  VariantAwaits (CountedAwaits .data) DeltaAwaits

/-- The fields of a representation: which one comes next after a beginning of complete fields. -/
inductive Awaits : Bytes → Field → Prop where
  | size : Awaits [] (.number 8)
  | digest {size : Nat} {start : Bytes} {field : Field} (hsize : size < UInt64.size) (h : CountedAwaits .text start field) :
      Awaits (number 8 size ++ start) field
  | chainLength {size : Nat} {sha256 : String} (hsize : size < UInt64.size)
      (hdigest : (Text.toBytes sha256).length < UInt64.size) :
      Awaits (number 8 size ++ counted (Text.toBytes sha256)) (.number 4)
  | form {size : Nat} {sha256 : String} {chainLength : Nat} {start : Bytes} {field : Field} (hsize : size < UInt64.size)
      (hdigest : (Text.toBytes sha256).length < UInt64.size) (hchain : chainLength < UInt32.size)
      (h : FormAwaits start field) :
      Awaits (number 8 size ++ counted (Text.toBytes sha256) ++ number 4 chainLength ++ start) field

/-- Copies are read exactly. -/
theorem exact_copy :
    Exact (readNumber 8 >>= fun offset => readNumber 8 >>= fun length => pure (Delta.Op.copy offset length))
      (fun op data => ∃ offset length, (offset < UInt64.size ∧ length < UInt64.size) ∧ op = .copy offset length ∧
        data = number 8 offset ++ number 8 length) CopyAwaits := by
  refine ((Exact.number 8).bind fun offset => (Exact.number 8).bind fun length =>
    Exact.pure (Delta.Op.copy offset length)).congr (fun op data => ?_) fun start field => ?_
  · constructor
    · rintro ⟨offset, _, _, ⟨hoffset, rfl⟩, ⟨length, _, _, ⟨hlength, rfl⟩, ⟨rfl, rfl⟩, rfl⟩, rfl⟩
      exact ⟨offset, length, ⟨hoffset, hlength⟩, rfl, by rw [List.append_nil]⟩
    · rintro ⟨offset, length, ⟨hoffset, hlength⟩, rfl, rfl⟩
      exact ⟨offset, _, _, ⟨hoffset, rfl⟩, ⟨length, _, [], ⟨hlength, rfl⟩, ⟨rfl, rfl⟩, rfl⟩, by rw [List.append_nil]⟩
  · constructor
    · rintro (⟨rfl, rfl⟩ | ⟨offset, _, _, ⟨hoffset, rfl⟩, ⟨rfl, rfl⟩ | ⟨_, _, _, _, hnone, _⟩, rfl⟩)
      · exact .offset
      · rw [List.append_nil]
        exact .length hoffset
      · exact hnone.elim
    · intro h
      cases h with
      | offset => exact .inl ⟨rfl, rfl⟩
      | length hoffset => exact .inr ⟨_, _, [], ⟨hoffset, rfl⟩, .inl ⟨rfl, rfl⟩, (List.append_nil _).symm⟩

/-- Operations are read exactly. -/
theorem exact_readOp : Exact readOp (fun op data => OpFits op ∧ data = encodeOp op) OpAwaits := by
  refine (Exact.variants exact_copy Exact.counted.map fun n => rfl).congr (fun op data => ?_) fun start field => Iff.rfl
  constructor
  · rintro (⟨_, ⟨offset, length, hfits, rfl, rfl⟩, rfl⟩ | ⟨_, ⟨found, ⟨hfits, rfl⟩, rfl⟩, rfl⟩)
    · exact ⟨hfits, by rw [encodeOp, List.append_assoc]⟩
    · exact ⟨hfits, rfl⟩
  · rintro ⟨hfits, rfl⟩
    cases op with
    | copy offset length => exact .inl ⟨_, ⟨offset, length, hfits, rfl, rfl⟩, by rw [encodeOp, List.append_assoc]⟩
    | insert found => exact .inr ⟨_, ⟨found, ⟨hfits, rfl⟩, rfl⟩, rfl⟩

/-- Lists of operations are read exactly. -/
theorem exact_readOps :
    Exact readOps (fun ops data => (ops.length < UInt64.size ∧ ∀ op ∈ ops, OpFits op) ∧ data = encodeOps ops) OpsAwaits := by
  refine ((Exact.number 8).bind fun count => exact_readOp.many count).congr (fun ops data => ?_) fun start field => ?_
  · constructor
    · rintro ⟨_, _, _, ⟨hcount, rfl⟩, ⟨rfl, hops, rfl⟩, rfl⟩
      exact ⟨⟨hcount, hops⟩, rfl⟩
    · rintro ⟨⟨hcount, hops⟩, rfl⟩
      exact ⟨ops.length, _, _, ⟨hcount, rfl⟩, ⟨rfl, hops, rfl⟩, rfl⟩
  · constructor
    · rintro (⟨rfl, rfl⟩ | ⟨count, _, _, ⟨hcount, rfl⟩, hop, rfl⟩)
      · exact .count
      · exact .op hcount hop
    · intro h
      cases h with
      | count => exact .inl ⟨rfl, rfl⟩
      | op hcount hop => exact .inr ⟨_, _, _, ⟨hcount, rfl⟩, hop, rfl⟩

/-- Deltas are read exactly. -/
theorem exact_delta :
    Exact (readText >>= fun base => readOps >>= fun ops => pure (Form.delta base ops))
      (fun form data => ∃ base ops, FormFits (.delta base ops) ∧ form = .delta base ops ∧
        data = counted (Text.toBytes base) ++ encodeOps ops) DeltaAwaits := by
  refine (Exact.text.bind fun base => exact_readOps.bind fun ops => Exact.pure (Form.delta base ops)).congr
    (fun form data => ?_) fun start field => ?_
  · constructor
    · rintro ⟨base, _, _, ⟨hbase, rfl⟩, ⟨ops, _, _, ⟨hops, rfl⟩, ⟨rfl, rfl⟩, rfl⟩, rfl⟩
      exact ⟨base, ops, ⟨hbase, hops⟩, rfl, by rw [List.append_nil]⟩
    · rintro ⟨base, ops, ⟨hbase, hops⟩, rfl, rfl⟩
      exact ⟨base, _, _, ⟨hbase, rfl⟩, ⟨ops, _, [], ⟨hops, rfl⟩, ⟨rfl, rfl⟩, rfl⟩, by rw [List.append_nil]⟩
  · constructor
    · rintro (hstart | ⟨base, _, _, ⟨hbase, rfl⟩, hops | ⟨_, _, _, _, hnone, _⟩, rfl⟩)
      · exact .base hstart
      · exact .ops hbase hops
      · exact hnone.elim
    · intro h
      cases h with
      | base hstart => exact .inl hstart
      | ops hbase hops => exact .inr ⟨_, _, _, ⟨hbase, rfl⟩, .inl hops, rfl⟩

/-- Forms are read exactly. -/
theorem exact_readForm : Exact readForm (fun form data => FormFits form ∧ data = encodeForm form) FormAwaits := by
  refine (Exact.variants Exact.counted.map exact_delta fun n => rfl).congr (fun form data => ?_) fun start field => Iff.rfl
  constructor
  · rintro (⟨_, ⟨found, ⟨hfits, rfl⟩, rfl⟩, rfl⟩ | ⟨_, ⟨base, ops, hfits, rfl, rfl⟩, rfl⟩)
    · exact ⟨hfits, rfl⟩
    · exact ⟨hfits, by rw [encodeForm, List.append_assoc]⟩
  · rintro ⟨hfits, rfl⟩
    cases form with
    | fullText found => exact .inl ⟨_, ⟨found, ⟨hfits, rfl⟩, rfl⟩, rfl⟩
    | delta base ops => exact .inr ⟨_, ⟨base, ops, hfits, rfl, rfl⟩, by rw [encodeForm, List.append_assoc]⟩

/-- **RECORDS OF REPRESENTATIONS ARE READ EXACTLY.** -/
theorem exact_read : Exact read (fun rep data => rep.Fits ∧ data = rep.encode) Awaits := by
  refine ((Exact.number 8).bind fun size => Exact.text.bind fun sha256 => (Exact.number 4).bind fun chainLength =>
    exact_readForm.bind fun form => Exact.pure (Representation.mk size sha256 chainLength form)).congr
    (fun rep data => ?_) fun start field => ?_
  · -- what is accepted: the four fields in a row, with nothing behind the last one
    constructor
    · rintro ⟨size, _, _, ⟨hsize, rfl⟩, ⟨sha256, _, _, ⟨hdigest, rfl⟩, ⟨chainLength, _, _, ⟨hchain, rfl⟩,
        ⟨form, _, _, ⟨hform, rfl⟩, ⟨rfl, rfl⟩, rfl⟩, rfl⟩, rfl⟩, rfl⟩
      exact ⟨⟨hsize, hdigest, hchain, hform⟩, by simp only [encode, List.append_nil, List.append_assoc]⟩
    · rintro ⟨⟨hsize, hdigest, hchain, hform⟩, rfl⟩
      exact ⟨rep.size, _, _, ⟨hsize, rfl⟩, ⟨rep.sha256, _, _, ⟨hdigest, rfl⟩, ⟨rep.chainLength, _, _, ⟨hchain, rfl⟩,
        ⟨rep.form, _, [], ⟨hform, rfl⟩, ⟨rfl, rfl⟩, rfl⟩, rfl⟩, rfl⟩,
        by simp only [encode, List.append_nil, List.append_assoc]⟩
  · constructor
    · rintro (⟨rfl, rfl⟩ | ⟨size, _, _, ⟨hsize, rfl⟩, hstart | ⟨sha256, _, _, ⟨hdigest, rfl⟩, ⟨rfl, rfl⟩ |
        ⟨chainLength, _, _, ⟨hchain, rfl⟩, hform | ⟨_, _, _, _, hnone, _⟩, rfl⟩, rfl⟩, rfl⟩)
      · exact .size
      · exact .digest hsize hstart
      · rw [List.append_nil]
        exact .chainLength hsize hdigest
      · rw [← List.append_assoc, ← List.append_assoc]
        exact .form hsize hdigest hchain hform
      · exact hnone.elim
    · intro h
      cases h with
      | size => exact .inl ⟨rfl, rfl⟩
      | digest hsize hstart => exact .inr ⟨_, _, _, ⟨hsize, rfl⟩, .inl hstart, rfl⟩
      | chainLength hsize hdigest =>
        exact .inr ⟨_, _, _, ⟨hsize, rfl⟩, .inr ⟨_, _, [], ⟨hdigest, rfl⟩, .inl ⟨rfl, rfl⟩, rfl⟩,
          by rw [List.append_nil]⟩
      | form hsize hdigest hchain hform =>
        exact .inr ⟨_, _, _, ⟨hsize, rfl⟩, .inr ⟨_, _, _, ⟨hdigest, rfl⟩, .inr ⟨_, _, _, ⟨hchain, rfl⟩, .inl hform, rfl⟩,
          rfl⟩, by simp only [List.append_assoc]⟩

/-! ## What is decoded -/

variable {rep : Representation} {raw : Bytes}

/-- A representation is decoded just if its encoding comes first, and all its fields fit. -/
theorem decode?_eq_some_iff : decode? raw = some rep ↔ rep.Fits ∧ ∃ rest, raw = rep.encode ++ rest := by
  rw [decode?, Option.map_eq_some_iff]
  simp only [Prod.exists, exact_read.some_iff]
  constructor
  · rintro ⟨_, rest, ⟨_, ⟨hfits, rfl⟩, rfl⟩, rfl⟩
    exact ⟨hfits, rest, rfl⟩
  · rintro ⟨hfits, rest, rfl⟩
    exact ⟨rep, rest, ⟨_, ⟨hfits, rfl⟩, rfl⟩, rfl⟩

/-- Nothing is decoded just if a field is flawed that is awaited. -/
theorem decode?_eq_none_iff : decode? raw = none ↔ ∃ flaw, Flawed Awaits flaw raw := by
  rw [decode?, Option.map_eq_none_iff, exact_read.none_iff]

/-- No record is the beginning of another one: what it is decoded as would also come first in the longer one. -/
theorem decode?_of_cut (hfits : rep.Fits) (hcut : raw <+: rep.encode) (hne : raw ≠ rep.encode) : decode? raw = none := by
  refine Option.eq_none_iff_forall_ne_some.2 fun rep' hrep' => ?_
  obtain ⟨hfits', rest, rfl⟩ := decode?_eq_some_iff.1 hrep'
  obtain ⟨rest', hrest'⟩ := hcut
  have hsame : decode? rep.encode = some rep' := by
    rw [← hrest', List.append_assoc]
    exact decode?_eq_some_iff.2 ⟨hfits', _, rfl⟩
  have hself : decode? rep.encode = some rep := decode?_eq_some_iff.2 ⟨hfits, [], (List.append_nil _).symm⟩
  obtain rfl := Option.some.inj (hsame.symm.trans hself)
  have hnil : rest ++ rest' = [] := by
    rw [List.append_assoc] at hrest'
    exact List.self_eq_append_right.1 hrest'.symm
  obtain ⟨rfl, rfl⟩ := List.append_eq_nil_iff.1 hnil
  exact hne (List.append_nil _)

/-- What is stored is a representation just if its encoding comes first in what is decompressed. -/
theorem ofStored_eq_ok_iff [Codec] {stored : Bytes} (hstored : Codec.decompress? stored = some raw) :
    ofStored stored = .ok rep ↔ rep.Fits ∧ ∃ rest, raw = rep.encode ++ rest := by
  rw [ofStored, hstored, ← decode?_eq_some_iff]
  cases hraw : decode? raw with
  | none => simp [hraw]
  | some found => simp [hraw]

/-- What is stored is not decodable just if a field is flawed in what is decompressed. -/
theorem ofStored_eq_error_iff [Codec] {stored : Bytes} (hstored : Codec.decompress? stored = some raw) :
    ofStored stored = .error .notDecodable ↔ ∃ flaw, Flawed Awaits flaw raw := by
  rw [ofStored, hstored, ← decode?_eq_none_iff]
  cases hraw : decode? raw with
  | none => simp [hraw]
  | some found => simp [hraw]

end Representation

/-! ## What operations are compared by -/

/-- New contents as a delta against the ones they replace: only if the operations have a shorter record than the
    contents. -/
def Representation.deltaAgainst (base : String) (head : Representation) (source data : Bytes) : Option Representation :=
  let ops := Delta.deltaOf source data
  if data.length ≤ (encodeOps ops).length then
    none
  else
    some ⟨data.length, Sha256.hexDigest data, head.chainLength + 1, .delta base ops⟩

/-- A delta is looked for against contents that can be read, and is proposed if it saves enough. -/
theorem TrailM.Looks.deltify [Codec] {σ : Type} [RecordStore σ] [LawfulStore σ] {s : Trail Records} {config : Config} {base : String}
    {head : Representation} {source : Bytes} (hrep : s.records.view.rep base = some head)
    (hreads : s.records.ReadsAs base head (.ok source)) (hsize : head.size ≠ 0)
    (hchain : head.chainLength < config.maxDeltaChain) (data : Bytes) :
    (Representation.deltify? config base data : TrailM σ _).Looks s
      (fun found => found = head.deltaAgainst base source data) fun _ => False := by
  refine Looks.bind (Looks.readRep_of_some hrep) ?_ fun _ he => he
  rintro _ rfl
  rw [if_neg (not_or.2 ⟨hsize, Nat.not_le_of_lt hchain⟩)]
  refine Looks.bind (Looks.readContents hrep hreads) ?_ fun e he => by cases he
  intro found hfound
  cases hfound
  rw [Representation.deltaAgainst]
  simp only [Representation.length_encodeOps]
  split
  case isTrue => exact Looks.pure rfl
  case isFalse => exact Looks.pure rfl

/-! ## The theorem -/

namespace Representation

open Binary

section AnyCodec

variable [Codec] {σ : Type} [RecordStore σ] [LawfulStore σ]

/-- **THE BINARY RECORD IS EXACT.** Bytes decode to a representation just if it fits and they are its record, whatever
    follows. So a representation that fits is read back at every level, and no beginning of its record decodes. Bytes
    decode to nothing just if one of the fields, after a complete beginning, is cut short, has the number of an unknown
    variant or is not text. Whatever the codec decompresses to such bytes is corrupt, and what it decompresses to others
    holds what they decode to. The length by which operations are compared with the contents is the length of their record. -/
theorem record_exact :
    (∀ raw rep, decode? raw = some rep ↔ rep.Fits ∧ ∃ rest, raw = rep.encode ++ rest) ∧
      (∀ level rep, rep.Fits → ∃ stored, rep.toStored level = .ok stored ∧ ofStored stored = .ok rep) ∧
      (∀ raw (rep : Representation), rep.Fits → raw <+: rep.encode → raw ≠ rep.encode → decode? raw = none) ∧
      (∀ raw, decode? raw = none ↔ ∃ flaw, Flawed Awaits flaw raw) ∧
      (∀ stored raw, Codec.decompress? stored = some raw →
        (∀ rep, ofStored stored = .ok rep ↔ decode? raw = some rep) ∧
          (ofStored stored = .error .notDecodable ↔ ∃ flaw, Flawed Awaits flaw raw)) ∧
      (∀ ops, opsLength ops = (encodeOps ops).length) ∧
      ∀ (t : Trail σ) config base head source data, LawfulStore.Valid t.store → t.records.view.rep base = some head →
        t.records.ReadsAs base head (.ok source) → head.size ≠ 0 → head.chainLength < config.maxDeltaChain →
        (deltify? config base data t).1 = .ok (head.deltaAgainst base source data) ∨
          ∃ e, (deltify? config base data t).1 = .error e ∧ e.IsFault σ := by
  refine ⟨fun raw rep => decode?_eq_some_iff, ?_, fun raw rep => decode?_of_cut, fun raw => decode?_eq_none_iff, ?_,
    fun ops => (length_encodeOps ops).symm, ?_⟩
  · -- a representation within the ranges has a stored form, which reads back
    intro level rep hfits
    have hstored : rep.toStored level = .ok (Codec.compress level rep.encode) := if_pos hfits
    exact ⟨_, hstored, ofStored_of_toStored hstored⟩
  · intro stored raw hstored
    refine ⟨fun rep => ?_, ofStored_eq_error_iff hstored⟩
    rw [ofStored_eq_ok_iff hstored, decode?_eq_some_iff]
  · intro t config base head source data hvalid hrep hreads hsize hchain
    refine TrailM.Comes.result ?_ (Trail.over_plain hvalid)
    exact TrailM.Comes.mono (TrailM.Looks.deltify (s := t.plain) hrep hreads hsize hchain data)
      (fun _ _ hq => by rw [hq.2]) fun _ _ he => he.2.elim

end AnyCodec

/-- The contents of a file. -/
def Sample.line : Bytes :=
  List.replicate 64 0x61

/-- The same with one byte more. -/
def Sample.longer : Bytes :=
  Sample.line ++ [0x62]

/-- The longer contents as a delta. -/
def Sample.edited : Representation :=
  ⟨65, Sha256.hexDigest Sample.longer, 1, .delta "x" [.copy 0 64, .insert [0x62]]⟩

/-- It is stored as a delta, as which it is read back; with four bytes more it decodes, and with one byte less it does
    not. -/
theorem Sample.edited_exact : ∃ stored line, Sample.edited.toStored 3 = .ok stored ∧ ofStored stored = .ok Sample.edited ∧
    decode? (Sample.edited.encode ++ [1, 2, 3, 4]) = some Sample.edited ∧ decode? Sample.edited.encode.dropLast = none ∧
    (ofContents Sample.line).toStored 3 = .ok line ∧
    (deltify? Config.default "x" Sample.longer (Trail.start (SortedMap.empty.insert (recordKey "x") line : Records))).1 =
      .ok (some Sample.edited) := by
  have hline : (ofContents Sample.line).toStored 3 = .ok (Codec.compress 3 (ofContents Sample.line).encode) :=
    if_pos (fits_of_digest (by decide) (by decide) (by decide))
  have hfits : Sample.edited.Fits := fits_of_digest (by decide) (by decide) (by decide)
  obtain ⟨hdecode, hback, hshort, -, -, -, hdelta⟩ := record_exact (σ := Records)
  obtain ⟨stored, hstored, hread⟩ := hback 3 Sample.edited hfits
  refine ⟨stored, _, hstored, hread, ?_, ?_, hline, ?_⟩
  · exact (hdecode _ _).2 ⟨hfits, _, rfl⟩
  · refine hshort _ _ hfits (List.dropLast_prefix _) fun hsame => ?_
    have hlength := congrArg List.length hsame
    have hpos : 0 < Sample.edited.encode.length := by
      simp only [encode, List.length_append, length_number]
      omega
    rw [List.length_dropLast] at hlength
    omega
  · generalize Codec.compress 3 (ofContents Sample.line).encode = line at hline
    have hfind : (Trail.start (SortedMap.empty.insert (recordKey "x") line : Records)).records.find? (recordKey "x") =
        some line := (SortedMap.find?_insert ..).trans (if_pos Std.ReflCmp.compare_self)
    have hrep := Records.view_rep_eq_some.2 ⟨line, hfind, ofStored_of_toStored hline⟩
    have hcontents : Records.ReadsAs _ "x" (ofContents Sample.line) (.ok Sample.line) :=
      .contents (.fullText hrep rfl) (Nat.zero_le _) rfl rfl
    rcases hdelta _ Config.default "x" _ _ Sample.longer trivial hrep hcontents (by decide) (by decide) with
      hresult | ⟨e, -, hfault⟩
    · rw [hresult]
      have hops : Delta.deltaOf Sample.line Sample.longer = [.copy 0 64, .insert [0x62]] := by decide +kernel
      rw [deltaAgainst, hops]
      rfl
    · exact absurd hfault (Records.not_isFault e)

end Representation

end VersionedTree

import Mathlib.Data.List.ModifyLast
import VersionedTree.Proofs.Record.Canonical
import VersionedTree.Proofs.Store.View

/-!
# Ids — components and their texts

An id is a list of components, and its text has them in decimal with single dots between them. A text of such a form is
read, whatever zeros it has in front of its components; every other text is refused. An id has one text of its own, so
the records of two ids are never one.

* **`Decimal.read?_eq_some_iff`** — which runs of digits are read as a number of 64 bits.
* **`NodeId.Spells`** — the texts of components. **`ofText?_eq_some_iff`** — a text is read as the id whose components
  it spells.
* **`NodeId.parts_next`** and **`parts_branch`** — the components of successors.
* **`NodeId.text_exact`** — the theorem.
-/

namespace VersionedTree

/-! ## Components -/

namespace Decimal

/-- The number that a run of digits stands for. -/
def value (digits : List Char) : Nat :=
  Nat.ofDigits 10 (digits.reverse.map fun c => c.toNat - '0'.toNat)

/-- True of one or more digits that stand for `n`, a number below 2^64. -/
structure Denotes (digits : List Char) (n : UInt64) : Prop where
  nonempty : digits ≠ []
  isDigit : ∀ c ∈ digits, '0' ≤ c ∧ c ≤ '9'
  value_eq : value digits = n.toNat

/-- The digits are the characters from 0 to 9. -/
theorem isDigit_iff {c : Char} : c.isDigit = true ↔ '0' ≤ c ∧ c ≤ '9' := by
  rw [Char.isDigit, Bool.and_eq_true, decide_eq_true_iff, decide_eq_true_iff]
  rfl

/-- The value of digits is the number that the library makes of them. -/
theorem ofDigitChars_eq_value (digits : List Char) : Nat.ofDigitChars 10 digits 0 = value digits := by
  rw [value, Nat.ofDigits_eq_foldr, Nat.ofDigitChars_eq_foldl, List.foldr_map, List.foldr_reverse]
  simp only [Nat.cast_id, Nat.add_comm]

/-- **A NUMBER IS READ** from the runs of digits that stand for it, and from nothing else. -/
theorem read?_eq_some_iff {digits : List Char} {n : UInt64} : read? digits = some n ↔ Denotes digits n := by
  rw [read?, ofDigitChars_eq_value]
  constructor
  · intro h
    split at h
    case isTrue hread =>
      obtain ⟨hne, hdigits, hlt⟩ := hread
      refine ⟨hne, fun c hc => isDigit_iff.1 (List.all_eq_true.1 hdigits c hc), ?_⟩
      rw [← Option.some.inj h, UInt64.toNat_ofNat_of_lt' hlt]
    case isFalse => cases h
  · rintro ⟨hne, hdigits, hvalue⟩
    have hall : digits.all Char.isDigit = true := List.all_eq_true.2 fun c hc => isDigit_iff.2 (hdigits c hc)
    rw [hvalue, if_pos ⟨hne, hall, n.toNat_lt⟩, UInt64.ofNat_toNat]

/-- Digits that stand for a number have no dot among them. -/
theorem Denotes.dot_not_mem {digits : List Char} {n : UInt64} (h : Denotes digits n) : '.' ∉ digits :=
  fun hdot => absurd (h.isDigit '.' hdot) (by decide)

end Decimal

namespace NodeId

/-! ## The components of ids -/

/-- The number of a revision on its line. -/
def revision : NodeId → UInt64
  | first _ revision => revision
  | fork _ _ revision => revision

/-- The components that all revisions on a line begin with. -/
def line : NodeId → List UInt64
  | first node _ => [node]
  | fork base branch _ => base.parts ++ [branch]

/-- The parts of an id are those of its line, and its revision. -/
theorem parts_eq_line (id : NodeId) : id.parts = id.line ++ [id.revision] := by
  cases id with
  | first node revision => rfl
  | fork base branch revision => exact (List.append_assoc base.parts [branch] [revision]).symm

/-- The next id is on the same line, with the next revision. -/
theorem parts_next (id : NodeId) : id.next.parts = id.line ++ [id.revision + 1] := by
  cases id with
  | first node revision => rfl
  | fork base branch revision => exact (List.append_assoc base.parts [branch] [revision + 1]).symm

/-- A branch has the parts of its base, and two more. -/
theorem parts_branch (id : NodeId) (B : UInt64) : (id.branch B).parts = id.parts ++ [B, 1] :=
  rfl

/-- The next id has the parts of the id, with the last one counted up. -/
theorem modifyLast_parts (id : NodeId) : id.next.parts = id.parts.modifyLast (· + 1) := by
  rw [parts_next, parts_eq_line, List.modifyLast_concat]

/-! ## The texts of components -/

/-- True of the texts of components: runs of digits, with single dots between them. -/
inductive Spells : List Char → List UInt64 → Prop where
  | last {run : List Char} {part : UInt64} (hrun : Decimal.Denotes run part) : Spells run [part]
  | dot {run rest : List Char} {part : UInt64} {parts : List UInt64} (hrun : Decimal.Denotes run part)
      (hrest : Spells rest parts) : Spells (run ++ '.' :: rest) (part :: parts)

variable {cs : List Char} {parts : List UInt64}

/-- Components that spell parts are read as these parts. -/
theorem mapM_read?_of_spells (h : Spells cs parts) : (cs.splitOn '.').mapM Decimal.read? = some parts := by
  induction h with
  | last hrun =>
    rw [List.splitOn_eq_singleton hrun.dot_not_mem, List.mapM_cons, Decimal.read?_eq_some_iff.2 hrun]
    rfl
  | dot hrun _ ih =>
    rw [List.splitOn_append_cons_self_of_not_mem hrun.dot_not_mem, List.mapM_cons, Decimal.read?_eq_some_iff.2 hrun, ih]
    rfl

/-- Components that were read spell what was read, with dots between them. -/
theorem spells_of_mapM_read? {run : List Char} {runs : List (List Char)}
    (h : (run :: runs).mapM Decimal.read? = some parts) : Spells (['.'].intercalate (run :: runs)) parts := by
  -- a text has one run at least, so the induction is on those behind it
  induction runs generalizing run parts with
  | nil =>
    obtain ⟨part, hpart, h⟩ := Option.bind_eq_some_iff.1 (List.mapM_cons.symm.trans h)
    cases h
    rw [List.intercalate_singleton]
    exact .last (Decimal.read?_eq_some_iff.1 hpart)
  | cons next runs ih =>
    obtain ⟨part, hpart, h⟩ := Option.bind_eq_some_iff.1 (List.mapM_cons.symm.trans h)
    obtain ⟨rest, hrest, h⟩ := Option.bind_eq_some_iff.1 h
    cases h
    rw [List.intercalate_cons_cons, List.append_assoc]
    exact .dot (Decimal.read?_eq_some_iff.1 hpart) (ih hrest)

/-- Parts are read from a text just if it spells them. -/
theorem mapM_read?_eq_some_iff : (cs.splitOn '.').mapM Decimal.read? = some parts ↔ Spells cs parts := by
  refine ⟨fun h => ?_, mapM_read?_of_spells⟩
  obtain ⟨run, runs, hruns⟩ := List.exists_cons_of_ne_nil (List.splitOn_ne_nil '.' cs)
  have hjoined : ['.'].intercalate (cs.splitOn '.') = cs := List.intercalate_splitOn '.'
  rw [hruns] at h hjoined
  rw [← hjoined]
  exact spells_of_mapM_read? h

/-- **AN ID IS READ** from the texts that spell its components, and from nothing else. -/
theorem ofText?_eq_some_iff {s : String} {id : NodeId} : ofText? s = some id ↔ Spells s.toList id.parts := by
  rw [ofText?, Option.bind_eq_some_iff]
  constructor
  · rintro ⟨parts, hparts, hid⟩
    rw [parts_of_ofParts? hid]
    exact mapM_read?_eq_some_iff.1 hparts
  · intro h
    exact ⟨id.parts, mapM_read?_eq_some_iff.2 h, ofParts?_parts id⟩

/-- A text is read as an id just if it spells the parts of the id. -/
theorem parse_eq_ok_iff {s : String} {id : NodeId} : parse s = .ok id ↔ Spells s.toList id.parts := by
  rw [← ofText?_eq_some_iff, parse]
  cases ofText? s <;> simp

/-- A text is read as some id just if it spells an even number of parts, and at least one. -/
theorem exists_parse_iff {s : String} :
    (∃ id, parse s = .ok id) ↔ ∃ parts, Spells s.toList parts ∧ parts ≠ [] ∧ parts.length % 2 = 0 := by
  constructor
  · rintro ⟨id, hid⟩
    exact ⟨id.parts, parse_eq_ok_iff.1 hid, exists_parts_iff.1 ⟨id, rfl⟩⟩
  · rintro ⟨parts, hspells, hparts⟩
    obtain ⟨id, rfl⟩ := exists_parts_iff.2 hparts
    exact ⟨id, parse_eq_ok_iff.2 hspells⟩

/-- There is one error only, with the text in it, just if no id can be read. -/
theorem parse_eq_error_iff {s : String} {cause : Malformed} :
    parse s = .error cause ↔ cause = .nodeId s ∧ ¬ ∃ id, parse s = .ok id := by
  rw [parse]
  cases ofText? s <;> simp [eq_comm]

/-- **THE TEXT OF AN ID IS EXACT.** (a) A text is read as an id if and only if it spells the components of the id: runs
    of digits, with zeros in front or without, that stand for numbers of 64 bits, with single dots between them. There is
    such an id if and only if the number of components is even and not zero, and otherwise the text is named in the error.
    (b) The components of new ids are as the operations say, and the text of any id, however it was come by, is read as
    this id; so two ids do not share the key of a record. (c) The text of an id that was read is the text that it was
    read from, without the zeros in front of each component. -/
theorem text_exact :
    (∀ s id, parse s = .ok id ↔ Spells s.toList id.parts) ∧
    (∀ s, (∃ id, parse s = .ok id) ↔ ∃ parts, Spells s.toList parts ∧ parts ≠ [] ∧ parts.length % 2 = 0) ∧
    (∀ s cause, parse s = .error cause ↔ cause = .nodeId s ∧ ¬ ∃ id, parse s = .ok id) ∧
    (root.parts = [0, 0] ∧ (∀ node, (ofNode node).parts = [node, 1]) ∧
      (∀ id : NodeId, id.next.parts = id.parts.modifyLast (· + 1)) ∧
      ∀ (id : NodeId) B, (id.branch B).parts = id.parts ++ [B, 1]) ∧
    (∀ id : NodeId, parse id.text = .ok id) ∧
    (∀ id id' : NodeId, NodeRecord.key id = NodeRecord.key id' ↔ id = id') ∧
    ∀ s id, parse s = .ok id → id.text = trim s :=
  ⟨fun _ _ => parse_eq_ok_iff, fun _ => exists_parse_iff, fun _ _ => parse_eq_error_iff,
    ⟨rfl, fun _ => rfl, modifyLast_parts, parts_branch⟩, parse_text, fun _ _ => NodeRecord.key_inj,
    fun _ _ => text_of_parse⟩

/-- The text of the greatest component there is, with zeros in front of it and in the other components. -/
theorem padded_text_trimmed :
    parse "018446744073709551615.00.1.020" = .ok (.fork (.first 18446744073709551615 0) 1 20) ∧
      (NodeId.fork (.first 18446744073709551615 0) 1 20).text = trim "018446744073709551615.00.1.020" := by
  have hread : parse "018446744073709551615.00.1.020" = .ok (.fork (.first 18446744073709551615 0) 1 20) := by
    decide
  obtain ⟨-, -, -, -, -, -, htext⟩ := text_exact
  exact ⟨hread, htext _ _ hread⟩

end NodeId

end VersionedTree

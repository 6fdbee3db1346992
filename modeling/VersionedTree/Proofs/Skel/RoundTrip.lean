import VersionedTree.Proofs.Skel.Grammar
import VersionedTree.Proofs.Text.Numerals
import VersionedTree.Skel.Printer

/-!
# Skel round trip — a printed skel is parsed back

What the printer writes is a text of the grammar, wherever a name ends after it: a printed skel is followed by a space,
by a closing bracket or by nothing.

* **`spells_write`** — the writer adds a text of the skel in front of the rest.
* **`parse_print`** — the text of a skel is read as that skel.
-/

namespace VersionedTree.Skel

/-! ## Lengths in front of atoms -/

/-- The bytes of a number are those of its digits. -/
theorem toBytes_text (n : Nat) :
    Text.toBytes (Decimal.text n) = (Decimal.text n).toList.map fun c => UInt8.ofNat c.toNat := by
  have h := Text.toBytes_ofList_of_digits fun c (hc : c ∈ (Decimal.text n).toList) => Decimal.isDigit_of_mem_text hc
  rwa [String.ofList_toList] at h

/-- A digit is kept by its byte, and the byte is that of a digit. -/
theorem ofNat_toNat_of_isDigit {c : Char} (h : c.isDigit = true) :
    Char.ofNat (UInt8.ofNat c.toNat).toNat = c ∧ Decimal.isDigit (UInt8.ofNat c.toNat) = true := by
  simp only [Char.isDigit, ge_iff_le, Bool.and_eq_true, decide_eq_true_eq] at h
  have h0 : 48 ≤ c.toNat := UInt32.le_iff_toNat_le.1 h.1
  have h9 : c.toNat ≤ 57 := UInt32.le_iff_toNat_le.1 h.2
  have hbyte : (UInt8.ofNat c.toNat).toNat = c.toNat := by
    rw [UInt8.toNat_ofNat']
    omega
  refine ⟨by rw [hbyte, Char.ofNat_toNat], ?_⟩
  simp only [Decimal.isDigit, Bool.and_eq_true, decide_eq_true_eq, UInt8.le_iff_toNat_le, hbyte]
  exact ⟨h0, h9⟩

/-- They are digits. -/
theorem isDigit_of_mem_toBytes_text {n : Nat} {b : UInt8} (h : b ∈ Text.toBytes (Decimal.text n)) :
    Decimal.isDigit b = true := by
  rw [toBytes_text] at h
  obtain ⟨c, hc, rfl⟩ := List.mem_map.1 h
  exact (ofNat_toNat_of_isDigit (Decimal.isDigit_of_mem_text hc)).2

/-- The length in front of an atom spells the length. -/
theorem decimal_toBytes_text (n : Nat) : decimal (Text.toBytes (Decimal.text n)) = n := by
  have hchars : (Text.toBytes (Decimal.text n)).map (fun b => Char.ofNat b.toNat) = (Decimal.text n).toList := by
    rw [toBytes_text, List.map_map]
    refine (List.map_congr_left fun c hc => ?_).trans (List.map_id _)
    exact (ofNat_toNat_of_isDigit (Decimal.isDigit_of_mem_text hc)).1
  rw [← numeral_eq_decimal, numeral, hchars, Decimal.toList_text]
  exact Nat.ofDigitChars_ten_toDigits

/-- There is at least one. -/
theorem toBytes_text_ne_nil (n : Nat) : Text.toBytes (Decimal.text n) ≠ [] := by
  rw [toBytes_text]
  exact fun h => Decimal.text_ne_nil n (List.map_eq_nil_iff.1 h)

/-! ## What is written -/

/-- The text of an atom spells it, if no byte of a name follows. -/
theorem spells_atomText (data : Bytes) {rest : Bytes} (hrest : Stops isNameByte rest) :
    Spells (atom data) (atomText data) rest := by
  rw [atomText]
  split
  case isTrue hname =>
    cases data with
    | nil => exact nomatch hname
    | cons c cs =>
      simp only [isName, Bool.and_eq_true, List.all_cons] at hname
      obtain ⟨⟨-, hletter⟩, -, hall⟩ := hname
      exact .name hletter (List.all_eq_true.1 hall) hrest
  case isFalse =>
    have hdecimal := decimal_toBytes_text data.length
    have hdigits := fun b => @isDigit_of_mem_toBytes_text data.length b
    have hne := toBytes_text_ne_nil data.length
    generalize Text.toBytes (Decimal.text data.length) = digits at hdecimal hdigits hne
    cases digits with
    | nil => exact absurd rfl hne
    | cons c cs =>
      exact .sized (hdigits c List.mem_cons_self) (fun b hb => hdigits b (List.mem_cons_of_mem _ hb)) rfl hdecimal

/-- After the items of a list comes a space or a bracket, which is no byte of a name. -/
theorem stops_writeTail (items : List Skel) (rest : Bytes) : Stops isNameByte (writeTail items (41 :: rest)) := by
  cases items with
  | nil =>
    rw [writeTail]
    exact .cons rfl rest
  | cons x xs =>
    rw [writeTail]
    exact .cons rfl _

/-- A list that ends is written as its closing bracket. -/
theorem spellsAll_nil (rest : Bytes) : ∃ text, 41 :: rest = text ++ rest ∧ SpellsAll [] text rest :=
  ⟨[41], rfl, .close .nil⟩

/-- A list goes on with the text of an element, after the whitespace that stands there. -/
theorem SpellsAll.of_write {space more rest : Bytes} {x : Skel} {xs : List Skel} (hspace : Blank space)
    (hx : ∃ text, write x more = text ++ more ∧ Spells x text more)
    (hxs : ∃ text, more = text ++ rest ∧ SpellsAll xs text rest) :
    ∃ text, space ++ write x more = text ++ rest ∧ SpellsAll (x :: xs) text rest := by
  obtain ⟨text, hwrite, hx⟩ := hx
  obtain ⟨inside, rfl, hxs⟩ := hxs
  refine ⟨space ++ (text ++ inside), ?_, .item hspace hx hxs⟩
  rw [hwrite]
  simp

-- One theorem for each function of the writer: skels, lists, and lists after their first element.
mutual

/-- **A WRITTEN SKEL** is a text of the grammar, in front of what follows it. -/
theorem spells_write (s : Skel) {rest : Bytes} (hrest : Stops isNameByte rest) :
    ∃ text, write s rest = text ++ rest ∧ Spells s text rest := by
  cases s with
  | atom data => exact ⟨atomText data, rfl, spells_atomText data hrest⟩
  | list items =>
    obtain ⟨inside, hwrite, hinside⟩ := spellsAll_writeItems items rest
    refine ⟨40 :: inside, ?_, .list hinside⟩
    rw [write, hwrite]
    rfl

/-- The items of a list are spelled one by one, by induction on them. -/
theorem spellsAll_writeItems (items : List Skel) (rest : Bytes) :
    ∃ text, writeItems items (41 :: rest) = text ++ rest ∧ SpellsAll items text rest := by
  cases items with
  | nil =>
    rw [writeItems]
    exact spellsAll_nil rest
  | cons x xs =>
    rw [writeItems]
    exact SpellsAll.of_write .nil (spells_write x (stops_writeTail xs rest)) (spellsAll_writeTail xs rest)

/-- So are those after the first, each with a space before it. -/
theorem spellsAll_writeTail (items : List Skel) (rest : Bytes) :
    ∃ text, writeTail items (41 :: rest) = text ++ rest ∧ SpellsAll items text rest := by
  cases items with
  | nil =>
    rw [writeTail]
    exact spellsAll_nil rest
  | cons x xs =>
    rw [writeTail]
    exact SpellsAll.of_write .space (spells_write x (stops_writeTail xs rest)) (spellsAll_writeTail xs rest)

end

/-- **A PRINTED SKEL IS PARSED BACK.** -/
theorem parse_print (s : Skel) : parse s.print = .ok s := by
  obtain ⟨text, hwrite, hspells⟩ := @spells_write s [] .nil
  exact IsTextOf.parse_eq ⟨[], text, [], hwrite, .nil, .nil, hspells⟩

end VersionedTree.Skel

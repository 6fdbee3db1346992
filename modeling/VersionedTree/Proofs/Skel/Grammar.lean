import VersionedTree.Error
import VersionedTree.Skel.Parser

/-!
# Skel grammar — which texts are skels

The texts of a skel, said without the parser: what an atom and a list look like, and what may stand around and between
them. A name goes on for as long as it can, so whether a text is a name depends on what follows it, and every form has
the rest of the input beside it.

* **`Spells`** and **`SpellsAll`** — the texts of a skel, and of the inside of a list with its closing bracket.
* **`Takes`** and **`TakesAll`** — what the parser takes off the front of its input, with a lemma for each thing that it
  can meet there.
* **`spells_of_takes`** and **`takes_of_spells`** — it takes exactly the texts of the grammar.
* **`parse_accepts_grammar`** — a whole text is read as a skel exactly if the grammar says that it is one of that skel.
-/

namespace VersionedTree

/-- What succeeds has succeeded step by step. -/
theorem exists_of_bind_ok {α β : Type} {x : Except Malformed α} {f : α → Except Malformed β} {b : β}
    (h : x >>= f = .ok b) : ∃ a, x = .ok a ∧ f a = .ok b := by
  cases x with
  | error e => cases h
  | ok a => exact ⟨a, rfl, h⟩

namespace Skel

/-! ## The grammar -/

/-- True of an input at whose start a run of such bytes ends. -/
def Stops (p : UInt8 → Bool) (rest : Bytes) : Prop :=
  ∀ c ∈ rest.head?, p c = false

/-- True of whitespace, and of nothing at all. -/
def Blank (text : Bytes) : Prop :=
  ∀ c ∈ text, isSpace c = true

/-- The number that a run of digits stands for. -/
def decimal (digits : Bytes) : Nat :=
  digits.foldl (fun n digit => 10 * n + (digit.toNat - 48)) 0

mutual

/-- The text is one of the skel, where `rest` follows it. -/
inductive Spells : Skel → (text rest : Bytes) → Prop where
  /-- A letter, and all that comes after it up to whitespace, a bracket or the end. -/
  | name {c : UInt8} {cs rest : Bytes} (hletter : isLetter c = true) (hname : ∀ b ∈ cs, isNameByte b = true)
      (hstops : Stops isNameByte rest) : Spells (atom (c :: cs)) (c :: cs) rest
  /-- Digits, one byte of whitespace, and as many bytes of any kind as the digits say. -/
  | sized {c space : UInt8} {cs data rest : Bytes} (hdigit : Decimal.isDigit c = true)
      (hdigits : ∀ b ∈ cs, Decimal.isDigit b = true) (hspace : isSpace space = true)
      (hlength : decimal (c :: cs) = data.length) : Spells (atom data) (c :: cs ++ space :: data) rest
  /-- An opening bracket, and the inside of the list. -/
  | list {items : List Skel} {inside rest : Bytes} (hinside : SpellsAll items inside rest) :
      Spells (list items) (40 :: inside) rest

/-- The text is one of the inside of a list of these elements, with the closing bracket. -/
inductive SpellsAll : List Skel → (text rest : Bytes) → Prop where
  /-- Whitespace, and the closing bracket. -/
  | close {space rest : Bytes} (hspace : Blank space) : SpellsAll [] (space ++ [41]) rest
  /-- Whitespace, an element, and what is inside after it. -/
  | item {x : Skel} {xs : List Skel} {space text more rest : Bytes} (hspace : Blank space)
      (hx : Spells x text (more ++ rest)) (hxs : SpellsAll xs more rest) :
      SpellsAll (x :: xs) (space ++ (text ++ more)) rest

end

/-- The text is one of the skel, with any whitespace around it. -/
def IsTextOf (text : Bytes) (s : Skel) : Prop :=
  ∃ before inner after, text = before ++ (inner ++ after) ∧ Blank before ∧ Blank after ∧ Spells s inner after

/-! ## Runs of bytes -/

section Runs

variable {p : UInt8 → Bool} {run rest : Bytes}

/-- The end of the input stops everything. -/
theorem Stops.nil : Stops p [] :=
  fun _ h => nomatch h

/-- A byte that is not asked for stops. -/
theorem Stops.cons {c : UInt8} (hc : p c = false) (rest : Bytes) : Stops p (c :: rest) := by
  intro b hb
  cases hb
  exact hc

/-- Nothing is blank. -/
theorem Blank.nil : Blank [] :=
  fun _ h => nomatch h

/-- A space is blank. -/
theorem Blank.space : Blank [32] :=
  List.forall_mem_singleton.2 rfl

/-- What is left after dropping does not start with what was dropped. -/
theorem stops_dropWhile (p : UInt8 → Bool) (input : Bytes) : Stops p (input.dropWhile p) := by
  intro c hc
  have h := List.head?_dropWhile_not p input
  rw [Option.mem_def.1 hc] at h
  exact h

/-- All that is taken is asked for. -/
theorem forall_mem_takeWhile (p : UInt8 → Bool) (input : Bytes) : ∀ c ∈ input.takeWhile p, p c = true :=
  List.all_eq_true.1 List.all_takeWhile

/-- A run is taken up to where it stops. -/
theorem takeWhile_run (hrun : ∀ c ∈ run, p c = true) (hrest : Stops p rest) : (run ++ rest).takeWhile p = run := by
  rw [List.takeWhile_append_of_pos hrun]
  cases rest with
  | nil => exact List.append_nil run
  | cons c rest => rw [List.takeWhile_cons_of_neg (by rw [hrest c rfl]; exact Bool.false_ne_true), List.append_nil]

/-- A run is dropped as a whole, if what follows stops it. -/
theorem dropWhile_run (hrun : ∀ c ∈ run, p c = true) (hrest : Stops p rest) : (run ++ rest).dropWhile p = rest := by
  rw [List.dropWhile_append_of_pos hrun]
  cases rest with
  | nil => rfl
  | cons c rest => rw [List.dropWhile_cons_of_neg (by rw [hrest c rfl]; exact Bool.false_ne_true)]

/-- Blank input is skipped as a whole, if what follows is not blank. -/
theorem skipSpace_append {space : Bytes} (hspace : Blank space) (hrest : Stops isSpace rest) :
    skipSpace (space ++ rest) = rest :=
  dropWhile_run hspace hrest

/-- An input is whitespace, and what is left when that is skipped. -/
theorem exists_blank_skipSpace (input : Bytes) : ∃ space, Blank space ∧ input = space ++ skipSpace input :=
  ⟨input.takeWhile isSpace, forall_mem_takeWhile isSpace input, List.takeWhile_append_dropWhile.symm⟩

end Runs

/-! ## Classes of bytes -/

/-- There are five kinds of white space. -/
theorem eq_of_isSpace {c : UInt8} (h : isSpace c = true) : c = 32 ∨ c = 9 ∨ c = 10 ∨ c = 13 ∨ c = 12 := by
  simpa [isSpace, or_assoc] using h

/-- White space is no digit. -/
theorem isDigit_of_isSpace {c : UInt8} (h : isSpace c = true) : Decimal.isDigit c = false := by
  rcases eq_of_isSpace h with rfl | rfl | rfl | rfl | rfl <;> rfl

/-- A digit is neither a bracket nor white space. -/
theorem isDigit_ne {c : UInt8} (h : Decimal.isDigit c = true) : c ≠ 40 ∧ c ≠ 41 ∧ isSpace c = false := by
  refine ⟨?_, ?_, ?_⟩
  · rintro rfl
    exact nomatch h
  · rintro rfl
    exact nomatch h
  · cases hspace : isSpace c with
    | false => rfl
    | true => exact nomatch h.symm.trans (isDigit_of_isSpace hspace)

/-- A letter is neither a bracket nor a digit nor white space. -/
theorem isLetter_ne {c : UInt8} (h : isLetter c = true) :
    c ≠ 40 ∧ c ≠ 41 ∧ Decimal.isDigit c = false ∧ isSpace c = false := by
  refine ⟨?_, ?_, ?_, ?_⟩
  · rintro rfl
    exact nomatch h
  · rintro rfl
    exact nomatch h
  · simp only [isLetter, Bool.or_eq_true, Bool.and_eq_true, decide_eq_true_eq, UInt8.le_iff_toNat_le] at h
    have h65 : (65 : UInt8).toNat = 65 := rfl
    have h97 : (97 : UInt8).toNat = 97 := rfl
    have h57 : (57 : UInt8).toNat = 57 := rfl
    have hgt : ¬c ≤ 57 := by
      rw [UInt8.le_iff_toNat_le]
      omega
    simp [Decimal.isDigit, hgt]
  · cases hspace : isSpace c with
    | false => rfl
    | true => rcases eq_of_isSpace hspace with rfl | rfl | rfl | rfl | rfl <;> exact nomatch h

/-- The parser reads digits as the numbers that they stand for. -/
theorem numeral_eq_decimal (digits : Bytes) : numeral digits = decimal digits := by
  have hbyte : ∀ b : UInt8, (Char.ofNat b.toNat).toNat = b.toNat := by
    intro b
    have hvalid : b.toNat.isValidChar := .inl (Nat.lt_trans b.toNat_lt (by decide))
    rw [Char.ofNat, dif_pos hvalid]
    rfl
  rw [numeral, Nat.ofDigitChars, List.foldl_map, decimal]
  simp only [hbyte]
  rfl

/-! ## What the parser takes -/

/-- The parser takes the skel off the front of the input, and leaves the rest. `size` is the size of the whole text. -/
def Takes (size : Nat) (input : Bytes) (s : Skel) (rest : Bytes) : Prop :=
  ∃ h, element size input = .ok (s, ⟨rest, h⟩)

/-- The parser takes the elements of a list and its closing bracket off the front of the input, and leaves the rest. -/
def TakesAll (size : Nat) (input : Bytes) (items : List Skel) (rest : Bytes) : Prop :=
  ∃ h, elements size input = .ok (items, ⟨rest, h⟩)

variable {size : Nat} {s x : Skel} {items xs : List Skel} {c : UInt8} {cs input text rest more : Bytes}

/-- A bracket opens a list. -/
theorem takes_bracket : Takes size (40 :: cs) s rest ↔ ∃ items, s = list items ∧ TakesAll size cs items rest := by
  rw [Takes, element, if_pos rfl]
  constructor
  · rintro ⟨hlt, h⟩
    obtain ⟨⟨items, _, hlt'⟩, hall, h⟩ := exists_of_bind_ok h
    cases h
    exact ⟨items, rfl, hlt', hall⟩
  · rintro ⟨items, rfl, hlt, hall⟩
    rw [hall]
    exact ⟨Nat.lt_succ_of_lt hlt, rfl⟩

/-- A digit starts a length. -/
theorem takes_digit (hc : Decimal.isDigit c = true) : Takes size (c :: cs) s rest ↔
    ∃ space data, cs.dropWhile Decimal.isDigit = space :: (data ++ rest) ∧ isSpace space = true ∧
      decimal (c :: cs.takeWhile Decimal.isDigit) = data.length ∧ s = atom data := by
  rw [Takes, element, if_neg (isDigit_ne hc).1, if_pos hc, ← numeral_eq_decimal]
  simp only [sizedAtom]
  split
  case h_1 hnil =>
    constructor
    · rintro ⟨_, h⟩
      cases h
    · rintro ⟨space, data, hcons, -⟩
      cases hnil.symm.trans hcons
  case h_2 space found hcons =>
    constructor
    · rintro ⟨hlt, h⟩
      split at h
      case isTrue => cases h
      case isFalse hspace =>
        split at h
        case isTrue => cases h
        case isFalse hlength =>
          cases h
          refine ⟨space, found.take _, ?_, by simpa using hspace, ?_, rfl⟩
          · rw [hcons, List.take_append_drop]
          · rw [List.length_take, Nat.min_eq_left (Nat.not_lt.1 hlength)]
    · rintro ⟨space', data, hcons', hspace, hlength, rfl⟩
      cases hcons.symm.trans hcons'
      -- the data are there as a whole, so the length is met and the rest is what follows them
      have hfits : ¬(data ++ rest).length < data.length := by
        rw [List.length_append]
        omega
      have hlt : rest.length < (c :: cs).length := by
        have hle := length_dropWhile_le Decimal.isDigit cs
        rw [hcons] at hle
        simp only [List.length_cons, List.length_append] at hle ⊢
        omega
      refine ⟨hlt, ?_⟩
      simp only [hspace, hlength, hfits, Bool.not_true, Bool.false_eq_true, if_false, List.take_left, List.drop_left]

/-- A letter starts a name. -/
theorem takes_letter (hc : isLetter c = true) : Takes size (c :: cs) s rest ↔
    s = atom (c :: cs.takeWhile isNameByte) ∧ rest = cs.dropWhile isNameByte := by
  obtain ⟨hopen, -, hdigit, -⟩ := isLetter_ne hc
  rw [Takes, element, if_neg hopen, hdigit, if_neg Bool.false_ne_true, if_pos hc, nameAtom]
  constructor
  · rintro ⟨hlt, h⟩
    cases h
    exact ⟨rfl, rfl⟩
  · rintro ⟨rfl, rfl⟩
    exact ⟨_, rfl⟩

/-- Nothing else starts a skel. -/
theorem Takes.cases_start (h : Takes size input s rest) :
    ∃ c cs, input = c :: cs ∧ (c = 40 ∨ Decimal.isDigit c = true ∨ isLetter c = true) := by
  obtain ⟨hlt, h⟩ := h
  cases input with
  | nil =>
    rw [element] at h
    cases h
  | cons c cs =>
    refine ⟨c, cs, rfl, Classical.byContradiction fun hstart => ?_⟩
    obtain ⟨hopen, hdigit, hletter⟩ := not_or.1 hstart |>.imp_right not_or.1
    rw [element, if_neg hopen, if_neg hdigit, if_neg hletter] at h
    cases h

/-- A list ends at a closing bracket, and goes on with an element otherwise. -/
theorem takesAll_iff : TakesAll size input items rest ↔
    (skipSpace input = 41 :: rest ∧ items = []) ∨
      ∃ c cs x xs more, skipSpace input = c :: cs ∧ c ≠ 41 ∧ Takes size (c :: cs) x more ∧ TakesAll size more xs rest ∧
        items = x :: xs := by
  -- what is left is shorter than the input, which is what the parser asks of it
  have hskip : (skipSpace input).length ≤ input.length := length_dropWhile_le isSpace input
  rw [TakesAll, elements]
  split
  case h_1 hnil =>
    constructor
    · rintro ⟨_, h⟩
      cases h
    · rintro (⟨hclose, -⟩ | ⟨c, cs, x, xs, more, hcons, -⟩)
      · cases hnil.symm.trans hclose
      · cases hnil.symm.trans hcons
  case h_2 c cs hcons =>
    rw [hcons, List.length_cons] at hskip
    by_cases hclose : c = 41
    · subst hclose
      simp only [if_true]
      constructor
      · rintro ⟨hlt, h⟩
        cases h
        exact .inl ⟨hcons, rfl⟩
      · rintro (⟨hclose, rfl⟩ | ⟨c, cs, x, xs, more, hcons', hne, -⟩)
        · cases hcons.symm.trans hclose
          exact ⟨hskip, rfl⟩
        · cases hcons.symm.trans hcons'
          exact absurd rfl hne
    · simp only [if_neg hclose]
      constructor
      · rintro ⟨hlt, h⟩
        obtain ⟨⟨x, more, hmore⟩, helement, h⟩ := exists_of_bind_ok h
        obtain ⟨⟨xs, _, hrest⟩, hall, h⟩ := exists_of_bind_ok h
        cases h
        exact .inr ⟨c, cs, x, xs, more, hcons, hclose, ⟨hmore, helement⟩, ⟨hrest, hall⟩, rfl⟩
      · rintro (⟨hclose', -⟩ | ⟨c', cs', x, xs, more, hcons', -, ⟨hmore, helement⟩, ⟨hrest, hall⟩, rfl⟩)
        · cases hcons.symm.trans hclose'
          exact absurd rfl hclose
        · cases hcons.symm.trans hcons'
          simp only [bind, Except.bind, helement, hall, pure, Except.pure]
          refine ⟨?_, trivial⟩
          rw [List.length_cons] at hmore
          omega

/-! ## Only texts of the grammar are taken -/

/-- What is taken at a digit is the text of an atom with a length. -/
theorem exists_spells_of_digit (hc : Decimal.isDigit c = true) (h : Takes size (c :: cs) s rest) :
    ∃ text, c :: cs = text ++ rest ∧ Spells s text rest := by
  obtain ⟨space, data, hdrop, hspace, hlength, rfl⟩ := (takes_digit hc).1 h
  refine ⟨c :: cs.takeWhile Decimal.isDigit ++ space :: data, ?_,
    .sized hc (forall_mem_takeWhile Decimal.isDigit cs) hspace hlength⟩
  have hcs : cs.takeWhile Decimal.isDigit ++ space :: (data ++ rest) = cs := by
    rw [← hdrop, List.takeWhile_append_dropWhile]
  simp [hcs]

/-- What is taken at a letter is the text of a name. -/
theorem exists_spells_of_letter (hc : isLetter c = true) (h : Takes size (c :: cs) s rest) :
    ∃ text, c :: cs = text ++ rest ∧ Spells s text rest := by
  obtain ⟨rfl, rfl⟩ := (takes_letter hc).1 h
  refine ⟨c :: cs.takeWhile isNameByte, ?_,
    .name hc (forall_mem_takeWhile isNameByte cs) (stops_dropWhile isNameByte cs)⟩
  rw [List.cons_append, List.takeWhile_append_dropWhile]

/-- A closing bracket behind whitespace is the inside of an empty list. -/
theorem exists_spellsAll_close (h : skipSpace input = 41 :: rest) :
    ∃ text, input = text ++ rest ∧ SpellsAll [] text rest := by
  obtain ⟨space, hspace, hinput⟩ := exists_blank_skipSpace input
  refine ⟨space ++ [41], ?_, .close hspace⟩
  rw [hinput, h, List.append_assoc]
  rfl

/-- An element behind whitespace is in front of what else is inside. -/
theorem exists_spellsAll_item (h : skipSpace input = text ++ (more ++ rest)) (hx : Spells x text (more ++ rest))
    (hxs : SpellsAll xs more rest) : ∃ inside, input = inside ++ rest ∧ SpellsAll (x :: xs) inside rest := by
  obtain ⟨space, hspace, hinput⟩ := exists_blank_skipSpace input
  refine ⟨space ++ (text ++ more), ?_, .item hspace hx hxs⟩
  rw [hinput, h]
  simp

/-- **WHAT THE PARSER TAKES** is a text of the grammar: of a skel, and of the inside of a list. -/
theorem spells_of_takes_all (size : Nat) :
    (∀ input s rest, Takes size input s rest → ∃ text, input = text ++ rest ∧ Spells s text rest) ∧
      ∀ input items rest, TakesAll size input items rest → ∃ text, input = text ++ rest ∧ SpellsAll items text rest := by
  -- the induction follows the calls of the parser; the last three cases are about the inside of a list
  refine element.mutual_induct
    (fun input => ∀ s rest, Takes size input s rest → ∃ text, input = text ++ rest ∧ Spells s text rest)
    (fun input => ∀ items rest, TakesAll size input items rest →
      ∃ text, input = text ++ rest ∧ SpellsAll items text rest)
    ?empty ?bracket ?digit ?letter ?other ?ended ?closed ?item
  case empty =>
    intro s rest h
    obtain ⟨c, cs, hcons, -⟩ := h.cases_start
    cases hcons
  case bracket =>
    intro cs ih s rest h
    obtain ⟨items, rfl, hall⟩ := takes_bracket.1 h
    obtain ⟨inside, rfl, hinside⟩ := ih items rest hall
    exact ⟨40 :: inside, rfl, .list hinside⟩
  case digit => exact fun c cs _ hdigit s rest h => exists_spells_of_digit hdigit h
  case letter => exact fun c cs _ _ hletter s rest h => exists_spells_of_letter hletter h
  case other =>
    intro c cs hopen hdigit hletter s rest h
    obtain ⟨c', cs', hcons, hstart⟩ := h.cases_start
    cases hcons
    exact absurd hstart (not_or.2 ⟨hopen, not_or.2 ⟨hdigit, hletter⟩⟩)
  case ended =>
    intro input hnil items rest h
    rcases takesAll_iff.1 h with ⟨hclose, -⟩ | ⟨c, cs, x, xs, more, hcons, -⟩
    · cases hnil.symm.trans hclose
    · cases hnil.symm.trans hcons
  case closed =>
    intro input cs hclose _ items rest h
    rcases takesAll_iff.1 h with ⟨hclose', rfl⟩ | ⟨c, cs', x, xs, more, hcons, hne, -⟩
    · exact exists_spellsAll_close hclose'
    · cases hclose.symm.trans hcons
      exact absurd rfl hne
  case item =>
    intro input c cs hcons _ hne ihx ihxs items rest h
    rcases takesAll_iff.1 h with ⟨hclose, -⟩ | ⟨c', cs', x, xs, more, hcons', -, htakes, hall, rfl⟩
    · cases hcons.symm.trans hclose
      exact absurd rfl hne
    · cases hcons.symm.trans hcons'
      obtain ⟨hlt, -⟩ := id htakes
      obtain ⟨text, htext, hx⟩ := ihx x more htakes
      obtain ⟨inside, rfl, hxs⟩ := ihxs more hlt xs rest hall
      exact exists_spellsAll_item (hcons.trans htext) hx hxs

/-- What the parser takes is spelled out in the input. -/
theorem spells_of_takes (h : Takes size input s rest) : ∃ text, input = text ++ rest ∧ Spells s text rest :=
  (spells_of_takes_all size).1 input s rest h

/-! ## All texts of the grammar are taken -/

/-- The text of a skel starts with a byte that neither is skipped nor closes a list. -/
theorem Spells.eq_cons (h : Spells s text rest) : ∃ c cs, text = c :: cs ∧ c ≠ 41 ∧ isSpace c = false := by
  cases h with
  | name hletter =>
    obtain ⟨-, hclose, -, hspace⟩ := isLetter_ne hletter
    exact ⟨_, _, rfl, hclose, hspace⟩
  | sized hdigit =>
    obtain ⟨-, hclose, hspace⟩ := isDigit_ne hdigit
    exact ⟨_, _, rfl, hclose, hspace⟩
  | list => exact ⟨40, _, rfl, by decide, rfl⟩

/-- What spells a skel does not start with white space. -/
theorem Spells.stops (h : Spells s text rest) (more : Bytes) : Stops isSpace (text ++ more) := by
  obtain ⟨c, cs, rfl, -, hspace⟩ := h.eq_cons
  exact .cons hspace _

-- One theorem for skels, and one for the inside of lists.
mutual

/-- **EVERY TEXT OF THE GRAMMAR** is taken, and what follows it is left. -/
theorem takes_of_spells (size : Nat) (s : Skel) {text rest : Bytes} (h : Spells s text rest) :
    Takes size (text ++ rest) s rest := by
  cases s with
  | atom data =>
    cases h with
    | @name c cs _ hletter hname hstops =>
      rw [List.cons_append]
      refine (takes_letter hletter).2 ⟨?_, (dropWhile_run hname hstops).symm⟩
      rw [takeWhile_run hname hstops]
    | @sized c space cs _ _ hdigit hdigits hspace hlength =>
      have hstops : Stops Decimal.isDigit (space :: (data ++ rest)) := .cons (isDigit_of_isSpace hspace) _
      have hcs : cs ++ space :: data ++ rest = cs ++ space :: (data ++ rest) := by simp
      rw [List.cons_append, List.cons_append, hcs]
      refine (takes_digit hdigit).2 ⟨space, data, dropWhile_run hdigits hstops, hspace, ?_, rfl⟩
      rw [takeWhile_run hdigits hstops, hlength]
  | list items =>
    cases h with
    | list hinside => exact takes_bracket.2 ⟨items, rfl, takesAll_of_spellsAll size items hinside⟩

/-- A list that is spelled out is taken item by item. -/
theorem takesAll_of_spellsAll (size : Nat) (items : List Skel) {text rest : Bytes} (h : SpellsAll items text rest) :
    TakesAll size (text ++ rest) items rest := by
  cases items with
  | nil =>
    cases h with
    | @close space _ hspace =>
      have hstops : Stops isSpace (41 :: rest) := .cons rfl rest
      rw [List.append_assoc]
      exact takesAll_iff.2 (.inl ⟨skipSpace_append hspace hstops, rfl⟩)
  | cons x xs =>
    cases h with
    | @item _ _ space inner more _ hspace hx hxs =>
      obtain ⟨c, cs, rfl, hclose, -⟩ := hx.eq_cons
      have hinput : space ++ (c :: cs ++ more) ++ rest = space ++ (c :: cs ++ (more ++ rest)) := by simp
      rw [hinput]
      exact takesAll_iff.2 (.inr ⟨c, cs ++ (more ++ rest), x, xs, more ++ rest,
        skipSpace_append hspace (hx.stops _), hclose, takes_of_spells size x hx,
        takesAll_of_spellsAll size xs hxs, rfl⟩)

end

/-! ## Whole texts -/

/-- If an element is taken and nothing but blank input is left, then it is what the text says. -/
theorem parse_of_takes (h : Takes text.length (skipSpace text) s rest) (hrest : Blank rest) : parse text = .ok s := by
  obtain ⟨hlt, h⟩ := h
  have hskip : skipSpace rest = [] := by
    have hskip := skipSpace_append hrest .nil
    rwa [List.append_nil] at hskip
  simp only [parse, h, Bind.bind, Except.bind, hskip]
  rfl

/-- An error in the element is the error of the text. -/
theorem parse_of_error {cause : Malformed} (h : element text.length (skipSpace text) = .error cause) :
    parse text = .error cause := by
  rw [parse, h]
  rfl

/-- What a text says was taken from it, and nothing but blank input was left. -/
theorem takes_of_parse (h : parse text = .ok s) : ∃ rest, Takes text.length (skipSpace text) s rest ∧ Blank rest := by
  rw [parse] at h
  obtain ⟨⟨s', rest, hlt⟩, helement, h⟩ := exists_of_bind_ok h
  dsimp only at h
  split at h
  case h_1 hnil =>
    cases h
    obtain ⟨space, hspace, hrest⟩ := exists_blank_skipSpace rest
    rw [hnil, List.append_nil] at hrest
    exact ⟨rest, ⟨hlt, helement⟩, hrest ▸ hspace⟩
  case h_2 => cases h

/-- A text of the grammar is read as its skel. -/
theorem IsTextOf.parse_eq (h : IsTextOf text s) : parse text = .ok s := by
  obtain ⟨before, inner, after, rfl, hbefore, hafter, hspells⟩ := h
  refine parse_of_takes ?_ hafter
  rw [skipSpace_append hbefore (hspells.stops after)]
  exact takes_of_spells _ s hspells

/-- A text that is read as a skel is one of the grammar. -/
theorem isTextOf_of_parse (h : parse text = .ok s) : IsTextOf text s := by
  obtain ⟨rest, htakes, hrest⟩ := takes_of_parse h
  obtain ⟨inner, hinner, hspells⟩ := spells_of_takes htakes
  obtain ⟨space, hspace, htext⟩ := exists_blank_skipSpace text
  exact ⟨space, inner, rest, htext.trans (congrArg _ hinner), hspace, hrest, hspells⟩

/-- An atom whose length does not fit 64 bits is refused for that, as no text has as many bytes. -/
theorem element_oversized (size : Nat) (hc : Decimal.isDigit c = true)
    (hlength : UInt64.size ≤ decimal (c :: cs.takeWhile Decimal.isDigit)) (hcs : cs.length < UInt64.size) :
    element size (c :: cs) = .error (.badLength (size - (c :: cs).length)) := by
  have hrefused : ¬ decimal (c :: cs.takeWhile Decimal.isDigit) < UInt64.size := Nat.not_lt.2 hlength
  have hdrop := length_dropWhile_le Decimal.isDigit cs
  rw [element, if_neg (isDigit_ne hc).1, if_pos hc]
  simp only [sizedAtom, numeral_eq_decimal, if_neg hrefused]
  split
  case h_1 => rfl
  case h_2 space data hcons =>
    rw [hcons, List.length_cons] at hdrop
    have hshort : data.length < decimal (c :: cs.takeWhile Decimal.isDigit) := by omega
    simp only [hshort, if_true, ite_self]

/-- **THE PARSER ACCEPTS THE GRAMMAR** and nothing else. A text is read as a skel exactly if it is one of that skel; every
    other text is refused as malformed. A length that does not fit 64 bits is refused as such. -/
theorem parse_accepts_grammar (text : Bytes) :
    (∀ s, parse text = .ok s ↔ IsTextOf text s) ∧
      ((¬ ∃ s, IsTextOf text s) → ∃ cause, (parse text).mapError Error.malformed = .error (.malformed cause)) ∧
      ∀ before c cs, text = before ++ c :: cs → Blank before → Decimal.isDigit c = true →
        UInt64.size ≤ decimal (c :: cs.takeWhile Decimal.isDigit) → text.length < UInt64.size →
        parse text = .error (.badLength before.length) := by
  refine ⟨fun s => ⟨isTextOf_of_parse, IsTextOf.parse_eq⟩, ?_, ?_⟩
  · intro hnone
    cases hparse : parse text with
    | ok s => exact absurd ⟨s, isTextOf_of_parse hparse⟩ hnone
    | error cause => exact ⟨cause, rfl⟩
  · rintro before c cs rfl hbefore hc hlength hfits
    rw [List.length_append] at hfits
    -- cs) :: a digit stops the whitespace, so the error names its position
    have hstops : Stops isSpace (c :: cs) := .cons (isDigit_ne hc).2.2 cs
    have hcs : cs.length < UInt64.size := by
      rw [List.length_cons] at hfits
      omega
    refine parse_of_error ?_
    rw [skipSpace_append hbefore hstops, element_oversized _ hc hlength hcs, List.length_append, Nat.add_sub_cancel]

/-- `(a 2 ())` is a list whose second atom holds brackets; a length of 20 digits is refused. -/
theorem bracket_atom_accepted :
    parse [40, 97, 32, 50, 32, 40, 41, 41] = .ok (list [atom [97], atom [40, 41]]) ∧
      parse (List.replicate 20 57 ++ [32]) = .error (.badLength 0) ∧
      ∃ cause, (parse (List.replicate 20 57 ++ [32])).mapError Error.malformed = .error (.malformed cause) := by
  have hname : Spells (atom [97]) [97] [32, 50, 32, 40, 41, 41] := .name rfl (List.forall_mem_nil _) (.cons rfl _)
  have hsized : Spells (atom [40, 41]) [50, 32, 40, 41] [41] :=
    @Spells.sized 50 32 [] [40, 41] [41] rfl (List.forall_mem_nil _) rfl rfl
  have hlist : Spells (list [atom [97], atom [40, 41]]) [40, 97, 32, 50, 32, 40, 41, 41] [] :=
    .list (@SpellsAll.item _ _ [] [97] [32, 50, 32, 40, 41, 41] [] .nil hname
      (@SpellsAll.item _ _ [32] [50, 32, 40, 41] [41] [] .space hsized (@SpellsAll.close [] [] .nil)))
  have hrefused : parse (List.replicate 20 57 ++ [32]) = .error (.badLength 0) :=
    (parse_accepts_grammar _).2.2 [] 57 (List.replicate 19 57 ++ [32]) rfl .nil rfl (by decide) (by decide)
  refine ⟨((parse_accepts_grammar _).1 _).2 ⟨[], _, [], rfl, .nil, .nil, hlist⟩, hrefused, ?_⟩
  refine (parse_accepts_grammar _).2.1 fun ⟨s, hs⟩ => ?_
  rw [((parse_accepts_grammar _).1 s).2 hs] at hrefused
  cases hrefused

end Skel

end VersionedTree

import Mathlib.Data.Nat.Digits.Defs
import VersionedTree.Text.Base36
import VersionedTree.Text.Decimal
import VersionedTree.Text

/-!
# Numerals — what is written is read back

* **`Decimal.read?_text`** — a decimal numeral is read back, so no two numbers share their text.
* **`Decimal.toList_text_of_read?`** — and what was read is written as it was read, but for leading zeros.
* **`Base36.keyAt`** — the key that a counter of keys hands out after `n` others. **`next?_keyAt`** says that a counter
  goes through these keys, and **`keyAt_injective`** that it never comes back to one.
-/

namespace VersionedTree

/-! ## Bytes of ASCII text -/

/-- The bytes of a text are those of its characters, one after the other. -/
theorem Text.toBytes_ofList (cs : List Char) : toBytes (String.ofList cs) = cs.flatMap String.utf8EncodeChar := by
  rw [toBytes, String.toByteArray_ofList, List.utf8Encode, List.toList_data_toByteArray]

/-- A character has at most four bytes. -/
theorem Text.length_toBytes_ofList_le (cs : List Char) : (toBytes (String.ofList cs)).length ≤ 4 * cs.length := by
  rw [toBytes_ofList]
  induction cs with
  | nil => exact Nat.le_refl 0
  | cons c cs ih =>
    have hc := c.utf8Size_le_four
    rw [List.flatMap_cons, List.length_append, String.length_utf8EncodeChar, List.length_cons]
    omega

/-- A string of digits has one byte for each of them. -/
theorem Text.toBytes_ofList_of_digits {cs : List Char} (h : ∀ c ∈ cs, c.isDigit = true) :
    toBytes (String.ofList cs) = cs.map fun c => UInt8.ofNat c.toNat := by
  rw [toBytes_ofList]
  induction cs with
  | nil => rfl
  | cons c cs ih =>
    have hc := h c List.mem_cons_self
    have hle : c.val.toNat ≤ 0x7f := by
      simp only [Char.isDigit, ge_iff_le, Bool.and_eq_true, decide_eq_true_eq] at hc
      have h9 := UInt32.le_iff_toNat_le.1 hc.2
      have h9' : ('9' : Char).val.toNat = 57 := rfl
      omega
    have hencode : String.utf8EncodeChar c = [UInt8.ofNat c.toNat] := by
      rw [String.utf8EncodeChar]
      exact if_pos hle
    rw [List.flatMap_cons, ih fun d hd => h d (List.mem_cons_of_mem _ hd), hencode]
    rfl

namespace Decimal

/-- The text of a number has the digits that the library gives it. -/
theorem toList_text (n : Nat) : (text n).toList = Nat.toDigits 10 n :=
  Nat.toList_repr

/-- The text of a number has digits only. -/
theorem isDigit_of_mem_text {n : Nat} {c : Char} (h : c ∈ (text n).toList) : c.isDigit = true := by
  rw [toList_text] at h
  exact Nat.isDigit_of_mem_toDigits (by decide) (by decide) h

/-- The text of a number is never empty. -/
theorem text_ne_nil (n : Nat) : (text n).toList ≠ [] := by
  rw [toList_text]
  exact Nat.toDigits_ne_nil

/-- **A NUMERAL IS READ BACK** as the number it was written for. -/
theorem read?_text (n : UInt64) : read? (text n.toNat).toList = some n := by
  have hvalue : Nat.ofDigitChars 10 (text n.toNat).toList 0 = n.toNat := by
    rw [toList_text]
    exact Nat.ofDigitChars_ten_toDigits
  have hdigits : (text n.toNat).toList.all Char.isDigit = true :=
    List.all_eq_true.2 fun c hc => isDigit_of_mem_text hc
  simp only [read?, hvalue]
  rw [if_pos ⟨text_ne_nil _, hdigits, n.toNat_lt⟩, UInt64.ofNat_toNat]

/-- The reader that accepts a sign reads numerals without one in the same way. -/
theorem readSigned?_text (n : UInt64) : readSigned? (text n.toNat).toList = some n := by
  rw [← read?_text n]
  unfold readSigned?
  split
  case h_1 digits heq =>
    have hplus : '+' ∈ (text n.toNat).toList := by
      rw [heq]
      exact List.mem_cons_self
    exact absurd (isDigit_of_mem_text hplus) (by decide)
  case h_2 => rfl

/-- No two numbers have the same text. -/
theorem text_injective {m n : UInt64} (h : text m.toNat = text n.toNat) : m = n := by
  have : some m = some n := by rw [← read?_text m, h, read?_text n]
  exact Option.some.inj this

/-- The digits without leading zeros, of which one stays if there is nothing else. -/
def dropLeadingZeros : List Char → List Char
  | '0' :: c :: digits => dropLeadingZeros (c :: digits)
  | digits => digits

/-- A digit is the character of its value, which is below ten. -/
theorem digitChar_of_isDigit {c : Char} (h : c.isDigit = true) :
    c.toNat - '0'.toNat < 10 ∧ Nat.digitChar (c.toNat - '0'.toNat) = c := by
  have hall : ∀ d < 10, Nat.digitChar (48 + d - 48) = Char.ofNat (48 + d) := by decide
  have hbounds : 48 ≤ c.toNat ∧ c.toNat ≤ 57 := Char.isDigit_iff_toNat.1 h
  have hzero : '0'.toNat = 48 := rfl
  have hc := hall (c.toNat - 48) (by omega)
  rw [show 48 + (c.toNat - 48) = c.toNat by omega, Char.ofNat_toNat] at hc
  rw [hzero]
  exact ⟨by omega, hc⟩

/-- **DIGITS AFTER A POSITIVE NUMBER** stay as they are in the numeral of the whole. -/
theorem toDigits_ofDigitChars {digits : List Char} (h : ∀ c ∈ digits, c.isDigit = true) :
    ∀ {n : Nat}, 0 < n → Nat.toDigits 10 (Nat.ofDigitChars 10 digits n) = Nat.toDigits 10 n ++ digits := by
  induction digits with
  | nil =>
    intro n _
    rw [Nat.ofDigitChars_nil, List.append_nil]
  | cons c digits ih =>
    intro n hn
    obtain ⟨hlt, hdigit⟩ := digitChar_of_isDigit (h c List.mem_cons_self)
    rw [Nat.ofDigitChars_cons, ih (fun d hd => h d (List.mem_cons_of_mem _ hd)) (by omega),
      ← Nat.toDigits_append_toDigits (by decide) hn hlt, Nat.toDigits_of_lt_base hlt, hdigit, List.append_assoc]
    rfl

/-- **THE NUMERAL OF THE VALUE** of a run of digits is that run without its leading zeros. -/
theorem toDigits_value {digits : List Char} (hne : digits ≠ []) (h : ∀ c ∈ digits, c.isDigit = true) :
    Nat.toDigits 10 (Nat.ofDigitChars 10 digits 0) = dropLeadingZeros digits := by
  fun_induction dropLeadingZeros digits with
  | case1 c digits ih =>
    -- a zero in front of other digits adds nothing
    rw [Nat.ofDigitChars_cons, Nat.mul_zero, Nat.sub_self, Nat.add_zero]
    exact ih (List.cons_ne_nil _ _) fun d hd => h d (List.mem_cons_of_mem _ hd)
  | case2 digits hcanonical =>
    cases digits with
    | nil => exact absurd rfl hne
    | cons c digits =>
      obtain ⟨hlt, hdigit⟩ := digitChar_of_isDigit (h c List.mem_cons_self)
      rw [Nat.ofDigitChars_cons, Nat.mul_zero, Nat.zero_add]
      by_cases hpos : 0 < c.toNat - '0'.toNat
      case pos =>
        rw [toDigits_ofDigitChars (fun d hd => h d (List.mem_cons_of_mem _ hd)) hpos, Nat.toDigits_of_lt_base hlt,
          hdigit]
        rfl
      case neg =>
        -- the only digit is a zero
        have hzero : c = '0' := by
          rw [← hdigit, Nat.eq_zero_of_not_pos hpos]
          rfl
        cases digits with
        | nil => rw [hzero]; rfl
        | cons d digits => exact (hcanonical d digits (hzero ▸ rfl)).elim

/-- **WHAT WAS READ IS WRITTEN** without the leading zeros of the text it was read from. -/
theorem toList_text_of_read? {digits : List Char} {n : UInt64} (h : read? digits = some n) :
    (text n.toNat).toList = dropLeadingZeros digits := by
  rw [read?] at h
  split at h
  case isFalse => exact nomatch h
  case isTrue hread =>
    obtain ⟨hne, hdigits, hlt⟩ := hread
    rw [← Option.some.inj h, UInt64.toNat_ofNat_of_lt' hlt, toList_text]
    exact toDigits_value hne fun c hc => List.all_eq_true.1 hdigits c hc

/-- There is no dot in the text of a number. -/
theorem dot_not_mem_text (n : Nat) : '.' ∉ (text n).toList := by
  intro h
  exact absurd (isDigit_of_mem_text h) (by decide)

end Decimal

namespace Base36

/-! ## Digits -/

/-- A digit is read back from its character. -/
theorem digitValue?_digit : ∀ {d : Nat}, d < 36 → digitValue? (digit d) = some d := by
  decide

/-- No digit is a dot. -/
theorem digit_ne_dot : ∀ {d : Nat}, d < 36 → digit d ≠ '.' := by
  decide

/-- Digits are read back from their characters, one by one. -/
theorem mapM_digitValue? {ds : List Nat} (h : ∀ d ∈ ds, d < 36) :
    (ds.map digit).mapM digitValue? = some ds := by
  induction ds with
  | nil => rfl
  | cons d ds ih =>
    rw [List.map_cons, List.mapM_cons, digitValue?_digit (h d List.mem_cons_self),
      ih fun e he => h e (List.mem_cons_of_mem _ he)]
    rfl

/-! ## Counting -/

/-- The digits of the number `n`, the last digit first, as counting up from 0 gives them. -/
def digitsAt : Nat → List Nat
  | 0 => [0]
  | n + 1 => increment (digitsAt n)

/-- The key that is handed out after `n` others. -/
def keyAt (n : Nat) : String :=
  String.ofList ((digitsAt n).reverse.map digit)

/-- There are digits after counting up. -/
theorem increment_ne_nil : ∀ ds : List Nat, increment ds ≠ []
  | [] => by simp [increment]
  | d :: ds => by
    rw [increment]
    split <;> simp

/-- Digits stay below 36 when they are counted up. -/
theorem increment_lt {ds : List Nat} (h : ∀ d ∈ ds, d < 36) : ∀ d ∈ increment ds, d < 36 := by
  induction ds with
  | nil => simp [increment]
  | cons d ds ih =>
    have hd := h d List.mem_cons_self
    have hds := fun e he => h e (List.mem_cons_of_mem d he)
    rw [increment]
    split
    · intro e he
      rcases List.mem_cons.1 he with rfl | he
      · omega
      · exact ih hds e he
    · intro e he
      rcases List.mem_cons.1 he with rfl | he
      · omega
      · exact hds e he

/-- Incrementing adds one to the number that the digits spell. -/
theorem ofDigits_increment (ds : List Nat) : Nat.ofDigits 36 (increment ds) = Nat.ofDigits 36 ds + 1 := by
  induction ds with
  | nil => rfl
  | cons d ds ih =>
    rw [increment]
    split
    case isTrue h =>
      -- the last digit becomes 0, and one is carried
      rw [Nat.ofDigits_cons, Nat.ofDigits_cons, ih]
      omega
    case isFalse =>
      rw [Nat.ofDigits_cons, Nat.ofDigits_cons]
      omega

/-- The digits of a number are below 36. -/
theorem digitsAt_lt : ∀ (n : Nat), ∀ d ∈ digitsAt n, d < 36
  | 0 => by simp [digitsAt]
  | n + 1 => increment_lt (digitsAt_lt n)

/-- Every number has a digit. -/
theorem digitsAt_ne_nil : ∀ n : Nat, digitsAt n ≠ []
  | 0 => by simp [digitsAt]
  | n + 1 => increment_ne_nil (digitsAt n)

/-- A number is what its digits add up to. -/
theorem ofDigits_digitsAt : ∀ n : Nat, Nat.ofDigits 36 (digitsAt n) = n
  | 0 => rfl
  | n + 1 => by rw [digitsAt, ofDigits_increment, ofDigits_digitsAt n]

/-- The digits of a number are read back from its key. -/
theorem mapM_keyAt (n : Nat) : (keyAt n).toList.mapM digitValue? = some (digitsAt n).reverse := by
  rw [keyAt, String.toList_ofList]
  exact mapM_digitValue? fun d hd => digitsAt_lt n d (List.mem_reverse.1 hd)

/-- No key is empty. -/
theorem toList_keyAt_ne_nil (n : Nat) : (keyAt n).toList ≠ [] := by
  rw [keyAt, String.toList_ofList]
  simp [digitsAt_ne_nil n]

/-- A counter of keys goes through the keys in order. -/
theorem next?_keyAt (n : Nat) : next? (keyAt n) = some (keyAt (n + 1)) := by
  rw [next?, if_neg (toList_keyAt_ne_nil n), mapM_keyAt, Option.map_some, List.reverse_reverse]
  rfl

/-- **NO KEY COMES TWICE.** -/
theorem keyAt_injective {m n : Nat} (h : keyAt m = keyAt n) : m = n := by
  have hdigits : some (digitsAt m).reverse = some (digitsAt n).reverse := by
    rw [← mapM_keyAt, h, mapM_keyAt]
  have heq : digitsAt m = digitsAt n := List.reverse_inj.1 (Option.some.inj hdigits)
  rw [← ofDigits_digitsAt m, heq, ofDigits_digitsAt]

/-- There is no dot in a key. -/
theorem dot_not_mem_keyAt (n : Nat) : '.' ∉ (keyAt n).toList := by
  intro h
  rw [keyAt, String.toList_ofList] at h
  obtain ⟨d, hd, hdot⟩ := List.mem_map.1 h
  exact digit_ne_dot (digitsAt_lt n d (List.mem_reverse.1 hd)) hdot

end Base36

end VersionedTree

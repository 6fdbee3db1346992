import VersionedTree.Json.Printer
import VersionedTree.Json.Reader
import VersionedTree.Proofs.Text.Numerals

/-!
# JSON — a printed record is read back

What the printer writes is in the grammar of the reader, whatever the texts in it are: an escaped character is read as
pieces that stand for its bytes again, and a numeral as its number.

* **`readPieces_quoted`** and **`text?_pieces`** — a text in quotes is read back.
* **`readNumber_repr`** — an integer is read back.
* **`ofText?_compact`** — a record on one line is read back, if the values of its members are.
-/

namespace VersionedTree

/-- The bytes of two texts are those of one after those of the other. -/
theorem Text.toBytes_append (s t : String) : toBytes (s ++ t) = toBytes s ++ toBytes t := by
  simp [toBytes]

namespace Json

/-! ## Strings -/

/-- The pieces that an escaped character is read as. -/
def pieces (c : Char) : List Piece :=
  if c ∈ ['\n', '\r', '\t', '\x08', '\x0c'] ∨ ' ' ≤ c then
    (String.utf8EncodeChar c).map .byte
  else
    [.unit c.toNat]

/-- Bytes that were read as they are come out as they are. -/
theorem bytes?_bytes (data : Bytes) (more : List Piece) :
    bytes? (data.map .byte ++ more) = (bytes? more).map (data ++ ·) := by
  induction data with
  | nil => simp
  | cons b data ih =>
    rw [List.map_cons, List.cons_append, bytes?, ih, Option.map_map]
    rfl

/-- A unit that is no half of a pair stands for itself, whatever follows. -/
theorem bytes?_unit {n : Nat} (h : n < 0xD800) (more : List Piece) :
    bytes? (.unit n :: more) = (bytes? more).map (codePoint n ++ ·) := by
  have hhigh : ¬ (0xD800 ≤ n ∧ n < 0xDC00) := by omega
  have hlow : ¬ (0xDC00 ≤ n ∧ n < 0xE000) := by omega
  have hpair : ¬ (0xD800 ≤ n ∧ n < 0xE000) := by omega
  cases more with
  | nil => simp only [bytes?, if_neg hpair]
  | cons piece more =>
    cases piece with
    | byte b => simp only [bytes?, if_neg hpair]
    | unit m => simp only [bytes?, if_neg hhigh, if_neg hlow]

/-- The bytes of a code point are those of its character. -/
theorem codePoint_toNat (c : Char) : codePoint c.toNat = String.utf8EncodeChar c := by
  rw [codePoint, Char.ofNat_toNat, String.singleton_eq_ofList, Text.toBytes_ofList]
  simp

/-- The pieces of a character come out as its bytes. -/
theorem bytes?_pieces (c : Char) (more : List Piece) :
    bytes? (pieces c ++ more) = (bytes? more).map (String.utf8EncodeChar c ++ ·) := by
  rw [pieces]
  split
  case isTrue => exact bytes?_bytes _ more
  case isFalse h =>
    have hlt : c < ' ' := Char.not_le.1 fun hle => h (.inr hle)
    have hlt' : c.toNat < 32 := hlt
    rw [List.singleton_append, bytes?_unit (by omega), codePoint_toNat]

/-- **A TEXT IS DECODED** from the pieces of its characters. -/
theorem text?_pieces (s : String) : text? (s.toList.flatMap pieces) = some s := by
  have hbytes : ∀ cs : List Char, bytes? (cs.flatMap pieces) = some (cs.flatMap String.utf8EncodeChar) := by
    intro cs
    induction cs with
    | nil => rfl
    | cons c cs ih => rw [List.flatMap_cons, bytes?_pieces, ih, Option.map_some, List.flatMap_cons]
  rw [text?, hbytes, Option.bind_some, ← Text.toBytes_ofList, String.ofList_toList, Text.ofBytes?_toBytes]

/-- True of bytes that stand for themselves between quotes. -/
def Plain (b : UInt8) : Prop :=
  32 ≤ b ∧ b ≠ 34 ∧ b ≠ 92

/-- Plain bytes are read as they are, whatever follows. -/
theorem readPieces_plain {data : Bytes} (h : ∀ b ∈ data, Plain b) (rest : Bytes) :
    readPieces (data ++ rest) = (readPieces rest).map fun r => (data.map .byte ++ r.1, r.2) := by
  induction data with
  | nil => simp
  | cons b data ih =>
    obtain ⟨⟨hspace, hquote, hslash⟩, hdata⟩ := List.forall_mem_cons.1 h
    have hctl : ¬ (b < 32 ∨ b = 92) := by
      rintro (hlt | heq)
      · exact absurd hspace (UInt8.not_le.2 hlt)
      · exact hslash heq
    rw [List.cons_append, readPieces, if_neg hctl, ih hdata]
    · cases readPieces rest <;> rfl
    · exact hquote
    · rintro _ _ _ _ _ rfl
      exact absurd rfl hslash
    · rintro _ _ rfl
      exact absurd rfl hslash

/-- The bytes of a character that is not escaped. -/
theorem plain_of_mem {c : Char} (hspace : ' ' ≤ c) (hquote : c ≠ '"') (hslash : c ≠ '\\') {b : UInt8}
    (h : b ∈ String.utf8EncodeChar c) : Plain b := by
  -- one byte for a character of ASCII, and bytes from 128 on for the others
  have hcases : b = UInt8.ofNat c.toNat ∧ c.toNat ≤ 0x7f ∨ 0x80 ≤ b.toNat := by
    rw [String.utf8EncodeChar] at h
    split at h
    case isTrue hle => exact .inl ⟨List.mem_singleton.1 h, hle⟩
    case isFalse =>
      right
      repeat' split at h
      all_goals
        simp only [List.mem_cons, List.not_mem_nil, or_false] at h
        rcases h with rfl | rfl | rfl | rfl <;> rw [UInt8.toNat_ofNat'] <;> omega
  rcases hcases with ⟨rfl, hle⟩ | hge
  · have hmod : (UInt8.ofNat c.toNat).toNat = c.toNat := by
      rw [UInt8.toNat_ofNat']
      omega
    have hne : ∀ d : Char, d.toNat < 256 → c ≠ d → UInt8.ofNat c.toNat ≠ UInt8.ofNat d.toNat := by
      intro d hd hcd heq
      have htoNat := congrArg UInt8.toNat heq
      rw [hmod, UInt8.toNat_ofNat', Nat.mod_eq_of_lt hd] at htoNat
      exact hcd (Char.toNat_inj.1 htoNat)
    refine ⟨?_, hne '"' (by decide) hquote, hne '\\' (by decide) hslash⟩
    rw [UInt8.le_iff_toNat_le, hmod]
    exact hspace
  · refine ⟨?_, ?_, ?_⟩
    · rw [UInt8.le_iff_toNat_le]
      exact Nat.le_trans (by decide) hge
    · rintro rfl
      exact absurd hge (by decide)
    · rintro rfl
      exact absurd hge (by decide)

/-- A control character is escaped by the number of its unit. -/
theorem readPieces_control {n : Nat} (h : n < 32) (rest : Bytes) :
    readPieces ((['\\', 'u', '0', '0'] ++ (Hex.text [n.toUInt8]).toList).flatMap String.utf8EncodeChar ++ rest) =
      (readPieces rest).map fun r => (.unit n :: r.1, r.2) := by
  have hdigits : ∀ m < 32, (Hex.text [m.toUInt8]).toList.flatMap String.utf8EncodeChar =
        [UInt8.ofNat (Hex.digit (m / 16)).toNat, UInt8.ofNat (Hex.digit (m % 16)).toNat] ∧
      hexValue? (UInt8.ofNat (Hex.digit (m / 16)).toNat) = some (m / 16) ∧
      hexValue? (UInt8.ofNat (Hex.digit (m % 16)).toNat) = some (m % 16) := by
    decide
  obtain ⟨htext, hhigh, hlow⟩ := hdigits n h
  rw [List.flatMap_append, htext]
  show readPieces (92 :: 117 :: 48 :: 48 :: _ :: _ :: rest) = _
  have hzero : hexValue? 48 = some 0 := by decide
  have hvalue : n / 16 * 16 + n % 16 = n := Nat.div_add_mod' n 16
  simp only [readPieces, hzero, hhigh, hlow, Option.bind_eq_bind, Option.bind_some, Nat.zero_mul, Nat.zero_add, hvalue]
  cases readPieces rest <;> rfl

/-- An escaped character is read as its pieces, whatever follows. -/
theorem readPieces_escape (c : Char) (rest : Bytes) :
    readPieces ((escape c).flatMap String.utf8EncodeChar ++ rest) =
      (readPieces rest).map fun r => (pieces c ++ r.1, r.2) := by
  -- a short escape stands for one byte, and its letter is not the one of a code point
  have hshort : ∀ {letter byte : UInt8}, letter ≠ 117 → shortEscape? letter = some byte →
      readPieces (92 :: letter :: rest) = (readPieces rest).map fun r => (.byte byte :: r.1, r.2) := by
    intro letter byte hletter hbyte
    rw [readPieces]
    · rw [hbyte]
      cases readPieces rest <;> rfl
    · rintro _ _ _ _ _ rfl
      exact absurd rfl hletter
  by_cases hmem : c ∈ ['"', '\\', '\n', '\r', '\t', '\x08', '\x0c']
  case pos =>
    simp only [List.mem_cons, List.not_mem_nil, or_false] at hmem
    rcases hmem with rfl | rfl | rfl | rfl | rfl | rfl | rfl
    all_goals exact hshort (by decide) (by decide)
  case neg =>
    simp only [List.mem_cons, List.not_mem_nil, or_false, not_or] at hmem
    obtain ⟨hquote, hslash, hn, hr, ht, hb, hf⟩ := hmem
    rw [escape, if_neg hquote, if_neg hslash, if_neg hn, if_neg hr, if_neg ht, if_neg hb, if_neg hf, pieces]
    by_cases hspace : ' ' ≤ c
    case pos =>
      rw [if_neg (Char.not_lt.2 hspace), if_pos (.inr hspace)]
      simpa using readPieces_plain (fun b => plain_of_mem hspace hquote hslash) rest
    case neg =>
      have hlt : c < ' ' := Char.not_le.1 hspace
      rw [if_pos hlt, if_neg (by simp [hn, hr, ht, hb, hf, hspace])]
      exact readPieces_control hlt rest

/-- **A TEXT IN QUOTES IS READ** up to its closing quote. -/
theorem readPieces_quoted (s : String) (rest : Bytes) :
    readPieces ((s.toList.flatMap escape).flatMap String.utf8EncodeChar ++ 34 :: rest) =
      some (s.toList.flatMap pieces, rest) := by
  induction s.toList with
  | nil => rfl
  | cons c cs ih =>
    rw [List.flatMap_cons, List.flatMap_append, List.append_assoc, readPieces_escape, ih, List.flatMap_cons]
    rfl

/-- The bytes of a quoted text are those of its escapes between two quotes. -/
theorem toBytes_quoted (s : String) :
    Text.toBytes (quoted s) = 34 :: ((s.toList.flatMap escape).flatMap String.utf8EncodeChar ++ [34]) := by
  rw [quoted, Text.toBytes_ofList, List.flatMap_cons, List.flatMap_append]
  rfl

/-! ## Integers -/

/-- The bytes of a numeral. -/
theorem toBytes_repr (n : Nat) : Text.toBytes n.repr = (Nat.toDigits 10 n).map fun c => UInt8.ofNat c.toNat := by
  rw [← String.ofList_toList (s := n.repr), Nat.toList_repr]
  exact Text.toBytes_ofList_of_digits fun c hc => Nat.isDigit_of_mem_toDigits (by decide) (by decide) hc

/-- The byte of a digit has its code, which is one of ten. -/
theorem toNat_of_isDigit {c : Char} (h : c.isDigit = true) :
    (UInt8.ofNat c.toNat).toNat = c.toNat ∧ 48 ≤ c.toNat ∧ c.toNat ≤ 57 := by
  have hbounds : 48 ≤ c.toNat ∧ c.toNat ≤ 57 := Char.isDigit_iff_toNat.1 h
  refine ⟨?_, hbounds⟩
  rw [UInt8.toNat_ofNat']
  omega

/-- The text of a number has digits only. -/
theorem isDigit_of_mem_toBytes {n : Nat} {b : UInt8} (h : b ∈ Text.toBytes n.repr) : Decimal.isDigit b = true := by
  rw [toBytes_repr] at h
  obtain ⟨c, hc, rfl⟩ := List.mem_map.1 h
  obtain ⟨hvalue, hlow, hhigh⟩ := toNat_of_isDigit (Nat.isDigit_of_mem_toDigits (by decide) (by decide) hc)
  simp only [Decimal.isDigit, Bool.and_eq_true, decide_eq_true_eq, UInt8.le_iff_toNat_le, hvalue]
  exact ⟨hlow, hhigh⟩

/-- A numeral has a first digit. -/
theorem exists_first_digit (n : Nat) : ∃ b data, Text.toBytes n.repr = b :: data ∧ Decimal.isDigit b = true := by
  cases hbytes : Text.toBytes n.repr with
  | nil =>
    rw [toBytes_repr] at hbytes
    exact absurd (List.map_eq_nil_iff.1 hbytes) Nat.toDigits_ne_nil
  | cons b data => exact ⟨b, data, rfl, isDigit_of_mem_toBytes (hbytes ▸ List.mem_cons_self)⟩

/-- Reading digits from the left adds up to the number that the library makes of them. -/
theorem foldl_digits {digits : List Char} (h : ∀ c ∈ digits, c.isDigit = true) (n : Nat) :
    (digits.map fun c => UInt8.ofNat c.toNat).foldl (fun n c => 10 * n + (c.toNat - 48)) n =
      Nat.ofDigitChars 10 digits n := by
  induction digits generalizing n with
  | nil => rfl
  | cons c digits ih =>
    obtain ⟨hc, hdigits⟩ := List.forall_mem_cons.1 h
    rw [List.map_cons, List.foldl_cons, ih hdigits, Nat.ofDigitChars_cons, (toNat_of_isDigit hc).1]
    rfl

/-- A numeral is read up to what follows it. -/
theorem readDigits_repr (n : Nat) {c : UInt8} (hc : Decimal.isDigit c = false) (rest : Bytes) :
    readDigits (Text.toBytes n.repr ++ c :: rest) = some (n, c :: rest) := by
  have hdigits : ∀ b ∈ Text.toBytes n.repr, Decimal.isDigit b = true := fun b => isDigit_of_mem_toBytes
  have hne : Text.toBytes n.repr ≠ [] := by
    obtain ⟨b, data, hbytes, -⟩ := exists_first_digit n
    rw [hbytes]
    exact List.cons_ne_nil b data
  have hvalue : (Text.toBytes n.repr).foldl (fun n c => 10 * n + (c.toNat - 48)) 0 = n := by
    rw [toBytes_repr, foldl_digits fun c hc => Nat.isDigit_of_mem_toDigits (by decide) (by decide) hc]
    exact Nat.ofDigitChars_ten_toDigits
  rw [readDigits, List.takeWhile_append_of_pos hdigits, List.dropWhile_append_of_pos hdigits,
    List.takeWhile_cons_of_neg (by simp [hc]), List.dropWhile_cons_of_neg (by simp [hc]), List.append_nil]
  split
  case h_1 hnil => exact absurd hnil hne
  case h_2 => rw [hvalue]

/-- Without leading zeros there are no more digits than with them. -/
theorem length_dropLeadingZeros_le (digits : List Char) : (Decimal.dropLeadingZeros digits).length ≤ digits.length := by
  fun_induction Decimal.dropLeadingZeros digits with
  | case1 c digits ih => exact Nat.le_trans ih (Nat.le_succ _)
  | case2 => exact Nat.le_refl _

/-- No numeral has a zero in front of other digits. -/
theorem toDigits_ne_zero_cons (n : Nat) (c : Char) (digits : List Char) : Nat.toDigits 10 n ≠ '0' :: c :: digits := by
  intro heq
  have hdigits : ∀ d ∈ '0' :: c :: digits, d.isDigit = true := by
    intro d hd
    rw [← heq] at hd
    exact Nat.isDigit_of_mem_toDigits (by decide) (by decide) hd
  have hvalue := Decimal.toDigits_value (List.cons_ne_nil _ _) hdigits
  have hlength := length_dropLeadingZeros_le (c :: digits)
  rw [← heq, Nat.ofDigitChars_ten_toDigits, heq, Decimal.dropLeadingZeros] at hvalue
  rw [← hvalue] at hlength
  exact absurd hlength (Nat.not_succ_le_self _)

/-- A number is read back from its text, if no digit follows. -/
theorem readWhole_repr (n : Nat) {c : UInt8} (hc : Decimal.isDigit c = false) (rest : Bytes) :
    readWhole (Text.toBytes n.repr ++ c :: rest) = some (n, c :: rest) := by
  have hread := readDigits_repr n hc rest
  cases hdigits : Nat.toDigits 10 n with
  | nil => exact absurd hdigits Nat.toDigits_ne_nil
  | cons d digits =>
    have hd : d.isDigit = true := by
      refine Nat.isDigit_of_mem_toDigits (n := n) (b := 10) (by decide) (by decide) ?_
      rw [hdigits]
      exact List.mem_cons_self
    rw [toBytes_repr, hdigits] at hread ⊢
    -- a leading zero stands alone
    by_cases hzero : d = '0'
    case pos =>
      subst hzero
      cases digits with
      | nil =>
        have hn : 0 = n := by
          have hvalue := Nat.ofDigitChars_ten_toDigits (n := n)
          rw [hdigits] at hvalue
          exact hvalue
        show readWhole (48 :: c :: rest) = _
        rw [readWhole, hc, ← hn]
        rfl
      | cons e digits => exact absurd hdigits (toDigits_ne_zero_cons n e digits)
    case neg =>
      have hne : UInt8.ofNat d.toNat ≠ 48 := by
        intro heq
        have hvalue := congrArg UInt8.toNat heq
        rw [(toNat_of_isDigit hd).1] at hvalue
        exact hzero (Char.toNat_inj.1 hvalue)
      rw [List.map_cons, List.cons_append] at hread ⊢
      rw [readWhole, hread]
      rintro _ _ heq
      exact absurd (List.cons.inj heq).1 hne

/-- **AN INTEGER IS READ BACK** from its numeral, before what may follow in a record. -/
theorem readNumber_repr (i : Int) {c : UInt8} (hc : c = 44 ∨ c = 125) (rest : Bytes) :
    readNumber (Text.toBytes i.repr ++ c :: rest) = some (.integer i, c :: rest) := by
  have hdigit : Decimal.isDigit c = false := by
    rcases hc with rfl | rfl <;> rfl
  have hfraction : skipFraction (c :: rest) = some (false, c :: rest) := by
    rcases hc with rfl | rfl <;> rfl
  have hexponent : skipExponent (c :: rest) = some (false, c :: rest) := by
    rcases hc with rfl | rfl <;> rfl
  rw [Int.repr_eq_if]
  split
  case isTrue hpos =>
    have hwhole := readWhole_repr i.toNat hdigit rest
    obtain ⟨b, digits, hbytes, hb⟩ := exists_first_digit i.toNat
    have hunsigned : ∀ more, b :: digits ++ c :: rest ≠ 45 :: more := by
      intro more heq
      obtain ⟨rfl, -⟩ := List.cons.inj heq
      cases hb
    rw [hbytes] at hwhole ⊢
    have hvalue : (i.toNat : Int) = i := by omega
    rw [readNumber]
    · simp only [hwhole, hfraction, hexponent, Option.bind_eq_bind, Option.bind_some, hvalue, Bool.or_false,
        Bool.false_and, Bool.false_eq_true, if_false]
      rfl
    · exact hunsigned
  case isFalse hneg =>
    have hwhole := readWhole_repr (-i).toNat hdigit rest
    rw [Text.toBytes_append]
    show readNumber (45 :: (Text.toBytes (-i).toNat.repr ++ c :: rest)) = _
    have hne : ((-i).toNat == 0) = false := by
      rw [beq_eq_false_iff_ne]
      omega
    have hvalue : -((-i).toNat : Int) = i := by omega
    simp only [readNumber, hwhole, hfraction, hexponent, hne, Option.bind_eq_bind, Option.bind_some, hvalue, Bool.or_false,
      Bool.and_false, Bool.false_eq_true, if_false, if_true]
    rfl

/-! ## Records -/

/-- The text is a form of the value: it is read as the value, before what may follow a member of a record. -/
def FormOf (text : String) (value : Value) : Prop :=
  ∀ (fuel : Nat) {c : UInt8}, c = 44 ∨ c = 125 → ∀ rest,
    readValue (fuel + 1) (Text.toBytes text ++ c :: rest) = some (value, c :: rest)

/-- What does not start with white space is not skipped. -/
theorem skipWhite_cons {c : UInt8} (h : isWhite c = false) (rest : Bytes) : skipWhite (c :: rest) = c :: rest :=
  List.dropWhile_cons_of_neg (by simp [h])

/-- A quoted text has the form of a string. -/
theorem formOf_quoted (s : String) : FormOf (quoted s) (.string (s.toList.flatMap pieces)) := by
  intro fuel c _ rest
  rw [toBytes_quoted, List.cons_append, List.append_assoc, List.singleton_append]
  unfold readValue
  rw [skipWhite_cons (by decide)]
  show (readPieces _).map _ = _
  rw [readPieces_quoted]
  rfl

/-- Neither a digit nor a sign begins another kind of value. -/
theorem readValue_number {b : UInt8} (hb : Decimal.isDigit b = true ∨ b = 45) (fuel : Nat) (rest : Bytes) :
    readValue (fuel + 1) (b :: rest) = readNumber (b :: rest) := by
  have hbounds : b.toNat = 45 ∨ 48 ≤ b.toNat ∧ b.toNat ≤ 57 := by
    rcases hb with hb | rfl
    · simp only [Decimal.isDigit, Bool.and_eq_true, decide_eq_true_eq, UInt8.le_iff_toNat_le] at hb
      exact .inr hb
    · exact .inl rfl
  have hne : ∀ c : UInt8, c.toNat ≠ 45 ∧ (c.toNat < 48 ∨ 57 < c.toNat) → b ≠ c := by
    rintro _ hc rfl
    omega
  have hwhite : isWhite b = false := by
    simp only [isWhite, Bool.or_eq_false_iff, beq_eq_false_iff_ne]
    exact ⟨⟨⟨hne 32 (by decide), hne 10 (by decide)⟩, hne 9 (by decide)⟩, hne 13 (by decide)⟩
  unfold readValue
  rw [skipWhite_cons hwhite]
  dsimp only
  rw [if_neg (hne 110 (by decide)), if_neg (hne 116 (by decide)), if_neg (hne 102 (by decide)),
    if_neg (hne 34 (by decide)), if_neg (hne 91 (by decide)), if_neg (hne 123 (by decide))]

/-- The text of an integer has its form. -/
theorem formOf_repr (i : Int) : FormOf i.repr (.integer i) := by
  intro fuel c hc rest
  rw [← readNumber_repr i hc rest]
  have hfirst : ∃ b data, Text.toBytes i.repr = b :: data ∧ (Decimal.isDigit b = true ∨ b = 45) := by
    rw [Int.repr_eq_if]
    split
    case isTrue =>
      obtain ⟨b, data, hbytes, hb⟩ := exists_first_digit i.toNat
      exact ⟨b, data, hbytes, .inl hb⟩
    case isFalse =>
      rw [Text.toBytes_append]
      exact ⟨45, _, rfl, .inr rfl⟩
  obtain ⟨b, data, hbytes, hb⟩ := hfirst
  rw [hbytes]
  exact readValue_number hb fuel _

/-- The text of the members of a record, between the brackets. -/
def membersText (members : List (String × String)) : String :=
  ",".intercalate (members.map fun (name, value) => quoted name ++ ":" ++ value)

/-- The bytes of a member are its name in quotes, a colon, and its value. -/
theorem toBytes_member (name value : String) (rest : Bytes) :
    Text.toBytes (quoted name ++ ":" ++ value) ++ rest =
      34 :: ((name.toList.flatMap escape).flatMap String.utf8EncodeChar ++ 34 :: 58 :: (Text.toBytes value ++ rest)) := by
  rw [Text.toBytes_append, Text.toBytes_append, toBytes_quoted]
  simp only [List.cons_append, List.append_assoc, List.nil_append]
  rfl

/-- A member is read, and then the bracket or the members after the comma. -/
theorem readMembers_member (name : String) {text : String} {value : Value} (h : FormOf text value) (fuel : Nat) {c : UInt8}
    (hc : c = 44 ∨ c = 125) (rest : Bytes) :
    readMembers (fuel + 2) (Text.toBytes (quoted name ++ ":" ++ text) ++ c :: rest) =
      if c = 125 then
        some ([(name.toList.flatMap pieces, value)], rest)
      else
        (readMembers (fuel + 1) rest).map fun r => ((name.toList.flatMap pieces, value) :: r.1, r.2) := by
  rw [toBytes_member]
  conv => lhs; unfold readMembers
  rw [skipWhite_cons (by decide)]
  show (readPieces _ >>= _) = _
  rw [readPieces_quoted]
  show (readValue (fuel + 1) (Text.toBytes text ++ c :: rest) >>= _) = _
  rw [h fuel hc rest]
  rcases hc with rfl | rfl
  · show (readMembers (fuel + 1) rest >>= _) = _
    rw [if_neg (by decide)]
    cases readMembers (fuel + 1) rest <;> rfl
  · rfl

/-- Members are written one after the other, with commas between them. -/
theorem membersText_cons_cons (m m' : String × String) (members : List (String × String)) :
    membersText (m :: m' :: members) = quoted m.1 ++ ":" ++ m.2 ++ "," ++ membersText (m' :: members) := by
  simp only [membersText, List.map_cons, String.intercalate_cons_cons]

/-- The members are read up to the closing bracket, by induction on them. -/
theorem readMembers_text {members : List (String × String × Value)} (hne : members ≠ [])
    (h : ∀ m ∈ members, FormOf m.2.1 m.2.2) (fuel : Nat) (rest : Bytes) :
    readMembers (fuel + members.length + 1)
        (Text.toBytes (membersText (members.map fun m => (m.1, m.2.1))) ++ 125 :: rest) =
      some (members.map fun m => (m.1.toList.flatMap pieces, m.2.2), rest) := by
  induction members with
  | nil => exact absurd rfl hne
  | cons m members ih =>
    obtain ⟨hvalue, hmembers⟩ := List.forall_mem_cons.1 h
    -- a comma follows a member exactly if there is another one
    cases members with
    | nil =>
      rw [List.map_singleton, membersText, List.map_singleton, String.intercalate_singleton]
      exact (readMembers_member m.1 hvalue fuel (.inr rfl) rest).trans (if_pos rfl)
    | cons m' members =>
      have hrest := ih (List.cons_ne_nil _ _) hmembers
      rw [List.map_cons] at hrest
      rw [List.map_cons, List.map_cons, membersText_cons_cons, Text.toBytes_append, Text.toBytes_append, List.append_assoc,
        List.append_assoc]
      refine (readMembers_member m.1 hvalue (fuel + members.length + 1) (.inl rfl) _).trans ?_
      rw [if_neg (by decide)]
      exact congrArg (Option.map _) hrest

/-- There are no more members than bytes in their text. -/
theorem length_le_membersText (members : List (String × String)) :
    members.length ≤ (Text.toBytes (membersText members)).length := by
  induction members with
  | nil => exact Nat.zero_le _
  | cons m members ih =>
    have hquoted : 0 < (Text.toBytes (quoted m.1)).length := by
      rw [toBytes_quoted]
      exact Nat.succ_pos _
    cases members with
    | nil =>
      rw [membersText, List.map_singleton, String.intercalate_singleton, Text.toBytes_append, Text.toBytes_append,
        List.length_append, List.length_append, List.length_singleton]
      omega
    | cons m' members =>
      rw [membersText_cons_cons, Text.toBytes_append, Text.toBytes_append, Text.toBytes_append, Text.toBytes_append,
        List.length_append, List.length_append, List.length_append, List.length_append, List.length_cons]
      omega

/-- An object is read if its members are. -/
theorem readValue_object {fuel : Nat} {rest rest' : Bytes} {members : List (List Piece × Value)}
    (h : readMembers fuel (34 :: rest) = some (members, rest')) :
    readValue (fuel + 1) (123 :: 34 :: rest) = some (.object members, rest') := by
  unfold readValue
  rw [skipWhite_cons (by decide)]
  show (readMembers fuel (34 :: rest)).map _ = _
  rw [h]
  rfl

/-- **A RECORD ON ONE LINE IS READ BACK**, if the texts of its members are forms of their values. -/
theorem ofText?_compact {members : List (String × String × Value)} (hne : members ≠ [])
    (h : ∀ m ∈ members, FormOf m.2.1 m.2.2) :
    Value.ofText? (Text.toBytes (compact (members.map fun m => (m.1, m.2.1)))) =
      some (.object (members.map fun m => (m.1.toList.flatMap pieces, m.2.2))) := by
  have hlength := length_le_membersText (members.map fun m => (m.1, m.2.1))
  have htext : Text.toBytes (compact (members.map fun m => (m.1, m.2.1))) =
      123 :: (Text.toBytes (membersText (members.map fun m => (m.1, m.2.1))) ++ [125]) := by
    rw [compact, Text.toBytes_append, Text.toBytes_append]
    rfl
  have hfirst : ∃ rest, Text.toBytes (membersText (members.map fun m => (m.1, m.2.1))) ++ [125] = 34 :: rest := by
    obtain ⟨m, members, rfl⟩ := List.exists_cons_of_ne_nil hne
    cases members with
    | nil =>
      rw [List.map_singleton, membersText, List.map_singleton, String.intercalate_singleton, toBytes_member]
      exact ⟨_, rfl⟩
    | cons m' members =>
      rw [List.map_cons, List.map_cons, membersText_cons_cons, Text.toBytes_append, Text.toBytes_append, List.append_assoc,
        List.append_assoc, toBytes_member]
      exact ⟨_, rfl⟩
  obtain ⟨fuel, hfuel⟩ : ∃ fuel, 2 * (Text.toBytes (compact (members.map fun m => (m.1, m.2.1)))).length + 2 =
      fuel + members.length + 1 + 1 := by
    rw [List.length_map] at hlength
    rw [htext, List.length_cons, List.length_append, List.length_singleton]
    exact Nat.exists_eq_add_of_le' (by omega : members.length + 2 ≤ _)
  obtain ⟨rest, hrest⟩ := hfirst
  have hread := readMembers_text hne h fuel []
  rw [hrest] at hread
  rw [Value.ofText?, hfuel, htext, hrest, readValue_object hread]
  rfl

/-- A list is read back if each of its items is. -/
theorem mapM_map_eq_some {α β γ : Type} {f : β → Option γ} {g : α → β} {h : α → γ} {items : List α}
    (hf : ∀ item ∈ items, f (g item) = some (h item)) : (items.map g).mapM f = some (items.map h) := by
  induction items with
  | nil => rfl
  | cons item items ih =>
    have hrest := ih fun other hother => hf other (List.mem_cons_of_mem _ hother)
    rw [List.map_cons, List.mapM_cons, hf item List.mem_cons_self, hrest]
    rfl

/-- The fields of a record that was read back are looked up by the names that were printed. -/
theorem fields?_printed (names : List String) (members : List (String × String × Value)) :
    fields? names (.object (members.map fun m => (m.1.toList.flatMap pieces, m.2.2))) =
      names.mapM (member? (members.map fun m => (m.1, m.2.2))) := by
  rw [fields?, mapM_map_eq_some (h := fun m => (m.1, m.2.2))]
  · rfl
  · intro m _
    simp only [text?_pieces]
    rfl

end Json

end VersionedTree

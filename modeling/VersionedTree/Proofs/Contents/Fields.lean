import VersionedTree.Proofs.Contents.RoundTrip
import VersionedTree.Proofs.Record.Canonical

/-!
# Exact readers — which inputs a binary reader takes

A reader that reads back what its writer wrote may still take other inputs. An exact one does not: what it takes is what
the writer writes, whatever follows it, and where it takes nothing there is one field that is wrong, after a beginning
that is not.

* **`Field`** and **`Flaw`** — the fields that a record is made of, and what can be wrong with one. **`Flawed`** — it is,
  after a complete beginning.
* **`Exact`** — a reader takes what is written and nothing else, and it stops at flaws and at nothing else.
* **`Exact.bind`**, **`Exact.variants`**, **`Exact.many`** — one rule for each way to put readers together; the readers
  of numbers, data and text come in between.
-/

namespace VersionedTree

namespace Binary

/-! ## Fields and flaws -/

/-- A field of a binary record. -/
inductive Field where
  /-- A number of so many bytes. -/
  | number (width : Nat)
  /-- The number of one of two variants. -/
  | variant
  /-- Data of a length that was read before. -/
  | data (length : Nat)
  /-- Text of a length that was read before. -/
  | text (length : Nat)

/-- The number of bytes of a field. -/
def Field.length : Field → Nat
  | .number width => width
  | .variant => 4
  | .data length => length
  | .text length => length

/-- What can be wrong with a field. -/
inductive Flaw where
  /-- The input ends before the field does. -/
  | cutShort
  /-- There is no such variant. -/
  | unknownVariant
  /-- The data is not the UTF-8 form of any text. -/
  | notText

/-- The field is at the start of this input, and this is wrong with it. -/
inductive Field.Wrong : Field → Flaw → Bytes → Prop where
  | cutShort {field : Field} {input : Bytes} (h : input.length < field.length) : Wrong field .cutShort input
  | unknownVariant {n : Nat} {rest : Bytes} (hn : 2 ≤ n) (hlt : n < UInt32.size) :
      Wrong .variant .unknownVariant (Binary.number 4 n ++ rest)
  | notText {data rest : Bytes} (h : Text.ofBytes? data = none) : Wrong (.text data.length) .notText (data ++ rest)

/-- The input has complete fields at the start, and then one with this flaw. `Awaits` says which field comes after which
    beginning. -/
def Flawed (Awaits : Bytes → Field → Prop) (flaw : Flaw) (input : Bytes) : Prop :=
  ∃ start field rest, Awaits start field ∧ field.Wrong flaw rest ∧ input = start ++ rest

theorem Flawed.mono {A B : Bytes → Field → Prop} {flaw : Flaw} {input : Bytes} (h : Flawed A flaw input)
    (hAB : ∀ start field, A start field → B start field) : Flawed B flaw input := by
  obtain ⟨start, field, rest, hstart, hwrong, rfl⟩ := h
  exact ⟨start, field, rest, hAB start field hstart, hwrong, rfl⟩

/-- A flaw after something that is complete. -/
theorem Flawed.after {A B : Bytes → Field → Prop} {flaw : Flaw} {input : Bytes} (h : Flawed A flaw input) (data : Bytes)
    (hAB : ∀ start field, A start field → B (data ++ start) field) : Flawed B flaw (data ++ input) := by
  obtain ⟨start, field, rest, hstart, hwrong, rfl⟩ := h
  exact ⟨data ++ start, field, rest, hAB start field hstart, hwrong, (List.append_assoc ..).symm⟩

/-- A flaw of the first field. -/
theorem Flawed.first {A : Bytes → Field → Prop} {field : Field} {flaw : Flaw} {input : Bytes} (h : A [] field)
    (hwrong : field.Wrong flaw input) : Flawed A flaw input :=
  ⟨[], field, input, h, hwrong, rfl⟩

/-! ## Exact readers -/

/-- The reader takes values as they are written according to `Writes`, whatever follows, and nothing else. It takes
    nothing just where one of the fields that come according to `Awaits` is wrong. -/
structure Exact {α : Type} (m : Reader α) (Writes : α → Bytes → Prop) (Awaits : Bytes → Field → Prop) : Prop where
  some_iff : ∀ {input rest : Bytes} {x : α}, m input = some (x, rest) ↔ ∃ data, Writes x data ∧ input = data ++ rest
  none_iff : ∀ {input : Bytes}, m input = none ↔ ∃ flaw, Flawed Awaits flaw input

section Rules

variable {α β : Type} {m : Reader α} {f : α → Reader β} {input rest : Bytes}

/-- Two readers succeed one after the other just if each does on what is left for it. -/
theorem Reader.bind_eq_some_iff {y : β} :
    (m >>= f) input = some (y, rest) ↔ ∃ x mid, m input = some (x, mid) ∧ f x mid = some (y, rest) := by
  show (m input).bind (fun r => f r.1 r.2) = some (y, rest) ↔ _
  rw [Option.bind_eq_some_iff, Prod.exists]

/-- They fail just if the first does, or the second on what the first has left. -/
theorem Reader.bind_eq_none_iff :
    (m >>= f) input = none ↔ m input = none ∨ ∃ x mid, m input = some (x, mid) ∧ f x mid = none := by
  show (m input).bind (fun r => f r.1 r.2) = none ↔ _
  cases hm : m input with
  | none => simp
  | some r => simp [Prod.ext_iff]

variable {W : α → Bytes → Prop} {A : Bytes → Field → Prop} {W' : α → β → Bytes → Prop} {A' : α → Bytes → Field → Prop}

/-- What is written and what is awaited may be said in another way. -/
theorem Exact.congr (h : Exact m W A) {V : α → Bytes → Prop} {B : Bytes → Field → Prop}
    (hW : ∀ x data, W x data ↔ V x data) (hA : ∀ start field, A start field ↔ B start field) : Exact m V B where
  some_iff := by
    intro input rest x
    simp only [h.some_iff, hW]
  none_iff := by
    intro input
    simp only [h.none_iff, Flawed, hA]

theorem Exact.pure (x : α) : Exact (Pure.pure x : Reader α) (fun y data => y = x ∧ data = []) fun _ _ => False where
  some_iff := by
    intro input rest y
    show some (x, input) = some (y, rest) ↔ _
    simp [eq_comm]
  none_iff := by
    intro input
    show some (x, input) = none ↔ _
    simp [Flawed]

/-- One reader after another: what they take is written one after the other, and the flaw is with the first, or with the
    second after what the first has taken. -/
theorem Exact.bind (hm : Exact m W A) (hf : ∀ x, Exact (f x) (W' x) (A' x)) :
    Exact (m >>= f) (fun y data => ∃ x first second, W x first ∧ W' x y second ∧ data = first ++ second)
      (fun start field => A start field ∨ ∃ x first second, W x first ∧ A' x second field ∧ start = first ++ second) where
  some_iff := by
    intro input rest y
    simp only [Reader.bind_eq_some_iff, hm.some_iff, (hf _).some_iff]
    constructor
    · rintro ⟨x, _, ⟨first, hfirst, rfl⟩, second, hsecond, rfl⟩
      exact ⟨first ++ second, ⟨x, first, second, hfirst, hsecond, rfl⟩, (List.append_assoc ..).symm⟩
    · rintro ⟨_, ⟨x, first, second, hfirst, hsecond, rfl⟩, rfl⟩
      exact ⟨x, second ++ rest, ⟨first, hfirst, List.append_assoc ..⟩, second, hsecond, rfl⟩
  none_iff := by
    intro input
    simp only [Reader.bind_eq_none_iff, hm.none_iff, hm.some_iff, (hf _).none_iff]
    constructor
    · rintro (⟨flaw, hflaw⟩ | ⟨x, rest, ⟨first, hfirst, rfl⟩, flaw, hflaw⟩)
      · exact ⟨flaw, hflaw.mono fun _ _ => .inl⟩
      · exact ⟨flaw, hflaw.after first fun start _ hstart => .inr ⟨x, first, start, hfirst, hstart, rfl⟩⟩
    · rintro ⟨flaw, _, field, rest, hstart | ⟨x, first, second, hfirst, hsecond, rfl⟩, hwrong, rfl⟩
      · exact .inl ⟨flaw, _, field, rest, hstart, hwrong, rfl⟩
      · exact .inr ⟨x, second ++ rest, ⟨first, hfirst, List.append_assoc ..⟩, flaw, second, field, rest, hsecond, hwrong,
          rfl⟩

/-- A value may be changed after it was read. -/
theorem Exact.map {g : α → β} (hm : Exact m W A) :
    Exact (g <$> m) (fun y data => ∃ x, W x data ∧ y = g x) A := by
  refine (hm.bind fun x => Exact.pure (g x)).congr (fun y data => ?_) fun start field => ?_
  · simp only [and_assoc]
    constructor
    · rintro ⟨x, first, _, hfirst, rfl, rfl, rfl⟩
      exact ⟨x, (List.append_nil first).symm ▸ hfirst, rfl⟩
    · rintro ⟨x, hx, rfl⟩
      exact ⟨x, data, [], hx, rfl, rfl, (List.append_nil data).symm⟩
  · simp

end Rules

/-! ## The readers of fields -/

/-- This is the only field. -/
def Alone (field : Field) (start : Bytes) (next : Field) : Prop :=
  start = [] ∧ next = field

/-- A field alone is flawed if it is wrong. -/
theorem flawed_alone {field : Field} {flaw : Flaw} {input : Bytes} :
    Flawed (Alone field) flaw input ↔ field.Wrong flaw input := by
  constructor
  · rintro ⟨_, _, rest, ⟨rfl, rfl⟩, hwrong, rfl⟩
    exact hwrong
  · exact Flawed.first ⟨rfl, rfl⟩

/-- A number or data is only wrong if it is cut short. -/
theorem Field.wrong_iff {field : Field} {n : Nat} (hfield : field = .number n ∨ field = .data n) {input : Bytes} :
    (∃ flaw, field.Wrong flaw input) ↔ input.length < n := by
  constructor
  · rintro ⟨flaw, hwrong⟩
    rcases hfield with rfl | rfl
    all_goals
      cases hwrong with
      | cutShort h => exact h
  · intro h
    rcases hfield with rfl | rfl
    all_goals exact ⟨_, .cutShort h⟩

/-- A number is read just if its bytes come first. -/
theorem readNumber_eq_some_iff {width n : Nat} {input rest : Bytes} :
    readNumber width input = some (n, rest) ↔ n < 1 <<< (8 * width) ∧ input = number width n ++ rest := by
  constructor
  case mpr =>
    rintro ⟨hn, rfl⟩
    exact readNumber_number hn rest
  case mp =>
    intro h
    induction width generalizing n input with
    | zero =>
      cases h
      exact ⟨by decide, rfl⟩
    | succ width ih =>
      cases input with
      | nil => cases h
      | cons b input =>
        obtain ⟨⟨high, rest'⟩, hhigh, hn⟩ := Option.bind_eq_some_iff.1 h
        obtain ⟨rfl, rfl⟩ := Prod.mk.inj (Option.some.inj hn)
        obtain ⟨hlt, rfl⟩ := ih hhigh
        have hb := b.toNat_lt
        -- the lowest byte is the remainder by 256, and all others are the quotient
        have hlow : UInt8.ofNat (b.toNat + 256 * high) = b := by
          rw [← UInt8.toNat_inj, UInt8.toNat_ofNat', Nat.add_mul_mod_self_left, Nat.mod_eq_of_lt hb]
        have hdiv : (b.toNat + 256 * high) / 256 = high := by omega
        refine ⟨?_, ?_⟩
        · rw [Nat.one_shiftLeft] at hlt ⊢
          rw [Nat.mul_add_one, Nat.pow_add]
          omega
        · rw [number, hlow, hdiv, List.cons_append]

/-- No number is read just if there are too few bytes. -/
theorem readNumber_eq_none_iff {width : Nat} {input : Bytes} : readNumber width input = none ↔ input.length < width := by
  induction width generalizing input with
  | zero => exact ⟨fun h => absurd h (Option.some_ne_none _), fun h => absurd h (Nat.not_lt_zero _)⟩
  | succ width ih =>
    cases input with
    | nil => simp [readNumber]
    | cons b input =>
      rw [List.length_cons, Nat.add_lt_add_iff_right, ← ih]
      show (readNumber width input).bind (fun r => some (b.toNat + 256 * r.1, r.2)) = none ↔ _
      rw [Option.bind_eq_none_iff]
      simp [Option.eq_none_iff_forall_ne_some]

/-- Numbers are read exactly, if they fit into their width. -/
theorem Exact.number (width : Nat) :
    Exact (readNumber width) (fun n data => n < 1 <<< (8 * width) ∧ data = number width n) (Alone (.number width)) where
  some_iff := by
    intro input rest n
    simp only [readNumber_eq_some_iff, and_assoc, exists_and_left, exists_eq_left]
  none_iff := by
    intro input
    simp only [flawed_alone]
    rw [readNumber_eq_none_iff, Field.wrong_iff (.inl rfl)]

/-- Bytes of a known length are read exactly. -/
theorem Exact.bytes (length : Nat) :
    Exact (readBytes length) (fun found data => found.length = length ∧ data = found) (Alone (.data length)) where
  some_iff := by
    intro input rest found
    simp only [and_assoc, exists_and_left, exists_eq_left]
    constructor
    · intro h
      rw [readBytes] at h
      split at h
      case isTrue hle =>
        obtain ⟨rfl, rfl⟩ := Prod.mk.inj (Option.some.inj h)
        exact ⟨List.length_take_of_le hle, (List.take_append_drop ..).symm⟩
      case isFalse => cases h
    · rintro ⟨rfl, rfl⟩
      exact readBytes_append found rest
  none_iff := by
    intro input
    simp only [flawed_alone]
    rw [Field.wrong_iff (.inr rfl), readBytes]
    simp

/-- The fields of counted data: the length, and a field of this length. -/
inductive CountedAwaits (field : Nat → Field) : Bytes → Field → Prop where
  | length : CountedAwaits field [] (.number 8)
  | contents {length : Nat} (h : length < UInt64.size) : CountedAwaits field (number 8 length) (field length)

/-- Bytes with their length before them are read exactly. -/
theorem Exact.counted :
    Exact readCounted (fun found data => found.length < UInt64.size ∧ data = counted found) (CountedAwaits .data) := by
  refine ((Exact.number 8).bind Exact.bytes).congr (fun found data => ?_) fun start field => ?_
  · constructor
    · rintro ⟨_, _, _, ⟨hlt, rfl⟩, ⟨rfl, rfl⟩, rfl⟩
      exact ⟨hlt, rfl⟩
    · rintro ⟨hlt, rfl⟩
      exact ⟨found.length, _, found, ⟨hlt, rfl⟩, ⟨rfl, rfl⟩, rfl⟩
  · constructor
    · rintro (⟨rfl, rfl⟩ | ⟨length, _, _, ⟨hlt, rfl⟩, ⟨rfl, rfl⟩, rfl⟩)
      · exact .length
      · rw [List.append_nil]
        exact .contents hlt
    · intro h
      cases h with
      | length => exact .inl ⟨rfl, rfl⟩
      | contents h => exact .inr ⟨_, _, [], ⟨h, rfl⟩, ⟨rfl, rfl⟩, (List.append_nil _).symm⟩

/-- A text is bytes with their length before them that are a text. -/
theorem readText_eq (input : Bytes) : readText input =
    (readCounted input).bind fun r => (Text.ofBytes? r.1).map fun s => (s, r.2) := by
  show (readCounted input).bind (fun r => (Text.ofBytes? r.1).bind fun s => some (s, r.2)) = _
  simp only [Option.map_eq_bind, Function.comp_def]

/-- Text is cut short where data is, and data may also not be text. -/
theorem Exact.text :
    Exact readText (fun s data => (Text.toBytes s).length < UInt64.size ∧ data = Binary.counted (Text.toBytes s))
      (CountedAwaits .text) where
  some_iff := by
    intro input rest s
    simp only [readText_eq, Option.bind_eq_some_iff, Option.map_eq_some_iff, Prod.exists, Exact.counted.some_iff]
    constructor
    · rintro ⟨found, _, ⟨_, ⟨hlt, rfl⟩, rfl⟩, _, hs, hpair⟩
      obtain ⟨rfl, rfl⟩ := Prod.mk.inj hpair
      rw [← Text.toBytes_of_ofBytes? hs] at hlt ⊢
      exact ⟨_, ⟨hlt, rfl⟩, rfl⟩
    · rintro ⟨_, ⟨hlt, rfl⟩, rfl⟩
      exact ⟨Text.toBytes s, rest, ⟨_, ⟨hlt, rfl⟩, rfl⟩, s, Text.ofBytes?_toBytes s, rfl⟩
  none_iff := by
    intro input
    rw [readText_eq, Option.bind_eq_none_iff]
    constructor
    · intro h
      cases hfound : readCounted input with
      | none =>
        obtain ⟨_, start, field, rest, hstart, hwrong, rfl⟩ := Exact.counted.none_iff.1 hfound
        cases hstart with
        | length => exact ⟨_, Flawed.first .length hwrong⟩
        | contents hlt =>
          cases hwrong with
          | cutShort hshort => exact ⟨_, _, _, rest, .contents hlt, .cutShort hshort, rfl⟩
      | some r =>
        obtain ⟨found, rest⟩ := r
        obtain ⟨_, ⟨hlt, rfl⟩, rfl⟩ := Exact.counted.some_iff.1 hfound
        have hnone := Option.map_eq_none_iff.1 (h _ hfound)
        exact ⟨_, _, _, found ++ rest, .contents hlt, .notText hnone, List.append_assoc ..⟩
    · rintro ⟨flaw, start, field, rest, hstart, hwrong, rfl⟩ ⟨found, rest'⟩ hfound
      -- bytes that were read as a whole were not cut short, so only the text can be wrong
      have hcut : ∀ {field : Field}, CountedAwaits .data start field → ¬ field.Wrong .cutShort rest := by
        intro field hdata hcut
        cases hfound.symm.trans (Exact.counted.none_iff.2 ⟨_, start, field, rest, hdata, hcut, rfl⟩)
      cases hstart with
      | length =>
        cases hwrong with
        | cutShort hshort => exact absurd (.cutShort hshort) (hcut .length)
      | contents hlt =>
        cases hwrong with
        | cutShort hshort => exact absurd (.cutShort hshort) (hcut (.contents hlt))
        | @notText data rest hnone =>
          rw [← List.append_assoc] at hfound
          obtain ⟨rfl, rfl⟩ := Prod.mk.inj (Option.some.inj (hfound.symm.trans (readCounted_counted hlt rest)))
          rw [Option.map_eq_none_iff]
          exact hnone

/-! ## Variants and repetition -/

section Compounds

variable {α : Type}

/-- The fields of a value with two variants: the number of the variant, and then its own fields. -/
inductive VariantAwaits (A₀ A₁ : Bytes → Field → Prop) : Bytes → Field → Prop where
  | variant : VariantAwaits A₀ A₁ [] .variant
  | zero {start : Bytes} {field : Field} (h : A₀ start field) : VariantAwaits A₀ A₁ (number 4 0 ++ start) field
  | one {start : Bytes} {field : Field} (h : A₁ start field) : VariantAwaits A₀ A₁ (number 4 1 ++ start) field

/-- The number of a variant says how to go on, and other numbers are unknown. -/
theorem Exact.variants {f : Nat → Reader α} {W₀ W₁ : α → Bytes → Prop} {A₀ A₁ : Bytes → Field → Prop}
    (h₀ : Exact (f 0) W₀ A₀) (h₁ : Exact (f 1) W₁ A₁) (hf : ∀ n, f (n + 2) = failure) :
    Exact (readNumber 4 >>= f)
      (fun x data => (∃ fields, W₀ x fields ∧ data = Binary.number 4 0 ++ fields) ∨
        ∃ fields, W₁ x fields ∧ data = Binary.number 4 1 ++ fields)
      (VariantAwaits A₀ A₁) where
  some_iff := by
    intro input rest x
    simp only [Reader.bind_eq_some_iff, readNumber_eq_some_iff]
    constructor
    · rintro ⟨n, mid, ⟨-, rfl⟩, hx⟩
      -- the number says which of the two readers goes on; from 2 on there is none
      match n with
      | 0 =>
        obtain ⟨fields, hfields, rfl⟩ := h₀.some_iff.1 hx
        exact ⟨_, .inl ⟨fields, hfields, rfl⟩, (List.append_assoc ..).symm⟩
      | 1 =>
        obtain ⟨fields, hfields, rfl⟩ := h₁.some_iff.1 hx
        exact ⟨_, .inr ⟨fields, hfields, rfl⟩, (List.append_assoc ..).symm⟩
      | n + 2 =>
        rw [hf] at hx
        cases hx
    · rintro ⟨_, ⟨fields, hfields, rfl⟩ | ⟨fields, hfields, rfl⟩, rfl⟩
      · exact ⟨0, fields ++ rest, ⟨by decide, List.append_assoc ..⟩, h₀.some_iff.2 ⟨fields, hfields, rfl⟩⟩
      · exact ⟨1, fields ++ rest, ⟨by decide, List.append_assoc ..⟩, h₁.some_iff.2 ⟨fields, hfields, rfl⟩⟩
  none_iff := by
    intro input
    simp only [Reader.bind_eq_none_iff, readNumber_eq_none_iff, readNumber_eq_some_iff]
    constructor
    · rintro (hshort | ⟨n, rest, ⟨hn, rfl⟩, hnone⟩)
      · exact ⟨_, Flawed.first .variant (.cutShort hshort)⟩
      · match n with
        | 0 =>
          obtain ⟨flaw, hflaw⟩ := h₀.none_iff.1 hnone
          exact ⟨flaw, hflaw.after _ fun _ _ => .zero⟩
        | 1 =>
          obtain ⟨flaw, hflaw⟩ := h₁.none_iff.1 hnone
          exact ⟨flaw, hflaw.after _ fun _ _ => .one⟩
        | n + 2 => exact ⟨_, Flawed.first .variant (.unknownVariant (Nat.le_add_left 2 n) hn)⟩
    · rintro ⟨flaw, _, field, rest, hstart, hwrong, rfl⟩
      cases hstart with
      | variant =>
        cases hwrong with
        | cutShort hshort => exact .inl hshort
        | unknownVariant hn hlt =>
          obtain ⟨n, rfl⟩ := Nat.exists_eq_add_of_le' hn
          exact .inr ⟨n + 2, _, ⟨hlt, rfl⟩, by rw [hf]; rfl⟩
      | zero h =>
        exact .inr ⟨0, _, ⟨by decide, List.append_assoc ..⟩, h₀.none_iff.2 ⟨flaw, _, field, rest, h, hwrong, rfl⟩⟩
      | one h =>
        exact .inr ⟨1, _, ⟨by decide, List.append_assoc ..⟩, h₁.none_iff.2 ⟨flaw, _, field, rest, h, hwrong, rfl⟩⟩

/-- The fields of `n` values one after the other: those of the next one, after fewer than `n`. -/
inductive ManyAwaits (fits : α → Prop) (write : α → Bytes) (A : Bytes → Field → Prop) (n : Nat) : Bytes → Field → Prop where
  | next {done : List α} {start : Bytes} {field : Field} (hlt : done.length < n) (hfits : ∀ x ∈ done, fits x)
      (h : A start field) : ManyAwaits fits write A n (done.flatMap write ++ start) field

/-- A known number of things is read exactly if each of them is, by induction on the number. -/
theorem Exact.many {read : Reader α} {fits : α → Prop} {write : α → Bytes} {A : Bytes → Field → Prop}
    (h : Exact read (fun x data => fits x ∧ data = write x) A) (n : Nat) :
    Exact (readMany read n) (fun xs data => xs.length = n ∧ (∀ x ∈ xs, fits x) ∧ data = xs.flatMap write)
      (ManyAwaits fits write A n) := by
  induction n with
  | zero =>
    refine (Exact.pure []).congr (fun xs data => ?_) fun start field => ?_
    · rw [List.length_eq_zero_iff]
      constructor
      · rintro ⟨rfl, rfl⟩
        exact ⟨rfl, nofun, rfl⟩
      · rintro ⟨rfl, -, rfl⟩
        exact ⟨rfl, rfl⟩
    · refine ⟨False.elim, ?_⟩
      rintro ⟨hlt, -, -⟩
      exact absurd hlt (Nat.not_lt_zero _)
  | succ n ih =>
    refine (h.bind fun x => ih.bind fun xs => Exact.pure (x :: xs)).congr (fun xs data => ?_) fun start field => ?_
    · constructor
      · rintro ⟨x, _, _, ⟨hx, rfl⟩, ⟨xs, _, _, ⟨rfl, hxs, rfl⟩, ⟨rfl, rfl⟩, rfl⟩, rfl⟩
        exact ⟨rfl, List.forall_mem_cons.2 ⟨hx, hxs⟩, by rw [List.append_nil, List.flatMap_cons]⟩
      · rintro ⟨hlength, hxs, rfl⟩
        obtain ⟨x, xs, rfl⟩ := List.exists_cons_of_length_eq_add_one hlength
        obtain ⟨hx, hxs⟩ := List.forall_mem_cons.1 hxs
        exact ⟨x, _, _, ⟨hx, rfl⟩, ⟨xs, _, [], ⟨Nat.succ.inj hlength, hxs, rfl⟩, ⟨rfl, rfl⟩, rfl⟩,
          by rw [List.append_nil, List.flatMap_cons]⟩
    · constructor
      · rintro (hfirst | ⟨x, _, _, ⟨hx, rfl⟩, @⟨done, start, _, hlt, hdone, hnext⟩ | ⟨_, _, _, _, hnone, _⟩, rfl⟩)
        · show ManyAwaits fits write A (n + 1) (([] : List α).flatMap write ++ start) field
          exact .next (Nat.succ_pos n) (List.forall_mem_nil fits) hfirst
        · rw [← List.append_assoc, ← List.flatMap_cons]
          exact .next (Nat.succ_lt_succ hlt) (List.forall_mem_cons.2 ⟨hx, hdone⟩) hnext
        · exact hnone.elim
      · rintro @⟨done, start, _, hlt, hdone, hnext⟩
        -- either nothing was read before the flaw, or the first one was, and the flaw is in the rest
        cases done with
        | nil => exact .inl hnext
        | cons x done =>
          obtain ⟨hx, hdone⟩ := List.forall_mem_cons.1 hdone
          refine .inr ⟨x, _, _, ⟨hx, rfl⟩, .inl (.next (Nat.lt_of_succ_lt_succ hlt) hdone hnext), ?_⟩
          rw [List.flatMap_cons, List.append_assoc]

end Compounds

end Binary

end VersionedTree

import Mathlib.Data.List.GetD
import Mathlib.Data.List.Nodup
import Mathlib.Logic.Function.Iterate
import VersionedTree.Proofs.Text.Numerals
import VersionedTree.Proofs.Trail.Outcomes

/-!
# Counters — the numerals in base 36, one after the other

The key after a key is the numeral of the next number: a run of `z` at the end becomes zeros, and one is carried to the
digit before it, or put in front. A counter that starts at `0` goes through the numerals of all numbers in order, so it
never gives a key twice, whatever is done to other records in between.

* **`Base36.value_next?`** and **`Base36.next?_eq_none_iff`** — what the key after a key is, and when there is none.
* **`Base36.increment_digits`** — counting digits is counting. **`keyAt_eq_numeral`** — the keys are the numerals.
* **`Counter.Draws`** — what is drawn from a counter in the course of time. **`Draws.keys`** — what that is.
* **`Counter.counts`** — the theorem.
-/

namespace VersionedTree

namespace Base36

/-! ## Digits and values -/

/-- The digits in the order of their values. -/
def alphabet : List Char :=
  "0123456789abcdefghijklmnopqrstuvwxyz".toList

/-- The values of the digits of a key, the last digit first. -/
def digits (key : String) : List Nat :=
  (key.toList.map alphabet.idxOf).reverse

/-- The number that a key stands for. -/
def value (key : String) : Nat :=
  Nat.ofDigits 36 (digits key)

/-- The numeral of a number, without leading zeros. -/
def numeral (n : Nat) : String :=
  if n = 0 then "0" else String.ofList ((Nat.digits 36 n).reverse.map fun d => alphabet.getD d '0')

/-- There are 36 digits. -/
theorem lt_length_alphabet {d : Nat} : d < alphabet.length ↔ d < 36 :=
  Iff.rfl

/-- A digit is the character at its place in the alphabet. -/
theorem digit_eq_getElem : ∀ {d : Nat} (h : d < alphabet.length), digit d = alphabet[d] := by
  decide

/-- Digits are in the alphabet. -/
theorem digit_mem {d : Nat} (h : d < 36) : digit d ∈ alphabet := by
  have hlt := lt_length_alphabet.2 h
  rw [digit_eq_getElem hlt]
  exact List.getElem_mem hlt

/-- The place of a digit is its value. -/
theorem idxOf_digit {d : Nat} (h : d < 36) : alphabet.idxOf (digit d) = d := by
  have hlt := lt_length_alphabet.2 h
  have hnodup : alphabet.Nodup := by decide
  rw [digit_eq_getElem hlt, hnodup.idxOf_getElem]

/-- Every character of the alphabet has a value below 36. -/
theorem idxOf_lt {c : Char} (h : c ∈ alphabet) : alphabet.idxOf c < 36 :=
  lt_length_alphabet.1 (List.idxOf_lt_length_iff.2 h)

/-- A character of the alphabet is the digit of its place. -/
theorem digit_idxOf {c : Char} (h : c ∈ alphabet) : digit (alphabet.idxOf c) = c := by
  rw [digit_eq_getElem (List.idxOf_lt_length_iff.2 h), List.getElem_idxOf]

/-- What has a value is the digit with this value. -/
theorem eq_digit_of_digitValue? {c : Char} {d : Nat} (h : digitValue? c = some d) : d < 36 ∧ c = digit d := by
  rw [digitValue?] at h
  split at h
  case isTrue hdecimal =>
    have hlow : 48 ≤ c.toNat := hdecimal.1
    have hhigh : c.toNat ≤ 57 := hdecimal.2
    obtain rfl : c.toNat - 48 = d := Option.some.inj h
    refine ⟨by omega, ?_⟩
    rw [digit, if_pos (by omega), show '0'.toNat = 48 from rfl, Nat.add_sub_of_le hlow, Char.ofNat_toNat]
  case isFalse =>
    split at h
    case isTrue hletter =>
      have hlow : 97 ≤ c.toNat := hletter.1
      have hhigh : c.toNat ≤ 122 := hletter.2
      obtain rfl : c.toNat - 97 + 10 = d := Option.some.inj h
      refine ⟨by omega, ?_⟩
      rw [digit, if_neg (by omega), show 'a'.toNat = 97 from rfl, Nat.add_sub_cancel, Nat.add_sub_of_le hlow,
        Char.ofNat_toNat]
    case isFalse => cases h

/-- A character outside the alphabet has no value. -/
theorem digitValue?_of_not_mem {c : Char} (h : c ∉ alphabet) : digitValue? c = none := by
  cases hvalue : digitValue? c with
  | none => rfl
  | some d =>
    obtain ⟨hlt, rfl⟩ := eq_digit_of_digitValue? hvalue
    exact absurd (digit_mem hlt) h

/-- Characters of the alphabet have values, one by one. -/
theorem mapM_of_mem {cs : List Char} (h : ∀ c ∈ cs, c ∈ alphabet) :
    cs.mapM digitValue? = some (cs.map alphabet.idxOf) := by
  have hdigits : (cs.map alphabet.idxOf).map digit = cs := by
    rw [List.map_map]
    exact (List.map_congr_left fun c hc => digit_idxOf (h c hc)).trans (List.map_id cs)
  have hvalues := mapM_digitValue? (List.forall_mem_map.2 fun c hc => idxOf_lt (h c hc))
  rwa [hdigits] at hvalues

/-- One character outside the alphabet is enough for there to be no values. -/
theorem mapM_of_not_mem {cs : List Char} (h : ∃ c ∈ cs, c ∉ alphabet) : cs.mapM digitValue? = none := by
  obtain ⟨c, hc, hforeign⟩ := h
  obtain ⟨before, after, rfl⟩ := List.append_of_mem hc
  rw [List.mapM_append, List.mapM_cons, digitValue?_of_not_mem hforeign]
  cases before.mapM digitValue? <;> rfl

/-! ## The key after a key -/

/-- A run of the highest digit becomes zeros, with a one in front. -/
theorem increment_of_forall {ds : List Nat} (h : ∀ d ∈ ds, d = 35) :
    increment ds = List.replicate ds.length 0 ++ [1] := by
  induction ds with
  | nil => rfl
  | cons d ds ih =>
    rw [increment, h d List.mem_cons_self, if_pos rfl, ih fun e he => h e (List.mem_cons_of_mem _ he)]
    rfl

/-- Where a digit is not the highest, the carry stops at the last such digit. -/
theorem length_increment_of_exists {ds : List Nat} (h : ∃ d ∈ ds, d ≠ 35) : (increment ds).length = ds.length := by
  induction ds with
  | nil => simp at h
  | cons d ds ih =>
    rw [increment]
    split
    case isTrue hcarry =>
      -- the digit where the carry stops is further on
      have hrest : ∃ e ∈ ds, e ≠ 35 := by
        obtain ⟨e, he, hne⟩ := h
        rcases List.mem_cons.1 he with rfl | he
        · exact absurd (Nat.succ.inj hcarry) hne
        · exact ⟨e, he, hne⟩
      rw [List.length_cons, List.length_cons, ih hrest]
    case isFalse => rfl

/-- The digits of a key are below 36. -/
theorem digits_lt {key : String} (h : ∀ c ∈ key.toList, c ∈ alphabet) : ∀ d ∈ digits key, d < 36 := by
  intro d hd
  obtain ⟨c, hc, rfl⟩ := List.mem_map.1 (List.mem_reverse.1 hd)
  exact idxOf_lt (h c hc)

/-- Digits are read back from the key that is written of them. -/
theorem digits_ofList {ds : List Nat} (h : ∀ d ∈ ds, d < 36) : digits (String.ofList (ds.reverse.map digit)) = ds := by
  rw [digits, String.toList_ofList, ← List.map_reverse, ← List.map_reverse, List.reverse_reverse, List.map_map]
  exact (List.map_congr_left fun d hd => idxOf_digit (h d hd)).trans (List.map_id ds)

/-- A key has as many digits as characters. -/
theorem length_digits (key : String) : (digits key).length = key.length := by
  rw [digits, List.length_reverse, List.length_map, String.length_toList]

/-- There is a key after every key that is not empty and has digits only. -/
theorem next?_of_mem {key : String} (hne : key ≠ "") (h : ∀ c ∈ key.toList, c ∈ alphabet) :
    next? key = some (String.ofList ((increment (digits key)).reverse.map digit)) := by
  rw [next?, if_neg (String.toList_eq_nil_iff.not.2 hne), mapM_of_mem h, Option.map_some, digits]

/-- A key has no next one just if it is empty, or has a character that is no digit. -/
theorem next?_eq_none_iff {key : String} : next? key = none ↔ key = "" ∨ ∃ c ∈ key.toList, c ∉ alphabet := by
  constructor
  · intro h
    by_contra! hkey
    exact Option.some_ne_none _ ((next?_of_mem hkey.1 hkey.2).symm.trans h)
  · rintro (rfl | hforeign)
    · rfl
    · rw [next?, mapM_of_not_mem hforeign]
      exact ite_self _

section Next

variable {key next : String}

/-- A key that has a next one consists of digits, and the next one has its digits counted up. -/
theorem next?_cases (h : next? key = some next) : (∀ c ∈ key.toList, c ∈ alphabet) ∧
    next = String.ofList ((increment (digits key)).reverse.map digit) := by
  have hkey : ¬ (key = "" ∨ ∃ c ∈ key.toList, c ∉ alphabet) := by
    intro hnone
    exact Option.some_ne_none next (h.symm.trans (next?_eq_none_iff.2 hnone))
  push Not at hkey
  exact ⟨hkey.2, Option.some.inj (h.symm.trans (next?_of_mem hkey.1 hkey.2))⟩

/-- The digits of the next key are those of the key, counted up. -/
theorem digits_next? (h : next? key = some next) : digits next = increment (digits key) := by
  obtain ⟨hkey, rfl⟩ := next?_cases h
  exact digits_ofList (increment_lt (digits_lt hkey))

/-- **THE KEY AFTER A KEY** stands for the next number. -/
theorem value_next? (h : next? key = some next) : value next = value key + 1 := by
  rw [value, value, digits_next? h, ofDigits_increment]

/-- The next key consists of digits, too. -/
theorem mem_alphabet_of_next? (h : next? key = some next) : ∀ c ∈ next.toList, c ∈ alphabet := by
  obtain ⟨hkey, rfl⟩ := next?_cases h
  intro c hc
  rw [String.toList_ofList] at hc
  obtain ⟨d, hd, rfl⟩ := List.mem_map.1 hc
  exact digit_mem (increment_lt (digits_lt hkey) d (List.mem_reverse.1 hd))

/-- After a run of `z` there is one digit more. -/
theorem next?_of_forall (h : next? key = some next) (hlast : ∀ c ∈ key.toList, c = 'z') :
    next.toList = '1' :: List.replicate key.length '0' := by
  have hdigits : ∀ d ∈ digits key, d = 35 := by
    intro d hd
    obtain ⟨c, hc, rfl⟩ := List.mem_map.1 (List.mem_reverse.1 hd)
    rw [hlast c hc]
    rfl
  obtain ⟨-, rfl⟩ := next?_cases h
  rw [String.toList_ofList, increment_of_forall hdigits, length_digits, List.reverse_append, List.reverse_replicate,
    List.map_append, List.map_replicate]
  rfl

/-- As long as a digit is left to count up, the next key is as long as the key. -/
theorem length_next?_of_exists (h : next? key = some next) (hnot : ∃ c ∈ key.toList, c ≠ 'z') :
    next.length = key.length := by
  rw [← length_digits next, ← length_digits key, digits_next? h]
  refine length_increment_of_exists ?_
  obtain ⟨c, hc, hne⟩ := hnot
  refine ⟨alphabet.idxOf c, List.mem_reverse.2 (List.mem_map_of_mem hc), fun heq => hne ?_⟩
  have hlast : alphabet.idxOf 'z' = 35 := rfl
  exact (List.idxOf_inj ((next?_cases h).1 c hc)).1 (heq.trans hlast.symm)

end Next

/-! ## Counting up from zero -/

/-- **COUNTING DIGITS** is counting: the digits of the next number are those of a number, incremented. -/
theorem increment_digits (n : Nat) : increment (Nat.digits 36 n) = Nat.digits 36 (n + 1) := by
  induction n using Nat.strongRecOn with
  | ind n ih =>
    rw [Nat.digits_def' (by decide) (Nat.succ_pos n)]
    cases n with
    | zero => rfl
    | succ m =>
      rw [Nat.digits_def' (by decide) (Nat.succ_pos m), increment]
      split
      case isTrue hcarry =>
        -- the carry goes into the digits of the quotient, which is smaller
        rw [ih ((m + 1) / 36) (by omega), show (m + 1 + 1) % 36 = 0 by omega,
          show (m + 1 + 1) / 36 = (m + 1) / 36 + 1 by omega]
      case isFalse =>
        rw [show (m + 1 + 1) % 36 = (m + 1) % 36 + 1 by omega, show (m + 1 + 1) / 36 = (m + 1) / 36 by omega]

/-- The digits of a number other than zero are those of the library. -/
theorem digitsAt_succ (n : Nat) : digitsAt (n + 1) = Nat.digits 36 (n + 1) := by
  induction n with
  | zero => rfl
  | succ n ih => rw [digitsAt, ih, increment_digits]

/-- **THE KEYS OF A COUNTER** are the numerals of the numbers. -/
theorem keyAt_eq_numeral (n : Nat) : keyAt n = numeral n := by
  cases n with
  | zero => rfl
  | succ n =>
    rw [keyAt, numeral, if_neg (Nat.succ_ne_zero n), digitsAt_succ]
    refine congrArg String.ofList (List.map_congr_left fun d hd => ?_)
    have hlt := lt_length_alphabet.2 (Nat.digits_lt_base (by decide) (List.mem_reverse.1 hd))
    rw [digit_eq_getElem hlt, List.getD_eq_getElem _ _ hlt]

/-- Counting up from the first key a number of times comes to the numeral of that number. -/
theorem iterate_next? (n : Nat) : (fun key? => key?.bind next?)^[n] (some "0") = some (numeral n) := by
  induction n with
  | zero => rfl
  | succ n ih =>
    rw [Function.iterate_succ_apply', ih, ← keyAt_eq_numeral, ← keyAt_eq_numeral]
    exact next?_keyAt n

end Base36

/-! ## Counters -/

namespace Counter

open Base36 TrailM

variable {σ : Type} [RecordStore σ] [LawfulStore σ] {record : Key}

/-- A key is taken, and the next one is staged. -/
theorem comes_allocateKey {s : Trail Records} {key next : String}
    (hkey : currentKey (s.records.find? record) = .ok key) (hnext : next? key = some next) :
    (allocateKey record : TrailM σ String).Comes s
      (fun found s' => found = key ∧ s' = s.stage record (some (Text.toBytes next))) fun _ _ => False := by
  have hcurrent : (TrailM.ofExcept Error.corrupt (currentKey (s.records.find? record)) : TrailM σ String).Looks s
      (fun found => found = key) fun _ => False := by
    rw [hkey]
    exact Looks.pure rfl
  refine Comes.after (Looks.read record) ?_ fun _ he => he
  rintro _ rfl
  refine Comes.after hcurrent ?_ fun _ he => he
  rintro _ rfl
  rw [hnext]
  exact Comes.andThen (Stages.put record (Text.toBytes next)) fun _ => Comes.pure ⟨rfl, rfl⟩

/-- What is drawn from a counter in the course of time: one key after the other. In between, anything may be done that
    leaves the record of the counter as it is: other records are written, trails are completed and begun, an attempt to
    draw fails. -/
inductive Draws (record : Key) : Trail σ → List String → Trail σ → Prop where
  | done {t : Trail σ} : Draws record t [] t
  | draw {t between t' : Trail σ} {key : String} {keys : List String} (hdraw : allocateKey record t = (.ok key, between))
      (hrest : Draws record between keys t') : Draws record t (key :: keys) t'
  | meanwhile {t between t' : Trail σ} {keys : List String} (hvalid : LawfulStore.Valid between.store)
      (hkept : between.records.find? record = t.records.find? record) (hrest : Draws record between keys t') :
      Draws record t keys t'

/-- The counter holds the key that is handed out after `n` others. -/
structure Stands (record : Key) (n : Nat) (t : Trail σ) : Prop where
  valid : LawfulStore.Valid t.store
  current : currentKey (t.records.find? record) = .ok (keyAt n)

variable {n : Nat} {t t' : Trail σ}

/-- **ONE DRAW** gives the key that the counter holds, and moves it on by one, unless the store fails. -/
theorem Stands.draw_cases (h : Stands record n t) : ∃ t',
    (allocateKey record t = (.ok (keyAt n), t') ∧ Stands record (n + 1) t') ∨
      ∃ e, allocateKey record t = (.error e, t') ∧ e.IsFault σ := by
  rcases comes_allocateKey h.current (next?_keyAt n) t (Trail.over_plain h.valid) with
    ⟨_, t', s', hrun, hover, rfl, rfl⟩ | ⟨e, t', s', hrun, -, hfault | hfalse⟩
  · refine ⟨t', .inl ⟨hrun, hover.valid, ?_⟩⟩
    rw [hover.records, Trail.find?_records_stage, if_pos rfl, currentKey, Text.ofBytes?_toBytes]
  · exact ⟨t', .inr ⟨e, hrun, hfault⟩⟩
  · exact hfalse.elim

/-- **ANY NUMBER OF DRAWS** gives as many keys, in the order of the numbers. -/
theorem Draws.keys {keys : List String} (h : Draws record t keys t') (hstands : Stands record n t) :
    keys = (List.range' n keys.length).map keyAt ∧ Stands record (n + keys.length) t' := by
  induction h generalizing n with
  | done => exact ⟨rfl, hstands⟩
  | draw hdraw _ ih =>
    obtain ⟨between, ⟨hrun, hnext⟩ | ⟨e, hrun, -⟩⟩ := hstands.draw_cases
    · cases hdraw.symm.trans hrun
      obtain ⟨hkeys, hlast⟩ := ih hnext
      rw [List.length_cons, List.range'_succ, List.map_cons, ← hkeys, ← Nat.add_assoc, Nat.add_right_comm]
      exact ⟨rfl, hlast⟩
    · cases hdraw.symm.trans hrun
  | meanwhile hvalid hkept _ ih => exact ih ⟨hvalid, hkept ▸ hstands.current⟩

/-- **KEYS COUNT IN BASE 36.** (a) There is no key after the empty text, and none after a text with a character that is
    no digit; after every other there is one. (b) It stands for the next number, and is as long, but for a run of `z`,
    after which there are a one and as many zeros. (c) So the key after `n` others, from `0` on, is the numeral of `n`.
    (d) What is drawn from a counter that starts at `0` are the numerals of all numbers in order, up to some number, no two
    of which are the same; and the next draw gives the next numeral, unless the store fails. -/
theorem counts :
    (∀ key, next? key = none ↔ key = "" ∨ ∃ c ∈ key.toList, c ∉ alphabet) ∧
    (∀ key next, next? key = some next →
      value next = value key + 1 ∧ (∀ c ∈ next.toList, c ∈ alphabet) ∧
      ((∀ c ∈ key.toList, c = 'z') → next.toList = '1' :: List.replicate key.length '0') ∧
      ((∃ c ∈ key.toList, c ≠ 'z') → next.length = key.length)) ∧
    (∀ n, (fun key? => key?.bind next?)^[n] (some "0") = some (numeral n)) ∧
    ∀ (record : Key) (t t' : Trail σ) (keys : List String), LawfulStore.Valid t.store →
      currentKey (t.records.find? record) = .ok "0" → Draws record t keys t' →
      keys = (List.range keys.length).map numeral ∧ keys.Nodup ∧
        ((allocateKey record t').1 = .ok (numeral keys.length) ∨
          ∃ e, (allocateKey record t').1 = .error e ∧ e.IsFault σ) := by
  refine ⟨fun _ => next?_eq_none_iff, ?_, iterate_next?, ?_⟩
  · intro key next h
    exact ⟨value_next? h, mem_alphabet_of_next? h, next?_of_forall h, length_next?_of_exists h⟩
  · intro record t t' keys hvalid hstart hdraws
    -- the record stands at the number of keys that were drawn
    have hstands : Stands record 0 t := ⟨hvalid, hstart⟩
    obtain ⟨hkeys, hlast⟩ := hdraws.keys hstands
    rw [← List.range_eq_range'] at hkeys
    rw [Nat.zero_add] at hlast
    refine ⟨?_, ?_, ?_⟩
    · rwa [← funext keyAt_eq_numeral]
    · rw [hkeys]
      exact List.nodup_range.map fun _ _ => keyAt_injective
    · rw [← keyAt_eq_numeral]
      obtain ⟨after, ⟨hrun, -⟩ | ⟨e, hrun, hfault⟩⟩ := hlast.draw_cases
      · exact .inl (congrArg Prod.fst hrun)
      · exact .inr ⟨e, congrArg Prod.fst hrun, hfault⟩

namespace Sample

/-- A trail over an empty store, in which the first name of a transaction was drawn. -/
def drawn : Trail Records :=
  (allocateKey (key nextTransaction) (Trail.start .empty)).2

/-- The trail that starts when this one is completed. -/
def resumed : Trail Records :=
  Trail.start (drawn.complete (.ok ())).2

/-- The same trail after a further draw. -/
def drawnAgain : Trail Records :=
  (allocateKey (key nextTransaction) resumed).2

/-- Two names are drawn one after the other, from records that hold nothing yet. -/
theorem draws_two : Draws (key nextTransaction) (Trail.start (.empty : Records)) ["0", "1"] drawnAgain := by
  have hfirst : allocateKey (key nextTransaction) (Trail.start .empty) = (.ok "0", drawn) :=
    Prod.ext (by decide +kernel) rfl
  have hsecond : allocateKey (key nextTransaction) resumed = (.ok "1", drawnAgain) :=
    Prod.ext (by decide +kernel) rfl
  have hkept : resumed.records.find? (key nextTransaction) = drawn.records.find? (key nextTransaction) := by
    decide +kernel
  exact .draw hfirst (.meanwhile trivial hkept (.draw hsecond .done))

/-- A run of `z` behind another digit and one from the start, and two names that were drawn in two trails. -/
theorem two_names_drawn :
    (next? "yzz" = some "z00" ∧ value "z00" = value "yzz" + 1 ∧ "z00".length = "yzz".length) ∧
      (next? "zz" = some "100" ∧ "100".toList = '1' :: List.replicate "zz".length '0') ∧
      currentKey ((Trail.start (.empty : Records)).records.find? (key nextTransaction)) = .ok "0" ∧
      Draws (key nextTransaction) (Trail.start (.empty : Records)) ["0", "1"] drawnAgain ∧
      ["0", "1"].Nodup ∧ (allocateKey (key nextTransaction) drawnAgain).1 = .ok (numeral 2) := by
  have hbehind : next? "yzz" = some "z00" := by decide
  have hall : next? "zz" = some "100" := by decide
  have hstart : currentKey ((Trail.start (.empty : Records)).records.find? (key nextTransaction)) = .ok "0" := rfl
  obtain ⟨-, hnext, -, hdrawn⟩ := counts (σ := Records)
  obtain ⟨hvalue, -, -, hlength⟩ := hnext _ _ hbehind
  obtain ⟨-, -, hone, -⟩ := hnext _ _ hall
  obtain ⟨-, hnodup, hthird⟩ := hdrawn _ _ _ _ trivial hstart draws_two
  have hrun : ∀ c ∈ "zz".toList, c = 'z' := fun c hc => List.eq_of_mem_replicate (show c ∈ List.replicate 2 'z' from hc)
  refine ⟨⟨hbehind, hvalue, hlength ⟨'y', by decide, by decide⟩⟩, ⟨hall, hone hrun⟩, hstart, draws_two, hnodup, ?_⟩
  exact hthird.resolve_right fun ⟨e, _, hfault⟩ => Records.not_isFault e hfault

end Sample

end Counter

end VersionedTree

import VersionedTree.Proofs.Delta.RoundTrip
import VersionedTree.Proofs.Trail.Records

/-!
# Contents — what is stored under a key

The contents under a key are found by following a chain of deltas down to a full text. Representations are never
written over, so what a key stands for never changes.

* **`View.Makes`** — what the deltas below a key make, and how many they are.
* **`View.Holds`** — under a key there are certain contents, at the end of a chain of `n` deltas, and every link of the
  chain records its length and its digest truly.
* **`Reads.contents`** — then these contents are read.
* **`View.Proposes`** — a representation as which contents may be stored. Where it is stored, it holds them.
* **`Ends.storeContents`** — contents are stored as such a representation, under a key that a counter gives.
-/

namespace VersionedTree

/-- The full text that a key leads to and `n` deltas on it make these contents. -/
inductive View.Makes (v : View) : (key : String) → (data : Bytes) → (n : Nat) → Prop where
  | fullText {key : String} {rep : Representation} {data : Bytes} (hrep : v.rep key = some rep)
      (hform : rep.form = .fullText data) : v.Makes key data 0
  | delta {key base : String} {rep : Representation} {ops : List Delta.Op} {source data : Bytes} {n : Nat}
      (hrep : v.rep key = some rep) (hform : rep.form = .delta base ops) (hbase : v.Makes base source n)
      (happly : Delta.rebuild source ops = .ok data) : v.Makes key data (n + 1)

/-- Under this key a view holds contents, `n` deltas away from a full text. -/
inductive View.Holds (v : View) : (key : String) → (data : Bytes) → (n : Nat) → Prop where
  | fullText {key : String} {rep : Representation} {data : Bytes} (hrep : v.rep key = some rep)
      (hform : rep.form = .fullText data) (hchain : rep.chainLength = 0) (hdigest : rep.isOf data) :
      v.Holds key data 0
  | delta {key base : String} {rep : Representation} {ops : List Delta.Op} {source data : Bytes} {n : Nat}
      (hrep : v.rep key = some rep) (hform : rep.form = .delta base ops) (hbase : v.Holds base source n)
      (happly : Delta.rebuild source ops = .ok data) (hchain : rep.chainLength = n + 1) (hdigest : rep.isOf data) :
      v.Holds key data (n + 1)

namespace View.Holds

variable {v w : View} {key : String} {data : Bytes} {n : Nat}

/-- Contents that are held have a representation, which says how long the chain is and what it is of. -/
theorem rep (h : v.Holds key data n) : ∃ rep, v.rep key = some rep ∧ rep.chainLength = n ∧ rep.isOf data := by
  cases h with
  | fullText hrep _ hchain hdigest => exact ⟨_, hrep, hchain, hdigest⟩
  | delta hrep _ _ _ hchain hdigest => exact ⟨_, hrep, hchain, hdigest⟩

/-- Contents that are held are made. -/
theorem makes (h : v.Holds key data n) : v.Makes key data n := by
  induction h with
  | fullText hrep hform _ _ => exact .fullText hrep hform
  | delta hrep hform _ happly _ _ ih => exact .delta hrep hform ih happly

/-- What is held is all that the deltas make. -/
theorem makes_iff (h : v.Holds key data n) {data' : Bytes} {n' : Nat} : v.Makes key data' n' ↔ data' = data ∧ n' = n := by
  constructor
  · intro h'
    -- what is read under a key is one thing, so both walks go down the same way
    induction h generalizing data' n' with
    | fullText hrep hform _ _ =>
      cases h' with
      | fullText hrep' hform' =>
        cases hrep.symm.trans hrep'
        cases hform.symm.trans hform'
        exact ⟨rfl, rfl⟩
      | delta hrep' hform' _ _ =>
        cases hrep.symm.trans hrep'
        exact nomatch hform.symm.trans hform'
    | delta hrep hform _ happly _ _ ih =>
      cases h' with
      | fullText hrep' hform' =>
        cases hrep.symm.trans hrep'
        exact nomatch hform.symm.trans hform'
      | delta hrep' hform' hbase' happly' =>
        cases hrep.symm.trans hrep'
        cases hform.symm.trans hform'
        obtain ⟨rfl, rfl⟩ := ih hbase'
        cases happly.symm.trans happly'
        exact ⟨rfl, rfl⟩
  · rintro ⟨rfl, rfl⟩
    exact h.makes

/-- A key stands for one thing. -/
theorem unique (h : v.Holds key data n) {data' : Bytes} {n' : Nat} (h' : v.Holds key data' n') :
    data' = data ∧ n' = n :=
  h.makes_iff.1 h'.makes

/-- Contents stay where they are as long as no representation is changed. -/
theorem mono (h : v.Holds key data n) (hreps : ∀ key rep, v.rep key = some rep → w.rep key = some rep) :
    w.Holds key data n := by
  induction h with
  | fullText hrep hform hchain hdigest => exact .fullText (hreps _ _ hrep) hform hchain hdigest
  | delta hrep hform _ happly hchain hdigest ih => exact .delta (hreps _ _ hrep) hform ih happly hchain hdigest

end View.Holds

namespace Representation

/-- A representation is of the contents that it was made for. -/
theorem isOf_self (data : Bytes) (chainLength : Nat) (form : Form) :
    isOf ⟨data.length, Sha256.hexDigest data, chainLength, form⟩ data := by
  simp [isOf]

/-- A representation is of contents just if it has their size and their digest. -/
theorem isOf_iff {rep : Representation} {data : Bytes} :
    rep.isOf data = true ↔ data.length = rep.size ∧ Sha256.hexDigest data = rep.sha256 := by
  rw [isOf, Bool.and_eq_true, beq_iff_eq, beq_iff_eq]

/-- It has their size. -/
theorem size_eq_of_isOf {rep : Representation} {data : Bytes} (h : rep.isOf data) : rep.size = data.length :=
  (isOf_iff.1 h).1.symm

/-- It has their digest. -/
theorem sha256_eq_of_isOf {rep : Representation} {data : Bytes} (h : rep.isOf data) :
    rep.sha256 = Sha256.hexDigest data :=
  (isOf_iff.1 h).2.symm

end Representation

/-- A representation under a key that was not in use leaves the others as they are. -/
theorem View.rep_setRep_of_free {v : View} {key counter : String} {value : Bytes} {rep : Representation}
    (hfree : v.rep key = none) {other : String} {otherRep : Representation} (hother : v.rep other = some otherRep) :
    ((v.setGlobal counter value).setRep key rep).rep other = some otherRep := by
  have hne : other ≠ key := by
    rintro rfl
    exact nomatch hfree.symm.trans hother
  simpa [hne] using hother

/-- Contents may be stored as this representation, `n` deltas away from a full text: as a whole, or as a delta against the
    contents they replace, if those are not empty, the operations are shorter than the contents, and the chain is not too
    long. -/
inductive View.Proposes (v : View) (config : Config) (previous : Option String) (data : Bytes) :
    (rep : Representation) → (n : Nat) → Prop where
  | fullText : v.Proposes config previous data (.ofContents data) 0
  | delta {base : String} {source : Bytes} {ops : List Delta.Op} {n : Nat} (hprevious : previous = some base)
      (hbase : v.Holds base source n) (hsource : source ≠ []) (happly : Delta.rebuild source ops = .ok data)
      (hshort : Representation.opsLength ops < data.length) (hlimit : n < config.maxDeltaChain) :
      v.Proposes config previous data ⟨data.length, Sha256.hexDigest data, n + 1, .delta base ops⟩ (n + 1)

namespace View.Proposes

variable {v w : View} {config : Config} {previous : Option String} {data value : Bytes} {rep : Representation}
  {key : String} {n : Nat}

/-- No longer chain is proposed than is allowed. -/
theorem le (h : v.Proposes config previous data rep n) : n ≤ config.maxDeltaChain := by
  cases h with
  | fullText => exact Nat.zero_le _
  | delta _ _ _ _ _ hlimit => exact hlimit

/-- Where it is stored, it holds the contents. -/
theorem holds (h : v.Proposes config previous data rep n) (hrep : v.rep key = some rep) : v.Holds key data n := by
  cases h with
  | fullText => exact .fullText hrep rfl rfl (Representation.isOf_self data 0 _)
  | delta _ hbase _ happly _ _ => exact .delta hrep rfl hbase happly rfl (Representation.isOf_self data _ _)

/-- It is proposed as long as no representation is changed. -/
theorem mono (h : v.Proposes config previous data rep n) (hreps : ∀ key rep, v.rep key = some rep → w.rep key = some rep) :
    w.Proposes config previous data rep n := by
  cases h with
  | fullText => exact .fullText
  | delta hprevious hbase hsource happly hshort hlimit =>
    exact .delta hprevious (hbase.mono hreps) hsource happly hshort hlimit

/-- What was proposed is held as soon as it is stored under a key that was free. -/
theorem holds_stored (h : v.Proposes config previous data rep n) (hfree : v.rep key = none) :
    ((v.setGlobal Counter.nextRepresentation value).setRep key rep).Holds key data n :=
  (h.mono fun _ _ hother => rep_setRep_of_free hfree hother).holds (by simp)

end View.Proposes

namespace TrailM

open VersionedTree.Representation

variable [Codec] {σ : Type} [RecordStore σ] [LawfulStore σ] {v : View} {key : String} {data : Bytes} {n : Nat}

/-- The chain of contents that are held is followed to its end, and its deltas make them. -/
theorem Reads.followChain (h : v.Holds key data n) (head : String) (limit : Nat) {left : Nat} (hleft : n ≤ left)
    {rep : Representation} (hrep : v.rep key = some rep) :
    (followChain head limit left rep : TrailM σ _).Reads v (fun found => applyChain found.1 found.2 = .ok data)
      (Error.IsFault σ) := by
  induction h generalizing left rep with
  | fullText hrep' hform _ _ =>
    cases hrep.symm.trans hrep'
    unfold Representation.followChain
    rw [hform]
    cases left <;> exact Reads.pure rfl
  | @delta key base rep' ops source data n hrep' hform hbase happly _ _ ih =>
    cases hrep.symm.trans hrep'
    -- one delta at least is to come, and the walk may still follow that many
    obtain ⟨left, rfl⟩ : ∃ left', left = left' + 1 := ⟨left - 1, by omega⟩
    unfold Representation.followChain
    rw [hform]
    refine Reads.bind (Reads.rep base) ?_ ?_
    · intro baseRep hbaseRep
      refine Reads.bind (ih (by omega) hbaseRep) ?_ fun e he => he
      rintro ⟨fullText, deltas⟩ hdeltas
      refine Reads.pure ?_
      show (applyChain fullText deltas >>= fun source => Delta.rebuild source ops) = .ok data
      rw [hdeltas]
      exact happly
    · rintro e (he | ⟨hnone, -⟩)
      · exact he
      · obtain ⟨baseRep, hsome, -⟩ := hbase.rep
        exact nomatch hnone.symm.trans hsome

/-- **CONTENTS ARE READ** that a view holds. -/
theorem Reads.contents (h : v.Holds key data n) :
    (readContents key : TrailM σ Bytes).Reads v (fun found => found = data) (Error.IsFault σ) := by
  obtain ⟨rep, hrep, hchain, hdigest⟩ := h.rep
  refine Reads.bind (Reads.rep key) ?_ ?_
  · intro head hhead
    cases hrep.symm.trans hhead
    refine Reads.bind (Reads.followChain h key rep.chainLength (Nat.le_of_eq hchain.symm) hrep) ?_ fun e he => he
    rintro ⟨fullText, deltas⟩ hdeltas
    refine Reads.bind (Q := fun found => found = data) (Reads.ofExcept ?_ ?_) ?_ fun e he => he
    · intro found hfound
      cases hdeltas.symm.trans hfound
      rfl
    · intro e he
      exact nomatch hdeltas.symm.trans he
    · rintro found rfl
      rw [if_pos hdigest]
      exact Reads.pure rfl
  · rintro e (he | ⟨hnone, -⟩)
    · exact he
    · exact nomatch hnone.symm.trans hrep

/-- A delta that is proposed may be stored. -/
theorem Reads.deltify (config : Config) {base : String} {source : Bytes} (h : v.Holds base source n)
    (hfits : data.length ≤ Delta.maxLength) :
    (deltify? config base data : TrailM σ _).Reads v
      (fun found => ∀ rep, found = some rep → v.Proposes config (some base) data rep (n + 1)) (Error.IsFault σ) := by
  obtain ⟨rep, hrep, rfl, hdigest⟩ := h.rep
  refine Reads.bind (Reads.rep base) ?_ ?_
  · intro rep' hrep'
    cases hrep.symm.trans hrep'
    split
    case isTrue => exact Reads.pure nofun
    case isFalse hdeltas =>
      obtain ⟨hsize, hlimit⟩ := not_or.1 hdeltas
      refine Reads.bind (Reads.contents h) ?_ fun e he => he
      rintro found rfl
      dsimp only
      split
      case isTrue => exact Reads.pure nofun
      case isFalse hlong =>
        -- an empty base has been sent away before its contents were read
        have hsource : found ≠ [] := by
          rintro rfl
          exact hsize (size_eq_of_isOf hdigest)
        refine Reads.pure ?_
        intro rep' hsome
        cases hsome
        exact .delta rfl h hsource (Delta.rebuild_deltaOf found hfits) (Nat.lt_of_not_le hlong) (Nat.lt_of_not_le hlimit)
  · rintro e (he | ⟨hnone, -⟩)
    · exact he
    · exact nomatch hnone.symm.trans hrep

/-- Whatever delta is found is a proposal, as contents that have a predecessor can read it. -/
theorem Reads.deltaFor (config : Config) {previous : Option String}
    (h : ∀ base, previous = some base → ∃ source n, v.Holds base source n) :
    (deltaFor? config data previous : TrailM σ _).Reads v
      (fun found => ∀ rep, found = some rep → ∃ n, v.Proposes config previous data rep n) (Error.IsFault σ) := by
  -- without a base, and without a delta that is worth it, the contents are stored as they are
  cases previous with
  | none => exact Reads.pure nofun
  | some base =>
    obtain ⟨source, n, hbase⟩ := h base rfl
    rw [Representation.deltaFor?]
    split
    case isFalse => exact Reads.pure nofun
    case isTrue hfits =>
      exact Reads.mono (Reads.deltify config hbase hfits) (fun _ hfound rep hrep => ⟨_, hfound rep hrep⟩) fun _ he => he

/-- What is proposed is put under the key that the counter gives. -/
theorem Ends.createProposed {config : Config} {previous : Option String} {rep : Representation}
    (h : v.Proposes config previous data rep n) :
    (Representation.create config rep : TrailM σ String).Ends v
      (fun key w => ∃ next rep n, v.Proposes config previous data rep n ∧
        Counter.currentKey (v.global Counter.nextRepresentation) = .ok key ∧ Base36.next? key = some next ∧
        w = (v.setGlobal Counter.nextRepresentation (Text.toBytes next)).setRep key rep)
      (fun e w => w = v ∧ (e.IsFault σ ∨ (∃ cause rep n, e = .storage cause ∧ v.Proposes config previous data rep n ∧ ¬ rep.Fits) ∨
        ∀ key, Counter.currentKey (v.global Counter.nextRepresentation) = .ok key → Base36.next? key = none)) := by
  have hencode : (TrailM.ofExcept Error.storage (rep.toStored config.compressionLevel) : TrailM σ Bytes).Reads v
      (fun stored => rep.toStored config.compressionLevel = .ok stored)
      (fun e => (∃ cause, e = .storage cause) ∧ ¬ rep.Fits) := by
    refine Reads.ofExcept (fun stored h => h) fun e he => ⟨⟨e, rfl⟩, fun hfits => ?_⟩
    rw [toStored, if_pos hfits] at he
    cases he
  refine Ends.after hencode ?_ ?_
  case refine_2 =>
    rintro e ⟨⟨cause, rfl⟩, hfits⟩
    exact ⟨rfl, .inr (.inl ⟨cause, rep, n, rfl, h, hfits⟩)⟩
  intro stored hstored
  refine Ends.bind (Ends.allocateKey Counter.nextRepresentation) ?_ fun e w he => ⟨he.1, he.2.imp id .inr⟩
  rintro key w ⟨hkey, next, hnext, rfl⟩
  refine Ends.andThen (Writes.putRep (ofStored_of_toStored hstored)) fun _ => Ends.pure ?_
  exact ⟨next, rep, n, h, hkey, hnext, rfl⟩

/-- **CONTENTS ARE STORED** under the key that the counter gives. It can only fail if the store does, if a number is out of
    range, or if the counter has no key. -/
theorem Ends.storeContents (config : Config) {previous : Option String} (data : Bytes)
    (h : ∀ base, previous = some base → ∃ source n, v.Holds base source n) :
    (storeContents config previous data : TrailM σ String).Ends v
      (fun key w => ∃ next rep n, v.Proposes config previous data rep n ∧
        Counter.currentKey (v.global Counter.nextRepresentation) = .ok key ∧ Base36.next? key = some next ∧
        w = (v.setGlobal Counter.nextRepresentation (Text.toBytes next)).setRep key rep)
      (fun e w => w = v ∧ (e.IsFault σ ∨ (∃ cause rep n, e = .storage cause ∧ v.Proposes config previous data rep n ∧ ¬ rep.Fits) ∨
        ∀ key, Counter.currentKey (v.global Counter.nextRepresentation) = .ok key → Base36.next? key = none)) := by
  refine Ends.after (Reads.deltaFor config h) ?_ fun e he => ⟨rfl, .inl he⟩
  intro delta hdelta
  cases delta with
  | none => exact Ends.createProposed .fullText
  | some rep =>
    obtain ⟨n, hproposed⟩ := hdelta rep rfl
    exact Ends.createProposed hproposed

end TrailM

end VersionedTree

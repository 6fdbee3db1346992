import VersionedTree.Proofs.Contents.Chain
import VersionedTree.Proofs.Trail.Effects

/-!
# Reading contents — the recursive definition, whatever the records are

What a representation stands for is defined by recursion: a full text stands for itself, and a delta for what it makes of
the contents of its base. Reading follows this definition over any records: bases may be missing or damaged, they may lead
round in a circle, and lengths and digests may be wrong. The walk still ends, since the representation itself says how many
deltas there are.

* **`View.LeadsDown`** — the representations on the way down from a key.
* **`View.Makes`** is what the deltas make, **`View.Breaks`** says that one of them does not fit what the next ones make.
* **`Records.ReadsAs`** — the definition: contents, and all the reasons why there are none.
  **`Records.exists_readsAs`** — one of these always holds. **`Looks.readContents`** — it is what is read.
* **`TrailM.ReadsAtMost`** — a bound on the number of records that are read.
* **`contents_as_defined`** — the theorem.
-/

namespace VersionedTree

open VersionedTree.Representation

/-! ## The definition -/

namespace View

/-- The representation under `link` is the base of the base and so on of the one under `key`, down `n` deltas. -/
inductive LeadsDown (v : View) : (key : String) → (n : Nat) → (link : String) → Prop where
  | here (key : String) : v.LeadsDown key 0 key
  | down {key base link : String} {rep : Representation} {ops : List Delta.Op} {n : Nat} (hrep : v.rep key = some rep)
      (hform : rep.form = .delta base ops) (hrest : v.LeadsDown base n link) : v.LeadsDown key (n + 1) link

/-- The key leads down `n` deltas to a full text, and one of the deltas cannot be run on what those below it make. -/
inductive Breaks (v : View) : (key : String) → (n : Nat) → (e : Delta.Failure) → Prop where
  | here {key base : String} {rep : Representation} {ops : List Delta.Op} {source : Bytes} {n : Nat}
      {e : Delta.Failure} (hrep : v.rep key = some rep) (hform : rep.form = .delta base ops)
      (hbase : v.Makes base source n) (happly : Delta.rebuild source ops = .error e) : v.Breaks key (n + 1) e
  | deeper {key base : String} {rep : Representation} {ops : List Delta.Op} {n : Nat} {e : Delta.Failure}
      (hrep : v.rep key = some rep) (hform : rep.form = .delta base ops) (hbase : v.Breaks base n e) :
      v.Breaks key (n + 1) e

variable {v : View} {key : String} {n : Nat}

/-- Contents are made from a representation that is there. -/
theorem Makes.exists_rep {data : Bytes} (h : v.Makes key data n) : ∃ rep, v.rep key = some rep := by
  cases h with
  | fullText hrep _ => exact ⟨_, hrep⟩
  | delta hrep _ _ _ => exact ⟨_, hrep⟩

/-- A chain that breaks starts from a representation that is there. -/
theorem Breaks.exists_rep {e : Delta.Failure} (h : v.Breaks key n e) : ∃ rep, v.rep key = some rep := by
  cases h with
  | here hrep _ _ _ => exact ⟨_, hrep⟩
  | deeper hrep _ _ => exact ⟨_, hrep⟩

end View

namespace Records

variable [Codec]

/-- There is no representation to be read under the key, and this is the error. -/
inductive NotRead (records : Records) (key : String) : Error → Prop where
  | missing (h : records.find? (recordKey key) = none) : NotRead records key (.notFound (.representation key))
  | damaged {value : Bytes} {cause : Corruption} (h : records.find? (recordKey key) = some value)
      (hdecode : ofStored value = .error cause) : NotRead records key (.corrupt cause)

/-- What the representation `head` under a key stands for, or why it stands for nothing. -/
inductive ReadsAs (records : Records) (key : String) (head : Representation) : Except Error Bytes → Prop where
  /-- The deltas make contents of this length and digest. -/
  | contents {data : Bytes} {n : Nat} (hmakes : records.view.Makes key data n) (hn : n ≤ head.chainLength)
      (hsize : data.length = head.size) (hdigest : Sha256.hexDigest data = head.sha256) :
      ReadsAs records key head (.ok data)
  /-- A representation on the way down is missing, or it cannot be read. -/
  | notRead {link : String} {n : Nat} {e : Error} (hlink : records.view.LeadsDown key n link)
      (hn : n ≤ head.chainLength) (hread : records.NotRead link e) : ReadsAs records key head (.error e)
  /-- There is one delta more than there should be. -/
  | tooLong {link base : String} {rep : Representation} {ops : List Delta.Op}
      (hlink : records.view.LeadsDown key head.chainLength link) (hrep : records.view.rep link = some rep)
      (hform : rep.form = .delta base ops) :
      ReadsAs records key head (.error (.corrupt (.chainTooLong key head.chainLength)))
  /-- A delta copies what is not there. -/
  | badDelta {n : Nat} {cause : Delta.OutOfBounds} (hbreaks : records.view.Breaks key n (.outOfBounds cause))
      (hn : n ≤ head.chainLength) : ReadsAs records key head (.error (.corrupt (.badDelta key cause)))
  /-- A delta asks for more memory than there can be, and the program stops. -/
  | noRoom {n length : Nat} (hbreaks : records.view.Breaks key n (.tooLong length)) (hn : n ≤ head.chainLength) :
      ReadsAs records key head (.error (.capacity length))
  /-- The deltas make something else. -/
  | mismatch {data : Bytes} {n : Nat} (hmakes : records.view.Makes key data n) (hn : n ≤ head.chainLength)
      (hother : ¬ (data.length = head.size ∧ Sha256.hexDigest data = head.sha256)) :
      ReadsAs records key head (.error (.corrupt (.contentsMismatch key)))

variable {records : Records} {key : String} {rep : Representation}

/-- The view does not have a representation that cannot be read. -/
theorem NotRead.rep_eq_none {e : Error} (h : records.NotRead key e) : records.view.rep key = none := by
  refine Option.eq_none_iff_forall_ne_some.2 fun rep hrep => ?_
  obtain ⟨value, hfind, hdecode⟩ := view_rep_eq_some.1 hrep
  cases h with
  | missing hnone => cases hnone.symm.trans hfind
  | damaged hfind' hdecode' =>
    cases hfind'.symm.trans hfind
    cases hdecode'.symm.trans hdecode

/-- A representation can be read, or there is an error. -/
theorem rep_or_notRead (records : Records) (key : String) :
    (∃ rep, records.view.rep key = some rep) ∨ ∃ e, records.NotRead key e := by
  cases hfind : records.find? (recordKey key) with
  | none => exact .inr ⟨_, .missing hfind⟩
  | some value =>
    cases hdecode : ofStored value with
    | ok rep => exact .inl ⟨rep, view_rep_eq_some.2 ⟨value, hfind, hdecode⟩⟩
    | error cause => exact .inr ⟨_, .damaged hfind hdecode⟩

/-- What there is below a key, for a walk that may go down `left` deltas. -/
theorem walk_cases (left : Nat) (hrep : records.view.rep key = some rep) :
    (∃ data n, records.view.Makes key data n ∧ n ≤ left) ∨ (∃ e n, records.view.Breaks key n e ∧ n ≤ left) ∨
      (∃ link n e, records.view.LeadsDown key n link ∧ n ≤ left ∧ records.NotRead link e) ∨
      ∃ link rep base ops, records.view.LeadsDown key left link ∧ records.view.rep link = some rep ∧
        rep.form = .delta base ops := by
  induction left generalizing key rep with
  | zero =>
    cases hform : rep.form with
    | fullText data => exact .inl ⟨data, 0, .fullText hrep hform, Nat.le_refl 0⟩
    | delta base ops => exact .inr (.inr (.inr ⟨key, rep, base, ops, .here key, hrep, hform⟩))
  | succ left ih =>
    cases hform : rep.form with
    | fullText data => exact .inl ⟨data, 0, .fullText hrep hform, Nat.zero_le _⟩
    | delta base ops =>
      rcases records.rep_or_notRead base with ⟨baseRep, hbase⟩ | ⟨e, hbase⟩
      · -- one delta down, it is as it is below the base
        rcases ih hbase with ⟨source, n, hmakes, hn⟩ | ⟨e, n, hbreaks, hn⟩ | ⟨link, n, e, hlink, hn, he⟩ |
          ⟨link, rep', base', ops', hlink, hrep', hform'⟩
        · cases happly : Delta.rebuild source ops with
          | ok data => exact .inl ⟨data, n + 1, .delta hrep hform hmakes happly, Nat.succ_le_succ hn⟩
          | error e => exact .inr (.inl ⟨e, n + 1, .here hrep hform hmakes happly, Nat.succ_le_succ hn⟩)
        · exact .inr (.inl ⟨e, n + 1, .deeper hrep hform hbreaks, Nat.succ_le_succ hn⟩)
        · exact .inr (.inr (.inl ⟨link, n + 1, e, .down hrep hform hlink, Nat.succ_le_succ hn, he⟩))
        · exact .inr (.inr (.inr ⟨link, rep', base', ops', .down hrep hform hlink, hrep', hform'⟩))
      · exact .inr (.inr (.inl ⟨base, 1, e, .down hrep hform (.here base), Nat.succ_le_succ (Nat.zero_le left), hbase⟩))

/-- **A REPRESENTATION STANDS FOR SOMETHING**, or there is a reason why it does not. -/
theorem exists_readsAs {head : Representation} (hhead : records.view.rep key = some head) :
    ∃ result, records.ReadsAs key head result := by
  rcases records.walk_cases head.chainLength hhead with ⟨data, n, hmakes, hn⟩ | ⟨e, n, hbreaks, hn⟩ |
    ⟨link, n, e, hlink, hn, he⟩ | ⟨link, rep, base, ops, hlink, hrep, hform⟩
  · by_cases hof : data.length = head.size ∧ Sha256.hexDigest data = head.sha256
    · exact ⟨_, .contents hmakes hn hof.1 hof.2⟩
    · exact ⟨_, .mismatch hmakes hn hof⟩
  · cases e with
    | outOfBounds cause => exact ⟨_, .badDelta hbreaks hn⟩
    | tooLong length => exact ⟨_, .noRoom hbreaks hn⟩
  · exact ⟨_, .notRead hlink hn he⟩
  · exact ⟨_, .tooLong hlink hrep hform⟩

end Records

/-! ## The walk -/

namespace TrailM

variable [Codec] {σ : Type} [RecordStore σ] [LawfulStore σ] {s : Trail Records} {key head : String} {limit left n : Nat}
  {rep : Representation}

/-- A representation that cannot be read is an error, which tells what is wrong with its record. -/
theorem Looks.readRep_of_notRead {e : Error} (h : s.records.NotRead key e) :
    (readRecord key : TrailM σ Representation).Looks s (fun _ => False) fun e' => e' = e := by
  refine Looks.mono (Looks.readRep key) ?_ ?_
  · rintro found hfound
    cases h.rep_eq_none.symm.trans (Records.view_rep_eq_some.2 hfound)
  · rintro e' (⟨hnone, rfl⟩ | ⟨value', cause', hfind', hdecode', rfl⟩)
    · cases h with
      | missing => rfl
      | damaged hfind => cases hfind.symm.trans hnone
    · cases h with
      | missing hnone => cases hfind'.symm.trans hnone
      | damaged hfind hdecode =>
        cases hfind.symm.trans hfind'
        cases hdecode.symm.trans hdecode'
        rfl

/-- One step of the walk. -/
theorem Looks.followChain_down {base : String} {baseRep : Representation} {ops : List Delta.Op}
    {Q Q' : Bytes × List (List Delta.Op) → Prop} {E : Error → Prop} (hform : rep.form = .delta base ops)
    (hbase : s.records.view.rep base = some baseRep)
    (h : (followChain head limit left baseRep : TrailM σ _).Looks s Q E)
    (hQ : ∀ found, Q found → Q' (found.1, ops :: found.2)) :
    (followChain head limit (left + 1) rep : TrailM σ _).Looks s Q' E := by
  unfold followChain
  rw [hform]
  refine Looks.bind (Looks.readRep_of_some hbase) ?_ fun _ he => he.elim
  rintro found rfl
  refine Looks.bind h ?_ fun _ he => he
  rintro ⟨data, deltas⟩ hfound
  exact Looks.pure (hQ _ hfound)

/-- What the walk comes back with makes what the delta makes of what comes back from its base. -/
theorem Looks.followChain_apply {base : String} {baseRep : Representation} {ops : List Delta.Op}
    {result : Except Delta.Failure Bytes} (hform : rep.form = .delta base ops)
    (hbase : s.records.view.rep base = some baseRep)
    (h : (followChain head limit left baseRep : TrailM σ _).Looks s (fun found => applyChain found.1 found.2 = result)
      fun _ => False) :
    (followChain head limit (left + 1) rep : TrailM σ _).Looks s
      (fun found => applyChain found.1 found.2 = result.bind fun source => Delta.rebuild source ops) fun _ => False := by
  refine Looks.followChain_down hform hbase h ?_
  rintro ⟨fullText, deltas⟩ hdeltas
  exact congrArg (Except.bind · fun source => Delta.rebuild source ops) hdeltas

/-- A chain that makes contents is followed to its end, and its deltas make them. -/
theorem Looks.followChain_makes {data : Bytes} (h : s.records.view.Makes key data n) (hn : n ≤ left)
    (hrep : s.records.view.rep key = some rep) :
    (followChain head limit left rep : TrailM σ _).Looks s (fun found => applyChain found.1 found.2 = .ok data)
      fun _ => False := by
  induction h generalizing left rep with
  | fullText hrep' hform =>
    cases hrep.symm.trans hrep'
    unfold followChain
    rw [hform]
    cases left <;> exact Looks.pure rfl
  | @delta key base rep' ops source data n hrep' hform hbase happly ih =>
    cases hrep.symm.trans hrep'
    obtain ⟨k, rfl⟩ := Nat.exists_eq_add_of_le' hn
    obtain ⟨baseRep, hbaseRep⟩ := hbase.exists_rep
    refine Looks.mono (Looks.followChain_apply hform hbaseRep (ih ?_ hbaseRep)) ?_ fun _ he => he
    · exact Nat.le_add_left n k
    · exact fun _ hfound => hfound.trans happly

/-- A chain that breaks is followed to its end, and its deltas fail as it does. -/
theorem Looks.followChain_breaks {e : Delta.Failure} (h : s.records.view.Breaks key n e) (hn : n ≤ left)
    (hrep : s.records.view.rep key = some rep) :
    (followChain head limit left rep : TrailM σ _).Looks s (fun found => applyChain found.1 found.2 = .error e)
      fun _ => False := by
  induction h generalizing left rep with
  | @here key base rep' ops source n e hrep' hform hbase happly =>
    cases hrep.symm.trans hrep'
    obtain ⟨k, rfl⟩ := Nat.exists_eq_add_of_le' hn
    obtain ⟨baseRep, hbaseRep⟩ := hbase.exists_rep
    refine Looks.mono (Looks.followChain_apply hform hbaseRep (Looks.followChain_makes hbase ?_ hbaseRep)) ?_ fun _ he => he
    · exact Nat.le_add_left n k
    · exact fun _ hfound => hfound.trans happly
  | @deeper key base rep' ops n e hrep' hform hbase ih =>
    cases hrep.symm.trans hrep'
    obtain ⟨k, rfl⟩ := Nat.exists_eq_add_of_le' hn
    obtain ⟨baseRep, hbaseRep⟩ := hbase.exists_rep
    exact Looks.followChain_apply hform hbaseRep (ih (Nat.le_add_left n k) hbaseRep)

/-- It stops where nothing can be read. -/
theorem Looks.followChain_notRead {link : String} {e : Error} (h : s.records.view.LeadsDown key n link) (hn : n ≤ left)
    (hlink : s.records.NotRead link e) (hrep : s.records.view.rep key = some rep) :
    (followChain head limit left rep : TrailM σ _).Looks s (fun _ => False) fun e' => e' = e := by
  induction h generalizing left rep with
  | here key => cases hrep.symm.trans hlink.rep_eq_none
  | @down key base link rep' ops n hrep' hform hrest ih =>
    cases hrep.symm.trans hrep'
    obtain ⟨k, rfl⟩ := Nat.exists_eq_add_of_le' hn
    cases hbase : s.records.view.rep base with
    | some baseRep =>
      exact Looks.followChain_down hform hbase (ih (Nat.le_add_left n k) hlink hbase) fun _ hfound => hfound
    | none =>
      cases hrest with
      | down hbase' _ _ => cases hbase.symm.trans hbase'
      | here =>
        unfold followChain
        rw [hform]
        exact Looks.bind (Looks.readRep_of_notRead hlink) (fun _ hfound => hfound.elim) fun _ he => he

/-- It stops at a delta that is one too many. -/
theorem Looks.followChain_tooLong {link base : String} {last : Representation} {ops : List Delta.Op}
    (h : s.records.view.LeadsDown key left link) (hlast : s.records.view.rep link = some last)
    (hform : last.form = .delta base ops) (hrep : s.records.view.rep key = some rep) :
    (followChain head limit left rep : TrailM σ _).Looks s (fun _ => False)
      fun e => e = .corrupt (.chainTooLong head limit) := by
  induction h generalizing rep with
  | here key =>
    cases hrep.symm.trans hlast
    unfold followChain
    rw [hform]
    exact Looks.throw rfl
  | @down key base' link rep' ops' n hrep' hform' hrest ih =>
    cases hrep.symm.trans hrep'
    have hbase : ∃ baseRep, s.records.view.rep base' = some baseRep := by
      cases hrest with
      | here => exact ⟨last, hlast⟩
      | down hbase _ _ => exact ⟨_, hbase⟩
    obtain ⟨baseRep, hbase⟩ := hbase
    exact Looks.followChain_down hform' hbase (ih hlast hbase) fun _ hfound => hfound

end TrailM

/-! ## The whole of it -/

/-- What is read after the representation itself. -/
def Representation.contentsOf [Codec] {σ : Type} [RecordStore σ] (key : String) (head : Representation) : TrailM σ Bytes := do
  let (fullText, deltas) ← followChain key head.chainLength head.chainLength head
  let data ← TrailM.ofExcept (chainError key) (applyChain fullText deltas)
  if head.isOf data then
    return data
  else
    throw (.corrupt (.contentsMismatch key))

/-- Contents are read by reading the first representation, and all others from there. -/
theorem Representation.readContents_eq [Codec] {σ : Type} [RecordStore σ] (key : String) :
    (readContents key : TrailM σ Bytes) = readRecord key >>= contentsOf key :=
  rfl

namespace TrailM

variable [Codec] {σ : Type} [RecordStore σ] [LawfulStore σ] {s : Trail Records} {key : String} {n : Nat}

/-- Contents that were made are compared with what the representation says of them. -/
theorem Looks.contentsOf_makes {rep : Representation} {data : Bytes} (h : s.records.view.Makes key data n)
    (hn : n ≤ rep.chainLength) (hrep : s.records.view.rep key = some rep) {Q : Bytes → Prop} {E : Error → Prop}
    (hsame : rep.isOf data = true → Q data) (hother : rep.isOf data ≠ true → E (.corrupt (.contentsMismatch key))) :
    (Representation.contentsOf key rep : TrailM σ Bytes).Looks s Q E := by
  refine Looks.bind (Looks.followChain_makes h hn hrep) ?_ fun _ he => he.elim
  rintro ⟨fullText, deltas⟩ hdeltas
  refine Looks.bind (Q := fun found => found = data) (E := fun _ => False) (Looks.ofExcept ?_ ?_) ?_ fun _ he => he.elim
  · intro found hfound
    cases hdeltas.symm.trans hfound
    rfl
  · intro e he
    cases hdeltas.symm.trans he
  · rintro found rfl
    split
    case isTrue hof => exact Looks.pure (hsame hof)
    case isFalse hof => exact Looks.throw (hother hof)

/-- Where a delta cannot be run, nothing is read, and the error says why. -/
theorem Looks.contentsOf_breaks {rep : Representation} {e : Delta.Failure} (h : s.records.view.Breaks key n e)
    (hn : n ≤ rep.chainLength) (hrep : s.records.view.rep key = some rep) {Q : Bytes → Prop} {E : Error → Prop}
    (herror : E (chainError key e)) : (Representation.contentsOf key rep : TrailM σ Bytes).Looks s Q E := by
  refine Looks.bind (Looks.followChain_breaks h hn hrep) ?_ fun _ he => he.elim
  rintro ⟨fullText, deltas⟩ hdeltas
  refine Looks.bind (Q := fun _ => False) (Looks.ofExcept ?_ ?_) (fun _ hfound => hfound.elim) fun _ he => he
  · intro found hfound
    cases hdeltas.symm.trans hfound
  · intro e' he
    cases hdeltas.symm.trans he
    exact herror

/-- **WHAT IS READ IS AS DEFINED.** -/
theorem Looks.contentsOf {rep : Representation} {result : Except Error Bytes} (hrep : s.records.view.rep key = some rep)
    (h : s.records.ReadsAs key rep result) :
    (Representation.contentsOf key rep : TrailM σ Bytes).Looks s (fun data => result = .ok data) fun e => result = .error e := by
  cases h with
  | contents hmakes hn hsize hdigest =>
    exact Looks.contentsOf_makes hmakes hn hrep (fun _ => rfl) fun hother => absurd (isOf_iff.2 ⟨hsize, hdigest⟩) hother
  | mismatch hmakes hn hother =>
    exact Looks.contentsOf_makes hmakes hn hrep (fun hof => absurd (isOf_iff.1 hof) hother) fun _ => rfl
  | notRead hlink hn hread =>
    refine Looks.bind (Looks.followChain_notRead hlink hn hread hrep) (fun _ hfound => hfound.elim) ?_
    rintro e rfl
    rfl
  | tooLong hlink hlast hform =>
    refine Looks.bind (Looks.followChain_tooLong hlink hlast hform hrep) (fun _ hfound => hfound.elim) ?_
    rintro e rfl
    rfl
  | badDelta hbreaks hn => exact Looks.contentsOf_breaks hbreaks hn hrep rfl
  | noRoom hbreaks hn => exact Looks.contentsOf_breaks hbreaks hn hrep rfl

/-- The contents under a key are what the chain from there comes to. -/
theorem Looks.readContents {rep : Representation} {result : Except Error Bytes} (hrep : s.records.view.rep key = some rep)
    (h : s.records.ReadsAs key rep result) :
    (readContents key : TrailM σ Bytes).Looks s (fun data => result = .ok data) fun e => result = .error e := by
  refine Looks.bind (Looks.readRep_of_some hrep) ?_ fun _ he => he.elim
  rintro _ rfl
  exact Looks.contentsOf hrep h

end TrailM

/-! ## How much is read -/

namespace TrailM

variable {σ α β : Type} [RecordStore σ]

/-- The computation does nothing but read records, `n` at most. Which ones it reads may depend on those before. -/
inductive ReadsAtMost : (m : TrailM σ α) → (n : Nat) → Prop where
  | pure (a : α) (n : Nat) : ReadsAtMost (Pure.pure a) n
  | throw (e : Error) (n : Nat) : ReadsAtMost (MonadExcept.throw e) n
  | read {key : Key} {f : Option Bytes → TrailM σ α} {n : Nat} (h : ∀ value, ReadsAtMost (f value) n) :
      ReadsAtMost (Trail.read key >>= f) (n + 1)

theorem ReadsAtMost.mono {m : TrailM σ α} {n n' : Nat} (h : m.ReadsAtMost n) (hle : n ≤ n') : m.ReadsAtMost n' := by
  induction h generalizing n' with
  | pure a n => exact .pure a n'
  | throw e n => exact .throw e n'
  | read _ ih =>
    obtain ⟨k, rfl⟩ := Nat.exists_eq_add_of_le' hle
    exact .read fun value => ih value (Nat.le_add_left _ k)

/-- The reads of a sequence add up. -/
theorem ReadsAtMost.bind {m : TrailM σ α} {f : α → TrailM σ β} {n k : Nat} (h : m.ReadsAtMost n)
    (hf : ∀ a, (f a).ReadsAtMost k) : (m >>= f).ReadsAtMost (n + k) := by
  induction h with
  | pure a n =>
    rw [pure_bind]
    exact (hf a).mono (Nat.le_add_left k n)
  | throw e n => exact .throw e (n + k)
  | read _ ih =>
    rw [bind_assoc, Nat.add_right_comm]
    exact .read ih

/-- A result that needs no records is had without a read. -/
theorem ReadsAtMost.ofExcept {ε : Type} (asError : ε → Error) (result : Except ε α) :
    (TrailM.ofExcept asError result : TrailM σ α).ReadsAtMost 0 := by
  cases result with
  | ok a => exact .pure a 0
  | error e => exact .throw (asError e) 0

/-- A representation is had with one read. -/
theorem ReadsAtMost.readRecord [Codec] (key : String) : (readRecord key : TrailM σ Representation).ReadsAtMost 1 := by
  refine .read fun value => ?_
  cases value with
  | none => exact .throw _ 0
  | some stored => exact .ofExcept _ _

/-- One record is read for each delta. -/
theorem ReadsAtMost.followChain [Codec] (head : String) (limit left : Nat) (rep : Representation) :
    (followChain head limit left rep : TrailM σ (Bytes × List (List Delta.Op))).ReadsAtMost left := by
  induction left generalizing rep with
  | zero =>
    unfold Representation.followChain
    cases rep.form with
    | fullText data => exact .pure _ 0
    | delta base ops => exact .throw _ 0
  | succ left ih =>
    unfold Representation.followChain
    cases rep.form with
    | fullText data => exact .pure _ (left + 1)
    | delta base ops =>
      have hreads := (ReadsAtMost.readRecord (σ := σ) base).bind fun baseRep =>
        (ih baseRep).bind (k := 0) fun found => .pure (found.1, ops :: found.2) 0
      exact hreads.mono (Nat.le_of_eq (Nat.add_comm 1 left))

/-- Contents are had with as many reads as the first representation says that there are deltas. -/
theorem ReadsAtMost.contentsOf [Codec] (key : String) (head : Representation) :
    (Representation.contentsOf key head : TrailM σ Bytes).ReadsAtMost head.chainLength := by
  refine (ReadsAtMost.followChain key _ _ head).bind (k := 0) ?_
  rintro ⟨fullText, deltas⟩
  refine (ReadsAtMost.ofExcept _ (applyChain fullText deltas)).bind (k := 0) fun data => ?_
  split
  case isTrue => exact .pure data 0
  case isFalse => exact .throw _ 0

end TrailM

/-! ## The theorem -/

namespace Representation

section AnyCodec

variable [Codec] {σ : Type} [RecordStore σ] [LawfulStore σ]

/-- **CONTENTS ARE READ AS THEY ARE DEFINED**, in a trail over any records, be they missing, damaged, made up or knotted,
    and with any codec. After a representation that can be read, no more records are read than it says that there are
    deltas. If `n` deltas, and no more than it says, lead down to a full text, they fit, and they make contents of the
    length and digest that it records, then these are the contents. If not, there is an error that says what is the first
    thing to be wrong on the way down, or else which of the deltas does not fit, or that the length or the digest is another
    one. A delta that asks for more memory than there can be stops the program, whether its copies fit or not. No record is
    changed, and nothing else can happen, except that the store fails. -/
theorem contents_as_defined {t : Trail σ} (hvalid : LawfulStore.Valid t.store) {key : String} {stored : Bytes}
    {head : Representation} (hfind : t.records.find? (recordKey key) = some stored) (hhead : ofStored stored = .ok head) :
    ((∀ result, (readContents key t).1 = result ↔ t.records.ReadsAs key head result) ∨
        ∃ e, (readContents key t).1 = .error e ∧ e.IsFault σ) ∧
      (readContents key t).2.records = t.records ∧
      (readContents key : TrailM σ Bytes) = readRecord key >>= contentsOf key ∧
      (contentsOf key head : TrailM σ Bytes).ReadsAtMost head.chainLength := by
  have hrep : t.plain.records.view.rep key = some head := Records.view_rep_eq_some.2 ⟨stored, hfind, hhead⟩
  have hdefined : ∀ result, t.records.ReadsAs key head result →
      (readContents key t).1 = result ∨ ∃ e, (readContents key t).1 = .error e ∧ e.IsFault σ := by
    intro result hresult
    refine TrailM.Comes.result (TrailM.Comes.mono (TrailM.Looks.readContents hrep hresult) ?_ ?_) (Trail.over_plain hvalid)
    · exact fun _ _ hq => hq.2
    · exact fun _ _ he => he.2
  refine ⟨Error.result_iff (Records.exists_readsAs hrep) hdefined, ?_, readContents_eq key, .contentsOf key head⟩
  -- reading stages nothing, whether it ends with contents or with an error
  rcases TrailM.Asks.readContents key t hvalid rfl with ⟨_, _, hrun, -, hrecords, -⟩ | ⟨_, _, hrun, -, hrecords⟩
  all_goals
    rw [hrun]
    exact hrecords

/-- The records themselves never fail, so what is read in a trail over them is as defined. -/
theorem readContents_start {records : Records} {key : String} {head : Representation} {result : Except Error Bytes}
    (hrep : records.view.rep key = some head) (h : records.ReadsAs key head result) :
    (readContents key (Trail.start records)).1 = result := by
  have hlooks := TrailM.Looks.readContents (σ := Records) (s := Trail.start records) hrep h
  refine (TrailM.Comes.result (TrailM.Comes.mono hlooks (fun _ _ hq => hq.2) fun _ _ he => he.2)
    (Trail.over_plain trivial)).resolve_right ?_
  rintro ⟨e, -, hfault⟩
  exact Records.not_isFault e hfault

end AnyCodec

/-- A delta on itself, which says that there are two deltas. -/
def Sample.knot : Representation :=
  ⟨0, "", 2, .delta "x" []⟩

/-- It is found out at the third delta. -/
theorem Sample.knot_too_long : ∃ stored, Sample.knot.toStored 3 = .ok stored ∧
    (readContents "x" (Trail.start (SortedMap.empty.insert (recordKey "x") stored : Records))).1 =
      .error (.corrupt (.chainTooLong "x" 2)) := by
  have hstored : Sample.knot.toStored 3 = .ok (Codec.compress 3 Sample.knot.encode) := if_pos (by decide)
  refine ⟨_, hstored, ?_⟩
  generalize Codec.compress 3 Sample.knot.encode = stored at hstored
  have hfind : (Trail.start (SortedMap.empty.insert (recordKey "x") stored : Records)).records.find? (recordKey "x") =
      some stored := (SortedMap.find?_insert ..).trans (if_pos Std.ReflCmp.compare_self)
  have hhead := ofStored_of_toStored hstored
  have hrep := Records.view_rep_eq_some.2 ⟨stored, hfind, hhead⟩
  have hreads := (contents_as_defined trivial hfind hhead).1
  refine (hreads.resolve_right ?_ _).2 (.tooLong (.down hrep rfl (.down hrep rfl (.here "x"))) hrep rfl)
  rintro ⟨e, -, hfault⟩
  exact Records.not_isFault e hfault

/-- Three bytes. -/
def Sample.text : Bytes :=
  [0x61, 0x62, 0x63]

/-- A delta on them that was tampered with: it copies `2 ^ 63` bytes. -/
def Sample.tampered : Representation :=
  ⟨3, Sha256.hexDigest Sample.text, 1, .delta "0" [.copy 0 (2 ^ 63)]⟩

/-- The copy is out of bounds, and applied as it is, the delta would be refused for it. But the program stops before, and
    the records are not found to be corrupt. -/
theorem Sample.tampered_stops :
    Delta.apply Sample.text [.copy 0 (2 ^ 63)] = .error ⟨0, 2 ^ 63, 3⟩ ∧
      ∃ whole tampered, (ofContents Sample.text).toStored 3 = .ok whole ∧ Sample.tampered.toStored 3 = .ok tampered ∧
        (readContents "1" (Trail.start ((SortedMap.empty.insert (recordKey "0") whole).insert (recordKey "1") tampered :
          Records))).1 = .error (.capacity (2 ^ 63)) := by
  have hwhole : (ofContents Sample.text).toStored 3 = .ok (Codec.compress 3 (ofContents Sample.text).encode) :=
    if_pos (fits_of_digest (by decide) (by decide) (by decide))
  have htampered : Sample.tampered.toStored 3 = .ok (Codec.compress 3 Sample.tampered.encode) :=
    if_pos (fits_of_digest (by decide) (by decide) (by decide))
  refine ⟨rfl, _, _, hwhole, htampered, ?_⟩
  generalize Codec.compress 3 (ofContents Sample.text).encode = whole at hwhole
  generalize Codec.compress 3 Sample.tampered.encode = tampered at htampered
  obtain ⟨records, hrecords⟩ : ∃ records : Records,
      records = (SortedMap.empty.insert (recordKey "0") whole).insert (recordKey "1") tampered := ⟨_, rfl⟩
  rw [← hrecords]
  have hbase : records.view.rep "0" = some (ofContents Sample.text) := by
    refine Records.view_rep_eq_some.2 ⟨whole, ?_, ofStored_of_toStored hwhole⟩
    rw [hrecords, SortedMap.find?_insert, if_neg (by decide), SortedMap.find?_insert, if_pos Std.ReflCmp.compare_self]
  have hhead : records.view.rep "1" = some Sample.tampered := by
    refine Records.view_rep_eq_some.2 ⟨tampered, ?_, ofStored_of_toStored htampered⟩
    rw [hrecords, SortedMap.find?_insert, if_pos Std.ReflCmp.compare_self]
  -- the sum of the lengths is refused before the copy is looked at
  have hbreaks : records.view.Breaks "1" 1 (.tooLong (2 ^ 63)) :=
    .here hhead rfl (.fullText hbase rfl) (Delta.rebuild_of_gt (by decide))
  exact readContents_start hhead (.noRoom hbreaks (Nat.le_refl 1))

end Representation

end VersionedTree

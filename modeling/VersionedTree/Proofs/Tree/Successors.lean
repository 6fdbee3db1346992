import Mathlib.Data.Finset.Card
import Mathlib.Data.Finset.Image
import VersionedTree.Proofs.Record.Ids
import VersionedTree.Proofs.Trail.Effects
import VersionedTree.Proofs.Tree.Order

/-!
# Successors — the first id that is free

A successor of a revision gets the next id on its line, or the first fork on which there is nothing yet. The search for
it ends, for whatever ids are taken already: the texts of ids tell them apart, so every fork that is taken is a record of
its own.

* **`NodeId.compare_next`**, **`NodeId.compare_branch`** and **`NodeId.branch_lt_next`** — where the two kinds of
  successors are in the order of ids.
* **`Records.NewSuccessor`** — the id that a new successor gets.
* **`Records.le_size_of_taken`** — so many forks are taken, so many records there are.
* **`Comes.createSuccessor_first`** — the search and the write. **`first_free_successor`** is the theorem for whole runs.
-/

namespace VersionedTree

/-! ## The order of ids -/

namespace NodeId

/-- What two lists begin with does not matter to their order. -/
theorem compare_append_left (common xs ys : List UInt64) :
    compare (common ++ xs) (common ++ ys) = compare xs ys := by
  induction common with
  | nil => rfl
  | cons part common ih =>
    have hself : compare part part = .eq := Std.ReflCmp.compare_self
    rw [List.cons_append, List.cons_append, List.compare_cons_cons, hself, ih]
    rfl

/-- A revision comes before the next one, unless numbers wrap around. -/
theorem compare_revision {revision : UInt64} (h : revision.toNat + 1 < UInt64.size) :
    compare revision (revision + 1) = .lt := by
  refine Std.compare_eq_lt.2 (UInt64.lt_iff_toNat_lt.2 ?_)
  rw [UInt64.toNat_add, UInt64.toNat_one, Nat.mod_eq_of_lt h]
  exact Nat.lt_succ_self _

/-- The next revision on a line is greater. -/
theorem compare_next {id : NodeId} (h : id.revision.toNat + 1 < UInt64.size) : compare id id.next = .lt := by
  show compare id.parts id.next.parts = .lt
  rw [parts_eq_line, parts_next, compare_append_left, List.compare_cons_cons, compare_revision h]
  rfl

/-- A fork of a revision is greater. -/
theorem compare_branch (id : NodeId) (B : UInt64) : compare id (id.branch B) = .lt := by
  have hnil : compare (id.parts ++ []) (id.parts ++ [B, 1]) = .lt := compare_append_left _ _ _
  rwa [List.append_nil] at hnil

/-- **FORKS COME FIRST**: all of them are between a revision and the next one on its line. -/
theorem branch_lt_next {id : NodeId} (h : id.revision.toNat + 1 < UInt64.size) (B : UInt64) :
    compare (id.branch B) id.next = .lt := by
  show compare (id.branch B).parts id.next.parts = .lt
  rw [parts_branch, parts_eq_line, parts_next, List.append_assoc, compare_append_left, List.singleton_append,
    List.compare_cons_cons, compare_revision h]
  rfl

/-- An id comes before its successors, unless numbers wrap around. -/
theorem IsSuccessor.compare_eq {base id : NodeId} (h : base.IsSuccessor id)
    (hrevision : base.revision.toNat + 1 < UInt64.size) : compare base id = .lt := by
  rcases h with rfl | ⟨B, rfl⟩
  · exact compare_next hrevision
  · exact compare_branch base B

end NodeId

/-! ## Ids that are free -/

namespace Records

/-- True of an id under which there is no record. -/
def Free (records : Records) (id : NodeId) : Prop :=
  records.find? (NodeRecord.key id) = none

/-- True of the id that a new successor gets: the next id on the line if it is free, and else the first fork that is. -/
inductive NewSuccessor (records : Records) (base : NodeId) : NodeId → Prop where
  | next (hfree : records.Free base.next) : NewSuccessor records base base.next
  | fork {B : UInt64} (htaken : ¬ records.Free base.next) (hpos : 1 ≤ B) (hfree : records.Free (base.branch B))
      (hfirst : ∀ C, 1 ≤ C → C < B → ¬ records.Free (base.branch C)) : NewSuccessor records base (base.branch B)

variable {records : Records} {base id : NodeId}

/-- The id of a new successor was free. -/
theorem NewSuccessor.free (h : records.NewSuccessor base id) : records.Free id := by
  cases h with
  | next hfree => exact hfree
  | fork _ _ hfree _ => exact hfree

/-- The id of a new successor is one of a successor. -/
theorem NewSuccessor.isSuccessor (h : records.NewSuccessor base id) : base.IsSuccessor id := by
  cases h with
  | next => exact .inl rfl
  | fork => exact .inr ⟨_, rfl⟩

/-- The id is determined by the records. -/
theorem NewSuccessor.unique {id' : NodeId} (h : records.NewSuccessor base id) (h' : records.NewSuccessor base id') :
    id = id' := by
  cases h with
  | next hfree =>
    cases h' with
    | next => rfl
    | fork htaken => exact absurd hfree htaken
  | fork htaken hpos hfree hfirst =>
    cases h' with
    | next hfree' => exact absurd hfree' htaken
    | fork _ hpos' hfree' hfirst' =>
      -- neither is before the other one, since both are free
      have hle := UInt64.not_lt.1 fun hlt => hfirst _ hpos' hlt hfree'
      have hge := UInt64.not_lt.1 fun hlt => hfirst' _ hpos hlt hfree
      rw [UInt64.le_antisymm hle hge]

/-- The ids that are tried for a successor, in order: the next one, and the forks from 1 on. -/
def candidate (base : NodeId) : Nat → NodeId
  | 0 => base.next
  | n + 1 => base.branch (.ofNat (n + 1))

/-- The candidates after the first are branches. -/
theorem candidate_of_pos {n : Nat} (h : 1 ≤ n) : candidate base n = base.branch (.ofNat n) := by
  cases n with
  | zero => exact nomatch h
  | succ n => rfl

/-- The next id of a line is on no branch of it. -/
theorem next_ne_branch (base : NodeId) (B : UInt64) : base.next ≠ base.branch B := by
  intro h
  have hlength := congrArg (fun id => id.parts.length) h
  simp only [NodeId.parts_next, NodeId.parts_branch, NodeId.parts_eq_line base, List.length_append,
    List.length_cons, List.length_nil] at hlength
  omega

/-- No two candidates are the same, as long as their numbers fit. -/
theorem candidate_inj {n m : Nat} (hn : n < UInt64.size) (hm : m < UInt64.size)
    (h : candidate base n = candidate base m) : n = m := by
  cases n with
  | zero =>
    cases m with
    | zero => rfl
    | succ m => exact absurd h (next_ne_branch base _)
  | succ n =>
    cases m with
    | zero => exact absurd h.symm (next_ne_branch base _)
    | succ m =>
      have hnumber : UInt64.ofNat (n + 1) = UInt64.ofNat (m + 1) := (NodeId.fork.inj h).2.1
      have htoNat := congrArg UInt64.toNat hnumber
      rwa [UInt64.toNat_ofNat_of_lt' hn, UInt64.toNat_ofNat_of_lt' hm] at htoNat

/-- **TAKEN IDS ARE COUNTED BY RECORDS.** If the next id and all forks below `n` are taken, there are `n` records. -/
theorem le_size_of_taken {n : Nat} (hn : n ≤ UInt64.size) (h : ∀ m < n, ¬ records.Free (candidate base m)) :
    n ≤ records.size := by
  have hinj : Set.InjOn (fun m => NodeRecord.key (candidate base m)) (Finset.range n) := by
    intro m hm m' hm' heq
    have hlt := Finset.mem_range.1 (Finset.mem_coe.1 hm)
    have hlt' := Finset.mem_range.1 (Finset.mem_coe.1 hm')
    exact candidate_inj (Nat.lt_of_lt_of_le hlt hn) (Nat.lt_of_lt_of_le hlt' hn) (NodeRecord.key_inj.1 heq)
  have htaken : ∀ key ∈ (Finset.range n).image fun m => NodeRecord.key (candidate base m),
      records.find? key ≠ none := by
    intro key hkey
    obtain ⟨m, hm, rfl⟩ := Finset.mem_image.1 hkey
    exact h m (Finset.mem_range.1 hm)
  calc n = ((Finset.range n).image fun m => NodeRecord.key (candidate base m)).card := by
        rw [Finset.card_image_of_injOn hinj, Finset.card_range]
    _ ≤ records.size := SortedMap.card_le_size htaken

/-- The first candidate that is free is the id of a new successor. -/
theorem newSuccessor_candidate {n : Nat} (hn : n < UInt64.size) (hfree : records.Free (candidate base n))
    (htaken : ∀ m < n, ¬ records.Free (candidate base m)) : records.NewSuccessor base (candidate base n) := by
  cases n with
  | zero => exact .next hfree
  | succ n =>
    have htoNat : (UInt64.ofNat (n + 1)).toNat = n + 1 := UInt64.toNat_ofNat_of_lt' hn
    refine .fork (htaken 0 (Nat.succ_pos n)) ?_ hfree ?_
    · rw [UInt64.le_iff_toNat_le, htoNat, UInt64.toNat_one]
      exact Nat.succ_pos n
    · intro C hpos hlt
      have hpos' : 1 ≤ C.toNat := UInt64.le_iff_toNat_le.1 hpos
      have hC : candidate base C.toNat = base.branch C := by
        rw [candidate_of_pos hpos', UInt64.ofNat_toNat]
      rw [← hC]
      refine htaken C.toNat ?_
      rwa [UInt64.lt_iff_toNat_lt, htoNat] at hlt

end Records

/-! ## The search -/

namespace TrailM

variable {σ : Type} [RecordStore σ] [LawfulStore σ] {s : Trail Records} {base : NodeId}

open Records (candidate)

/-- An id is found to be taken just if it is not free. -/
theorem Looks.isTaken (id : NodeId) :
    (NodeRecord.isTaken id : TrailM σ Bool).Looks s (fun taken => taken = true ↔ ¬ s.records.Free id)
      fun _ => False := by
  refine Looks.mono (Looks.contains (NodeRecord.key id)) ?_ fun _ he => he
  rintro taken rfl
  rw [Option.isSome_iff_ne_none]
  rfl

/-- The search from fork `n` on comes to the first one that is free, if it has as many steps as it takes. -/
theorem Looks.freeFork {m : Nat} (hfree : s.records.Free (candidate base m)) :
    ∀ {steps n : Nat}, 1 ≤ n → n ≤ m → m < n + steps → (∀ i, n ≤ i → i < m → ¬ s.records.Free (candidate base i)) →
      (NodeRecord.freeFork base steps (.ofNat n) : TrailM σ NodeId).Looks s (fun id => id = candidate base m)
        fun _ => False
  | 0, n, _, hle, hlt, _ => absurd hle (Nat.not_le_of_lt hlt)
  | steps + 1, n, hpos, hle, hlt, htaken => by
    rw [NodeRecord.freeFork, ← Records.candidate_of_pos hpos]
    refine Looks.bind (Looks.isTaken _) ?_ fun _ he => he
    rintro taken hiff
    by_cases hhere : n = m
    case pos =>
      rw [if_neg fun h => hiff.1 h (hhere ▸ hfree), hhere]
      exact Looks.pure rfl
    case neg =>
      have hnext : n < m := Nat.lt_of_le_of_ne hle hhere
      have hsucc : UInt64.ofNat n + 1 = UInt64.ofNat (n + 1) := (UInt64.ofNat_add n 1).symm
      rw [if_pos (hiff.2 (htaken n (Nat.le_refl n) hnext)), hsucc]
      refine Looks.freeFork hfree (Nat.le_add_left 1 n) hnext (by omega) fun i hi => ?_
      exact htaken i (Nat.le_of_succ_le hi)

/-- **THE FIRST CANDIDATE** that is free is found, since there are more steps than records. -/
theorem Looks.successorId {m : Nat} (hm : m < UInt64.size) (hfree : s.records.Free (candidate base m))
    (htaken : ∀ i < m, ¬ s.records.Free (candidate base i)) :
    (NodeRecord.successorId base : TrailM σ NodeId).Looks s (fun id => id = candidate base m) fun _ => False := by
  refine Looks.bind (Looks.isTaken base.next) ?_ fun _ he => he
  intro taken hiff
  by_cases hhere : m = 0
  case pos =>
    subst hhere
    rw [if_neg fun h => hiff.1 h hfree]
    exact Looks.pure rfl
  case neg =>
    have hpos : 1 ≤ m := Nat.pos_of_ne_zero hhere
    rw [if_pos (hiff.2 (htaken 0 hpos))]
    refine Looks.bind Looks.bound ?_ fun _ he => he
    intro bound hbound
    have hsize : m ≤ bound :=
      calc m ≤ s.records.size := Records.le_size_of_taken (Nat.le_of_lt hm) htaken
        _ ≤ s.staged.size + s.store.size := s.size_records_le
        _ ≤ bound := hbound
    exact Looks.freeFork hfree (Nat.le_refl 1) hpos (by omega) fun i _ hi => htaken i hi

/-- The search and the write. -/
theorem Comes.createSuccessor_first {m : Nat} (hm : m < UInt64.size) (hfree : s.records.Free (candidate base m))
    (htaken : ∀ i < m, ¬ s.records.Free (candidate base i)) (node : NodeRevision) :
    (NodeRecord.createSuccessor base node : TrailM σ NodeId).Comes s
      (fun id s' => id = candidate base m ∧ s' = s.stage (NodeRecord.key id) (some (NodeRecord.encode node)))
      fun _ _ => False := by
  refine Comes.after (Looks.successorId hm hfree htaken) ?_ fun _ he => he
  rintro id rfl
  exact Comes.andThen (Stages.put _ _) fun _ => Comes.pure ⟨rfl, rfl⟩

end TrailM

/-! ## The theorem -/

namespace NodeRecord

variable {σ : Type} [RecordStore σ] [LawfulStore σ]

/-- **A SUCCESSOR GETS THE FIRST ID THAT IS FREE**, and no record is written over. In a trail over any records, the id of
    a new successor is the next one on the line if there is no record under it, and else the fork with the least number
    under which there is none. The record under it is then the text of the node revision, and every other record of every
    table is what it was. The id is one of the same node and comes after the one that it succeeds; forks come before the
    next revision on the line. It can only be otherwise if the store fails, which changes no record, or if there is no id
    left, with as many records as there are numbers of forks. -/
theorem first_free_successor {t : Trail σ} (hvalid : LawfulStore.Valid t.store) {base : NodeId}
    (hbase : base.revision.toNat + 1 < UInt64.size) (node : NodeRevision) :
    (∃ id t', createSuccessor base node t = (.ok id, t') ∧ t.records.NewSuccessor base id ∧
        t.records.find? (key id) = none ∧
        (∀ k, t'.records.find? k = if k = key id then some (encode node) else t.records.find? k) ∧
        id.node = base.node ∧ id.parts.length % 2 = 0 ∧ compare base id = .lt ∧
        ∀ B, compare (base.branch B) base.next = .lt) ∨
      (∃ e t', createSuccessor base node t = (.error e, t') ∧ e.IsFault σ ∧ t'.records = t.records) ∨
      (¬ t.records.Free base.next ∧ (∀ B, 1 ≤ B → ¬ t.records.Free (base.branch B)) ∧
        UInt64.size ≤ t.records.size) := by
  by_cases hleft : ∃ m, m < UInt64.size ∧ t.records.Free (Records.candidate base m)
  case pos =>
    classical
    obtain ⟨hm, hfree⟩ := Nat.find_spec hleft
    have htaken : ∀ i < Nat.find hleft, ¬ t.records.Free (Records.candidate base i) := by
      intro i hi hfree'
      exact Nat.find_min hleft hi ⟨Nat.lt_trans hi hm, hfree'⟩
    have hnew := Records.newSuccessor_candidate hm hfree htaken
    have hcomes := TrailM.Comes.createSuccessor_first (σ := σ) (s := t.plain) hm hfree htaken node
    rcases hcomes t (Trail.over_plain hvalid) with ⟨id, t', s', hrun, hover, rfl, rfl⟩ | ⟨e, t', s', hrun, hover, he⟩
    · refine .inl ⟨_, t', hrun, hnew, hfree, ?_, hnew.isSuccessor.node_eq, NodeId.even_length_parts _,
        hnew.isSuccessor.compare_eq hbase, NodeId.branch_lt_next hbase⟩
      intro k
      rw [hover.records, Trail.find?_records_stage, Trail.records_plain]
    · -- the store fails while the id is looked for, before anything is put
      have hfault := he.resolve_right id
      rcases TrailM.Yields.createSuccessor base node t hvalid rfl with ⟨_, _, hok, -⟩ | ⟨_, _, herror, -, hrecords⟩
      · cases hok.symm.trans hrun
      · cases herror.symm.trans hrun
        exact .inr (.inl ⟨e, t', hrun, hfault, hrecords⟩)
  case neg =>
    have htaken : ∀ m < UInt64.size, ¬ t.records.Free (Records.candidate base m) := fun m hm hfree => hleft ⟨m, hm, hfree⟩
    refine .inr (.inr ⟨htaken 0 (by decide), fun B hpos => ?_, Records.le_size_of_taken (Nat.le_refl _) htaken⟩)
    have hB := htaken B.toNat B.toNat_lt
    rwa [Records.candidate_of_pos (UInt64.le_iff_toNat_le.1 hpos), UInt64.ofNat_toNat] at hB

/-- A root directory with a next revision and a fork already. -/
def Sample.forked : Trail Records :=
  Trail.start (Records.applyBatch .empty
    [.put (key .root) (encode .emptyDir), .put (key (.first 0 1)) (encode .emptyDir),
      .put (key (.fork .root 1 1)) (encode .emptyDir)])

/-- Its next successor is on fork 2, and the fork that was there is what it was. -/
theorem Sample.third_successor : ∃ t', createSuccessor .root (.newMutable .dir "0") forked = (.ok (.fork .root 2 1), t') ∧
    t'.records.find? (key (.fork .root 2 1)) = some (encode (.newMutable .dir "0")) ∧
    t'.records.find? (key (.fork .root 1 1)) = some (encode .emptyDir) := by
  have hfree : forked.records.Free (NodeId.root.branch 2) := by rfl
  have hfork : forked.records.find? (key (.fork .root 1 1)) = some (encode .emptyDir) := by rfl
  have hnext : ¬ forked.records.Free NodeId.root.next := fun h => Option.some_ne_none (encode .emptyDir) h
  have hone : ¬ forked.records.Free (NodeId.root.branch 1) := fun h => Option.some_ne_none _ (hfork.symm.trans h)
  have hroot : NodeId.root.revision.toNat + 1 < UInt64.size := by decide
  rcases first_free_successor (t := forked) trivial hroot (.newMutable .dir "0") with
    ⟨id, t', hrun, hnew, -, hrecords, -⟩ | ⟨e, -, -, hfault, -⟩ | ⟨-, htaken, -⟩
  · have hid : id = .fork .root 2 1 := by
      refine hnew.unique (.fork hnext (by decide) hfree ?_)
      intro C hpos hlt
      have hpos' : 1 ≤ C.toNat := UInt64.le_iff_toNat_le.1 hpos
      have hlt' : C.toNat < 2 := UInt64.lt_iff_toNat_lt.1 hlt
      obtain rfl : C = 1 := UInt64.toNat_inj.1 (Nat.le_antisymm (Nat.le_of_lt_succ hlt') hpos')
      exact hone
    subst hid
    refine ⟨t', hrun, (hrecords _).trans (if_pos rfl), ?_⟩
    rw [hrecords, if_neg (by decide)]
    exact hfork
  · exact absurd hfault (Records.not_isFault e)
  · exact absurd hfree (htaken 2 (by decide))

end NodeRecord

end VersionedTree

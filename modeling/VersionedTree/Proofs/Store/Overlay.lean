import VersionedTree.Proofs.Store.Lawful

/-!
# Overlays — the records as a trail sees them

The writes that are staged in a trail lie over the records of the store.

* **`Trail.records`** — what is seen through the writes. A read gives a record of these, or fails (**`read_cases`**), and
  staging a write changes them as the write says (**`records_stage`**).
* **`complete_cases`** — they are what a complete trail leaves in the store; a trail that fails leaves everything as it
  was.
-/

namespace VersionedTree

open Std

namespace Records

/-- A batch of writes to different keys gives each key its write, and leaves the others alone. -/
theorem find?_applyBatch {pairs : List (Key × Option Bytes)}
    (hsorted : pairs.Pairwise fun p q => compare p.1 q.1 = .lt) (records : Records) (key : Key) :
    (records.applyBatch (pairs.map Trail.write)).find? key =
      (SortedMap.findIn key pairs).getD (records.find? key) := by
  induction pairs generalizing records with
  | nil => rfl
  | cons pair pairs ih =>
    obtain ⟨key', value⟩ := pair
    obtain ⟨hlt, hrest⟩ := List.pairwise_cons.1 hsorted
    show ((records.applyWrite (Trail.write (key', value))).applyBatch (pairs.map Trail.write)).find? key = _
    rw [ih hrest, SortedMap.findIn]
    by_cases hkey : key = key'
    · -- the keys are different, so no later write is for this one
      subst hkey
      have hself : compare key key = .eq := ReflCmp.compare_self
      rw [SortedMap.findIn_eq_none_of_lt hlt, hself]
      cases value with
      | none => exact (find?_delete records key key).trans (if_pos rfl)
      | some value => exact (find?_put records key value key).trans (if_pos rfl)
    · have hother : key ≠ (Trail.write (key', value)).key := by
        cases value with
        | none => exact hkey
        | some value => exact hkey
      rw [find?_applyWrite_of_ne hother]
      split
      case h_1 heq => exact absurd (LawfulEqOrd.eq_of_compare heq) hkey
      case h_2 => rfl

end Records

namespace Trail

variable {σ α : Type} [RecordStore σ]

/-- What is staged is read, and if nothing is, the store. -/
theorem read_eq (t : Trail σ) (key : Key) :
    read key t = match t.staged.find? key with
      | some value => (.ok value, t)
      | none => ((RecordStore.read t.store key).1.mapError .storage,
          { t with store := (RecordStore.read t.store key).2 }) := rfl

variable [LawfulStore σ]

/-- The records as they are seen in a trail: those of the store, with the staged writes applied. -/
def records (t : Trail σ) : Records :=
  (LawfulStore.records t.store).applyBatch t.batch

/-- A staged write is seen, and elsewhere the store. -/
theorem find?_records (t : Trail σ) (key : Key) :
    t.records.find? key = (t.staged.find? key).getD ((LawfulStore.records t.store).find? key) :=
  Records.find?_applyBatch t.staged.sorted _ key

/-- A write that is staged is shown under its key, and nothing else has changed. -/
theorem find?_records_stage (t : Trail σ) (key : Key) (value : Option Bytes) (key' : Key) :
    (t.stage key value).records.find? key' = if key' = key then value else t.records.find? key' := by
  rw [find?_records, find?_records]
  show ((t.staged.insert key value).find? key').getD _ = _
  rw [SortedMap.find?_insert]
  by_cases h : key' = key
  · subst h
    rw [if_pos rfl, if_pos ReflCmp.compare_self, Option.getD_some]
  · rw [if_neg fun heq => h (LawfulEqOrd.eq_of_compare heq), if_neg h]
    rfl

/-- A trail with one more write shows what the write does to its records. -/
theorem records_stage (t : Trail σ) (key : Key) (value : Option Bytes) :
    (t.stage key value).records = t.records.applyWrite (write (key, value)) := by
  refine SortedMap.ext fun key' => ?_
  rw [find?_records_stage]
  cases value with
  | none => exact (Records.find?_delete _ _ _).symm
  | some value => exact (Records.find?_put _ _ _ _).symm

/-- A read in a trail gives the record as the trail sees it, or fails; it changes no record, neither of the trail nor of
    the store. -/
theorem read_cases {t : Trail σ} (h : LawfulStore.Valid t.store) (key : Key) :
    ∃ t' : Trail σ, LawfulStore.Valid t'.store ∧ LawfulStore.records t'.store = LawfulStore.records t.store ∧
      t'.records = t.records ∧
      (read key t = (.ok (t.records.find? key), t') ∨
        LawfulStore.Fallible σ ∧ ∃ e, read key t = (.error (.storage e), t')) := by
  cases hstaged : t.staged.find? key with
  | some value =>
    refine ⟨t, h, rfl, rfl, .inl ?_⟩
    rw [find?_records, read_eq, hstaged]
    rfl
  | none =>
    obtain ⟨store', hvalid, hrecords, hread⟩ := LawfulStore.read_cases h key
    -- reading may change the state of the store, but not its records
    have hsame : ({ t with store := store' } : Trail σ).records = t.records := by
      show (LawfulStore.records store').applyBatch t.batch = _
      rw [hrecords]
      rfl
    refine ⟨{ t with store := store' }, hvalid, hrecords, hsame, ?_⟩
    rcases hread with hread | ⟨hfallible, e, hread⟩
    · refine .inl ?_
      rw [find?_records, read_eq, hstaged, hread]
      rfl
    · refine .inr ⟨hfallible, e, ?_⟩
      rw [read_eq, hstaged, hread]
      rfl

/-- A trail that is complete leaves in the store what was seen in it. One that fails, or cannot be completed, changes
    nothing. -/
theorem complete_cases {t : Trail σ} (h : LawfulStore.Valid t.store) (result : Except Error α) :
    ∃ store', LawfulStore.Valid store' ∧
      ((∃ a, result = .ok a ∧ t.complete result = (.ok a, store') ∧ LawfulStore.records store' = t.records) ∨
        ∃ e, t.complete result = (.error e, store') ∧ LawfulStore.records store' = LawfulStore.records t.store ∧
          (result = .error e ∨ LawfulStore.Fallible σ ∧ ∃ cause, e = .storage cause)) := by
  cases result with
  | error e => exact ⟨t.store, h, .inr ⟨e, rfl, rfl, .inl rfl⟩⟩
  | ok a =>
    obtain ⟨store', hvalid, happly⟩ := LawfulStore.apply_cases h t.batch
    rcases happly with ⟨happly, hrecords⟩ | ⟨hfallible, e, happly, hrecords⟩
    · refine ⟨store', hvalid, .inl ⟨a, rfl, ?_, hrecords⟩⟩
      simp only [complete, happly]
    · refine ⟨store', hvalid, .inr ⟨.storage e, ?_, hrecords, .inr ⟨hfallible, e, rfl⟩⟩⟩
      simp only [complete, happly]

end Trail

end VersionedTree

import Mathlib.Data.List.Dedup
import Mathlib.Data.List.Induction
import VersionedTree.Proofs.Store.Overlay

/-!
# Immediate writes — a trail answers as if its writes were made already

A trail keeps its writes to itself until it is complete. Nothing that is asked of the trail shows this: every answer is
the one that the store would give after the same writes, made one by one. And of the writes to one record only the last
is kept, which makes no difference to any store, in whatever order the writes that were kept are made.

* **`Trail.Call`** and **`Trail.Body`** — what can be asked of a trail, and a computation that asks, one call after the
  other, each call depending on the replies so far.
* **`Trail.Holds`** — the invariant: what a trail has staged is determined by the writes that were made in it.
  **`Call.perform_cases`** says what one call does, **`Holds.after`** what any number of calls does.
* **`applyBatch_staging`** and **`applyBatch_perm`** — the writes that were kept do what all writes do, in any order.
* **`Trail.acts_at_once`** — all of it for whole trails.
-/

namespace VersionedTree

open Std

/-! ## Writes to records -/

/-- The value that a write leaves, if it leaves any. -/
def Write.value : Write → Option Bytes
  | .put _ value => some value
  | .delete _ => none

/-- A write is made of its key and its value. -/
@[simp] theorem Trail.write_key_value (w : Write) : write (w.key, w.value) = w := by
  cases w <;> rfl

/-- The write of a pair is to its key. -/
@[simp] theorem Trail.key_write (pair : Key × Option Bytes) : (write pair).key = pair.1 := by
  rcases pair with ⟨key, _ | value⟩ <;> rfl

namespace Records

/-- A write changes the record under its key, and no other. -/
theorem find?_applyWrite (records : Records) (w : Write) (key : Key) :
    (records.applyWrite w).find? key = if key = w.key then w.value else records.find? key := by
  cases w with
  | put key' value => exact find?_put records key' value key
  | delete key' => exact find?_delete records key' key

/-- Writes to different keys can be exchanged. -/
theorem applyWrite_comm {w w' : Write} (h : w.key ≠ w'.key) (records : Records) :
    (records.applyWrite w).applyWrite w' = (records.applyWrite w').applyWrite w := by
  refine SortedMap.ext fun key => ?_
  simp only [find?_applyWrite]
  by_cases hkey : key = w.key
  · rw [if_pos hkey, if_neg fun h' => h (hkey.symm.trans h'), if_pos hkey]
  · rw [if_neg hkey, if_neg hkey]

/-- **THE ORDER OF WRITES** to different keys does not matter. -/
theorem applyBatch_perm {batch order : List Write} (hbatch : (batch.map Write.key).Nodup) (h : order.Perm batch)
    (records : Records) : records.applyBatch order = records.applyBatch batch := by
  refine h.foldl_eq' (fun w hw w' hw' records => ?_) records
  by_cases heq : w = w'
  case pos => rw [heq]
  case neg =>
    refine applyWrite_comm (fun hkey => heq ?_) records
    exact List.inj_on_of_nodup_map hbatch (h.mem_iff.1 hw) (h.mem_iff.1 hw') hkey

end Records

/-! ## Keys of a map -/

namespace SortedMap

variable {κ α : Type} [Ord κ] [LawfulEqOrd κ]

/-- A map has every key once. -/
theorem nodup_keys (m : SortedMap κ α) : (m.pairs.map Prod.fst).Nodup := by
  refine List.pairwise_map.2 (m.sorted.imp fun {p q} hlt heq => ?_)
  have hself : compare p.1 p.1 = .eq := ReflCmp.compare_self
  rw [← heq, hself] at hlt
  exact nomatch hlt

/-- A map has the keys that have values in it. -/
theorem mem_keys_iff {m : SortedMap κ α} {k : κ} : k ∈ m.pairs.map Prod.fst ↔ m.find? k ≠ none := by
  show _ ↔ findIn k m.pairs ≠ none
  induction m.pairs with
  | nil => simp [findIn]
  | cons p pairs ih =>
    obtain ⟨k', a⟩ := p
    rw [List.map_cons, List.mem_cons, ih, findIn]
    split
    case h_1 heq => simp [LawfulEqOrd.eq_of_compare heq]
    case h_2 hne => simp [show k ≠ k' from fun heq => hne (heq ▸ ReflCmp.compare_self)]

end SortedMap

namespace Trail

/-! ## Calls -/

/-- What can be asked of a trail. -/
inductive Call where
  | get (key : Key)
  | contains (key : Key)
  | put (key : Key) (value : Bytes)
  | delete (key : Key)
  | pending
deriving DecidableEq

/-- What a trail replies. -/
inductive Reply where
  | record (result : Except Error (Option Bytes))
  | truth (result : Except Error Bool)
  | number (n : Nat)
  | done

/-- The write that is made by a call, if any. -/
def Call.write? : Call → Option Write
  | .put key value => some (.put key value)
  | .delete key => some (.delete key)
  | .get _ | .contains _ | .pending => none

/-- The writes that are made by some calls, in order. -/
def writes (calls : List Call) : List Write :=
  calls.filterMap Call.write?

/-- The writes of a number of calls are those of the first and then those of the others. -/
theorem writes_cons (call : Call) (calls : List Call) : writes (call :: calls) = call.write?.toList ++ writes calls := by
  rw [writes, List.filterMap_cons]
  cases call.write? <;> rfl

/-- What a store of these records would reply, after the writes of a history were made to it one by one. -/
def Call.answer (records : Records) (history : List Write) : Call → Reply
  | .get key => .record (.ok ((records.applyBatch history).find? key))
  | .contains key => .truth (.ok ((records.applyBatch history).find? key).isSome)
  | .put _ _ | .delete _ => .done
  | .pending => .number (history.map Write.key).dedup.length

/-- True of a reply that says that the store failed to read a record, one that was not written before. -/
inductive Call.Failed (history : List Write) : Call → Reply → Prop where
  | get {key : Key} (e : StorageError) (h : key ∉ history.map Write.key) :
      Failed history (.get key) (.record (.error (.storage e)))
  | contains {key : Key} (e : StorageError) (h : key ∉ history.map Write.key) :
      Failed history (.contains key) (.truth (.error (.storage e)))

section Performing

variable {σ α : Type} [RecordStore σ]

/-- The reply of a trail to a call, and the trail after it. -/
def Call.perform (call : Call) (t : Trail σ) : Reply × Trail σ :=
  match call with
  | .get key => (.record (Trail.read key t).1, (Trail.read key t).2)
  | .contains key => (.truth (Trail.contains key t).1, (Trail.contains key t).2)
  | .put key value => (.done, (Trail.put key value t).2)
  | .delete key => (.done, (Trail.delete key t).2)
  | .pending => (.number t.pending, t)

/-- The trail after some calls. -/
def after (t : Trail σ) (calls : List Call) : Trail σ :=
  calls.foldl (fun t call => (call.perform t).2) t

/-- A computation that makes calls on a trail and knows no other way to it. -/
inductive Body (α : Type) where
  | finish (result : Except Error α)
  | call (call : Call) (next : Reply → Body α)

namespace Body

/-- A body as a computation in a trail. -/
def run : Body α → TrailM σ α
  | finish result => TrailM.ofResult result
  | call c next => ExceptT.mk fun t => (next (c.perform t).1).run (c.perform t).2

/-- The calls that a body makes on a trail. -/
def calls : Body α → Trail σ → List Call
  | finish _, _ => []
  | call c next, t => c :: (next (c.perform t).1).calls (c.perform t).2

/-- The result of a body whose writes take effect at once, and all writes that were made by then. -/
def direct (records : Records) : Body α → List Write → Except Error α × List Write
  | finish result, history => (result, history)
  | call c next, history => (next (c.answer records history)).direct records (history ++ c.write?.toList)

/-- A body leaves the trail as its calls do. -/
theorem run_snd (body : Body α) (t : Trail σ) : (body.run t).2 = t.after (body.calls t) := by
  induction body generalizing t with
  | finish result => cases result <;> rfl
  | call c next ih => exact ih _ _

end Body

/-- Asking for a record is reading it. -/
theorem contains_eq (t : Trail σ) (key : Key) :
    contains key t = ((read key t).1.map Option.isSome, (read key t).2) := by
  show ExceptT.bindCont (fun value => pure value.isSome : Option Bytes → TrailM σ Bool) (read key t).1 (read key t).2 = _
  cases (read key t).1 <;> rfl

/-- Reading stages nothing. -/
theorem staged_read (t : Trail σ) (key : Key) : (read key t).2.staged = t.staged := by
  rw [read_eq]
  split <;> rfl

end Performing

/-! ## What is staged -/

/-- What is staged after some writes. -/
def staging (history : List Write) : SortedMap Key (Option Bytes) :=
  history.foldl (fun staged w => staged.insert w.key w.value) .empty

/-- One more write takes the place of what was staged under its key. -/
theorem staging_append (history : List Write) (w : Write) :
    staging (history ++ [w]) = (staging history).insert w.key w.value := by
  rw [staging, List.foldl_append]
  rfl

/-- A key is staged if it was ever written. -/
theorem mem_keys_staging {history : List Write} {key : Key} :
    key ∈ (staging history).pairs.map Prod.fst ↔ key ∈ history.map Write.key := by
  induction history using List.reverseRecOn with
  | nil => rfl
  | append_singleton history w ih =>
    rw [SortedMap.mem_keys_iff] at ih
    rw [SortedMap.mem_keys_iff, staging_append, SortedMap.find?_insert, List.map_append, List.mem_append, ← ih]
    by_cases hkey : key = w.key
    case pos => simp [hkey, ReflCmp.compare_self]
    case neg => simp [hkey, show compare key w.key ≠ .eq from fun heq => hkey (LawfulEqOrd.eq_of_compare heq)]

/-- One write is staged for every key that was written. -/
theorem length_staging (history : List Write) :
    (staging history).pairs.length = (history.map Write.key).dedup.length := by
  have hperm : ((staging history).pairs.map Prod.fst).Perm (history.map Write.key).dedup :=
    (List.perm_ext_iff_of_nodup (SortedMap.nodup_keys _) (List.nodup_dedup _)).2 fun key => by
      rw [mem_keys_staging, List.mem_dedup]
  rw [← hperm.length_eq, List.length_map]

/-- **THE LAST WRITE TO EACH KEY** does to any records what all writes do. -/
theorem applyBatch_staging (records : Records) (history : List Write) :
    records.applyBatch ((staging history).pairs.map write) = records.applyBatch history := by
  induction history using List.reverseRecOn with
  | nil => rfl
  | append_singleton history w ih =>
    have hstage := records_stage (⟨records, staging history⟩ : Trail Records) w.key w.value
    rw [write_key_value] at hstage
    rw [staging_append, Records.applyBatch, Records.applyBatch, List.foldl_append]
    exact hstage.trans (congrArg (Records.applyWrite · w) ih)

/-! ## Trails after some writes -/

variable {σ α : Type} [RecordStore σ] [LawfulStore σ]

/-- True of a trail over a store of the same records as `s`, in which the writes of a history were made. -/
structure Holds (s : σ) (history : List Write) (t : Trail σ) : Prop where
  valid : LawfulStore.Valid t.store
  store : LawfulStore.records t.store = LawfulStore.records s
  staged : t.staged = staging history

/-- A trail that starts has no history. -/
theorem holds_start {s : σ} (h : LawfulStore.Valid s) : Holds s [] (start s) :=
  ⟨h, rfl, rfl⟩

variable {s : σ} {history : List Write} {t : Trail σ}

/-- A trail shows the records of its store after all writes of its history. -/
theorem Holds.records (h : Holds s history t) : t.records = (LawfulStore.records s).applyBatch history := by
  rw [Trail.records, h.store, batch, h.staged, applyBatch_staging]

/-- The batch has the keys that are staged. -/
theorem Holds.key_batch (h : Holds s history t) : t.batch.map Write.key = (staging history).pairs.map Prod.fst := by
  rw [batch, h.staged, List.map_map]
  exact List.map_congr_left fun pair _ => key_write pair

/-- One more write is added to the history. -/
theorem Holds.stage (h : Holds s history t) (w : Write) : Holds s (history ++ [w]) (t.stage w.key w.value) where
  valid := h.valid
  store := h.store
  staged := by
    rw [staging_append, ← h.staged]
    rfl

/-- A read gives what is there after all writes. It can fail only in the store, which is not asked for a key that was
    written. -/
theorem Holds.read (h : Holds s history t) (key : Key) :
    ∃ t', Holds s history t' ∧
      (Trail.read key t = (.ok (((LawfulStore.records s).applyBatch history).find? key), t') ∨
        LawfulStore.Fallible σ ∧ key ∉ history.map Write.key ∧ ∃ e, Trail.read key t = (.error (.storage e), t')) := by
  obtain ⟨t', hvalid, hstore, -, hread⟩ := read_cases h.valid key
  have hholds : (Trail.read key t).2 = t' → Holds s history t' := by
    intro heq
    exact ⟨hvalid, hstore.trans h.store, by rw [← heq, staged_read, h.staged]⟩
  rcases hread with hread | ⟨hfallible, e, hread⟩
  case inl =>
    rw [h.records] at hread
    exact ⟨t', hholds (by rw [hread]), .inl hread⟩
  case inr =>
    refine ⟨t', hholds (by rw [hread]), .inr ⟨hfallible, fun hkey => ?_, e, hread⟩⟩
    rw [← mem_keys_staging, ← h.staged, SortedMap.mem_keys_iff] at hkey
    obtain ⟨value, hvalue⟩ := Option.ne_none_iff_exists'.1 hkey
    rw [read_eq, hvalue] at hread
    exact nomatch hread

/-- **ONE CALL** is answered as after all earlier writes, and its own write is the next one. -/
theorem Call.perform_cases (h : Holds s history t) (call : Call) :
    Holds s (history ++ call.write?.toList) (call.perform t).2 ∧
      ((call.perform t).1 = call.answer (LawfulStore.records s) history ∨
        LawfulStore.Fallible σ ∧ call.Failed history (call.perform t).1) := by
  cases call with
  | put key value => exact ⟨h.stage (.put key value), .inl rfl⟩
  | delete key => exact ⟨h.stage (.delete key), .inl rfl⟩
  | pending =>
    refine ⟨by simpa [perform, write?] using h, .inl ?_⟩
    show Reply.number t.staged.pairs.length = _
    rw [h.staged, length_staging]
    rfl
  | get key =>
    -- a read writes nothing; it fails only for a key that was not written, in a store that may fail
    simp only [perform, write?, Option.toList_none, List.append_nil]
    obtain ⟨t', hholds, hread | ⟨hfallible, hkey, e, hread⟩⟩ := h.read key
    · rw [hread]
      exact ⟨hholds, .inl rfl⟩
    · rw [hread]
      exact ⟨hholds, .inr ⟨hfallible, .get e hkey⟩⟩
  | contains key =>
    simp only [perform, write?, Option.toList_none, List.append_nil]
    obtain ⟨t', hholds, hread | ⟨hfallible, hkey, e, hread⟩⟩ := h.read key
    · rw [contains_eq, hread]
      exact ⟨hholds, .inl rfl⟩
    · rw [contains_eq, hread]
      exact ⟨hholds, .inr ⟨hfallible, .contains e hkey⟩⟩

/-- **ANY NUMBER OF CALLS** makes their writes, one after the other. -/
theorem Holds.after (h : Holds s history t) (calls : List Call) : Holds s (history ++ writes calls) (t.after calls) := by
  induction calls generalizing history t with
  | nil => simpa [writes, Trail.after] using h
  | cons call calls ih =>
    rw [writes_cons, ← List.append_assoc]
    exact ih (call.perform_cases h).1

/-- Over a store that cannot fail, a body does what it does if its writes take effect at once. -/
theorem Body.run_eq_direct (hsafe : ¬ LawfulStore.Fallible σ) (body : Body α) (h : Holds s history t) :
    body.direct (LawfulStore.records s) history = ((body.run t).1, history ++ writes (body.calls t)) := by
  induction body generalizing history t with
  | finish result =>
    show (result, history) = _
    rw [show writes ((finish result).calls t) = [] from rfl, List.append_nil]
    cases result <;> rfl
  | call c next ih =>
    obtain ⟨hholds, hreply⟩ := c.perform_cases h
    have hreply : (c.perform t).1 = c.answer (LawfulStore.records s) history :=
      hreply.resolve_right fun hfailed => hsafe hfailed.1
    rw [direct, ← hreply, ih _ hholds, calls, writes_cons, List.append_assoc]
    rfl

/-! ## Writes made to the store itself -/

/-- The store after some writes, each applied on its own. -/
def applyEach (s : σ) (history : List Write) : σ :=
  history.foldl (fun s w => (RecordStore.apply s [w]).2) s

/-- Writes that are made one by one come to the records that they make as a batch. -/
theorem records_applyEach (hsafe : ¬ LawfulStore.Fallible σ) (h : LawfulStore.Valid s) (history : List Write) :
    LawfulStore.Valid (applyEach s history) ∧
      LawfulStore.records (applyEach s history) = (LawfulStore.records s).applyBatch history := by
  induction history generalizing s with
  | nil => exact ⟨h, rfl⟩
  | cons w history ih =>
    obtain ⟨s', hvalid, ⟨happly, hrecords⟩ | ⟨hfallible, -⟩⟩ := LawfulStore.apply_cases h [w]
    case inr => exact absurd hfallible hsafe
    case inl =>
      have hrest := ih hvalid
      rw [hrecords] at hrest
      rw [applyEach, List.foldl_cons, happly]
      exact hrest

/-- A store that cannot fail answers as its records do. -/
theorem read_applyEach (hsafe : ¬ LawfulStore.Fallible σ) (h : LawfulStore.Valid s) (history : List Write) (key : Key) :
    (RecordStore.read (applyEach s history) key).1 = .ok (((LawfulStore.records s).applyBatch history).find? key) := by
  obtain ⟨hvalid, hrecords⟩ := records_applyEach hsafe h history
  obtain ⟨s', -, -, hread | ⟨hfallible, -⟩⟩ := LawfulStore.read_cases hvalid key
  case inl => rw [hread, hrecords]
  case inr => exact absurd hfallible hsafe

/-! ## Whole trails -/

/-- What calls on a trail over `s` come to: nobody can tell that their writes have not been made yet. -/
structure Immediate (s : σ) (calls : List Call) : Prop where
  /-- The store holds what it held. -/
  store : LawfulStore.records ((start s).after calls).store = LawfulStore.records s
  /-- The next call is answered as if all writes had been made one by one. Only what was never written is read from the
      store, which may fail. -/
  answers : ∀ call : Call,
    (call.perform ((start s).after calls)).1 = call.answer (LawfulStore.records s) (writes calls) ∨
      LawfulStore.Fallible σ ∧ call.Failed (writes calls) (call.perform ((start s).after calls)).1
  /-- This is what the store would answer, if the writes had been made to it. -/
  direct : ¬ LawfulStore.Fallible σ → ∀ key, (RecordStore.read (applyEach s (writes calls)) key).1 =
    .ok (((LawfulStore.records s).applyBatch (writes calls)).find? key)
  /-- The batch has one write for each key. -/
  nodup : (((start s).after calls).batch.map Write.key).Nodup
  /-- The keys in the batch are those that were ever written. -/
  keys : ∀ key, key ∈ ((start s).after calls).batch.map Write.key ↔ key ∈ (writes calls).map Write.key
  /-- The batch does to any records what all the writes do, whatever the order in which it is applied. -/
  batch : ∀ (records : Records) (order : List Write), order.Perm ((start s).after calls).batch →
    records.applyBatch order = records.applyBatch (writes calls)

/-- Every sequence of calls acts at once, by induction on the calls. -/
theorem immediate (h : LawfulStore.Valid s) (calls : List Call) : Immediate s calls := by
  have hholds : Holds s (writes calls) ((start s).after calls) := (holds_start h).after calls
  have hnodup : (((start s).after calls).batch.map Write.key).Nodup := by
    rw [hholds.key_batch]
    exact SortedMap.nodup_keys _
  constructor
  case store => exact hholds.store
  case answers => exact fun call => (call.perform_cases hholds).2
  case direct => exact fun hsafe => read_applyEach hsafe h (writes calls)
  case nodup => exact hnodup
  case keys =>
    intro key
    rw [hholds.key_batch]
    exact mem_keys_staging
  case batch =>
    intro records order hperm
    rw [Records.applyBatch_perm hnodup hperm, batch, hholds.staged, applyBatch_staging]

/-- A body that succeeds in a trail of its own leaves in the store what all its writes do. One that fails, or whose batch
    cannot be applied, leaves the store as it was. -/
theorem Body.run_cases (h : LawfulStore.Valid s) (body : Body α) : ∃ s', LawfulStore.Valid s' ∧
    ((∃ a, (body.run (start s)).1 = .ok a ∧ Trail.run body.run s = (.ok a, s') ∧
        LawfulStore.records s' = (LawfulStore.records s).applyBatch (writes (body.calls (start s)))) ∨
      ∃ e, Trail.run body.run s = (.error e, s') ∧ LawfulStore.records s' = LawfulStore.records s ∧
        ((body.run (start s)).1 = .error e ∨ LawfulStore.Fallible σ ∧ ∃ cause, e = .storage cause)) := by
  have hholds : Holds s (writes (body.calls (start s))) (body.run (start s)).2 := by
    rw [body.run_snd]
    exact (holds_start h).after _
  have hrun : Trail.run body.run s = (body.run (start s)).2.complete (body.run (start s)).1 := rfl
  obtain ⟨s', hvalid, hend⟩ := complete_cases hholds.valid (body.run (start s)).1
  rw [hholds.records, hholds.store] at hend
  rw [hrun]
  exact ⟨s', hvalid, hend⟩

/-- **A TRAIL ACTS AT ONCE**, as far as can be told, and its store changes only when it is complete. Whatever is asked
    of the trail is answered as if its writes had been made to the store, which has not changed; its batch has one write
    for each key and leaves the store as all the writes would. So a body that fails, or whose batch cannot be applied,
    leaves the store as it was, and one that succeeds leaves it as if it had written to the store all along. If the
    store cannot fail, the body ends as it would with the store written at once. -/
theorem acts_at_once (h : LawfulStore.Valid s) :
    (∀ calls, Immediate s calls) ∧
      ∀ body : Body α,
        (∃ s', LawfulStore.Valid s' ∧
          ((∃ a, (body.run (start s)).1 = .ok a ∧ run body.run s = (.ok a, s') ∧
              LawfulStore.records s' = (LawfulStore.records s).applyBatch (writes (body.calls (start s)))) ∨
            ∃ e, run body.run s = (.error e, s') ∧ LawfulStore.records s' = LawfulStore.records s ∧
              ((body.run (start s)).1 = .error e ∨ LawfulStore.Fallible σ ∧ ∃ cause, e = .storage cause))) ∧
        (¬ LawfulStore.Fallible σ →
          body.direct (LawfulStore.records s) [] = ((body.run (start s)).1, writes (body.calls (start s)))) :=
  ⟨immediate h, fun body => ⟨body.run_cases h, fun hsafe => body.run_eq_direct hsafe (holds_start h)⟩⟩

namespace Sample

/-- The key of a node record. -/
def record : Key :=
  ⟨.nodes, [1]⟩

/-- A store with one record. -/
def stored : Records :=
  SortedMap.empty.insert record [10]

/-- Deletes the record, and makes it anew if the trail says that it is gone. -/
def replace : Body Bool :=
  .call (.delete record) fun _ =>
    .call (.contains record) fun
      | .truth (.ok false) => .call (.put record [11]) fun _ => .finish (.ok true)
      | _ => .finish (.ok false)

/-- A record that is deleted in a trail is gone from it, comes back when it is put again, and stays in the store until
    the trail is complete. -/
theorem deleted_record_replaced :
    LawfulStore.Valid stored ∧
      ((Call.get record).perform ((start stored).after [.delete record])).1 = .record (.ok none) ∧
      ((Call.get record).perform ((start stored).after [.delete record, .put record [11]])).1 =
        .record (.ok (some [11])) ∧
      (start stored |>.after [.delete record, .put record [11]]).store = stored ∧
      ∃ after, run replace.run stored = (.ok true, after) ∧ after.find? record = some [11] := by
  have hvalid : LawfulStore.Valid stored := trivial
  obtain ⟨hcalls, hbodies⟩ := acts_at_once hvalid
  have hdeleted := ((hcalls [.delete record]).answers (.get record)).resolve_right fun hfailed => hfailed.1
  have hput := ((hcalls [.delete record, .put record [11]]).answers (.get record)).resolve_right fun hfailed => hfailed.1
  refine ⟨hvalid, hdeleted.trans ?_, hput.trans ?_, (hcalls _).store, ?_⟩
  · rfl
  · rfl
  · obtain ⟨⟨after, -, hend⟩, -⟩ := hbodies replace
    rcases hend with ⟨a, ha, hrun, hrecords⟩ | ⟨e, -, -, herror | ⟨hfallible, -⟩⟩
    case inl =>
      cases ha
      refine ⟨after, hrun, ?_⟩
      have hrecords : after = stored.applyBatch (writes (replace.calls (start stored))) := hrecords
      rw [hrecords]
      rfl
    case inr.inl => exact nomatch herror
    case inr.inr => exact hfallible.elim

end Sample

end Trail

end VersionedTree

import VersionedTree.Store.Cached
import VersionedTree.Store.Faulty
import VersionedTree.Trail

/-!
# Lawful stores — what every store does to its records

A store may keep a cache and may fail, but what it does to its records can be said of all stores at once. Reading gives
the record that is there, or fails, and changes no record. A batch takes effect as a whole, or fails without effect.

* **`LawfulStore`** — the records of a store, and these laws.
* Records in memory, faulty stores and cached stores are lawful. A cache only has to be coherent
  (**`Cache.Coherent`**), and stays so when it follows the writes (**`Cache.Coherent.follow_batch`**).
-/

namespace VersionedTree

open Std

/-- The records that a store holds, and what reading and writing do to them. -/
class LawfulStore (σ : Type) [RecordStore σ] where
  /-- True if the store may fail. -/
  Fallible : Prop
  /-- True of the states that the store can be in. -/
  Valid : σ → Prop
  /-- The records that the store holds. -/
  records : σ → Records
  /-- No more records are held than announced. -/
  size_le_bound : ∀ {s : σ}, Valid s → (records s).size ≤ RecordStore.bound s
  /-- A read gives what is there, or fails if the store may fail, and changes no record. -/
  read_cases : ∀ {s : σ}, Valid s → ∀ key, ∃ s', Valid s' ∧ records s' = records s ∧
    (RecordStore.read s key = (.ok ((records s).find? key), s') ∨
      Fallible ∧ ∃ e, RecordStore.read s key = (.error e, s'))
  /-- A batch takes effect as a whole, or fails without effect. -/
  apply_cases : ∀ {s : σ}, Valid s → ∀ batch, ∃ s', Valid s' ∧
    ((RecordStore.apply s batch = (.ok (), s') ∧ records s' = (records s).applyBatch batch) ∨
      Fallible ∧ ∃ e, RecordStore.apply s batch = (.error e, s') ∧ records s' = records s)

/-! ## Records in memory -/

namespace Records

/-- A record that was put is found under its key, and nothing else has changed. -/
theorem find?_put (records : Records) (key : Key) (value : Bytes) (key' : Key) :
    (records.applyWrite (.put key value)).find? key' = if key' = key then some value else records.find? key' := by
  show (records.insert key value).find? key' = _
  rw [SortedMap.find?_insert]
  by_cases h : key' = key
  · rw [if_pos h, if_pos (h ▸ ReflCmp.compare_self)]
  · rw [if_neg h, if_neg fun heq => h (LawfulEqOrd.eq_of_compare heq)]

/-- A record that was deleted is not found, and nothing else has changed. -/
theorem find?_delete (records : Records) (key key' : Key) :
    (records.applyWrite (.delete key)).find? key' = if key' = key then none else records.find? key' := by
  show (records.erase key).find? key' = _
  rw [SortedMap.find?_erase]
  by_cases h : key' = key
  · rw [if_pos h, if_pos (h ▸ ReflCmp.compare_self)]
  · rw [if_neg h, if_neg fun heq => h (LawfulEqOrd.eq_of_compare heq)]

/-- Writes to other keys do not matter. -/
theorem find?_applyWrite_of_ne {records : Records} {key : Key} {write : Write} (h : key ≠ write.key) :
    (records.applyWrite write).find? key = records.find? key := by
  cases write with
  | put key' value => exact (find?_put records key' value key).trans (if_neg h)
  | delete key' => exact (find?_delete records key' key).trans (if_neg h)

instance : LawfulStore Records where
  Fallible := False
  Valid _ := True
  records records := records
  size_le_bound _ := Nat.le_refl _
  read_cases _ _ := ⟨_, trivial, rfl, .inl rfl⟩
  apply_cases _ _ := ⟨_, trivial, .inl ⟨rfl, rfl⟩⟩

end Records

/-! ## Stores over a store -/

section OverStore

variable {σ : Type} [RecordStore σ] [LawfulStore σ]

instance : LawfulStore (Faulty σ) where
  Fallible := True
  Valid s := LawfulStore.Valid s.store
  records s := LawfulStore.records s.store
  size_le_bound h := LawfulStore.size_le_bound h
  read_cases {s} h key := by
    obtain ⟨store, fault⟩ := s
    obtain ⟨store', hvalid, hrecords, hread⟩ := LawfulStore.read_cases h key
    -- a placed read failure is spent; otherwise the store below answers
    have hbelow : ∀ fault' : Option Fault, (∀ e, fault' ≠ some (.read e)) →
        RecordStore.read (⟨store, fault'⟩ : Faulty σ) key =
          ((RecordStore.read store key).1, ⟨(RecordStore.read store key).2, fault'⟩) := by
      intro fault' hno
      rcases fault' with _ | ⟨e⟩ | ⟨e⟩
      · rfl
      · exact absurd rfl (hno e)
      · rfl
    by_cases hfault : ∃ e, fault = some (.read e)
    · obtain ⟨e, rfl⟩ := hfault
      exact ⟨⟨store, none⟩, h, rfl, .inr ⟨trivial, e, rfl⟩⟩
    · rw [hbelow fault fun e he => hfault ⟨e, he⟩]
      rcases hread with hread | ⟨hfallible, e, hread⟩
      · rw [hread]
        exact ⟨⟨store', fault⟩, hvalid, hrecords, .inl rfl⟩
      · rw [hread]
        exact ⟨⟨store', fault⟩, hvalid, hrecords, .inr ⟨trivial, e, rfl⟩⟩
  apply_cases {s} h batch := by
    obtain ⟨store, fault⟩ := s
    obtain ⟨store', hvalid, happly⟩ := LawfulStore.apply_cases h batch
    -- the same for a placed failure of a batch
    have hbelow : ∀ fault' : Option Fault, (∀ e, fault' ≠ some (.apply e)) →
        RecordStore.apply (⟨store, fault'⟩ : Faulty σ) batch =
          ((RecordStore.apply store batch).1, ⟨(RecordStore.apply store batch).2, fault'⟩) := by
      intro fault' hno
      rcases fault' with _ | ⟨e⟩ | ⟨e⟩
      · rfl
      · rfl
      · exact absurd rfl (hno e)
    by_cases hfault : ∃ e, fault = some (.apply e)
    · obtain ⟨e, rfl⟩ := hfault
      exact ⟨⟨store, none⟩, h, .inr ⟨trivial, e, rfl, rfl⟩⟩
    · rw [hbelow fault fun e he => hfault ⟨e, he⟩]
      rcases happly with ⟨happly, hrecords⟩ | ⟨hfallible, e, happly, hrecords⟩
      · rw [happly]
        exact ⟨⟨store', fault⟩, hvalid, .inl ⟨rfl, hrecords⟩⟩
      · rw [happly]
        exact ⟨⟨store', fault⟩, hvalid, .inr ⟨trivial, e, rfl, hrecords⟩⟩

end OverStore

/-! ## Caches -/

/-- True of a cache in which every value is that of the node record. -/
def Cache.Coherent (cache : Cache) (records : Records) : Prop :=
  ∀ name value, cache.find? name = some value → records.find? ⟨.nodes, name⟩ = some value

namespace Cache

/-- The first entry of a name is found. -/
theorem lookup_cons_eq (name : Bytes) (entry : Bytes × Bytes) (entries : List (Bytes × Bytes)) :
    (entry :: entries).lookup name = if name = entry.1 then some entry.2 else entries.lookup name := by
  rw [List.lookup_cons]
  by_cases h : name = entry.1
  · rw [if_pos h, beq_iff_eq.2 h]
  · rw [if_neg h, beq_eq_false_iff_ne.2 h]

/-- What is found among the first entries is found among all of them. -/
theorem lookup_take {entries : List (Bytes × Bytes)} {n : Nat} {name value : Bytes}
    (h : (entries.take n).lookup name = some value) : entries.lookup name = some value := by
  induction entries generalizing n with
  | nil => simp at h
  | cons entry entries ih =>
    cases n with
    | zero => simp at h
    | succ n =>
      rw [List.take_succ_cons, lookup_cons_eq] at h
      rw [lookup_cons_eq]
      split at h
      case isTrue heq => rw [if_pos heq]; exact h
      case isFalse hne => rw [if_neg hne]; exact ih h

/-- Whatever is cached after a key was erased was cached before, under another key. -/
theorem find?_erase {cache : Cache} {key name value : Bytes} (h : (cache.erase key).find? name = some value) :
    name ≠ key ∧ cache.find? name = some value := by
  obtain ⟨capacity, entries⟩ := cache
  replace h : (entries.filter fun entry => entry.1 != key).lookup name = some value := h
  show name ≠ key ∧ entries.lookup name = some value
  induction entries with
  | nil => simp at h
  | cons entry entries ih =>
    -- the first entry is taken out, or it is the one that is found, or it is passed
    by_cases hkey : entry.1 = key
    · rw [List.filter_cons_of_neg (by simpa using hkey)] at h
      obtain ⟨hne, hrest⟩ := ih h
      refine ⟨hne, ?_⟩
      rw [lookup_cons_eq, if_neg (hkey ▸ hne)]
      exact hrest
    · rw [List.filter_cons_of_pos (by simpa using hkey), lookup_cons_eq] at h
      rw [lookup_cons_eq]
      split at h
      case isTrue heq =>
        rw [if_pos heq]
        exact ⟨fun hname => hkey (heq.symm.trans hname), h⟩
      case isFalse hne =>
        rw [if_neg hne]
        exact ih h

/-- Whatever is cached after a value was put is that value, or was cached before under another key. -/
theorem find?_put {cache : Cache} {key value name found : Bytes} (h : (cache.put key value).find? name = some found) :
    (name = key ∧ found = value) ∨ (name ≠ key ∧ cache.find? name = some found) := by
  have hall := lookup_take h
  rw [lookup_cons_eq] at hall
  split at hall
  case isTrue heq =>
    cases hall
    exact .inl ⟨heq, rfl⟩
  case isFalse => exact .inr (find?_erase hall)

variable {cache : Cache} {records : Records}

/-- Nothing that is cached is out of date where nothing is cached. -/
theorem coherent_empty (capacity : Nat) (records : Records) : (empty capacity).Coherent records := by
  intro name value h
  exact nomatch h

/-- A record may be cached as it is. -/
theorem Coherent.put (h : cache.Coherent records) {name value : Bytes}
    (hvalue : records.find? ⟨.nodes, name⟩ = some value) : (cache.put name value).Coherent records := by
  intro other found hfound
  rcases find?_put hfound with ⟨rfl, rfl⟩ | ⟨-, hold⟩
  · exact hvalue
  · exact h other found hold

/-- A cache that follows a write stays coherent with the records after it. -/
theorem Coherent.follow (h : cache.Coherent records) (write : Write) :
    (Cached.follow cache write).Coherent (records.applyWrite write) := by
  by_cases hnodes : write.key.table = .nodes
  · rcases write with ⟨⟨table, name⟩, value⟩ | ⟨⟨table, name⟩⟩
    · cases (hnodes : table = .nodes)
      intro other found hfound
      rw [Records.find?_put]
      rcases find?_put hfound with ⟨rfl, rfl⟩ | ⟨hne, hold⟩
      · exact if_pos rfl
      · rw [if_neg (by simpa using hne)]
        exact h other found hold
    · cases (hnodes : table = .nodes)
      intro other found hfound
      obtain ⟨hne, hold⟩ := find?_erase hfound
      rw [Records.find?_delete, if_neg (by simpa using hne)]
      exact h other found hold
  · -- the cache holds node records only, and does not follow other writes
    have hfollow : Cached.follow cache write = cache := by
      rcases write with ⟨⟨table, name⟩, value⟩ | ⟨⟨table, name⟩⟩ <;> cases table <;> first | rfl | exact absurd rfl hnodes
    rw [hfollow]
    intro other found hfound
    rw [Records.find?_applyWrite_of_ne fun heq => hnodes (heq ▸ rfl)]
    exact h other found hfound

/-- After a batch nothing that is cached is out of date, by induction on its writes. -/
theorem Coherent.follow_batch (h : cache.Coherent records) (batch : List Write) :
    (batch.foldl Cached.follow cache).Coherent (records.applyBatch batch) := by
  induction batch generalizing cache records with
  | nil => exact h
  | cons write batch ih => exact ih (h.follow write)

end Cache

namespace Cached

variable {σ : Type} [RecordStore σ]

/-- A node record that is in the cache is not asked of the store below. -/
theorem read_of_cached {s : Cached σ} {name value : Bytes} (h : s.cache.find? name = some value) :
    RecordStore.read s ⟨.nodes, name⟩ = (.ok (some value), { s with cache := s.cache.put name value }) := by
  simp only [RecordStore.read, Cache.use?, h, Option.map_some]

/-- A node that is not cached is read from the store. -/
theorem read_of_not_cached {s : Cached σ} {name : Bytes} (h : s.cache.find? name = none) :
    RecordStore.read s ⟨.nodes, name⟩ = s.readThrough ⟨.nodes, name⟩ := by
  simp only [RecordStore.read, Cache.use?, h, Option.map_none]

/-- A batch that the store takes is followed by the cache. -/
theorem apply_of_ok {s : Cached σ} {batch : List Write} {store : σ}
    (h : RecordStore.apply s.store batch = (.ok (), store)) :
    RecordStore.apply s batch = (.ok (), ⟨store, batch.foldl follow s.cache⟩) := by
  simp only [RecordStore.apply] at h ⊢
  rw [h]

/-- A batch that the store does not take leaves the cache alone. -/
theorem apply_of_error {s : Cached σ} {batch : List Write} {store : σ} {e : StorageError}
    (h : RecordStore.apply s.store batch = (.error e, store)) :
    RecordStore.apply s batch = (.error e, ⟨store, s.cache⟩) := by
  simp only [RecordStore.apply] at h ⊢
  rw [h]

variable [LawfulStore σ]

/-- Reading from the store caches what it gives, and changes no record. -/
theorem readThrough_cases {s : Cached σ} (hvalid : LawfulStore.Valid s.store)
    (hcache : s.cache.Coherent (LawfulStore.records s.store)) (key : Key) :
    ∃ s' : Cached σ, (LawfulStore.Valid s'.store ∧ s'.cache.Coherent (LawfulStore.records s'.store)) ∧
      LawfulStore.records s'.store = LawfulStore.records s.store ∧
      (s.readThrough key = (.ok ((LawfulStore.records s.store).find? key), s') ∨
        LawfulStore.Fallible σ ∧ ∃ e, s.readThrough key = (.error e, s')) := by
  obtain ⟨store', hvalid', hrecords, hread⟩ := LawfulStore.read_cases hvalid key
  rcases hread with hread | ⟨hfallible, e, hread⟩
  · cases hfind : (LawfulStore.records s.store).find? key with
    | none =>
      rw [hfind] at hread
      refine ⟨⟨store', s.cache⟩, ⟨hvalid', hrecords ▸ hcache⟩, hrecords, .inl ?_⟩
      rw [readThrough, hread]
    | some value =>
      rw [hfind] at hread
      refine ⟨⟨store', follow s.cache (.put key value)⟩, ⟨hvalid', ?_⟩, hrecords, .inl ?_⟩
      · -- what was read is kept in the cache, if it is a node record
        rw [hrecords]
        obtain ⟨table, name⟩ := key
        cases table with
        | nodes => exact hcache.put hfind
        | revisions | transactions | representations | globals => exact hcache
      · rw [readThrough, hread]
  · refine ⟨⟨store', s.cache⟩, ⟨hvalid', hrecords ▸ hcache⟩, hrecords, .inr ⟨hfallible, e, ?_⟩⟩
    rw [readThrough, hread]

instance : LawfulStore (Cached σ) where
  Fallible := LawfulStore.Fallible σ
  Valid s := LawfulStore.Valid s.store ∧ s.cache.Coherent (LawfulStore.records s.store)
  records s := LawfulStore.records s.store
  size_le_bound h := LawfulStore.size_le_bound h.1
  read_cases {s} h key := by
    obtain ⟨hvalid, hcache⟩ := h
    obtain ⟨table, name⟩ := key
    cases table with
    | nodes =>
      cases hcached : s.cache.find? name with
      | none =>
        rw [read_of_not_cached hcached]
        exact readThrough_cases hvalid hcache _
      | some value =>
        have hrecord := hcache name value hcached
        refine ⟨{ s with cache := s.cache.put name value }, ⟨hvalid, hcache.put hrecord⟩, rfl, .inl ?_⟩
        rw [read_of_cached hcached, hrecord]
    | revisions | transactions | representations | globals => exact readThrough_cases hvalid hcache _
  apply_cases {s} h batch := by
    obtain ⟨hvalid, hcache⟩ := h
    obtain ⟨store', hvalid', happly⟩ := LawfulStore.apply_cases hvalid batch
    rcases happly with ⟨happly, hrecords⟩ | ⟨hfallible, e, happly, hrecords⟩
    · refine ⟨⟨store', batch.foldl follow s.cache⟩, ⟨hvalid', ?_⟩, .inl ⟨apply_of_ok happly, hrecords⟩⟩
      rw [hrecords]
      exact hcache.follow_batch batch
    · exact ⟨⟨store', s.cache⟩, ⟨hvalid', hrecords ▸ hcache⟩, .inr ⟨hfallible, e, apply_of_error happly, hrecords⟩⟩

end Cached

end VersionedTree

import VersionedTree.Proofs.Store.Lawful

/-!
# Persistent stores — the disk and the cache answer as memory does

A persistent store keeps node records at hand, and its commits may fail. Neither can be told from its answers: they are
those of a store in memory that is given the batches whose commit succeeds. All that is assumed of a database is that it
holds records as other stores do, and holds the same ones when it is opened again (**`Durable`**).

* **`Persistent.serve`** and **`Persistent.serveInMemory`** — one request to either store. A request says whether its
  commit fails.
* **`Persistent.Agrees`** — the invariant: the same records, and a cache that is coherent with them.
  **`Agrees.serve`** is its step, **`Agrees.serveAll`** the run.
* **`Persistent.answers_as_memory`** — from the moment that the store is opened.
-/

namespace VersionedTree.Persistent

/-- What is asked of a store. -/
inductive Request where
  | get (key : Key)
  /-- To apply a batch. `fault` is the failure of the commit, if it fails. -/
  | apply (batch : List Write) (fault : Option StorageError)
  /-- To close the store and open it again. -/
  | reopen

/-- What is answered to a request. -/
inductive Answer where
  | record (result : Except StorageError (Option Bytes))
  | applied (result : Except StorageError Unit)
  | opened (result : Except StorageError Unit)

/-- The answers to some requests, in order, and the store after them. -/
def serveAll {σ : Type} (serve : σ → Request → Answer × σ) : σ → List Request → List Answer × σ
  | s, [] => ([], s)
  | s, request :: requests =>
    ((serve s request).1 :: (serveAll serve (serve s request).2 requests).1,
      (serveAll serve (serve s request).2 requests).2)

/-- Serves a request in memory. A batch whose commit fails is not given to the store. -/
def serveInMemory (records : Records) : Request → Answer × Records
  | .get key => (.record (RecordStore.read records key).1, records)
  | .apply batch none => (.applied (RecordStore.apply records batch).1, (RecordStore.apply records batch).2)
  | .apply _ (some e) => (.applied (.error e), records)
  | .reopen => (.opened (.ok ()), records)

variable {δ : Type} [RecordStore δ] [LawfulStore δ]

/-- Opens a persistent store over a database. -/
def openOver (config : Config) (database : δ) : Except StorageError (Cached (Faulty δ)) :=
  (openAt config (.directory (LawfulStore.records database))).map fun s => ⟨.ofStore database, s.cache⟩

/-- Serves a request from a persistent store, whose database is opened again by `reopen`. -/
def serve (config : Config) (reopen : δ → δ) (s : Cached (Faulty δ)) : Request → Answer × Cached (Faulty δ)
  | .get key => (.record (RecordStore.read s key).1, (RecordStore.read s key).2)
  | .apply batch fault =>
    let s := { s with store := { s.store with fault := fault.map .apply } }
    (.applied (RecordStore.apply s batch).1, (RecordStore.apply s batch).2)
  | .reopen =>
    match openOver config (reopen s.store.store) with
    | .ok s => (.opened (.ok ()), s)
    | .error e => (.opened (.error e), s)

/-- What is assumed of a database: it fails only where a failure is placed, and holds the same records when it is opened
    again. -/
structure Durable (reopen : δ → δ) : Prop where
  safe : ¬ LawfulStore.Fallible δ
  valid : ∀ {database : δ}, LawfulStore.Valid database → LawfulStore.Valid (reopen database)
  records : ∀ {database : δ}, LawfulStore.Valid database →
    LawfulStore.records (reopen database) = LawfulStore.records database

/-! ## Stores over which no failure is placed -/

/-- A cached store, with no failure placed under the cache. -/
def sound (s : Cached δ) : Cached (Faulty δ) :=
  ⟨.ofStore s.store, s.cache⟩

omit [LawfulStore δ] in
/-- Reading through a sound cache leaves it sound. -/
theorem read_sound (s : Cached δ) (key : Key) :
    RecordStore.read (sound s) key = ((RecordStore.read s key).1, sound (RecordStore.read s key).2) := by
  have hthrough : (sound s).readThrough key = ((s.readThrough key).1, sound (s.readThrough key).2) := by
    have hread : RecordStore.read (sound s).store key =
        ((RecordStore.read s.store key).1, .ofStore (RecordStore.read s.store key).2) := rfl
    simp only [Cached.readThrough, hread]
    rcases RecordStore.read s.store key with ⟨e | _ | value, store⟩ <;> rfl
  obtain ⟨table, name⟩ := key
  cases table with
  | nodes =>
    cases hcached : s.cache.find? name with
    | some value =>
      rw [Cached.read_of_cached hcached, Cached.read_of_cached (show (sound s).cache.find? name = some value from hcached)]
      rfl
    | none =>
      rw [Cached.read_of_not_cached hcached, Cached.read_of_not_cached (show (sound s).cache.find? name = none from hcached)]
      exact hthrough
  | revisions | transactions | representations | globals => exact hthrough

omit [LawfulStore δ] in
/-- A batch leaves a sound cache sound. -/
theorem apply_sound (s : Cached δ) (batch : List Write) :
    RecordStore.apply (sound s) batch = ((RecordStore.apply s batch).1, sound (RecordStore.apply s batch).2) := by
  have hsound : RecordStore.apply (sound s).store batch =
      ((RecordStore.apply s.store batch).1, .ofStore (RecordStore.apply s.store batch).2) := rfl
  rcases happly : RecordStore.apply s.store batch with ⟨e | ⟨⟩, store⟩
  case error =>
    rw [happly] at hsound
    rw [Cached.apply_of_error happly, Cached.apply_of_error hsound]
    rfl
  case ok =>
    rw [happly] at hsound
    rw [Cached.apply_of_ok happly, Cached.apply_of_ok hsound]
    rfl

/-! ## The invariant -/

/-- True of a persistent store that holds these records, and in its cache nothing else. -/
def Agrees (s : Cached (Faulty δ)) (records : Records) : Prop :=
  ∃ s₀ : Cached δ, s = sound s₀ ∧ LawfulStore.Valid s₀ ∧ LawfulStore.records s₀ = records

variable {s : Cached (Faulty δ)} {records : Records} {reopen : δ → δ} {config : Config}

/-- A cached value is that of the record. -/
theorem Agrees.coherent (h : Agrees s records) : s.cache.Coherent records := by
  obtain ⟨s₀, rfl, ⟨-, hcoherent⟩, rfl⟩ := h
  exact hcoherent

/-- A database is opened if the cache may hold something. -/
theorem openOver_of_pos (hcapacity : 0 < config.nodeCacheCapacity) {database : δ} (h : LawfulStore.Valid database) :
    ∃ s, openOver config database = .ok s ∧ Agrees s (LawfulStore.records database) := by
  refine ⟨sound ⟨database, .empty config.nodeCacheCapacity⟩, ?_, _, rfl, ⟨h, Cache.coherent_empty _ _⟩, rfl⟩
  rw [openOver, openAt, if_neg (Nat.ne_of_gt hcapacity)]
  rfl

/-- **ONE REQUEST** is answered as in memory, and both stores go on with the same records. -/
theorem Agrees.serve (hdatabase : Durable reopen) (hcapacity : 0 < config.nodeCacheCapacity) (h : Agrees s records)
    (request : Request) :
    (Persistent.serve config reopen s request).1 = (serveInMemory records request).1 ∧
      Agrees (Persistent.serve config reopen s request).2 (serveInMemory records request).2 := by
  obtain ⟨s₀, rfl, hvalid, rfl⟩ := h
  cases request with
  | get key =>
    obtain ⟨s₁, hvalid₁, hrecords, hread | ⟨hfallible, -⟩⟩ := LawfulStore.read_cases hvalid key
    case inr => exact absurd hfallible hdatabase.safe
    case inl =>
      simp only [Persistent.serve, read_sound, hread]
      exact ⟨rfl, s₁, rfl, hvalid₁, hrecords⟩
  | apply batch fault =>
    cases fault with
    | none =>
      obtain ⟨s₁, hvalid₁, ⟨happly, hrecords⟩ | ⟨hfallible, -⟩⟩ := LawfulStore.apply_cases hvalid batch
      case inr => exact absurd hfallible hdatabase.safe
      case inl =>
        have hserve : Persistent.serve config reopen (sound s₀) (.apply batch none) = (.applied (.ok ()), sound s₁) := by
          show (Answer.applied (RecordStore.apply (sound s₀) batch).1, (RecordStore.apply (sound s₀) batch).2) = _
          rw [apply_sound, happly]
        rw [hserve]
        exact ⟨rfl, s₁, rfl, hvalid₁, hrecords⟩
    | some e =>
      -- the database has no part of the batch, and the cache did not follow it
      exact ⟨rfl, s₀, rfl, hvalid, rfl⟩
  | reopen =>
    obtain ⟨s₁, hopen, hagrees⟩ := openOver_of_pos hcapacity (hdatabase.valid hvalid.1)
    have hserve : Persistent.serve config reopen (sound s₀) .reopen = (.opened (.ok ()), s₁) := by
      have hstore : (sound s₀).store.store = s₀.store := rfl
      simp only [Persistent.serve, hstore, hopen]
    rw [hserve]
    exact ⟨rfl, hdatabase.records hvalid.1 ▸ hagrees⟩

/-- **ANY NUMBER OF REQUESTS** is answered as in memory. -/
theorem Agrees.serveAll (hdatabase : Durable reopen) (hcapacity : 0 < config.nodeCacheCapacity) (h : Agrees s records)
    (requests : List Request) :
    (Persistent.serveAll (Persistent.serve config reopen) s requests).1 =
        (Persistent.serveAll serveInMemory records requests).1 ∧
      Agrees (Persistent.serveAll (Persistent.serve config reopen) s requests).2
        (Persistent.serveAll serveInMemory records requests).2 := by
  induction requests generalizing s records with
  | nil => exact ⟨rfl, h⟩
  | cons request requests ih =>
    obtain ⟨hanswer, hagrees⟩ := h.serve hdatabase hcapacity request
    obtain ⟨hanswers, hagrees⟩ := ih hagrees
    exact ⟨by simp only [Persistent.serveAll, hanswer, hanswers], hagrees⟩

/-- **A PERSISTENT STORE ANSWERS AS MEMORY DOES**, if its cache has room for a record at all. It can be opened, and
    whatever it is asked then, every answer is that of a store in memory that is given the same batches, but for those
    whose commit fails; and no value in the cache is ever another than that of the record. -/
theorem answers_as_memory (hdatabase : Durable reopen) (hcapacity : 0 < config.nodeCacheCapacity) {database : δ}
    (h : LawfulStore.Valid database) :
    ∃ s, openOver config database = .ok s ∧ ∀ requests,
      (serveAll (serve config reopen) s requests).1 =
          (serveAll serveInMemory (LawfulStore.records database) requests).1 ∧
        (serveAll (serve config reopen) s requests).2.cache.Coherent
          (serveAll serveInMemory (LawfulStore.records database) requests).2 := by
  obtain ⟨s, hopen, hagrees⟩ := openOver_of_pos hcapacity h
  refine ⟨s, hopen, fun requests => ?_⟩
  obtain ⟨hanswers, hagrees⟩ := hagrees.serveAll hdatabase hcapacity requests
  exact ⟨hanswers, hagrees.coherent⟩

namespace Sample

/-- A cache with room for one record. -/
def smallCache : Config :=
  { Config.default with nodeCacheCapacity := 1 }

/-- The key of a node record. -/
def node (n : UInt8) : Key :=
  ⟨.nodes, [n]⟩

/-- Two records of which the cache can hold one, a deletion that fails, a batch that writes one record three times, and
    a deletion that is carried out. -/
def requests : List Request :=
  [.apply [.put (node 1) [10], .put (node 2) [20]] none, .get (node 1),
    .apply [.delete (node 1)] (some .io), .get (node 1),
    .apply [.put (node 1) [11], .delete (node 1), .put (node 1) [12]] none, .get (node 1),
    .apply [.delete (node 1)] none, .get (node 1), .reopen, .get (node 2)]

/-- The answers over a database that keeps its records in memory. -/
theorem evicted_record_read_again :
    0 < smallCache.nodeCacheCapacity ∧ Durable (id : Records → Records) ∧
      ∃ s, openOver smallCache (SortedMap.empty : Records) = .ok s ∧
        (serveAll (serve smallCache id) s requests).1 =
          [.applied (.ok ()), .record (.ok (some [10])), .applied (.error .io), .record (.ok (some [10])),
            .applied (.ok ()), .record (.ok (some [12])), .applied (.ok ()), .record (.ok none),
            .opened (.ok ()), .record (.ok (some [20]))] := by
  have hcapacity : 0 < smallCache.nodeCacheCapacity := Nat.zero_lt_one
  have hdatabase : Durable (id : Records → Records) := ⟨id, fun h => h, fun _ => rfl⟩
  obtain ⟨s, hopen, hserve⟩ := answers_as_memory hdatabase hcapacity (show LawfulStore.Valid (SortedMap.empty : Records) from trivial)
  refine ⟨hcapacity, hdatabase, s, hopen, (hserve requests).1.trans ?_⟩
  rfl

end Sample

end VersionedTree.Persistent

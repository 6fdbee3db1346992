import VersionedTree.Proofs.Filesystem.Reachable
import VersionedTree.Proofs.Text.Json
import VersionedTree.Proofs.Trail.Outcomes

/-!
# Opening — a store is opened, or it is left alone

Opening puts the root directory and the first revision of a new filesystem before it finds out that there is one already.
It does no harm, because all of this is only staged: where there are metadata, nothing is put at all, and where there is
a youngest revision, the new one would not be the first, so the trail fails.

* **`Records.InUse`** — there is a filesystem, or what is left of one. **`Records.founded`** — the records with those of a
  new filesystem among them.
* **`KeepsStore`** — until a trail is complete, the records of the store are what they were.
* **`Comes.readOrInit`** — what opening comes to on any records, sound or not.
* **`Metadata.decode?_encode`** — metadata are read back as they were written.
* **`opening_is_safe`** — the theorem.
-/

namespace VersionedTree

/-! ## Records of a filesystem -/

/-- The store has metadata or a youngest revision, well-formed or not. -/
def Records.InUse (records : Records) : Prop :=
  records.find? Metadata.key ≠ none ∨ records.find? (Counter.key Counter.youngest) ≠ none

/-- The metadata record can be read, and these are the metadata. -/
def Records.Describes (records : Records) (metadata : Metadata) : Prop :=
  ∃ value, records.find? Metadata.key = some value ∧ Metadata.decode? value = some metadata

/-- The record under a key once a new filesystem is made over the records: its root directory, its first revision, the
    number of that, and its metadata. -/
def Records.founded (records : Records) (new : Metadata) (date : String) (key : Key) : Option Bytes :=
  if key = Metadata.key then some new.encode
  else if key = Counter.key Counter.youngest then some (Text.toBytes (Decimal.text 0))
  else if key = Revision.key 0 then some (Revision.encode ⟨.root, Revision.propsAt date⟩)
  else if key = NodeRecord.key .root then some (NodeRecord.encode .emptyDir)
  else records.find? key

/-- Records describe one filesystem only. -/
theorem Records.Describes.unique {records : Records} {metadata metadata' : Metadata} (h : records.Describes metadata)
    (h' : records.Describes metadata') : metadata = metadata' := by
  obtain ⟨value, hfind, hdecode⟩ := h
  obtain ⟨value', hfind', hdecode'⟩ := h'
  cases hfind.symm.trans hfind'
  exact Option.some.inj (hdecode.symm.trans hdecode')

/-- Records that describe a filesystem are in use. -/
theorem Records.Describes.inUse {records : Records} {metadata : Metadata} (h : records.Describes metadata) :
    records.InUse := by
  obtain ⟨value, hfind, -⟩ := h
  left
  rw [hfind]
  exact Option.some_ne_none value

/-! ## The store below a trail -/

namespace TrailM

variable {σ α β : Type} [RecordStore σ] [LawfulStore σ] {m : TrailM σ α}

/-- Whatever is staged, the store below keeps its records. -/
def KeepsStore (m : TrailM σ α) : Prop :=
  ∀ t, LawfulStore.Valid t.store →
    LawfulStore.Valid (m t).2.store ∧ LawfulStore.records (m t).2.store = LawfulStore.records t.store

theorem KeepsStore.pure (a : α) : (Pure.pure a : TrailM σ α).KeepsStore :=
  fun _ hvalid => ⟨hvalid, rfl⟩

theorem KeepsStore.throw (e : Error) : (MonadExcept.throw e : TrailM σ α).KeepsStore :=
  fun _ hvalid => ⟨hvalid, rfl⟩

/-- A sequence leaves the store alone if its parts do. -/
theorem KeepsStore.bind {f : α → TrailM σ β} (h : m.KeepsStore) (hf : ∀ a, (f a).KeepsStore) : (m >>= f).KeepsStore := by
  intro t hvalid
  have hm := h t hvalid
  cases hrun : m t with
  | mk result t' =>
    rw [hrun] at hm
    cases result with
    | ok a =>
      rw [bind_of_ok hrun]
      obtain ⟨hvalid', hrecords⟩ := hf a t' hm.1
      exact ⟨hvalid', hrecords.trans hm.2⟩
    | error e =>
      rw [bind_of_error hrun]
      exact hm

/-- Putting a record only stages it. -/
theorem KeepsStore.put (key : Key) (value : Bytes) : (Trail.put key value : TrailM σ Unit).KeepsStore :=
  fun _ hvalid => ⟨hvalid, rfl⟩

/-- Reading a record leaves the store with the same records. -/
theorem KeepsStore.read (key : Key) : (Trail.read key : TrailM σ (Option Bytes)).KeepsStore := by
  intro t hvalid
  obtain ⟨t', hvalid', hrecords, -, hread | ⟨-, e, hread⟩⟩ := Trail.read_cases hvalid key
  all_goals
    rw [hread]
    exact ⟨hvalid', hrecords⟩

/-- Looking for the next number leaves the store alone. -/
theorem KeepsStore.nextNumber : (Revision.nextNumber : TrailM σ UInt64).KeepsStore := by
  refine .bind (.bind (.read _) fun value => ?_) fun number => ?_
  · cases value with
    | none => exact .pure none
    | some value =>
      dsimp only
      split
      case h_1 n _ => exact .pure (some n)
      case h_2 => exact .throw _
  · cases number with
    | none => exact .pure 0
    | some n =>
      dsimp only
      unfold Counter.successor
      split
      case isTrue => exact .pure _
      case isFalse => exact .throw _

/-- Opening stages all that it writes. -/
theorem KeepsStore.readOrInit (new : Metadata) (date : String) :
    (Metadata.readOrInit new date : TrailM σ Metadata).KeepsStore := by
  refine .bind (.read _) fun value => ?_
  cases value with
  | some value =>
    dsimp only
    split
    case h_1 metadata _ => exact .pure metadata
    case h_2 => exact .throw _
  | none =>
    refine .bind (.bind (.put _ _) fun _ => ?_) fun _ => .bind (.put _ _) fun _ => .pure new
    refine .bind (.bind .nextNumber fun number => .bind (.put _ _) fun _ => .bind (.put _ _) fun _ => .pure number) ?_
    intro number
    split
    case isTrue => exact .throw _
    case isFalse => exact .pure ()

/-- A trail of its own leaves the records that its computation comes to, or those that there were. -/
theorem Comes.run {store : σ} {Q : α → Trail Records → Prop} {E : Error → Trail Records → Prop}
    (h : m.Comes (Trail.start store).plain Q E) (hkeeps : m.KeepsStore) (hvalid : LawfulStore.Valid store) :
    ∃ store', LawfulStore.Valid store' ∧
      ((∃ a s', Trail.run m store = (.ok a, store') ∧ Q a s' ∧ LawfulStore.records store' = s'.records) ∨
        ∃ e, Trail.run m store = (.error e, store') ∧ LawfulStore.records store' = LawfulStore.records store ∧
          (e.IsFault σ ∨ ∃ s', E e s')) := by
  have hcomplete : Trail.run m store = (m (Trail.start store)).2.complete (m (Trail.start store)).1 := rfl
  have hbase := (hkeeps (Trail.start store) hvalid).2
  rcases h _ (Trail.over_plain hvalid) with ⟨a, t', s', hrun, ht', hq⟩ | ⟨e, t', s', hrun, ht', he⟩
  · rw [hrun] at hcomplete hbase
    obtain ⟨store', hvalid', ⟨a', ha, hdone, hrecords⟩ | ⟨e, hdone, hrecords, he⟩⟩ :=
      Trail.complete_cases ht'.valid (.ok a : Except Error α)
    · cases ha
      exact ⟨store', hvalid', .inl ⟨a, s', hcomplete.trans hdone, hq, hrecords.trans ht'.records⟩⟩
    · have hfault : e.IsFault σ := he.resolve_left fun herror => by cases herror
      exact ⟨store', hvalid', .inr ⟨e, hcomplete.trans hdone, hrecords.trans hbase, .inl hfault⟩⟩
  · rw [hrun] at hcomplete hbase
    exact ⟨t'.store, ht'.valid, .inr ⟨e, hcomplete, hbase, he.imp_right fun he => ⟨s', he⟩⟩⟩

/-! ## What opening comes to -/

variable {s : Trail Records}

/-- The youngest revision is missing just if its record is. Any other record is one that is there. -/
theorem Looks.youngest? :
    (Revision.youngest? : TrailM σ (Option UInt64)).Looks s
      (fun number => s.records.find? (Counter.key Counter.youngest) = none ↔ number = none)
      fun _ => s.records.find? (Counter.key Counter.youngest) ≠ none := by
  refine Looks.bind (Looks.read _) ?_ fun _ he => he.elim
  rintro value rfl
  cases s.records.find? (Counter.key Counter.youngest) with
  | none => exact Looks.pure (iff_of_true rfl rfl)
  | some value =>
    dsimp only
    split
    case h_1 n _ => exact Looks.pure (iff_of_false (Option.some_ne_none value) (Option.some_ne_none n))
    case h_2 => exact Looks.throw (Option.some_ne_none value)

/-- The number of the first revision is 0, and that of a further one is not. -/
theorem Looks.nextNumber :
    (Revision.nextNumber : TrailM σ UInt64).Looks s
      (fun number => s.records.find? (Counter.key Counter.youngest) = none ↔ number = 0)
      fun _ => s.records.find? (Counter.key Counter.youngest) ≠ none := by
  refine Looks.bind Looks.youngest? ?_ fun _ he => he
  intro number hnumber
  cases number with
  | none => exact Looks.pure (iff_of_true (hnumber.2 rfl) rfl)
  | some n =>
    have hsome : s.records.find? (Counter.key Counter.youngest) ≠ none := fun hnone => by cases hnumber.1 hnone
    dsimp only
    unfold Counter.successor
    split
    case isTrue hlt =>
      refine Looks.pure (iff_of_false hsome ?_)
      intro hzero
      have hvalue := congrArg UInt64.toNat hzero
      rw [UInt64.toNat_add, UInt64.toNat_one, Nat.mod_eq_of_lt hlt] at hvalue
      exact Nat.succ_ne_zero _ hvalue
    case isFalse => exact Looks.throw hsome

/-- A first revision can be made just where there is no youngest one. -/
theorem Comes.makeFirst (date : String) :
    (Revision.makeFirst date : TrailM σ Unit).Comes s
      (fun _ s' => s.records.find? (Counter.key Counter.youngest) = none ∧
        s' = ((s.stage (NodeRecord.key .root) (some (NodeRecord.encode .emptyDir))).stage (Revision.key 0)
          (some (Revision.encode ⟨.root, Revision.propsAt date⟩))).stage (Counter.key Counter.youngest)
            (some (Text.toBytes (Decimal.text 0))))
      (fun _ _ => s.records.find? (Counter.key Counter.youngest) ≠ none) := by
  refine Comes.andThen (Stages.put _ _) fun _ => ?_
  -- the root directory that is staged by now is in another table than the youngest revision
  have hyoungest : (s.stage (NodeRecord.key .root) (some (NodeRecord.encode .emptyDir))).records.find?
      (Counter.key Counter.youngest) = s.records.find? (Counter.key Counter.youngest) := by
    rw [Trail.find?_records_stage, if_neg (by simp [NodeRecord.key, Counter.key, Key.ofText_inj])]
  rw [← hyoungest]
  refine Comes.bind (Q := fun number s' => ((s.stage (NodeRecord.key .root)
      (some (NodeRecord.encode .emptyDir))).records.find? (Counter.key Counter.youngest) = none ↔ number = 0) ∧
      s' = ((s.stage (NodeRecord.key .root) (some (NodeRecord.encode .emptyDir))).stage (Revision.key number)
        (some (Revision.encode ⟨.root, Revision.propsAt date⟩))).stage (Counter.key Counter.youngest)
          (some (Text.toBytes (Decimal.text number.toNat)))) ?_ ?_ fun _ _ he => he
  · refine Comes.after Looks.nextNumber ?_ fun _ he => he
    intro number hnumber
    refine Comes.andThen (Stages.put _ _) fun _ => Comes.andThen (Stages.put _ _) fun _ => ?_
    exact Comes.pure ⟨hnumber, rfl⟩
  · rintro number _ ⟨hnumber, rfl⟩
    split
    case isTrue hne => exact Comes.throw fun hnone => hne (hnumber.1 hnone)
    case isFalse hzero =>
      obtain rfl := not_not.1 hzero
      exact Comes.pure ⟨hnumber.2 rfl, rfl⟩

/-- **OPENING, ON ANY RECORDS**, gives the metadata that are there, or those of a filesystem that is new, or fails. -/
theorem Comes.readOrInit (new : Metadata) (date : String) :
    (Metadata.readOrInit new date : TrailM σ Metadata).Comes s
      (fun metadata s' => s.records.Describes metadata ∧ s' = s ∨
        ¬ s.records.InUse ∧ metadata = new ∧ ∀ key, s'.records.find? key = s.records.founded new date key)
      (fun _ _ => s.records.InUse ∧ ∀ metadata, ¬ s.records.Describes metadata) := by
  refine Comes.after (Looks.read Metadata.key) ?_ fun _ he => he.elim
  rintro value hvalue
  cases value with
  | some value =>
    dsimp only
    split
    case h_1 metadata hdecode => exact Comes.pure (.inl ⟨⟨value, hvalue.symm, hdecode⟩, rfl⟩)
    case h_2 hdecode =>
      refine Comes.throw ⟨.inl (hvalue ▸ Option.some_ne_none value), ?_⟩
      rintro metadata ⟨value', hfind, hdecode'⟩
      rw [← hvalue] at hfind
      cases hfind
      exact Option.some_ne_none metadata (hdecode'.symm.trans hdecode)
  | none =>
    -- without a record of the metadata there is nothing that describes any
    have hdescribes : ∀ metadata, ¬ s.records.Describes metadata := by
      rintro metadata ⟨value, hfind, -⟩
      exact Option.some_ne_none value (hfind.symm.trans hvalue.symm)
    refine Comes.bind (Comes.makeFirst date) ?_ fun _ _ hsome => ⟨.inr hsome, hdescribes⟩
    rintro _ _ ⟨hnone, rfl⟩
    refine Comes.andThen (Stages.put _ _) fun _ => Comes.pure (.inr ⟨?_, rfl, ?_⟩)
    · rintro (hthere | hthere)
      · exact hthere hvalue.symm
      · exact hthere hnone
    · intro key
      simp only [Trail.find?_records_stage]
      rfl

end TrailM

/-! ## Metadata -/

namespace Metadata

/-- True of metadata whose time fits a number of 64 bits with a sign. -/
def InRange (metadata : Metadata) : Prop :=
  Int64.minValue.toInt ≤ metadata.createdAt ∧ metadata.createdAt ≤ Int64.maxValue.toInt

/-- The members of the metadata record, with their texts and their values. -/
def members (metadata : Metadata) : List (String × String × Json.Value) :=
  [("uuid", Json.quoted metadata.uuid, .string (metadata.uuid.toList.flatMap Json.pieces)),
    ("created_at", metadata.createdAt.repr, .integer metadata.createdAt)]

/-- Every member has the form that it is read as. -/
theorem formOf_members (metadata : Metadata) : ∀ m ∈ metadata.members, Json.FormOf m.2.1 m.2.2 := by
  intro m hm
  simp only [members, List.mem_cons, List.not_mem_nil, or_false] at hm
  rcases hm with rfl | rfl
  · exact Json.formOf_quoted _
  · exact Json.formOf_repr _

/-- The description is written as an object with its members. -/
theorem encode_eq (metadata : Metadata) :
    metadata.encode = Text.toBytes (Json.compact (metadata.members.map fun m => (m.1, m.2.1))) :=
  rfl

/-- **METADATA ARE READ BACK**, whatever the identity is. -/
theorem decode?_encode {metadata : Metadata} (h : metadata.InRange) : decode? metadata.encode = some metadata := by
  have hne : metadata.members ≠ [] := List.cons_ne_nil _ _
  have htext := Json.ofText?_compact hne metadata.formOf_members
  have hfields : Json.fields? fieldNames (.object (metadata.members.map fun m => (m.1.toList.flatMap Json.pieces, m.2.2))) =
      some (metadata.members.map fun m => some m.2.2) := by
    rw [Json.fields?_printed]
    simp [fieldNames, members, Json.member?]
  have huuid : (Json.Value.string (metadata.uuid.toList.flatMap Json.pieces)).asText? = some metadata.uuid :=
    Json.text?_pieces _
  have htime : (Json.Value.integer metadata.createdAt).asInteger? Int64.minValue.toInt Int64.maxValue.toInt =
      some metadata.createdAt := if_pos h
  rw [decode?, encode_eq, htext, Option.bind_eq_bind, Option.bind_some, hfields]
  simp only [members, List.map_cons, List.map_nil, Option.bind_eq_bind, Option.bind_some, huuid, htime]
  rfl

end Metadata

/-! ## The theorem -/

namespace Filesystem

variable {σ : Type} [RecordStore σ] [LawfulStore σ] {store : σ} {config : Config}

/-- What opening with a valid configuration leaves, and gives. -/
theorem openOver_outcomes (hvalid : LawfulStore.Valid store) (hconfig : config.validate = .ok ()) (new : Metadata)
    (date : String) :
    (∃ fs, openOver config new date store = (.ok fs, fs.store) ∧ fs.config = config ∧ LawfulStore.Valid fs.store ∧
        ((LawfulStore.records store).Describes fs.metadata ∧ fs.records = LawfulStore.records store ∨
          ¬ (LawfulStore.records store).InUse ∧ fs.metadata = new ∧
            ∀ key, fs.records.find? key = (LawfulStore.records store).founded new date key)) ∨
      ∃ e store', openOver config new date store = (.error e, store') ∧
        LawfulStore.records store' = LawfulStore.records store ∧
        (e.IsFault σ ∨ (LawfulStore.records store).InUse ∧ ∀ metadata, ¬ (LawfulStore.records store).Describes metadata) := by
  obtain ⟨store', hvalid', ⟨metadata, s', hrun, hcomes, hrecords⟩ | ⟨e, hrun, hrecords, he⟩⟩ :=
    TrailM.Comes.run (TrailM.Comes.readOrInit new date) (.readOrInit new date) hvalid
  · refine .inl ⟨⟨store', config, metadata⟩, ?_, rfl, hvalid', ?_⟩
    · simp only [openOver, hconfig, hrun]
    · rcases hcomes with ⟨hthere, rfl⟩ | ⟨hfree, rfl, hfind⟩
      · exact .inl ⟨hthere, hrecords⟩
      · refine .inr ⟨hfree, rfl, fun key => ?_⟩
        exact (congrArg (fun records => SortedMap.find? records key) hrecords).trans (hfind key)
  · refine .inr ⟨e, store', ?_, hrecords, ?_⟩
    · simp only [openOver, hconfig, hrun]
    · exact he.imp_right fun hleft => hleft.elim fun _ hthere => hthere

/-- A store that is described is opened with these metadata, whatever there would be for a new filesystem. -/
theorem openOver_of_describes (hvalid : LawfulStore.Valid store) (hconfig : config.validate = .ok ())
    {metadata : Metadata} (h : (LawfulStore.records store).Describes metadata) (new : Metadata) (date : String) :
    (∃ fs, openOver config new date store = (.ok fs, fs.store) ∧ fs.metadata = metadata ∧
        fs.records = LawfulStore.records store) ∨
      ∃ e store', openOver config new date store = (.error e, store') ∧ e.IsFault σ ∧
        LawfulStore.records store' = LawfulStore.records store := by
  rcases openOver_outcomes hvalid hconfig new date with
    ⟨fs, hopen, -, -, ⟨hthere, hrecords⟩ | ⟨hfree, -⟩⟩ | ⟨e, store', hopen, hrecords, hfault | ⟨-, hnot⟩⟩
  · exact .inl ⟨fs, hopen, hthere.unique h, hrecords⟩
  · exact absurd h.inUse hfree
  · exact .inr ⟨e, store', hopen, hfault, hrecords⟩
  · exact absurd h (hnot metadata)

end Filesystem

/-- What a new filesystem shows. -/
theorem Records.view_of_founded {records records' : Records} {new : Metadata} {date : String}
    (h : ∀ key, records'.find? key = records.founded new date key) :
    records'.view.node .root = some .emptyDir ∧ records'.view.revision 0 = some ⟨.root, Revision.propsAt date⟩ ∧
      records'.view.number Counter.youngest = some 0 ∧ (new.InRange → records'.Describes new) := by
  have hroot : records'.find? (NodeRecord.key .root) = some (NodeRecord.encode .emptyDir) := by
    rw [h, founded, if_neg (by simp [NodeRecord.key, Metadata.key, Key.ofText_inj]),
      if_neg (by simp [NodeRecord.key, Counter.key, Key.ofText_inj]),
      if_neg (by simp [NodeRecord.key, Revision.key, Key.ofText_inj]), if_pos rfl]
  have hfirst : records'.find? (Revision.key 0) = some (Revision.encode ⟨.root, Revision.propsAt date⟩) := by
    rw [h, founded, if_neg (by simp [Revision.key, Metadata.key, Key.ofText_inj]),
      if_neg (by simp [Revision.key, Counter.key, Key.ofText_inj]), if_pos rfl]
  have hyoungest : records'.find? (Counter.key Counter.youngest) = some (Text.toBytes (Decimal.text 0)) := by
    rw [h, founded, if_neg (by simp [Counter.key, Counter.youngest, Metadata.key, Key.ofText_inj]), if_pos rfl]
  have hempty : NodeRevision.emptyDir.Storable := ⟨fun _ hflag => absurd hflag List.not_mem_nil, trivial⟩
  refine ⟨view_node_eq_some.2 ⟨_, hroot, NodeRecord.decode_encode hempty⟩, ?_, ?_, fun hrange => ?_⟩
  · exact bind_decode_eq_some.2 ⟨_, hfirst, Revision.decode_encode _⟩
  · show (records'.find? (Counter.key Counter.youngest)).bind Counter.number? = _
    rw [hyoungest]
    exact Counter.number?_text 0
  · exact ⟨_, (h _).trans (if_pos rfl), Metadata.decode?_encode hrange⟩

namespace Filesystem

variable {σ : Type} [RecordStore σ] [LawfulStore σ]

/-- **OPENING NEVER DAMAGES A FILESYSTEM.** Where a store has metadata or a youngest revision, well-formed or not, opening
    it with any configuration leaves every record as it was, and succeeds only if the configuration is valid and the
    metadata can be read, which are then the metadata of the filesystem. A store with neither becomes an empty filesystem,
    unless it fails: an immutable empty directory as the root, a first revision with this root, its number as the youngest
    one, and the new metadata are put, and all other records stay. Opening that again gives the same metadata and changes
    nothing. -/
theorem opening_is_safe {store : σ} (hvalid : LawfulStore.Valid store) (new : Metadata) (date : String) :
    ((LawfulStore.records store).InUse → ∀ config,
      LawfulStore.records (openOver config new date store).2 = LawfulStore.records store ∧
        ∀ fs, (openOver config new date store).1 = .ok fs → config.validate = .ok () ∧ fs.config = config ∧
          fs.records = LawfulStore.records store ∧ (LawfulStore.records store).Describes fs.metadata) ∧
    (¬ (LawfulStore.records store).InUse → new.InRange → ∀ config, config.validate = .ok () →
      (∃ fs, openOver config new date store = (.ok fs, fs.store) ∧ fs.config = config ∧ fs.metadata = new ∧
          (∀ key, fs.records.find? key = (LawfulStore.records store).founded new date key) ∧
          fs.view.node .root = some .emptyDir ∧ NodeRevision.emptyDir.isMutable = false ∧
          fs.view.revision 0 = some ⟨.root, Revision.propsAt date⟩ ∧ fs.view.number Counter.youngest = some 0 ∧
          LawfulStore.Valid fs.store ∧
          ∀ (again : σ) config' new' date', LawfulStore.Valid again → LawfulStore.records again = fs.records →
            config'.validate = .ok () →
            (∃ fs', openOver config' new' date' again = (.ok fs', fs'.store) ∧ fs'.metadata = new ∧
                fs'.records = fs.records) ∨
              ∃ e store', openOver config' new' date' again = (.error e, store') ∧ e.IsFault σ ∧
                LawfulStore.records store' = fs.records) ∨
        ∃ e store', openOver config new date store = (.error e, store') ∧ e.IsFault σ ∧
          LawfulStore.records store' = LawfulStore.records store) := by
  refine ⟨fun hused config => ?_, fun hfree hrange config hconfig => ?_⟩
  · cases hconfig : config.validate with
    | error e =>
      have hopen : openOver config new date store = (.error (.config e), store) := by rw [openOver, hconfig]
      rw [hopen]
      exact ⟨rfl, fun fs hok => by cases hok⟩
    | ok _ =>
      -- nothing was in use, so the store is founded, or it fails and is left as it was
      rcases openOver_outcomes hvalid hconfig new date with
        ⟨fs, hopen, hsame, -, ⟨hthere, hrecords⟩ | ⟨hfree, -⟩⟩ | ⟨e, store', hopen, hrecords, -⟩
      · rw [hopen]
        refine ⟨hrecords, fun fs' hok => ?_⟩
        cases hok
        exact ⟨rfl, hsame, hrecords, hthere⟩
      · exact absurd hused hfree
      · rw [hopen]
        exact ⟨hrecords, fun fs hok => by cases hok⟩
  · rcases openOver_outcomes hvalid hconfig new date with
      ⟨fs, hopen, hsame, hvalid', ⟨hthere, -⟩ | ⟨-, hnew, hfounded⟩⟩ | ⟨e, store', hopen, hrecords, hfault | ⟨hused, -⟩⟩
    · exact absurd hthere.inUse hfree
    · obtain ⟨hroot, hfirst, hyoungest, hdescribes⟩ := Records.view_of_founded hfounded
      refine .inl ⟨fs, hopen, hsame, hnew, hfounded, hroot, rfl, hfirst, hyoungest, hvalid', ?_⟩
      intro again config' new' date' hagain hrecords hconfig'
      rw [← hrecords] at hdescribes ⊢
      exact openOver_of_describes hagain hconfig' (hdescribes hrange) new' date'
    · exact .inr ⟨e, store', hopen, hfault, hrecords⟩
    · exact absurd hused hfree

/-- What is left of a filesystem whose metadata are lost: the number of its youngest revision. -/
def Sample.remains : Records :=
  SortedMap.empty.insert (Counter.key Counter.youngest) (Text.toBytes "7")

/-- No filesystem is made over the remains. One that is made over nothing keeps its identity. -/
theorem Sample.remains_left_alone :
    (openOver Config.default ⟨"new", 1⟩ "today" Sample.remains).2 = Sample.remains ∧
      (∀ fs, (openOver Config.default ⟨"new", 1⟩ "today" Sample.remains).1 ≠ .ok fs) ∧
      ∃ fs : Filesystem Records, openOver Config.default ⟨"new", 1⟩ "today" SortedMap.empty = (.ok fs, fs.store) ∧
        ∃ fs' : Filesystem Records, openOver Config.default ⟨"other", 2⟩ "tomorrow" fs.store = (.ok fs', fs'.store) ∧
          fs'.metadata = ⟨"new", 1⟩ ∧ fs'.records = fs.records := by
  have hyoungest : Sample.remains.find? (Counter.key Counter.youngest) ≠ none := by
    rw [Sample.remains, SortedMap.find?_insert, if_pos Std.ReflCmp.compare_self]
    exact Option.some_ne_none _
  have hmetadata : Sample.remains.find? Metadata.key = none := by decide +kernel
  have hrange : (⟨"new", 1⟩ : Metadata).InRange := ⟨by decide, by decide⟩
  have hvalid : LawfulStore.Valid Sample.remains := trivial
  have hempty : LawfulStore.Valid (SortedMap.empty : Records) := trivial
  obtain ⟨hkept, hfails⟩ := (opening_is_safe hvalid ⟨"new", 1⟩ "today").1 (.inr hyoungest) Config.default
  refine ⟨hkept, fun fs hok => ?_, ?_⟩
  · obtain ⟨-, -, -, value, hfind, -⟩ := hfails fs hok
    exact Option.some_ne_none value (hfind.symm.trans hmetadata)
  · have hfree : ¬ Records.InUse SortedMap.empty := by
      rintro (hthere | hthere) <;> exact hthere rfl
    rcases (opening_is_safe hempty ⟨"new", 1⟩ "today").2 hfree hrange Config.default rfl with
      ⟨fs, hopen, -, -, -, -, -, -, -, -, hagain⟩ | ⟨e, -, -, hfault, -⟩
    · refine ⟨fs, hopen, ?_⟩
      rcases hagain fs.store Config.default ⟨"other", 2⟩ "tomorrow" trivial rfl rfl with hsame | ⟨e, -, -, hfault, -⟩
      · exact hsame
      · exact absurd hfault (Records.not_isFault e)
    · exact absurd hfault (Records.not_isFault e)

end Filesystem

end VersionedTree

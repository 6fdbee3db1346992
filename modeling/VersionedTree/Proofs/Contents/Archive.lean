import Mathlib.Data.List.Nodup
import VersionedTree.Proofs.Contents.Chain

/-!
# Archives — contents that were stored one after the other

Contents are stored in any number of calls, each with its own configuration, in place of earlier contents or of none. No
key is given twice, and whatever was stored is there for good. All of it holds with any codec, since a codec comes with the
proof that it reads back what it wrote.

* **`Archive`** — a trail, with the log of all calls since the store was empty.
* **`Representation.Describes`** — a representation tells the truth about the contents of a call.
* **`Catalogue`** — what a log has to do with the records. **`Catalogue.store`** is one call, **`Archive.catalogued`** all
  of them.
* **`Archive.reads_back`** — the theorem.
-/

namespace VersionedTree

open VersionedTree.Representation

variable {σ : Type} [RecordStore σ]

/-- A call to store contents. Its numbers and lengths have the ranges of the arguments. -/
structure Request where
  config : Config
  /-- The key of the contents that are replaced. -/
  previous : Option String
  data : Bytes
  chain_lt : config.maxDeltaChain < UInt32.size
  previous_lt : ∀ base, previous = some base → (Text.toBytes base).length < UInt64.size
  data_lt : data.length < UInt64.size

/-- The call. -/
def Request.run [Codec] (request : Request) : TrailM σ String :=
  storeContents request.config request.previous request.data

variable [LawfulStore σ]

/-- A trail in which contents were stored, with the calls and the keys that they gave, the first one first. -/
inductive Archive [Codec] : List (String × Request) → Trail σ → Prop where
  | fresh {store : σ} (hvalid : LawfulStore.Valid store) (hempty : LawfulStore.records store = .empty) :
      Archive [] (Trail.start store)
  | store {log : List (String × Request)} {t t' : Trail σ} {request : Request} {key : String} (h : Archive log t)
      (hprevious : ∀ base, request.previous = some base → t.records.find? (recordKey base) ≠ none)
      (hrun : request.run t = (.ok key, t')) : Archive (log ++ [(key, request)]) t'
  | fail {log : List (String × Request)} {t t' : Trail σ} {request : Request} {e : Error} (h : Archive log t)
      (hprevious : ∀ base, request.previous = some base → t.records.find? (recordKey base) ≠ none)
      (hrun : request.run t = (.error e, t')) : Archive log t'
  /-- Another trail shows the same records: this one after a read, or one that starts when this one was completed, or when
      its store was opened again after that. -/
  | resume {log : List (String × Request)} {t t' : Trail σ} (h : Archive log t) (hvalid : LawfulStore.Valid t'.store)
      (hrecords : t'.records = t.records) : Archive log t'

/-- The computation gives this value, unless the store fails. -/
def Trail.Answers {α : Type} (t : Trail σ) (m : TrailM σ α) (a : α) : Prop :=
  (m t).1 = .ok a ∨ ∃ e, (m t).1 = .error e ∧ e.IsFault σ

/-- What a representation says of the contents of a call is true: the deltas below its key make them, and are as many as
    it says; their length and their digest are as it says. The chain is not longer than the call allowed. A delta is shorter
    than the contents, and against the contents that the call replaced, which were stored and are not empty. -/
structure Representation.Describes (rep : Representation) (v : View) (log : List (String × Request)) (key : String)
    (request : Request) : Prop where
  makes : ∀ data n, v.Makes key data n ↔ data = request.data ∧ n = rep.chainLength
  size : rep.size = request.data.length
  sha256 : rep.sha256 = Sha256.hexDigest request.data
  chain_le : rep.chainLength ≤ request.config.maxDeltaChain
  delta : ∀ base ops, rep.form = .delta base ops → (encodeOps ops).length < request.data.length ∧
    request.previous = some base ∧ ∃ earlier, (base, earlier) ∈ log ∧ earlier.data ≠ []

/-! ## Catalogues -/

/-- What the records say of the calls in a log. -/
structure Catalogue (log : List (String × Request)) (v : View) : Prop where
  /-- The counter holds the key for the next call. -/
  next : Counter.currentKey (v.global Counter.nextRepresentation) = .ok (Base36.keyAt log.length)
  /-- Keys were given in order. -/
  keys : log.map Prod.fst = (List.range log.length).map Base36.keyAt
  /-- There are no other representations. -/
  logged : ∀ {key}, v.rep key ≠ none → ∃ request, (key, request) ∈ log
  /-- Under each key there is a representation as which the contents may be stored. -/
  proposed : ∀ {key request}, (key, request) ∈ log → ∃ rep n, v.rep key = some rep ∧
    v.Proposes request.config request.previous request.data rep n

namespace Catalogue

variable {log : List (String × Request)} {v : View} {request : Request} {key : String} {rep : Representation} {n : Nat}

/-- No key is given to two requests. -/
theorem nodup_keys (h : Catalogue log v) : (log.map Prod.fst).Nodup := by
  rw [h.keys]
  exact List.nodup_range.map fun _ _ => Base36.keyAt_injective

/-- What was requested is held under its key. -/
theorem holds (h : Catalogue log v) (hmem : (key, request) ∈ log) : ∃ n, v.Holds key request.data n := by
  obtain ⟨rep, n, hrep, hproposed⟩ := h.proposed hmem
  exact ⟨n, hproposed.holds hrep⟩

/-- Every representation that is there was requested. -/
theorem holds_of_rep (h : Catalogue log v) (hrep : v.rep key ≠ none) : ∃ request, (key, request) ∈ log ∧
    ∃ n, v.Holds key request.data n := by
  obtain ⟨request, hmem⟩ := h.logged hrep
  exact ⟨request, hmem, h.holds hmem⟩

/-- What was stored is as long as a call allows. -/
theorem length_lt (h : Catalogue log v) {source : Bytes} (hheld : v.Holds key source n) : source.length < UInt64.size := by
  obtain ⟨rep, hrep, -⟩ := hheld.rep
  obtain ⟨request, -, m, hheld'⟩ := h.holds_of_rep fun hnone => nomatch hnone.symm.trans hrep
  rw [(hheld'.unique hheld).1]
  exact request.data_lt

/-- Whatever may be stored fits the fields of the binary record. -/
theorem fits (h : Catalogue log v) (hproposed : v.Proposes request.config request.previous request.data rep n) :
    rep.Fits := by
  have hdata := request.data_lt
  have hchain : n < UInt32.size := Nat.lt_of_le_of_lt hproposed.le request.chain_lt
  cases hproposed with
  | fullText => exact fits_of_digest hdata hchain hdata
  | @delta base source ops n hprevious hbase _ happly hshort _ =>
    obtain ⟨hcount, hlengths⟩ := le_opsLength ops
    have hsource := h.length_lt hbase
    refine fits_of_digest hdata hchain ⟨request.previous_lt base hprevious, by omega, ?_⟩
    intro op hop
    cases op with
    | copy offset length =>
      have hinside := Delta.copy_le_of_apply (Delta.apply_of_rebuild happly) hop
      exact ⟨by omega, by omega⟩
    | insert data =>
      have hlength : 12 + data.length ≤ opsLength ops := hlengths _ hop
      show data.length < UInt64.size
      omega

/-- Where there are no records, nothing was requested. -/
theorem fresh : Catalogue [] View.empty where
  next := rfl
  keys := rfl
  logged h := absurd rfl h
  proposed := nofun

/-- The next key is not in use. -/
theorem next_free (h : Catalogue log v) : v.rep (Base36.keyAt log.length) = none := by
  refine Classical.byContradiction fun hused => ?_
  obtain ⟨request, hmem⟩ := h.logged hused
  have hkey : Base36.keyAt log.length ∈ log.map Prod.fst := List.mem_map_of_mem hmem
  rw [h.keys] at hkey
  obtain ⟨k, hk, hsame⟩ := List.mem_map.1 hkey
  exact absurd (Base36.keyAt_injective hsame) (Nat.ne_of_lt (List.mem_range.1 hk))

/-- A representation that was stored describes the contents of its call. -/
theorem describes (h : Catalogue log v) (hmem : (key, request) ∈ log) :
    ∃ rep, v.rep key = some rep ∧ rep.Describes v log key request := by
  obtain ⟨rep, n, hrep, hproposed⟩ := h.proposed hmem
  have hheld := hproposed.holds hrep
  obtain ⟨rep', hrep', hchain, hdigest⟩ := hheld.rep
  cases hrep.symm.trans hrep'
  refine ⟨rep, hrep, ?_⟩
  constructor
  case makes => exact fun data n' => hchain ▸ hheld.makes_iff
  case size => exact size_eq_of_isOf hdigest
  case sha256 => exact sha256_eq_of_isOf hdigest
  case chain_le => exact hchain ▸ hproposed.le
  case delta =>
    intro base ops hform
    cases hproposed with
    | fullText => exact nomatch hform
    | delta hprevious hbase hsource _ hshort _ =>
      cases hform
      obtain ⟨rep, hrep, -⟩ := hbase.rep
      obtain ⟨earlier, hearlier, m, hheld'⟩ := h.holds_of_rep fun hnone => nomatch hnone.symm.trans hrep
      refine ⟨length_encodeOps ops ▸ hshort, hprevious, earlier, hearlier, ?_⟩
      rwa [(hheld'.unique hbase).1] at hsource

/-- **ONE CALL** more: a representation is added under the next key. -/
theorem store (h : Catalogue log v) (hproposed : v.Proposes request.config request.previous request.data rep n) :
    Catalogue (log ++ [(Base36.keyAt log.length, request)])
      ((v.setGlobal Counter.nextRepresentation (Text.toBytes (Base36.keyAt (log.length + 1)))).setRep
        (Base36.keyAt log.length) rep) := by
  -- what stood under a key stands there still, since the new key is the first that was free
  have hreps : ∀ key rep', v.rep key = some rep' →
      ((v.setGlobal Counter.nextRepresentation (Text.toBytes (Base36.keyAt (log.length + 1)))).setRep
        (Base36.keyAt log.length) rep).rep key = some rep' :=
    fun _ _ hother => View.rep_setRep_of_free h.next_free hother
  constructor
  case next => simp [Counter.currentKey]
  case keys => simp [h.keys, List.range_succ]
  case logged =>
    intro key hkey
    by_cases hself : key = Base36.keyAt log.length
    · subst hself
      exact ⟨request, List.mem_append_right _ List.mem_cons_self⟩
    · have hused : v.rep key ≠ none := by simpa [hself] using hkey
      obtain ⟨earlier, hmem⟩ := h.logged hused
      exact ⟨earlier, List.mem_append_left _ hmem⟩
  case proposed =>
    intro key earlier hmem
    rcases List.mem_append.1 hmem with hold | hlast
    · obtain ⟨rep', m, hrep', hproposed'⟩ := h.proposed hold
      exact ⟨rep', m, hreps _ _ hrep', hproposed'.mono hreps⟩
    · cases List.mem_singleton.1 hlast
      exact ⟨rep, n, by simp, hproposed.mono hreps⟩

end Catalogue

/-! ## Calls -/

section AnyCodec

variable [Codec]

/-- The records of a trail are readable, and have a catalogue. -/
structure Trail.Catalogued (log : List (String × Request)) (t : Trail σ) : Prop where
  valid : LawfulStore.Valid t.store
  sound : t.records.Sound
  catalogue : Catalogue log t.records.view

variable {log : List (String × Request)} {v : View} {t t' : Trail σ}

/-- **A CALL** gives the next key, unless the store fails. -/
theorem Request.ends (request : Request) (h : Catalogue log v)
    (hprevious : ∀ base, request.previous = some base → v.rep base ≠ none) :
    (request.run : TrailM σ String).Ends v
      (fun key w => key = Base36.keyAt log.length ∧ Catalogue (log ++ [(key, request)]) w)
      (fun e w => w = v ∧ e.IsFault σ) := by
  have hheld : ∀ base, request.previous = some base → ∃ source n, v.Holds base source n := by
    intro base hbase
    obtain ⟨earlier, -, n, hheld⟩ := h.holds_of_rep (hprevious base hbase)
    exact ⟨earlier.data, n, hheld⟩
  refine TrailM.Ends.mono (TrailM.Ends.storeContents request.config request.data hheld) ?_ ?_
  · rintro key w ⟨next, rep, n, hproposed, hkey, hnext, rfl⟩
    cases h.next.symm.trans hkey
    cases (Base36.next?_keyAt log.length).symm.trans hnext
    exact ⟨rfl, h.store hproposed⟩
  · rintro e w ⟨rfl, hfault | ⟨-, rep, n, -, hproposed, hfits⟩ | hstuck⟩
    · exact ⟨rfl, hfault⟩
    · exact absurd (h.fits hproposed) hfits
    · exact nomatch (Base36.next?_keyAt log.length).symm.trans (hstuck _ h.next)

namespace Trail.Catalogued

/-- A request that finds its predecessor gets the next key, or fails and leaves the catalogue as it was. -/
theorem run_cases (h : t.Catalogued log) (request : Request)
    (hprevious : ∀ base, request.previous = some base → t.records.find? (recordKey base) ≠ none) :
    ∃ t', (request.run t = (.ok (Base36.keyAt log.length), t') ∧
        t'.Catalogued (log ++ [(Base36.keyAt log.length, request)])) ∨
      ∃ e, request.run t = (.error e, t') ∧ t'.Catalogued log ∧ e.IsFault σ := by
  have hreps : ∀ base, request.previous = some base → t.records.view.rep base ≠ none :=
    fun base hbase => (Records.find?_rep_ne_none h.sound base).1 (hprevious base hbase)
  rcases request.ends h.catalogue hreps _ t ⟨h.valid, rfl, h.sound, rfl⟩ with
    ⟨key, t', w, hrun, ht, rfl, hstored⟩ | ⟨e, t', w, hrun, ht, rfl, hfault⟩
  · exact ⟨t', .inl ⟨hrun, ht.valid, ht.sound, ht.view ▸ hstored⟩⟩
  · exact ⟨t', .inr ⟨e, hrun, ⟨ht.valid, ht.sound, ht.view ▸ h.catalogue⟩, hfault⟩⟩

/-- Contents that were stored are read. -/
theorem answers (h : t.Catalogued log) {key : String} {request : Request} (hmem : (key, request) ∈ log) :
    t.Answers (readContents key) request.data := by
  obtain ⟨n, hheld⟩ := h.catalogue.holds hmem
  rcases TrailM.Reads.contents hheld _ t ⟨h.valid, rfl, h.sound, rfl⟩ with
    ⟨found, t', w, hrun, -, -, rfl⟩ | ⟨e, t', w, hrun, -, -, hfault⟩
  · exact .inl (congrArg Prod.fst hrun)
  · exact .inr ⟨e, congrArg Prod.fst hrun, hfault⟩

/-- There is a record for every key that was given, and for no other. -/
theorem find?_ne_none (h : t.Catalogued log) (key : String) :
    t.records.find? (recordKey key) ≠ none ↔ ∃ request, (key, request) ∈ log := by
  rw [Records.find?_rep_ne_none h.sound]
  constructor
  · exact h.catalogue.logged
  · rintro ⟨request, hmem⟩ hnone
    obtain ⟨rep, n, hrep, -⟩ := h.catalogue.proposed hmem
    exact nomatch hnone.symm.trans hrep

end Trail.Catalogued

/-- **EVERY ARCHIVE HAS ITS CATALOGUE.** -/
theorem Archive.catalogued (h : Archive log t) : t.Catalogued log := by
  induction h with
  | @fresh store hvalid hempty =>
    have hrecords : (Trail.start store).records = .empty := hempty
    exact ⟨hvalid, hrecords ▸ Records.sound_empty, hrecords ▸ .fresh⟩
  | store _ hprevious hrun ih =>
    obtain ⟨t'', ⟨heq, ht⟩ | ⟨e, heq, -⟩⟩ := ih.run_cases _ hprevious
    · cases hrun.symm.trans heq
      exact ht
    · exact nomatch hrun.symm.trans heq
  | fail _ hprevious hrun ih =>
    obtain ⟨t'', ⟨heq, -⟩ | ⟨e, heq, ht, -⟩⟩ := ih.run_cases _ hprevious
    · exact nomatch hrun.symm.trans heq
    · cases hrun.symm.trans heq
      exact ht
  | resume _ hvalid hrecords ih => exact ⟨hvalid, hrecords ▸ ih.sound, hrecords ▸ ih.catalogue⟩

/-- **STORED CONTENTS READ BACK.** In an archive there are the representations that its log names, each under a key of its
    own, and no others. Under each of these keys the contents of its call are read, and its representation describes them.
    A further call gives a key that was not in use, under which its contents are read from then on, and under every
    earlier key what was read before. -/
theorem Archive.reads_back (h : Archive log t) :
    (log.map Prod.fst).Nodup ∧
    (∀ key, t.records.find? (recordKey key) ≠ none ↔ ∃ request, (key, request) ∈ log) ∧
    (∀ key request, (key, request) ∈ log → t.Answers (readContents key) request.data ∧
      ∃ rep, t.records.view.rep key = some rep ∧ rep.Describes t.records.view log key request) ∧
    ∀ request : Request, (∀ base, request.previous = some base → t.records.find? (recordKey base) ≠ none) →
      (∃ key t', request.run t = (.ok key, t') ∧ t.records.find? (recordKey key) = none ∧
        t'.Answers (readContents key) request.data ∧
        ∀ earlier request', (earlier, request') ∈ log → t'.Answers (readContents earlier) request'.data) ∨
      ∃ e t', request.run t = (.error e, t') ∧ e.IsFault σ := by
  have hcatalogued := h.catalogued
  refine ⟨hcatalogued.catalogue.nodup_keys, hcatalogued.find?_ne_none, ?_, ?_⟩
  · exact fun key request hmem => ⟨hcatalogued.answers hmem, hcatalogued.catalogue.describes hmem⟩
  · intro request hprevious
    obtain ⟨t', ⟨hrun, ht'⟩ | ⟨e, hrun, -, hfault⟩⟩ := hcatalogued.run_cases request hprevious
    · refine .inl ⟨_, t', hrun, ?_, ht'.answers (List.mem_append_right _ List.mem_cons_self), ?_⟩
      · refine Classical.byContradiction fun hused => ?_
        exact (Records.find?_rep_ne_none hcatalogued.sound _).1 hused hcatalogued.catalogue.next_free
      · exact fun earlier request' hmem => ht'.answers (List.mem_append_left _ hmem)
    · exact .inr ⟨e, t', hrun, hfault⟩

end AnyCodec

namespace Archive.Sample

/-- A file of one line. -/
def first : Request where
  config := .default
  previous := none
  data := List.replicate 64 97
  chain_lt := by decide
  previous_lt := nofun
  data_lt := by decide

/-- The line has got longer. -/
def second : Request where
  config := .default
  previous := some "0"
  data := List.replicate 80 97
  chain_lt := by decide
  previous_lt := by
    rintro _ ⟨⟩
    decide
  data_lt := by decide

/-- The first version gets the first key. -/
theorem archive_first :
    ∃ stored, first.run (Trail.start (.empty : Records)) = (.ok "0", stored) ∧ Archive [("0", first)] stored := by
  have hfresh : Archive [] (Trail.start (.empty : Records)) := .fresh trivial rfl
  obtain ⟨stored, ⟨hrun, -⟩ | ⟨e, -, -, hfault⟩⟩ := hfresh.catalogued.run_cases first nofun
  · exact ⟨stored, hrun, hfresh.store nofun hrun⟩
  · exact absurd hfault (Records.not_isFault e)

/-- The second version is stored, and both are read. -/
theorem versions_read_back : ∃ stored key t', first.run (Trail.start (.empty : Records)) = (.ok "0", stored) ∧
    second.run stored = (.ok key, t') ∧ stored.records.find? (recordKey key) = none ∧
    (readContents key t').1 = .ok second.data ∧ (readContents "0" t').1 = .ok first.data := by
  obtain ⟨stored, hfirst, harchive⟩ := archive_first
  obtain ⟨-, hlogged, -, hcall⟩ := harchive.reads_back
  have hprevious : ∀ base, second.previous = some base → stored.records.find? (recordKey base) ≠ none := by
    rintro _ ⟨⟩
    exact (hlogged "0").2 ⟨first, List.mem_cons_self⟩
  obtain ⟨key, t', hrun, hfree, hread, hearlier⟩ | ⟨e, t', -, hfault⟩ := hcall second hprevious
  · refine ⟨stored, key, t', hfirst, hrun, hfree, hread.resolve_right ?_, ?_⟩
    · exact fun ⟨e, _, hfault⟩ => Records.not_isFault e hfault
    · exact (hearlier "0" first List.mem_cons_self).resolve_right fun ⟨e, _, hfault⟩ => Records.not_isFault e hfault
  · exact absurd hfault (Records.not_isFault e)

end Archive.Sample

end VersionedTree

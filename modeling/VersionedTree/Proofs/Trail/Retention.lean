import VersionedTree.Proofs.Trail.Frames
import VersionedTree.Proofs.Tree.Answers
import VersionedTree.Proofs.Tree.Permanence

/-!
# Retention — records that stay

The records of revisions and of representations are there for good, byte by byte, and the record of a node may change but
does not go away. Most computations do not write to the first two tables at all. The two that do add one record, and its
key was free.

* **`Records.Retains`** — later records have what earlier ones had.
* **`TrailM.Spares`** — a computation leaves one record alone. This may depend on the view, as the key of a new record
  does.
* **`Trail.Shows.retains`** — what is left alone is retained.
* **`Trail.Shows.retains_step`** — no step of a client takes away or writes over what is retained.
-/

namespace VersionedTree

variable {σ ω α β : Type}

/-- True if nothing is lost: of revisions and representations each record is the same, and of nodes there is one still. -/
structure Records.Retains (records records' : Records) : Prop where
  kept : ∀ key value, key.table = .revisions ∨ key.table = .representations → records.find? key = some value →
    records'.find? key = some value
  node : ∀ key, key.table = .nodes → records.find? key ≠ none → records'.find? key ≠ none

namespace Records.Retains

variable {a b c : Records}

theorem refl (records : Records) : records.Retains records :=
  ⟨fun _ _ _ h => h, fun _ _ h => h⟩

theorem trans (h : a.Retains b) (h' : b.Retains c) : a.Retains c where
  kept key value htable hfind := h'.kept key value htable (h.kept key value htable hfind)
  node key htable hfind := h'.node key htable (h.node key htable hfind)

end Records.Retains

namespace View

variable {v w : View} {id : NodeId}

/-- No edit removes a node. -/
theorem Edited.node_ne_none {edit : Edit} (h : v.Edited edit w) (hid : v.node id ≠ none) : w.node id ≠ none := by
  cases h with
  | skip _ _ => exact hid
  | strand _ _ _ _ _ => exact node_setNode_ne_none hid
  | cloneRoot _ _ _ _ _ => exact node_setNode_ne_none hid
  | cloneChild _ _ _ _ _ _ _ _ => exact node_setNode_ne_none (node_setNode_ne_none hid)
  | make _ _ _ _ _ _ _ =>
    have hskip : ∀ n, (v.setNumber Counter.nextNode n).node id ≠ none := fun _ => hid
    exact node_setNode_ne_none (node_setNode_ne_none (hskip _))
  | delete _ _ _ _ _ _ => exact node_setNode_ne_none hid
  | setProps _ _ => exact node_setNode_ne_none hid
  | @setContents _ _ _ _ key next rep _ _ _ _ _ _ _ =>
    have hrep : ((v.setGlobal Counter.nextRepresentation (Text.toBytes next)).setRep key rep).node id ≠ none := hid
    exact node_setNode_ne_none hrep
  | begin _ _ _ => exact hid
  | close _ => exact hid
  | @commit _ _ txn _ _ _ =>
    show (v.freeze txn.root).node id ≠ none
    by_cases hreach : v.Editable txn.root id
    · rwa [freeze, node_freezeAll_of_mem hreach, Ne, Option.map_eq_none_iff]
    · rwa [freeze, node_freezeAll_of_not_mem hreach]

/-- Clients take no node away. -/
theorem ClientStep.node_ne_none (h : v.ClientStep w) (hid : v.node id ≠ none) : w.node id ≠ none := by
  rcases h with rfl | ⟨edit, -, hedit⟩
  · exact hid
  · exact hedit.node_ne_none hid

end View

variable [RecordStore σ] [LawfulStore σ]

/-- A record that is not staged is that of the store. -/
theorem Trail.Shows.find?_eq {base : Records} {v w : View} {t t' : Trail σ} (ht : t.Shows base v) (ht' : t'.Shows base w)
    {key : Key} (h : t'.staged.find? key = t.staged.find? key) : t'.records.find? key = t.records.find? key := by
  rw [find?_records, find?_records, h, ht.base, ht'.base]

namespace TrailM

/-- From every trail that shows the view, a computation leaves this record alone. -/
def Spares (m : TrailM σ α) (v : View) (key : Key) : Prop :=
  ∀ base t, t.Shows base v → (m t).2.staged.find? key = t.staged.find? key

variable {m : TrailM σ α} {f : α → TrailM σ β} {v : View} {key : Key} {tables : List Table}

/-- No record of another table is written to. -/
theorem Spares.frame (h : m.StagesIn tables) (hkey : key.table ∉ tables) : m.Spares v key :=
  fun _ t _ => h t key hkey

/-- A sequence spares a record that its parts spare, on every view that the first ends with. -/
theorem Spares.bind {Q : α → View → Prop} {E : Error → View → Prop} (h : m.Spares v key) (hends : m.Ends v Q E)
    (hf : ∀ a w, Q a w → (f a).Spares w key) : (m >>= f).Spares v key := by
  intro base t ht
  have hm := h base t ht
  rcases hends base t ht with ⟨a, t', w, hrun, ht', hq⟩ | ⟨e, t', w, hrun, ht', -⟩
  · rw [hrun] at hm
    rw [bind_of_ok hrun]
    exact (hf a w hq base t' ht').trans hm
  · rw [hrun] at hm
    rw [bind_of_error hrun]
    exact hm

/-- After a computation that leaves the view alone. -/
theorem Spares.after {Q : α → Prop} {E : Error → Prop} (h : m.Spares v key) (hends : m.Reads v Q E)
    (hf : ∀ a, Q a → (f a).Spares v key) : (m >>= f).Spares v key := by
  refine .bind h hends ?_
  rintro a w ⟨rfl, hq⟩
  exact hf a hq

/-- Putting a record spares all others. -/
theorem Spares.put {key' : Key} (h : key ≠ key') (value : Bytes) : (Trail.put key' value : TrailM σ Unit).Spares v key := by
  intro base t _
  exact (SortedMap.find?_insert ..).trans (if_neg fun heq => h (Std.LawfulEqOrd.eq_of_compare heq))

/-! ## New representations -/

/-- A new representation gets a key that is free, and no other is written to. -/
theorem Spares.createRep (hv : v.Consistent) (config : Config) (rep : Representation) (hkey : key.table ≠ .globals)
    (hname : ∀ name, key = Representation.recordKey name → v.rep name ≠ none) :
    (Representation.create config rep : TrailM σ String).Spares v key := by
  have hencode : (TrailM.ofExcept Error.storage (rep.toStored config.compressionLevel) : TrailM σ Bytes).Reads v
      (fun _ => True) (fun _ => True) := Reads.ofExcept (fun _ _ => trivial) fun _ _ => trivial
  refine .after (.frame (.ofExcept _ _) List.not_mem_nil) hencode fun stored _ => ?_
  have hcounter : key.table ∉ [Table.globals] := fun hmem => hkey (List.mem_singleton.1 hmem)
  refine .bind (.frame (.allocateKey List.mem_cons_self _) hcounter) (Ends.allocateKey Counter.nextRepresentation) ?_
  rintro new w ⟨hnew, next, hnext, rfl⟩
  have hne : key ≠ Representation.recordKey new := by
    rintro rfl
    exact hname new rfl (hv.repKey_free hnew hnext).1
  have hput : (Trail.put (Representation.recordKey new) stored : TrailM σ Unit).Spares
      (v.setGlobal Counter.nextRepresentation (Text.toBytes next)) key := .put hne _
  intro base t ht
  exact hput base t ht

/-- Storing contents spares all representations that are there. -/
theorem Spares.storeContents (hv : v.Consistent) (config : Config) {previous : Option String} (data : Bytes)
    (hprevious : ∀ base, previous = some base → ∃ source n, v.Holds base source n) (hkey : key.table ≠ .globals)
    (hname : ∀ name, key = Representation.recordKey name → v.rep name ≠ none) :
    (Representation.storeContents config previous data : TrailM σ String).Spares v key :=
  .after (.frame (.deltaFor _ _ _) List.not_mem_nil) (Reads.deltaFor config hprevious) fun _ _ =>
    .createRep hv config _ hkey hname

/-- Setting contents spares all representations that are there. -/
theorem Spares.setContentsStep (hv : v.Consistent) (config : Config) (data : Bytes) {node : Node} (hnode : v.Current node)
    (hkey : key.table ∉ [Table.nodes, .globals]) (hname : ∀ name, key = Representation.recordKey name → v.rep name ≠ none) :
    (node.setContentsStep config data : TrailM σ _).Spares v key := by
  have hglobals : key.table ≠ .globals := fun heq => hkey (heq ▸ List.mem_cons_of_mem _ List.mem_cons_self)
  rw [Node.setContentsStep]
  cases hbody : node.revision.body with
  | dir entries => exact .frame (.throw _) List.not_mem_nil
  | file previous =>
    have hprevious : ∀ base, previous = some base → ∃ source n, v.Holds base source n := by
      rintro base rfl
      exact hv.backed node.id node.revision hnode base hbody
    refine .after (.frame (.requireMutable _) List.not_mem_nil) (Reads.requireMutable node) fun _ _ => ?_
    refine .bind (.storeContents hv config data hprevious hglobals hname) (Ends.storeContents config data hprevious) ?_
    intro new w _
    exact .frame (.bind (.save List.mem_cons_self _) fun _ => .pure _) hkey

/-! ## New revisions -/

/-- Only the record of the new revision is written to, and its counter. -/
theorem Spares.appendRevision (revision : Revision) (hkey : key.table ≠ .globals)
    (hnumber : ∀ number, v.IsNextRevision number → key ≠ Revision.key number) :
    (Revision.append revision : TrailM σ UInt64).Spares v key := by
  have hnext : (Revision.nextNumber : TrailM σ UInt64).StagesIn [] := by
    refine .bind (.readNumber _) fun youngest => ?_
    cases youngest with
    | none => exact .pure _
    | some youngest => exact .successor _ _
  have hglobals : key.table ∉ [Table.globals] := fun hmem => hkey (List.mem_singleton.1 hmem)
  refine .after (.frame hnext List.not_mem_nil) Reads.nextNumber fun next hisNext => ?_
  refine .bind (.put (hnumber next hisNext) _) Writes.putRevision fun _ w _ => ?_
  exact .frame (.bind (.writeNumber List.mem_cons_self _ _) fun _ => .pure _) hglobals

/-- A commit leaves the revisions alone that are there. -/
theorem Spares.commit (name date : String) (hkey : key.table ∉ [Table.nodes, .transactions, .globals])
    (hnumber : ∀ number, v.IsNextRevision number → key ≠ Revision.key number) :
    (Transaction.commit name date : TrailM σ UInt64).Spares v key := by
  have hmem : ∀ table, table ∈ [Table.nodes, .transactions, .globals] → key.table ≠ table :=
    fun table htable heq => hkey (heq ▸ htable)
  refine .after (.frame (.readTxn name) List.not_mem_nil) (Reads.txn name) fun txn _ => ?_
  refine .after (.frame .youngest List.not_mem_nil) Reads.youngest fun youngest _ => ?_
  split
  case isTrue => exact .frame (.throw _) List.not_mem_nil
  case isFalse =>
    -- freezing changes neither the revisions nor their counter
    refine .bind (.frame (.freeze List.mem_cons_self _) fun h => hmem .nodes (by decide) (List.mem_singleton.1 h))
      (Ends.freeze txn.root) ?_
    rintro count w rfl
    refine .bind (.appendRevision _ (hmem .globals (by decide)) hnumber) (Ends.appendRevision _) fun number w _ => ?_
    exact .frame (.bind (.closeTxn List.mem_cons_self name) fun _ => .pure _)
      fun h => hmem .transactions (by decide) (List.mem_singleton.1 h)

end TrailM

namespace ClientM

/-- From every trail that shows the view, the computation of a client leaves this record alone. -/
def Spares (m : ClientM ω σ α) (held : ω) (v : View) (key : Key) : Prop :=
  ∀ base t, t.Shows base v → (m held t).2.staged.find? key = t.staged.find? key

variable {m : ClientM ω σ α} {f : α → ClientM ω σ β} {held : ω} {v : View} {key : Key} {tables : List Table}

/-- Records of a table that nothing is staged in are spared. -/
theorem Spares.frame (h : m.StagesIn tables) (hkey : key.table ∉ tables) : m.Spares held v key :=
  fun _ t _ => h held t key hkey

/-- What the trail spares is spared for a client. -/
theorem Spares.lift {m : TrailM σ α} (h : m.Spares v key) : (TrailM.lift m : ClientM ω σ α).Spares held v key :=
  fun base t ht => h base t ht

/-- For clients, too, a sequence spares what its parts spare. -/
theorem Spares.bind {Q : α → ω → View → Prop} {E : Error → ω → View → Prop} (h : m.Spares held v key)
    (hends : m.Ends held v Q E) (hf : ∀ a held' w, Q a held' w → (f a).Spares held' w key) :
    (m >>= f).Spares held v key := by
  intro base t ht
  have hm := h base t ht
  rcases hends base t ht with ⟨a, held', t', w, hrun, ht', hq⟩ | ⟨e, held', t', w, hrun, ht', -⟩
  · rw [hrun] at hm
    rw [bind_of_ok hrun]
    exact (hf a held' w hq base t' ht').trans hm
  · rw [hrun] at hm
    rw [bind_of_error hrun]
    exact hm

/-- What is held may be looked at first. -/
theorem Spares.get {f : ω → ClientM ω σ β} (h : (f held).Spares held v key) :
    (getThe ω >>= f : ClientM ω σ β).Spares held v key := by
  intro base t ht
  have hget : (getThe ω : ClientM ω σ ω) held t = ((.ok held, held), t) := rfl
  rw [bind_of_ok hget]
  exact h base t ht

/-- Storing contents leaves the representations alone that are there. -/
theorem Spares.setContents (hv : v.Consistent) (config : Config) (h : String) (data : Bytes) (handles : Client.Handles)
    (hkey : key.table ∉ [Table.nodes, .globals]) (hname : ∀ name, key = Representation.recordKey name → v.rep name ≠ none) :
    ((Client.Step.setContents h data).run config : ClientM Client.Handles σ Client.Answer).Spares handles v key := by
  refine .get ?_
  cases handles.find? h with
  | none => exact .frame (.pure _) List.not_mem_nil
  | some node =>
    have hends : ∀ fresh, v.Current fresh → fresh.revision.Storable →
        (fresh.setContentsStep config data : TrailM σ _).Ends v (fun _ _ => True) fun _ _ => True := by
      intro fresh hfresh hstorable
      exact TrailM.Ends.mono (TrailM.Ends.setContentsStep config data hfresh hstorable (hv.backed _ _ hfresh))
        (fun _ _ _ => trivial) fun _ _ _ => trivial
    -- the step is taken on the node as it is read again
    have hchange : (Node.setContents config data : Node.HandleM σ Unit).Spares node v key := by
      refine .bind (.frame .reload List.not_mem_nil) (Ends.reload node) ?_
      rintro _ fresh w ⟨rfl, -, hfresh, hstorable⟩
      refine .get (.bind (Q := fun _ _ _ => True) (E := fun _ _ _ => True)
        (.lift (.setContentsStep hv config data hfresh hkey hname)) ?_ fun r held w _ => ?_)
      · exact Ends.lift (hends fresh hfresh hstorable) (fun _ _ h => h) fun _ _ h => h
      · exact .frame (.bind (.set r.2) fun _ => .pure _) List.not_mem_nil
    have hthrough : (Client.through h node (Node.setContents config data) : ClientM Client.Handles σ Unit).Spares handles v
        key := fun base t ht => hchange base t ht
    refine .bind hthrough (Ends.through (Ends.change (fun fresh _ => hends fresh) fun _ _ => trivial)) fun _ held w _ => ?_
    exact .frame (.pure _) List.not_mem_nil

/-- A step of a client leaves the revisions and representations alone that are there. -/
theorem Spares.step (hv : v.Consistent) (config : Config) (step : Client.Step) (handles : Client.Handles)
    (hkey : key.table = .revisions ∨ key.table = .representations)
    (hname : ∀ name, key = Representation.recordKey name → v.rep name ≠ none) :
    (step.run config : ClientM Client.Handles σ Client.Answer).Spares handles v key := by
  by_cases hstep : ∃ h data, step = .setContents h data
  · obtain ⟨h, data, rfl⟩ := hstep
    exact .setContents hv config h data handles (by rcases hkey with hkey | hkey <;> rw [hkey] <;> decide) hname
  · refine .frame (.step config fun h data heq => hstep ⟨h, data, heq⟩) ?_
    rcases hkey with hkey | hkey <;> rw [hkey] <;> decide

end ClientM

/-! ## Nothing is lost -/

variable {base : Records} {v w : View} {t t' : Trail σ}

/-- If the records of revisions and representations are left alone and no node is removed, then nothing is lost. -/
theorem Trail.Shows.retains (ht : t.Shows base v) (ht' : t'.Shows base w)
    (hkept : ∀ key value, key.table = .revisions ∨ key.table = .representations → t.records.find? key = some value →
      t'.staged.find? key = t.staged.find? key)
    (hnode : ∀ id, v.node id ≠ none → w.node id ≠ none) : t.records.Retains t'.records where
  kept key value htable hfind := (ht.find?_eq ht' (hkept key value htable hfind)).trans hfind
  node key htable hfind := by
    obtain ⟨value, hvalue⟩ := Option.ne_none_iff_exists'.1 hfind
    have hreadable := ht.sound key value hvalue
    rw [Records.Readable, htable] at hreadable
    obtain ⟨⟨id, rfl⟩, -⟩ := hreadable
    rw [Records.find?_node_ne_none ht.sound, ht.view] at hfind
    rw [Records.find?_node_ne_none ht'.sound, ht'.view]
    exact hnode id hfind

/-- **NO STEP OF A CLIENT LOSES ANYTHING.** -/
theorem Trail.Shows.retains_step (ht : t.Shows base v) (hv : v.Consistent) (config : Config) (step : Client.Step)
    (handles : Client.Handles) : t.records.Retains (step.run config handles t).2.records := by
  have hkept : ∀ key value, key.table = .revisions ∨ key.table = .representations → t.records.find? key = some value →
      (step.run config handles t).2.staged.find? key = t.staged.find? key := by
    intro key value htable hfind
    refine ClientM.Spares.step hv config step handles htable ?_ base t ht
    rintro name rfl
    exact ht.view ▸ (Records.find?_rep_ne_none ht.sound name).1 (hfind ▸ nofun)
  rcases ClientM.Follows.step config hv.backed step base t ht with
    ⟨a, held, t', w, hrun, ht', hstep⟩ | ⟨e, held, t', w, hrun, ht', hstep⟩
  all_goals
    rw [hrun] at hkept ⊢
    exact ht.retains ht' hkept fun _ => hstep.node_ne_none

end VersionedTree

import VersionedTree.Proofs.Filesystem.Paths
import VersionedTree.Proofs.Trail.Outcomes

/-!
# Lookup — a path is followed part by part

A path that is cut at a slash is followed by following its first part, and from where that leads its second part. So
all that counts of a path are the names on it, whatever slashes stand around them, and what is answered is the answer of
the first part that fails.

* **`Path.names_slash`** — the names on both sides of a slash. Everything else about slashes follows from it.
* **`Path.Slashed`** — a path with further slashes, where there are some already and at its ends.
  **`Slashed.names_eq`** — the names on it are the same.
* **`Records.lookup`** — what names lead to, said of records and without a trail. **`Looks.follow`** — it is what is
  opened.
* **`Path.opens_part_by_part`** — the theorem.
-/

namespace VersionedTree

/-! ## Slashes -/

namespace Path

/-- **THE NAMES OF BOTH PARTS** are on a path, whatever the parts are. -/
theorem names_slash (p q : String) : names (p ++ "/" ++ q) = names p ++ names q := by
  have hcut : (p ++ "/" ++ q).toList = p.toList ++ '/' :: q.toList := by
    rw [String.toList_append, String.toList_append, List.append_assoc]
    rfl
  rw [names, hcut, List.splitOn_append_cons_self, List.filter_append, List.map_append]
  rfl

/-- True of a path with further slashes: beside one that stands there already, at the start or at the end, any number of
    times. -/
inductive Slashed (path : String) : String → Prop where
  | same : Slashed path path
  | beside {p q : String} (h : Slashed path (p ++ "/" ++ q)) : Slashed path (p ++ "//" ++ q)
  | start {p : String} (h : Slashed path p) : Slashed path ("/" ++ p)
  | stop {p : String} (h : Slashed path p) : Slashed path (p ++ "/")

/-- **FURTHER SLASHES** add no names. -/
theorem Slashed.names_eq {path path' : String} (h : Slashed path path') : names path' = names path := by
  have hempty : names "" = [] := rfl
  induction h with
  | same => rfl
  | @beside p q _ ih =>
    -- at two slashes a path is cut twice, and the part in the middle has no names
    have htwo : p ++ "//" ++ q = p ++ "/" ++ "" ++ "/" ++ q := by
      rw [String.append_empty, @String.append_assoc p "/" "/"]
      rfl
    rw [htwo, names_slash, names_slash, hempty, List.append_nil, ← names_slash]
    exact ih
  | @start p _ ih =>
    have hcut : "/" ++ p = "" ++ "/" ++ p := by rw [String.empty_append]
    rw [hcut, names_slash, hempty]
    exact ih
  | @stop p _ ih =>
    have hcut : p ++ "/" = p ++ "/" ++ "" := by rw [String.append_empty]
    rw [hcut, names_slash, hempty, List.append_nil]
    exact ih

section Follow

variable {σ : Type} [RecordStore σ]

/-- Two lists of names are followed one after the other. -/
theorem follow_append (node : Node) (ns more : List String) :
    (follow node (ns ++ more) : TrailM σ Node) = follow node ns >>= fun between => follow between more := by
  induction ns generalizing node with
  | nil => exact (pure_bind _ _).symm
  | cons name ns ih =>
    have hrest : (fun child => follow child (ns ++ more) : Node → TrailM σ Node) =
        fun child => follow child ns >>= fun between => follow between more := funext fun child => ih child
    rw [List.cons_append, follow, follow, bind_assoc, hrest]

/-- Following names is a loop over them. -/
theorem follow_eq_foldlM (node : Node) (ns : List String) :
    (follow node ns : TrailM σ Node) = ns.foldlM (fun between name => between.openChild name) node := by
  induction ns generalizing node with
  | nil => rfl
  | cons name ns ih => rw [follow, List.foldlM_cons, funext fun child => ih child]

/-- **A PATH IS FOLLOWED PART BY PART.** -/
theorem openFrom_slash (node : Node) (p q : String) :
    (openFrom node (p ++ "/" ++ q) : TrailM σ Node) = openFrom node p >>= fun between => openFrom between q := by
  rw [openFrom, names_slash, follow_append]
  rfl

end Follow

end Path

/-! ## What names lead to -/

namespace Records

/-- The node with this id, as the records have it. -/
def nodeAt (records : Records) (id : NodeId) : Except Error Node :=
  match records.find? (NodeRecord.key id) with
  | none => .error (.notFound (.node id))
  | some value => ((NodeRecord.decode value).map (Node.mk id)).mapError .malformed

/-- The child of a node with this name, as the records have it. -/
def childOf (records : Records) (node : Node) (name : String) : Except Error Node :=
  node.entry name >>= fun entry => records.nodeAt entry.id

/-- What names lead to, one after the other. -/
def lookup (records : Records) : Node → List String → Except Error Node
  | node, [] => .ok node
  | node, name :: names => records.childOf node name >>= fun child => records.lookup child names

/-- What is looked up by two lists of names is looked up by one after the other. -/
theorem lookup_append (records : Records) (node : Node) (ns more : List String) :
    records.lookup node (ns ++ more) = records.lookup node ns >>= fun between => records.lookup between more := by
  induction ns generalizing node with
  | nil => rfl
  | cons name ns ih =>
    rw [List.cons_append, lookup, lookup, bind_assoc]
    exact congrArg (records.childOf node name >>= ·) (funext fun child => ih child)

end Records

section Opens

variable {σ : Type} [RecordStore σ] [LawfulStore σ]

namespace TrailM

variable {s : Trail Records}

/-- A handle is loaded for the node under its id, or fails as the records say. -/
theorem Looks.load (id : NodeId) : (Node.load id : TrailM σ Node).Looks s
    (fun node => s.records.nodeAt id = .ok node) fun e => s.records.nodeAt id = .error e := by
  refine Looks.bind (Looks.readNode id) ?_ ?_
  · rintro revision ⟨value, hfind, hdecode⟩
    refine Looks.pure ?_
    simp only [Records.nodeAt, hfind, hdecode]
    rfl
  · rintro e (⟨hfind, rfl⟩ | ⟨value, cause, hfind, hdecode, rfl⟩)
    · rw [Records.nodeAt, hfind]
    · simp only [Records.nodeAt, hfind, hdecode]
      rfl

/-- A child is opened that the records have, or fails as they say. -/
theorem Looks.openChild (node : Node) (name : String) : (node.openChild name : TrailM σ Node).Looks s
    (fun child => s.records.childOf node name = .ok child) fun e => s.records.childOf node name = .error e := by
  have hentry : (TrailM.ofResult (node.entry name) : TrailM σ Entry).Looks s
      (fun entry => node.entry name = .ok entry) fun e => node.entry name = .error e :=
    Looks.ofResult (fun _ h => h) fun _ h => h
  refine Looks.bind hentry ?_ ?_
  · intro entry hentry
    rw [Records.childOf, hentry]
    exact Looks.load entry.id
  · intro e he
    rw [Records.childOf, he]
    rfl

/-- **WHAT IS OPENED** is what the names lead to. -/
theorem Looks.follow (node : Node) (ns : List String) : (Path.follow node ns : TrailM σ Node).Looks s
    (fun found => s.records.lookup node ns = .ok found) fun e => s.records.lookup node ns = .error e := by
  induction ns generalizing node with
  | nil => exact Looks.pure rfl
  | cons name ns ih =>
    refine Looks.bind (Looks.openChild node name) ?_ ?_
    · intro child hchild
      rw [Records.lookup, hchild]
      exact ih child
    · intro e he
      rw [Records.lookup, he]
      rfl

end TrailM

namespace Path

variable {t : Trail σ}

/-- A path is opened to what its names lead to in the records, if the store has no fault. -/
theorem openFrom_result (h : LawfulStore.Valid t.store) (node : Node) (path : String) :
    (openFrom node path t).1 = t.records.lookup node (names path) ∨
      ∃ e, (openFrom node path t).1 = .error e ∧ e.IsFault σ := by
  have hlooks := TrailM.Looks.follow (σ := σ) (s := t.plain) node (names path)
  exact TrailM.Comes.result (TrailM.Comes.mono hlooks (fun _ _ hq => hq.2) fun _ _ he => he.2) (Trail.over_plain h)

/-- Where the store cannot have a fault, it is opened to just that. -/
theorem openFrom_eq_lookup (h : LawfulStore.Valid t.store) (hsafe : ¬ LawfulStore.Fallible σ) (node : Node)
    (path : String) : (openFrom node path t).1 = t.records.lookup node (names path) :=
  (openFrom_result h node path).resolve_right fun ⟨_, _, hfault⟩ => hsafe hfault.1

/-- Where the store cannot fail, both parts may be asked for in the same trail. -/
theorem openFrom_slash_result (h : LawfulStore.Valid t.store) (hsafe : ¬ LawfulStore.Fallible σ) (node : Node)
    (p q : String) :
    (openFrom node (p ++ "/" ++ q) t).1 = (openFrom node p t).1 >>= fun between => (openFrom between q t).1 := by
  have hsecond : (fun between => (openFrom between q t).1) = fun between => t.records.lookup between (names q) :=
    funext fun between => openFrom_eq_lookup h hsafe between q
  rw [hsecond, openFrom_eq_lookup h hsafe, openFrom_eq_lookup h hsafe, names_slash, Records.lookup_append]

/-- **PATHS ARE OPENED PART BY PART.** (a) To open the path `p/q`, whatever texts `p` and `q` are, is to open `p` and
    then, from the node that this gives, `q`; if opening `p` fails, nothing else is done. (b) What is opened in a trail is
    what its records say, unless the store fails. So in a trail over a store that cannot fail, `p/q` gives a node if and
    only if `p` gives one and `q` gives it from there; and it gives an error if and only if it is that of `p`, or `p` gives
    a node and it is that of `q` from there. (c) Further slashes, beside others or at the ends, change nothing. (d) To open
    a path that is joined from proper names is to open one child after the other. -/
theorem opens_part_by_part (node : Node) :
    (∀ p q, (openFrom node (p ++ "/" ++ q) : TrailM σ Node) = openFrom node p >>= fun between => openFrom between q) ∧
    (∀ t : Trail σ, LawfulStore.Valid t.store →
      (∀ path, (openFrom node path t).1 = t.records.lookup node (names path) ∨
        ∃ e, (openFrom node path t).1 = .error e ∧ e.IsFault σ) ∧
      (¬ LawfulStore.Fallible σ → ∀ p q,
        (∀ found, (openFrom node (p ++ "/" ++ q) t).1 = .ok found ↔
          ∃ between, (openFrom node p t).1 = .ok between ∧ (openFrom between q t).1 = .ok found) ∧
        ∀ e, (openFrom node (p ++ "/" ++ q) t).1 = .error e ↔
          (openFrom node p t).1 = .error e ∨
            ∃ between, (openFrom node p t).1 = .ok between ∧ (openFrom between q t).1 = .error e)) ∧
    (∀ path path', Slashed path path' → (openFrom node path' : TrailM σ Node) = openFrom node path) ∧
    ∀ ns, (∀ name ∈ ns, IsName name) →
      (openFrom node (join ns) : TrailM σ Node) = ns.foldlM (fun between name => between.openChild name) node := by
  refine ⟨openFrom_slash node, fun t h => ⟨openFrom_result h node, fun hsafe p q => ?_⟩, ?_, ?_⟩
  · rw [openFrom_slash_result h hsafe]
    cases (openFrom node p t).1 with
    | error e => simp [bind, Except.bind]
    | ok between => simp [bind, Except.bind]
  · intro path path' hslashed
    rw [openFrom, openFrom, hslashed.names_eq]
  · intro ns hns
    rw [openFrom, names_join hns, follow_eq_foldlM]

namespace Sample

/-- A directory with a file "b" in it. -/
def inner : Node :=
  ⟨.ofNode 1, ⟨.empty, [], .dir [⟨"b", .ofNode 2⟩]⟩⟩

/-- A directory in which it is called "a". -/
def outer : Node :=
  ⟨.root, ⟨.empty, [], .dir [⟨"a", .ofNode 1⟩]⟩⟩

/-- The file, which is empty. -/
def file : Node :=
  ⟨.ofNode 2, ⟨.empty, [], .file none⟩⟩

/-- A trail over the records of the directory and of the file. -/
def trail : Trail Records :=
  .start ((SortedMap.empty.insert (NodeRecord.key inner.id) (NodeRecord.encode inner.revision)).insert
    (NodeRecord.key file.id) (NodeRecord.encode file.revision))

/-- Slashes may be added in front, behind and between. -/
theorem slashed_file : Slashed ("a" ++ "/" ++ "b") "//a//b/" :=
  .stop (p := "//a//b") (.start (p := "/a//b") (.start (p := "a//b") (.beside (p := "a") (q := "b") .same)))

/-- The file is opened by its path, one part after the other and with more slashes, and there is nothing below it. -/
theorem file_opened_by_parts :
    (openFrom outer "a" trail).1 = .ok inner ∧ (openFrom inner "b" trail).1 = .ok file ∧
      (openFrom outer ("a" ++ "/" ++ "b") trail).1 = .ok file ∧ (openFrom outer "//a//b/" trail).1 = .ok file ∧
      ((["a", "b"].foldlM (fun node name => node.openChild name) outer : TrailM Records Node) trail).1 = .ok file ∧
      (openFrom outer ("a/b" ++ "/" ++ "c") trail).1 = .error (.notDirectory file.id) := by
  have hsafe : ¬ LawfulStore.Fallible Records := fun h => h
  have hinner : (openFrom outer "a" trail).1 = .ok inner := by decide +kernel
  have hfile : (openFrom inner "b" trail).1 = .ok file := by decide +kernel
  have hbelow : (openFrom file "c" trail).1 = .error (.notDirectory file.id) := rfl
  obtain ⟨-, htrail, hslashed, hjoined⟩ := opens_part_by_part (σ := Records) outer
  obtain ⟨-, hparts⟩ := htrail trail trivial
  have hpath := ((hparts hsafe "a" "b").1 file).2 ⟨inner, hinner, hfile⟩
  refine ⟨hinner, hfile, hpath, ?_, ?_, ?_⟩
  · rw [hslashed _ _ slashed_file]
    exact hpath
  · rw [← hjoined ["a", "b"] (by decide)]
    exact hpath
  · exact ((hparts hsafe "a/b" "c").2 _).2 (.inr ⟨file, hpath, hbelow⟩)

end Sample

end Path

end Opens

end VersionedTree

import Mathlib.Data.List.Nodup
import Mathlib.Logic.Function.Basic
import VersionedTree.Proofs.Record.Canonical

/-!
# Properties — a list of pairs as a map that keeps its order

A property list whose names are distinct is a map that remembers in which order its names came, and it stays one,
whatever is done to it. A list that was read may repeat a name; then all operations mean the first property of that
name, and leave the others alone.

* **`OrderedMap`** — such a map: its names in order, and the value of each. **`OrderedMap.entries`** lists it, and
  **`OrderedMap.Lists`** is the invariant that ties a list to it.
* **`PropList.FirstOf`** — where the first property of a name stands. **`FirstOf.get?`**, **`FirstOf.insert`** and
  **`FirstOf.remove`** — what the operations do there. For a name that is missing these are **`get?_of_not_mem`**,
  **`insert_of_not_mem`** and **`remove_of_not_mem`**.
* **`PropList.among_act`** — a step leaves the properties of other names alone. **`among_runAll`** — so do many.
* **`OrderedMap.Lists.act`** — a step does to the list what it does to the map. **`Lists.runAll`** — so do many.
* **`OrderedMap.value?_runAll`** — the value of a name is what it was set to last.
* **`PropList.acts_as_ordered_map`** — the theorem.
-/

namespace VersionedTree

/-! ## Maps that keep their order -/

/-- A map that remembers in which order its names came: a list of the names that have a value, and the value of each. -/
structure OrderedMap where
  names : List Bytes
  value? : Bytes → Option Bytes
  nodup : names.Nodup
  mem_names_iff : ∀ name, name ∈ names ↔ (value? name).isSome

namespace OrderedMap

/-- The map with this value under `name`. A name that has a value keeps its place, another one comes last. -/
def insert (map : OrderedMap) (name value : Bytes) : OrderedMap where
  names := if name ∈ map.names then map.names else map.names ++ [name]
  value? := Function.update map.value? name (some value)
  nodup := by
    split
    case isTrue => exact map.nodup
    case isFalse h =>
      refine map.nodup.append (List.nodup_singleton name) ?_
      simpa using h
  mem_names_iff other := by
    by_cases hother : other = name
    case pos =>
      subst hother
      by_cases h : other ∈ map.names <;> simp [h]
    case neg =>
      rw [Function.update_of_ne hother, ← map.mem_names_iff]
      by_cases h : name ∈ map.names <;> simp [h, hother]

/-- The map without this name. -/
def erase (map : OrderedMap) (name : Bytes) : OrderedMap where
  names := map.names.erase name
  value? := Function.update map.value? name none
  nodup := map.nodup.erase name
  mem_names_iff other := by
    rw [map.nodup.mem_erase_iff, map.mem_names_iff]
    by_cases hother : other = name <;> simp [hother]

/-- The names with their values, in order. -/
def entries (map : OrderedMap) : List (Bytes × Bytes) :=
  map.names.filterMap fun name => (map.value? name).map fun value => (name, value)

/-- The map that pairs with distinct names stand for. -/
def ofPairs (pairs : List (Bytes × Bytes)) (h : (pairs.map Prod.fst).Nodup) : OrderedMap where
  names := pairs.map Prod.fst
  value? name := pairs.lookup name
  nodup := h
  mem_names_iff name := by
    simp only [List.lookup_isSome_iff, List.mem_map, beq_iff_eq]
    exact exists_congr fun pair => and_congr_right fun _ => eq_comm

/-- True of the pairs that a map lists. -/
structure Lists (map : OrderedMap) (pairs : List (Bytes × Bytes)) : Prop where
  names : pairs.map Prod.fst = map.names
  values : ∀ pair ∈ pairs, map.value? pair.1 = some pair.2

section Lists

variable {map : OrderedMap} {pairs before after : List (Bytes × Bytes)} {pair : Bytes × Bytes} {name old : Bytes}

/-- A pair does not have a name that its list does not have. -/
theorem ne_of_mem (hname : name ∉ pairs.map Prod.fst) (hpair : pair ∈ pairs) : pair.1 ≠ name := by
  rintro rfl
  exact hname (List.mem_map_of_mem hpair)

/-- A map has one list of pairs only. -/
theorem Lists.eq_entries (h : map.Lists pairs) : pairs = map.entries := by
  rw [entries, ← h.names, List.filterMap_map]
  refine List.filterMap_some.symm.trans (List.filterMap_congr fun pair hpair => ?_)
  show some pair = (map.value? pair.1).map fun value => (pair.1, value)
  rw [h.values pair hpair]
  rfl

/-- The list of a map has every name once. -/
theorem Lists.nodup (h : map.Lists pairs) : (pairs.map Prod.fst).Nodup :=
  h.names ▸ map.nodup

/-- The pairs of a list are the values of its map. -/
theorem Lists.mem_iff (h : map.Lists pairs) : pair ∈ pairs ↔ map.value? pair.1 = some pair.2 := by
  constructor
  · exact h.values pair
  · intro hvalue
    have hname : pair.1 ∈ pairs.map Prod.fst := by
      rw [h.names, map.mem_names_iff, hvalue]
      rfl
    obtain ⟨found, hfound, hfst⟩ := List.mem_map.1 hname
    have hsnd : some found.2 = some pair.2 := by rw [← h.values found hfound, hfst, hvalue]
    rwa [← Prod.ext hfst (Option.some.inj hsnd)]

/-- The map that is made of pairs with distinct names has these pairs as its list. -/
theorem lists_ofPairs (h : (pairs.map Prod.fst).Nodup) : (ofPairs pairs h).Lists pairs := by
  refine ⟨rfl, ?_⟩
  show ∀ pair ∈ pairs, pairs.lookup pair.1 = some pair.2
  induction pairs with
  | nil =>
    intro pair hpair
    exact nomatch hpair
  | cons first pairs ih =>
    obtain ⟨hfirst, hrest⟩ := List.nodup_cons.1 h
    intro pair hpair
    rcases List.mem_cons.1 hpair with rfl | hpair
    · exact List.lookup_cons_self
    -- the first pair does not hide a later one, since names are distinct
    · rw [List.lookup_cons, beq_false_of_ne (ne_of_mem hfirst hpair)]
      exact ih hrest pair hpair

/-! ### The list after a change -/

/-- Pairs of other names are listed as before. -/
theorem values_update {value? : Bytes → Option Bytes} (h : ∀ pair ∈ pairs, value? pair.1 = some pair.2)
    (hname : name ∉ pairs.map Prod.fst) (new? : Option Bytes) :
    ∀ pair ∈ pairs, Function.update value? name new? pair.1 = some pair.2 := by
  intro pair hpair
  rw [Function.update_of_ne (ne_of_mem hname hpair), h pair hpair]

/-- The name of one pair is not that of another. -/
theorem Lists.others (h : map.Lists (before ++ (name, old) :: after)) :
    name ∉ (before ++ after).map Prod.fst ∧ ∀ pair ∈ before ++ after, map.value? pair.1 = some pair.2 := by
  constructor
  · have hnodup : (name :: (before ++ after).map Prod.fst).Nodup := (List.perm_middle.map Prod.fst).nodup_iff.1 h.nodup
    exact (List.nodup_cons.1 hnodup).1
  · intro pair hpair
    exact h.values pair (List.perm_middle.mem_iff.2 (List.mem_cons_of_mem _ hpair))

/-- A name that has a value keeps its place. -/
theorem Lists.insert (h : map.Lists (before ++ (name, old) :: after)) (new : Bytes) :
    (map.insert name new).Lists (before ++ (name, new) :: after) := by
  constructor
  case names =>
    have hname : name ∈ map.names := by
      rw [← h.names]
      simp
    show _ = if name ∈ map.names then map.names else map.names ++ [name]
    rw [if_pos hname, ← h.names]
    simp
  case values =>
    obtain ⟨hname, hvalues⟩ := h.others
    intro pair hpair
    show Function.update map.value? name (some new) pair.1 = some pair.2
    -- the place of a pair does not matter for its value, so the new one may as well stand first
    rcases List.mem_cons.1 (List.perm_middle.mem_iff.1 hpair) with rfl | hpair
    · exact Function.update_self ..
    · exact values_update hvalues hname _ pair hpair

/-- A name that has no value comes last. -/
theorem Lists.insert_last (h : map.Lists pairs) (hname : name ∉ pairs.map Prod.fst) (value : Bytes) :
    (map.insert name value).Lists (pairs ++ [(name, value)]) := by
  constructor
  case names =>
    show _ = if name ∈ map.names then map.names else map.names ++ [name]
    rw [if_neg (h.names ▸ hname), ← h.names]
    simp
  case values =>
    intro pair hpair
    show Function.update map.value? name (some value) pair.1 = some pair.2
    rcases List.mem_append.1 hpair with hpair | hlast
    · exact values_update h.values hname _ pair hpair
    · cases List.mem_singleton.1 hlast
      exact Function.update_self ..

/-- A name that is taken away leaves the others in their order. -/
theorem Lists.erase (h : map.Lists (before ++ (name, old) :: after)) : (map.erase name).Lists (before ++ after) := by
  obtain ⟨hname, hvalues⟩ := h.others
  constructor
  case names =>
    -- what is erased is the name between the two, as it is none of the others
    have hbefore : name ∉ before.map Prod.fst := by
      intro hmem
      exact hname (List.map_append ▸ List.mem_append_left _ hmem)
    show _ = map.names.erase name
    rw [← h.names, List.map_append, List.map_append, List.map_cons, List.erase_append_right _ hbefore,
      List.erase_cons_head]
  case values => exact values_update hvalues hname none

/-- A name that has no value is not there to be taken away. -/
theorem Lists.erase_missing (h : map.Lists pairs) (hname : name ∉ pairs.map Prod.fst) :
    (map.erase name).Lists pairs := by
  constructor
  case names =>
    show _ = map.names.erase name
    rw [List.erase_of_not_mem (h.names ▸ hname), h.names]
  case values => exact values_update h.values hname none

end Lists

end OrderedMap

/-! ## The first property of a name -/

namespace PropList

open Text

/-- The names, in order. -/
def names (props : PropList) : List Bytes :=
  props.pairs.map Prod.fst

/-- True if the first property named `name` has this value, and these pairs stand before and behind it. -/
structure FirstOf (props : PropList) (name : String) (before : List (Bytes × Bytes)) (value : Bytes)
    (after : List (Bytes × Bytes)) : Prop where
  pairs_eq : props.pairs = before ++ (toBytes name, value) :: after
  first : toBytes name ∉ before.map Prod.fst

variable {props : PropList} {name : String} {before after pairs : List (Bytes × Bytes)} {value : Bytes}

/-- Pairs before the first one of a name stay where they are when it is set. -/
theorem insertPair_append {name : Bytes} (hbefore : name ∉ before.map Prod.fst) (value : Bytes) :
    insertPair name value (before ++ after) = before ++ insertPair name value after := by
  induction before with
  | nil => rfl
  | cons pair before ih =>
    simp only [List.map_cons, List.mem_cons, not_or] at hbefore
    obtain ⟨hpair, hbefore⟩ := hbefore
    rw [List.cons_append, insertPair, if_neg (Ne.symm hpair), ih hbefore, List.cons_append]

/-- None of these pairs is found under a name that they do not have. -/
theorem forall_not_found (h : toBytes name ∉ pairs.map Prod.fst) :
    ∀ pair ∈ pairs, ¬ (decide (pair.1 = toBytes name) = true) := by
  intro pair hpair
  rw [decide_eq_true_iff]
  exact OrderedMap.ne_of_mem h hpair

/-- A name that a list does not have has no index. -/
theorem findIdx?_of_not_mem (h : toBytes name ∉ pairs.map Prod.fst) :
    (pairs.findIdx? fun pair => pair.1 = toBytes name) = none := by
  rw [List.findIdx?_eq_none_iff]
  intro pair hpair
  exact Bool.eq_false_iff.2 (forall_not_found h pair hpair)

/-- Every name is missing, or there is a first property of it. -/
theorem firstOf_or_not_mem (props : PropList) (name : String) :
    (∃ before value after, props.FirstOf name before value after) ∨ toBytes name ∉ props.names := by
  by_cases h : toBytes name ∈ props.names
  case pos =>
    obtain ⟨_, _, hnames, hfirst⟩ := List.eq_append_cons_of_mem h
    obtain ⟨before, rest, hpairs, rfl, hrest⟩ := List.map_eq_append_iff.1 hnames
    obtain ⟨pair, after, rfl, hname, -⟩ := List.map_eq_cons_iff.1 hrest
    exact .inl ⟨before, pair.2, after, hname ▸ hpairs, hfirst⟩
  case neg => exact .inr h

namespace FirstOf

/-- The value of a name is that of its first pair. -/
theorem get? (h : props.FirstOf name before value after) : props.get? name = some value := by
  have hbefore : (before.find? fun pair => pair.1 = toBytes name) = none :=
    List.find?_eq_none.2 (forall_not_found h.first)
  rw [PropList.get?, h.pairs_eq, List.find?_append, hbefore]
  simp

/-- Setting a name replaces the value of its first pair. -/
theorem insert (h : props.FirstOf name before value after) (new : Bytes) :
    props.insert name new = ⟨before ++ (toBytes name, new) :: after⟩ := by
  rw [PropList.insert, h.pairs_eq, insertPair_append h.first, insertPair, if_pos rfl]

/-- Erasing a name takes its first pair away. -/
theorem erase (h : props.FirstOf name before value after) : props.erase name = ⟨before ++ after⟩ := by
  rw [PropList.erase, h.pairs_eq, List.eraseP_append_right _ (forall_not_found h.first)]
  simp

/-- Removing a name takes its first pair away, and gives its value. -/
theorem remove (h : props.FirstOf name before value after) : props.remove name = (some value, ⟨before ++ after⟩) := by
  have hindex : (props.pairs.findIdx? fun pair => pair.1 = toBytes name) = some before.length := by
    rw [h.pairs_eq, List.findIdx?_append, findIdx?_of_not_mem h.first, List.findIdx?_cons,
      if_pos (decide_eq_true rfl)]
    simp
  rw [PropList.remove, hindex, h.pairs_eq]
  simp [List.eraseIdx_append_of_length_le]

end FirstOf

/-- A name that a list does not have has no value. -/
theorem get?_of_not_mem (h : toBytes name ∉ props.names) : props.get? name = none := by
  rw [get?, List.find?_eq_none.2 (forall_not_found h)]
  rfl

/-- A name that a list does not have is set at its end. -/
theorem insert_of_not_mem (h : toBytes name ∉ props.names) (value : Bytes) :
    props.insert name value = ⟨props.pairs ++ [(toBytes name, value)]⟩ := by
  have hinsert : insertPair (toBytes name) value (props.pairs ++ []) = props.pairs ++ [(toBytes name, value)] :=
    insertPair_append h value
  rw [insert, ← hinsert, List.append_nil]

/-- Erasing a name that a list does not have does nothing. -/
theorem erase_of_not_mem (h : toBytes name ∉ props.names) : props.erase name = props := by
  rw [erase, List.eraseP_of_forall_not (forall_not_found h)]

/-- Removing a name that a list does not have does nothing, and gives nothing. -/
theorem remove_of_not_mem (h : toBytes name ∉ props.names) : props.remove name = (none, props) := by
  rw [remove, findIdx?_of_not_mem h]

/-- **WHAT IS REMOVED** is the property whose value is given. -/
theorem remove_eq (props : PropList) (name : String) : props.remove name = (props.get? name, props.erase name) := by
  rcases props.firstOf_or_not_mem name with ⟨before, value, after, hfirst⟩ | hmissing
  · rw [hfirst.remove, hfirst.get?, hfirst.erase]
  · rw [remove_of_not_mem hmissing, get?_of_not_mem hmissing, erase_of_not_mem hmissing]

/-- A list is read from what it is stored as, and from nothing else. -/
theorem ofSkel_eq_ok_iff {s : Skel} : ofSkel s = .ok props ↔ s = props.toSkel := by
  constructor
  · intro h
    exact (toSkel_of_ofSkel h).symm
  · rintro rfl
    exact ofSkel_toSkel props

/-! ## Steps -/

/-- A step on a property list. -/
inductive Step where
  /-- A name is given a value. -/
  | set (name : String) (value : Bytes)
  /-- The value of a name is asked for. -/
  | get (name : String)
  /-- A name is taken away, and its value is asked for. -/
  | remove (name : String)
deriving DecidableEq, Repr

/-- The name whose value a step may change. -/
def Step.changed? : Step → Option String
  | set name _ => some name
  | get _ => none
  | remove name => some name

/-- The answer to a step, and the list after it. -/
def act (props : PropList) : Step → Option Bytes × PropList
  | .set name value => (none, props.insert name value)
  | .get name => (props.get? name, props)
  | .remove name => props.remove name

/-- The answers to some steps, in order, and what there is after them. -/
def runAll {σ : Type} (act : σ → Step → Option Bytes × σ) : σ → List Step → List (Option Bytes) × σ
  | s, [] => ([], s)
  | s, step :: steps => ((act s step).1 :: (runAll act (act s step).2 steps).1, (runAll act (act s step).2 steps).2)

/-- True if no step changes the value of this name. -/
def Untouched (steps : List Step) (name : String) : Prop :=
  ∀ step ∈ steps, step.changed? ≠ some name

/-- True if one of the steps sets the name to this value, and none behind it changes it. -/
def SetLast (steps : List Step) (name : String) (value : Bytes) : Prop :=
  ∃ before after, steps = before ++ .set name value :: after ∧ Untouched after name

/-- The properties whose names are chosen, in order. -/
def among (props : PropList) (chosen : Bytes → Bool) : List (Bytes × Bytes) :=
  props.pairs.filter fun pair => chosen pair.1

variable {step : Step} {steps : List Step}

/-- Steps leave a name alone if the first of them does, and the others. -/
theorem untouched_cons : Untouched (step :: steps) name ↔ step.changed? ≠ some name ∧ Untouched steps name :=
  List.forall_mem_cons

/-- The last step on a name is among the later ones, or it is the first and no later one touches the name. -/
theorem setLast_cons : SetLast (step :: steps) name value ↔
    SetLast steps name value ∨ (step = .set name value ∧ Untouched steps name) := by
  constructor
  · rintro ⟨before, after, hsteps, hafter⟩
    rcases List.cons_eq_append_iff.1 hsteps with ⟨rfl, hfirst⟩ | ⟨before, rfl, rfl⟩
    · cases hfirst
      exact .inr ⟨rfl, hafter⟩
    · exact .inl ⟨before, after, rfl, hafter⟩
  · rintro (⟨before, after, rfl, hafter⟩ | ⟨rfl, hafter⟩)
    · exact ⟨step :: before, after, rfl, hafter⟩
    · exact ⟨[], steps, rfl, hafter⟩

/-- **A STEP ON ONE NAME** leaves the properties of others as they are, each with its value and all in their order. -/
theorem among_act {chosen : Bytes → Bool} (h : ∀ name, step.changed? = some name → chosen (toBytes name) = false) :
    (props.act step).2.among chosen = props.among chosen := by
  cases step with
  | get name => rfl
  | set name value =>
    have hname : chosen (toBytes name) = false := h name rfl
    rcases props.firstOf_or_not_mem name with ⟨before, old, after, hfirst⟩ | hmissing
    · rw [act, hfirst.insert]
      simp [among, hfirst.pairs_eq, hname]
    · rw [act, insert_of_not_mem hmissing]
      simp [among, hname]
  | remove name =>
    have hname : chosen (toBytes name) = false := h name rfl
    rcases props.firstOf_or_not_mem name with ⟨before, old, after, hfirst⟩ | hmissing
    · rw [act, hfirst.remove]
      simp [among, hfirst.pairs_eq, hname]
    · rw [act, remove_of_not_mem hmissing]

/-- Pairs of other names stay as they are, whatever is done to the chosen ones. -/
theorem among_runAll {chosen : Bytes → Bool}
    (h : ∀ step ∈ steps, ∀ name, step.changed? = some name → chosen (toBytes name) = false) :
    (runAll act props steps).2.among chosen = props.among chosen := by
  induction steps generalizing props with
  | nil => rfl
  | cons step steps ih =>
    obtain ⟨hstep, hsteps⟩ := List.forall_mem_cons.1 h
    rw [runAll, ih hsteps, among_act hstep]

end PropList

namespace OrderedMap

open Text PropList

/-- The answer to a step, and the map after it. -/
def act (map : OrderedMap) : Step → Option Bytes × OrderedMap
  | .set name value => (none, map.insert (toBytes name) value)
  | .get name => (map.value? (toBytes name), map)
  | .remove name => (map.value? (toBytes name), map.erase (toBytes name))

variable {map : OrderedMap} {props : PropList} {step : Step} {steps : List Step} {name : String} {value : Bytes}

/-- A list has the values of its map. -/
theorem Lists.get? (h : map.Lists props.pairs) (name : String) : props.get? name = map.value? (toBytes name) := by
  rcases props.firstOf_or_not_mem name with ⟨before, value, after, hfirst⟩ | hmissing
  · have hpair : (toBytes name, value) ∈ props.pairs := by simp [hfirst.pairs_eq]
    rw [hfirst.get?, h.values _ hpair]
  · have hnone : ¬ (map.value? (toBytes name)).isSome := by
      rw [← map.mem_names_iff, ← h.names]
      exact hmissing
    rw [get?_of_not_mem hmissing, Option.not_isSome_iff_eq_none.1 hnone]

/-- **ONE STEP** has the same answer on the list and on the map, and what is listed then is what the map holds. -/
theorem Lists.act (h : map.Lists props.pairs) (step : Step) :
    (props.act step).1 = (map.act step).1 ∧ (map.act step).2.Lists (props.act step).2.pairs := by
  cases step with
  | get name => exact ⟨h.get? name, h⟩
  | set name value =>
    refine ⟨rfl, ?_⟩
    show (map.insert (toBytes name) value).Lists (props.insert name value).pairs
    rcases props.firstOf_or_not_mem name with ⟨before, old, after, hfirst⟩ | hmissing
    · rw [hfirst.insert]
      exact (hfirst.pairs_eq ▸ h).insert value
    · rw [insert_of_not_mem hmissing]
      exact h.insert_last hmissing value
  | remove name =>
    show (props.remove name).1 = map.value? (toBytes name) ∧
      (map.erase (toBytes name)).Lists (props.remove name).2.pairs
    rw [remove_eq]
    refine ⟨h.get? name, ?_⟩
    rcases props.firstOf_or_not_mem name with ⟨before, old, after, hfirst⟩ | hmissing
    · rw [hfirst.erase]
      exact (hfirst.pairs_eq ▸ h).erase
    · rw [erase_of_not_mem hmissing]
      exact h.erase_missing hmissing

/-- **ANY NUMBER OF STEPS** has the same answers on both. -/
theorem Lists.runAll (h : map.Lists props.pairs) (steps : List Step) :
    (PropList.runAll PropList.act props steps).1 = (PropList.runAll OrderedMap.act map steps).1 ∧
      (PropList.runAll OrderedMap.act map steps).2.Lists (PropList.runAll PropList.act props steps).2.pairs := by
  induction steps generalizing map props with
  | nil => exact ⟨rfl, h⟩
  | cons step steps ih =>
    obtain ⟨hanswer, hlists⟩ := h.act step
    obtain ⟨hanswers, hlists⟩ := ih hlists
    refine ⟨?_, hlists⟩
    simp only [PropList.runAll, hanswer, hanswers]

/-- Names are told apart by their bytes, so a change of one leaves the values of others. -/
theorem update_toBytes {value? : Bytes → Option Bytes} (other name : String) (new? : Option Bytes) :
    Function.update value? (toBytes other) new? (toBytes name) =
      if other = name then new? else value? (toBytes name) := by
  by_cases hname : other = name
  case pos => rw [hname, Function.update_self, if_pos rfl]
  case neg =>
    have hne : toBytes name ≠ toBytes other := fun heq => hname (toBytes_injective heq).symm
    rw [Function.update_of_ne hne, if_neg hname]

/-- After a step a name has the value that the step sets, or the one that it had and the step does not touch. -/
theorem value?_act : (map.act step).2.value? (toBytes name) = some value ↔
    step = .set name value ∨ (map.value? (toBytes name) = some value ∧ step.changed? ≠ some name) := by
  cases step with
  | get other => simp [act, Step.changed?]
  | set other new =>
    show Function.update map.value? (toBytes other) (some new) (toBytes name) = some value ↔ _
    rw [update_toBytes]
    by_cases hname : other = name <;> simp [hname, Step.changed?]
  | remove other =>
    show Function.update map.value? (toBytes other) none (toBytes name) = some value ↔ _
    rw [update_toBytes]
    by_cases hname : other = name <;> simp [hname, Step.changed?]

/-- **THE VALUE OF A NAME** is what it was set to last. -/
theorem value?_runAll : (runAll act map steps).2.value? (toBytes name) = some value ↔
    SetLast steps name value ∨ (map.value? (toBytes name) = some value ∧ Untouched steps name) := by
  induction steps generalizing map with
  | nil => simp [runAll, SetLast, Untouched]
  | cons step steps ih =>
    -- what the first step leaves counts only if no later one changes it
    rw [runAll, ih, value?_act, setLast_cons, untouched_cons]
    tauto

end OrderedMap

namespace PropList

open Text

/-- **PROPERTY LISTS ARE MAPS THAT KEEP THEIR ORDER.** (a) Whatever is set, asked for and removed, starting from a list
    with distinct names, is answered as by the map that the list stands for. At any time the list is that of the map, and
    its names are distinct; and a name has the value that it was set to last, or had at the start, if no step changed that
    since. (b) In any list, all operations mean the first property of a name, and leave every other one where and as it
    is. A name that is missing is put last. (c) In any list, whatever names are chosen, if no step changes one of them,
    their properties keep their values and their order. (d) A list is read from what it is stored as, and from nothing
    else; so every list may have been read. -/
theorem acts_as_ordered_map :
    (∀ (start : PropList) (hstart : start.names.Nodup) (steps : List Step),
      (runAll act start steps).1 = (runAll OrderedMap.act (.ofPairs start.pairs hstart) steps).1 ∧
      (runAll act start steps).2.pairs = (runAll OrderedMap.act (.ofPairs start.pairs hstart) steps).2.entries ∧
      (runAll act start steps).2.names.Nodup ∧
      ∀ name value, (runAll act start steps).2.get? name = some value ↔
        SetLast steps name value ∨ ((toBytes name, value) ∈ start.pairs ∧ Untouched steps name)) ∧
    (∀ (props : PropList) (name : String), props.remove name = (props.get? name, props.erase name) ∧
      ((toBytes name ∉ props.names ∧ props.get? name = none ∧ props.remove name = (none, props) ∧
          ∀ new, props.insert name new = ⟨props.pairs ++ [(toBytes name, new)]⟩) ∨
        ∃ before value after, props.FirstOf name before value after ∧ props.get? name = some value ∧
          props.remove name = (some value, ⟨before ++ after⟩) ∧
          ∀ new, props.insert name new = ⟨before ++ (toBytes name, new) :: after⟩)) ∧
    (∀ (props : PropList) (steps : List Step) (chosen : Bytes → Bool),
      (∀ step ∈ steps, ∀ name, step.changed? = some name → chosen (toBytes name) = false) →
      (runAll act props steps).2.among chosen = props.among chosen) ∧
    ∀ (s : Skel) (props : PropList), ofSkel s = .ok props ↔ s = props.toSkel := by
  refine ⟨?_, ?_, fun _ _ _ => among_runAll, fun _ _ => ofSkel_eq_ok_iff⟩
  · intro start hstart steps
    -- the pairs list the entries of the map at the start, and each step keeps it so
    have hlists := OrderedMap.lists_ofPairs hstart
    obtain ⟨hanswers, hafter⟩ := hlists.runAll steps
    refine ⟨hanswers, hafter.eq_entries, hafter.nodup, ?_⟩
    intro name value
    rw [hafter.get?, OrderedMap.value?_runAll, hlists.mem_iff]
  · intro props name
    refine ⟨remove_eq props name, ?_⟩
    -- the list splits at the first pair of the name, if there is one
    rcases props.firstOf_or_not_mem name with ⟨before, value, after, hfirst⟩ | hmissing
    · exact .inr ⟨before, value, after, hfirst, hfirst.get?, hfirst.remove, hfirst.insert⟩
    · exact .inl ⟨hmissing, get?_of_not_mem hmissing, remove_of_not_mem hmissing, insert_of_not_mem hmissing⟩

namespace Sample

/-- Two properties. -/
def log : PropList :=
  ⟨[(toBytes "author", [1]), (toBytes "log", [2])]⟩

/-- The first is removed and comes back, and a third is there for a while. -/
def steps : List Step :=
  [.set "date" [3], .remove "author", .get "author", .set "author" [4], .set "log" [5], .remove "date", .get "author"]

/-- A list that names a property twice. -/
def twice : PropList :=
  ⟨[(toBytes "log", [1]), (toBytes "author", [2]), (toBytes "log", [3])]⟩

/-- A name that comes back is the last one. Of two properties of one name the first is removed, and what is between them
    stays. -/
theorem returning_name_last :
    ∃ hlog : log.names.Nodup,
      (runAll OrderedMap.act (.ofPairs log.pairs hlog) steps).1 =
          [none, some [1], none, none, none, some [3], some [4]] ∧
        (runAll OrderedMap.act (.ofPairs log.pairs hlog) steps).2.entries =
          [(toBytes "log", [5]), (toBytes "author", [4])] ∧
        SetLast steps "author" [4] ∧
        (∀ step ∈ [Step.remove "log"], ∀ name, step.changed? = some name →
          decide (toBytes name = toBytes "author") = false) ∧
        (runAll act twice [.remove "log"]).2.among (fun name => name = toBytes "author") = [(toBytes "author", [2])] ∧
        (runAll act twice [.remove "log"]).2.get? "log" = some [3] := by
  have hlog : log.names.Nodup := by decide +kernel
  have hanswers : (runAll act log steps).1 = [none, some [1], none, none, none, some [3], some [4]] := by decide +kernel
  have hpairs : (runAll act log steps).2.pairs = [(toBytes "log", [5]), (toBytes "author", [4])] := by decide +kernel
  have hvalue : (runAll act log steps).2.get? "author" = some [4] := by decide +kernel
  have hchosen : ∀ step ∈ [Step.remove "log"], ∀ name, step.changed? = some name →
      decide (toBytes name = toBytes "author") = false := by
    intro step hstep name hname
    cases List.mem_singleton.1 hstep
    cases hname
    decide +kernel
  obtain ⟨hmap, -, hothers, -⟩ := acts_as_ordered_map
  obtain ⟨hsame, hentries, -, hlast⟩ := hmap log hlog steps
  have hset : SetLast steps "author" [4] := by
    refine ((hlast "author" [4]).1 hvalue).resolve_right ?_
    rintro ⟨hpair, -⟩
    exact absurd hpair (by decide +kernel)
  refine ⟨hlog, hsame.symm.trans hanswers, hentries.symm.trans hpairs, hset, hchosen, ?_, by decide +kernel⟩
  exact (hothers twice [.remove "log"] (fun name => name = toBytes "author") hchosen).trans (by decide +kernel)

end Sample

end PropList

end VersionedTree

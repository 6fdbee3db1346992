import VersionedTree.Text

/-!
# Tables — where records are kept

A filesystem keeps everything in five tables of records. A record is found by its table and its name there, and the two
together are its key. Keys are ordered by table, then by name; batches of writes and listings come in that order.
-/

namespace VersionedTree

open Std

/-- The tables of a filesystem, in order. -/
inductive Table where
  /-- Node revisions by id. -/
  | nodes
  /-- Revisions by number. -/
  | revisions
  /-- Open transactions by name. -/
  | transactions
  /-- Contents of files by key. -/
  | representations
  /-- Counters, and what is known about the filesystem as a whole. -/
  | globals
deriving DecidableEq, Repr

namespace Table

/-- All tables, in order. -/
def all : List Table :=
  [nodes, revisions, transactions, representations, globals]

/-- The place of a table in the order. -/
def rank : Table → Nat
  | nodes => 0
  | revisions => 1
  | transactions => 2
  | representations => 3
  | globals => 4

/-- The word for a table. -/
def name : Table → String
  | nodes => "nodes"
  | revisions => "revisions"
  | transactions => "transactions"
  | representations => "representations"
  | globals => "meta"

/-- No two tables have the same rank. -/
theorem rank_injective {s t : Table} (h : s.rank = t.rank) : s = t := by
  cases s <;> cases t <;> simp_all [rank]

end Table

/-- The key of a record: its table, and its name there. -/
structure Key where
  table : Table
  name : Bytes
deriving DecidableEq, Repr

namespace Key

/-- The key of a record whose name is a text. -/
def ofText (table : Table) (name : String) : Key :=
  ⟨table, Text.toBytes name⟩

instance : Ord Key := ⟨compareLex (compareOn fun key => key.table.rank) (compareOn fun key => key.name)⟩

instance : TransOrd Key :=
  inferInstanceAs (TransCmp (compareLex (compareOn fun key : Key => key.table.rank) (compareOn fun key : Key => key.name)))

instance : LawfulEqOrd Key where
  eq_of_compare {a b} h := by
    obtain ⟨ta, na⟩ := a
    obtain ⟨tb, nb⟩ := b
    have h' : compareLex (compareOn fun key : Key => key.table.rank) (compareOn fun key : Key => key.name)
        ⟨ta, na⟩ ⟨tb, nb⟩ = .eq := h
    simp only [compareLex_eq_eq, compareOn] at h'
    have ht : ta = tb := Table.rank_injective (LawfulEqOrd.eq_of_compare h'.1)
    have hn : na = nb := LawfulEqOrd.eq_of_compare h'.2
    rw [ht, hn]

end Key

/-- One write to a record. -/
inductive Write where
  | put (key : Key) (value : Bytes)
  | delete (key : Key)
deriving DecidableEq, Repr

/-- The key of the record that is written. -/
def Write.key : Write → Key
  | put key _ => key
  | delete key => key

end VersionedTree

import VersionedTree.Contents.Frame.Bits

/-!
# State tables — finite state entropy coding

A stream of symbols is coded as a walk through the cells of a table. Each cell stands for a symbol; the next cell is
found from a base that the cell gives and from some bits of the stream. A frequent symbol has many cells, and few bits
are spent on it. A table is described by the share of the cells that each symbol has.

* **`readShares`** reads the shares, **`StateTable.ofShares`** lays out the table, **`StateTable.read`** does both.
* **`StateTable.start`** and **`Cell.next`** are the steps of a walk.
-/

namespace VersionedTree.Frame

/-- The share of a symbol in the cells of a table. -/
inductive Share where
  /-- One cell, which is left for any other cell. -/
  | rare
  /-- So many cells. -/
  | cells (n : Nat)
deriving DecidableEq, Repr

/-- A cell of a table: its symbol, and how the next cell is found. -/
structure Cell where
  symbol : Nat
  /-- How many bits of the stream are added to the base. -/
  bits : Nat
  base : Nat
deriving DecidableEq, Repr

/-- A table of `1 <<< log` cells. -/
structure StateTable where
  log : Nat
  cells : Array Cell
deriving DecidableEq, Repr

/-! ## The shares -/

/-- Reads how many more symbols have no share: pairs of bits, added up until one of them is not 3. -/
def readSkipped : Bits → Option (Nat × Bits)
  | low :: high :: rest =>
    let n := low.toNat + 2 * high.toNat
    if n = 3 then (readSkipped rest).map fun (more, rest) => (3 + more, rest) else some (n, rest)
  | _ => none

/-- Reads a number from 0 to `left + 1`. The smaller ones of these numbers are written with one bit less. -/
def readBounded (left : Nat) : Bits.Reader Nat := do
  let width := (left + 1).log2
  let short := (1 <<< (width + 1)) - 2 - left
  let low ← Bits.readLow width
  if low < short then
    return low
  match ← Bits.readLow 1 with
  | 0 => return low
  | _ => return low + (1 <<< width) - short

/-- Reads the shares of at most `room` symbols, until none of the `left` cells is left. -/
def readShares (room left : Nat) : Bits.Reader (List Share) := do
  match left, room with
  | 0, _ => return []
  | _, 0 => failure
  | left, room + 1 =>
    match ← readBounded left with
    | 0 =>
      let shares ← readShares room (left - 1)
      return .rare :: shares
    | 1 =>
      let skipped ← readSkipped
      let shares ← readShares (room - skipped) left
      return .cells 0 :: List.replicate skipped (.cells 0) ++ shares
    | n + 2 =>
      let shares ← readShares room (left - (n + 1))
      return .cells (n + 1) :: shares
termination_by room

/-! ## The cells -/

namespace StateTable

/-- The places of a table of `size` cells, in the order in which they are filled: in steps that visit each of them. -/
def places (size : Nat) : List Nat :=
  (List.range size).map fun i => i * (size / 2 + size / 8 + 3) % size

/-- The symbols of the cells, in the order of the cells. Rare symbols have the last cells, from the end on; the cells of
    the others are spread over the remaining places. -/
def layout (size : Nat) (shares : List Share) : List Nat :=
  let rare := shares.zipIdx.filterMap fun (share, symbol) => if share = .rare then some symbol else none
  let spread := shares.zipIdx.flatMap fun (share, symbol) =>
    match share with
    | .rare => []
    | .cells n => List.replicate n symbol
  let free := (places size).filter fun place => place < size - rare.length
  let fill (cells : Array Nat) (filled : Nat × Nat) := cells.setIfInBounds filled.2 filled.1
  let atEnd := rare.zipIdx.foldl (fun cells (symbol, i) => fill cells (symbol, size - 1 - i)) (Array.replicate size 0)
  ((spread.zip free).foldl fill atEnd).toList

/-- Cells with these symbols. The cells of a symbol are numbered, from its share on, and the number of a cell says where
    it leads: to one of `1 <<< bits` cells in a row, such that the cells of a symbol lead to every cell once. -/
def number (log : Nat) (counters : Array Nat) : List Nat → List Cell
  | [] => []
  | symbol :: symbols =>
    let n := counters.getD symbol 1
    let bits := log - n.log2
    ⟨symbol, bits, (n <<< bits) - (1 <<< log)⟩ :: number log (counters.setIfInBounds symbol (n + 1)) symbols

/-- The table of `1 <<< log` cells in which the symbols have these shares. -/
def ofShares (log : Nat) (shares : List Share) : StateTable where
  log := log
  cells :=
    let counters := shares.map fun share =>
      match share with
      | .rare => 1
      | .cells n => n
    (number log counters.toArray (layout (1 <<< log) shares)).toArray

/-- The table of one cell, which leads to itself. -/
def single (symbol : Nat) : StateTable :=
  ⟨0, #[⟨symbol, 0, 0⟩]⟩

/-- Reads a table. `room` says for each size of the table how many symbols it may have. -/
def read (maxLog : Nat) (room : (log : Nat) → Nat) : Binary.Reader StateTable := fun input => do
  let (log, bits) ← Bits.readLow 4 (Bits.ofBytes input)
  let log := log + 5
  if log ≤ maxLog then
    let (shares, bits) ← readShares (room log) (1 <<< log) bits
    return (ofShares log shares, input.drop (input.length - bits.length / 8))
  else
    none

/-! ## Walks -/

/-- The cell at a place. -/
def cell (table : StateTable) (place : Nat) : Bits.Reader Cell :=
  StateT.lift table.cells[place]?

/-- The first cell of a walk. -/
def start (table : StateTable) : Bits.Reader Cell := do
  table.cell (← Bits.readHigh table.log)

/-- The cell that follows a cell. -/
def next (table : StateTable) (cell : Cell) : Bits.Reader Cell := do
  table.cell (cell.base + (← Bits.readHigh cell.bits))

end StateTable

end VersionedTree.Frame

import VersionedTree.Contents.Frame.StateTable

/-!
# Sequences — copies from what came before

After its literals a compressed block has sequences. Each one takes some literals, and then copies bytes that the frame
has given before. The three numbers of a sequence are coded as walks through three tables, which take turns on one
stream of bits; a cell gives the order of magnitude of the number, and more bits give the rest.

* **`Sequences.read`** reads the section.
* **`Sequences.execute`** does what the sequences say.
-/

namespace VersionedTree.Frame

/-- One step in making up the data: literals, and then a copy. -/
structure Sequence where
  /-- How many literals are taken. -/
  literals : Nat
  /-- How many bytes are copied. -/
  length : Nat
  /-- Where they are copied from: 1 to 3 stand for a recent distance, and a greater number for 3 less. -/
  distance : Nat
deriving DecidableEq, Repr

namespace Sequences

/-! ## The tables -/

/-- How one of the numbers of a sequence is coded. -/
structure Alphabet where
  /-- The number of symbols. -/
  symbols : Nat
  /-- The greatest size of a table, as an exponent. -/
  maxLog : Nat
  /-- The table of blocks that describe none. -/
  standard : StateTable

/-- The widths of the additional bits of a number of literals, by symbol. -/
def literalWidths : List Nat :=
  List.replicate 16 0 ++ [1, 1, 1, 1, 2, 2, 3, 3, 4, 6, 7, 8, 9, 10, 11, 12, 13, 14, 15, 16]

/-- The widths of the additional bits of the length of a copy, by symbol. -/
def lengthWidths : List Nat :=
  List.replicate 32 0 ++ [1, 1, 1, 1, 2, 2, 3, 3, 4, 4, 5, 7, 8, 9, 10, 11, 12, 13, 14, 15, 16]

/-- The coding of numbers of literals. -/
def literalAlphabet : Alphabet where
  symbols := 36
  maxLog := 9
  standard := .ofShares 6 <|
    [4, 3, 2, 2, 2, 2, 2, 2, 2, 2, 2, 2, 2, 1, 1, 1, 2, 2, 2, 2, 2, 2, 2, 2, 2, 3, 2, 1, 1, 1, 1, 1].map Share.cells ++
      List.replicate 4 .rare

/-- The coding of the lengths of copies. -/
def lengthAlphabet : Alphabet where
  symbols := 53
  maxLog := 9
  standard := .ofShares 6 <|
    ([1, 4, 3, 2, 2, 2, 2, 2, 2] ++ List.replicate 37 1).map Share.cells ++ List.replicate 7 .rare

/-- The coding of distances. -/
def distanceAlphabet : Alphabet where
  symbols := 32
  maxLog := 8
  standard := .ofShares 5 <|
    ([1, 1, 1, 1, 1, 1, 2, 2, 2] ++ List.replicate 15 1).map Share.cells ++ List.replicate 5 .rare

/-- A value for each of the three numbers of a sequence. -/
structure Triple (α : Type) where
  literals : α
  length : α
  distance : α

/-- The tables of a block. -/
abbrev Tables := Triple StateTable

/-- Reads a table: the standard one, one with a single symbol, one that is described, or that of an earlier block. -/
def Alphabet.readTable (alphabet : Alphabet) (mode : Nat) (earlier : Option StateTable) :
    Binary.Reader StateTable := do
  match mode with
  | 0 => return alphabet.standard
  | 1 =>
    let symbol ← Binary.readNumber 1
    if symbol < alphabet.symbols then
      return .single symbol
    else
      failure
  | 2 => StateTable.read alphabet.maxLog fun _ => alphabet.symbols
  | _ => StateT.lift earlier

/-- Reads the tables of a block. Their modes are in one byte, of which the two lowest bits are not set. -/
def readTables (earlier : Option Tables) : Binary.Reader Tables := do
  let modes ← Binary.readNumber 1
  if modes % 4 ≠ 0 then
    failure
  let literals ← literalAlphabet.readTable (modes / 64) (earlier.map (·.literals))
  let distance ← distanceAlphabet.readTable (modes / 16 % 4) (earlier.map (·.distance))
  let length ← lengthAlphabet.readTable (modes / 4 % 4) (earlier.map (·.length))
  return ⟨literals, length, distance⟩

/-! ## The sequences -/

/-- Reads a number whose symbol is known. The numbers of a symbol follow those of the symbol before; the first symbol
    begins at `least`. -/
def readValue (least : Nat) (widths : List Nat) (symbol : Nat) : Bits.Reader Nat := do
  let least := (widths.take symbol).foldl (fun n width => n + (1 <<< width)) least
  return least + (← Bits.readHigh (widths.getD symbol 0))

/-- Reads the numbers of a sequence. -/
def readSequence (cells : Triple Cell) : Bits.Reader Sequence := do
  let distance ← Bits.readHigh cells.distance.symbol
  let length ← readValue 3 lengthWidths cells.length.symbol
  let literals ← readValue 0 literalWidths cells.literals.symbol
  return ⟨literals, length, (1 <<< cells.distance.symbol) + distance⟩

/-- The first cells of the three walks. -/
def start (tables : Tables) : Bits.Reader (Triple Cell) := do
  let literals ← tables.literals.start
  let distance ← tables.distance.start
  let length ← tables.length.start
  return ⟨literals, length, distance⟩

/-- The next cells of the three walks. -/
def next (tables : Tables) (cells : Triple Cell) : Bits.Reader (Triple Cell) := do
  let literals ← tables.literals.next cells.literals
  let length ← tables.length.next cells.length
  let distance ← tables.distance.next cells.distance
  return ⟨literals, length, distance⟩

/-- Reads one more sequence, and then `more` others to the end of the bits. `done` holds the sequences before them, the
    latest one first. -/
def readAll (tables : Tables) (more : Nat) (cells : Triple Cell) (done : List Sequence) (bits : Bits) :
    Option (List Sequence) :=
  match readSequence cells bits with
  | none => none
  | some (sequence, bits) =>
    match more with
    | 0 => if bits = [] then some (sequence :: done).reverse else none
    | more + 1 =>
      match next tables cells bits with
      | none => none
      | some (cells, bits) => readAll tables more cells (sequence :: done) bits

/-- Reads the number of sequences, which takes one to three bytes. -/
def readCount : Binary.Reader Nat := do
  let first ← Binary.readNumber 1
  if first < 128 then
    return first
  else if first < 255 then
    return 256 * (first - 128) + (← Binary.readNumber 1)
  else
    return 0x7F00 + (← Binary.readNumber 2)

/-- Reads the section, to the end of the input: the sequences, and the tables that later blocks may use. -/
def read (earlier : Option Tables) (input : Bytes) : Option (List Sequence × Option Tables) := do
  let (count, input) ← readCount input
  match count with
  | 0 => if input = [] then some ([], earlier) else none
  | more + 1 =>
    let (tables, stream) ← readTables earlier input
    let (cells, bits) ← start tables (← Bits.ofBackward? stream)
    return (← readAll tables more cells [] bits, some tables)

/-! ## What they do -/

/-- The distances of the latest copies, the latest one first. -/
structure Recent where
  first : Nat
  second : Nat
  third : Nat

/-- The distances that count as recent before the first copy. -/
def Recent.initial : Recent :=
  ⟨1, 4, 8⟩

/-- The distance that is meant by a number, and the recent distances after it. A copy that comes right after another one
    would not repeat its distance, so without literals the numbers 1 to 3 mean the second, the third, and one less than
    the first. -/
def Recent.resolve (recent : Recent) (distance literals : Nat) : Option (Nat × Recent) :=
  if 3 < distance then
    some (distance - 3, ⟨distance - 3, recent.first, recent.second⟩)
  else
    match if literals = 0 then distance + 1 else distance with
    | 1 => some (recent.first, recent)
    | 2 => some (recent.second, ⟨recent.second, recent.first, recent.third⟩)
    | 3 => some (recent.third, ⟨recent.third, recent.first, recent.second⟩)
    | _ =>
      if recent.first ≤ 1 then none
      else some (recent.first - 1, ⟨recent.first - 1, recent.first, recent.second⟩)

/-- Copies bytes from `distance` bytes back, one after the other, so that a copy may go on into itself. -/
def copyBack (distance : Nat) : (length : Nat) → Array UInt8 → Array UInt8
  | 0, output => output
  | length + 1, output => copyBack distance length (output.push (output.getD (output.size - distance) 0))

/-- Takes the steps of the sequences, and then the literals that are left. The output may not grow beyond `limit`
    bytes. -/
def execute (limit : Nat) : List Sequence → (literals : Bytes) → (output : Array UInt8) → Recent →
    Option (Array UInt8 × Recent)
  | [], literals, output, recent =>
    if output.size + literals.length ≤ limit then some (output ++ literals, recent) else none
  | sequence :: rest, literals, output, recent =>
    let (now, later) := literals.splitAt sequence.literals
    if now.length < sequence.literals ∨ limit < output.size + sequence.literals + sequence.length then
      none
    else
      match recent.resolve sequence.distance sequence.literals with
      | none => none
      | some (distance, recent) =>
        if output.size + sequence.literals < distance then none
        else execute limit rest later (copyBack distance sequence.length (output ++ now)) recent

end Sequences

end VersionedTree.Frame

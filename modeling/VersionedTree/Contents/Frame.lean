import VersionedTree.Contents.Codec
import VersionedTree.Contents.Frame.Block
import VersionedTree.Contents.Frame.Digest

/-!
# Frames — stored data in blocks

A stored representation is a Zstandard frame: a magic number, a header, and blocks. Each block has a header of three
bytes that says whether it is the last one, how it is written and how long it is. All frames of the format are read that
need no dictionary, also several in a row. The frames written here hold their data as it is, in raw blocks; the
compression level only chooses how long the blocks are.

* **`encode`** writes a frame, **`decode?`** reads frames.
* **`decode?_encode`** says that no level loses anything. So frames are a codec, and it is the one that is used.
-/

namespace VersionedTree.Frame

/-- The number that a frame starts with. -/
def magic : Nat := 0xFD2FB528

/-- The upper 28 bits of the number that a frame to be skipped starts with. -/
def skippedMagic : Nat := 0x184D2A5

/-! ## Writing -/

/-- The header of the frames that are written. It does not announce the length of the data, and asks for a window of
    128 KiB. -/
def Header.plain : Header where
  length? := none
  window := Header.maxBlock
  hasDigest := false

/-- The bytes of that header. -/
def plainHeader : Bytes :=
  [0x00, 0x38]

/-- The length of the blocks at a level: 1 KiB, doubled with each level, and at most the 128 KiB that a block can
    have. -/
def blockLength (level : Int) : Nat :=
  1 <<< min 17 (10 + level.toNat)

/-- Blocks are not empty. -/
theorem blockLength_pos (level : Int) : 0 < blockLength level := by
  rw [blockLength, Nat.one_shiftLeft]
  exact Nat.two_pow_pos _

/-- A raw block, with its header. -/
def block (last : Bool) (data : Bytes) : Bytes :=
  Binary.number 3 (8 * data.length + last.toNat) ++ data

/-- The pieces of the data as blocks, of which the last one is marked. -/
def blocks : List Bytes → Bytes
  | [] => block true []
  | [piece] => block true piece
  | piece :: rest => block false piece ++ blocks rest

/-- The frame that holds `data`. -/
def encode (level : Int) (data : Bytes) : Bytes :=
  Binary.number 4 magic ++ plainHeader ++ blocks (chunks (blockLength level) (blockLength_pos level) data)

/-! ## Reading -/

/-- How a block with this number in its header is written. -/
def blockKind? : (number : Nat) → Option BlockKind
  | 0 => some .raw
  | 1 => some .repeated
  | 2 => some .compressed
  | _ => none

/-- Reads blocks up to the last one: the progress after it, and what follows it. -/
def readBlocks (header : Header) (progress : Progress) (input : Bytes) : Option (Progress × Bytes) :=
  match input with
  | a :: b :: c :: rest =>
    let start := a.toNat + 256 * (b.toNat + 256 * c.toNat)
    match blockKind? (start / 2 % 4) with
    | none => none
    | some kind =>
      let length := if kind = .repeated then 1 else start / 8
      if rest.length < length then
        none
      else
        match progress.take header kind (start / 8) (rest.take length) with
        | none => none
        | some progress =>
          if start % 2 = 0 then readBlocks header progress (rest.drop length)
          else if header.endsAt progress.output.size (length = 0) then some (progress, rest.drop length)
          else none
  | _ => none
termination_by input.length
decreasing_by
  simp only [List.length_drop, List.length_cons]
  omega

/-- Reads what follows the magic number of a frame: its data, and what follows the frame. -/
def readData (input : Bytes) : Option (Bytes × Bytes) := do
  let (header, rest) ← Header.read input
  if header.isReadable then
    let (progress, rest) ← readBlocks header .start rest
    let data := progress.output.toList
    if header.hasDigest then
      let (digest, rest) ← Binary.readNumber 4 rest
      if digest = (Digest.ofBytes data).toNat % UInt32.size then some (data, rest) else none
    else
      some (data, rest)
  else
    none

/-- Reads a frame: its data, and what follows it. There are sixteen magic numbers of frames that are skipped, and these
    hold no data. -/
def readFrame (input : Bytes) : Option (Bytes × Bytes) := do
  let (number, rest) ← Binary.readNumber 4 input
  if number = magic then
    readData rest
  else if number / 16 = skippedMagic then
    let (length, rest) ← Binary.readNumber 4 rest
    let (_, rest) ← Binary.readBytes length rest
    some ([], rest)
  else
    none

/-- Reads frames to the end of the input, at most `count` of them. -/
def readFrames : (count : Nat) → Bytes → Option Bytes
  | 0, _ => none
  | count + 1, input =>
    match readFrame input with
    | none => none
    | some (data, []) => some data
    | some (data, rest) => (readFrames count rest).map fun more => data ++ more

/-- The data of one or more frames. No frame is empty, so there are not more of them than bytes. -/
def decode? (stored : Bytes) : Option Bytes :=
  readFrames stored.length stored

/-! ## Nothing is lost -/

/-- The three bytes of a block's header, as the number that they spell. -/
theorem readBlocks_number {n : Nat} (h : n < 1 <<< 24) (header : Header) (progress : Progress) (rest : Bytes) :
    readBlocks header progress (Binary.number 3 n ++ rest) =
      match blockKind? (n / 2 % 4) with
      | none => none
      | some kind =>
        let length := if kind = .repeated then 1 else n / 8
        if rest.length < length then none
        else
          match progress.take header kind (n / 8) (rest.take length) with
          | none => none
          | some progress =>
            if n % 2 = 0 then readBlocks header progress (rest.drop length)
            else if header.endsAt progress.output.size (length = 0) then some (progress, rest.drop length)
            else none := by
  have hlt : n < 16777216 := h
  have hn : (UInt8.ofNat n).toNat + 256 * ((UInt8.ofNat (n / 256)).toNat + 256 * (UInt8.ofNat (n / 256 / 256)).toNat) =
      n := by
    simp only [UInt8.toNat_ofNat']
    omega
  simp only [Binary.number, List.cons_append, List.nil_append]
  rw [readBlocks]
  simp only [hn]

/-- The header of a frame is read back. -/
theorem read_plainHeader (rest : Bytes) : Header.read (plainHeader ++ rest) = some (.plain, rest) := by
  rfl

/-- A raw block is read back; the reader goes on behind it unless it is the last one. -/
theorem readBlocks_block {data : Bytes} (h : data.length ≤ Header.maxBlock) (last : Bool) (progress : Progress)
    (rest : Bytes) :
    readBlocks .plain progress (block last data ++ rest) =
      if last then some ({ progress with output := progress.output ++ data }, rest)
      else readBlocks .plain { progress with output := progress.output ++ data } rest := by
  have hlast : last.toNat ≤ 1 := Bool.toNat_le last
  have hlen : (8 * data.length + last.toNat) / 8 = data.length := by omega
  have hkind : (8 * data.length + last.toNat) / 2 % 4 = 0 := by omega
  have hmod : (8 * data.length + last.toNat) % 2 = last.toNat := by omega
  have hfits : ¬data.length + rest.length < data.length := by omega
  have hheader : 8 * data.length + last.toNat < 1 <<< 24 := by
    have hmax : data.length ≤ 131072 := h
    omega
  have htake : progress.take .plain .raw data.length data =
      some { progress with output := progress.output ++ data } := by
    have hlimit : Header.plain.limitAfter progress.output.size = progress.output.size + Header.maxBlock := rfl
    show progress.add (Header.plain.limitAfter progress.output.size) data = _
    rw [Progress.add, hlimit, if_pos (Nat.add_le_add_left h _)]
  have hends : ∀ length emptyEnd, Header.plain.endsAt length emptyEnd = true := fun _ _ => rfl
  rw [block, List.append_assoc, readBlocks_number hheader]
  simp only [hlen, hkind, hmod, blockKind?, List.length_append]
  cases last <;> simp [hfits, htake, hends]

/-- Pieces may be put together in any order. -/
theorem append_append (output : Array UInt8) (piece more : Bytes) :
    output ++ piece ++ more = output ++ (piece ++ more) := by
  apply Array.toList_inj.1
  simp

/-- The pieces are read back as one, whatever follows their blocks. -/
theorem readBlocks_blocks {pieces : List Bytes} (h : ∀ piece ∈ pieces, piece.length ≤ Header.maxBlock) (progress : Progress)
    (rest : Bytes) :
    readBlocks .plain progress (blocks pieces ++ rest) =
      some ({ progress with output := progress.output ++ pieces.flatten }, rest) := by
  induction pieces generalizing progress with
  | nil => simp [blocks, readBlocks_block]
  | cons piece more ih =>
    have hp := h piece (by simp)
    cases more with
    | nil => simp [blocks, readBlocks_block hp]
    | cons next more =>
      have := ih fun p hm => h p (List.mem_cons_of_mem _ hm)
      simp [blocks, List.append_assoc, readBlocks_block hp, this, append_append]

/-- No block is longer than it may be. -/
theorem blockLength_le (level : Int) : blockLength level ≤ Header.maxBlock := by
  rw [blockLength, Nat.one_shiftLeft]
  exact Nat.pow_le_pow_right (by decide) (Nat.min_le_left 17 _)

/-- A frame of any level is read off the front of the input. -/
theorem readFrame_encode (level : Int) (data rest : Bytes) :
    readFrame (encode level data ++ rest) = some (data, rest) := by
  have hpieces : ∀ piece ∈ chunks (blockLength level) (blockLength_pos level) data, piece.length ≤ Header.maxBlock :=
    fun piece hp => Nat.le_trans (length_le_of_mem_chunks hp) (blockLength_le level)
  have hblocks := readBlocks_blocks hpieces .start rest
  have hmagic : ∀ more, Binary.readNumber 4 (Binary.number 4 magic ++ more) = some (magic, more) :=
    Binary.readNumber_number (by decide)
  have hreadable : Header.plain.isReadable = true := rfl
  have hdigest : Header.plain.hasDigest = false := rfl
  rw [flatten_chunks] at hblocks
  rw [encode, List.append_assoc, List.append_assoc]
  simp [readFrame, readData, hmagic, read_plainHeader, hblocks, hreadable, hdigest]
  simp [Progress.start]

/-- A frame of any level is read back. -/
theorem decode?_encode (level : Int) (data : Bytes) : decode? (encode level data) = some data := by
  have h := readFrame_encode level data []
  rw [List.append_nil] at h
  have hlength : (encode level data).length =
      (plainHeader ++ blocks (chunks (blockLength level) (blockLength_pos level) data)).length + 3 + 1 := by
    simp only [encode, List.length_append, Binary.length_number]
    omega
  rw [decode?, hlength, readFrames, h]

/-- Frames are the codec of stored representations. -/
instance codec : Codec where
  compress := encode
  decompress? := decode?
  decompress?_compress := decode?_encode

end VersionedTree.Frame

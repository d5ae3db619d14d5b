/-
  LevelBundle — positions: how a place in a bundle is packed into one word.

  A bundle is a row of chunks of one size.  A `Position` names a byte of it by
  the index of its chunk (the block), the offset inside the chunk and two flag
  bits:

      31 ............ offsetBits | offsetBits-1 ........ 2 |  1  |  0
             block index         |  offset (whole words)   | run | unres

  `unres` marks a word that a loader has yet to replace by an address, `run` a
  place that holds the record of a file loaded on demand.  Offsets are whole
  words, so the flags share no bit with them.

  * `Addressing` is the split for one chunk size; the sizes it admits are part
    of the type.
  * `Addressing.encode` and `Addressing.decode` go between the parts and the
    word; `Slot` views a word as a position or as an address already written.
-/
import LevelBundle.Word
import LevelBundle.Text.Hex

namespace LevelBundle

/-- An encoded place in a bundle. -/
structure Position where
  /-- The encoded word. -/
  word : UInt32
  deriving DecidableEq, Repr, Inhabited

namespace Position

/-- The flag of a word that still has to be replaced by an address. -/
def unresolvedFlag : UInt32 := 1

/-- The flag of a place that holds the record of a file loaded on demand. -/
def runtimeFlag : UInt32 := 2

/-- Both flags. -/
def flagMask : UInt32 := 3

/-- The position that ends a table and stands for an absent one. -/
def null : Position := ⟨0⟩

/-- Whether this is the null position. -/
def isNull (p : Position) : Bool := p.word == 0

/-- The flag bits. -/
def flags (p : Position) : UInt32 := p.word &&& flagMask

/-- Whether the word still has to be replaced by an address. -/
def isUnresolved (p : Position) : Bool := p.word &&& unresolvedFlag != 0

/-- Whether the place holds the record of a file loaded on demand. -/
def isRuntimeFile (p : Position) : Bool := p.word &&& runtimeFlag != 0

/-- A position in reports: its word in hexadecimal. -/
def render (p : Position) : String := Text.hexWord p.word

end Position

/-- The filler of a chunk-table entry: all ones, until a loader writes the
    address of the chunk there. -/
def chunkFiller : UInt32 := 0xFFFFFFFF

/-- Why a place has no position. -/
inductive PositionError where
  /-- The chunk size is out of range or no number of words. -/
  | invalidChunkSize (chunkSize : UInt32)
  /-- The block index is too large. -/
  | blockOutOfRange (block max : UInt32)
  /-- The offset lies past the chunk. -/
  | offsetOutOfRange (offset chunkSize : UInt32)
  /-- The offset is no number of words. -/
  | misalignedOffset (offset : UInt32)
  /-- There are flags besides the two. -/
  | invalidFlags (flags : UInt32)
  deriving DecidableEq, Repr

/-- The smallest chunk size. -/
def minChunkSize : UInt32 := 16

/-- The largest chunk size: it leaves two bits for the block index. -/
def maxChunkSize : UInt32 := 1073741824

/-- The wording of each fault. -/
def PositionError.message : PositionError → String
  | invalidChunkSize n =>
    s!"Invalid chunk size {n}: must be a multiple of 4 between {minChunkSize} and {maxChunkSize}"
  | blockOutOfRange block max => s!"Block index {block} exceeds the maximum of {max} blocks"
  | offsetOutOfRange offset chunkSize =>
    "Offset " ++ Text.hex offset.toNat ++ " lies outside a chunk of " ++
      Text.hex chunkSize.toNat ++ " bytes"
  | misalignedOffset offset => "Offset " ++ Text.hex offset.toNat ++ " is not 4-byte aligned"
  | invalidFlags flags => "Invalid position flags " ++ Text.hex flags.toNat

/-- The split of a position word for one chunk size. -/
structure Addressing where
  /-- The chunk size in bytes. -/
  chunkSize : UInt32
  /-- A chunk is not too small. -/
  minChunkSize_le : minChunkSize ≤ chunkSize
  /-- A chunk is not too large. -/
  le_maxChunkSize : chunkSize ≤ maxChunkSize
  /-- A chunk is a number of words. -/
  whole_words : chunkSize % 4 = 0
  deriving DecidableEq

namespace Addressing

/-- The split for `chunkSize`, if that size is admitted. -/
def ofChunkSize (chunkSize : UInt32) : Except PositionError Addressing :=
  if h : minChunkSize ≤ chunkSize ∧ chunkSize ≤ maxChunkSize ∧ chunkSize % 4 = 0 then
    .ok ⟨chunkSize, h.1, h.2.1, h.2.2⟩
  else
    .error (.invalidChunkSize chunkSize)

/-- The bits of the offset: just enough to write `chunkSize - 1`. -/
def offsetBits (a : Addressing) : UInt32 :=
  UInt32.ofNat ((a.chunkSize.toNat - 1).log2 + 1)

/-- The bits of the block index. -/
def blockBits (a : Addressing) : UInt32 := 32 - a.offsetBits

/-- The number of blocks that can be named.  The index of all ones is left
    out, so that the filler of the chunk table is no position. -/
def maxBlocks (a : Addressing) : UInt32 :=
  UInt32.ofNat (Nat.pow 2 a.blockBits.toNat - 1)

/-- The position of a block, an offset in it and flags. -/
def encode (a : Addressing) (block offset flags : UInt32) : Except PositionError Position :=
  if flags &&& ~~~ Position.flagMask ≠ 0 then
    .error (.invalidFlags flags)
  else if a.maxBlocks ≤ block then
    .error (.blockOutOfRange block a.maxBlocks)
  else if a.chunkSize ≤ offset then
    .error (.offsetOutOfRange offset a.chunkSize)
  else if offset &&& Position.flagMask ≠ 0 then
    .error (.misalignedOffset offset)
  else
    .ok ⟨(block <<< a.offsetBits) ||| offset ||| flags⟩

/-- The position of the byte at `offset` from the start of the bundle. -/
def encodeAbsolute (a : Addressing) (offset flags : UInt32) : Except PositionError Position :=
  a.encode (offset / a.chunkSize) (offset % a.chunkSize) flags

/-- The block of a position. -/
def block (a : Addressing) (p : Position) : UInt32 := p.word >>> a.offsetBits

/-- The offset of a position inside its block. -/
def offset (a : Addressing) (p : Position) : UInt32 :=
  p.word &&& ((1 <<< a.offsetBits) - 1) &&& ~~~ Position.flagMask

/-- Where the byte that a position names lies in the file. -/
def fileOffset (a : Addressing) (p : Position) : Nat :=
  (a.block p).toNat * a.chunkSize.toNat + (a.offset p).toNat

end Addressing

/-- A reference slot as a loader finds it. -/
inductive Slot where
  /-- It still holds a position. -/
  | unresolved (position : Position)
  /-- It holds an address (or nothing yet). -/
  | resolved (address : UInt32)
  deriving DecidableEq, Repr

namespace Slot

/-- Views a word as a slot. -/
def ofWord (word : UInt32) : Slot :=
  if Position.isUnresolved ⟨word⟩ then .unresolved ⟨word⟩ else .resolved word

/-- The word of a slot. -/
def toWord : Slot → UInt32
  | unresolved p => p.word
  | resolved address => address

theorem toWord_ofWord (word : UInt32) : (ofWord word).toWord = word := by
  unfold ofWord; split <;> rfl

end Slot

end LevelBundle

/-
  LevelBundle — the buffer a bundle is written into.

  A buffer grows at its end; a word written earlier can be filled in later
  (`reserve`, then `patch`).  `padTo` and `alignTo` add zeros up to an offset;
  at or past that offset they add nothing.
-/
import LevelBundle.Position

namespace LevelBundle

/-- Bytes written so far, and the order in which words are written. -/
structure Buffer where
  /-- The order of the bytes of a word. -/
  order : ByteOrder
  /-- The bytes written so far. -/
  bytes : Array UInt8 := #[]
  deriving Repr

namespace Buffer

/-- An empty buffer. -/
def empty (order : ByteOrder) : Buffer := { order }

/-- The offset at which the next byte lands. -/
def offset (b : Buffer) : UInt32 := b.bytes.size.toUInt32

/-- Writes one byte. -/
def pushByte (b : Buffer) (byte : UInt8) : Buffer :=
  { b with bytes := b.bytes.push byte }

/-- Writes bytes. -/
def append (b : Buffer) (bytes : Bytes) : Buffer :=
  { b with bytes := b.bytes.appendList bytes }

/-- Writes a word. -/
def pushWord (b : Buffer) (word : UInt32) : Buffer :=
  b.append (b.order.wordBytes word)

/-- Writes the word of a position. -/
def pushPosition (b : Buffer) (p : Position) : Buffer :=
  b.pushWord p.word

/-- Writes `count` copies of a byte. -/
def fill (b : Buffer) (byte : UInt8) (count : UInt32) : Buffer :=
  b.append (List.replicate count.toNat byte)

/-- How many zeros are missing up to `target`. -/
def gap (b : Buffer) (target : UInt32) : UInt32 :=
  if target ≤ b.offset then 0 else target - b.offset

/-- Writes zeros up to the offset `target`. -/
def padTo (b : Buffer) (target : UInt32) : Buffer :=
  b.fill 0 (b.gap target)

/-- The next multiple of `boundary`; a boundary of at most one asks for nothing. -/
def nextBoundary (b : Buffer) (boundary : UInt32) : UInt32 :=
  if boundary ≤ 1 then b.offset else roundUp b.offset boundary

/-- Writes zeros up to the next multiple of `boundary`. -/
def alignTo (b : Buffer) (boundary : UInt32) : Buffer :=
  b.padTo (b.nextBoundary boundary)

/-- Overwrites the word written at `offset`. -/
def patch (b : Buffer) (offset : UInt32) (word : UInt32) : Buffer :=
  { b with bytes := b.order.setWordAt b.bytes offset.toNat word }

/-- Writes a zero word to be filled in later; it stands at the old offset. -/
def reserve (b : Buffer) : Buffer :=
  b.pushWord 0

end Buffer

end LevelBundle

/-
  LevelBundle — bundle files split into chunks.

  An image holds the chunks of a file, filled up with zeros, and can be put in
  memory at any addresses.
-/
import LevelBundle.Memory.Loader

namespace LevelBundle

/-- The chunks of a bundle file. -/
structure Image where
  /-- The chunks. -/
  chunks : Array (Array UInt8)
  /-- The size of a chunk. -/
  chunkSize : UInt32
  /-- The order of the bytes of a word. -/
  order : ByteOrder
  deriving Repr

namespace Image

/-- The chunk with an index: the bytes of the file, then zeros. -/
def chunkOf (bytes : Array UInt8) (size index : Nat) : Array UInt8 :=
  let part := bytes.extract (index * size) (index * size + size)
  part ++ Array.replicate (size - part.size) 0

/-- Splits a file.  There are chunks for every entry of the chunk table and for
    every byte of the file, which may go on behind the last entry. -/
def ofBytes (bytes : Array UInt8) (chunkSize : UInt32) (order : ByteOrder) :
    Except LoadError Image := do
  let _ ← (Addressing.ofChunkSize chunkSize).mapError LoadError.position
  let listed ← (Cursor.chunkTable { data := bytes, order }).1.mapError .format
  let size := chunkSize.toNat
  let count := max listed.toNat ((bytes.size + size - 1) / size)
  return { chunks := ((List.range count).map (chunkOf bytes size)).toArray, chunkSize, order }

/-- The number of chunks. -/
def chunkCount (i : Image) : Nat := i.chunks.size

/-- Addresses that put the chunks one behind the other, from `base` on. -/
def contiguousBases (i : Image) (base : UInt32) : List UInt32 :=
  (List.range i.chunkCount).map fun index => base + index.toUInt32 * i.chunkSize

/-- The chunks in memory, each at its address. -/
def memory (i : Image) (bases : List UInt32) : Except LoadError Memory :=
  if bases.length ≠ i.chunkCount then
    .error (.regionCountMismatch i.chunkCount bases.length)
  else
    .ok ((i.chunks.toList.zip bases).map fun (bytes, base) => Region.mk base bytes).toArray

/-- A loader for the chunks, each at its address. -/
def loader (i : Image) (bases : List UInt32) : Except LoadError Loader := do
  Loader.ofMemory (← i.memory bases) i.chunkSize i.order

/-- The chunks as a loader has left them. -/
def after (i : Image) (l : Loader) : Image := { i with chunks := l.memory.map Region.bytes }

/-- The word at an offset of a chunk. -/
def word? (i : Image) (index : Nat) (offset : UInt32) : Option UInt32 :=
  i.chunks[index]?.bind fun chunk => i.order.wordAt? chunk offset.toNat

end Image

end LevelBundle

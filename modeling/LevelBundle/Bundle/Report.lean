/-
  LevelBundle — what a bundle file says of itself.

  `Report.decode` reads the chunk table, the start position and the fixup
  table of a file as it lies on disk, before any loader has touched it:

      filler … filler | 0 | start | table | …

  The table word is null if there are no fixups; otherwise it names the place of
  the fixup table, a row of positions that a zero word ends.
-/
import LevelBundle.Bundle.Cursor
import LevelBundle.Checksum

namespace LevelBundle

/-- A decoded position. -/
structure Place where
  /-- The position. -/
  position : Position
  /-- The index of its chunk. -/
  block : UInt32
  /-- Its offset inside the chunk. -/
  offset : UInt32
  /-- Its offset in the file. -/
  fileOffset : Nat
  deriving DecidableEq, Repr

/-- The parts of a position. -/
def Addressing.place (a : Addressing) (p : Position) : Place :=
  ⟨p, a.block p, a.offset p, a.fileOffset p⟩

/-- The contents of the header and of the fixup table of a bundle. -/
structure Report where
  /-- The length of the file. -/
  size : Nat
  /-- The checksum of the file. -/
  crc32 : UInt32
  /-- The chunk size it was read with. -/
  chunkSize : UInt32
  /-- The number of entries of the chunk table. -/
  chunkCount : UInt32
  /-- The bytes before the first packed item, with the fixup table if that
      follows the header directly. -/
  headerSize : UInt32
  /-- Where the root lies. -/
  start : Place
  /-- Where the fixup table lies, if there is one. -/
  fixupTable : Option Place
  /-- The entries of the fixup table. -/
  fixups : List Place
  deriving Repr

namespace Report

/-- Reads fixup entries up to the zero word; `table` is the offset of the
    table.  Returns the entries and the cursor after the zero word. -/
def readFixups (a : Addressing) (table : Nat) (c : Cursor) :
    Except FormatError (List Place × Cursor) :=
  match _h : c.peek? with
  | none => .error (.missingFixupTerminator table)
  | some word =>
    if word = 0 then .ok ([], c.skipWord)
    else if Position.isUnresolved ⟨word⟩ then
      match readFixups a table c.skipWord with
      | .ok (entries, rest) => .ok (a.place ⟨word⟩ :: entries, rest)
      | .error e => .error e
    else .error (.notAPosition c.pos word)
termination_by c.remaining
decreasing_by
  have := Cursor.pos_add_four_le_of_peek? _h
  simp only [Cursor.remaining, Cursor.skipWord, Cursor.seek]
  omega

/-- Reads the header and the fixup table of a file. -/
def decode (data : Array UInt8) (chunkSize : UInt32) (order : ByteOrder) :
    Except FormatError Report := do
  let a ← (Addressing.ofChunkSize chunkSize).mapError .position
  let (count, afterTable) := Cursor.chunkTable { data, order }
  let chunkCount ← count
  let (startWord, afterStart) ← afterTable.readWord
  let start : Position := ⟨startWord⟩
  unless start.isUnresolved do
    throw (.notAPosition afterTable.pos startWord)
  let (tableWord, afterHeader) ← afterStart.readWord
  let table : Position := ⟨tableWord⟩
  let report : Report :=
    { size := data.size, crc32 := Checksum.crc32 data, chunkSize, chunkCount
      headerSize := afterHeader.pos.toUInt32, start := a.place start
      fixupTable := none, fixups := [] }
  if table.isNull then
    return report
  let tableOffset := a.fileOffset table
  let (fixups, afterFixups) ← readFixups a tableOffset (afterHeader.seek tableOffset)
  let headerEnd := if tableOffset = afterHeader.pos then afterFixups.pos else afterHeader.pos
  return { report with
    headerSize := headerEnd.toUInt32, fixupTable := some (a.place table), fixups }

end Report

end LevelBundle

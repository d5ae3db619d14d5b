/-
  LevelBundle — reading words from a bundle file.

  A `Cursor` is a place in the bytes of a file.  Reading a word needs four bytes
  from there on; the place may lie past the end, where nothing can be read.

  The file starts with the chunk table: one filler word per chunk, then a zero
  word.  `Cursor.chunkTable` counts the fillers.
-/
import LevelBundle.Position

namespace LevelBundle

/-- Why a file is no bundle. -/
inductive FormatError where
  /-- The file ends inside a word. -/
  | unexpectedEnd (offset need left : Nat)
  /-- No zero word ends the chunk table. -/
  | missingChunkTerminator
  /-- A word of the chunk table is not the filler. -/
  | badChunkEntry (index value : UInt32)
  /-- No zero word ends the fixup table. -/
  | missingFixupTerminator (offset : Nat)
  /-- A word that has to be a position is none. -/
  | notAPosition (offset : Nat) (value : UInt32)
  /-- The chunk size is not admitted. -/
  | position (cause : PositionError)
  deriving DecidableEq, Repr

/-- The wording of each fault. -/
def FormatError.message : FormatError → String
  | unexpectedEnd offset need left =>
    "Unexpected end of bundle at offset " ++ Text.hex offset ++
      s!" (need {need} bytes, have {left})"
  | missingChunkTerminator => "Chunk table is not terminated"
  | badChunkEntry index value =>
    s!"Chunk table entry {index} holds " ++ Text.hex value.toNat ++
      ", expected the unresolved placeholder"
  | missingFixupTerminator offset =>
    "Fixup table at offset " ++ Text.hex offset ++ " is not terminated"
  | notAPosition offset value =>
    "Word " ++ Text.hex value.toNat ++ " at offset " ++ Text.hex offset ++
      " is not an unresolved position"
  | position cause => cause.message

/-- A place in the bytes of a file. -/
structure Cursor where
  /-- The file. -/
  data : Array UInt8
  /-- The order of the bytes of a word. -/
  order : ByteOrder
  /-- The offset of the next byte to read. -/
  pos : Nat := 0
  deriving Repr

namespace Cursor

/-- How many bytes are left. -/
def remaining (c : Cursor) : Nat := c.data.size - c.pos

/-- The same file at another place. -/
def seek (c : Cursor) (pos : Nat) : Cursor := { c with pos }

/-- The cursor after a word. -/
def skipWord (c : Cursor) : Cursor := c.seek (c.pos + 4)

/-- The word at the cursor. -/
def peek? (c : Cursor) : Option UInt32 := c.order.wordAt? c.data c.pos

/-- Reads a word. -/
def readWord (c : Cursor) : Except FormatError (UInt32 × Cursor) :=
  match c.peek? with
  | some word => .ok (word, c.skipWord)
  | none => .error (.unexpectedEnd c.pos 4 c.remaining)

theorem pos_add_four_le_of_peek? {c : Cursor} {word : UInt32} (h : c.peek? = some word) :
    c.pos + 4 ≤ c.data.size := by
  unfold peek? ByteOrder.wordAt? at h
  split at h
  · assumption
  · cases h

/-- Counts fillers up to the zero word and stops after it.  The count starts
    at `count`.  A fault leaves the cursor after the word at fault. -/
def countFillers (c : Cursor) (count : UInt32) : Except FormatError UInt32 × Cursor :=
  match _h : c.peek? with
  | none => (.error .missingChunkTerminator, c)
  | some word =>
    if word = 0 then (.ok count, c.skipWord)
    else if word ≠ chunkFiller then (.error (.badChunkEntry count word), c.skipWord)
    else countFillers c.skipWord (count + 1)
termination_by c.remaining
decreasing_by
  have := pos_add_four_le_of_peek? _h
  simp only [remaining, skipWord, seek]
  omega

/-- The number of entries of the chunk table at the start of the file, and the
    cursor after the table. -/
def chunkTable (c : Cursor) : Except FormatError UInt32 × Cursor :=
  (c.seek 0).countFillers 0

end Cursor

end LevelBundle

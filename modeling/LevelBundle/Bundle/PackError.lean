/-
  LevelBundle — why a program cannot be packed into a bundle.
-/
import LevelBundle.Position

namespace LevelBundle

/-- Why a program cannot be packed. -/
inductive PackError where
  /-- An item does not fit in a chunk. -/
  | oversizedItem (what : String) (size : Nat) (chunkSize : UInt32)
  /-- More chunks are needed than positions can name. -/
  | capacityExceeded (chunks max : UInt32)
  /-- The header does not fit in the first chunk. -/
  | headerTooLarge (headerSize : Nat) (chunkSize : UInt32)
  /-- The fixup table at the end does not fit in a chunk. -/
  | fixupTableTooLarge (size : Nat) (chunkSize : UInt32)
  /-- The fixup table at the end lies in a block that is not kept free for it. -/
  | fixupTableUnaddressable (block chunks : UInt32)
  /-- A sector does not fit in a chunk. -/
  | sectorTooLarge (sectorSize chunkSize : UInt32)
  /-- The estimate of the header did not settle. -/
  | layoutDidNotConverge (passes : UInt32)
  /-- The bytes written are not as many as the layout says. -/
  | sizeMismatch (expected actual : Nat)
  /-- An item is already placed. -/
  | offsetAlreadyAssigned (name : String)
  /-- A reference leads to an item without a place. -/
  | unplaced (name : String)
  /-- A place has no position. -/
  | position (cause : PositionError)
  deriving DecidableEq, Repr

/-- The wording for an item that does not fit in a chunk. -/
def oversizedMessage (what : String) (size : Nat) (chunkSize : UInt32) : String :=
  s!"{what} is {size} bytes, larger than the {chunkSize}-byte chunk"

/-- The wording of each cause. -/
def PackError.message : PackError → String
  | oversizedItem what size chunkSize => oversizedMessage what size chunkSize
  | capacityExceeded chunks max =>
    s!"Bundle needs {chunks} chunks but at most {max} are addressable"
  | headerTooLarge headerSize chunkSize =>
    s!"Header of {headerSize} bytes does not fit in a {chunkSize}-byte chunk"
  | fixupTableTooLarge size chunkSize =>
    s!"Fixup table of {size} bytes does not fit in a {chunkSize}-byte chunk"
  | fixupTableUnaddressable block chunks =>
    s!"Fixup table lands in block {block}, past the block after the last of {chunks} chunks"
  | sectorTooLarge sectorSize chunkSize =>
    s!"Sector size {sectorSize} is larger than the {chunkSize}-byte chunk"
  | layoutDidNotConverge passes => s!"Layout did not converge after {passes} passes"
  | sizeMismatch expected actual =>
    s!"Bundle size mismatch: expected {expected} bytes, wrote {actual}"
  | offsetAlreadyAssigned name => s!"Offset of '{name}' was already assigned"
  | unplaced name => s!"Reference to unplaced item '{name}'"
  | position cause => cause.message

end LevelBundle

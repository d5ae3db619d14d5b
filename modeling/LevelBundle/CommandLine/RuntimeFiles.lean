/-
  LevelBundle — addresses for files that are loaded on demand.

  `RuntimeFiles` lays files out one behind the other from an address on.  Every
  file starts at a whole word and takes at least one, so files that start at a
  multiple of four stay apart.
-/
import LevelBundle.Files
import LevelBundle.Memory.Loader

namespace LevelBundle

/-- A file that was loaded on demand. -/
structure RuntimeLoad where
  /-- The name of the file. -/
  name : String
  /-- The address of its first byte. -/
  address : UInt32
  /-- Its number of bytes. -/
  size : Nat
  deriving DecidableEq, Repr

/-- The files that were loaded on demand, and where the next one goes. -/
structure RuntimeFiles where
  /-- The address of the next file. -/
  next : UInt32
  /-- The files, in the order of their loads. -/
  loads : List RuntimeLoad := []
  /-- Why the last file could not be read, if one could not. -/
  failure : Option ReadFailure := none
  deriving Repr

namespace RuntimeFiles

/-- The bytes that are set aside for a file: whole words, and at least one. -/
def room (size : Nat) : Nat := max 4 ((size + 3) / 4 * 4)

/-- Puts a file behind the others, if there are addresses left. -/
def add? (files : RuntimeFiles) (name : String) (size : Nat) : Option RuntimeFiles :=
  let next := files.next.toNat + room size
  if next < 4294967296 then
    some { files with
      next := next.toUInt32, loads := files.loads ++ [⟨name, files.next, size⟩] }
  else none

/-- The host that lays out the files whose sizes it is told. -/
def host (sizeOf : String → Except ReadFailure Nat) : FileHost RuntimeFiles := fun name => do
  let files ← get
  match sizeOf name with
  | .error cause =>
    set { files with failure := some cause }
    return .error cause.message
  | .ok size =>
    match files.add? name size with
    | some more =>
      set more
      return .ok files.next
    | none => return .error s!"no address space left for '{name}'"

end RuntimeFiles

end LevelBundle

/-
  LevelBundle — script texts, their lines, and where a line came from.

  `SourceLine.ofText` cuts a text after each line feed; a line's own text leaves
  out the line feeds and carriage returns at its end.  An `Origin` names a line
  of a registered text by its number and by the bytes it takes.

  Lines are numbered by words: the line after number `2 ^ 32 - 1` has the number
  zero, so that a number tells which line it is in a text of fewer than `2 ^ 32`
  lines.
-/
import LevelBundle.Path
import LevelBundle.Text.Blank

namespace LevelBundle

/-- Where a script line came from. -/
structure Origin where
  /-- The index of the text among those registered. -/
  file : Nat
  /-- The normalized path of the script. -/
  path : Path
  /-- The number of the line, from one on. -/
  line : UInt32
  /-- The offset of the first byte of the line. -/
  start : Nat
  /-- The offset after its last byte, without the line ending. -/
  stop : Nat
  deriving DecidableEq, Repr

namespace Origin

/-- The directory of the script. -/
def directory (o : Origin) : Path := o.path.directory

/-- An origin in messages. -/
def render (o : Origin) : String := s!"{o.path.text}:{o.line}"

end Origin

/-- A line of a text. -/
structure SourceLine where
  /-- The number of the line, from one on. -/
  number : UInt32
  /-- The offset of its first byte. -/
  start : Nat
  /-- The line without its line ending. -/
  text : List Char
  deriving DecidableEq, Repr

/-- The number of bytes of some characters. -/
def byteLength (cs : List Char) : Nat := (cs.map Char.utf8Size).foldr (· + ·) 0

namespace SourceLine

/-- The offset after the last byte of the line. -/
def stop (l : SourceLine) : Nat := l.start + byteLength l.text

/-- Cuts characters after each line feed; nothing follows a final one. -/
def pieces : List Char → List (List Char)
  | [] => []
  | c :: cs =>
    if c = '\n' then [c] :: pieces cs
    else match pieces cs with
      | [] => [[c]]
      | piece :: rest => (c :: piece) :: rest

/-- Numbers pieces from `number` on, the first of which starts at `start`. -/
def ofPieces (number : UInt32) (start : Nat) : List (List Char) → List SourceLine
  | [] => []
  | piece :: rest =>
    ⟨number, start, Text.dropEndWhile (fun c => c = '\n' || c = '\r') piece⟩
      :: ofPieces (number + 1) (start + byteLength piece) rest

/-- The lines of a text. -/
def ofText (text : String) : List SourceLine := ofPieces 1 0 (pieces text.toList)

/-- The origin of a line of the text `file` at `path`. -/
def origin (l : SourceLine) (file : Nat) (path : Path) : Origin :=
  ⟨file, path, l.number, l.start, l.stop⟩

end SourceLine

/-- A registered text. -/
structure Source where
  /-- The name it is shown under. -/
  name : String
  /-- The text. -/
  text : String
  deriving Repr

/-- The script texts seen so far; an origin names one by its index. -/
structure SourceMap where
  /-- The texts, in order of registration. -/
  sources : Array Source := #[]
  deriving Repr

namespace SourceMap

/-- The number of texts, which is the index of the next one. -/
def size (m : SourceMap) : Nat := m.sources.size

/-- Registers a text. -/
def add (m : SourceMap) (name text : String) : SourceMap :=
  ⟨m.sources.push ⟨name, text⟩⟩

end SourceMap

end LevelBundle

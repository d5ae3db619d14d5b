/-
  LevelBundle — compiled sections.

  A section is a row of parts that is placed as one item: bytes, references to
  other items, and zeros.  A reference takes a word, which holds the position of
  its target until a loader replaces it, so it has to lie on a whole word of the
  section.

  * `Section.push` appends a part; it keeps `size` the sum of the sizes of the
    parts and works out anew how many zeros an alignment takes.
  * `Section.record` is the section for a file that is loaded on demand: a zero
    word, where a loader keeps the address, and the name, ended by a zero byte.

  Sections are numbered in order of creation.  A number stands for a word, so a
  program is taken to have fewer than `2 ^ 32` sections.
-/
import LevelBundle.BuildError

namespace LevelBundle

/-- The index of a section in its program. -/
structure SectionId where
  /-- The index, in order of creation. -/
  index : Nat
  deriving DecidableEq, Repr, Inhabited

/-- A section in messages. -/
def SectionId.render (id : SectionId) : String := s!"@{id.index}"

/-- A part of a section. -/
inductive Part where
  /-- Bytes. -/
  | literal (bytes : Bytes)
  /-- A reference to a blob. -/
  | blob (id : BlobId)
  /-- A reference to a section. -/
  | level (id : SectionId)
  /-- A reference to the record of a file that is loaded on demand. -/
  | runtimeFile (name : String) (record : SectionId)
  /-- Zeros up to a multiple of `boundary`. -/
  | align (boundary size : UInt32)
  /-- Zeros. -/
  | pad (count : UInt32)
  deriving DecidableEq, Repr

namespace Part

/-- The number of bytes of a part. -/
def size : Part → UInt32
  | literal bytes => bytes.length.toUInt32
  | blob _ | level _ | runtimeFile _ _ => wordSize
  | align _ size => size
  | pad count => count

/-- Whether a part is a reference. -/
def isReference : Part → Bool
  | blob _ | level _ | runtimeFile _ _ => true
  | literal _ | align _ _ | pad _ => false

end Part

/-- Parts with their offsets, the first of which is `start`. -/
def partOffsets (start : UInt32) : List Part → List (UInt32 × Part)
  | [] => []
  | p :: rest => (start, p) :: partOffsets (start + p.size) rest

/-- A row of parts that is placed as one item. -/
structure Section where
  /-- The name. -/
  name : String
  /-- The parts. -/
  parts : List Part := []
  /-- The sum of the sizes of the parts. -/
  size : UInt32 := 0
  /-- The alignment inside the chunk. -/
  alignment : Option UInt32 := none
  /-- Where the header came from, if the section is one of a script. -/
  origin : Option Origin := none
  /-- Whether this is the record of a file that is loaded on demand. -/
  runtimeFile : Bool := false
  /-- Where the section lies in the bundle, once placed. -/
  offset : Option UInt32 := none
  deriving Repr

/-- A sum of sizes, which does not pass the greatest word. -/
def addSizes (a b : UInt32) : UInt32 :=
  if a + b < a then 0xFFFFFFFF else a + b

namespace Section

/-- The zeros that an alignment takes at the end of a section. -/
def fit (s : Section) : Part → Part
  | .align boundary _ => .align boundary (roundUp s.size boundary - s.size)
  | p => p

/-- Appends a part. -/
def push (s : Section) (p : Part) : Except BuildError.Kind Section :=
  let p := s.fit p
  if p.isReference ∧ s.size % wordSize ≠ 0 then
    .error (.misalignedReference s.name s.size)
  else
    .ok { s with parts := s.parts ++ [p], size := addSizes s.size p.size }

/-- The parts with their offsets inside the section. -/
def offsets (s : Section) : List (UInt32 × Part) := partOffsets 0 s.parts

/-- The number of references. -/
def referenceCount (s : Section) : Nat := s.parts.countP Part.isReference

/-- The parts of the record of a file. -/
def recordParts (filename : String) : List Part :=
  [.literal [0, 0, 0, 0], .literal (Utf8.encode filename ++ [0])]

/-- The record of a file that is loaded on demand. -/
def record (filename : String) : Section :=
  let parts := recordParts filename
  { name := "load:" ++ filename, parts, size := (parts.map Part.size).foldr (· + ·) 0
    runtimeFile := true }

end Section

end LevelBundle

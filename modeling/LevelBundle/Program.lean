/-
  LevelBundle — compiled programs.

  A program is a graph of sections and blobs with a root.  Sections refer to one
  another by their index and to blobs by theirs.
-/
import LevelBundle.Program.Section

namespace LevelBundle

/-- The sections and blobs that a script stands for. -/
structure Program where
  /-- The contents of files. -/
  store : Store
  /-- All sections, whether the root leads to them or not. -/
  sections : Array Section
  /-- The root. -/
  root : SectionId
  /-- The warnings of compiling. -/
  warnings : List Warning := []
  deriving Repr

namespace Program

/-- The section with an index; an empty one if there is none. -/
def sectionAt (p : Program) (id : SectionId) : Section :=
  p.sections.getD id.index { name := "" }

/-- The first section with a name. -/
def find? (p : Program) (name : String) : Option SectionId :=
  (p.sections.findIdx? fun s => s.name == name).map SectionId.mk

end Program

end LevelBundle

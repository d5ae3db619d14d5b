/-
  LevelBundle — the sections of a script.

  A table holds sections in the order of their definition, and each name once.
  What a second definition of a name does is for the policy to say: it is an
  error, or it is left out with a warning.
-/
import LevelBundle.Script.Statement

namespace LevelBundle

/-- A keyword line. -/
structure ScriptLine where
  /-- The keyword, in lower case. -/
  keyword : String
  /-- The arguments. -/
  arguments : List Argument
  /-- Where the line came from. -/
  origin : Origin
  deriving DecidableEq, Repr

/-- A section as it is written. -/
structure ScriptSection where
  /-- The name. -/
  name : String
  /-- The alignment from the header. -/
  alignment : Option UInt32
  /-- Where the header came from. -/
  origin : Origin
  /-- The lines up to the next header. -/
  lines : List ScriptLine := []
  deriving DecidableEq, Repr

/-- What a second definition of a section does. -/
inductive DuplicatePolicy where
  /-- It is an error. -/
  | error
  /-- It is left out. -/
  | ignore
  deriving DecidableEq, Repr

/-- A policy in settings. -/
def DuplicatePolicy.name : DuplicatePolicy → String
  | error => "error"
  | ignore => "ignore"

/-- The sections of a script, in order of definition. -/
structure SectionTable where
  /-- The sections. -/
  sections : List ScriptSection := []
  deriving DecidableEq, Repr

namespace SectionTable

/-- The number of sections. -/
def size (t : SectionTable) : Nat := t.sections.length

/-- The section with a name. -/
def find? (t : SectionTable) (name : String) : Option ScriptSection :=
  t.sections.find? fun s => s.name == name

/-- Whether a name is defined. -/
def contains (t : SectionTable) (name : String) : Bool := (t.find? name).isSome

/-- Adds a section, or says what the policy says about a second definition. -/
def insert (t : SectionTable) (s : ScriptSection) (policy : DuplicatePolicy) :
    Except BuildError (SectionTable × Option Warning) :=
  if t.contains s.name then
    match policy with
    | .error => .error (.at (.duplicateSection s.name) s.origin)
    | .ignore => .ok (t, some { kind := .duplicateIgnored s.name, origin := some s.origin })
  else .ok (⟨t.sections ++ [s]⟩, none)

end SectionTable

end LevelBundle

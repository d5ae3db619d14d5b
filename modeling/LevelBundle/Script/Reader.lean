/-
  LevelBundle — reading scripts.

  A `Reader` reads one script text after another into one table of sections.  A
  section enters the table when the header after it, or the end of the text, has
  been read; what entered before an error stays.
-/
import LevelBundle.Script.Definitions
import LevelBundle.Script.Lexer
import LevelBundle.Script.SectionTable

namespace LevelBundle

/-- What has been read so far. -/
structure Reader where
  /-- The sections. -/
  table : SectionTable := {}
  /-- The warnings, the earliest first. -/
  warnings : List Warning := []
  /-- The texts. -/
  sources : SourceMap := {}
  deriving Repr

/-- A step of reading: it may fail, and what was read before stays. -/
abbrev ReaderM := ExceptT BuildError (StateM Reader)

/-- How scripts are to be read. -/
structure ReadOptions where
  /-- The definitions that lines refer to. -/
  definitions : Definitions := {}
  /-- What a second definition of a section does. -/
  policy : DuplicatePolicy := .error
  deriving Repr

namespace Reader

/-- Puts a whole section into the table. -/
def commit (options : ReadOptions) (s : ScriptSection) : ReaderM Unit := do
  let reader ← get
  match reader.table.insert s options.policy with
  | .error e => throw e
  | .ok (table, warning) =>
    set { reader with table, warnings := reader.warnings ++ warning.toList }

/-- What a line says, inside a section or before the first one. -/
def statement (options : ReadOptions) (inside : Bool) (line : List Char) :
    Except BuildError.Kind Statement := do
  let expanded ← options.definitions.expand line
  match Lexer.tokenizeFrom 0 expanded with
  | .error e => throw (.malformedLine (.badInput e))
  | .ok lexemes => Statement.ofTokens inside (lexemes.map Lexeme.token)

/-- Reads a line.  `current` is the section that the line is in; the answer is
    the section that the next line is in. -/
def readLine (options : ReadOptions) (current : Option ScriptSection) (origin : Origin)
    (line : List Char) : ReaderM (Option ScriptSection) := do
  match statement options current.isSome line with
  | .error kind => throw (.at kind origin)
  | .ok .empty => return current
  | .ok (.header name alignment) =>
    match current with
    | some done => commit options done
    | none => pure ()
    return some { name, alignment, origin }
  | .ok (.line keyword arguments) =>
    return current.map fun s =>
      { s with lines := s.lines ++ [{ keyword, arguments, origin }] }

/-- Reads lines; the end puts the last section into the table. -/
def readLines (options : ReadOptions) (file : Nat) (path : Path) :
    Option ScriptSection → List SourceLine → ReaderM Unit
  | none, [] => return
  | some done, [] => commit options done
  | current, l :: rest => do
    let next ← readLine options current (l.origin file path) l.text
    readLines options file path next rest

/-- Reads a script text that lies at `path`. -/
def readText (options : ReadOptions) (path : Path) (text : String) : ReaderM Unit := do
  let path := path.normalize
  let reader ← get
  set { reader with sources := reader.sources.add path.text text }
  readLines options reader.sources.size path none (SourceLine.ofText text)

/-- Reads a script file. -/
def readPath (options : ReadOptions) (files : Files) (path : Path) : ReaderM Unit := do
  match files.readText path with
  | .error cause => throw { kind := .unreadable path cause }
  | .ok text => readText options path text

end Reader

end LevelBundle

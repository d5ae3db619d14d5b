/-
  LevelBundle — what can go wrong on the way from a script to a bundle.

  A `BuildError` stops a build and a `Warning` does not.  Both say what was
  noticed and, where there is one, which script line is to blame.  Every kind of
  error has a code that stays the same.
-/
import LevelBundle.Bundle.PackError
import LevelBundle.Files
import LevelBundle.Script.Source
import LevelBundle.Script.Token
import LevelBundle.Store

namespace LevelBundle

/-- What a reference leads to. -/
inductive Referent where
  /-- A section of the script. -/
  | namedSection
  /-- A data file. -/
  | dataFile
  deriving DecidableEq, Repr

/-- A referent in messages. -/
def Referent.render : Referent → String
  | .namedSection => "section"
  | .dataFile => "file"

/-- Why a line cannot be read. -/
inductive LineFault where
  /-- A `$(` without a `)` after it. -/
  | unterminatedReference
  /-- Input that is no token. -/
  | badInput (cause : LexError)
  /-- A keyword line before the first header. -/
  | beforeFirstHeader (keyword : String)
  /-- A line that starts with neither a keyword nor `[`. -/
  | badStart (found : Token)
  /-- A header without a name. -/
  | missingName
  /-- An `align` that is not followed by `=` and an integer. -/
  | missingAlignment
  /-- A header that goes on with neither `align` nor `]`. -/
  | missingBracket
  /-- Text after a header. -/
  | afterHeader
  /-- A token that is no argument. -/
  | badArgument (found : Token)
  /-- Any other fault, in its own words. -/
  | other (text : String)
  deriving DecidableEq, Repr

/-- The wording of each fault. -/
def LineFault.message : LineFault → String
  | unterminatedReference => "unterminated '$(' reference"
  | badInput cause => cause.message
  | beforeFirstHeader keyword => s!"'{keyword}' appears before the first section header"
  | badStart found => s!"expected a keyword or section header, found {found.describe}"
  | missingName => "expected a section name after '['"
  | missingAlignment => "expected 'align=N'"
  | missingBracket => "expected 'align=N' or ']' in section header"
  | afterHeader => "unexpected text after section header"
  | badArgument found => s!"unexpected {found.describe} in argument list"
  | other text => text

/-- What is wrong with the arguments of a keyword. -/
inductive ArgumentFault where
  /-- There are too few. -/
  | tooFew (least found : Nat)
  /-- There are too many. -/
  | tooMany (most found : Nat)
  /-- The argument with this number, from one on, is of the wrong kind. -/
  | wrongType (number : Nat) (expected found : String)
  /-- A number is out of range. -/
  | outOfRange (value low high : Int)
  /-- An alignment is larger than a chunk. -/
  | pastChunk (alignment chunkSize : UInt32)
  /-- An alignment cannot be honoured. -/
  | invalidAlignment (alignment : UInt32)
  /-- A number in a header is no alignment. -/
  | notAnAlignment (value : Int)
  /-- Any other fault, in its own words. -/
  | other (text : String)
  deriving DecidableEq, Repr

/-- The wording of each fault. -/
def ArgumentFault.message : ArgumentFault → String
  | tooFew least found => s!"expected at least {least} argument(s), found {found}"
  | tooMany most found => s!"expected at most {most} argument(s), found {found}"
  | wrongType number expected found => s!"argument {number} must be {expected}, found {found}"
  | outOfRange value low high => s!"{value} is outside the range {low}..={high}"
  | pastChunk alignment chunkSize =>
    s!"alignment {alignment} exceeds the chunk size {chunkSize}"
  | invalidAlignment alignment => Alignment.invalidMessage alignment
  | notAnAlignment value => s!"{value} is not a valid alignment"
  | other text => text

/-- The kinds of build errors. -/
inductive BuildError.Kind where
  /-- A line cannot be read. -/
  | malformedLine (fault : LineFault)
  /-- A `$(…)` names no definition. -/
  | undefinedVariable (name : String)
  /-- A keyword is not known. -/
  | unknownKeyword (keyword : String)
  /-- The arguments of a keyword are wrong. -/
  | invalidArgument (keyword : String) (fault : ArgumentFault)
  /-- A reference leads nowhere. -/
  | unresolvable (referent : Referent) (name : String)
  /-- A section is defined twice. -/
  | duplicateSection (name : String)
  /-- A section refers to itself, along these sections. -/
  | cyclicSection (chain : List String)
  /-- A section is inserted into itself. -/
  | cyclicInsert (name : String)
  /-- Something does not fit in a chunk. -/
  | oversizedItem (what : String) (size : Nat) (chunkSize : UInt32)
  /-- A reference does not lie on a whole word of its section. -/
  | misalignedReference (name : String) (offset : UInt32)
  /-- The store refuses a request. -/
  | store (cause : StoreError)
  /-- The program cannot be packed. -/
  | pack (cause : PackError)
  /-- A file cannot be read. -/
  | unreadable (path : Path) (cause : ReadFailure)
  deriving DecidableEq, Repr

namespace BuildError.Kind

/-- The wording of each kind. -/
def message : Kind → String
  | malformedLine fault => s!"Syntax error: {fault.message}"
  | undefinedVariable name => s!"Undefined variable $({name})"
  | unknownKeyword keyword => s!"Unknown keyword '{keyword}'"
  | invalidArgument keyword fault => s!"Invalid argument for '{keyword}': {fault.message}"
  | unresolvable referent name => s!"Unresolvable reference to {referent.render} '{name}'"
  | duplicateSection name => s!"Section '{name}' is defined more than once"
  | cyclicSection chain => s!"Cyclic section reference: " ++ " -> ".intercalate chain
  | cyclicInsert name => s!"Cyclic insert of section '{name}'"
  | oversizedItem what size chunkSize => oversizedMessage what size chunkSize
  | misalignedReference name offset =>
    s!"Reference in section '{name}' at offset {offset} is not 4-byte aligned"
  | store cause => cause.message
  | pack cause => cause.message
  | unreadable path cause => s!"Cannot read '{path.text}': {cause.message}"

/-- The code of each kind. -/
def code : Kind → String
  | malformedLine _ => "E0001"
  | undefinedVariable _ => "E0002"
  | unknownKeyword _ => "E0003"
  | invalidArgument _ _ => "E0004"
  | unresolvable _ _ => "E0005"
  | duplicateSection _ => "E0006"
  | cyclicSection _ => "E0007"
  | cyclicInsert _ => "E0008"
  | oversizedItem _ _ _ => "E0009"
  | misalignedReference _ _ => "E0010"
  | store (.alignmentConflict _ _ _) => "E0011"
  | store _ => "E0012"
  | pack (.capacityExceeded _ _) => "E0013"
  | pack (.oversizedItem _ _ _) => "E0009"
  | pack _ => "E0014"
  | unreadable _ _ => "E0015"

end BuildError.Kind

/-- What stops a build. -/
structure BuildError where
  /-- What went wrong. -/
  kind : BuildError.Kind
  /-- The script line to blame, if there is one. -/
  origin : Option Origin := none
  deriving DecidableEq, Repr

/-- An error of a script line. -/
def BuildError.at (kind : BuildError.Kind) (origin : Origin) : BuildError :=
  { kind, origin := some origin }

/-- The kinds of warnings. -/
inductive Warning.Kind where
  /-- A section or a file is empty. -/
  | zeroLength (what : String)
  /-- A second definition of a section is left out. -/
  | duplicateIgnored (name : String)
  deriving DecidableEq, Repr

/-- The wording of each kind. -/
def Warning.Kind.message : Warning.Kind → String
  | zeroLength what => s!"{what} is empty"
  | duplicateIgnored name =>
    s!"duplicate section '{name}' ignored; keeping the first definition"

/-- What does not stop a build. -/
structure Warning where
  /-- What was noticed. -/
  kind : Warning.Kind
  /-- The script line to blame, if there is one. -/
  origin : Option Origin := none
  deriving DecidableEq, Repr

/-- A warning on one line. -/
def Warning.render (w : Warning) : String :=
  match w.origin with
  | some origin => s!"{origin.render}: {w.kind.message}"
  | none => w.kind.message

end LevelBundle

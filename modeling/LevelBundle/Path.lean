/-
  LevelBundle — paths.

  A path is a row of bytes whose parts are separated by `/`.  `Path.components`
  reads the parts: a leading `/` is the root, repeated and trailing separators and
  inner `.` parts say nothing, and only a leading `.` is a part of its own.  No
  other byte means anything here, so a path need not be text.  Scripts, settings
  and arguments name files by text (`Path.ofText`); messages and the store show a
  path as text (`Path.text`), and two paths that are not text may look the same.

  A `Location` is where a path leads, read off the spelling alone: absolute or not,
  how many levels up first, and the names from there on.  Two spellings of one
  location have one `Path.normalize`.
-/
import LevelBundle.Text.Utf8
import LevelBundle.Word

namespace LevelBundle

/-- A path, as it is spelled. -/
structure Path where
  /-- The spelling. -/
  bytes : Bytes
  deriving DecidableEq, Repr, Inhabited

/-- A part of a path. -/
inductive Component where
  /-- The leading separator. -/
  | root
  /-- A leading `.`. -/
  | current
  /-- A `..`. -/
  | parent
  /-- Any other part. -/
  | name (bytes : Bytes)
  deriving DecidableEq, Repr

/-- Where a path leads, by its text alone. -/
structure Location where
  /-- Whether it starts at the root. -/
  absolute : Bool := false
  /-- How many levels it goes up first. -/
  ups : Nat := 0
  /-- The names from there on. -/
  names : List Bytes := []
  deriving DecidableEq, Repr

namespace Path

/-- The path that a text spells. -/
def ofText (text : String) : Path := ⟨Utf8.encode text⟩

/-- How a path is shown. -/
def text (p : Path) : String := Utf8.lossy p.bytes

/-- The byte between parts, `/`. -/
def separator : UInt8 := 0x2F

/-- The byte `.`. -/
def dot : UInt8 := 0x2E

/-- The pieces of a spelling between separators. -/
def segments : Bytes → List Bytes
  | [] => [[]]
  | b :: bs =>
    if b = separator then [] :: segments bs
    else match segments bs with
      | [] => [[b]]
      | piece :: rest => (b :: piece) :: rest

/-- What a piece means inside a path; nothing for an empty piece or `.`. -/
def componentOf? (piece : Bytes) : Option Component :=
  if piece = [] ∨ piece = [dot] then none
  else if piece = [dot, dot] then some .parent
  else some (.name piece)

/-- Whether the path starts at the root. -/
def isAbsolute (p : Path) : Bool := p.bytes.head? == some separator

/-- The parts of a path. -/
def components (p : Path) : List Component :=
  let pieces := segments p.bytes
  let inner := pieces.filterMap componentOf?
  if p.isAbsolute then .root :: inner
  else if pieces.head? = some [dot] then .current :: inner
  else inner

/-- The pieces without those at the end that are no part; the first piece stays. -/
def trimPieces : List Bytes → List Bytes
  | [] => []
  | piece :: rest =>
    piece :: (rest.reverse.dropWhile fun p => (componentOf? p).isNone).reverse

/-- The spelling of some pieces. -/
def ofPieces (pieces : List Bytes) : Path :=
  if pieces = [[]] then ⟨[separator]⟩ else ⟨[separator].intercalate pieces⟩

/-- `b` as seen from the directory `a`; an absolute `b` stays itself. -/
def join (a b : Path) : Path :=
  if b.isAbsolute || a.bytes.isEmpty then b
  else if a.bytes.getLast? = some separator then ⟨a.bytes ++ b.bytes⟩
  else ⟨a.bytes ++ separator :: b.bytes⟩

/-- The path without its last part, spelled as it is; the root and the empty path
    have none. -/
def parent? (p : Path) : Option Path :=
  match trimPieces (segments p.bytes) with
  | [] | [[]] => none
  | [_] => some ⟨[]⟩
  | pieces => some (ofPieces (trimPieces pieces.dropLast))

/-- The directory a file lies in; empty where there is none. -/
def directory (p : Path) : Path := p.parent?.getD ⟨[]⟩

/-- The last part, if it is a name. -/
def fileName? (p : Path) : Option Bytes :=
  match p.components.getLast? with
  | some (.name bytes) => some bytes
  | _ => none

/-- A file name without its extension, which starts at the last dot.  A dot at the
    start of a name starts none. -/
def stem (name : Bytes) : Bytes :=
  match (name.reverse.dropWhile (· ≠ dot)).drop 1 with
  | [] => name
  | before => before.reverse

/-- The path with another extension. -/
def withExtension (p : Path) (extension : String) : Path :=
  match p.fileName? with
  | none => p
  | some name =>
    let pieces := trimPieces (segments p.bytes)
    ofPieces (pieces.dropLast ++ [stem name ++ dot :: Utf8.encode extension])

end Path

namespace Location

/-- Goes on by one part: up a level takes back the last name, else goes further
    up, except at the root. -/
def step (loc : Location) : Component → Location
  | .root => { absolute := true }
  | .current => loc
  | .parent =>
    if loc.names ≠ [] then { loc with names := loc.names.dropLast }
    else if loc.absolute then loc
    else { loc with ups := loc.ups + 1 }
  | .name bytes => { loc with names := loc.names ++ [bytes] }

/-- The shortest path to a location. -/
def path (loc : Location) : Path :=
  let parts := List.replicate loc.ups [Path.dot, Path.dot] ++ loc.names
  ⟨(if loc.absolute then [Path.separator] else []) ++ [Path.separator].intercalate parts⟩

end Location

namespace Path

/-- Where a path leads. -/
def location (p : Path) : Location := p.components.foldl Location.step {}

/-- The shortest spelling of where a path leads. -/
def normalize (p : Path) : Path := p.location.path

end Path

end LevelBundle

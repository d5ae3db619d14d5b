/-
  LevelBundle — the files a build may read.

  A build sees files through `Files`: which paths name a file, and what reading
  one gives.  Three kinds are provided.

  * A `FileTable` holds files in memory under their normalized paths, so every
    spelling of a location finds the same file.
  * A `FileTree` is a directory as a disk holds it: a path is walked part by
    part, and each directory on the way has to be there.
  * A `Snapshot` holds what is known of a disk so far.  Whoever asks for more
    fails with the path to look at next.
-/
import LevelBundle.Path
import LevelBundle.Text.Utf8
import LevelBundle.Word

namespace LevelBundle

/-- Why a file cannot be read. -/
inductive ReadFailure where
  /-- The table holds no file under this path. -/
  | absent (path : Path)
  /-- The disk holds no such file. -/
  | noSuchFile
  /-- The path leads through a file. -/
  | notDirectory
  /-- The path leads to a directory. -/
  | isDirectory
  /-- The path, or a name in it, is too long. -/
  | nameTooLong
  /-- The path holds a zero byte. -/
  | zeroByte
  /-- The contents are no text. -/
  | notText (fault : Utf8.Fault)
  /-- What was read as text is none. -/
  | notTextStream
  /-- Nobody has looked at the path yet. -/
  | unseen (path : Path)
  /-- Any other cause, in its own words. -/
  | other (text : String)
  deriving DecidableEq, Repr

/-- The wording of each cause. -/
def ReadFailure.message : ReadFailure → String
  | absent path => s!"{path.text} not found"
  | noSuchFile => "No such file or directory (os error 2)"
  | notDirectory => "Not a directory (os error 20)"
  | isDirectory => "Is a directory (os error 21)"
  | nameTooLong => "File name too long (os error 36)"
  | zeroByte => "file name contained an unexpected NUL byte"
  | unseen path => s!"{path.text} has not been looked at"
  | notText fault => fault.message
  | notTextStream => "stream did not contain valid UTF-8"
  | other text => text

/-- The files a build may read. -/
structure Files where
  /-- Whether a path names a file. -/
  isFile : Path → Bool
  /-- The contents of a file. -/
  read : Path → Except ReadFailure Bytes

/-- The contents of a file as text. -/
def Files.readText (files : Files) (path : Path) : Except ReadFailure String := do
  let bytes ← files.read path
  match Utf8.decode? bytes with
  | some text => return text
  | none => throw (.notText (Utf8.fault bytes))

/-! ## Files in memory -/

/-- Files in memory, under normalized paths; the latest entry counts. -/
structure FileTable where
  /-- The entries, the latest first. -/
  entries : List (Path × Bytes) := []

namespace FileTable

/-- Adds or replaces a file. -/
def insert (t : FileTable) (path : Path) (bytes : Bytes) : FileTable :=
  ⟨(path.normalize, bytes) :: t.entries⟩

/-- The contents of a file. -/
def find? (t : FileTable) (path : Path) : Option Bytes :=
  t.entries.lookup path.normalize

/-- The files of a table. -/
def files (t : FileTable) : Files where
  isFile path := (t.find? path).isSome
  read path :=
    match t.find? path with
    | some bytes => .ok bytes
    | none => .error (.absent path)

end FileTable

/-! ## Files on a disk -/

/-- The files below a directory, by the names that lead to them.  The latest
    entry counts; whatever lies on the way to a file is a directory. -/
structure FileTree where
  /-- The entries, the latest first. -/
  entries : List (List Bytes × Bytes) := []
  /-- Directories that need not hold a file. -/
  directories : List (List Bytes) := []

namespace FileTree

/-- Puts a file, with the directories on the way to it, where a path leads from the
    directory of the tree. -/
def insert (t : FileTree) (path : Path) (bytes : Bytes) : FileTree :=
  { t with entries := (path.location.names, bytes) :: t.entries }

/-- The contents of the file to which `names` lead. -/
def find? (t : FileTree) (names : List Bytes) : Option Bytes :=
  t.entries.lookup names

/-- Whether `names` lead to a directory. -/
def isDirectory (t : FileTree) (names : List Bytes) : Bool :=
  names.isEmpty || t.directories.any (names.isPrefixOf ·) ||
    t.entries.any fun e => names.isPrefixOf e.1 && names != e.1

/-- Walks the parts of a path from the directory to which `place` leads and
    returns the names that lead to its end. -/
def walk (t : FileTree) (place : List Bytes) :
    List Component → Except ReadFailure (List Bytes)
  | [] => .ok place
  | part :: rest =>
    if (t.find? place).isSome then .error .notDirectory
    else if !t.isDirectory place then .error .noSuchFile
    else match part with
      | .root => .error .noSuchFile
      | .current => t.walk place rest
      | .parent => if place.isEmpty then .error .noSuchFile else t.walk place.dropLast rest
      | .name bytes =>
        if 255 < bytes.length then .error .nameTooLong else t.walk (place ++ [bytes]) rest

/-- Whether the spelling of a path asks for a directory at its end. -/
def asksDirectory (path : Path) : Bool :=
  match path.bytes.reverse with
  | [] => false
  | last :: rest =>
    last == Path.separator || (last == Path.dot && rest.head? == some Path.separator)

/-- The names to which a path leads from the directory of the tree. -/
def resolve (t : FileTree) (path : Path) : Except ReadFailure (List Bytes) :=
  if path.bytes.contains 0 then .error .zeroByte
  else if path.bytes.isEmpty then .error .noSuchFile
  else if 4096 ≤ path.bytes.length then .error .nameTooLong
  else t.walk [] path.components

/-- Reads a file of the tree. -/
def read (t : FileTree) (path : Path) : Except ReadFailure Bytes := do
  let names ← t.resolve path
  match t.find? names with
  | some bytes => if asksDirectory path then throw .notDirectory else return bytes
  | none => if t.isDirectory names then throw .isDirectory else throw .noSuchFile

/-- Writes a file of the tree, which need not be there; its directory has to be. -/
def write (t : FileTree) (path : Path) (bytes : Bytes) : Except ReadFailure FileTree := do
  let names ← t.resolve path
  if t.isDirectory names then throw .isDirectory
  if asksDirectory path then
    if (t.find? names).isSome then throw .notDirectory
    if path.bytes.getLast? = some Path.separator then throw .isDirectory
    throw .noSuchFile
  return { t with entries := (names, bytes) :: t.entries }

/-- The files of a tree. -/
def files (t : FileTree) : Files where
  isFile path := (t.read path).toOption.isSome
  read path := t.read path

end FileTree

/-! ## Files looked at one by one -/

/-- What reading each of some paths has given.  Any other path is taken for a file,
    and reading it says that nobody has looked at it. -/
structure Snapshot where
  /-- The paths that were looked at. -/
  seen : List (Path × Except ReadFailure Bytes) := []

namespace Snapshot

/-- Keeps what reading a path has given. -/
def learn (s : Snapshot) (path : Path) (answer : Except ReadFailure Bytes) : Snapshot :=
  ⟨(path, answer) :: s.seen⟩

/-- The files of a snapshot. -/
def files (s : Snapshot) : Files where
  isFile path :=
    match s.seen.lookup path with
    | some answer => answer.toOption.isSome
    | none => true
  read path := (s.seen.lookup path).getD (.error (.unseen path))

end Snapshot

end LevelBundle

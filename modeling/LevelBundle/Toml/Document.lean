/-
  LevelBundle — reading a settings file.

  A file is a row of lines: entries `key = value`, headers `[key]` of tables and
  `[[key]]` of the elements of a row of tables.  Entries belong to the table of
  the last header, or to the file itself before the first one.
-/
import LevelBundle.Toml.Syntax

namespace LevelBundle.Toml

open Reading

/-- A line of a settings file. -/
inductive Line where
  /-- A line without an entry. -/
  | blank
  /-- An entry. -/
  | entry (key : List String) (value : Value)
  /-- The header of a table. -/
  | header (key : List String)
  /-- The header of an element of a row of tables. -/
  | element (key : List String)
  deriving Repr

/-- Takes a line. -/
def line : Reading Line := do
  blanks
  let cs ← rest
  if cs.isEmpty || cs.head? = some '#' || cs.head? = some '\n' || cs.head? = some '\r' then
    lineEnd
    return .blank
  else if ← startsWith "[[" then
    exactly "[["
    let path ← key
    exactly "]]"
    lineEnd
    return .element path
  else if ← startsWith "[" then
    exactly "["
    let path ← key
    exactly "]"
    lineEnd
    return .header path
  else
    let path ← key
    exactly "="
    blanks
    let v ← value maxDepth (cs.length + 1)
    lineEnd
    return .entry path v

/-- Takes all lines. -/
def lines : Nat → Reading (List Line)
  | 0 => failure
  | fuel + 1 => do
    if (← rest).isEmpty then return []
    else
      let l ← line
      return l :: (← lines fuel)

/-- The entries of the file, and the key of the last header. -/
structure Document where
  /-- The entries. -/
  root : Table := []
  /-- The key of the last header; empty before the first. -/
  place : List String := []
  deriving Repr

namespace Document

/-- Takes in a line; `none` if it gives something twice. -/
def step (d : Document) : Line → Option Document
  | .blank => some d
  | .entry path v =>
    match d.place.getLast? with
    | none => (Table.put false .header d.root path v).map fun root => { d with root }
    | some last =>
      (Table.update (Table.putUnder last path v) d.root d.place.dropLast).map
        fun root => { d with root }
  | .header path => do
    let last ← path.getLast?
    let root ← Table.update (Table.openTable last) d.root path.dropLast
    return { root, place := path }
  | .element path => do
    let last ← path.getLast?
    let root ← Table.update (Table.openElement last) d.root path.dropLast
    return { root, place := path }

end Document

/-- The entries of a settings file; `none` if it is malformed.  A byte order mark
    at its start does not count. -/
def ofText? (content : String) : Option Table := do
  let cs := content.toList
  let cs := if cs.head? = some '\ufeff' then cs.drop 1 else cs
  let (ls, _) ← (lines (cs.length + 2)).run cs
  let d ← ls.foldlM Document.step {}
  return d.root

end LevelBundle.Toml

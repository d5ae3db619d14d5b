/-
  LevelBundle — the values of a settings file.

  Settings files are written in TOML.  The values are texts, integers, other
  numbers, truth values, moments, arrays and tables.

  How a table came about decides what may still be added to it:

  * a table of a header can be given once, and its entries once each;
  * a table that only lies on the way to a header can still get one of its own;
  * a table made by a dotted key is open to further dotted keys;
  * a table in braces is closed, like any value.

  `Table.put` adds an entry by a dotted key and `Table.enter` opens a table for a
  header; both refuse what is given twice.
-/
import LevelBundle.Numeral.Binary
import LevelBundle.Toml.Moment

namespace LevelBundle.Toml

/-- How a table came about. -/
inductive Form where
  /-- By its own header. -/
  | header
  /-- On the way to the header of an inner table. -/
  | implied
  /-- By a dotted key. -/
  | dotted
  deriving DecidableEq, Repr

/-- A value, or a table that may still grow. -/
inductive Value where
  /-- A text. -/
  | text (s : String)
  /-- An integer. -/
  | integer (n : Int)
  /-- A number with a fraction or an exponent, infinity, or what is no number. -/
  | number (x : Binary64)
  /-- A truth value. -/
  | boolean (b : Bool)
  /-- A date, a time, or both. -/
  | moment (m : Moment)
  /-- A row of values. -/
  | array (items : List Value)
  /-- A table in braces. -/
  | record (entries : List (String × Value))
  /-- A table that may still grow. -/
  | table (form : Form) (entries : List (String × Value))
  /-- A row of tables, each with a header of its own. -/
  | tables (elements : List (List (String × Value)))
  deriving Repr, Inhabited

/-- The entries of a table, in order. -/
abbrev Table := List (String × Value)

namespace Table

/-- Replaces the value of a key, or adds it at the end. -/
def set (t : Table) (key : String) (value : Value) : Table :=
  match t with
  | [] => [(key, value)]
  | (k, v) :: rest => if k = key then (k, value) :: rest else (k, v) :: set rest key value

/-- Adds an entry by a dotted key.  `nested` tells whether the table was reached
    through dots and `form` how it came about. -/
def put (nested : Bool) (form : Form) (t : Table) : List String → Value → Option Table
  | [], _ => none
  | [key], value =>
    if (form = .dotted) != nested || (t.lookup key).isSome then none
    else some (t.set key value)
  | key :: path, value =>
    match t.lookup key with
    | none => do
      let inner ← put true .dotted [] path value
      return t.set key (.table .dotted inner)
    | some (.table .header _) => none
    | some (.table form entries) => do
      let inner ← put true form entries path value
      return t.set key (.table form inner)
    | some (.tables elements) => do
      let last ← elements.getLast?
      let inner ← put true .header last path value
      return t.set key (.tables (elements.dropLast ++ [inner]))
    | some _ => none

/-- Changes the table to which a path leads; tables that are missing on the way
    are implied. -/
def update (change : Table → Option Table) (t : Table) : List String → Option Table
  | [] => change t
  | key :: path =>
    match t.lookup key with
    | none => do
      let inner ← update change [] path
      return t.set key (.table .implied inner)
    | some (.table form entries) => do
      let inner ← update change entries path
      return t.set key (.table form inner)
    | some (.tables elements) => do
      let last ← elements.getLast?
      let inner ← update change last path
      return t.set key (.tables (elements.dropLast ++ [inner]))
    | some _ => none

/-- Opens the table `key` for its header. -/
def openTable (key : String) (t : Table) : Option Table :=
  match t.lookup key with
  | none => some (t.set key (.table .header []))
  | some (.table .implied entries) => some (t.set key (.table .header entries))
  | some _ => none

/-- Adds an element to the row of tables `key`. -/
def openElement (key : String) (t : Table) : Option Table :=
  match t.lookup key with
  | none => some (t.set key (.tables [[]]))
  | some (.tables elements) => some (t.set key (.tables (elements ++ [[]])))
  | some _ => none

/-- Adds an entry by a dotted key to the table `key`, which its header opened. -/
def putUnder (key : String) (path : List String) (value : Value) (t : Table) : Option Table :=
  match t.lookup key with
  | some (.table form entries) => do
    let inner ← put false form entries path value
    return t.set key (.table form inner)
  | some (.tables elements) => do
    let last ← elements.getLast?
    let inner ← put false .header last path value
    return t.set key (.tables (elements.dropLast ++ [inner]))
  | _ => none

end Table

end LevelBundle.Toml

/-
  LevelBundle — JSON text.

  A value is written over several lines, its parts two columns further in.  Each
  function gives the lines of a value from those of its parts.
-/

namespace LevelBundle.Text.Json

/-- The lines of a number. -/
def number (n : Nat) : List String := [toString n]

/-- The lines of a truth value. -/
def boolean (b : Bool) : List String := [if b then "true" else "false"]

/-- The lines of an absent value. -/
def null : List String := ["null"]

/-- Puts a comma at the end of the last line. -/
def withComma : List String → List String
  | [] => []
  | [line] => [line ++ ","]
  | line :: rest => line :: withComma rest

/-- The lines of some values, with a comma after all but the last. -/
def separated : List (List String) → List String
  | [] => []
  | [value] => value
  | value :: rest => withComma value ++ separated rest

/-- Lines between two brackets. -/
def enclosed (opening closing : String) : List String → List String
  | [] => [opening ++ closing]
  | lines => opening :: lines.map ("  " ++ ·) ++ [closing]

/-- The lines of a row of values. -/
def array (values : List (List String)) : List String := enclosed "[" "]" (separated values)

/-- The lines of a value under a name. -/
def named (name : String) : List String → List String
  | [] => []
  | line :: rest => ("\"" ++ name ++ "\": " ++ line) :: rest

/-- The lines of values under names. -/
def record (fields : List (String × List String)) : List String :=
  enclosed "\x7b" "\x7d" (separated (fields.map fun field => named field.1 field.2))

end LevelBundle.Text.Json

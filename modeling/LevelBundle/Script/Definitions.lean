/-
  LevelBundle — definitions and the expansion of references to them.

  A line may refer to a definition by `$(NAME)`.  `Definitions.expand` goes once
  from left to right: a reference is replaced by its value, blanks around the
  name do not count, and a value put in is not looked at again.
-/
import LevelBundle.BuildError

namespace LevelBundle

/-- Names with their values; the first entry of a name counts. -/
structure Definitions where
  /-- The entries. -/
  entries : List (String × String) := []
  deriving DecidableEq, Repr

namespace Definitions

/-- The value of a name. -/
def find? (d : Definitions) (name : String) : Option String := d.entries.lookup name

/-- Adds or replaces a definition. -/
def insert (d : Definitions) (name value : String) : Definitions :=
  ⟨(name, value) :: d.entries.filter fun entry => entry.1 != name⟩

/-- The names, in the order of their code points. -/
def sortedNames (d : Definitions) : List String :=
  (d.entries.map Prod.fst).mergeSort fun a b => !(b < a)

/-- The value that a reference with this text stands for. -/
def value (d : Definitions) (text : List Char) : Except BuildError.Kind (List Char) :=
  let name := String.ofList (Text.trimChars text)
  match d.find? name with
  | some value => .ok value.toList
  | none => .error (.undefinedVariable name)

/-- Expands a line.  `reference` holds the text of the reference that the line
    is inside of, if any. -/
def expandFrom (d : Definitions) :
    Option (List Char) → List Char → Except BuildError.Kind (List Char)
  | none, [] => .ok []
  | some _, [] => .error (.malformedLine .unterminatedReference)
  | none, '$' :: '(' :: rest => expandFrom d (some []) rest
  | none, c :: rest => do
    let tail ← expandFrom d none rest
    return c :: tail
  | some name, c :: rest =>
    if c = ')' then do
      let value ← d.value name
      let tail ← expandFrom d none rest
      return value ++ tail
    else expandFrom d (some (name ++ [c])) rest

/-- Expands the references of a line. -/
def expand (d : Definitions) (line : List Char) : Except BuildError.Kind (List Char) :=
  d.expandFrom none line

/-- Whether a line holds the start of a reference. -/
def hasReference : List Char → Bool
  | '$' :: '(' :: _ => true
  | _ :: rest => hasReference rest
  | [] => false

end Definitions

end LevelBundle

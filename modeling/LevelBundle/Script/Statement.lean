/-
  LevelBundle — what a script line says.

  A line is empty, the header of a section, or a keyword with arguments:

      [name]    [name align=16]    keyword argument, argument …

  `Statement.ofTokens` reads the tokens of a line as a statement.  A keyword line
  is read only inside a section.
-/
import LevelBundle.BuildError
import LevelBundle.Numeral.Shortest
import LevelBundle.Text.Quoted

namespace LevelBundle

/-- An argument of a keyword. -/
inductive Argument where
  /-- An integer. -/
  | int (value : Int)
  /-- A number with a fraction. -/
  | float (value : Binary64)
  /-- A quoted text. -/
  | str (text : String)
  /-- A bare word. -/
  | word (text : String)
  deriving DecidableEq, Repr

namespace Argument

/-- The value of an integer. -/
def int? : Argument → Option Int
  | int value => some value
  | _ => none

/-- The value of a number; an integer counts as the nearest number. -/
def number? : Argument → Option Binary64
  | int value => some (.ofInt value)
  | float value => some value
  | _ => none

/-- The text of a quoted text or a word. -/
def text? : Argument → Option String
  | str text | word text => some text
  | _ => none

/-- An argument in messages. -/
def describe : Argument → String
  | int _ => "an integer"
  | float _ => "a float"
  | str _ => "a string"
  | word _ => "a word"

/-- An argument as it could be written. -/
def render : Argument → String
  | int value => toString value
  | float value => value.render
  | str text => Text.quoted text
  | word text => text

/-- The argument a token stands for. -/
def ofToken? : Token → Option Argument
  | .int value => some (.int value)
  | .float value => some (.float value)
  | .str text => some (.str text)
  | .word text => some (.word text)
  | _ => none

/-- Reads arguments; commas between them do not count. -/
def ofTokens : List Token → Except BuildError.Kind (List Argument)
  | [] => .ok []
  | .comma :: rest => ofTokens rest
  | token :: rest =>
    match ofToken? token with
    | none => .error (.malformedLine (.badArgument token))
    | some argument => do
      let arguments ← ofTokens rest
      return argument :: arguments

end Argument

/-- What a script line says. -/
inductive Statement where
  /-- Nothing. -/
  | empty
  /-- A section starts. -/
  | header (name : String) (alignment : Option UInt32)
  /-- The section goes on. -/
  | line (keyword : String) (arguments : List Argument)
  deriving DecidableEq, Repr

namespace Statement

/-- The alignment that a number in a header asks for. -/
def alignmentOf? (value : Int) : Option UInt32 :=
  if 0 ≤ value ∧ value < 4294967296 ∧ Alignment.valid value.toNat.toUInt32 then
    some value.toNat.toUInt32
  else none

/-- Reads a header after its name; the last of several alignments counts. -/
def headerEnd (alignment : Option UInt32) :
    List Token → Except BuildError.Kind (Option UInt32)
  | [.rightBracket] => .ok alignment
  | .rightBracket :: _ => .error (.malformedLine .afterHeader)
  | .word key :: rest =>
    if key.toLower = "align" then
      match rest with
      | .equals :: .int value :: rest =>
        match alignmentOf? value with
        | some n => headerEnd (some n) rest
        | none => .error (.invalidArgument "align" (.notAnAlignment value))
      | _ => .error (.malformedLine .missingAlignment)
    else .error (.malformedLine .missingBracket)
  | _ => .error (.malformedLine .missingBracket)

/-- Reads a header after its bracket. -/
def ofHeader : List Token → Except BuildError.Kind Statement
  | .word name :: rest | .str name :: rest => do
    let alignment ← headerEnd none rest
    return header name alignment
  | _ => .error (.malformedLine .missingName)

/-- Reads the tokens of a line, inside a section or before the first one. -/
def ofTokens (inside : Bool) : List Token → Except BuildError.Kind Statement
  | [] => .ok empty
  | .leftBracket :: rest => ofHeader rest
  | .word keyword :: rest =>
    if inside then do
      let arguments ← Argument.ofTokens rest
      return line keyword.toLower arguments
    else .error (.malformedLine (.beforeFirstHeader keyword))
  | token :: _ => .error (.malformedLine (.badStart token))

end Statement

end LevelBundle

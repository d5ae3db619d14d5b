/-
  LevelBundle — the arguments of keyword lines.

  Each function reads arguments of a line or says, at the line, what is wrong
  with them.
-/
import LevelBundle.Script.Keyword
import LevelBundle.Script.SectionTable

namespace LevelBundle.ScriptLine

/-- An error in the arguments of a line. -/
def invalid (line : ScriptLine) (fault : ArgumentFault) : BuildError :=
  .at (.invalidArgument line.keyword fault) line.origin

/-- Checks the number of arguments. -/
def expectArguments (line : ScriptLine) (least : Nat) (most : Option Nat) :
    Except BuildError Unit :=
  let count := line.arguments.length
  if count < least then .error (line.invalid (.tooFew least count))
  else match most with
  | some most =>
    if most < count then .error (line.invalid (.tooMany most count)) else .ok ()
  | none => .ok ()

/-- The error of an argument of the wrong kind. -/
def wrongType (line : ScriptLine) (index : Nat) (expected : String) : BuildError :=
  let found := (line.arguments[index]?.map Argument.describe).getD "nothing"
  line.invalid (.wrongType (index + 1) expected found)

/-- The text of an argument. -/
def textAt (line : ScriptLine) (index : Nat) : Except BuildError String :=
  match line.arguments[index]?.bind Argument.text? with
  | some text => .ok text
  | none => .error (line.wrongType index "a name or string")

/-- The value of an integer argument, which has to lie in a range. -/
def intAt (line : ScriptLine) (index : Nat) (low high : Int) : Except BuildError Int :=
  match line.arguments[index]?.bind Argument.int? with
  | none => .error (line.wrongType index "an integer")
  | some value =>
    if value < low ∨ high < value then .error (line.invalid (.outOfRange value low high))
    else .ok value

/-- The text of all arguments, one after the other. -/
def allText (line : ScriptLine) : Except BuildError String := do
  line.expectArguments 1 none
  let texts ← (List.range line.arguments.length).mapM line.textAt
  return String.join texts

/-- The bytes of an integer of a width. -/
def integerBytes (order : ByteOrder) (width : UInt32) (value : Int) : Bytes :=
  let word := UInt32.ofInt value
  if width = 1 then [word.toUInt8]
  else if width = 2 then order.halfBytes word.toUInt16
  else order.wordBytes word

/-- The bytes of one number of a line. -/
def numberBytes (line : ScriptLine) (keyword : Keyword) (order : ByteOrder) (index : Nat) :
    Except BuildError Bytes :=
  match keyword.intRange? with
  | some (low, high) => do
    let value ← line.intAt index low high
    return integerBytes order (keyword.elementWidth?.getD 4) value
  | none =>
    match line.arguments[index]?.bind Argument.number? with
    | some value => .ok (order.wordBytes value.toSingle)
    | none => .error (line.wrongType index "a number")

/-- The bytes of all numbers of a line. -/
def allNumbers (line : ScriptLine) (keyword : Keyword) (order : ByteOrder) :
    Except BuildError Bytes := do
  line.expectArguments 1 none
  let numbers ← (List.range line.arguments.length).mapM (line.numberBytes keyword order)
  return numbers.flatten

end LevelBundle.ScriptLine

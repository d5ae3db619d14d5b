/-
  LevelBundle — the words of a command line.

  An argument that starts with `-` holds options: a long one after `--`, or short
  ones, a letter each, after `-`.  The value of an option stands in the same
  argument, for a long option after `=`, or is the next argument.  All other
  arguments are operands, and so is everything after `--`.

  * `CommandWord.scan` reads arguments from left to right.
-/

namespace LevelBundle

/-- What an argument says. -/
inductive CommandWord where
  /-- An option by its name with the dashes, and the value in the same argument. -/
  | option (name : String) (value : Option String)
  /-- An option and its value in the next argument. -/
  | apart (name value : String)
  /-- An option that no value follows though it takes one. -/
  | wanting (name : String)
  /-- An operand. -/
  | operand (text : String)
  /-- An operand after `--`. -/
  | plain (text : String)
  deriving DecidableEq, Repr

namespace CommandWord

/-- Whether an argument holds options; a lone `-` does not. -/
def isOption (arg : String) : Bool := arg.startsWith "-" && arg != "-"

/-- The words in an argument of short options, and the option that takes the next
    argument for its value. -/
def ofLetters (takesValue : String → Bool) : List Char → List CommandWord × Option String
  | [] => ([], none)
  | c :: cs =>
    let name := String.ofList ['-', c]
    if takesValue name then
      match cs with
      | [] => ([], some name)
      | '=' :: value => ([option name (some (String.ofList value))], none)
      | value => ([option name (some (String.ofList value))], none)
    else
      let (words, pending) := ofLetters takesValue cs
      (option name none :: words, pending)

/-- The words in an argument of one long option, and the option that takes the next
    argument for its value. -/
def ofLong (takesValue : String → Bool) (arg : List Char) : List CommandWord × Option String :=
  let name := String.ofList (arg.takeWhile (· ≠ '='))
  match arg.dropWhile (· ≠ '=') with
  | _ :: value => ([option name (some (String.ofList value))], none)
  | [] => if takesValue name then ([], some name) else ([option name none], none)

/-- The words in an argument that holds options. -/
def ofOption (takesValue : String → Bool) (arg : String) : List CommandWord × Option String :=
  match arg.toList with
  | '-' :: '-' :: _ => ofLong takesValue arg.toList
  | letters => ofLetters takesValue (letters.drop 1)

/-- The words of some arguments, each with the arguments after it.  An option that
    waits for its value may be pending. -/
def scan (takesValue : String → Bool) :
    Option String → List String → List (CommandWord × List String)
  | none, [] => []
  | some name, [] => [(wanting name, [])]
  | some name, arg :: rest =>
    (if isOption arg then wanting name else apart name arg, rest)
      :: scan takesValue none rest
  | none, arg :: rest =>
    if arg = "--" then rest.map fun text => (plain text, [])
    else if isOption arg then
      let (words, pending) := ofOption takesValue arg
      words.map (·, rest) ++ scan takesValue pending rest
    else (operand arg, rest) :: scan takesValue none rest

end CommandWord

end LevelBundle

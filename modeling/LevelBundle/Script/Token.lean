/-
  LevelBundle — the tokens of a script line.
-/
import LevelBundle.Numeral.Binary

namespace LevelBundle

/-- A token of a script line. -/
inductive Token where
  /-- `[` -/
  | leftBracket
  /-- `]` -/
  | rightBracket
  /-- `,`, which may separate arguments. -/
  | comma
  /-- `=` -/
  | equals
  /-- A number with a fraction. -/
  | float (value : Binary64)
  /-- An integer of 64 bits, decimal or hexadecimal. -/
  | int (value : Int)
  /-- A text in double quotes. -/
  | str (text : String)
  /-- A bare word: a keyword, a name or a path. -/
  | word (text : String)
  deriving DecidableEq, Repr

/-- A token in messages. -/
def Token.describe : Token → String
  | leftBracket => "'['"
  | rightBracket => "']'"
  | comma => "','"
  | equals => "'='"
  | float _ => "a float"
  | int _ => "an integer"
  | str _ => "a string"
  | word _ => "a word"

/-- A token and the bytes of its line that it was read from. -/
structure Lexeme where
  /-- The token. -/
  token : Token
  /-- The offset of its first byte. -/
  start : Nat
  /-- The offset after its last byte. -/
  stop : Nat
  deriving DecidableEq, Repr

/-- Input that is no token. -/
structure LexError where
  /-- The text at fault. -/
  text : String
  /-- The offset of its first byte. -/
  start : Nat
  /-- The offset after its last byte. -/
  stop : Nat
  deriving DecidableEq, Repr

namespace LexError

/-- The column of the text at fault: bytes from one on. -/
def column (e : LexError) : Nat := e.start + 1

/-- The wording of the fault. -/
def message (e : LexError) : String :=
  s!"unexpected input '{e.text}' at column {e.column}"

end LexError

end LevelBundle

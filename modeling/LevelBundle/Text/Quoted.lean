/-
  LevelBundle — quoted text.

  A text in double quotes, with a backslash before what would end or escape it
  and a code for what cannot be shown.
-/
import LevelBundle.Text.Hex
import LevelBundle.Text.Hidden

namespace LevelBundle.Text

/-- A character inside double quotes. -/
def quotedChar (c : Char) : String :=
  match c with
  | '"' => "\\\""
  | '\\' => "\\\\"
  | '\n' => "\\n"
  | '\r' => "\\r"
  | '\t' => "\\t"
  | '\x00' => "\\0"
  | c => if isShown c then String.ofList [c] else "\\u\x7b" ++ hexDigits c.toNat ++ "\x7d"

/-- A text in double quotes. -/
def quoted (text : String) : String :=
  "\"" ++ String.join (text.toList.map quotedChar) ++ "\""

end LevelBundle.Text

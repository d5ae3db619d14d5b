/-
  LevelBundle — reading the tokens of a line.

  At each place the longest token counts.  Blanks separate tokens, and a `#` or
  `;` outside a text starts a comment that runs to the end of the line.

      number   -? digits  |  -? 0x hexdigits  |  -? digits . digits (e [+-]? digits)?
      text     "…" with \n \t \r \0 \\ \" and \xHH
      word     a letter or one of _ . / \, then also digits and -

  An integer has to fit 64 bits and a text has to spell its escapes right; else
  the whole token is at fault.  `scan` reads what comes first on a line, as the
  number of characters it takes; `tokenize` goes through a line with it.
-/
import LevelBundle.Script.Source
import LevelBundle.Script.Token

namespace LevelBundle.Lexer

/-! ## Character classes -/

/-- Blanks between tokens. -/
def isBlank (c : Char) : Bool := c = ' ' || c = '\t' || c = '\r' || c = '\x0c'

/-- The characters that start a comment. -/
def startsComment (c : Char) : Bool := c = '#' || c = ';'

/-- Decimal digits. -/
def isDigit (c : Char) : Bool := '0' ≤ c && c ≤ '9'

/-- Hexadecimal digits. -/
def isHexDigit (c : Char) : Bool :=
  isDigit c || ('a' ≤ c && c ≤ 'f') || ('A' ≤ c && c ≤ 'F')

/-- The characters that start a word. -/
def startsWord (c : Char) : Bool :=
  ('A' ≤ c && c ≤ 'Z') || ('a' ≤ c && c ≤ 'z') || c = '_' || c = '.' || c = '/' || c = '\\'

/-- The characters that go on with a word. -/
def isWordChar (c : Char) : Bool := startsWord c || isDigit c || c = '-'

/-! ## Numbers -/

/-- The value of a digit in base sixteen. -/
def digitValue (c : Char) : Nat :=
  if isDigit c then c.toNat - '0'.toNat
  else if 'a' ≤ c then c.toNat - 'a'.toNat + 10
  else c.toNat - 'A'.toNat + 10

/-- The number that digits spell in a base. -/
def spelled (base : Nat) (digits : List Char) : Nat :=
  digits.foldl (fun n c => base * n + digitValue c) 0

/-- The token of an integer, if it fits 64 bits. -/
def intToken? (negative : Bool) (magnitude : Nat) (limit : Nat) : Option Token :=
  if magnitude ≤ limit then some (.int (if negative then -magnitude else magnitude)) else none

/-- What a scan found: a token or a fault, and the number of characters. -/
abbrev Found := Option Token × Nat

/-- The exponent after `e`, and the number of characters it takes with the `e`;
    none without digits. -/
def scanExponent : List Char → Int × Nat
  | e :: rest =>
    let (sign, signLength, body) : Int × Nat × List Char :=
      match rest with
      | '-' :: body => (-1, 1, body)
      | '+' :: body => (1, 1, body)
      | body => (1, 0, body)
    let digits := body.takeWhile isDigit
    if (e = 'e' || e = 'E') && !digits.isEmpty then
      (sign * spelled 10 digits, 1 + signLength + digits.length)
    else (0, 0)
  | [] => (0, 0)

/-- Reads a decimal integer or a number with a fraction, after the sign; none
    without a digit. -/
def scanDecimal (negative : Bool) (body : List Char) : Option Found :=
  let whole := body.takeWhile isDigit
  if whole.isEmpty then none
  else
    let integer : Found :=
      (intToken? negative (spelled 10 whole) (if negative then Nat.pow 2 63 else Nat.pow 2 63 - 1),
        whole.length)
    match body.dropWhile isDigit with
    | '.' :: rest =>
      let places := rest.takeWhile isDigit
      if places.isEmpty then some integer
      else
        let (exponent, length) := scanExponent (rest.dropWhile isDigit)
        let value := Binary64.ofDecimal negative (spelled 10 (whole ++ places))
          (exponent - places.length)
        some (some (.float value), whole.length + 1 + places.length + length)
    | _ => some integer

/-- Reads a number after its sign. -/
def scanMagnitude (negative : Bool) (body : List Char) : Option Found :=
  match body with
  | '0' :: x :: rest =>
    let digits := rest.takeWhile isHexDigit
    if (x = 'x' || x = 'X') && !digits.isEmpty then
      some (intToken? negative (spelled 16 digits) (Nat.pow 2 63 - 1), 2 + digits.length)
    else scanDecimal negative body
  | _ => scanDecimal negative body

/-- Reads a number. -/
def scanNumber : List Char → Option Found
  | '-' :: body => (scanMagnitude true body).map fun found => (found.1, found.2 + 1)
  | body => scanMagnitude false body

/-! ## Texts -/

/-- The number of characters of a text after its opening quote, without the
    closing one, and whether there is a closing one. -/
def scanText : List Char → Nat × Bool
  | [] => (0, false)
  | ['\\'] => (0, false)
  | '\\' :: c :: rest =>
    if c = '\n' then (0, false)
    else
      let (n, closed) := scanText rest
      (n + 2, closed)
  | c :: rest =>
    if c = '"' then (0, true)
    else if c = '\n' then (0, false)
    else
      let (n, closed) := scanText rest
      (n + 1, closed)

/-- Reads the escapes of a text. -/
def unescape : List Char → Option (List Char)
  | [] => some []
  | '\\' :: 'n' :: rest => (unescape rest).map ('\n' :: ·)
  | '\\' :: 't' :: rest => (unescape rest).map ('\t' :: ·)
  | '\\' :: 'r' :: rest => (unescape rest).map ('\r' :: ·)
  | '\\' :: '0' :: rest => (unescape rest).map ('\x00' :: ·)
  | '\\' :: '\\' :: rest => (unescape rest).map ('\\' :: ·)
  | '\\' :: '"' :: rest => (unescape rest).map ('"' :: ·)
  | '\\' :: 'x' :: hi :: lo :: rest =>
    if '0' ≤ hi && hi ≤ '7' && isHexDigit lo then
      (unescape rest).map (Char.ofNat (16 * digitValue hi + digitValue lo) :: ·)
    else none
  | '\\' :: _ => none
  | c :: rest => (unescape rest).map (c :: ·)

/-! ## Lines -/

/-- What comes first on a line, with the number of characters it takes. -/
inductive Piece where
  /-- A blank or a comment. -/
  | skip (length : Nat)
  /-- A token. -/
  | token (token : Token) (length : Nat)
  /-- Input that is no token. -/
  | fault (length : Nat)
  deriving DecidableEq, Repr

/-- Reads what comes first on a line that starts with `c` and goes on with
    `rest`. -/
def scan (c : Char) (rest : List Char) : Piece :=
  if isBlank c then .skip 1
  else if startsComment c then .skip (1 + (rest.takeWhile (· ≠ '\n')).length)
  else if c = '[' then .token .leftBracket 1
  else if c = ']' then .token .rightBracket 1
  else if c = ',' then .token .comma 1
  else if c = '=' then .token .equals 1
  else if startsWord c then
    let tail := rest.takeWhile isWordChar
    .token (.word (String.ofList (c :: tail))) (1 + tail.length)
  else if c = '"' then
    match scanText rest with
    | (n, false) => .fault (n + 1)
    | (n, true) =>
      match unescape (rest.take n) with
      | some text => .token (.str (String.ofList text)) (n + 2)
      | none => .fault (n + 2)
  else
    match scanNumber (c :: rest) with
    | some (some token, n) => .token token n
    | some (none, n) => .fault n
    | none => .fault 1

/-- Reads the tokens of a line; `start` is the offset of its first byte. -/
def tokenizeFrom (start : Nat) : List Char → Except LexError (List Lexeme)
  | [] => .ok []
  | c :: rest =>
    let after (length : Nat) := start + byteLength ((c :: rest).take length)
    match scan c rest with
    | .skip n => tokenizeFrom (after n) (rest.drop (n - 1))
    | .token token n => do
      let lexemes ← tokenizeFrom (after n) (rest.drop (n - 1))
      return ⟨token, start, after n⟩ :: lexemes
    | .fault n => .error ⟨String.ofList ((c :: rest).take n), start, after n⟩
termination_by cs => cs.length
decreasing_by all_goals simp only [List.length_drop, List.length_cons]; omega

/-- Reads the tokens of a line. -/
def tokenize (line : String) : Except LexError (List Lexeme) :=
  tokenizeFrom 0 line.toList

end LevelBundle.Lexer

/-
  LevelBundle — reading the keys and values of a settings file.

  A reader takes characters from the front of the input or fails.  Arrays and
  tables in braces can only be nested so deep, and keys only have so many parts.
-/
import LevelBundle.Toml.Value

namespace LevelBundle.Toml

/-- Takes characters from the front of the input, or fails. -/
abbrev Reading := StateT (List Char) Option

namespace Reading

/-- The input that is left. -/
def rest : Reading (List Char) := get

/-- Takes one character. -/
def next : Reading Char := fun
  | c :: cs => some (c, cs)
  | [] => none

/-- Takes these characters. -/
def exactly (text : String) : Reading Unit := fun cs =>
  if text.toList.isPrefixOf cs then some ((), cs.drop text.length) else none

/-- Whether the input starts with these characters. -/
def startsWith (text : String) : Reading Bool := do
  return text.toList.isPrefixOf (← rest)

/-- Takes the characters that `p` admits. -/
def takeWhile (p : Char → Bool) : Reading (List Char) := fun cs =>
  some (cs.takeWhile p, cs.dropWhile p)

/-- Takes blanks. -/
def blanks : Reading Unit := do
  let _ ← takeWhile fun c => c = ' ' || c = '\t'

end Reading

open Reading

/-- Characters that may not stand in a comment or a text. -/
def isControl (c : Char) : Bool := (c.toNat < 0x20 && c != '\t') || c.toNat = 0x7F

/-- Takes a comment, if there is one. -/
def comment : Reading Unit := do
  if ← startsWith "#" then
    let _ ← takeWhile fun c => !isControl c

/-- Takes a line ending. -/
def newline : Reading Unit := do
  if ← startsWith "\r\n" then exactly "\r\n" else exactly "\n"

/-- Takes blanks, a comment, and the end of the line or of the input. -/
def lineEnd : Reading Unit := do
  blanks
  comment
  unless (← rest).isEmpty do newline

/-- What is left after blanks, comments and line endings; a comment may be open. -/
def afterGap (inComment : Bool) : List Char → List Char
  | [] => []
  | c :: cs =>
    if c = '\n' then afterGap false cs
    else if c = '\r' ∧ cs.head? = some '\n' then afterGap false cs
    else if inComment then if isControl c then c :: cs else afterGap true cs
    else if c = ' ' ∨ c = '\t' then afterGap false cs
    else if c = '#' then afterGap true cs
    else c :: cs

/-- Takes blanks, comments and line endings between the items of an array. -/
def gap : Reading Unit := modify (afterGap false)

/-! ## Texts -/

/-- The value of a digit of a base up to sixteen. -/
def digitOf? (base : Nat) (c : Char) : Option Nat :=
  let n :=
    if '0' ≤ c ∧ c ≤ '9' then c.toNat - '0'.toNat
    else if 'a' ≤ c ∧ c ≤ 'f' then c.toNat - 'a'.toNat + 10
    else if 'A' ≤ c ∧ c ≤ 'F' then c.toNat - 'A'.toNat + 10
    else base
  if n < base then some n else none

/-- Takes a number of so many digits. -/
def digits (base count : Nat) : Reading Nat := do
  let cs := (← rest).take count
  let values := cs.filterMap (digitOf? base)
  if values.length = count then
    exactly (String.ofList cs)
    return values.foldl (base * · + ·) 0
  else failure

/-- The character with a code of `count` hexadecimal digits. -/
def charCode (count : Nat) : Reading Char := do
  let code ← digits 16 count
  if code < 0xD800 ∨ (0xE000 ≤ code ∧ code < 0x110000) then return Char.ofNat code
  else failure

/-- Takes what follows a backslash in a text. -/
def escape : Reading Char := do
  match ← next with
  | 'b' => return '\x08'
  | 't' => return '\t'
  | 'n' => return '\n'
  | 'f' => return '\x0c'
  | 'r' => return '\r'
  | '"' => return '"'
  | '\\' => return '\\'
  | 'u' => charCode 4
  | 'U' => charCode 8
  | _ => failure

/-- Takes a text of one line after its opening quote. -/
def basicText : Nat → Reading (List Char)
  | 0 => failure
  | fuel + 1 => do
    let c ← next
    if c = '"' then return []
    else if isControl c then failure
    else
      let c ← if c = '\\' then escape else pure c
      return c :: (← basicText fuel)

/-- Takes a text without escapes after its opening quote. -/
def literalText : Reading (List Char) := do
  let cs ← takeWhile fun c => c != '\'' && !isControl c
  exactly "'"
  return cs

/-- After a backslash at the end of a line: takes blanks and line endings. -/
def foldedLines : Nat → Reading Unit
  | 0 => failure
  | fuel + 1 => do
    blanks
    if (← startsWith "\n") || (← startsWith "\r\n") then
      newline
      foldedLines fuel

/-- Whether a backslash is followed by blanks and a line ending only. -/
def endsLine : Reading Bool := do
  let ahead := (← rest).dropWhile fun c => c = ' ' || c = '\t'
  return ahead.head? = some '\n' || ahead.take 2 = ['\r', '\n']

/-- Takes a text of several lines after its opening quotes, which are three
    times `quote`.  Up to two quotes may stand inside, also before the closing
    ones. -/
def longText (quote : Char) : Nat → Reading (List Char)
  | 0 => failure
  | fuel + 1 => do
    let quotes := ((← rest).takeWhile (· = quote)).length
    if 3 ≤ quotes then
      if 5 < quotes then failure
      exactly (String.ofList (List.replicate quotes quote))
      return List.replicate (quotes - 3) quote
    else if (← startsWith "\n") || (← startsWith "\r\n") then
      newline
      return '\n' :: (← longText quote fuel)
    else
      let c ← next
      if isControl c then failure
      else if c = '\\' && quote = '"' then
        if ← endsLine then
          foldedLines (fuel + 1)
          longText quote fuel
        else
          let c ← escape
          return c :: (← longText quote fuel)
      else return c :: (← longText quote fuel)

/-- Takes a text in any of the four forms. -/
def text : Reading String := do
  let fuel := (← rest).length + 1
  let long (quote : Char) : Reading String := do
    exactly (String.ofList [quote, quote, quote])
    if (← startsWith "\n") || (← startsWith "\r\n") then newline
    return String.ofList (← longText quote fuel)
  if ← startsWith "\"\"\"" then long '"'
  else if ← startsWith "'''" then long '\''
  else if ← startsWith "\"" then
    exactly "\""
    return String.ofList (← basicText fuel)
  else
    exactly "'"
    return String.ofList (← literalText)

/-! ## Keys -/

/-- The characters of a bare key. -/
def isKeyChar (c : Char) : Bool :=
  ('A' ≤ c && c ≤ 'Z') || ('a' ≤ c && c ≤ 'z') || ('0' ≤ c && c ≤ '9') || c = '_' || c = '-'

/-- Takes one part of a key. -/
def keyPart : Reading String := do
  let fuel := (← rest).length + 1
  if ← startsWith "\"" then
    exactly "\""
    return String.ofList (← basicText fuel)
  else if ← startsWith "'" then
    exactly "'"
    return String.ofList (← literalText)
  else
    let cs ← takeWhile isKeyChar
    if cs.isEmpty then failure else return String.ofList cs

/-- Takes the parts of a key, with dots between them. -/
def keyParts : Nat → Reading (List String)
  | 0 => failure
  | fuel + 1 => do
    blanks
    let part ← keyPart
    blanks
    if ← startsWith "." then
      exactly "."
      return part :: (← keyParts fuel)
    else return [part]

/-- How many parts a key may have, and how deep values may be nested. -/
def maxDepth : Nat := 79

/-- Takes a key. -/
def key : Reading (List String) := do
  let parts ← keyParts ((← rest).length + 1)
  if parts.length ≤ maxDepth then return parts else failure

/-! ## Dates and times -/

/-- Takes a number of two digits between two bounds. -/
def twoDigits (low high : Nat) : Reading Nat := do
  let n ← digits 10 2
  if low ≤ n ∧ n ≤ high then return n else failure

/-- Takes a date. -/
def date : Reading Date := do
  let year ← digits 10 4
  exactly "-"
  let month ← twoDigits 1 12
  exactly "-"
  let day ← twoDigits 1 (daysOfMonth year month)
  return { year, month, day }

/-- Takes a point and the digits of a fraction of a second, of which nine count. -/
def secondFraction : Reading Nat := do
  exactly "."
  let ds := (← takeWhile Char.isDigit).filterMap (digitOf? 10)
  if ds.isEmpty then failure
  return (ds ++ List.replicate 9 0).take 9 |>.foldl (10 * · + ·) 0

/-- Takes a time of day. -/
def timeOfDay : Reading TimeOfDay := do
  let hour ← twoDigits 0 23
  exactly ":"
  let minute ← twoDigits 0 59
  exactly ":"
  let second ← twoDigits 0 60
  let nanosecond := (← optional secondFraction).getD 0
  return { hour, minute, second, nanosecond }

/-- Takes a distance from universal time. -/
def offset : Reading Offset := do
  match ← next with
  | 'Z' | 'z' => return .universal
  | '+' => return .minutes (← distance)
  | '-' => return .minutes (-(← distance))
  | _ => failure
where
  distance : Reading Int := do
    let hour ← twoDigits 0 23
    exactly ":"
    return 60 * hour + (← twoDigits 0 59)

/-- Takes what separates a date from a time, and the time. -/
def timeAfterDate : Reading (TimeOfDay × Option Offset) := do
  match ← next with
  | 'T' | 't' | ' ' =>
    let time ← timeOfDay
    return (time, ← optional offset)
  | _ => failure

/-- Takes a date with or without a time. -/
def dateMoment : Reading Moment := do
  let d ← date
  match ← optional timeAfterDate with
  | some (t, distance) => return .dateTime d t distance
  | none => return .date d

/-- Takes a date, a time, or both. -/
def moment : Reading Moment := dateMoment <|> Moment.time <$> timeOfDay

/-! ## Numbers -/

/-- The number that digits spell in a base.  Single underscores may stand
    between digits. -/
def spelled? (base : Nat) (cs : List Char) : Option Nat :=
  let rec go (n : Nat) (digitBefore : Bool) : List Char → Option Nat
    | [] => if digitBefore then some n else none
    | '_' :: cs => if digitBefore then go n false cs else none
    | c :: cs => (digitOf? base c).bind fun d => go (base * n + d) true cs
  go 0 false cs

/-- The integer that characters spell, if it fits 64 bits. -/
def integerOf? (cs : List Char) : Option Int :=
  let decimal (cs : List Char) : Option Int :=
    if cs.head? = some '0' && 1 < cs.length then none else (spelled? 10 cs).map Int.ofNat
  let number : Option Int :=
    match cs with
    | '0' :: 'x' :: cs => (spelled? 16 cs).map Int.ofNat
    | '0' :: 'o' :: cs => (spelled? 8 cs).map Int.ofNat
    | '0' :: 'b' :: cs => (spelled? 2 cs).map Int.ofNat
    | '+' :: cs => decimal cs
    | '-' :: cs => (decimal cs).map fun n => -n
    | cs => decimal cs
  number.bind fun n =>
    if -9223372036854775808 ≤ n ∧ n ≤ 9223372036854775807 then some n else none

/-- Takes an integer. -/
def integer : Reading Int := do
  let cs ← takeWhile fun c => isKeyChar c || c = '+' || c = '.' || c = ':'
  match integerOf? cs with
  | some n => return n
  | none => failure

/-- Takes a sign, if there is one: whether it is negative. -/
def sign : Reading Bool := do
  if ← startsWith "-" then
    exactly "-"
    return true
  if ← startsWith "+" then exactly "+"
  return false

/-- Takes digits, and single underscores between them. -/
def digitRow : Reading (List Char) := do
  let cs ← takeWhile fun c => c.isDigit || c = '_'
  if (spelled? 10 cs).isSome then return cs.filter (· ≠ '_') else failure

/-- Takes the whole part of a number: no zero in front of other digits. -/
def wholePart : Reading (List Char) := do
  let ds ← digitRow
  if ds.head? = some '0' ∧ ds ≠ ['0'] then failure else return ds

/-- Takes a point and the digits after it. -/
def places : Reading (List Char) := do
  exactly "."
  digitRow

/-- Takes an exponent. -/
def exponent : Reading Int := do
  match ← next with
  | 'e' | 'E' =>
    let negative ← sign
    let n := (spelled? 10 (← digitRow)).getD 0
    return if negative then -n else n
  | _ => failure

/-- Takes a number with a fraction or an exponent.  A number past all others is
    admitted only below zero. -/
def fraction : Reading Binary64 := do
  let negative ← sign
  let whole ← wholePart
  let part ← optional places
  let power ← optional exponent
  if part.isNone && power.isNone then failure
  let ds := whole ++ part.getD []
  let x := Binary64.ofDecimal negative ((spelled? 10 ds).getD 0)
    (power.getD 0 - (part.getD []).length)
  if x = Binary64.infinity false then failure else return x

/-- Takes infinity, or what is no number. -/
def special : Reading Binary64 := do
  let negative ← sign
  if ← startsWith "inf" then
    exactly "inf"
    return .infinity negative
  else
    exactly "nan"
    return .notANumber negative

/-- Takes a moment or a number. -/
def scalar : Reading Value :=
  Value.moment <$> moment <|> Value.number <$> fraction <|> Value.number <$> special <|>
    Value.integer <$> integer

/-! ## Values -/

mutual

/-- Takes a value; `depth` arrays and tables in braces may still be nested. -/
def value : Nat → Nat → Reading Value
  | _, 0 => failure
  | depth, fuel + 1 => do
    if (← startsWith "\"") || (← startsWith "'") then return .text (← text)
    else if ← startsWith "true" then
      exactly "true"
      return .boolean true
    else if ← startsWith "false" then
      exactly "false"
      return .boolean false
    else if ← startsWith "[" then
      if depth = 0 then failure
      exactly "["
      return .array (← arrayItems (depth - 1) fuel)
    else if ← startsWith "\x7b" then
      if depth = 0 then failure
      exactly "\x7b"
      blanks
      if ← startsWith "\x7d" then
        exactly "\x7d"
        return .record []
      else return .record (← recordEntries (depth - 1) fuel [])
    else scalar

/-- Takes the items of an array after its bracket; a comma may follow the last
    one. -/
def arrayItems : Nat → Nat → Reading (List Value)
  | _, 0 => failure
  | depth, fuel + 1 => do
    gap
    if ← startsWith "]" then
      exactly "]"
      return []
    else
      let item ← value depth fuel
      gap
      if ← startsWith "," then
        exactly ","
        return item :: (← arrayItems depth fuel)
      else
        exactly "]"
        return [item]

/-- Takes the entries of a table in braces; no comma follows the last one. -/
def recordEntries : Nat → Nat → Table → Reading Table
  | _, 0, _ => failure
  | depth, fuel + 1, entries => do
    let path ← key
    exactly "="
    blanks
    let v ← value depth fuel
    blanks
    match Table.put false .header entries path v with
    | none => failure
    | some entries =>
      if ← startsWith "," then
        exactly ","
        recordEntries depth fuel entries
      else
        exactly "\x7d"
        return entries

end

end LevelBundle.Toml

/-
  LevelBundle — the dates and times of a settings file.

  A moment is a date, a time of day, or a date and a time, and the last may say how
  far the time is from universal time.  It is always written in one way: the date,
  a `T`, the time with the digits of its fraction that count, and the distance.

  Where a table is wanted a moment stands for the table whose only entry is its
  text.
-/
import LevelBundle.Text.Hex

namespace LevelBundle.Toml

/-- A date. -/
structure Date where
  /-- The year. -/
  year : Nat
  /-- The month, from one. -/
  month : Nat
  /-- The day of the month, from one. -/
  day : Nat
  deriving DecidableEq, Repr

/-- A time of day. -/
structure TimeOfDay where
  /-- The hour. -/
  hour : Nat
  /-- The minute. -/
  minute : Nat
  /-- The second; sixty for a leap second. -/
  second : Nat
  /-- The fraction of the second. -/
  nanosecond : Nat
  deriving DecidableEq, Repr

/-- How far a time is from universal time. -/
inductive Offset where
  /-- It is universal time. -/
  | universal
  /-- Some minutes away. -/
  | minutes (n : Int)
  deriving DecidableEq, Repr

/-- A date, a time, or both. -/
inductive Moment where
  /-- A date. -/
  | date (d : Date)
  /-- A time of day. -/
  | time (t : TimeOfDay)
  /-- A date and a time. -/
  | dateTime (d : Date) (t : TimeOfDay) (offset : Option Offset)
  deriving DecidableEq, Repr

/-- Whether a year has a 29th of February. -/
def isLeapYear (year : Nat) : Bool :=
  year % 4 = 0 && (year % 100 != 0 || year % 400 = 0)

/-- The number of days of a month. -/
def daysOfMonth (year month : Nat) : Nat :=
  if month = 2 then if isLeapYear year then 29 else 28
  else if month = 4 ∨ month = 6 ∨ month = 9 ∨ month = 11 then 30
  else 31

/-- A number with zeros in front. -/
def padded (width n : Nat) : String := Text.padLeft width '0' (toString n)

/-- The text of a date. -/
def Date.render (d : Date) : String :=
  padded 4 d.year ++ "-" ++ padded 2 d.month ++ "-" ++ padded 2 d.day

/-- The text of a fraction of a second: nothing, or a point and its digits up to the
    last that is not zero. -/
def renderFraction (nanosecond : Nat) : String :=
  if nanosecond = 0 then ""
  else "." ++ String.ofList ((padded 9 nanosecond).toList.reverse.dropWhile (· = '0')).reverse

/-- The text of a time. -/
def TimeOfDay.render (t : TimeOfDay) : String :=
  padded 2 t.hour ++ ":" ++ padded 2 t.minute ++ ":" ++ padded 2 t.second ++
    renderFraction t.nanosecond

/-- The text of a distance. -/
def Offset.render : Offset → String
  | universal => "Z"
  | minutes n =>
    (if n < 0 then "-" else "+") ++ padded 2 (n.natAbs / 60) ++ ":" ++ padded 2 (n.natAbs % 60)

namespace Moment

/-- The text of a moment. -/
def render : Moment → String
  | date d => d.render
  | time t => t.render
  | dateTime d t offset => d.render ++ "T" ++ t.render ++ (offset.map Offset.render).getD ""

/-- The name of the entry with the text of a moment. -/
def entryName : String := "$__toml_private_datetime"

end Moment

end LevelBundle.Toml

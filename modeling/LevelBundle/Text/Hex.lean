/-
  LevelBundle — hexadecimal text.

  Numbers in messages and maps are written in lower-case hexadecimal after
  `0x`, either bare (`hex`) or with the digits padded to a width (`hexWord`).
-/

namespace LevelBundle.Text

/-- The digits of `n` in base sixteen, without leading zeros. -/
def hexDigits (n : Nat) : String :=
  String.ofList (Nat.toDigits 16 n)

/-- `n` in base sixteen after `0x`. -/
def hex (n : Nat) : String :=
  "0x" ++ hexDigits n

/-- Puts `fill` before `text` until it is `width` characters long. -/
def padLeft (width : Nat) (fill : Char) (text : String) : String :=
  String.ofList (List.replicate (width - text.length) fill) ++ text

/-- Puts spaces after `text` until it is `width` characters long. -/
def padRight (width : Nat) (text : String) : String :=
  text ++ String.ofList (List.replicate (width - text.length) ' ')

/-- `n` as `0x` and at least `width` digits. -/
def hexWide (width n : Nat) : String :=
  "0x" ++ padLeft width '0' (hexDigits n)

/-- A word as `0x` and eight digits. -/
def hexWord (w : UInt32) : String := hexWide 8 w.toNat

end LevelBundle.Text

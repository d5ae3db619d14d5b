/-
  LevelBundle — alignment requests.

  A file may be asked for at an alignment, several times and by several
  lines.  `Alignment.valid` says which numbers can be honoured where offsets are
  whole words, and `Alignment.merge` joins two requests into the one that
  satisfies both: the larger, if the smaller divides it.
-/

namespace LevelBundle.Alignment

/-- An alignment can be honoured if it divides a word or is a number of words. -/
def valid (alignment : UInt32) : Bool :=
  alignment != 0 && (alignment == 1 || alignment == 2 || alignment % 4 == 0)

/-- The request that satisfies both, or `none` if neither divides the other. -/
def merge : Option UInt32 → Option UInt32 → Option (Option UInt32)
  | none, other => some other
  | other, none => some other
  | some x, some y =>
    if x % y = 0 then some (some x)
    else if y % x = 0 then some (some y)
    else none

/-- What is said of an alignment that cannot be honoured. -/
def invalidMessage (alignment : UInt32) : String :=
  s!"Invalid alignment {alignment}: must be 1, 2 or a multiple of 4"

end LevelBundle.Alignment

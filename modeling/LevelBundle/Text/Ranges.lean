/-
  LevelBundle — ranges of characters.
-/

namespace LevelBundle.Text

/-- Whether a character lies in one of some ranges of code points, ends included. -/
def inRanges (ranges : List (Nat × Nat)) (c : Char) : Bool :=
  ranges.any fun range => range.1 ≤ c.toNat && c.toNat ≤ range.2

end LevelBundle.Text

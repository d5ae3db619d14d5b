/-
  LevelBundle — binary floating-point numbers, as bits.

  A script writes numbers in decimal and a bundle holds them in binary32.  Both
  steps, decimal to binary64 and binary64 to binary32, round once, to the
  nearest number of the format and to the even one of two that are equally
  near.  All of it is arithmetic on natural numbers: no number is ever anything
  but its bits.

  * `BinaryFormat` describes a format: the number of significant bits, the
    least exponent of the last of them, and the number of exponent bits.
  * `BinaryFormat.round` rounds a quotient of naturals to the bits of a number.
  * `Binary64` holds the bits of a binary64 number.
-/

namespace LevelBundle

/-- A binary format: numbers `m * 2 ^ q` where `m` has at most `precision` bits
    and `minExp ≤ q`. -/
structure BinaryFormat where
  /-- The number of significant bits. -/
  precision : Nat
  /-- The exponent of the last bit of the smallest numbers. -/
  minExp : Int
  /-- The number of bits that hold the exponent. -/
  exponentBits : Nat
  deriving Repr

namespace BinaryFormat

/-- The 64-bit format. -/
def double : BinaryFormat := ⟨53, -1074, 11⟩

/-- The 32-bit format. -/
def single : BinaryFormat := ⟨24, -149, 8⟩

/-- The bits of infinity, without a sign. -/
def infinity (f : BinaryFormat) : Nat :=
  (Nat.pow 2 f.exponentBits - 1) * Nat.pow 2 (f.precision - 1)

/-- The bit of the sign. -/
def signBit (f : BinaryFormat) : Nat := Nat.pow 2 (f.precision - 1 + f.exponentBits)

/-- `num / den`, rounded to the nearest natural and to the even one of two. -/
def nearest (num den : Nat) : Nat :=
  let floor := num / den
  let rest := 2 * (num % den)
  if rest < den ∨ (rest = den ∧ floor % 2 = 0) then floor else floor + 1

/-- The exponent of the last bit of `num / den`: the least at which the quotient
    has no more than `precision` bits. -/
def exponentOf (f : BinaryFormat) (num den : Nat) : Int :=
  let low : Int := (num.log2 : Int) - (den.log2 : Int) - (f.precision : Int)
  let scaled :=
    if 0 ≤ low then num / (den * Nat.pow 2 low.toNat) else num * Nat.pow 2 (-low).toNat / den
  let q := if scaled < Nat.pow 2 f.precision then low else low + 1
  max q f.minExp

/-- The bits, without a sign, of the number nearest to `num / den`. -/
def round (f : BinaryFormat) (num den : Nat) : Nat :=
  if num = 0 then 0
  else
    let q := f.exponentOf num den
    let m :=
      if 0 ≤ q then nearest num (den * Nat.pow 2 q.toNat)
      else nearest (num * Nat.pow 2 (-q).toNat) den
    min ((q - f.minExp).toNat * Nat.pow 2 (f.precision - 1) + m) f.infinity

/-- What bits without a sign stand for. -/
inductive Magnitude where
  /-- The number `m * 2 ^ q`. -/
  | finite (m : Nat) (q : Int)
  /-- A number past all others. -/
  | infinite
  /-- No number. -/
  | notANumber
  deriving DecidableEq, Repr

/-- Reads bits without a sign. -/
def magnitude (f : BinaryFormat) (bits : Nat) : Magnitude :=
  let half := Nat.pow 2 (f.precision - 1)
  if bits = f.infinity then .infinite
  else if f.infinity < bits then .notANumber
  else if bits < half then .finite bits f.minExp
  else .finite (half + bits % half) (f.minExp + (bits / half : Nat) - 1)

end BinaryFormat

/-- A binary64 number. -/
structure Binary64 where
  /-- Its bits. -/
  bits : UInt64
  deriving DecidableEq, Repr, Inhabited

namespace Binary64

/-- The bits without a sign, with a sign. -/
def ofMagnitude (negative : Bool) (magnitude : Nat) : Binary64 :=
  ⟨(if negative then BinaryFormat.double.signBit + magnitude else magnitude).toUInt64⟩

/-- Whether the sign is negative. -/
def isNegative (x : Binary64) : Bool := BinaryFormat.double.signBit ≤ x.bits.toNat

/-- The bits without the sign. -/
def magnitudeBits (x : Binary64) : Nat := x.bits.toNat % BinaryFormat.double.signBit

/-- What the number is, up to its sign. -/
def magnitude (x : Binary64) : BinaryFormat.Magnitude := BinaryFormat.double.magnitude x.magnitudeBits

/-- Infinity, with a sign. -/
def infinity (negative : Bool) : Binary64 := ofMagnitude negative BinaryFormat.double.infinity

/-- What is no number, with a sign. -/
def notANumber (negative : Bool) : Binary64 :=
  let f := BinaryFormat.double
  ofMagnitude negative (f.infinity + Nat.pow 2 (f.precision - 2))

/-- The number nearest to an integer. -/
def ofInt (n : Int) : Binary64 :=
  ofMagnitude (n < 0) (BinaryFormat.double.round n.natAbs 1)

/-- The number nearest to `digits * 10 ^ exponent`.  Powers that are too large
    or too small for any number are not worked out. -/
def ofDecimal (negative : Bool) (digits : Nat) (exponent : Int) : Binary64 :=
  let places : Int := (Nat.toDigits 10 digits).length + exponent
  ofMagnitude negative <|
    if digits = 0 ∨ places < -400 then 0
    else if 400 < places then BinaryFormat.double.infinity
    else if 0 ≤ exponent then BinaryFormat.double.round (digits * Nat.pow 10 exponent.toNat) 1
    else BinaryFormat.double.round digits (Nat.pow 10 (-exponent).toNat)

/-- The bits of the nearest binary32 number. -/
def toSingle (x : Binary64) : UInt32 :=
  let f := BinaryFormat.single
  let magnitude :=
    match x.magnitude with
    | .finite m q =>
      if 0 ≤ q then f.round (m * Nat.pow 2 q.toNat) 1 else f.round m (Nat.pow 2 (-q).toNat)
    | .infinite => f.infinity
    | .notANumber => f.infinity + Nat.pow 2 (f.precision - 2)
  (if x.isNegative then f.signBit + magnitude else magnitude).toUInt32

end Binary64

end LevelBundle

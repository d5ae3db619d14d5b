/-
  LevelBundle — the shortest decimal text of a binary64 number.

  A number is written with the fewest digits that read back as it, the nearest
  such if there are several and the greater of two equally near, and always
  positionally: `0.1`, `1000000`, `2.5`.  A whole number has no fraction.

  The decimals that read back as `m * 2 ^ q` are those between the middles to
  its two neighbours, the middles included if `m` is even, since ties go to the
  even number.  `Shortest.decimal` tries one digit, two digits, … and at each
  length the two decimals next to the number; all sizes are naturals over one
  denominator.
-/
import LevelBundle.Numeral.Binary

namespace LevelBundle.Shortest

/-- A number and the bounds between which decimals read back as it, as naturals
    over one denominator. -/
structure Interval where
  /-- The number. -/
  value : Nat
  /-- The lower bound. -/
  low : Nat
  /-- The upper bound. -/
  high : Nat
  /-- The denominator of all three. -/
  den : Nat
  /-- Whether the bounds read back too. -/
  closed : Bool
  deriving Repr

/-- The interval of `m * 2 ^ q`.  Below a power of two the neighbour is half as
    far, except at the least exponent. -/
def Interval.of (m : Nat) (q : Int) : Interval :=
  let f := BinaryFormat.double
  let atPower := m = Nat.pow 2 (f.precision - 1) ∧ f.minExp < q
  let scale := if 0 ≤ q then Nat.pow 2 q.toNat else 1
  let den := if 0 ≤ q then 4 else 4 * Nat.pow 2 (-q).toNat
  { value := 4 * m * scale
    low := (4 * m - if atPower then 1 else 2) * scale
    high := (4 * m + 2) * scale
    den, closed := m % 2 = 0 }

/-- Whether `n * 10 ^ e` reads back. -/
def Interval.holds (i : Interval) (n : Nat) (e : Int) : Bool :=
  let up := if 0 ≤ e then Nat.pow 10 e.toNat else 1
  let down := if 0 ≤ e then 1 else Nat.pow 10 (-e).toNat
  let x := n * up * i.den
  if i.closed then i.low * down ≤ x && x ≤ i.high * down
  else i.low * down < x && x < i.high * down

/-- The multiple of `10 ^ e` that reads back and is nearest, if one reads back;
    of two equally near the greater one. -/
def Interval.nearestAt? (i : Interval) (e : Int) : Option Nat :=
  let up := if 0 ≤ e then Nat.pow 10 e.toNat else 1
  let down := if 0 ≤ e then 1 else Nat.pow 10 (-e).toNat
  let floor := i.value * down / (i.den * up)
  let rest := 2 * (i.value * down % (i.den * up))
  let nearLow := rest < i.den * up
  match i.holds floor e && floor != 0, i.holds (floor + 1) e with
  | true, true => some (if nearLow then floor else floor + 1)
  | true, false => some floor
  | false, true => some (floor + 1)
  | false, false => none

/-- The place of the leading digit of `num / den`: the greatest `k` with
    `10 ^ k ≤ num / den`.  The search starts above it. -/
def leadingPlace (num den : Nat) : Nat → Int → Int
  | 0, k => k
  | fuel + 1, k =>
    if (if 0 ≤ k then den * Nat.pow 10 k.toNat ≤ num else den ≤ num * Nat.pow 10 (-k).toNat) then k
    else leadingPlace num den fuel (k - 1)

/-- Tries one digit more at each step. -/
def search (i : Interval) : Nat → Int → Nat × Int
  | 0, e => (i.value / i.den, max e 0)
  | fuel + 1, e =>
    match i.nearestAt? e with
    | some n => (n, e)
    | none => search i fuel (e - 1)

/-- The shortest decimal `n * 10 ^ e` of `m * 2 ^ q`, for `m` not zero. -/
def decimal (m : Nat) (q : Int) : Nat × Int :=
  let i := Interval.of m q
  let lead := leadingPlace i.value i.den 700 (310 : Int)
  search i 20 (lead + 1)

/-- `n * 10 ^ e` written positionally. -/
def positional (n : Nat) (e : Int) : String :=
  let digits := Nat.toDigits 10 n
  if 0 ≤ e then String.ofList (digits ++ List.replicate e.toNat '0')
  else
    let places := (-e).toNat
    let padded := List.replicate (places + 1 - digits.length) '0' ++ digits
    let whole := padded.take (padded.length - places)
    String.ofList (whole ++ '.' :: padded.drop (padded.length - places))

end LevelBundle.Shortest

namespace LevelBundle

/-- The text of a number. -/
def Binary64.render (x : Binary64) : String :=
  let text :=
    match x.magnitude with
    | .notANumber => "NaN"
    | .infinite => "inf"
    | .finite 0 _ => "0"
    | .finite m q => Function.uncurry Shortest.positional (Shortest.decimal m q)
  if x.isNegative && x.magnitude != .notANumber then "-" ++ text else text

end LevelBundle

/-
# The shortest decimal that reads back

Every finite binary number is the nearest one to all reals of an interval
around it. `shortest` finds the least number of decimal digits for which some
point of the decimal grid lies in that interval, and of the two neighbours of
the number on that grid the one nearer to it.

The interval runs half way to the next numbers above and below, and holds its
ends when the significand is even, since a tie is read as the even neighbour.
-/
import Playscript.Number.Binary

namespace Playscript.Number

/-- The number `coefficient · 10 ^ exponent`. -/
structure Decimal where
  coefficient : Nat
  exponent : Int
deriving DecidableEq, Repr

/-- The reals that are read as one binary number, over one denominator. -/
structure Interval where
  low : Nat
  value : Nat
  high : Nat
  den : Nat
  closed : Bool
deriving DecidableEq, Repr

/-- The interval of `significand · 2 ^ exponent`. Below the least significand
of a binade numbers lie twice as close as above it. -/
def Interval.of (s : Scaled) : Interval :=
  let quarter := s.exponent - 2
  let below := if s.significand = Nat.pow 2 fractionBits ∧ s.exponent ≠ -1074 then 1 else 2
  let at4 := fun n => Ratio.ofScaled n quarter
  let middle := at4 (4 * s.significand)
  { low := (at4 (4 * s.significand - below)).num
    value := middle.num
    high := (at4 (4 * s.significand + 2)).num
    den := middle.den
    closed := s.significand % 2 == 0 }

/-- Whether a decimal lies in the interval. -/
def Interval.holds (i : Interval) (d : Decimal) : Bool :=
  let up := Nat.pow 10 d.exponent.toNat
  let down := Nat.pow 10 (-d.exponent).toNat
  let point := d.coefficient * up * i.den
  if i.closed then i.low * down ≤ point && point ≤ i.high * down
  else i.low * down < point && point < i.high * down

/-- How many decimal digits a natural number has; zero has none. -/
def digitCount (n : Nat) : Nat :=
  if h : n = 0 then 0 else digitCount (n / 10) + 1
termination_by n
decreasing_by omega

/-- Decimals of finite numbers have no digits past this place. -/
def finestPlace : Nat := 400

/-- The place of the leading decimal digit of `num / den`. -/
def leadingPlace (num den : Nat) : Int :=
  (digitCount (num * Nat.pow 10 finestPlace / den) : Int) - 1 - finestPlace

/-- The neighbours of the value on the grid of multiples of `10 ^ place`. -/
def Interval.neighbours (i : Interval) (place : Int) : Decimal × Decimal :=
  let down := i.value * Nat.pow 10 (-place).toNat / (i.den * Nat.pow 10 place.toNat)
  (⟨down, place⟩, ⟨down + 1, place⟩)

/-- Whether the lower of two neighbours is strictly nearer to the value. -/
def Interval.nearerBelow (i : Interval) (below above : Decimal) : Bool :=
  let sum := (below.coefficient + above.coefficient) * Nat.pow 10 below.exponent.toNat * i.den
  2 * i.value * Nat.pow 10 (-below.exponent).toNat < sum

/-- The neighbour with the given number of digits that reads back, if any; of
two the nearer, and the upper one when both are equally near. -/
def Interval.withDigits? (i : Interval) (lead : Int) (digits : Nat) : Option Decimal :=
  let (below, above) := i.neighbours (lead - digits + 1)
  match i.holds below, i.holds above with
  | true, true => some (if i.nearerBelow below above then below else above)
  | true, false => some below
  | false, true => some above
  | false, false => none

/-- Seventeen digits always suffice. -/
def mostDigits : Nat := 17

/-- The decimal with the fewest digits that reads back as the positive number. -/
def shortest (s : Scaled) : Decimal :=
  let i := Interval.of s
  let lead := leadingPlace i.value i.den
  match (List.range mostDigits).findSome? fun d => i.withDigits? lead (d + 1) with
  | some d => d
  | none => (i.neighbours (lead - mostDigits + 1)).1

end Playscript.Number

/-
# Binary numbers taken apart

A finite 64-bit number is `± m · 2 ^ q` for a natural number `m` below
`2 ^ 53`. `Scaled.ofFloat` reads `m` and `q` off the bits, so that what is said
about digits, remainders and intervals can be said about natural numbers.
-/
namespace Playscript.Number

/-- The number `significand · 2 ^ exponent`. -/
structure Scaled where
  significand : Nat
  exponent : Int
deriving DecidableEq, Repr

/-- Bits below this one hold the fraction. -/
def fractionBits : Nat := 52

/-- The sign bit. -/
def isNegative (x : Float) : Bool := x.toBits.toNat / Nat.pow 2 63 % 2 == 1

/-- The size of a finite number. -/
def Scaled.ofFloat (x : Float) : Scaled :=
  let bits := x.toBits.toNat
  let fraction : Nat := bits % Nat.pow 2 fractionBits
  let exponent : Nat := bits / Nat.pow 2 fractionBits % Nat.pow 2 11
  if exponent = 0 then ⟨fraction, -1074⟩
  else ⟨fraction + Nat.pow 2 fractionBits, (exponent : Int) - 1075⟩

/-- The number `significand · 2 ^ exponent`, rounded to the nearest if there is none:
a negative power of two is the same power of ten times one of five. -/
def Scaled.toFloat (s : Scaled) : Float :=
  let down := (-s.exponent).toNat
  Float.ofScientific (s.significand * Nat.pow 2 s.exponent.toNat * Nat.pow 5 down) true down

/-- A fraction of natural numbers, for sizes that are compared exactly. -/
structure Ratio where
  num : Nat
  den : Nat
deriving DecidableEq, Repr

/-- `n · 2 ^ q` as a fraction. -/
def Ratio.ofScaled (n : Nat) (q : Int) : Ratio :=
  if 0 ≤ q then ⟨n * Nat.pow 2 q.toNat, 1⟩ else ⟨n, Nat.pow 2 (-q).toNat⟩

end Playscript.Number

/-
# Numbers as text

A finite number is written with the shortest digits that read back, always in
positional form: no exponent, no point after a whole number. What is left to a
format is the sign of zero and the words for the values that are not finite
(`Wording`). `shown` is the wording of values, `plain` the one of diagnostics.
-/
import Playscript.Number.Shortest

namespace Playscript.Number

/-- The digits of a natural number. -/
def digits (n : Nat) : List Char := Nat.toDigits 10 n

/-- A decimal in positional form. -/
def positional (d : Decimal) : List Char :=
  if 0 ≤ d.exponent then digits d.coefficient ++ List.replicate d.exponent.toNat '0'
  else
    let places := (-d.exponent).toNat
    let ds := digits d.coefficient
    let padded := List.replicate (places + 1 - ds.length) '0' ++ ds
    let whole := padded.length - places
    padded.take whole ++ '.' :: padded.drop whole

/-- A decimal without the zeros its coefficient ends in, as far as `fuel` goes. -/
def dropZeros : Nat → Decimal → Decimal
  | 0, d => d
  | fuel + 1, d =>
    if d.coefficient ≠ 0 ∧ d.coefficient % 10 = 0 then
      dropZeros fuel ⟨d.coefficient / 10, d.exponent + 1⟩
    else d

/-- The text of a positive finite number. -/
def positiveText (x : Float) : List Char :=
  positional (dropZeros mostDigits (shortest (Scaled.ofFloat x)))

/-- The words for what has no digits, and whether a negative zero keeps its sign. -/
structure Wording where
  notANumber : String
  infinity : String
  signedZero : Bool

/-- How a number is written. -/
def Wording.text (w : Wording) (x : Float) : String :=
  if x.isNaN then w.notANumber
  else
    let sign := if isNegative x then "-" else ""
    if x.isInf then sign ++ w.infinity
    else if x == 0 then (if w.signedZero then sign else "") ++ "0"
    else sign ++ String.ofList (positiveText x)

/-- Values show infinities in full and zero without a sign. -/
def shown : Wording := ⟨"NaN", "Infinity", false⟩

/-- Diagnostics shorten infinities and keep the sign of zero. -/
def plain : Wording := ⟨"NaN", "inf", true⟩

end Playscript.Number

/-
# The remainder of a division of binary numbers

`x % y` is `x - n · y` for the quotient cut towards zero. It is always
a binary number itself, so it is computed exactly: over the smaller of the two
exponents both sizes are natural numbers. The result has the sign of `x`.
-/
import Playscript.Number.Binary

namespace Playscript.Number

/-- The size of the remainder of two finite sizes, the second not zero. -/
def remainderSize (a b : Scaled) : Scaled :=
  let exponent := min a.exponent b.exponent
  let scale := fun (s : Scaled) => s.significand * Nat.pow 2 (s.exponent - exponent).toNat
  ⟨scale a % scale b, exponent⟩

/-- The remainder, not a number where the division is undefined. -/
def remainder (x y : Float) : Float :=
  if x.isNaN || y.isNaN || x.isInf || y == 0 then 0 / 0
  else if y.isInf then x
  else
    let size := (remainderSize (Scaled.ofFloat x) (Scaled.ofFloat y)).toFloat
    if isNegative x then -size else size

end Playscript.Number

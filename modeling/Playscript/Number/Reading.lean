/-
# Reading decimals

The digits of a decimal are one natural number, scaled by the digits after the
point; the number read is the nearest binary one.
-/
namespace Playscript.Number

/-- The value of a decimal digit. -/
def digitValue (c : Char) : Nat := c.toNat - '0'.toNat

/-- The number a row of digits names. -/
def naturalOf (ds : List Char) : Nat := ds.foldl (fun n c => 10 * n + digitValue c) 0

/-- The nearest number to the decimal with these digits before and after the point. -/
def ofDigits (whole fraction : List Char) : Float :=
  Float.ofScientific (naturalOf (whole ++ fraction)) true fraction.length

end Playscript.Number

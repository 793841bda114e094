/-
# Operations on values

Numbers follow IEEE 754. A string on either side of `+` joins texts, equality
holds between any two values, and comparison is for two numbers or two strings;
strings are ordered by their characters' code points.
-/
import Playscript.Value.Text
import Playscript.Value.Equality
import Playscript.Number.Remainder
import Playscript.Failure

namespace Playscript

namespace Operator

/-- What an operator does to two numbers, if it is arithmetic. -/
def onNumbers? : Operator → Option (Float → Float → Float)
  | add => some (· + ·)
  | subtract => some (· - ·)
  | multiply => some (· * ·)
  | divide => some (· / ·)
  | remainder => some Number.remainder
  | equal | less | greater => none

/-- The failure of an operator on values it does not suit. -/
def mismatch (op : Operator) (left right : Value) : Failure :=
  .operands op left.kindName right.kindName

/-- The result of an operator. -/
def apply (op : Operator) (left right : Value) : Except Failure Value :=
  match op, left, right with
  | equal, l, r => return .bool (l.same r)
  | less, .number x, .number y => return .bool (x < y)
  | greater, .number x, .number y => return .bool (y < x)
  | less, .string s, .string t => return .bool (s < t)
  | greater, .string s, .string t => return .bool (t < s)
  | add, .string s, r => return .string (s ++ r.text)
  | add, l, .string t => return .string (l.text ++ t)
  | op, .number x, .number y =>
    match op.onNumbers? with
    | some f => return .number (f x y)
    | none => throw (op.mismatch (.number x) (.number y))
  | op, l, r => throw (op.mismatch l r)

end Operator

namespace Value

/-- The opposite of a number. -/
def negated : Value → Except Failure Value
  | number x => return .number (-x)
  | v => throw (.negated v.kindName)

/-- A value that has to be a number, for a purpose. -/
def toNumber (purpose : String) : Value → Except Failure Float
  | number x => return x
  | v => throw (.needsNumber purpose v.kindName)

/-- The item of an array at a position, which is cut down to a whole number. -/
def item? (items : List Value) (position : Float) : Option Value :=
  let whole := position.floor
  if whole.isNaN || whole < 0 || Float.ofNat items.length ≤ whole then none
  else items[whole.toUInt64.toNat]?

end Value

end Playscript

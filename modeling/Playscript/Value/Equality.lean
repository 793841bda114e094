/-
# Equality of values

Numbers are equal as numbers, so the two zeros are equal and what is not
a number differs from itself. Arrays are equal item by item, capsules by name and
closures by identity. Values of different kinds differ.
-/
import Playscript.Value.Basic

namespace Playscript.Value

mutual

/-- Whether two values are equal. -/
def same : Value → Value → Bool
  | null, null => true
  | number x, number y => x == y
  | string s, string t => s == t
  | bool a, bool b => a == b
  | array xs, array ys => sameAll xs ys
  | capsule c, capsule d => c.name == d.name
  | closure c, closure d => c.identity == d.identity
  | _, _ => false

/-- Whether two lists are equal item by item. -/
def sameAll : List Value → List Value → Bool
  | [], [] => true
  | x :: xs, y :: ys => same x y && sameAll xs ys
  | _, _ => false

end

end Playscript.Value

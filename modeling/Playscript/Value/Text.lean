/-
# Values as text

Strings stand as they are, also inside arrays; functions show their name.
-/
import Playscript.Value.Basic
import Playscript.Number.Text

namespace Playscript.Value

mutual

/-- The text of a value. -/
def text : Value → String
  | null => "null"
  | number x => Number.shown.text x
  | string s => s
  | bool b => if b then "true" else "false"
  | array items => "[" ++ ", ".intercalate (texts items) ++ "]"
  | capsule c => "<native " ++ c.name ++ ">"
  | closure c => "<action " ++ c.name ++ ">"

/-- The texts of a list of values. -/
def texts : List Value → List String
  | [] => []
  | v :: rest => v.text :: texts rest

end

end Playscript.Value

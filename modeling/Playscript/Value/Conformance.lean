/-
# Values and declared types

`int` and `float` both stand for numbers; a name that is no type, like `any`,
admits every value.
-/
import Playscript.Value.Basic

namespace Playscript.TypeName

/-- Whether a value is of the type. -/
def admits : TypeName → Value → Bool
  | .named name, v =>
    match name, v with
    | "int", .number _ | "float", .number _ => true
    | "int", _ | "float", _ => false
    | "string", .string _ => true
    | "string", _ => false
    | "bool", .bool _ => true
    | "bool", _ => false
    | _, _ => true
  | .array element, .array items => items.all element.admits
  | .array _, _ => false

end Playscript.TypeName

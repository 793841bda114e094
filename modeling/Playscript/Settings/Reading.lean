/-
# Settings as JSON

Settings are a record of `base_dir`, `module_cache` and `file_name`. In whole
settings a field may be left out but not be null; in an overlay both leave a
setting as it is, and an array has to give all three.
-/
import Playscript.Disk.Basic
import Playscript.Json.Fields
import Playscript.Settings.Basic

namespace Playscript

/-- A policy as JSON: its name. -/
def CachePolicy.ofJson? (j : Json) : Option CachePolicy := j.choice?.bind ofName?

namespace Settings

/-- The names of the fields. -/
def fieldNames : List String := ["base_dir", "module_cache", "file_name"]

/-- Settings as JSON. -/
def ofJson? (j : Json) : Option Settings := do
  match ← j.fields fieldNames with
  | [base, policy, file] =>
    let base ← base.mapM Json.text?
    let policy ← policy.mapM CachePolicy.ofJson?
    let file ← file.mapM Json.text?
    return Overlay.apply ⟨base, policy, file⟩ standard
  | _ => none

/-- An overlay as JSON. -/
def Overlay.ofJson? (j : Json) : Option Overlay := do
  match ← j.fields fieldNames with
  | [base, policy, file] =>
    if let .array items := j then guard (items.length = fieldNames.length)
    let base ← base.mapM (Json.optional? Json.text?)
    let policy ← policy.mapM (Json.optional? CachePolicy.ofJson?)
    let file ← file.mapM (Json.optional? Json.text?)
    return ⟨base.join, policy.join, file.join⟩
  | _ => none

/-- Why settings cannot be had from a file. -/
inductive LoadError where
  | unreadable (path : String) (cause : ReadError)
  | malformed
deriving DecidableEq, Repr

namespace LoadError

/-- The wording of a load error. -/
def message : LoadError → String
  | unreadable path cause => s!"cannot read config '{path}': {cause.message}"
  | malformed => "invalid config: not a record of settings"

end LoadError

/-- What the text of a settings file says. -/
def read {α : Type} (ofJson? : Json → Option α) (text : String) : Except LoadError α :=
  match (Json.ofText? text).bind ofJson? with
  | some a => return a
  | none => throw .malformed

/-- What a settings file says. -/
def load {α : Type} (ofJson? : Json → Option α) (disk : Disk) (path : String) :
    Except LoadError α :=
  match disk.read path with
  | .ok text => read ofJson? text
  | .error cause => throw (.unreadable path cause)

end Settings

end Playscript

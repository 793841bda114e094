/-
# Failures of a running script

Each failure is a cause; `Failure.message` is the only place that words them.
A failure on its way out carries the site of the innermost node that failed
(`Fault`): the first node to claim it keeps it.
-/
import Playscript.Value.Basic
import Playscript.Diagnostic
import Playscript.Number.Text

namespace Playscript

/-- Why a script cannot go on. -/
inductive Failure where
  | undefined (name : String)
  | typeMismatch (name : String) (expected : TypeName) (found : String)
  | notAFunction (name : String)
  | notAnArray (name : String)
  | outOfBounds (name : String) (index : Float) (length : Nat)
  | missingArgument (function param : String)
  | importNotFound (source : String)
  | exportNotFound (name source : String)
  | circularImport (source : String)
  | returnOutside
  /-- The kinds of the operands do not suit the operator. -/
  | operands (operator : Operator) (left right : String)
  | negated (kind : String)
  /-- A number is needed for some purpose. -/
  | needsNumber (purpose kind : String)
  /-- A capsule got a value that is no number. -/
  | capsuleArgument (function kind : String)
  /-- A capsule got too few values; positions count from 1. -/
  | capsuleMissing (function : String) (position : Nat)
  /-- A module is no program. -/
  | unreadable (diagnostic : Diagnostic)
deriving DecidableEq, Repr

namespace Failure

/-- The wording of a failure. -/
def message : Failure → String
  | undefined name => s!"Undefined variable '{name}'."
  | typeMismatch name expected found =>
    s!"Type Error: Cannot assign {found} to '{name}' of type '{expected.text}'."
  | notAFunction name => s!"'{name}' is not a function."
  | notAnArray name => s!"'{name}' is not an array."
  | outOfBounds name index length =>
    s!"Index {Number.plain.text index} out of bounds for '{name}' (length {length})."
  | missingArgument function param => s!"Missing argument '{param}' in call to '{function}'."
  | importNotFound source => s!"Cannot import '{source}': module not found."
  | exportNotFound name source => s!"'{name}' is not exported from {source}."
  | circularImport source => s!"Circular import of '{source}'."
  | returnOutside => "Return outside of function."
  | operands op left right => s!"Cannot apply '{op.sign}' to {left} and {right}."
  | negated kind => s!"Cannot negate {kind}."
  | needsNumber purpose kind => s!"Expected a number for {purpose}, got {kind}."
  | capsuleArgument function kind => s!"{function}: expected a number, got {kind}"
  | capsuleMissing function position => s!"{function}: missing argument {position}"
  | unreadable diagnostic => diagnostic.text

end Failure

/-- A span of a named file. -/
structure Site where
  file : String
  span : Span
deriving DecidableEq, Repr

/-- A failure, and where it was raised once a node has claimed it. -/
structure Fault where
  failure : Failure
  site? : Option Site
deriving DecidableEq, Repr

namespace Fault

/-- A failure that no node has claimed yet. -/
def raised (failure : Failure) : Fault := ⟨failure, none⟩

/-- Claims a fault for a site unless a node further in has claimed it. -/
def claim (f : Fault) (site : Site) : Fault := { f with site? := some (f.site?.getD site) }

end Fault

/-- A failure of a run as it is reported. -/
structure Report where
  site : Site
  message : String
deriving DecidableEq, Repr

namespace Report

/-- The line of a report. -/
def text (r : Report) : String :=
  s!"{r.site.file}:{r.site.span.text}: runtime error: {r.message}"

end Report

end Playscript

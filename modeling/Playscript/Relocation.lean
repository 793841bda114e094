/-
# Values with their closures moved

Two arenas can hold the same frames in different slots. A value of the one is
then the value of the other with the frames of its closures moved: `relocate`
changes the slots of closures, at any depth, and nothing else.
-/
import Playscript.Machine.Evaluator

namespace Playscript

/-- A closure with its frame moved. -/
def Closure.relocate (place : Slot → Slot) (c : Closure) : Closure :=
  { c with frame := place c.frame }

namespace Value

mutual

/-- A value with the frames of its closures moved. -/
def relocate (place : Slot → Slot) : Value → Value
  | null => null
  | number x => number x
  | string s => string s
  | bool b => bool b
  | array items => array (relocateAll place items)
  | capsule ⟨name, params, routine⟩ => capsule ⟨name, relocateParams place params, routine⟩
  | closure c => closure (c.relocate place)

/-- Values with the frames of their closures moved. -/
def relocateAll (place : Slot → Slot) : List Value → List Value
  | [] => []
  | v :: rest => v.relocate place :: relocateAll place rest

/-- Parameters with the frames of their defaults' closures moved. -/
def relocateParams (place : Slot → Slot) : List (CapsuleParam Value) → List (CapsuleParam Value)
  | [] => []
  | ⟨type, name, none⟩ :: rest => ⟨type, name, none⟩ :: relocateParams place rest
  | ⟨type, name, some d⟩ :: rest =>
    ⟨type, name, some (d.relocate place)⟩ :: relocateParams place rest

end

end Value

/-- A capsule with the frames of its defaults' closures moved. -/
def Capsule.relocate (place : Slot → Slot) (c : Capsule Value) : Capsule Value :=
  { c with params := Value.relocateParams place c.params }

/-- A table with its values moved. -/
def Bindings.relocate (place : Slot → Slot) (b : Bindings) : Bindings :=
  ⟨b.entries.map fun e => (e.1, e.2.relocate place)⟩

/-- The modules with what they export moved. -/
def ModuleCache.relocate (place : Slot → Slot) (c : ModuleCache) : ModuleCache :=
  { c with entries := c.entries.map fun e => (e.1, ⟨e.2.digest, e.2.exports.relocate place⟩) }

/-- A flow with the frames of its closures moved. -/
def Flow.relocate (place : Slot → Slot) : Flow → Flow
  | normal => normal
  | returned vs => returned (Value.relocateAll place vs)

end Playscript

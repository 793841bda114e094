/-
# What results hold

The result of an evaluation may hold values, which have to be held by whoever
goes on with it, and whose closures can be moved. Results of most types hold
none.

Key definitions: `Cargo`, `Outcome.cargo`.
-/
import Playscript.Relocation

namespace Playscript

/-- Results that may hold closures. -/
class Cargo (α : Type) where
  /-- The values to hold so that the closures of a result live. -/
  values : α → List Value
  relocate : (Slot → Slot) → α → α

namespace Cargo

/-- Results that hold no closures. -/
abbrev plain (α : Type) : Cargo α := ⟨fun _ => [], fun _ a => a⟩

instance : Cargo Unit := plain Unit
instance : Cargo Bool := plain Bool
instance : Cargo Float := plain Float
instance : Cargo String := plain String
instance : Cargo Clock := plain Clock
instance : Cargo (List String) := plain (List String)
instance : Cargo Program := plain Program
instance : Cargo Value := ⟨fun v => [v], Value.relocate⟩
instance : Cargo (List Value) := ⟨id, Value.relocateAll⟩
instance : Cargo Bindings := ⟨Bindings.values, Bindings.relocate⟩
instance {α β : Type} [Cargo α] [Cargo β] : Cargo (α × β) :=
  ⟨fun p => values p.1 ++ values p.2, fun place p => (relocate place p.1, relocate place p.2)⟩
instance {α : Type} [Cargo α] : Cargo (Option α) :=
  ⟨fun a? => (a?.map values).getD [], fun place => Option.map (relocate place)⟩

end Cargo

instance : Cargo Flow := ⟨Flow.values, Flow.relocate⟩

/-- The values that an outcome holds. -/
def Outcome.cargo {α : Type} [Cargo α] : Outcome α → List Value
  | done a => Cargo.values a
  | failed _ => []
  | exhausted => []

end Playscript

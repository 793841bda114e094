/-
# The standard modules

The capsules of `std:math` and `std:time`. A capsule is run on its bound
arguments and sees nothing of the script but the clock.
-/
import Playscript.Bindings
import Playscript.Clock
import Playscript.Failure

namespace Playscript

namespace Capsule

/-- A capsule whose parameters have no defaults. -/
def requiring (name : String) (params : List (String × String)) (routine : Routine) :
    Capsule Value :=
  { name, routine, params := params.map fun p => ⟨p.1, p.2, none⟩ }

/-- The arguments of a capsule: what is given, then the defaults. -/
def bind (name : String) : List (CapsuleParam Value) → List Value → Except Failure (List Value)
  | [], _ => return []
  | _ :: ps, v :: vs => return v :: (← bind name ps vs)
  | p :: ps, [] =>
    match p.default? with
    | some d => return d :: (← bind name ps [])
    | none => throw (.missingArgument name p.name)

/-- The argument at a position, which has to be a number. -/
def numberAt (name : String) (args : List Value) (position : Nat) : Except Failure Float :=
  match args[position]? with
  | some (.number x) => return x
  | some v => throw (.capsuleArgument name v.kindName)
  | none => throw (.capsuleMissing name (position + 1))

/-- What a capsule answers, and the clock afterwards. -/
def run (c : Capsule Value) (args : List Value) (clock : Clock) : Except Failure (Value × Clock) :=
  let number := numberAt c.name args
  match c.routine with
  | .abs => return (.number (← number 0).abs, clock)
  | .sqrt => return (.number (← number 0).sqrt, clock)
  | .pow => return (.number ((← number 0).pow (← number 1)), clock)
  | .floor => return (.number (← number 0).floor, clock)
  | .ceil => return (.number (← number 0).ceil, clock)
  | .now => return (.number (Float.ofNat clock.seconds), clock)
  | .date => return (.string clock.date, clock)
  | .sleep => return (.null, clock.sleep (← number 0))
  | .gather => return (.array args, clock)

end Capsule

namespace Library

/-- The capsules of `std:math`. -/
def math : List (Capsule Value) :=
  [.requiring "abs" [("any", "n")] .abs,
   .requiring "sqrt" [("any", "n")] .sqrt,
   .requiring "pow" [("any", "base"), ("any", "exp")] .pow,
   .requiring "floor" [("any", "n")] .floor,
   .requiring "ceil" [("any", "n")] .ceil]

/-- The capsules of `std:time`. -/
def time : List (Capsule Value) :=
  [.requiring "now" [] .now,
   .requiring "date" [] .date,
   .requiring "sleep" [("int", "ms")] .sleep]

/-- The capsules of a module. -/
def capsules? (name : String) : Option (List (Capsule Value)) :=
  if name = "math" then some math else if name = "time" then some time else none

/-- What a module exports. -/
def exports? (name : String) : Option Bindings :=
  (capsules? name).map fun cs => .ofList (cs.map fun c => (c.name, .capsule c))

/-- The capsule with a name, of any module. -/
def capsule? (name : String) : Option (Capsule Value) :=
  (math ++ time).find? fun c => c.name == name

/-- The module a source names, if it names a standard one. -/
def moduleOf? (source : String) : Option String :=
  match source.toList with
  | 's' :: 't' :: 'd' :: ':' :: name => some (String.ofList name)
  | _ => none

end Library

end Playscript

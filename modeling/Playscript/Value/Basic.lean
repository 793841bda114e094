/-
# Values

Numbers, strings, truth values, arrays, and functions of two kinds: closures,
which remember the frame they were made in, and capsules, which the host
offers. Every closure has an identity of its own, given when it is made.
-/
import Playscript.Tree.Basic

namespace Playscript

/-- What a capsule does once its arguments are bound. -/
inductive Routine where
  | abs | sqrt | pow | floor | ceil
  | now | date | sleep
  /-- Answers its arguments as an array. It stands for the functions that a host adds to those of
  the standard modules and that see nothing but their arguments: what it answers holds every closure
  that such a function can answer. A function of a host that changes the run itself is not among
  them. -/
  | gather
deriving DecidableEq, Repr

/-- A parameter of a capsule, with a constant for its default. -/
structure CapsuleParam (V : Type) where
  type : String
  name : String
  default? : Option V

/-- A function of the host. -/
structure Capsule (V : Type) where
  name : String
  params : List (CapsuleParam V)
  routine : Routine

/-- An action together with the frame it was declared in. -/
structure Closure where
  identity : Nat
  name : String
  params : List Param
  body : Block Stmt
  frame : Nat

/-- What expressions evaluate to. -/
inductive Value where
  | null
  | number (x : Float)
  | string (s : String)
  | bool (b : Bool)
  | array (items : List Value)
  | capsule (c : Capsule Value)
  | closure (c : Closure)

instance : Inhabited Value := ⟨.null⟩

namespace Value

/-- The word for a value's kind. -/
def kindName : Value → String
  | null => "null"
  | number _ => "number"
  | string _ => "string"
  | bool _ => "bool"
  | array _ => "array"
  | capsule _ | closure _ => "function"

/-- Whether a condition with this value holds: null, false, zero, what is not a
number, and the empty string fail. -/
def isTruthy : Value → Bool
  | null => false
  | bool b => b
  | number x => x != 0 && !x.isNaN
  | string s => !s.isEmpty
  | array _ | capsule _ | closure _ => true

/-- Whether a value can be called. -/
def isFunction : Value → Bool
  | capsule _ | closure _ => true
  | _ => false

mutual

/-- The closures in a value, also inside arrays. -/
def closures : Value → List Closure
  | closure c => [c]
  | array items => closuresAll items
  | _ => []

/-- The closures in a list of values. -/
def closuresAll : List Value → List Closure
  | [] => []
  | v :: rest => v.closures ++ closuresAll rest

end

mutual

/-- The closures in the defaults of a value's capsules, at any depth. -/
def buried : Value → List Closure
  | capsule ⟨_, params, _⟩ => buriedParams params
  | array items => buriedAll items
  | _ => []

/-- The closures in the defaults of a list of values' capsules. -/
def buriedAll : List Value → List Closure
  | [] => []
  | v :: rest => v.buried ++ buriedAll rest

/-- The closures in the defaults of parameters. -/
def buriedParams : List (CapsuleParam Value) → List Closure
  | [] => []
  | ⟨_, _, none⟩ :: rest => buriedParams rest
  | ⟨_, _, some d⟩ :: rest => d.closures ++ d.buried ++ buriedParams rest

end

/-- Every closure that a value holds. -/
def places (v : Value) : List Closure := v.closures ++ v.buried

/-- Every closure that a list of values holds. -/
def placesAll (vs : List Value) : List Closure := closuresAll vs ++ buriedAll vs

theorem closuresAll_eq_flatMap (vs : List Value) : closuresAll vs = vs.flatMap closures := by
  induction vs with
  | nil => rfl
  | cons v vs ih => simp [closuresAll, ih]

theorem buriedAll_eq_flatMap (vs : List Value) : buriedAll vs = vs.flatMap buried := by
  induction vs with
  | nil => rfl
  | cons v vs ih => simp [buriedAll, ih]

theorem mem_placesAll {c : Closure} {vs : List Value} :
    c ∈ placesAll vs ↔ ∃ v ∈ vs, c ∈ v.places := by
  simp only [placesAll, places, closuresAll_eq_flatMap, buriedAll_eq_flatMap, List.mem_append,
    List.mem_flatMap]
  constructor
  · rintro (⟨v, hv, hc⟩ | ⟨v, hv, hc⟩)
    · exact ⟨v, hv, .inl hc⟩
    · exact ⟨v, hv, .inr hc⟩
  · rintro ⟨v, hv, hc | hc⟩
    · exact .inl ⟨v, hv, hc⟩
    · exact .inr ⟨v, hv, hc⟩

theorem mem_placesAll_cons {c : Closure} {v : Value} {vs : List Value} :
    c ∈ placesAll (v :: vs) ↔ c ∈ v.places ∨ c ∈ placesAll vs := by
  simp [mem_placesAll]

theorem mem_placesAll_append {c : Closure} {vs ws : List Value} :
    c ∈ placesAll (vs ++ ws) ↔ c ∈ placesAll vs ∨ c ∈ placesAll ws := by
  simp [mem_placesAll, or_and_right, exists_or]

/-- What a call gives back: nothing is null, one value is itself, more are an array. -/
def ofReturned : List Value → Value
  | [] => null
  | [v] => v
  | vs => array vs

end Value

end Playscript

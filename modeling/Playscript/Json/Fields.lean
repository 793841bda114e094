/-
# Taking documents apart

A record is an object in which each known key stands at most once, or an array
of its fields in order. A choice is a name, or an object with that one key and
null. Whoever keeps unknown entries for later has to be able to read them
(`isReadable`).
-/
import Playscript.Json.Reader
import Playscript.Number.Reading

namespace Playscript.Json

/-- The text a document is. -/
def text? : Json → Option String
  | string s => s
  | _ => none

/-- The natural number below a limit that a document is: digits and nothing else. -/
def natural? (limit : Nat) : Json → Option Nat
  | number ⟨false, whole, [], none⟩ =>
    let n := Number.naturalOf whole
    if n < limit then some n else none
  | _ => none

/-- The name of the choice that a document is. -/
def choice? : Json → Option String
  | string s => s
  | object [(name, null)] => name
  | _ => none

/-- The items of an array. -/
def items : Json → Option (List Json)
  | array js => some js
  | _ => none

/-- What a null leaves out, and all else read. -/
def optional? {α : Type} (read : Json → Option α) : Json → Option (Option α)
  | null => some none
  | j => (read j).map some

/-! ### Records -/

/-- The entries of an object whose keys can all be read. -/
def entries : Json → Option (List (String × Json))
  | object es => es.mapM fun e => e.1.map (·, e.2)
  | _ => none

/-- The fields of a record in the order of their names, `none` for one that is left out. -/
def fields (names : List String) : Json → Option (List (Option Json))
  | array js =>
    if js.length ≤ names.length then
      some (js.map some ++ List.replicate (names.length - js.length) none)
    else none
  | j => do
    let es ← j.entries
    names.mapM fun name =>
      match es.filter fun e => e.1 = name with
      | [] => some none
      | [e] => some (some e.2)
      | _ => none

/-! ### Readable documents -/

/-- Puts digits behind a number as long as it stays below a limit; answers the number and how
many digits are left. -/
def appendDigits (limit : Nat) : Nat → List Char → Nat × Nat
  | n, [] => (n, 0)
  | n, d :: ds =>
    let m := 10 * n + Number.digitValue d
    if m < limit then appendDigits limit m ds else (n, ds.length + 1)

/-- The largest power of ten that a binary number reaches. -/
def greatestPower : Nat := 308

/-- Whether a number is one of the finite binary numbers: the digits that fit 64 bits, scaled
by a power of ten. -/
def Numeral.isFinite (n : Numeral) : Bool :=
  let (whole, cut) := appendDigits (Nat.pow 2 64) 0 n.whole
  let (significand, unread) := appendDigits (Nat.pow 2 64) whole n.fraction
  let exponent : Int := match n.exponent? with
    | none => 0
    | some (negative, ds) =>
      let e : Int := Number.naturalOf ds
      if negative then -e else e
  let power := exponent + cut - (n.fraction.length - unread : Nat)
  significand == 0 || power < 0 ||
    (power ≤ greatestPower
      && (Float.ofNat significand * Float.ofScientific 1 false power.toNat).isFinite)

mutual

/-- Whether each part of a document can be read: strings are texts, numbers are finite, and no
more than `depth` brackets are open at once. -/
def isReadable : Nat → Json → Bool
  | _, null => true
  | _, bool _ => true
  | _, number n => n.isFinite
  | _, string s => s.isSome
  | 0, array _ => false
  | depth + 1, array js => areReadable depth js
  | 0, object _ => false
  | depth + 1, object es => areReadableEntries depth es

/-- Whether each of a list of documents can be read. -/
def areReadable : Nat → List Json → Bool
  | _, [] => true
  | depth, j :: rest => isReadable depth j && areReadable depth rest

/-- Whether each of a list of entries can be read. -/
def areReadableEntries : Nat → List (Wording × Json) → Bool
  | _, [] => true
  | depth, (key, j) :: rest => key.isSome && isReadable depth j && areReadableEntries depth rest

end

end Playscript.Json

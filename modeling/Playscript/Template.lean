/-
# Templates

A template is a text in which `{{ name }}` stands for a value. A text splits
into single characters and placeholders (`pieces`); where a placeholder is not
complete its first brace is a character like any other, and the next one is
tried. Filled-in text is never looked at again.
-/
import Playscript.Token.Lexeme

namespace Playscript.Template

/-- White space of any script. -/
def isSpace (c : Char) : Bool :=
  let n := c.toNat
  (0x09 ≤ n && n ≤ 0x0d) || n == 0x20 || n == 0x85 || n == 0xa0 || n == 0x1680 ||
    (0x2000 ≤ n && n ≤ 0x200a) || n == 0x2028 || n == 0x2029 || n == 0x202f || n == 0x205f ||
    n == 0x3000

/-- A name at the start of a text, and the rest. -/
def name? : List Char → Option (List Char × List Char)
  | [] => none
  | c :: rest =>
    if startsName c then some (c :: rest.takeWhile continuesName, rest.dropWhile continuesName)
    else none

/-- Two closing braces at the start of a text, and the rest. -/
def close? : List Char → Option (List Char)
  | '}' :: '}' :: rest => some rest
  | _ => none

/-- A placeholder. -/
structure Placeholder where
  name : List Char
  /-- The placeholder as it is written, with its blanks. -/
  written : List Char
deriving DecidableEq, Repr

/-- A placeholder at the start of a text, and the rest. -/
def placeholder? : List Char → Option (Placeholder × List Char)
  | '{' :: '{' :: inside => do
    let (name, afterName) ← name? (inside.dropWhile isSpace)
    let rest ← close? (afterName.dropWhile isSpace)
    let between := inside.takeWhile isSpace ++ name ++ afterName.takeWhile isSpace
    return (⟨name, '{' :: '{' :: between ++ ['}', '}']⟩, rest)
  | _ => none

theorem close?_smaller {s rest : List Char} (h : close? s = some rest) :
    rest.length + 2 = s.length := by
  unfold close? at h
  split at h
  · cases h; rfl
  · cases h

theorem name?_smaller {s name rest : List Char} (h : name? s = some (name, rest)) :
    rest.length < s.length := by
  unfold name? at h
  split at h
  · cases h
  · split at h
    · cases h
      exact Nat.lt_succ_of_le (List.dropWhile_sublist _).length_le
    · cases h

theorem placeholder?_smaller {s rest : List Char} {p : Placeholder}
    (h : placeholder? s = some (p, rest)) : rest.length < s.length := by
  unfold placeholder? at h
  split at h
  · rename_i inside
    simp only [bind, Option.bind] at h
    split at h
    · cases h
    · rename_i found hp
      obtain ⟨n, afterName⟩ := found
      simp only at h
      split at h
      · cases h
      · rename_i r hr
        cases h
        have h1 := name?_smaller hp
        have h2 := close?_smaller hr
        have h3 := (List.dropWhile_sublist (l := inside) isSpace).length_le
        have h4 := (List.dropWhile_sublist (l := afterName) isSpace).length_le
        simp only [List.length_cons]; omega
  · cases h

/-- A part of a template. -/
inductive Piece where
  | char (c : Char)
  | placeholder (p : Placeholder)
deriving DecidableEq, Repr

/-- The parts of a text, in order. -/
def pieces : List Char → List Piece
  | [] => []
  | c :: rest =>
    match _h : placeholder? (c :: rest) with
    | some (p, after) => .placeholder p :: pieces after
    | none => .char c :: pieces rest
termination_by s => s.length
decreasing_by
  · exact placeholder?_smaller _h
  · simp

/-- A part with its placeholder filled in, or as it is written if its name has no value. -/
def Piece.fill (value? : String → Option String) : Piece → List Char
  | char c => [c]
  | placeholder p =>
    match value? (String.ofList p.name) with
    | some v => v.toList
    | none => p.written

/-- The name that a part asks for. -/
def Piece.name? : Piece → Option String
  | char _ => none
  | placeholder p => some (String.ofList p.name)

/-- The names a text asks for, in order. -/
def names (text : String) : List String := (pieces text.toList).filterMap Piece.name?

/-- A text with its placeholders filled in. -/
def fill (value? : String → Option String) (text : String) : String :=
  String.ofList ((pieces text.toList).flatMap (Piece.fill value?))

end Playscript.Template

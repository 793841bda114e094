/-
# A named text and its lines

Lines are cut at line feeds, so a text has one line more than it has line
feeds (`Source.lineCount_eq`). A line is shown without the carriage returns it
ends in.
-/
import Playscript.Source.Span

namespace Playscript

/-- The lines of a text, without their line feeds. -/
def linesOf : List Char → List (List Char)
  | [] => [[]]
  | c :: rest =>
    if c = '\n' then [] :: linesOf rest
    else match linesOf rest with
      | [] => [[c]]
      | line :: others => (c :: line) :: others

theorem length_linesOf (cs : List Char) : (linesOf cs).length = cs.count '\n' + 1 := by
  induction cs with
  | nil => rfl
  | cons c rest ih =>
    by_cases h : c = '\n'
    · simp [linesOf, h, ih]
    · have : (linesOf rest) ≠ [] := by
        intro he; simp [he] at ih
      simp only [linesOf, h, ↓reduceIte]
      split
      · contradiction
      · rename_i line others he
        simp [he] at ih
        simp [ih, h]

/-- A text without the characters `c` it ends in. -/
def dropTrailing (c : Char) (cs : List Char) : List Char :=
  (cs.reverse.dropWhile (· == c)).reverse

/-- The text of a script together with the name it is reported under. -/
structure Source where
  name : String
  text : String

namespace Source

/-- How many lines the text has. -/
def lineCount (s : Source) : Nat := (linesOf s.text.toList).length

theorem lineCount_eq (s : Source) : s.lineCount = s.text.toList.count '\n' + 1 :=
  length_linesOf _

/-- Line `n`, counted from 1, as it is shown. -/
def line? (s : Source) (n : Nat) : Option String :=
  if n = 0 then none
  else (linesOf s.text.toList)[n - 1]?.map fun cs => String.ofList (dropTrailing '\r' cs)

/-- The line a place is on, or nothing past the end. -/
def lineAt (s : Source) (p : Place) : String := (s.line? p.line).getD ""

end Source

end Playscript

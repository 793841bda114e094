/-
# Diagnostics of the text

A diagnostic names a file, a code, a message and a span, and shows the line it
is about. A log keeps the first `Log.capacity` diagnostics and counts them all
(`Log.ofList_kept`, `Log.ofList_total`).
-/
import Playscript.Source.Text

namespace Playscript

/-- Which reading of the text a diagnostic belongs to. -/
inductive Category where
  | lexical
  | grammar
deriving DecidableEq, Repr

namespace Category

/-- The word for a category. -/
def word : Category → String
  | lexical => "lexical"
  | grammar => "syntax"

/-- The category of a word. -/
def ofWord? (w : String) : Option Category :=
  if w = lexical.word then some lexical
  else if w = grammar.word then some grammar
  else none

end Category

/-- The number of a diagnostic. -/
structure Code where
  number : Nat
deriving DecidableEq, Repr

namespace Code

def unexpectedCharacter : Code := ⟨100⟩
def unexpectedToken : Code := ⟨101⟩
def invalidTarget : Code := ⟨102⟩
def expectedExpression : Code := ⟨103⟩

/-- Only an unexpected character is lexical. -/
def category (c : Code) : Category := if c = unexpectedCharacter then .lexical else .grammar

/-- A code is written after an `E`. -/
def text (c : Code) : String := s!"E{c.number}"

end Code

/-- One fault of a text. -/
structure Diagnostic where
  file : String
  code : Code
  category : Category
  message : String
  span : Span
  sourceLine : String
  suggestion? : Option String
deriving DecidableEq, Repr

namespace Diagnostic

/-- A fault found in a source, shown with the line it starts on. -/
def inSource (source : Source) (code : Code) (message : String) (span : Span)
    (suggestion? : Option String) : Diagnostic :=
  { file := source.name, code, category := code.category, message, span
    sourceLine := source.lineAt span.start, suggestion? }

/-- The one-line form of a diagnostic. -/
def text (d : Diagnostic) : String :=
  s!"{d.file}:{d.span.text}: {d.code.text} [{d.category.word}] {d.message}"

/-- The lines a person reads: the diagnostic, its source line and the help. -/
def report (d : Diagnostic) : List String :=
  [d.text]
    ++ (if d.sourceLine.isEmpty then [] else ["    " ++ d.sourceLine])
    ++ d.suggestion?.toList.map ("    help: " ++ ·)

end Diagnostic

/-- Diagnostics in the order they were found. -/
structure Log where
  kept : List Diagnostic
  total : Nat
deriving DecidableEq, Repr

namespace Log

/-- How many diagnostics a log keeps. -/
def capacity : Nat := 20

def empty : Log := ⟨[], 0⟩

/-- Counts a diagnostic, and keeps it while there is room. -/
def push (l : Log) (d : Diagnostic) : Log :=
  ⟨if l.kept.length < capacity then l.kept ++ [d] else l.kept, l.total + 1⟩

def ofList (ds : List Diagnostic) : Log := ds.foldl push empty

/-- Whether anything was found. -/
def isFaulty (l : Log) : Bool := 0 < l.total

theorem foldl_push_total (ds : List Diagnostic) (l : Log) :
    (ds.foldl push l).total = l.total + ds.length := by
  induction ds generalizing l with
  | nil => rfl
  | cons d ds ih => simp only [List.foldl_cons, ih, push, List.length_cons]; omega

theorem foldl_push_kept (ds : List Diagnostic) (l : Log) (h : l.kept.length ≤ capacity) :
    (ds.foldl push l).kept = l.kept ++ ds.take (capacity - l.kept.length) := by
  induction ds generalizing l with
  | nil => simp
  | cons d ds ih =>
    simp only [List.foldl_cons]
    by_cases hl : l.kept.length < capacity
    · have hp : (push l d).kept.length ≤ capacity := by
        simp only [push, hl, ↓reduceIte, List.length_append, List.length_singleton]; omega
      rw [ih _ hp]
      have : capacity - l.kept.length = (capacity - (l.kept.length + 1)) + 1 := by omega
      simp [push, hl, this, List.take_succ_cons]
    · rw [ih _ (by simpa [push, hl] using h)]
      have : capacity - l.kept.length = 0 := by omega
      simp [push, hl, this]

@[simp] theorem ofList_total (ds : List Diagnostic) : (ofList ds).total = ds.length := by
  simp [ofList, foldl_push_total, empty]

@[simp] theorem ofList_kept (ds : List Diagnostic) : (ofList ds).kept = ds.take capacity := by
  simp [ofList, foldl_push_kept, empty]

end Log

end Playscript

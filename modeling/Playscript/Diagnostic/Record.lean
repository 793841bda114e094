/-
# Diagnostics as JSON

A diagnostic is an object whose span is spread over four fields; the help is
there only if there is one. A log is the list of what it keeps and the count of
all. What is written can be read back, and so can objects with other entries
among the known ones.
-/
import Playscript.Diagnostic
import Playscript.Json.Fields

namespace Playscript

namespace Diagnostic

/-- The fields of a diagnostic, in order. -/
def toJson (d : Diagnostic) : Json :=
  .ofFields <|
    [("file", .ofText d.file), ("code", .ofNat d.code.number),
     ("category", .ofText d.category.word), ("message", .ofText d.message),
     ("line", .ofNat d.span.start.line), ("column", .ofNat d.span.start.column),
     ("end_line", .ofNat d.span.stop.line), ("end_column", .ofNat d.span.stop.column),
     ("source_line", .ofText d.sourceLine)]
      ++ d.suggestion?.toList.map (("suggestion", .ofText ·))

/-- The names of the fields. -/
def fieldNames : List String :=
  ["file", "code", "category", "message", "line", "column", "end_line", "end_column",
   "source_line", "suggestion"]

/-- How deep other entries of a diagnostic may be nested, so that no more than 127 brackets of
a log are open at once. -/
def depthOfOthers : Nat := 124

/-- The span of four fields, each below `2 ^ 32`. -/
def spanOf? (line column endLine endColumn : Json) : Option Span := do
  let coordinate := Json.natural? (Nat.pow 2 32)
  return ⟨⟨← coordinate line, ← coordinate column⟩, ⟨← coordinate endLine, ← coordinate endColumn⟩⟩

/-- A diagnostic as JSON; only an object is one. All of its entries have to be readable. -/
def ofJson? (j : Json) : Option Diagnostic := do
  let es ← j.entries
  guard (es.all fun e => e.2.isReadable depthOfOthers)
  match ← j.fields fieldNames with
  | [some file, some code, some category, some message, some line, some column, some endLine,
      some endColumn, some sourceLine, suggestion] =>
    return {
      file := ← file.text?
      code := ⟨← code.natural? (Nat.pow 2 16)⟩
      category := ← category.choice?.bind Category.ofWord?
      message := ← message.text?
      span := ← spanOf? line column endLine endColumn
      sourceLine := ← sourceLine.text?
      suggestion? := (← suggestion.mapM (Json.optional? Json.text?)).join }
  | _ => none

end Diagnostic

namespace Log

/-- The fields of a log, in order. -/
def toJson (l : Log) : Json :=
  .ofFields
    [("errors", .array (l.kept.map Diagnostic.toJson)), ("total_errors", .ofNat l.total)]

/-- A log as JSON; its count is below `2 ^ 64`. -/
def ofJson? (j : Json) : Option Log := do
  match ← j.fields ["errors", "total_errors"] with
  | [some errors, some total] =>
    return ⟨← (← errors.items).mapM Diagnostic.ofJson?, ← total.natural? (Nat.pow 2 64)⟩
  | _ => none

end Log

end Playscript

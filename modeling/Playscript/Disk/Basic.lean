/-
# What a script sees of a disk

Paths resolve to canonical ones, and files are read as text. Nothing else of
a disk is visible to a script.
-/
namespace Playscript

/-- Why a file cannot be read. -/
inductive ReadError where
  | missing
  | notDirectory
  | isDirectory
  | notText
deriving DecidableEq, Repr

namespace ReadError

/-- The wording of the system. -/
def message : ReadError → String
  | missing => "No such file or directory (os error 2)"
  | notDirectory => "Not a directory (os error 20)"
  | isDirectory => "Is a directory (os error 21)"
  | notText => "stream did not contain valid UTF-8"

end ReadError

/-- A disk as a script sees it. -/
structure Disk where
  /-- The one path that every path to the same place resolves to; none where there is
  nothing. -/
  canonical? : String → Option String
  /-- The text of the file a path names. -/
  read : String → Except ReadError String

end Playscript

/-
# Snapshots of a disk

What was found under a number of paths, as tables. A path outside of the tables
leads nowhere.
-/
import Playscript.Disk.Basic

namespace Playscript

/-- What was found under paths. -/
structure Snapshot where
  /-- The canonical path of each path; none where there is nothing. -/
  places : List (String × Option String)
  /-- What reading each path gave. -/
  texts : List (String × Except ReadError String)

namespace Snapshot

def empty : Snapshot := ⟨[], []⟩

/-- Whether a path was looked up. -/
def hasPlace (s : Snapshot) (path : String) : Bool := (s.places.lookup path).isSome

/-- Whether a path was read. -/
def hasText (s : Snapshot) (path : String) : Bool := (s.texts.lookup path).isSome

/-- Notes where a path leads. -/
def addPlace (s : Snapshot) (path : String) (place? : Option String) : Snapshot :=
  { s with places := (path, place?) :: s.places }

/-- Notes what reading a path gave. -/
def addText (s : Snapshot) (path : String) (text : Except ReadError String) : Snapshot :=
  { s with texts := (path, text) :: s.texts }

/-- The disk of which a snapshot was taken. -/
def disk (s : Snapshot) : Disk where
  canonical? path := (s.places.lookup path).join
  read path := (s.texts.lookup path).getD (.error .missing)

end Snapshot

end Playscript

/-
# Paths

A path is a text whose parts stand between slashes. Empty parts and dots say
nothing, except for a dot that a relative path starts with. `parent?` keeps the
text before the last part that says something, `join` reads a path from within
a directory.
-/
namespace Playscript.Path

/-- The texts between slashes. -/
def parts (path : List Char) : List (List Char) :=
  match path with
  | [] => [[]]
  | c :: rest =>
    if c = '/' then [] :: parts rest
    else match parts rest with
      | [] => [[c]]
      | p :: ps => (c :: p) :: ps

/-- Parts with slashes between them. -/
def unparts : List (List Char) → List Char
  | [] => []
  | [p] => p
  | p :: ps => p ++ '/' :: unparts ps

/-- Whether a path starts at the root. -/
def isAbsolute (path : String) : Bool := path.toList.head? == some '/'

/-- Whether a part after the first one says nothing. -/
def isIdle (part : List Char) : Bool := part == [] || part == ['.']

/-- A list without the idle parts it ends in. -/
def dropIdle (ps : List (List Char)) : List (List Char) :=
  (ps.reverse.dropWhile isIdle).reverse

/-- The path of the directory that holds what a path names; none for the root and for the
empty path. -/
def parent? (path : String) : Option String :=
  match parts path.toList with
  | [] => none
  | first :: others =>
    match dropIdle others with
    | [] => if first = [] then none else some ""
    | o :: os =>
      let before := first :: dropIdle ((o :: os).dropLast)
      some (String.ofList (if before = [[]] then ['/'] else unparts before))

/-- A path read from within a directory. -/
def join (directory path : String) : String :=
  if isAbsolute path || directory.isEmpty then path
  else if directory.toList.getLast? == some '/' then directory ++ path
  else directory ++ "/" ++ path

end Playscript.Path

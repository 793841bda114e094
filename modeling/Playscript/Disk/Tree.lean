/-
# Files and directories as a tree

A tree of directories without links. A path is followed part by part from the
root or from the working directory, and every part has to be looked up in
a directory that exists: `..` after a file leads nowhere.
-/
import Playscript.Disk.Basic
import Playscript.Disk.Path

namespace Playscript

/-- A file or a directory. -/
inductive FileTree where
  | file (bytes : ByteArray)
  | directory (entries : List (String × FileTree))

namespace FileTree

def empty : FileTree := directory []

instance : Inhabited FileTree := ⟨empty⟩

/-- The entries of a directory; a file has none. -/
def entries : FileTree → List (String × FileTree)
  | file _ => []
  | directory es => es

/-- The entry with a name. -/
def child? (t : FileTree) (name : String) : Option FileTree := t.entries.lookup name

/-- The tree at the end of a row of names. -/
def find? : List String → FileTree → Option FileTree
  | [], t => some t
  | n :: ns, t => (t.child? n).bind (find? ns)

/-- A directory with an entry set, or removed. -/
def setChild (t : FileTree) (name : String) (child? : Option FileTree) : FileTree :=
  let others := t.entries.filter fun e => e.1 != name
  directory (child?.toList.map (name, ·) ++ others)

/-- Changes what stands at the end of a row of names, and makes the directories on the way. -/
def alter (f : Option FileTree → Option FileTree) : List String → FileTree → FileTree
  | [], t => (f (some t)).getD empty
  | [n], t => t.setChild n (f (t.child? n))
  | n :: ns, t => t.setChild n (some (alter f ns ((t.child? n).getD empty)))

/-- Puts a file there. -/
def writeFile (names : List String) (bytes : ByteArray) : FileTree → FileTree :=
  alter (fun _ => some (file bytes)) names

/-- Makes a directory there unless there is one. -/
def makeDirectory (names : List String) : FileTree → FileTree :=
  alter (fun
    | some (directory es) => some (directory es)
    | _ => some empty) names

/-- Removes what is there. -/
def remove (names : List String) : FileTree → FileTree := alter (fun _ => none) names

/-- Whether a file stands there. -/
def isFile (t : FileTree) (names : List String) : Bool :=
  match t.find? names with
  | some (file _) => true
  | _ => false

/-! ### Following paths -/

/-- One part of a path, looked up where `names` lead to. -/
def step (t : FileTree) (names : List String) (part : String) : Except ReadError (List String) :=
  match t.find? names with
  | none => throw .missing
  | some (file _) => throw .notDirectory
  | some (directory es) =>
    if part = "" || part = "." then return names
    else if part = ".." then return names.dropLast
    else if (es.lookup part).isSome then return names ++ [part]
    else throw .missing

/-- Where a path leads from a working directory. -/
def resolve (t : FileTree) (working : List String) (path : String) :
    Except ReadError (List String) :=
  if path.isEmpty then throw .missing
  else
    let start := if Path.isAbsolute path then [] else working
    ((Path.parts path.toList).map String.ofList).foldlM t.step start

/-- The canonical path of a row of names. -/
def pathOf (names : List String) : String :=
  if names = [] then "/" else names.foldl (fun p n => p ++ "/" ++ n) ""

/-- The text of the file a path leads to. -/
def read (t : FileTree) (working : List String) (path : String) : Except ReadError String := do
  match t.find? (← t.resolve working path) with
  | some (file bytes) =>
    match String.fromUTF8? bytes with
    | some text => return text
    | none => throw .notText
  | some (directory _) => throw .isDirectory
  | none => throw .missing

/-- The tree as a script sees it from a working directory. -/
def disk (t : FileTree) (working : List String) : Disk where
  canonical? path := (t.resolve working path).toOption.map pathOf
  read := t.read working

end FileTree

end Playscript

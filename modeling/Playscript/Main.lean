/-
# The program

Takes a snapshot of the files that a script can ask for, runs the command on
it, and writes the transcript.
-/
import Playscript.Command
import Playscript.Disk.Snapshot
import Playscript.Tree.Imports
import Std.Time.Zoned

namespace Playscript

namespace Main

/-- Why the system refused to read a file. -/
def readErrorOf : IO.Error → ReadError
  | .inappropriateType _ code _ => if code = 20 then .notDirectory else .isDirectory
  | _ => .missing

/-- The text of a file. -/
def readFile (path : String) : IO (Except ReadError String) := do
  try
    match String.fromUTF8? (← IO.FS.readBinFile path) with
    | some text => return .ok text
    | none => return .error .notText
  catch e => return .error (readErrorOf e)

/-- The canonical path of a path. -/
def canonical? (path : String) : IO (Option String) := do
  try return some (← IO.FS.realPath path).toString
  catch _ => return none

/-- The clock of the system. -/
def systemClock : IO Clock := do
  let now ← Std.Time.Timestamp.now
  let lead ← try
      let rules ← Std.Time.Database.defaultGetLocalZoneRules
      pure (rules.timezoneAt now).offset.second.val
    catch _ => pure 0
  return ⟨now.toNanosecondsSinceUnixEpoch.val.toNat, lead⟩

/-- The sources that a text imports from. -/
def sourcesOf (path text : String) : List String :=
  match (Program.ofSource ⟨path, text⟩).1 with
  | .ok program => program.sources
  | .error _ => []

/-- Takes in the files that imports of any of the sources from any of the directories lead
to, and what those import in turn. -/
partial def gather (directories sources : List String) (s : Snapshot) : IO Snapshot := do
  let paths := directories.flatMap fun d => sources.map (Path.join d)
  match paths.find? fun path => !s.hasPlace path with
  | none => return s
  | some path =>
    let place? ← canonical? path
    let s := s.addPlace path place?
    match place? with
    | none => gather directories sources s
    | some file =>
      let s ← if s.hasText file then pure s else s.addText file <$> readFile file
      let found := match s.disk.read file with
        | .ok text => sourcesOf file text
        | .error _ => []
      let directory := (Path.parent? file).toList
      gather (directories ++ directory.filter fun d => !directories.contains d)
        (sources ++ found.filter fun f => !sources.contains f) s

/-- The files that an invocation can ask for. -/
def snapshot (i : Invocation) : IO Snapshot := do
  let mut s := Snapshot.empty
  for path in i.script :: i.overlay?.toList do
    s := s.addText path (← readFile path)
  match s.disk.read i.script, i.settings s.disk with
  | .ok text, .ok settings => gather [settings.baseDirectory] (sourcesOf i.script text) s
  | _, _ => return s

end Main

end Playscript

open Playscript in
/-- Runs the command on the arguments. -/
def main (arguments : List String) : IO UInt32 := do
  match Invocation.ofArguments? arguments with
  | none =>
    IO.eprintln Invocation.usage
    return 2
  | some i =>
    let s ← Main.snapshot i
    let transcript := i.perform Interpreter.wideBound (← Main.systemClock) s.disk
    transcript.output.forM IO.println
    IO.sleep (transcript.slept / 1000000).toUInt32
    transcript.errors.forM IO.eprintln
    return if transcript.succeeded then 0 else 1

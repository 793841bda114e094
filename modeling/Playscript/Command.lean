/-
# The command

`run FILE [--json] [--config FILE]` runs a script and leaves a transcript: the
lines for each stream and whether all went well. Faults of the text are
reported before anything runs, each with its line and the help, or as one JSON
document.
-/
import Playscript.Diagnostic.Record
import Playscript.Interpreter
import Playscript.Settings.Reading

namespace Playscript

/-- What is asked of the command. -/
structure Invocation where
  script : String
  /-- Report faults of the text as JSON. -/
  asJson : Bool
  /-- The file of settings to lay over those of the script. -/
  overlay? : Option String
deriving DecidableEq, Repr

/-- What a command leaves behind. -/
structure Transcript where
  output : List String
  errors : List String
  succeeded : Bool
  /-- How long the script slept, in nanoseconds. -/
  slept : Nat
deriving DecidableEq, Repr

namespace Invocation

/-! ### Arguments -/

/-- The arguments read so far. -/
structure Draft where
  script? : Option String
  asJson : Bool
  overlay? : Option String

/-- Takes the path of the script; there is one, and it is not empty. -/
def Draft.addScript (d : Draft) (path : String) : Option Draft :=
  if d.script?.isSome || path.isEmpty then none else some { d with script? := some path }

/-- Takes the path of the settings; there is one at most, and it is not empty. -/
def Draft.addOverlay (d : Draft) (path : String) : Option Draft :=
  if d.overlay?.isSome || path.isEmpty then none else some { d with overlay? := some path }

/-- Asks for JSON, which is done once at most. -/
def Draft.addJson (d : Draft) : Option Draft :=
  if d.asJson then none else some { d with asJson := true }

/-- Whether an argument is an option rather than a value; a hyphen alone is a value. -/
def isOption (argument : String) : Bool :=
  match argument.toList with
  | '-' :: _ :: _ => true
  | _ => false

/-- The value in an argument of the form `--config=FILE`. -/
def overlayIn? (argument : String) : Option String :=
  let option := "--config=".toList
  if option.isPrefixOf argument.toList then
    some (String.ofList (argument.toList.drop option.length))
  else none

/-- Reads arguments; after two hyphens all of them are paths. -/
def Draft.addAll (d : Draft) : List String → Option Draft
  | [] => some d
  | a :: rest =>
    if a = "--" then rest.foldlM addScript d
    else if a = "--json" then d.addJson.bind fun d => d.addAll rest
    else if a = "--config" then
      match rest with
      | path :: rest =>
        if isOption path then none else (d.addOverlay path).bind fun d => d.addAll rest
      | [] => none
    else match overlayIn? a with
      | some path => (d.addOverlay path).bind fun d => d.addAll rest
      | none => if isOption a then none else (d.addScript a).bind fun d => d.addAll rest

/-- What the arguments of the command ask for. -/
def ofArguments? : List String → Option Invocation
  | "run" :: rest => do
    let d ← Draft.addAll ⟨none, false, none⟩ rest
    return ⟨← d.script?, d.asJson, d.overlay?⟩
  | _ => none

/-- How to ask. -/
def usage : String := "usage: run FILE [--json] [--config FILE]"

/-! ### Running -/

/-- The settings of a run: those of the script under those of the overlay. -/
def settings (i : Invocation) (disk : Disk) : Except Settings.LoadError Settings := do
  let own := Settings.forScript i.script
  match i.overlay? with
  | none => return own
  | some path => return (← Settings.load Settings.Overlay.ofJson? disk path).apply own

/-- The lines that report a log. -/
def report (i : Invocation) (log : Log) : List String :=
  if !log.isFaulty then []
  else if i.asJson then [log.toJson.render]
  else log.kept.flatMap Diagnostic.report

/-- The transcript of a command that ran nothing. -/
def refused (errors : List String) : Transcript := ⟨[], errors, false, 0⟩

/-- The line for a script that cannot be read. -/
def unreadableScript (path : String) : String :=
  s!"Failed to read the input file '{path}'. Perhaps this file does not exist?"

/-- Runs a program after some lines were reported of its text. -/
def runProgram (bound : Nat) (clock : Clock) (host : Host) (reported : List String)
    (program : Program) : Transcript :=
  let (outcome, i) := (Interpreter.start clock).interpret bound host program
  { output := i.machine.output.toList
    errors := reported ++ i.machine.errors.toList
    succeeded := outcome.isDone && !i.hasErrors
    slept := i.machine.clock.nanoseconds - clock.nanoseconds }

/-- Runs a script. -/
def perform (i : Invocation) (bound : Nat) (clock : Clock) (disk : Disk) : Transcript :=
  match disk.read i.script, i.settings disk with
  | .error _, _ => refused [unreadableScript i.script]
  | _, .error e => refused [e.message]
  | .ok text, .ok settings =>
    let (program, log) := Program.ofSource ⟨settings.fileName, text⟩
    let reported := i.report log
    match program with
    | .ok program => runProgram bound clock ⟨settings, disk, true⟩ reported program
    | .error d => refused (reported ++ i.report (.ofList [d]))

end Invocation

end Playscript

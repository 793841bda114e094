/-
# Interpreters

An interpreter runs one program after another on one machine and keeps the
reports of those that failed. `interpret` reports the first failure of
a program and `run` answers it; both stop there and then reclaim what nothing
reaches. Statements, expressions and calls can also be run on their own.

Where a failure was located is pending until it is reported. While one is pending
no other takes its place; `interpret` and `run` start with none.

The bound limits the depth of calls, and the length of loops, of a single run.
-/
import Playscript.Machine.Evaluator

namespace Playscript

/-- A machine between programs, what was reported of the programs before, and the values that
the host keeps of earlier answers. -/
structure Interpreter where
  machine : Machine
  reports : Array Report
  held : List Value
  /-- The file and the span of the innermost node that raised the pending failure. -/
  pending? : Option Site

namespace Interpreter

/-- An interpreter that has run nothing. -/
def start (clock : Clock) : Interpreter := ⟨.start clock, #[], [], none⟩

/-- A bound that no program of a reasonable length of run exceeds. -/
def wideBound : Nat := Nat.pow 10 15

/-- Runs an evaluation on the interpreter's machine. Where its failure is located is pending
afterwards, unless an earlier one is. -/
def perform {α : Type} (i : Interpreter) (host : Host) (x : Eval α) : Outcome α × Interpreter :=
  let (outcome, machine) := x.run host i.held i.machine
  (outcome, { i with machine, pending? := i.pending?.or outcome.site? })

/-- Forgets the pending failure. -/
def cleared (i : Interpreter) : Interpreter := { i with pending? := none }

@[simp] theorem machine_cleared (i : Interpreter) : i.cleared.machine = i.machine := rfl

@[simp] theorem held_cleared (i : Interpreter) : i.cleared.held = i.held := rfl

/-- Runs the statements of a program; a `return` among them fails there. -/
def runTop (bound : Nat) : List Stmt → Eval Unit
  | [] => return
  | s :: rest => do
    match ← Eval.execute bound s with
    | .normal => runTop bound rest
    | .returned _ => Eval.claiming s.span (Eval.fail .returnOutside)

/-- Notes a failure of a program where the pending one is located, and writes its line. -/
def report (i : Interpreter) (host : Host) (program : Program) (failure : Failure) : Interpreter :=
  let site := i.pending?.getD ⟨host.settings.fileName, program.span⟩
  let entry : Report := ⟨site, failure.message⟩
  { i.cleared with
    machine := { i.machine with errors := i.machine.errors.push entry.text }
    reports := i.reports.push entry }

/-- Reclaims what nothing reaches while some more values are held. -/
def collect (i : Interpreter) (host : Host) (held : List Value) : Interpreter :=
  { i with machine := i.machine.collect host (held ++ i.held) }

/-- Runs a program and reports its first failure. -/
def interpret (bound : Nat) (i : Interpreter) (host : Host) (program : Program) :
    Outcome Unit × Interpreter :=
  match i.cleared.perform host (runTop bound program.body) with
  | (.done (), i) => (.done (), i.collect host [])
  | (.failed fault, i) => (.done (), (i.report host program fault.failure).collect host [])
  | (.exhausted, i) => (.exhausted, i.collect host [])

/-- Runs a program and answers its first failure. What an escaped `return` carries is held
while frames are reclaimed. -/
def run (bound : Nat) (i : Interpreter) (host : Host) (program : Program) :
    Outcome Unit × Interpreter :=
  match i.cleared.perform host (Eval.executeAll bound program.body) with
  | (.done .normal, i) => (.done (), i.collect host [])
  | (.done (.returned vs), i) => (.failed (.raised .returnOutside), i.collect host vs)
  | (.failed fault, i) => (.failed fault, i.collect host [])
  | (.exhausted, i) => (.exhausted, i.collect host [])

/-- Runs one statement. -/
def execute (bound : Nat) (i : Interpreter) (host : Host) (s : Stmt) : Outcome Flow × Interpreter :=
  i.perform host (Eval.execute bound s)

/-- Evaluates one expression. -/
def evaluate (bound : Nat) (i : Interpreter) (host : Host) (e : Expr) :
    Outcome Value × Interpreter :=
  i.perform host (Eval.evaluate bound e)

/-- Calls a function on arguments. The function is in hand meanwhile. -/
def call (bound : Nat) (i : Interpreter) (host : Host) (f : Value) (args : List Value) :
    Outcome Value × Interpreter :=
  i.perform host (Eval.holding [f] (Eval.call bound f args))

/-- Calls a capsule on arguments that are bound already. -/
def runCapsule (i : Interpreter) (host : Host) (c : Capsule Value) (args : List Value) :
    Outcome Value × Interpreter :=
  i.perform host (Eval.runCapsule c args)

/-- The value of a name in the scope in use. -/
def global? (i : Interpreter) (name : String) : Option Value := i.machine.get? name

/-- Whether anything was reported. -/
def hasErrors (i : Interpreter) : Bool := !i.reports.isEmpty

/-- How many scopes the arena holds. -/
def frameCount (i : Interpreter) : Nat := i.machine.arena.size

/-- Forgets the modules that have run. -/
def invalidateModules (i : Interpreter) : Interpreter :=
  { i with machine := { i.machine with modules := i.machine.modules.clear } }

/-- Writes what was found wrong in the characters of a source. -/
def reportLog (i : Interpreter) (log : Log) : Interpreter :=
  { i with machine :=
    { i.machine with errors := (log.kept.map Diagnostic.text).foldl Array.push i.machine.errors } }

end Interpreter

end Playscript

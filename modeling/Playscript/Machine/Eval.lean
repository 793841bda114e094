/-
# Evaluations

An evaluation reads a host and the values that are held while it runs, changes
a machine, and is done with a result, fails, or was given too small a bound on
its depth. The machine is there in each case: what a script did before it
failed stays done.
-/
import Playscript.Machine.State
import Playscript.Failure
import Playscript.Library

namespace Playscript

/-- How an evaluation ends. -/
inductive Outcome (α : Type) where
  | done (result : α)
  | failed (fault : Fault)
  /-- The bound on the depth of calls was too small. -/
  | exhausted

/-- Whether an evaluation came to a result. -/
def Outcome.isDone {α : Type} : Outcome α → Bool
  | done _ => true
  | failed _ => false
  | exhausted => false

/-- Where the failure of an evaluation has been located. -/
def Outcome.site? {α : Type} : Outcome α → Option Site
  | done _ => none
  | failed fault => fault.site?
  | exhausted => none

/-- An outcome with its result changed. -/
def Outcome.map {α β : Type} (f : α → β) : Outcome α → Outcome β
  | done a => done (f a)
  | failed fault => failed fault
  | exhausted => exhausted

/-- An evaluation with a result. -/
def Eval (α : Type) : Type := Host → List Value → Machine → Outcome α × Machine

namespace Eval

/-- Runs an evaluation. -/
def run {α : Type} (x : Eval α) (host : Host) (held : List Value) (m : Machine) :
    Outcome α × Machine := x host held m

/-- Done at once. -/
@[always_inline, inline] protected def pure {α : Type} (a : α) : Eval α := fun _ _ m => (.done a, m)

/-- One evaluation after another; the first that is not done ends both. -/
@[always_inline, inline] protected def bind {α β : Type} (x : Eval α) (f : α → Eval β) : Eval β :=
  fun host held m =>
    match x host held m with
    | (.done a, m) => f a host held m
    | (.failed fault, m) => (.failed fault, m)
    | (.exhausted, m) => (.exhausted, m)

instance : Monad Eval where
  pure := Eval.pure
  bind := Eval.bind

/-- Ends for lack of depth. -/
def exhausted {α : Type} : Eval α := fun _ _ m => (.exhausted, m)

/-- Ends with a failure that no node has claimed. -/
def fail {α : Type} (failure : Failure) : Eval α := fun _ _ m => (.failed (.raised failure), m)

/-- The machine. -/
@[always_inline, inline] def machine : Eval Machine := fun _ _ m => (.done m, m)

/-- The host. -/
@[always_inline, inline] def host : Eval Host := fun host _ m => (.done host, m)

/-- Changes the machine. -/
@[always_inline, inline] def change (f : Machine → Machine) : Eval Unit :=
  fun _ _ m => (.done (), f m)

/-- A result that may be a failure. -/
def ofExcept {α : Type} : Except Failure α → Eval α
  | .ok a => pure a
  | .error e => fail e

/-- Runs an evaluation while more values are held. -/
@[always_inline, inline] def holding {α : Type} (values : List Value) (x : Eval α) : Eval α :=
  fun host held m => x host (values ++ held) m

/-- Claims the failure of an evaluation for a span of the running file. -/
@[always_inline, inline] def claiming {α : Type} (span : Span) (x : Eval α) : Eval α :=
  fun host held m =>
    match x host held m with
    | (.failed fault, m) => (.failed (fault.claim ⟨m.file host.settings, span⟩), m)
    | other => other

/-- Runs an evaluation in a new scope inside `parent`, and ends that scope however the
evaluation ends. While the scope ends, the result's values are held. -/
@[always_inline, inline] def inScope {α : Type} (parent : Slot) (values : α → List Value)
    (x : Eval α) : Eval α :=
  fun host held m =>
    let back := m.current
    match x host held (m.enter parent) with
    | (.done a, m) => (.done a, m.leave host (values a ++ held) back)
    | (.failed fault, m) => (.failed fault, m.leave host held back)
    | (.exhausted, m) => (.exhausted, m.leave host held back)

/-- Runs an evaluation as the top level of a module. -/
@[always_inline, inline] def inModule {α : Type} (path : String) (x : Eval α) : Eval α :=
  fun host held m =>
    let (outcome, m) := x host held (m.beginModule path)
    (outcome, m.endModule)

/-- The value of a name. -/
def get? (name : String) : Eval (Option Value) := return (← machine).get? name

/-- The value of a name that has to have one. -/
def get (name : String) : Eval Value := do
  match ← get? name with
  | some v => return v
  | none => fail (.undefined name)

/-- Sets a name in the scope in use. -/
def define (name : String) (v : Value) : Eval Unit := change fun m => m.define name v

/-- Sets each name of a table in the scope in use. -/
def defineAll (b : Bindings) : Eval Unit :=
  change fun m => b.entries.foldl (fun m e => m.define e.1 e.2) m

/-- Sets a name in the scope that binds it. -/
def assign (name : String) (v : Value) : Eval Unit := do
  let m ← machine
  match m.arena.assign? m.current name v with
  | some arena => change fun m => { m with arena }
  | none => fail (.undefined name)

/-- Shows a line. -/
def writeLine (line : String) : Eval Unit := change fun m => { m with output := m.output.push line }

/-- Reports lines. -/
def report (lines : List String) : Eval Unit :=
  change fun m => { m with errors := lines.foldl Array.push m.errors }

/-- A new closure over the scope in use. -/
def newClosure (name : String) (params : List Param) (body : Block Stmt) : Eval Value := do
  let m ← machine
  change fun m => { m with fresh := m.fresh + 1, arena := m.arena.capture m.current m.fresh }
  return .closure { identity := m.fresh, name, params, body, frame := m.current }

/-- Runs a capsule on bound arguments. -/
def runCapsule (c : Capsule Value) (args : List Value) : Eval Value := do
  let (v, clock) ← ofExcept (c.run args (← machine).clock)
  change fun m => { m with clock }
  return v

end Eval

end Playscript

/-
# What a session visits

Each request of a host is a job, or a row of statements, on the machine of the
interpreter. What all requests visit is listed in order.

Key definitions: `Interpreter.topVisits`, `Request.visits`, `Session.visits`.
-/
import Playscript.Session
import Playscript.Proofs.Trace.Visits

namespace Playscript

/-- What the statements of a program visit. -/
def Interpreter.topVisits (bound : Nat) : List Stmt → Trace
  | [] => .none
  | s :: rest =>
    .andThen (Eval.execute bound s) (Job.visits bound (.execute s)) fun
      | .normal => topVisits bound rest
      | .returned _ => .none

/-- What a request visits. -/
def Request.visits (bound : Nat) (i : Interpreter) (host : Host) : Request → List Visit
  | interpret program => Interpreter.topVisits bound program.body host i.held i.machine
  | run program => Job.visits bound (.executeAll program.body) host i.held i.machine
  | execute s => Job.visits bound (.execute s) host i.held i.machine
  | evaluate e => Job.visits bound (.evaluate e) host i.held i.machine
  | call f args given =>
    let f := f.value i.held
    let args := Pick.valueAll i.held args
    Job.visits bound (.call f args) host (f :: Session.letGo given i.held) i.machine
  | look _ | invalidate | drop _ | edit _ | wait _ => []

/-- What the requests of a host visit. -/
def Session.visits (settings : Settings) (reclaims : Bool) (bound : Nat) :
    Session → List Request → List Visit
  | _, [] => []
  | s, r :: rest =>
    r.visits bound s.interpreter (s.host settings reclaims) ++
      visits settings reclaims bound (s.step settings reclaims bound r).2 rest

end Playscript

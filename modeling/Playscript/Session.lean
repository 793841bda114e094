/-
# Sessions

A host makes requests of one interpreter, one after another: to run programs,
statements and expressions, to call functions, and to forget modules. It may
change the files in between, and it keeps the values it is answered until it
lets them go. A value it gives is made of constants, of values it keeps, and of
capsules of its own.

What a host can see of a value does not include the slots of frames. A view has
the root for all of them, and leaves the identity of each closure, which says
which run of which declaration made it.
-/
import Playscript.Interpreter
import Playscript.Relocation

namespace Playscript

/-! ### What a host gives -/

/-- A value as a host makes it. -/
inductive Pick where
  | null
  | number (x : Float)
  | string (s : String)
  | bool (b : Bool)
  | array (items : List Pick)
  | capsule (c : Capsule Pick)
  /-- A value that the host keeps, by its position. -/
  | kept (k : Nat)
  /-- An item of an array. -/
  | item (p : Pick) (k : Nat)

namespace Pick

/-- The item of an array at a position, null if there is none. -/
def itemAt (k : Nat) : Value → Value
  | .array items => items.getD k .null
  | _ => .null

mutual

/-- The value that is made from the values kept. -/
def value (kept : List Value) : Pick → Value
  | null => .null
  | number x => .number x
  | string s => .string s
  | bool b => .bool b
  | array items => .array (valueAll kept items)
  | capsule ⟨name, params, routine⟩ => .capsule ⟨name, valueParams kept params, routine⟩
  | .kept k => kept.getD k .null
  | item p k => itemAt k (p.value kept)

/-- The values that are made. -/
def valueAll (kept : List Value) : List Pick → List Value
  | [] => []
  | p :: rest => p.value kept :: valueAll kept rest

/-- The parameters with the defaults that are made. -/
def valueParams (kept : List Value) : List (CapsuleParam Pick) → List (CapsuleParam Value)
  | [] => []
  | ⟨type, name, none⟩ :: rest => ⟨type, name, none⟩ :: valueParams kept rest
  | ⟨type, name, some d⟩ :: rest =>
    ⟨type, name, some (d.value kept)⟩ :: valueParams kept rest

end

end Pick

/-! ### Requests -/

/-- What a host may ask. -/
inductive Request where
  | interpret (program : Program)
  | run (program : Program)
  | execute (s : Stmt)
  | evaluate (e : Expr)
  /-- Calls a function. The values at some positions are given away. -/
  | call (f : Pick) (args : List Pick) (given : List Nat)
  /-- Looks a name up. -/
  | look (name : String)
  /-- Forgets the modules that have run. -/
  | invalidate
  /-- Lets the values at some positions go. -/
  | drop (given : List Nat)
  /-- Changes the files. -/
  | edit (disk : Disk)
  /-- Lets time pass. -/
  | wait (clock : Clock)

/-- What a host is answered. -/
inductive Reply where
  | none
  | ended (outcome : Outcome Unit)
  | flowed (outcome : Outcome Flow)
  | answered (outcome : Outcome Value)
  | found (v? : Option Value)

/-- An answer with the frames of its closures moved. -/
def Reply.relocate (place : Slot → Slot) : Reply → Reply
  | none => none
  | ended outcome => ended outcome
  | flowed outcome => flowed (outcome.map (Flow.relocate place))
  | answered outcome => answered (outcome.map (Value.relocate place))
  | found v? => found (v?.map (Value.relocate place))

/-- The values of an answer. -/
def Reply.values : Reply → List Value
  | flowed (.done flow) => flow.values
  | answered (.done v) => [v]
  | found (some v) => [v]
  | _ => []

/-- An interpreter, and the files it finds. -/
structure Session where
  interpreter : Interpreter
  disk : Disk

/-- What a host sees after a request. -/
structure View where
  reply : Reply
  output : Array String
  errors : Array String
  reports : Array Report
  modules : ModuleCache
  global? : String → Option Value

namespace Session

/-- A session before any request. -/
def start (clock : Clock) (disk : Disk) : Session := ⟨.start clock, disk⟩

/-- The host of a session. -/
def host (settings : Settings) (reclaims : Bool) (s : Session) : Host :=
  { settings, disk := s.disk, reclaims }

/-- The values that are left when those at some positions are let go. -/
def letGo (given : List Nat) (kept : List Value) : List Value :=
  given.foldl (fun kept k => kept.set k .null) kept

/-- The answer to a request, and the interpreter after it. -/
def answer (bound : Nat) (i : Interpreter) (host : Host) : Request → Reply × Interpreter
  | .interpret program =>
    let (outcome, i) := i.interpret bound host program
    (.ended outcome, i)
  | .run program =>
    let (outcome, i) := i.run bound host program
    (.ended outcome, i)
  | .execute s =>
    let (outcome, i) := i.execute bound host s
    (.flowed outcome, i)
  | .evaluate e =>
    let (outcome, i) := i.evaluate bound host e
    (.answered outcome, i)
  | .call f args given =>
    let f' := f.value i.held
    let args' := Pick.valueAll i.held args
    let (outcome, i) := { i with held := letGo given i.held }.call bound host f' args'
    (.answered outcome, i)
  | .look name => (.found (i.global? name), i)
  | .invalidate => (.none, i.invalidateModules)
  | .drop given => (.none, { i with held := letGo given i.held })
  | .edit _ => (.none, i)
  | .wait clock => (.none, { i with machine := { i.machine with clock } })

/-- The files after a request. -/
def diskAfter (disk : Disk) : Request → Disk
  | .edit disk => disk
  | _ => disk

/-- A session after a request: the host keeps what it has been answered. -/
def step (settings : Settings) (reclaims : Bool) (bound : Nat) (s : Session) (r : Request) :
    Reply × Session :=
  let (reply, i) := answer bound s.interpreter (s.host settings reclaims) r
  (reply, { interpreter := { i with held := i.held ++ reply.values }, disk := diskAfter s.disk r })

/-- What a host sees, without the slots of frames. -/
def view (s : Session) (reply : Reply) : View where
  reply := reply.relocate fun _ => Arena.root
  output := s.interpreter.machine.output
  errors := s.interpreter.machine.errors
  reports := s.interpreter.reports
  modules := s.interpreter.machine.modules.relocate fun _ => Arena.root
  global? name := (s.interpreter.global? name).map (Value.relocate fun _ => Arena.root)

/-- What a host sees after each of its requests. -/
def views (settings : Settings) (reclaims : Bool) (bound : Nat) : Session → List Request → List View
  | _, [] => []
  | s, r :: rest =>
    let (reply, s) := s.step settings reclaims bound r
    s.view reply :: views settings reclaims bound s rest

/-- A session after some requests. -/
def after (settings : Settings) (reclaims : Bool) (bound : Nat) (s : Session)
    (requests : List Request) : Session :=
  requests.foldl (fun s r => (s.step settings reclaims bound r).2) s

end Session

end Playscript

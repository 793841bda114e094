/-
# What an evaluation visits

An evaluation asks for others on its way: a statement for its expressions, a
call for the body of the function, an import for the statements of the module.
Each of them is a visit, with the machine it starts on. `Job.visits` lists a
job and everything below it, in the order in which it is started.

The list follows the text of the evaluator, one level at a time
(`Job.below`). What lies between two visits, and where one is not done, is
taken from the evaluator itself.

A job can only import what is written in it. What it asks for is written in it as
well, but for the functions that it calls and the files that it opens
(`Job.Within`).

Key definitions: `Job`, `Visit`, `Trace`, `Job.below`, `Job.visits`, `Job.Within`.
-/
import Playscript.Interpreter
import Playscript.Tree.Declarations
import Playscript.Tree.Imports

namespace Playscript

/-- What the evaluator can be asked for. -/
inductive Job where
  | execute (s : Stmt)
  | perform (s : Stmt)
  | executeAll (ss : List Stmt)
  | whileLoop (condition : Expr) (body : Stmt)
  | rangeLoop (counter : String) (next limit : Float) (body : Stmt)
  | evaluate (e : Expr)
  | compute (e : Expr)
  | evaluateNumber (purpose : String) (e : Expr)
  | evaluateAll (es : List Expr)
  | showAll (es : List Expr)
  | call (f : Value) (args : List Value)
  | bindParams (function : String) (ps : List Param) (vs : List Value)
  | moduleExports (source : String)
  | fileExports (source path : String)
  | runModule (path text : String)

namespace Job

/-- What a job results in. -/
def Result : Job → Type
  | execute _ | perform _ | executeAll _ | whileLoop _ _ | rangeLoop _ _ _ _ => Flow
  | evaluate _ | compute _ | call _ _ => Value
  | evaluateNumber _ _ => Float
  | evaluateAll _ => List Value
  | showAll _ => List String
  | bindParams _ _ _ => Unit
  | moduleExports _ | fileExports _ _ | runModule _ _ => Bindings

/-- The evaluation that is asked for. -/
def run (bound : Nat) : (t : Job) → Eval t.Result
  | execute s => Eval.execute bound s
  | perform s => Eval.perform bound s
  | executeAll ss => Eval.executeAll bound ss
  | whileLoop condition body => Eval.whileLoop bound condition body
  | rangeLoop counter next limit body => Eval.rangeLoop bound counter next limit body
  | evaluate e => Eval.evaluate bound e
  | compute e => Eval.compute bound e
  | evaluateNumber purpose e => Eval.evaluateNumber bound purpose e
  | evaluateAll es => Eval.evaluateAll bound es
  | showAll es => Eval.showAll bound es
  | call f args => Eval.call bound f args
  | bindParams function ps vs => Eval.bindParams bound function ps vs
  | moduleExports source => Eval.moduleExports bound source
  | fileExports source path => Eval.fileExports bound source path
  | runModule path text => Eval.runModule bound path text

/-- The place of a statement or of an expression. -/
def span? : Job → Option Span
  | execute s => some s.span
  | evaluate e => some e.span
  | _ => none

/-- Whether a job runs the text of a module. -/
def runsModule : Job → Bool
  | runModule _ _ => true
  | _ => false

/-- Whether a job is about a file of its own: the import of one, or the run of its text. -/
def opensFile : Job → Bool
  | fileExports _ _ | runModule _ _ => true
  | _ => false

theorem runsModule_of_opensFile {t : Job} (h : t.opensFile = false) : t.runsModule = false := by
  cases t with
  | runModule => cases h
  | _ => rfl

/-- Whether a job is the call of a function. -/
def calls : Job → Bool
  | call _ _ => true
  | _ => false

/-- Whether a job may set new names in the scope in use. -/
def declares : Job → Bool
  | execute s | perform s => s.declares
  | executeAll ss => ss.any Stmt.declares
  | whileLoop _ body | rangeLoop _ _ _ body => body.declares
  | bindParams .. => true
  | evaluate _ | compute _ | evaluateNumber .. | evaluateAll _ | showAll _ | call ..
  | moduleExports _ | fileExports .. | runModule .. => false

/-- The sources that the import statements of a job name, those of a function with its call and
those of a module with the run of its text. -/
def sources : Job → List String
  | execute s | perform s => s.sources
  | executeAll ss => Stmt.sourcesOfAll ss
  | whileLoop _ body | rangeLoop _ _ _ body => body.sources
  | call (.closure c) _ => Stmt.sourcesOfBlock c.body
  | moduleExports source => [source]
  | runModule path text =>
    match (Program.ofSource ⟨path, text⟩).1 with
    | .ok program => program.sources
    | .error _ => []
  | _ => []

/-- What a job asks for without opening a file: it is written in the job itself, or is a call. -/
structure Within (t u : Job) : Prop where
  shut : u.opensFile = false
  written : u.calls = false → u.sources ⊆ t.sources

namespace Within

variable {t u : Job}

/-- In an expression nothing is imported. -/
theorem silent (hshut : u.opensFile = false) (hsources : u.sources = []) : t.Within u :=
  ⟨hshut, fun _ => by rw [hsources]; exact List.nil_subset _⟩

theorem part (hshut : u.opensFile = false) (hsources : u.sources ⊆ t.sources) : t.Within u :=
  ⟨hshut, fun _ => hsources⟩

theorem body (b : Block Stmt) (hsources : t.sources = Stmt.sourcesOfBlock b) :
    t.Within (executeAll b.body) := by
  rw [Stmt.sourcesOfBlock_eq] at hsources
  exact .part rfl (hsources ▸ List.Subset.refl _)

theorem called (f : Value) (args : List Value) : t.Within (call f args) := ⟨rfl, nofun⟩

end Within

end Job

/-- A job, and what it starts with. -/
structure Visit where
  bound : Nat
  job : Job
  host : Host
  held : List Value
  machine : Machine

/-- How a visit ends, and the machine it leaves. -/
def Visit.answer (v : Visit) : Outcome v.job.Result × Machine :=
  v.job.run v.bound v.host v.held v.machine

/-- What an evaluation visits, as it depends on what the evaluation starts with. -/
def Trace : Type := Host → List Value → Machine → List Visit

namespace Trace

/-- Nothing is visited. -/
def none : Trace := fun _ _ _ => []

/-- What is visited up to the end of an evaluation and, if it is done, after it. -/
def andThen {α : Type} (x : Eval α) (first : Trace) (rest : α → Trace) : Trace :=
  fun host held m => first host held m ++
    match x host held m with
    | (.done a, m) => rest a host held m
    | _ => []

/-- The rest reads the machine. -/
def machine (rest : Machine → Trace) : Trace := fun host held m => rest m host held m

/-- The rest reads the host. -/
def host (rest : Host → Trace) : Trace := fun host held m => rest host host held m

def holding (values : List Value) (rest : Trace) : Trace := fun host held m =>
  rest host (values ++ held) m

def inScope (parent : Slot) (rest : Trace) : Trace := fun host held m =>
  rest host held (m.enter parent)

def inModule (path : String) (rest : Trace) : Trace := fun host held m =>
  rest host held (m.beginModule path)

end Trace

namespace Job

variable (bound : Nat) (sub : Job → Trace)

/-- What a statement visits. -/
def belowStmt : Stmt → Trace
  | .declare _ _ _ none | .action .. | .rename .. => .none
  | .declare _ _ _ (some e) | .evaluate _ e => sub (.evaluate e)
  | .display _ args => sub (.showAll args)
  | .block b => .machine fun m => .inScope m.current (sub (.executeAll b.body))
  | .branch _ condition yes no? =>
    .andThen (Eval.evaluate bound condition) (sub (.evaluate condition)) fun test =>
      if test.isTruthy then sub (.execute yes)
      else match no? with
        | some no => sub (.execute no)
        | none => .none
  | .loopWhile _ condition body => sub (.whileLoop condition body)
  | .loopRange _ counter first limit body =>
    .andThen (Eval.evaluateNumber bound "range start" first)
        (sub (.evaluateNumber "range start" first)) fun first =>
      .andThen (Eval.evaluateNumber bound "range end" limit)
          (sub (.evaluateNumber "range end" limit)) fun limit =>
        .machine fun m => .inScope m.current <|
          .andThen (Eval.define counter.name (.number first)) .none fun _ =>
            sub (.rangeLoop counter.name first limit body)
  | .returnValues _ es => sub (.evaluateAll es)
  | .importFrom _ _ source => sub (.moduleExports source)

/-- What an expression visits. -/
def belowExpr : Expr → Trace
  | .number .. | .string .. | .bool .. | .name .. => .none
  | .array _ es => sub (.evaluateAll es)
  | .index _ _ position => sub (.evaluateNumber "array index" position)
  | .call _ callee args =>
    .andThen (Eval.functionOf callee.name) .none fun f =>
      .andThen (Eval.holding [f] (Eval.evaluateAll bound args))
          (.holding [f] (sub (.evaluateAll args))) fun vs =>
        .holding [f] (sub (.call f vs))
  | .assign _ _ value => sub (.evaluate value)
  | .binary _ _ left right =>
    .andThen (Eval.evaluate bound left) (sub (.evaluate left)) fun l =>
      .holding [l] (sub (.evaluate right))
  | .negate _ operand => sub (.evaluate operand)

/-- What an import of a file visits. -/
def belowFile (source path : String) : Trace :=
  .andThen (Eval.reusable? path) .none fun
    | some _ => .none
    | none => .machine fun m =>
      if m.modules.loading.contains path then .none
      else .andThen (Eval.moduleText source path) .none fun (text, digest) =>
        .andThen (Eval.unchanged? path digest) .none fun
          | some _ => .none
          | none => sub (.runModule path text)

/-- What a job with the bound `bound + 1` visits below itself, when `sub` is what jobs with the
bound `bound` visit. -/
def below : Job → Trace
  | execute s => sub (.perform s)
  | perform s => belowStmt bound sub s
  | executeAll [] => .none
  | executeAll (s :: rest) =>
    .andThen (Eval.execute bound s) (sub (.execute s)) fun
      | .normal => sub (.executeAll rest)
      | .returned _ => .none
  | whileLoop condition body =>
    .andThen (Eval.evaluate bound condition) (sub (.evaluate condition)) fun test =>
      if test.isTruthy then
        .andThen (Eval.execute bound body) (sub (.execute body)) fun
          | .normal => sub (.whileLoop condition body)
          | .returned _ => .none
      else .none
  | rangeLoop counter next limit body =>
    if next < limit then
      .andThen (Eval.assign counter (.number next)) .none fun _ =>
        .andThen (Eval.execute bound body) (sub (.execute body)) fun
          | .normal => sub (.rangeLoop counter (next + 1) limit body)
          | .returned _ => .none
    else .none
  | evaluate e => sub (.compute e)
  | compute e => belowExpr bound sub e
  | evaluateNumber _ e => sub (.evaluate e)
  | evaluateAll [] => .none
  | evaluateAll (e :: rest) =>
    .andThen (Eval.evaluate bound e) (sub (.evaluate e)) fun v =>
      .holding [v] (sub (.evaluateAll rest))
  | showAll [] => .none
  | showAll (e :: rest) =>
    .andThen (Eval.evaluate bound e) (sub (.evaluate e)) fun v =>
      .andThen (Eval.shownText v) .none fun _ => sub (.showAll rest)
  | call (.closure c) args =>
    .inScope c.frame <| .holding (args.drop c.params.length) <|
      .andThen (Eval.bindParams bound c.name c.params args)
          (sub (.bindParams c.name c.params args)) fun _ =>
        sub (.executeAll c.body.body)
  | call _ _ => .none
  | bindParams _ [] _ => .none
  | bindParams function (p :: ps) (v :: vs) =>
    .andThen (Eval.define p.name.name v) .none fun _ => sub (.bindParams function ps vs)
  | bindParams function (p :: ps) [] =>
    match p.default? with
    | some e =>
      .andThen (Eval.evaluate bound e) (sub (.evaluate e)) fun v =>
        .andThen (Eval.define p.name.name v) .none fun _ => sub (.bindParams function ps [])
    | none => .none
  | moduleExports source =>
    match Library.moduleOf? source with
    | some _ => .none
    | none => .machine fun m => .host fun h =>
      match h.disk.canonical? (Path.join (m.directory h.settings) source) with
      | none => .none
      | some path => sub (.fileExports source path)
  | fileExports source path => belowFile sub source path
  | runModule path text =>
    .andThen (Eval.moduleProgram path text) .none fun program =>
      .inModule path <| .machine fun m => .inScope m.current (sub (.executeAll program.body))

/-- A job and everything below it. -/
def visits : Nat → Job → Trace
  | 0, t => fun host held m => [⟨0, t, host, held, m⟩]
  | bound + 1, t => fun host held m =>
    ⟨bound + 1, t, host, held, m⟩ :: below bound (visits bound) t host held m

theorem visits_ne_nil {bound : Nat} {t : Job} {host : Host} {held : List Value} {m : Machine} :
    visits bound t host held m ≠ [] := by
  cases bound <;> exact List.cons_ne_nil _ _

end Job

end Playscript

/-
# The evaluator

Statements and expressions as evaluations, by recursion on a bound: every call
gets one less, so nothing about the result depends on the bound except whether
it was large enough. Each statement and each expression claims the failures
that nothing inside it has claimed.

Values that are in hand while another part is evaluated are held, so that the
frames of their closures are kept.
-/
import Playscript.Machine.Eval
import Playscript.Value.Operation
import Playscript.Value.Conformance
import Playscript.Template
import Playscript.Tree.Parser
import Playscript.Digest

namespace Playscript

/-- How a statement ends. -/
inductive Flow where
  | normal
  /-- A `return` on its way to the nearest call. -/
  | returned (values : List Value)

namespace Flow

/-- The values on their way. -/
def values : Flow → List Value
  | normal => []
  | returned vs => vs

end Flow

namespace Eval

/-- The text of a value as it is shown: strings are templates over the names in scope. -/
def shownText (v : Value) : Eval String := do
  let m ← machine
  match v with
  | .string s => return Template.fill (fun name => (m.get? name).map Value.text) s
  | v => return v.text

/-- The item of a named array. -/
def itemOf (array : String) (position : Float) : Eval Value := do
  match ← get array with
  | .array items =>
    match Value.item? items position with
    | some v => return v
    | none => fail (.outOfBounds array position items.length)
  | _ => fail (.notAnArray array)

/-- The function a name stands for. -/
def functionOf (name : String) : Eval Value := do
  match ← get? name with
  | some v => if v.isFunction then return v else fail (.notAFunction name)
  | none => fail (.notAFunction name)

/-- Binds the items of an import list one after the other. -/
def bindItems (exports : Bindings) (source : String) : List ImportItem → Eval Unit
  | [] => return
  | item :: rest => do
    match exports.get? item.name.name with
    | some v => define item.localName v
    | none => fail (.exportNotFound item.name.name source)
    bindItems exports source rest

/-- The text of a module and its digest. -/
def moduleText (source path : String) : Eval (String × String) := do
  match (← host).disk.read path with
  | .ok text => return (text, Digest.ofText text)
  | .error _ => fail (.importNotFound source)

/-- The program of a module; what is wrong with its characters is reported at once. -/
def moduleProgram (path text : String) : Eval Program := do
  let (program, log) := Program.ofSource ⟨path, text⟩
  report (log.kept.map Diagnostic.text)
  match program with
  | .ok p => return p
  | .error d => fail (.unreadable d)

/-- The kept module of a path that may serve under the policy without a look at its text. -/
def reusable? (path : String) : Eval (Option Bindings) := do
  match (← host).settings.policy with
  | .reuse => return ((← machine).modules.get? path).map CachedModule.exports
  | _ => return none

/-- The kept module of a path that may serve under the policy for a text with this digest. -/
def unchanged? (path digest : String) : Eval (Option Bindings) := do
  match (← host).settings.policy, (← machine).modules.get? path with
  | .revalidate, some kept => return if kept.digest = digest then some kept.exports else none
  | _, _ => return none

/-- Keeps a module that has run, unless the policy never lets one serve again. -/
def keep (path digest : String) (exports : Bindings) : Eval Unit := do
  if (← host).settings.policy = .disabled then return
  else change fun m => { m with modules := m.modules.insert path ⟨digest, exports⟩ }

mutual

/-- Runs a statement. -/
def execute : Nat → Stmt → Eval Flow
  | 0, _ => exhausted
  | bound + 1, s => claiming s.span (perform bound s)

/-- Runs a statement, and claims nothing for it. -/
def perform : Nat → Stmt → Eval Flow
  | 0, _ => exhausted
  | bound + 1, s =>
    match s with
    | .declare _ type name value? => do
      match value? with
      | none => define name.name .null
      | some e =>
        let v ← evaluate bound e
        if type.type.admits v then define name.name v
        else fail (.typeMismatch name.name type.type v.kindName)
      return .normal
    | .display _ args => do
      let parts ← showAll bound args
      writeLine (" ".intercalate parts)
      return .normal
    | .block b => do inScope (← machine).current Flow.values (executeAll bound b.body)
    | .branch _ condition yes no? => do
      let test ← evaluate bound condition
      if test.isTruthy then execute bound yes
      else match no? with
        | some no => execute bound no
        | none => return .normal
    | .loopWhile _ condition body => whileLoop bound condition body
    | .loopRange _ counter first limit body => do
      let first ← evaluateNumber bound "range start" first
      let limit ← evaluateNumber bound "range end" limit
      inScope (← machine).current Flow.values do
        define counter.name (.number first)
        rangeLoop bound counter.name first limit body
    | .evaluate _ e => do
      let _ ← evaluate bound e
      return .normal
    | .action _ name params _ body => do
      let f ← newClosure name.name params body
      define name.name f
      return .normal
    | .rename _ oldName newName => do
      let v ← get oldName.name
      if v.isFunction then define newName.name v
      else fail (.notAFunction oldName.name)
      return .normal
    | .returnValues _ es => do return .returned (← evaluateAll bound es)
    | .importFrom _ items? source => do
      let exports ← moduleExports bound source
      match items? with
      | none => defineAll exports
      | some items => bindItems exports source items
      return .normal

/-- Runs statements up to the first that returns. -/
def executeAll : Nat → List Stmt → Eval Flow
  | 0, _ => exhausted
  | _ + 1, [] => return .normal
  | bound + 1, s :: rest => do
    match ← execute bound s with
    | .normal => executeAll bound rest
    | .returned vs => return .returned vs

/-- Runs a body as long as a condition holds. -/
def whileLoop : Nat → Expr → Stmt → Eval Flow
  | 0, _, _ => exhausted
  | bound + 1, condition, body => do
    let test ← evaluate bound condition
    if test.isTruthy then
      match ← execute bound body with
      | .normal => whileLoop bound condition body
      | .returned vs => return .returned vs
    else return .normal

/-- Runs a body for each number from `next` up to a limit. -/
def rangeLoop : Nat → String → Float → Float → Stmt → Eval Flow
  | 0, _, _, _, _ => exhausted
  | bound + 1, counter, next, limit, body => do
    if next < limit then
      assign counter (.number next)
      match ← execute bound body with
      | .normal => rangeLoop bound counter (next + 1) limit body
      | .returned vs => return .returned vs
    else return .normal

/-- The value of an expression. -/
def evaluate : Nat → Expr → Eval Value
  | 0, _ => exhausted
  | bound + 1, e => claiming e.span (compute bound e)

/-- The value of an expression, which claims nothing for it. -/
def compute : Nat → Expr → Eval Value
  | 0, _ => exhausted
  | bound + 1, e =>
    match e with
    | .number _ x => return .number x
    | .string _ s => return .string s
    | .bool _ b => return .bool b
    | .array _ es => do return .array (← evaluateAll bound es)
    | .name _ n => get n
    | .index _ array position => do
      let i ← evaluateNumber bound "array index" position
      itemOf array.name i
    | .call _ callee args => do
      let f ← functionOf callee.name
      let vs ← holding [f] (evaluateAll bound args)
      holding [f] (call bound f vs)
    | .assign _ target value => do
      let v ← evaluate bound value
      assign target.name v
      return v
    | .binary _ op left right => do
      let l ← evaluate bound left
      let r ← holding [l] (evaluate bound right)
      ofExcept (op.apply l r)
    | .negate _ operand => do
      let v ← evaluate bound operand
      ofExcept v.negated

/-- The value of an expression that has to be a number. -/
def evaluateNumber : Nat → String → Expr → Eval Float
  | 0, _, _ => exhausted
  | bound + 1, purpose, e => do
    let v ← evaluate bound e
    ofExcept (v.toNumber purpose)

/-- The values of expressions, from left to right. -/
def evaluateAll : Nat → List Expr → Eval (List Value)
  | 0, _ => exhausted
  | _ + 1, [] => return []
  | bound + 1, e :: rest => do
    let v ← evaluate bound e
    let vs ← holding [v] (evaluateAll bound rest)
    return v :: vs

/-- The texts of expressions as they are shown, from left to right. -/
def showAll : Nat → List Expr → Eval (List String)
  | 0, _ => exhausted
  | _ + 1, [] => return []
  | bound + 1, e :: rest => do
    let v ← evaluate bound e
    let text ← shownText v
    let texts ← showAll bound rest
    return text :: texts

/-- What a function answers for arguments. -/
def call : Nat → Value → List Value → Eval Value
  | 0, _, _ => exhausted
  | bound + 1, f, args =>
    match f with
    | .capsule c => do
      let bound ← ofExcept (Capsule.bind c.name c.params args)
      runCapsule c bound
    | .closure c =>
      -- arguments without a parameter are in hand until the body is done
      inScope c.frame (fun v => [v]) <| holding (args.drop c.params.length) do
        bindParams bound c.name c.params args
        let flow ← executeAll bound c.body.body
        return .ofReturned flow.values
    | _ => return .null

/-- Binds parameters to arguments, and to their defaults when no arguments are left. A default
sees the parameters before it. -/
def bindParams : Nat → String → List Param → List Value → Eval Unit
  | 0, _, _, _ => exhausted
  | _ + 1, _, [], _ => return
  | bound + 1, function, p :: ps, v :: vs => do
    define p.name.name v
    bindParams bound function ps vs
  | bound + 1, function, p :: ps, [] => do
    match p.default? with
    | some e =>
      let v ← evaluate bound e
      define p.name.name v
      bindParams bound function ps []
    | none => fail (.missingArgument function p.name.name)

/-- What the module named by a source exports. -/
def moduleExports : Nat → String → Eval Bindings
  | 0, _ => exhausted
  | bound + 1, source =>
    match Library.moduleOf? source with
    | some name =>
      match Library.exports? name with
      | some exports => return exports
      | none => fail (.importNotFound source)
    | none => do
      let m ← machine
      let h ← host
      match h.disk.canonical? (Path.join (m.directory h.settings) source) with
      | none => fail (.importNotFound source)
      | some path => fileExports bound source path

/-- What the file at a canonical path exports: as it is kept, or by running it. -/
def fileExports : Nat → String → String → Eval Bindings
  | 0, _, _ => exhausted
  | bound + 1, source, path => do
    match ← reusable? path with
    | some exports => return exports
    | none =>
      if (← machine).modules.loading.contains path then fail (.circularImport source)
      else
        let (text, digest) ← moduleText source path
        match ← unchanged? path digest with
        | some exports => return exports
        | none =>
          let exports ← runModule bound path text
          keep path digest exports
          return exports

/-- Runs the text of a module in a scope inside the importer's; the names of that scope are
what it exports. -/
def runModule : Nat → String → String → Eval Bindings
  | 0, _, _ => exhausted
  | bound + 1, path, text => do
    let program ← moduleProgram path text
    inModule path do
      inScope (← machine).current Bindings.values do
        match ← executeAll bound program.body with
        | .normal =>
          let m ← machine
          return m.arena.bindings m.current
        | .returned _ => fail .returnOutside

end

end Eval

end Playscript

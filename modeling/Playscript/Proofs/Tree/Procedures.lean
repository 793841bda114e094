/-
# The procedures of the parser and what they call

Each reader of a phrase is a procedure. What a procedure does is written down once
more as a plan: it looks at the cursor, moves behind the token, refuses, or calls a
procedure and goes on with the answer. Run with readers for what it calls, the plan of
a procedure is its reader (`Procedure.read_succ`, `Procedure.read_plain`); so whatever is
kept by running a plan holds of every reader (`Procedure.read_induction`).

In a plan the calls can be seen. `Plan.Reaches` says how far a plan is followed, a call
being answered by the reader of what is called; `Call.Asks` says which calls are made
while a call is open. A reader that gives up does so for a reason: as many calls are open,
one below the other, as its bound says (`Call.exists_open_of_endless`).

Key definitions: `Procedure`, `Plan`, `Procedure.read`, `Procedure.plan`, `Plan.Reaches`,
`Call.Asks`.
Key theorems: `Procedure.read_induction`, `Call.exists_open_of_endless`.
-/
import Playscript.Proofs.Tree.Reading
import Mathlib.Data.List.Chain
import Mathlib.Logic.Relation

namespace Playscript

open Token (Kind)

/-- The readers a parser is made of. -/
inductive Procedure where
  | program | topLevel | declaration | function | block | declarations | statement
  | variableDeclaration | renameStatement | importStatement | importList | someItems | importItem
  | showStatement | returnStatement | expressionStatement
  | type | params | someParams | param | initial | condition
  | expression | layer (level : Fin 5) | chain (level : Fin 4) | operand | primary
  | separated | several
deriving DecidableEq, Repr

namespace Procedure

/-- What a procedure is called with. Types of plans are read off it. -/
@[reducible] def Input : Procedure → Type
  | function => Span × Option TypeRef
  | chain _ => Expr
  | separated => Mark
  | _ => Unit

/-- What a procedure answers. -/
@[reducible] def Result : Procedure → Type
  | program => Program
  | topLevel | declarations => List Stmt
  | declaration | function | statement | variableDeclaration | renameStatement | importStatement
  | showStatement | returnStatement | expressionStatement => Stmt
  | block => Block Stmt
  | importList => Option (List ImportItem)
  | someItems => List ImportItem
  | importItem => ImportItem
  | type => TypeRef
  | params | someParams => List Param
  | param => Param
  | initial => Option Expr
  | condition | expression | layer _ | chain _ | operand | primary => Expr
  | separated | several => List Expr

/-- The reader of a procedure. -/
def read (bound : Nat) : (p : Procedure) → p.Input → Reader p.Result
  | program, _ => Reader.program bound
  | topLevel, _ => Reader.topLevel bound
  | declaration, _ => Reader.declaration bound
  | function, (start, returns?) => Reader.function bound start returns?
  | block, _ => Reader.block bound
  | declarations, _ => Reader.declarations bound
  | statement, _ => Reader.statement bound
  | variableDeclaration, _ => Reader.variableDeclaration bound
  | renameStatement, _ => Reader.renameStatement
  | importStatement, _ => Reader.importStatement bound
  | importList, _ => Reader.importList? bound
  | someItems, _ => Reader.someItems bound
  | importItem, _ => Reader.importItem
  | showStatement, _ => Reader.showStatement bound
  | returnStatement, _ => Reader.returnStatement bound
  | expressionStatement, _ => Reader.expressionStatement bound
  | type, _ => Reader.type
  | params, _ => Reader.params bound
  | someParams, _ => Reader.someParams bound
  | param, _ => Reader.param bound
  | initial, _ => Reader.initial? bound
  | condition, _ => Reader.condition bound
  | expression, _ => Reader.expression bound
  | layer level, _ => Reader.layer bound level
  | chain level, left => Reader.chain bound level left
  | operand, _ => Reader.operand bound
  | primary, _ => Reader.primary bound
  | separated, close => Reader.separated bound close
  | several, _ => Reader.several bound

end Procedure

/-- What a procedure does until it answers or refuses. -/
inductive Plan (α : Type) where
  | done (a : α)
  /-- The token at the cursor is refused. -/
  | unexpected (e : Expected)
  | target (span : Span)
  | look (next : Cursor → Plan α)
  | advance (next : Plan α)
  | ask (p : Procedure) (input : p.Input) (next : p.Result → Plan α)

namespace Plan

variable {α β : Type}

/-- Goes on with another plan once there is an answer. -/
def bind (plan : Plan α) (f : α → Plan β) : Plan β :=
  match plan with
  | done a => f a
  | unexpected e => unexpected e
  | target span => target span
  | look next => look fun c => (next c).bind f
  | advance next => advance (next.bind f)
  | ask p input next => ask p input fun a => (next a).bind f

instance : Monad Plan where
  pure := done
  bind := bind

theorem bind_done (plan : Plan α) : plan.bind done = plan := by
  induction plan with
  | done a => rfl
  | unexpected e => rfl
  | target span => rfl
  | look next ih => exact congrArg look (funext ih)
  | advance next ih => exact congrArg advance ih
  | ask p input next ih => exact congrArg (ask p input) (funext ih)

theorem bind_bind {γ : Type} (plan : Plan α) (f : α → Plan β) (g : β → Plan γ) :
    (plan.bind f).bind g = plan.bind fun a => (f a).bind g := by
  induction plan with
  | done a => rfl
  | unexpected e => rfl
  | target span => rfl
  | look next ih => exact congrArg look (funext ih)
  | advance next ih => exact congrArg advance ih
  | ask p input next ih => exact congrArg (ask p input) (funext ih)

instance : LawfulMonad Plan := .mk' Plan bind_done (fun _ _ => rfl) bind_bind

/-! ### Small steps, as readers take them -/

def call (p : Procedure) (input : p.Input) : Plan p.Result := ask p input done

def step : Plan Unit := advance (done ())

def kind : Plan Kind := look fun c => done c.kind

def here : Plan Span := look fun c => done c.token.span

def since (start : Span) : Plan Span := look fun c => done (start.merge c.previous)

def sees (m : Mark) : Plan Bool := look fun c => done (c.kind == .mark m)

def eats (m : Mark) : Plan Bool := do
  if ← sees m then step; return true
  else return false

def eatsWord (w : Word) : Plan Bool := do
  if (← kind) == .word w then step; return true
  else return false

def mark (m : Mark) : Plan Unit := do
  unless ← eats m do unexpected (.mark m)

def word (w : Word) : Plan Unit := do
  unless ← eatsWord w do unexpected (.word w)

def name : Plan Ident := do
  match ← kind with
  | .name n =>
    let span ← here
    step
    return ⟨n, span⟩
  | _ => unexpected .name

def string : Plan String := do
  match ← kind with
  | .string s => step; return s
  | _ => unexpected .string

/-! ### Expressions -/

def assignment (left value : Expr) : Plan Expr :=
  match left with
  | .name span n => return .assign (span.merge value.span) ⟨n, span⟩ value
  | other => target other.span

def expression : Plan Expr := do
  let left ← call (.layer (Fin.last 4)) ()
  if ← eats .assign then
    let value ← call .expression ()
    assignment left value
  else return left

def layer : Fin 5 → Plan Expr
  | ⟨0, _⟩ => call .operand ()
  | ⟨level + 1, h⟩ => do
    let left ← call (.layer ⟨level, Nat.lt_of_succ_lt h⟩) ()
    call (.chain ⟨level, Nat.lt_of_succ_lt_succ h⟩) left

def chain (level : Fin 4) (left : Expr) : Plan Expr := do
  match Operator.ofKind? (← kind) with
  | some op =>
    if op.tightness = level + 1 then
      step
      let right ← call (.layer level.castSucc) ()
      call (.chain level) (left.join op right)
    else return left
  | none => return left

def operand : Plan Expr := do
  if ← sees .minus then
    let start ← here
    step
    let inner ← call .operand ()
    return .negate (start.merge inner.span) inner
  else call .primary ()

def primary : Plan Expr := do
  let start ← here
  match ← kind with
  | .number x => step; return .number start x
  | .string s => step; return .string start s
  | .word .trueWord => step; return .bool start true
  | .word .falseWord => step; return .bool start false
  | .name n =>
    step
    if ← eats .leftParen then
      let arguments ← call .separated .rightParen
      mark .rightParen
      return .call (← since start) ⟨n, start⟩ arguments
    else if ← eats .leftBracket then
      let position ← call .expression ()
      mark .rightBracket
      return .index (← since start) ⟨n, start⟩ position
    else return .name start n
  | .mark .leftParen =>
    step
    let inner ← call .expression ()
    mark .rightParen
    return inner
  | .mark .leftBracket =>
    step
    let items ← call .separated .rightBracket
    mark .rightBracket
    return .array (← since start) items
  | _ => unexpected .expression

def separated (close : Mark) : Plan (List Expr) := do
  if ← sees close then return []
  else call .several ()

/-- One phrase, and the others if a comma follows. -/
def commas (one : Plan α) (others : Plan (List α)) : Plan (List α) := do
  let first ← one
  if ← eats .comma then
    let rest ← others
    return first :: rest
  else return [first]

def initial : Plan (Option Expr) := do
  if ← eats .assign then
    let value ← call .expression ()
    return some value
  else return none

def condition : Plan Expr := do
  mark .leftParen
  let e ← call .expression ()
  mark .rightParen
  return e

/-! ### Types and parameters -/

def type : Plan TypeRef := do
  let start ← here
  let found ← kind
  if found.isType then
    step
    let element := TypeName.named found.text
    if ← eats .leftBracket then
      mark .rightBracket
      return ⟨.array element, ← since start⟩
    else return ⟨element, ← since start⟩
  else unexpected .type

def param : Plan Param := do
  let start ← here
  let type ← call .type ()
  let name ← name
  let default? ← call .initial ()
  return { span := ← since start, type, name, default? }

def params : Plan (List Param) := do
  mark .leftParen
  let ps ← if ← sees .rightParen then pure [] else call .someParams ()
  mark .rightParen
  return ps

/-! ### Statements without statements inside -/

def variableDeclaration : Plan Stmt := do
  let start ← here
  let type ← call .type ()
  let name ← name
  let value? ← call .initial ()
  mark .semicolon
  return .declare (← since start) type name value?

def renameStatement : Plan Stmt := do
  let start ← here
  step
  let oldName ← name
  word .asWord
  let newName ← name
  mark .semicolon
  return .rename (← since start) oldName newName

def importItem : Plan ImportItem := do
  let oldName ← name
  if ← eatsWord .asWord then
    let newName ← name
    return ⟨oldName, some newName⟩
  else return ⟨oldName, none⟩

def importList : Plan (Option (List ImportItem)) := do
  if ← eats .leftBrace then
    let items ← if ← sees .rightBrace then pure [] else call .someItems ()
    mark .rightBrace
    word .fromWord
    return some items
  else return none

def importStatement : Plan Stmt := do
  let start ← here
  step
  let items? ← call .importList ()
  let source ← string
  mark .semicolon
  return .importFrom (← since start) items? source

def showStatement : Plan Stmt := do
  let start ← here
  step
  mark .leftParen
  let arguments ← call .separated .rightParen
  mark .rightParen
  mark .semicolon
  return .display (← since start) arguments

def returnStatement : Plan Stmt := do
  let start ← here
  step
  let values ← call .separated .semicolon
  mark .semicolon
  return .returnValues (← since start) values

def expressionStatement : Plan Stmt := do
  let e ← call .expression ()
  mark .semicolon
  return .evaluate (← since e.span) e

/-! ### Statements and declarations -/

/-- Whether a function starts at the cursor. -/
def startsFunction : Plan Bool := look fun c => done (Reader.startsFunction c)

def declaration : Plan Stmt := do
  match ← kind with
  | .word .importWord => call .importStatement ()
  | .word .action =>
    let start ← here
    step
    call .function (start, none)
  | .word .use => call .renameStatement ()
  | found =>
    if found.isType then
      if ← startsFunction then
        let start ← here
        let returns ← call .type ()
        call .function (start, some returns)
      else call .variableDeclaration ()
    else call .statement ()

def function (start : Span) (returns? : Option TypeRef) : Plan Stmt := do
  let name ← name
  let params ← call .params ()
  let body ← call .block ()
  return .action (← since start) name params returns? body

def block : Plan (Block Stmt) := do
  let start ← here
  mark .leftBrace
  let body ← call .declarations ()
  mark .rightBrace
  return ⟨← since start, body⟩

def declarations : Plan (List Stmt) := do
  if (← kind) == .mark .rightBrace || (← kind) == .endOfFile then return []
  else
    let first ← call .declaration ()
    let others ← call .declarations ()
    return first :: others

def statement : Plan Stmt := do
  match ← kind with
  | .word .ifWord =>
    let start ← here
    step
    let test ← call .condition ()
    let yes ← call .statement ()
    if ← eatsWord .elseWord then
      let no ← call .statement ()
      return .branch (← since start) test yes (some no)
    else return .branch (← since start) test yes none
  | .word .whileWord =>
    let start ← here
    step
    let test ← call .condition ()
    let body ← call .statement ()
    return .loopWhile (← since start) test body
  | .word .forWord =>
    let start ← here
    step
    mark .leftParen
    let counter ← name
    word .inWord
    word .range
    mark .leftParen
    let first ← call .expression ()
    mark .comma
    let limit ← call .expression ()
    mark .rightParen
    mark .rightParen
    let body ← call .statement ()
    return .loopRange (← since start) counter first limit body
  | .word .showWord => call .showStatement ()
  | .word .returnWord => call .returnStatement ()
  | .mark .leftBrace =>
    let b ← call .block ()
    return .block b
  | _ => call .expressionStatement ()

def topLevel : Plan (List Stmt) := do
  if (← kind) == .endOfFile then return []
  else
    let first ← call .declaration ()
    let others ← call .topLevel ()
    return first :: others

def program : Plan Program := do
  let start ← here
  let body ← call .topLevel ()
  if body.isEmpty then return ⟨start, []⟩
  else return ⟨← since start, body⟩

end Plan

/-- The plan of a procedure. -/
def Procedure.plan : (p : Procedure) → p.Input → Plan p.Result
  | program, _ => Plan.program
  | topLevel, _ => Plan.topLevel
  | declaration, _ => Plan.declaration
  | function, (start, returns?) => Plan.function start returns?
  | block, _ => Plan.block
  | declarations, _ => Plan.declarations
  | statement, _ => Plan.statement
  | variableDeclaration, _ => Plan.variableDeclaration
  | renameStatement, _ => Plan.renameStatement
  | importStatement, _ => Plan.importStatement
  | importList, _ => Plan.importList
  | someItems, _ => Plan.commas (Plan.call .importItem ()) (Plan.call .someItems ())
  | importItem, _ => Plan.importItem
  | showStatement, _ => Plan.showStatement
  | returnStatement, _ => Plan.returnStatement
  | expressionStatement, _ => Plan.expressionStatement
  | type, _ => Plan.type
  | params, _ => Plan.params
  | someParams, _ => Plan.commas (Plan.call .param ()) (Plan.call .someParams ())
  | param, _ => Plan.param
  | initial, _ => Plan.initial
  | condition, _ => Plan.condition
  | expression, _ => Plan.expression
  | layer level, _ => Plan.layer level
  | chain level, left => Plan.chain level left
  | operand, _ => Plan.operand
  | primary, _ => Plan.primary
  | separated, close => Plan.separated close
  | several, _ => Plan.commas (Plan.call .expression ()) (Plan.call .several ())

/-! ### Plans as readers -/

/-- Readers for what a plan may call. -/
abbrev Callees := (p : Procedure) → p.Input → Reader p.Result

namespace Plan

variable {α β : Type} {callees : Callees}

/-- The reader that follows a plan. -/
def run (callees : Callees) : Plan α → Reader α
  | done a => pure a
  | unexpected e => Reader.expected e
  | target span => throw (.target span)
  | look next => do (next (← get)).run callees
  | advance next => do
    Reader.advance
    next.run callees
  | ask p input next => do
    let a ← callees p input
    (next a).run callees

theorem run_bind (plan : Plan α) (f : α → Plan β) :
    (plan >>= f).run callees = (plan.run callees >>= fun a => (f a).run callees) := by
  show (plan.bind f).run callees = _
  induction plan with
  | done a => exact (pure_bind _ _).symm
  | unexpected e => rfl
  | target span => rfl
  | look next ih => simp only [bind, run, bind_assoc, ih]
  | advance next ih => simp only [bind, run, bind_assoc, ih]
  | ask p input next ih => simp only [bind, run, bind_assoc, ih]

theorem run_pure (a : α) : (pure a : Plan α).run callees = pure a := rfl

theorem run_map (f : α → β) (plan : Plan α) :
    (f <$> plan).run callees = f <$> plan.run callees := by
  rw [map_eq_pure_bind, map_eq_pure_bind, run_bind]
  rfl

theorem run_ite {P : Prop} [Decidable P] (plan plan' : Plan α) :
    (if P then plan else plan').run callees =
      if P then plan.run callees else plan'.run callees := apply_ite _ _ _ _

-- The type of the plan hangs on `p`, and would keep the rule from being found.
theorem run_call (p : Procedure) (input : p.Input) :
    @run (no_index p.Result) callees (call p input) = callees p input := bind_pure _

theorem run_step : step.run callees = Reader.advance := rfl

theorem run_kind : kind.run callees = Reader.kind := rfl

theorem run_here : here.run callees = Reader.here := rfl

theorem run_since (start : Span) : (since start).run callees = Reader.since start := rfl

theorem run_sees (m : Mark) : (sees m).run callees = Reader.sees m := rfl

theorem run_startsFunction :
    startsFunction.run callees = (do return Reader.startsFunction (← get)) := rfl

theorem run_unexpected (e : Expected) :
    (unexpected e : Plan α).run callees = Reader.expected e := rfl

theorem run_eats (m : Mark) : (eats m).run callees = Reader.eats m := by
  simp only [eats, Reader.eats, run_bind, run_ite, run_sees, run_step, run_pure]

theorem run_eatsWord (w : Word) : (eatsWord w).run callees = Reader.eatsWord w := by
  simp only [eatsWord, Reader.eatsWord, run_bind, run_ite, run_kind, run_step, run_pure]

theorem run_mark (m : Mark) : (mark m).run callees = Reader.mark m := by
  simp only [mark, Reader.mark, run_bind, run_ite, run_eats, run_unexpected, run_pure]

theorem run_word (w : Word) : (word w).run callees = Reader.word w := by
  simp only [word, Reader.word, run_bind, run_ite, run_eatsWord, run_unexpected, run_pure]

theorem run_name : name.run callees = Reader.name := by
  rw [name, Reader.name, run_bind, run_kind]
  exact bind_congr fun k => by cases k <;> rfl

theorem run_string : string.run callees = Reader.string := by
  rw [string, Reader.string, run_bind, run_kind]
  exact bind_congr fun k => by cases k <;> rfl

theorem run_assignment (left value : Expr) :
    (assignment left value).run callees = Reader.assignment left value := by
  cases left <;> rfl

attribute [simp] run_bind run_pure run_map run_ite run_call run_step run_kind run_here run_since
  run_sees run_startsFunction run_unexpected run_eats run_eatsWord run_mark run_word run_name
  run_string run_assignment

theorem run_commas (one : Plan α) (others : Plan (List α)) :
    (commas one others).run callees =
      Reader.commas (one.run callees) (others.run callees) := by
  simp [commas, Reader.commas]

end Plan

/-! ### Readers as plans -/

namespace Procedure

/-- Zero for the readers that count their calls. The others are not called below each other
more often than this says. -/
def height : Procedure → Nat
  | program | renameStatement | importList | importItem | showStatement | returnStatement
  | expressionStatement | type | params | initial | condition => 1
  | variableDeclaration | importStatement | param => 2
  | topLevel | declaration | function | block | declarations | statement | someItems | someParams
  | expression | layer _ | chain _ | operand | primary | separated | several => 0

/-- What a procedure of some height calls. The others, which it does not call, all refuse alike. -/
def below (bound height : Nat) (uncalled : Refusal) : Callees := fun p input =>
  if p.height < height then p.read bound input else throw uncalled

variable {bound : Nat}

theorem read_zero {p : Procedure} (h : p.height = 0) (input : p.Input) :
    p.read 0 input = Reader.endless := by
  cases p with
  | topLevel | declaration | function | block | declarations | statement | someItems | someParams
  | expression | layer _ | chain _ | operand | primary | separated | several => rfl
  | _ => cases h

/-- A reader that counts its calls follows its plan, and what it calls has one call less. -/
theorem read_succ {p : Procedure} (h : p.height = 0) (input : p.Input) :
    p.read (bound + 1) input = (p.plan input).run (read bound) := by
  cases p with
  | topLevel => simp [read, plan, Reader.topLevel, Plan.topLevel]
  | declaration =>
    show Reader.declaration (bound + 1) = Plan.declaration.run (read bound)
    rw [Reader.declaration, Plan.declaration, Plan.run_bind]
    refine bind_congr fun k => ?_
    split
    · simp [read]
    · simp [read]
    · simp [read]
    · simp [read]
  | function => simp [read, plan, Reader.function, Plan.function]
  | block => simp [read, plan, Reader.block, Plan.block]
  | declarations => simp [read, plan, Reader.declarations, Plan.declarations]
  | statement =>
    show Reader.statement (bound + 1) = Plan.statement.run (read bound)
    rw [Reader.statement, Plan.statement, Plan.run_bind]
    refine bind_congr fun k => ?_
    split <;> simp [read]
  | someItems => simp [read, plan, Plan.run_commas, Reader.someItems_succ]
  | someParams => simp [read, plan, Plan.run_commas, Reader.someParams_succ]
  | several => simp [read, plan, Plan.run_commas, Reader.several_succ]
  | expression =>
    simp [read, plan, Reader.expression, Plan.expression, Operator.loosest, -Fin.reduceLast]
  | layer level =>
    obtain ⟨_ | level, hlevel⟩ := level
    · simp [read, plan, Reader.layer, Plan.layer]
    · simp [read, plan, Reader.layer, Plan.layer]
  | chain level =>
    show Reader.chain (bound + 1) level input = (Plan.chain level input).run (read bound)
    rw [Reader.chain, Plan.chain, Plan.run_bind]
    refine bind_congr fun k => ?_
    split <;> simp [read, *]
  | operand => simp [read, plan, Reader.operand, Plan.operand]
  | primary =>
    show Reader.primary (bound + 1) = Plan.primary.run (read bound)
    rw [Reader.primary, Plan.primary, Plan.run_bind]
    refine bind_congr fun start => ?_
    rw [Plan.run_bind]
    refine bind_congr fun k => ?_
    split <;> simp [read]
  | separated => simp [read, plan, Reader.separated, Plan.separated]
  | _ => cases h

/-- A reader that does not count its calls follows its plan. -/
theorem read_plain {p : Procedure} (h : p.height ≠ 0) (input : p.Input) (uncalled : Refusal) :
    p.read bound input = (p.plan input).run (below bound p.height uncalled) := by
  cases p with
  | program => simp [read, below, height, plan, Reader.program, Plan.program]
  | renameStatement => simp [read, plan, Reader.renameStatement, Plan.renameStatement]
  | importList => simp [read, below, height, plan, Reader.importList?, Plan.importList]
  | importItem => simp [read, plan, Reader.importItem, Plan.importItem]
  | showStatement => simp [read, below, height, plan, Reader.showStatement, Plan.showStatement]
  | returnStatement =>
    simp [read, below, height, plan, Reader.returnStatement, Plan.returnStatement]
  | expressionStatement =>
    simp [read, below, height, plan, Reader.expressionStatement, Plan.expressionStatement]
  | type => simp [read, plan, Reader.type, Plan.type]
  | params => simp [read, below, height, plan, Reader.params, Plan.params]
  | initial => simp [read, below, height, plan, Reader.initial?, Plan.initial]
  | condition => simp [read, below, height, plan, Reader.condition, Plan.condition]
  | variableDeclaration =>
    simp [read, below, height, plan, Reader.variableDeclaration, Plan.variableDeclaration]
  | importStatement =>
    simp [read, below, height, plan, Reader.importStatement, Plan.importStatement]
  | param => simp [read, below, height, plan, Reader.param, Plan.param]
  | _ => exact absurd rfl h

/-! ### What is kept by plans -/

/-- An answer of the reader, with some bound. -/
def Answers (p : Procedure) (input : p.Input) (c : Cursor) (a : p.Result) (d : Cursor) : Prop :=
  ∃ bound, (p.read bound input).run c = .ok (a, d)

end Procedure

/-- What is answered for a procedure is an answer of its reader. -/
def Callees.Honest (callees : Callees) : Prop :=
  ∀ ⦃p input c a d⦄, (callees p input).run c = .ok (a, d) → p.Answers input c a d

namespace Procedure

theorem honest_read (bound : Nat) : Callees.Honest (read bound) := fun _ _ _ _ _ h => ⟨bound, h⟩

theorem honest_below (bound height : Nat) (uncalled : Refusal) :
    Callees.Honest (below bound height uncalled) := by
  intro p input c a d h
  unfold below at h
  split at h
  · exact ⟨bound, h⟩
  · cases h

/-- What holds of giving up, and of following a plan if it holds of what is called, holds of every
reader. -/
theorem read_induction {P : Nat → (p : Procedure) → p.Input → Reader p.Result → Prop}
    (zero : ∀ p input, P 0 p input Reader.endless)
    (weaken : ∀ {bound p input r}, P (bound + 1) p input r → P bound p input r)
    (follow : ∀ {bound callees}, callees.Honest → (∀ p input, P bound p input (callees p input)) →
      ∀ p input, P (bound + 1) p input ((p.plan input).run callees))
    (uncalled : Refusal) (refused : ∀ bound p input, P bound p input (throw uncalled))
    (bound : Nat) : ∀ p input, P bound p input (p.read bound input) := by
  -- The readers that count their calls come first, the others by how often they call each other.
  have hplain {bound : Nat}
      (hcounted : ∀ p input, p.height = 0 → P bound p input (p.read bound input)) (height : Nat) :
      ∀ p input, p.height < height → P bound p input (p.read bound input) := by
    induction height with
    | zero => exact fun _ _ h => absurd h (Nat.not_lt_zero _)
    | succ height ih =>
      intro p input hlt
      by_cases hp : p.height = 0
      · exact hcounted p input hp
      · rw [read_plain hp input uncalled]
        refine weaken (follow (honest_below _ _ _) (fun q i => ?_) p input)
        unfold below
        split
        · rename_i hq
          exact ih q i (Nat.lt_of_lt_of_le hq (Nat.le_of_lt_succ hlt))
        · exact refused bound q i
  have hall {bound : Nat}
      (hcounted : ∀ p input, p.height = 0 → P bound p input (p.read bound input)) (p) (input) :
      P bound p input (p.read bound input) :=
    hplain hcounted (p.height + 1) p input (Nat.lt_succ_self _)
  induction bound with
  | zero => exact hall fun p input hp => read_zero hp input ▸ zero p input
  | succ bound ih =>
    refine hall fun p input hp => ?_
    rw [read_succ hp]
    exact follow (honest_read bound) ih p input

end Procedure

/-! ### Calls -/

namespace Plan

variable {α : Type}

/-- The plan at the cursor comes to another plan at another cursor. -/
inductive Reaches : Plan α → Cursor → Plan α → Cursor → Prop where
  | refl (plan : Plan α) (c : Cursor) : Reaches plan c plan c
  | look {next : Cursor → Plan α} {c d : Cursor} {plan : Plan α} :
    Reaches (next c) c plan d → Reaches (.look next) c plan d
  | advance {next plan : Plan α} {c d : Cursor} :
    Reaches next c.advance plan d → Reaches (.advance next) c plan d
  | ask {p : Procedure} {input : p.Input} {next : p.Result → Plan α} {a : p.Result}
    {plan : Plan α} {c d e : Cursor} : p.Answers input c a e → Reaches (next a) e plan d →
      Reaches (.ask p input next) c plan d

/-- The plan refuses at the cursor. -/
inductive Refuses : Plan α → Cursor → Refusal → Prop where
  | unexpected (e : Expected) (c : Cursor) : Refuses (.unexpected e) c (.unexpected e c)
  | target (span : Span) (c : Cursor) : Refuses (.target span) c (.target span)

/-- What is refused, the plan comes to refuse, or something that it calls does. -/
theorem exists_of_refused {callees : Callees} (hcallees : callees.Honest) {plan : Plan α}
    {c : Cursor} {r : Refusal} (h : (plan.run callees).run c = .error r) :
    (∃ plan' d, plan.Reaches c plan' d ∧ plan'.Refuses d r) ∨
      ∃ p input next d, plan.Reaches c (ask p input next) d ∧
        (callees p input).run d = .error r := by
  induction plan generalizing c with
  | done a => cases h
  | unexpected e =>
    cases h
    exact .inl ⟨_, c, .refl _ c, .unexpected e c⟩
  | target span =>
    cases h
    exact .inl ⟨_, c, .refl _ c, .target span c⟩
  | look next ih =>
    obtain ⟨plan', d, hreach, hrefuses⟩ | ⟨p, input, rest, d, hreach, hrun⟩ := ih c h
    · exact .inl ⟨plan', d, .look hreach, hrefuses⟩
    · exact .inr ⟨p, input, rest, d, .look hreach, hrun⟩
  | advance next ih =>
    obtain ⟨plan', d, hreach, hrefuses⟩ | ⟨p, input, rest, d, hreach, hrun⟩ := ih h
    · exact .inl ⟨plan', d, .advance hreach, hrefuses⟩
    · exact .inr ⟨p, input, rest, d, .advance hreach, hrun⟩
  | ask p input next ih =>
    rw [run, StateT.run_bind] at h
    cases hrun : (callees p input).run c with
    | error refusal =>
      rw [hrun] at h
      cases h
      exact .inr ⟨p, input, next, c, .refl _ c, hrun⟩
    | ok answer =>
      obtain ⟨a, e⟩ := answer
      rw [hrun] at h
      have hanswers := hcallees hrun
      obtain ⟨plan', d, hreach, hrefuses⟩ | ⟨q, i, rest, d, hreach, hrun'⟩ := ih a h
      · exact .inl ⟨plan', d, .ask hanswers hreach, hrefuses⟩
      · exact .inr ⟨q, i, rest, d, .ask hanswers hreach, hrun'⟩

end Plan

/-- The call of a procedure, and where the cursor stands. -/
structure Call where
  procedure : Procedure
  input : procedure.Input
  cursor : Cursor

namespace Call

/-- What is done in the call. -/
def plan (x : Call) : Plan x.procedure.Result := x.procedure.plan x.input

/-- The one call makes the other while it is open. -/
def Asks (x y : Call) : Prop :=
  ∃ next, x.plan.Reaches x.cursor (.ask y.procedure y.input next) y.cursor

variable {bound : Nat} {x : Call} {r : Refusal}

/-- A reader gives up for the reason that more calls are open than its bound allows. -/
theorem exists_open_of_endless
    (h : (x.procedure.read bound x.input).run x.cursor = .error .endless) :
    ∃ stack : List Call, (x :: stack).IsChain Asks ∧ bound ≤ stack.length := by
  refine Procedure.read_induction
    (P := fun bound p input reader => ∀ c, reader.run c = .error .endless →
      ∃ stack : List Call, (⟨p, input, c⟩ :: stack).IsChain Asks ∧ bound ≤ stack.length)
    ?zero ?weaken ?follow (.target (.point .first)) ?refused bound _ x.input x.cursor h
  case zero => exact fun p input c _ => ⟨[], .singleton _, Nat.le_refl 0⟩
  case refused => exact fun bound p input c h => by cases h
  case weaken =>
    intro bound p input reader ih c h
    obtain ⟨stack, hstack, hle⟩ := ih c h
    exact ⟨stack, hstack, Nat.le_of_succ_le hle⟩
  case follow =>
    intro bound callees hcallees ih p input c h
    obtain ⟨_, _, -, hrefuses⟩ | ⟨q, i, next, d, hreach, hrun⟩ :=
      Plan.exists_of_refused hcallees h
    · cases hrefuses
    · obtain ⟨stack, hstack, hle⟩ := ih q i d hrun
      exact ⟨⟨q, i, d⟩ :: stack, .cons_cons ⟨next, hreach⟩ hstack, Nat.succ_le_succ hle⟩

/-- Any other refusal comes from a call that is open. -/
theorem exists_refusing (h : (x.procedure.read bound x.input).run x.cursor = .error r)
    (hr : r ≠ .endless) :
    ∃ y, Relation.ReflTransGen Asks x y ∧
      ∃ plan d, y.plan.Reaches y.cursor plan d ∧ plan.Refuses d r := by
  have hendless {α : Type} {c : Cursor} : (throw .endless : Reader α).run c ≠ .error r := by
    rintro ⟨⟩
    exact hr rfl
  refine Procedure.read_induction
    (P := fun _ p input reader => ∀ c, reader.run c = .error r →
      ∃ y, Relation.ReflTransGen Asks ⟨p, input, c⟩ y ∧
        ∃ plan d, y.plan.Reaches y.cursor plan d ∧ plan.Refuses d r)
    ?zero ?weaken ?follow .endless ?refused bound _ x.input x.cursor h
  case zero => exact fun p input c h => absurd h hendless
  case refused => exact fun _ p input c h => absurd h hendless
  case weaken => exact id
  case follow =>
    intro bound callees hcallees ih p input c h
    obtain ⟨plan, d, hreach, hrefuses⟩ | ⟨q, i, next, d, hreach, hrun⟩ :=
      Plan.exists_of_refused hcallees h
    · exact ⟨_, .refl, plan, d, hreach, hrefuses⟩
    · obtain ⟨y, hy, hrefuses⟩ := ih q i d hrun
      have hasks : Asks ⟨p, input, c⟩ ⟨q, i, d⟩ := ⟨next, hreach⟩
      exact ⟨y, .head hasks hy, hrefuses⟩

end Call

end Playscript

/-
# From tokens to programs

A reader for each phrase of the language. Binary operators bind in four layers,
each to the left; an assignment binds weakest and to the right. A parenthesised
expression keeps the span of what is inside. The bodies of `if`, `while` and
`for` are statements other than declarations, and `else` belongs to the nearest
`if`.

Readers that call each other count their calls down from a bound. The bound of
`Program.ofTokens` is a multiple of the number of tokens, since every few
calls consume a token.
-/
import Playscript.Tree.Cursor

namespace Playscript

/-- The operator a token stands for. -/
def Operator.ofKind? : Token.Kind → Option Operator
  | .mark .plus => some .add
  | .mark .minus => some .subtract
  | .mark .star => some .multiply
  | .mark .slash => some .divide
  | .mark .percent => some .remainder
  | .mark .equal => some .equal
  | .mark .less => some .less
  | .mark .greater => some .greater
  | _ => none

/-- Two operands joined; the span covers both. -/
def Expr.join (left : Expr) (op : Operator) (right : Expr) : Expr :=
  .binary (left.span.merge right.span) op left right

namespace Reader

/-- Called when the bound on calls is used up. -/
def endless {α : Type} : Reader α := throw .endless

/-- An assignment from its two sides; anything but a name is no target. -/
def assignment (target value : Expr) : Reader Expr :=
  match target with
  | .name span n => return .assign (span.merge value.span) ⟨n, span⟩ value
  | other => throw (.target other.span)

/-! ### Expressions -/

mutual

/-- An operation, or an assignment to it. -/
def expression : Nat → Reader Expr
  | 0 => endless
  | bound + 1 => do
    let target ← layer bound Operator.loosest
    if ← eats .assign then
      let value ← expression bound
      assignment target value
    else return target

/-- Operations that bind at least as tightly as a level. -/
def layer : Nat → Nat → Reader Expr
  | 0, _ => endless
  | bound + 1, 0 => operand bound
  | bound + 1, level + 1 => do
    let left ← layer bound level
    chain bound level left

/-- Goes on with the operators of the next level, to the left. -/
def chain : Nat → Nat → Expr → Reader Expr
  | 0, _, _ => endless
  | bound + 1, level, left => do
    match Operator.ofKind? (← kind) with
    | some op =>
      if op.tightness = level + 1 then
        advance
        let right ← layer bound level
        chain bound level (left.join op right)
      else return left
    | none => return left

/-- Signs before a primary expression. -/
def operand : Nat → Reader Expr
  | 0 => endless
  | bound + 1 => do
    if ← sees .minus then
      let start ← here
      advance
      let inner ← operand bound
      return .negate (start.merge inner.span) inner
    else primary bound

/-- Literals, names with a call or an index, parentheses and arrays. -/
def primary : Nat → Reader Expr
  | 0 => endless
  | bound + 1 => do
    let start ← here
    match ← kind with
    | .number x => advance; return .number start x
    | .string s => advance; return .string start s
    | .word .trueWord => advance; return .bool start true
    | .word .falseWord => advance; return .bool start false
    | .name n =>
      advance
      if ← eats .leftParen then
        let arguments ← separated bound .rightParen
        mark .rightParen
        return .call (← since start) ⟨n, start⟩ arguments
      else if ← eats .leftBracket then
        let position ← expression bound
        mark .rightBracket
        return .index (← since start) ⟨n, start⟩ position
      else return .name start n
    | .mark .leftParen =>
      advance
      let inner ← expression bound
      mark .rightParen
      return inner
    | .mark .leftBracket =>
      advance
      let items ← separated bound .rightBracket
      mark .rightBracket
      return .array (← since start) items
    | _ => expected .expression

/-- Expressions between commas, none if the closing mark comes at once. -/
def separated : Nat → Mark → Reader (List Expr)
  | 0, _ => endless
  | bound + 1, close => do
    if ← sees close then return []
    else several bound

/-- One expression or more between commas. -/
def several : Nat → Reader (List Expr)
  | 0 => endless
  | bound + 1 => do
    let first ← expression bound
    if ← eats .comma then
      let others ← several bound
      return first :: others
    else return [first]

end

/-- The value after `=`, if there is one. -/
def initial? (bound : Nat) : Reader (Option Expr) := do
  if ← eats .assign then
    let value ← expression bound
    return some value
  else return none

/-- An expression between parentheses. -/
def condition (bound : Nat) : Reader Expr := do
  mark .leftParen
  let e ← expression bound
  mark .rightParen
  return e

/-! ### Types and parameters -/

/-- A type word, and perhaps a pair of brackets. -/
def type : Reader TypeRef := do
  let start ← here
  let found ← kind
  if found.isType then
    advance
    let element := TypeName.named found.text
    if ← eats .leftBracket then
      mark .rightBracket
      return ⟨.array element, ← since start⟩
    else return ⟨element, ← since start⟩
  else expected .type

/-- A type, a name and perhaps a default. -/
def param (bound : Nat) : Reader Param := do
  let start ← here
  let type ← type
  let name ← name
  let default? ← initial? bound
  return { span := ← since start, type, name, default? }

/-- One parameter or more between commas. -/
def someParams : Nat → Reader (List Param)
  | 0 => endless
  | bound + 1 => do
    let first ← param bound
    if ← eats .comma then
      let others ← someParams bound
      return first :: others
    else return [first]

/-- Parameters between parentheses. -/
def params (bound : Nat) : Reader (List Param) := do
  mark .leftParen
  let ps ← if ← sees .rightParen then pure [] else someParams bound
  mark .rightParen
  return ps

/-! ### Statements without statements inside -/

/-- Reads `type name [= expression];`. -/
def variableDeclaration (bound : Nat) : Reader Stmt := do
  let start ← here
  let type ← type
  let name ← name
  let value? ← initial? bound
  mark .semicolon
  return .declare (← since start) type name value?

/-- Reads `use name as name;`. -/
def renameStatement : Reader Stmt := do
  let start ← here
  advance
  let oldName ← name
  word .asWord
  let newName ← name
  mark .semicolon
  return .rename (← since start) oldName newName

/-- Reads `name [as name]`. -/
def importItem : Reader ImportItem := do
  let oldName ← name
  if ← eatsWord .asWord then
    let newName ← name
    return ⟨oldName, some newName⟩
  else return ⟨oldName, none⟩

/-- One item or more between commas. -/
def someItems : Nat → Reader (List ImportItem)
  | 0 => endless
  | bound + 1 => do
    let first ← importItem
    if ← eats .comma then
      let others ← someItems bound
      return first :: others
    else return [first]

/-- The list of an import between braces, if there is one. -/
def importList? (bound : Nat) : Reader (Option (List ImportItem)) := do
  if ← eats .leftBrace then
    let items ← if ← sees .rightBrace then pure [] else someItems bound
    mark .rightBrace
    word .fromWord
    return some items
  else return none

/-- Reads `import "path";` or `import { items } from "path";`. -/
def importStatement (bound : Nat) : Reader Stmt := do
  let start ← here
  advance
  let items? ← importList? bound
  let source ← string
  mark .semicolon
  return .importFrom (← since start) items? source

/-- Reads `show(expressions);`. -/
def showStatement (bound : Nat) : Reader Stmt := do
  let start ← here
  advance
  mark .leftParen
  let arguments ← separated bound .rightParen
  mark .rightParen
  mark .semicolon
  return .display (← since start) arguments

/-- Reads `return expressions;`. -/
def returnStatement (bound : Nat) : Reader Stmt := do
  let start ← here
  advance
  let values ← separated bound .semicolon
  mark .semicolon
  return .returnValues (← since start) values

/-- Reads `expression;`. -/
def expressionStatement (bound : Nat) : Reader Stmt := do
  let e ← expression bound
  mark .semicolon
  return .evaluate (← since e.span) e

/-! ### Statements and declarations -/

/-- With the cursor at a type: a name and a parenthesis after it start a function. -/
def startsFunction (c : Cursor) : Bool :=
  let offset :=
    if c.ahead 1 == .mark .leftBracket && c.ahead 2 == .mark .rightBracket then 3 else 1
  match c.ahead offset with
  | .name _ => c.ahead (offset + 1) == .mark .leftParen
  | _ => false

mutual

/-- A statement or a declaration. -/
def declaration : Nat → Reader Stmt
  | 0 => endless
  | bound + 1 => do
    match ← kind with
    | .word .importWord => importStatement bound
    | .word .action =>
      let start ← here
      advance
      function bound start none
    | .word .use => renameStatement
    | found =>
      if found.isType then
        if startsFunction (← get) then
          let start ← here
          let returns ← type
          function bound start (some returns)
        else variableDeclaration bound
      else statement bound

/-- A function from its name on. -/
def function : Nat → Span → Option TypeRef → Reader Stmt
  | 0, _, _ => endless
  | bound + 1, start, returns? => do
    let name ← name
    let params ← params bound
    let body ← block bound
    return .action (← since start) name params returns? body

/-- Declarations between braces. -/
def block : Nat → Reader (Block Stmt)
  | 0 => endless
  | bound + 1 => do
    let start ← here
    mark .leftBrace
    let body ← declarations bound
    mark .rightBrace
    return ⟨← since start, body⟩

/-- Declarations up to a closing brace or the end of file. -/
def declarations : Nat → Reader (List Stmt)
  | 0 => endless
  | bound + 1 => do
    if (← kind) == .mark .rightBrace || (← kind) == .endOfFile then return []
    else
      let first ← declaration bound
      let others ← declarations bound
      return first :: others

/-- A statement that is no declaration. -/
def statement : Nat → Reader Stmt
  | 0 => endless
  | bound + 1 => do
    match ← kind with
    | .word .ifWord =>
      let start ← here
      advance
      let test ← condition bound
      let yes ← statement bound
      if ← eatsWord .elseWord then
        let no ← statement bound
        return .branch (← since start) test yes (some no)
      else return .branch (← since start) test yes none
    | .word .whileWord =>
      let start ← here
      advance
      let test ← condition bound
      let body ← statement bound
      return .loopWhile (← since start) test body
    | .word .forWord =>
      let start ← here
      advance
      mark .leftParen
      let counter ← name
      word .inWord
      word .range
      mark .leftParen
      let first ← expression bound
      mark .comma
      let limit ← expression bound
      mark .rightParen
      mark .rightParen
      let body ← statement bound
      return .loopRange (← since start) counter first limit body
    | .word .showWord => showStatement bound
    | .word .returnWord => returnStatement bound
    | .mark .leftBrace =>
      let b ← block bound
      return .block b
    | _ => expressionStatement bound

end

/-- Declarations up to the end of file. -/
def topLevel : Nat → Reader (List Stmt)
  | 0 => endless
  | bound + 1 => do
    if (← kind) == .endOfFile then return []
    else
      let first ← declaration bound
      let others ← topLevel bound
      return first :: others

/-- A whole program. Its span starts with its first token. -/
def program (bound : Nat) : Reader Program := do
  let start ← here
  let body ← topLevel bound
  if body.isEmpty then return ⟨start, []⟩
  else return ⟨← since start, body⟩

end Reader

namespace Program

/-- Enough calls for a list of tokens that holds an end of file. -/
def callBound (tokens : List Token) : Nat := 16 * tokens.length + 16

/-- The program a list of tokens spells. -/
def ofTokens (tokens : List Token) : Except Refusal Program :=
  (Reader.program (callBound tokens)).run' (.ofTokens tokens)

/-- The program of a source, next to what was found wrong in its tokens. -/
def ofSource (source : Source) : Except Diagnostic Program × Log :=
  let lexed := source.lex
  ((ofTokens lexed.tokens).mapError (Refusal.diagnostic source), lexed.log)

end Program

end Playscript

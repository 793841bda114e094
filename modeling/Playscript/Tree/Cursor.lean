/-
# Reading a list of tokens

A cursor stands before a token. Once the list is used up its last token is seen
again and again, and nothing moves any more; looking further ahead than the
list reaches sees an end of file. A reader either moves the cursor and answers
or refuses, and a refusal says what was expected and where the cursor stood.
-/
import Playscript.Token.Lexer
import Playscript.Tree.Basic

namespace Playscript

/-- A place in a list of tokens. -/
structure Cursor where
  /-- What has not been consumed yet. -/
  rest : List Token
  /-- The span of the token consumed last. -/
  previous : Span
  /-- What is seen once nothing is left. -/
  last : Token
deriving Repr

namespace Cursor

/-- The start of a list. An empty list counts as one end of file. -/
def ofTokens (tokens : List Token) : Cursor :=
  { rest := tokens
    previous := .point .first
    last := tokens.getLast?.getD ⟨.endOfFile, .point .first⟩ }

/-- The token the cursor stands before. -/
def token (c : Cursor) : Token := c.rest.headD c.last

/-- The kind of that token. -/
def kind (c : Cursor) : Token.Kind := c.token.kind

/-- The kind `n` tokens further on. -/
def ahead (c : Cursor) (n : Nat) : Token.Kind :=
  match c.rest[n]? with
  | some t => t.kind
  | none => .endOfFile

/-- The cursor behind the token. -/
def advance (c : Cursor) : Cursor :=
  match c.rest with
  | [] => c
  | t :: rest => { c with rest, previous := t.span }

end Cursor

/-- What a reader wants to see. -/
inductive Expected where
  | mark (m : Mark)
  | word (w : Word)
  | name
  | string
  | type
  | expression
deriving DecidableEq, Repr

namespace Expected

/-- How messages put it. -/
def text : Expected → String
  | mark m => s!"'{m.text}'"
  | word w => s!"'{w.text}'"
  | name => "identifier"
  | string => "string literal"
  | type => "type name"
  | expression => "expression"

/-- The code of a diagnostic that misses it. -/
def code : Expected → Code
  | expression => .expectedExpression
  | _ => .unexpectedToken

/-- A missing semicolon is worth a hint. -/
def suggestion? (e : Expected) : Option String :=
  if e = mark .semicolon then some "add ';' at the end of the statement" else none

end Expected

/-- Why tokens are no program. -/
inductive Refusal where
  /-- The token at the cursor is not what was expected. -/
  | unexpected (expected : Expected) (cursor : Cursor)
  /-- Something other than a name is left of an assignment. -/
  | target (span : Span)
  /-- The list has no end of file, and its last token can be read for ever. -/
  | endless
deriving Repr

namespace Refusal

/-- The diagnostic of a refusal. -/
def diagnostic (source : Source) : Refusal → Diagnostic
  | unexpected e c =>
    .inSource source e.code s!"expected {e.text}, got '{c.kind.text}'" c.token.span e.suggestion?
  | target span =>
    .inSource source .invalidTarget "Invalid assignment target." span
      (some "only a variable name can appear left of '='")
  | endless => .inSource source .unexpectedToken "expected 'end of file'" (.point .first) none

end Refusal

/-- A reader of tokens. -/
abbrev Reader (α : Type) := StateT Cursor (Except Refusal) α

namespace Reader

/-- Refuses the token at the cursor. -/
def expected {α : Type} (e : Expected) : Reader α := do throw (.unexpected e (← get))

/-- The kind at the cursor. -/
def kind : Reader Token.Kind := return (← get).kind

/-- The span of the token at the cursor. -/
def here : Reader Span := return (← get).token.span

/-- From a start to the token consumed last. -/
def since (start : Span) : Reader Span := return start.merge (← get).previous

/-- Moves behind the token. -/
def advance : Reader Unit := modify Cursor.advance

/-- Whether the token is a given mark. -/
def sees (m : Mark) : Reader Bool := return (← kind) == .mark m

/-- Consumes a given mark if it is there. -/
def eats (m : Mark) : Reader Bool := do
  if ← sees m then advance; return true
  else return false

/-- Consumes a given word if it is there. -/
def eatsWord (w : Word) : Reader Bool := do
  if (← kind) == .word w then advance; return true
  else return false

/-- Consumes a given mark. -/
def mark (m : Mark) : Reader Unit := do
  unless ← eats m do expected (.mark m)

/-- Consumes a given word. -/
def word (w : Word) : Reader Unit := do
  unless ← eatsWord w do expected (.word w)

/-- Consumes a name. -/
def name : Reader Ident := do
  match ← kind with
  | .name n =>
    let span ← here
    advance
    return ⟨n, span⟩
  | _ => expected .name

/-- Consumes a string. -/
def string : Reader String := do
  match ← kind with
  | .string s => advance; return s
  | _ => expected .string

end Reader

end Playscript

/-
# Programs as trees

Expressions, statements and programs, each node with the span it was read
from. The values of literals are kept as they were read; a name keeps the span
of its own token.
-/
import Playscript.Source.Span

namespace Playscript

/-- A name and where it stands. -/
structure Ident where
  name : String
  span : Span
deriving DecidableEq, Repr

/-- What a declaration says about a value. -/
inductive TypeName where
  | named (name : String)
  | array (element : TypeName)
deriving DecidableEq, Repr

namespace TypeName

/-- A type is written with its brackets last. -/
def text : TypeName → String
  | named n => n
  | array e => e.text ++ "[]"

end TypeName

/-- A type and where it stands. -/
structure TypeRef where
  type : TypeName
  span : Span
deriving DecidableEq, Repr

/-- The operators between two operands. -/
inductive Operator where
  | add | subtract | multiply | divide | remainder
  | equal | less | greater
deriving DecidableEq, Repr

namespace Operator

/-- The sign of an operator. -/
def sign : Operator → String
  | add => "+"
  | subtract => "-"
  | multiply => "*"
  | divide => "/"
  | remainder => "%"
  | equal => "=="
  | less => "<"
  | greater => ">"

/-- How tightly an operator binds: products over sums over comparisons over equality. -/
def tightness : Operator → Nat
  | multiply | divide | remainder => 1
  | add | subtract => 2
  | less | greater => 3
  | equal => 4

/-- The loosest binding there is. -/
def loosest : Nat := 4

end Operator

/-- Expressions. -/
inductive Expr where
  | number (span : Span) (value : Float)
  | string (span : Span) (text : String)
  | bool (span : Span) (value : Bool)
  | array (span : Span) (items : List Expr)
  | name (span : Span) (name : String)
  | index (span : Span) (array : Ident) (position : Expr)
  | call (span : Span) (callee : Ident) (arguments : List Expr)
  | assign (span : Span) (target : Ident) (value : Expr)
  | binary (span : Span) (operator : Operator) (left right : Expr)
  | negate (span : Span) (operand : Expr)
deriving Repr

namespace Expr

/-- Where an expression stands. -/
def span : Expr → Span
  | number s _ | string s _ | bool s _ | array s _ | name s _ | index s _ _
  | call s _ _ | assign s _ _ | binary s _ _ _ | negate s _ => s

end Expr

/-- A parameter of an action. -/
structure Param where
  span : Span
  type : TypeRef
  name : Ident
  default? : Option Expr
deriving Repr

/-- One item of an import list. -/
structure ImportItem where
  name : Ident
  newName? : Option Ident
deriving DecidableEq, Repr

namespace ImportItem

/-- The name an item is bound to. -/
def localName (i : ImportItem) : String := (i.newName?.getD i.name).name

end ImportItem

/-- Statements between braces. -/
structure Block (S : Type) where
  span : Span
  body : List S
deriving Repr

/-- Statements. -/
inductive Stmt where
  | declare (span : Span) (type : TypeRef) (name : Ident) (value? : Option Expr)
  | display (span : Span) (arguments : List Expr)
  | block (block : Block Stmt)
  | branch (span : Span) (condition : Expr) (yes : Stmt) (no? : Option Stmt)
  | loopWhile (span : Span) (condition : Expr) (body : Stmt)
  | loopRange (span : Span) (counter : Ident) (first limit : Expr) (body : Stmt)
  | evaluate (span : Span) (expression : Expr)
  | action (span : Span) (name : Ident) (params : List Param) (returns? : Option TypeRef)
      (body : Block Stmt)
  | rename (span : Span) (oldName newName : Ident)
  | returnValues (span : Span) (values : List Expr)
  | importFrom (span : Span) (items? : Option (List ImportItem)) (source : String)
deriving Repr

namespace Stmt

/-- Where a statement stands. -/
def span : Stmt → Span
  | declare s _ _ _ | display s _ | branch s _ _ _ | loopWhile s _ _ | loopRange s _ _ _ _
  | evaluate s _ | action s _ _ _ _ | rename s _ _ | returnValues s _
  | importFrom s _ _ => s
  | block b => b.span

end Stmt

/-- A whole script. -/
structure Program where
  span : Span
  body : List Stmt
deriving Repr

end Playscript

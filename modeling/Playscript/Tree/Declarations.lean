/-
# The declarations of a script

Declarations set names in the scope they run in: variables, actions, new names
for actions, and what is imported. A branch or a loop runs its body in the same
scope; blocks, counted loops and actions have a scope of their own.
-/
import Playscript.Tree.Basic
import Playscript.Bindings

namespace Playscript
namespace Stmt

/-- Whether a statement is a declaration. -/
def isDeclaration : Stmt → Bool
  | declare .. | action .. | rename .. | importFrom .. => true
  | block .. | display .. | branch .. | loopWhile .. | loopRange .. | evaluate ..
  | returnValues .. => false

/-- The names a declaration sets, those of an import from what its module exports. -/
def localNames (exports : Bindings) : Stmt → List String
  | declare _ _ name _ | action _ name _ _ _ | rename _ _ name => [name.name]
  | importFrom _ none _ => exports.names
  | importFrom _ (some items) _ => items.map ImportItem.localName
  | block .. | display .. | branch .. | loopWhile .. | loopRange .. | evaluate ..
  | returnValues .. => []

mutual

/-- Whether a statement may set new names in the scope it runs in. -/
def declares : Stmt → Bool
  | declare .. | action .. | rename .. | importFrom .. => true
  | branch _ _ yes no? => yes.declares || elseDeclares no?
  | loopWhile _ _ body => body.declares
  | block .. | loopRange .. | display .. | evaluate .. | returnValues .. => false

/-- Whether an else branch may. -/
def elseDeclares : Option Stmt → Bool
  | none => false
  | some s => s.declares

end

mutual

/-- A statement and all statements in it. -/
def parts : Stmt → List Stmt
  | block b => block b :: partsOfBlock b
  | branch span condition yes no? =>
    branch span condition yes no? :: (yes.parts ++ partsOfElse no?)
  | loopWhile span condition body => loopWhile span condition body :: body.parts
  | loopRange span counter first limit body =>
    loopRange span counter first limit body :: body.parts
  | action span name params returns? body =>
    action span name params returns? body :: partsOfBlock body
  | s => [s]

/-- The statements in a block. -/
def partsOfBlock : Block Stmt → List Stmt
  | ⟨_, body⟩ => partsOfAll body

/-- The statements of an else branch. -/
def partsOfElse : Option Stmt → List Stmt
  | none => []
  | some s => s.parts

/-- The statements in a list, with all statements in them. -/
def partsOfAll : List Stmt → List Stmt
  | [] => []
  | s :: rest => s.parts ++ partsOfAll rest

end

/-- The statements right below a statement. -/
def inner : Stmt → List Stmt
  | block b | action _ _ _ _ b => b.body
  | branch _ _ yes no? => yes :: no?.toList
  | loopWhile _ _ body | loopRange _ _ _ _ body => [body]
  | declare .. | display .. | evaluate .. | rename .. | returnValues .. | importFrom .. => []

theorem parts_eq (s : Stmt) : s.parts = s :: partsOfAll s.inner := by
  cases s with
  | block b => cases b; rfl
  | action _ _ _ _ b => cases b; rfl
  | branch _ _ yes no? => cases no? <;> simp [parts, partsOfElse, inner, partsOfAll]
  | loopWhile | loopRange => simp [parts, inner, partsOfAll]
  | _ => rfl

theorem mem_parts_self (s : Stmt) : s ∈ s.parts := by
  rw [parts_eq]
  exact List.mem_cons_self

theorem mem_partsOfAll {part : Stmt} {ss : List Stmt} :
    part ∈ partsOfAll ss ↔ ∃ s ∈ ss, part ∈ s.parts := by
  induction ss with
  | nil => simp [partsOfAll]
  | cons s ss ih => simp [partsOfAll, ih]

end Stmt

/-- The statements of a program, at any depth. -/
def Program.parts (p : Program) : List Stmt := Stmt.partsOfAll p.body

end Playscript

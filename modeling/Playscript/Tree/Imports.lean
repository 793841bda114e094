/-
# The imports of a script

The sources that the import statements of a program name, at any depth. A run
asks for no others.
-/
import Playscript.Tree.Basic

namespace Playscript

mutual

/-- The sources that a statement imports from. -/
def Stmt.sources : Stmt → List String
  | .block b => Stmt.sourcesOfBlock b
  | .branch _ _ yes no? => yes.sources ++ Stmt.sourcesOfElse no?
  | .loopWhile _ _ body => body.sources
  | .loopRange _ _ _ _ body => body.sources
  | .action _ _ _ _ body => Stmt.sourcesOfBlock body
  | .importFrom _ _ source => [source]
  | .declare .. | .display .. | .evaluate .. | .rename .. | .returnValues .. => []

/-- The sources that a block imports from. -/
def Stmt.sourcesOfBlock : Block Stmt → List String
  | ⟨_, body⟩ => Stmt.sourcesOfAll body

/-- The sources that an else branch imports from. -/
def Stmt.sourcesOfElse : Option Stmt → List String
  | none => []
  | some s => s.sources

/-- The sources that a list of statements imports from. -/
def Stmt.sourcesOfAll : List Stmt → List String
  | [] => []
  | s :: rest => s.sources ++ Stmt.sourcesOfAll rest

end

theorem Stmt.sourcesOfBlock_eq (b : Block Stmt) :
    Stmt.sourcesOfBlock b = Stmt.sourcesOfAll b.body := by
  cases b
  rfl

/-- The sources that a program imports from. -/
def Program.sources (p : Program) : List String := Stmt.sourcesOfAll p.body

end Playscript

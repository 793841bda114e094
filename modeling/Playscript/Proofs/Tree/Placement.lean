/-
# Where declarations stand

The body of a branch or of a loop is read as a statement and never as
a declaration, so declarations stand in blocks and at the top of a script only.
Whatever else stands in a script sets no names in the scope it runs in
(`Program.parts_placed`).

Key definitions: `Stmt.Placed`, `Reader.Answers`.
Key theorems: `Reader.placesStatements`, `Program.parts_placed`.
-/
import Playscript.Tree.Declarations
import Playscript.Proofs.Tree.Reading

namespace Playscript

/-! ### Statements -/

/-- Whatever in a statement is no declaration sets no names in the scope it runs in. -/
def Stmt.Placed (s : Stmt) : Prop :=
  ∀ part ∈ s.parts, part.isDeclaration = false → part.declares = false

namespace Stmt.Placed

variable {s : Stmt}

theorem declares_eq (h : s.Placed) (hs : s.isDeclaration = false) : s.declares = false :=
  h s s.mem_parts_self hs

/-- A statement with what stands right below it. -/
theorem node (hinner : ∀ t ∈ s.inner, t.Placed)
    (h : s.isDeclaration = false → s.declares = false) : s.Placed := by
  intro part hpart
  rw [Stmt.parts_eq] at hpart
  rcases List.mem_cons.1 hpart with rfl | hpart
  · exact h
  · obtain ⟨t, ht, hpart⟩ := Stmt.mem_partsOfAll.1 hpart
    exact hinner t ht part hpart

theorem leaf (hinner : s.inner = []) (h : s.isDeclaration = false → s.declares = false) :
    s.Placed := node (by simp [hinner]) h

end Stmt.Placed

/-! ### Readers -/

namespace Reader

variable {α β : Type} {r : Reader α} {f : α → Reader β} {P : α → Prop} {Q : β → Prop}

/-- What a reader answers, wherever it reads. -/
def Answers (r : Reader α) (P : α → Prop) : Prop :=
  ∀ ⦃c a d⦄, r.run c = .ok (a, d) → P a

namespace Answers

theorem pure {a : α} (h : P a) : Answers (Pure.pure a) P := by
  intro c b d hrun
  obtain ⟨rfl, -⟩ := run_pure_ok.1 hrun
  exact h

theorem endless : Answers (endless : Reader α) P := fun _ _ _ h => absurd h not_run_endless

theorem bind (hr : Answers r P) (hf : ∀ a, P a → Answers (f a) Q) : Answers (r >>= f) Q := by
  intro c b d h
  obtain ⟨a, e, hrun, h⟩ := run_bind_ok.1 h
  exact hf a (hr hrun) h

/-- Whatever the first reader answers. -/
theorem next (hf : ∀ a, Answers (f a) Q) : Answers (r >>= f) Q :=
  bind (P := fun _ => True) (fun _ _ _ _ => trivial) fun a _ => hf a

end Answers

/-! ### Statements that hold no others -/

variable {bound : Nat}

theorem places_variableDeclaration : Answers (variableDeclaration bound) Stmt.Placed :=
  .next fun _ => .next fun _ => .next fun _ => .next fun _ => .next fun _ => .next fun _ =>
    .pure (.leaf rfl nofun)

theorem places_renameStatement : Answers renameStatement Stmt.Placed :=
  .next fun _ => .next fun _ => .next fun _ => .next fun _ => .next fun _ => .next fun _ =>
    .next fun _ => .pure (.leaf rfl nofun)

theorem places_importStatement : Answers (importStatement bound) Stmt.Placed :=
  .next fun _ => .next fun _ => .next fun _ => .next fun _ => .next fun _ => .next fun _ =>
    .pure (.leaf rfl nofun)

/-- Placed, and no declaration. -/
def PlacedStatement (s : Stmt) : Prop := s.Placed ∧ s.isDeclaration = false

theorem places_showStatement : Answers (showStatement bound) PlacedStatement :=
  .next fun _ => .next fun _ => .next fun _ => .next fun _ => .next fun _ => .next fun _ =>
    .next fun _ => .pure ⟨.leaf rfl fun _ => rfl, rfl⟩

theorem places_returnStatement : Answers (returnStatement bound) PlacedStatement :=
  .next fun _ => .next fun _ => .next fun _ => .next fun _ => .next fun _ =>
    .pure ⟨.leaf rfl fun _ => rfl, rfl⟩

theorem places_expressionStatement : Answers (expressionStatement bound) PlacedStatement :=
  .next fun _ => .next fun _ => .next fun _ => .pure ⟨.leaf rfl fun _ => rfl, rfl⟩

/-! ### Statements and declarations -/

/-- With so many calls, what the readers of statements answer. -/
structure PlacesStatements (bound : Nat) : Prop where
  declaration : Answers (declaration bound) Stmt.Placed
  function : ∀ start returns?, Answers (function bound start returns?) Stmt.Placed
  block : Answers (block bound) fun b => ∀ s ∈ b.body, s.Placed
  declarations : Answers (declarations bound) fun ss => ∀ s ∈ ss, s.Placed
  statement : Answers (statement bound) PlacedStatement

namespace PlacesStatements

variable (ih : PlacesStatements bound)
include ih

theorem declaration_succ : Answers (Reader.declaration (bound + 1)) Stmt.Placed := by
  refine .next fun found => ?_
  split
  · exact places_importStatement
  · exact .next fun start => .next fun _ => ih.function start none
  · exact places_renameStatement
  · split
    · refine .next fun c => ?_
      split
      · exact .next fun start => .next fun returns => ih.function start (some returns)
      · exact places_variableDeclaration
    · exact fun _ _ _ h => (ih.statement h).1

theorem function_succ (start : Span) (returns? : Option TypeRef) :
    Answers (Reader.function (bound + 1) start returns?) Stmt.Placed := by
  refine .next fun name => .next fun params => .bind ih.block fun body hbody => ?_
  exact .next fun _ => .pure (.node hbody nofun)

theorem block_succ : Answers (Reader.block (bound + 1)) fun b => ∀ s ∈ b.body, s.Placed := by
  refine .next fun start => .next fun _ => .bind ih.declarations fun body hbody => ?_
  exact .next fun _ => .next fun _ => .pure hbody

theorem declarations_succ :
    Answers (Reader.declarations (bound + 1)) fun ss => ∀ s ∈ ss, s.Placed := by
  refine .next fun _ => .next fun _ => ?_
  split
  · exact .pure (List.forall_mem_nil _)
  · exact .bind ih.declaration fun first hfirst => .bind ih.declarations fun others hothers =>
      .pure (List.forall_mem_cons.2 ⟨hfirst, hothers⟩)

theorem statement_succ : Answers (Reader.statement (bound + 1)) PlacedStatement := by
  refine .next fun found => ?_
  split
  · refine .next fun start => .next fun _ => .next fun test => .bind ih.statement fun yes hyes => ?_
    refine .next fun hasElse => ?_
    split
    · refine .bind ih.statement fun no hno => .next fun span => .pure ⟨.node ?_ fun _ => ?_, rfl⟩
      · simpa [Stmt.inner] using ⟨hyes.1, hno.1⟩
      · rw [Stmt.declares, Stmt.elseDeclares, hyes.1.declares_eq hyes.2, hno.1.declares_eq hno.2]
        rfl
    · refine .next fun span => .pure ⟨.node ?_ fun _ => ?_, rfl⟩
      · simpa [Stmt.inner] using hyes.1
      · rw [Stmt.declares, hyes.1.declares_eq hyes.2]
        rfl
  · refine .next fun start => .next fun _ => .next fun test => .bind ih.statement fun body h => ?_
    refine .next fun span => .pure ⟨.node ?_ fun _ => ?_, rfl⟩
    · simpa [Stmt.inner] using h.1
    · rw [Stmt.declares]
      exact h.1.declares_eq h.2
  · refine .next fun start => .next fun _ => .next fun _ => .next fun counter => ?_
    refine .next fun _ => .next fun _ => .next fun _ => .next fun first => ?_
    refine .next fun _ => .next fun limit => .next fun _ => .next fun _ => ?_
    refine .bind ih.statement fun body h => .next fun span => .pure ⟨.node ?_ fun _ => rfl, rfl⟩
    simpa [Stmt.inner] using h.1
  · exact places_showStatement
  · exact places_returnStatement
  · exact .bind ih.block fun b hb => .pure ⟨.node hb fun _ => rfl, rfl⟩
  · exact places_expressionStatement

end PlacesStatements

theorem placesStatements (bound : Nat) : PlacesStatements bound := by
  induction bound with
  | zero => exact ⟨.endless, fun _ _ => .endless, .endless, .endless, .endless⟩
  | succ bound ih =>
    exact ⟨ih.declaration_succ, ih.function_succ, ih.block_succ, ih.declarations_succ,
      ih.statement_succ⟩

theorem places_topLevel (bound : Nat) :
    Answers (topLevel bound) fun ss => ∀ s ∈ ss, s.Placed := by
  induction bound with
  | zero => exact .endless
  | succ bound ih =>
    refine .next fun _ => ?_
    split
    · exact .pure (List.forall_mem_nil _)
    · exact .bind (placesStatements bound).declaration fun first hfirst =>
        .bind ih fun others hothers => .pure (List.forall_mem_cons.2 ⟨hfirst, hothers⟩)

theorem places_program (bound : Nat) : Answers (program bound) fun p => ∀ s ∈ p.body, s.Placed := by
  refine .next fun start => .bind (places_topLevel bound) fun body hbody => ?_
  split
  · exact .pure (List.forall_mem_nil _)
  · exact .next fun span => .pure hbody

end Reader

/-- What stands in a script and is no declaration sets no names in the scope it runs in. -/
theorem Program.parts_placed {tokens : List Token} {p : Program} (h : ofTokens tokens = .ok p)
    {s : Stmt} (hs : s ∈ p.parts) (hdeclaration : s.isDeclaration = false) :
    s.declares = false := by
  obtain ⟨d, hrun⟩ := ofTokens_eq_ok.1 h
  obtain ⟨top, htop, hpart⟩ := Stmt.mem_partsOfAll.1 hs
  exact Reader.places_program _ hrun top htop s hpart hdeclaration

end Playscript

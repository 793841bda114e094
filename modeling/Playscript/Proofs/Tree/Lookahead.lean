/-
# How far readers look

Two lists of tokens that begin alike are read alike, as long as the reader keeps
to what they share: it gives the same answer or the same refusal at the same
place. The second reading may have the larger bound on calls. What a reader does
once it has gone beyond the shared tokens is left open, but it does not come
back to them, and it never goes beyond an end of file (`Fork.Echoes`).

Only the start of a declaration looks further than the token at hand. Where the
shared tokens do not decide whether a function starts there, all of them are
passed in either case (`Undecided`).

Key definitions: `Fork.Echoes`, `Fork.EchoAt`.
Key theorems: `Fork.echoExpressions`, `Fork.echoStatements`, `Fork.echo_program`.
-/
import Playscript.Proofs.Tree.Reading

namespace Playscript

open Token (Kind)

/-- Two ways for tokens to go on, each with the token seen behind it. -/
structure Fork where
  one : List Token
  other : List Token
  last : Token
  otherLast : Token

/-- An outcome leaves so many tokens at most. -/
inductive Leaves {α : Type} (n : Nat) : Except Refusal (α × Cursor) → Prop where
  | ok {a : α} {d : Cursor} : d.rest.length ≤ n → Leaves n (.ok (a, d))
  | unexpected {e : Expected} {d : Cursor} :
    d.rest.length ≤ n → Leaves n (.error (.unexpected e d))
  | target (span : Span) : Leaves n (.error (.target span))
  | endless : Leaves n (.error .endless)

/-- A reader leaves no more tokens than it finds. -/
def Forward {α : Type} (r : Reader α) : Prop := ∀ c, Leaves c.rest.length (r.run c)

section Leaves

variable {α β : Type} {m n : Nat} {x : Except Refusal (α × Cursor)} {r : Reader α}
  {f : α → Reader β} {c : Cursor}

theorem Leaves.mono (h : Leaves m x) (hmn : m ≤ n) : Leaves n x := by
  cases h with
  | ok h => exact .ok (Nat.le_trans h hmn)
  | unexpected h => exact .unexpected (Nat.le_trans h hmn)
  | target span => exact .target span
  | endless => exact .endless

theorem Leaves.bind (h : Leaves n x) (hf : ∀ a, Forward (f a)) :
    Leaves n (x >>= fun p => (f p.1).run p.2) := by
  cases h with
  | @ok a d h => exact (hf a d).mono h
  | unexpected h => exact .unexpected h
  | target span => exact .target span
  | endless => exact .endless

end Leaves

/-- Some tokens are left, and no end of file is among the others. -/
def Remain (us vs : List Token) : Prop :=
  vs ≠ [] ∧ ∃ ws, us = ws ++ vs ∧ ∀ w ∈ ws, w.kind ≠ .endOfFile

theorem Remain.refl {us : List Token} (h : us ≠ []) : Remain us us := ⟨h, [], rfl, by simp⟩

theorem Remain.trans {us vs ws : List Token} (h : Remain us vs) (h' : Remain vs ws) :
    Remain us ws := by
  obtain ⟨-, xs, rfl, hxs⟩ := h
  obtain ⟨hne, ys, rfl, hys⟩ := h'
  refine ⟨hne, xs ++ ys, (List.append_assoc _ _ _).symm, fun w hw => ?_⟩
  obtain hw | hw := List.mem_append.1 hw
  · exact hxs w hw
  · exact hys w hw

namespace Fork

/-- The shared tokens in front of the first way. -/
def left (F : Fork) (us : List Token) (previous : Span) : Cursor := ⟨us ++ F.one, previous, F.last⟩

/-- The shared tokens in front of the second. -/
def right (F : Fork) (us : List Token) (previous : Span) : Cursor :=
  ⟨us ++ F.other, previous, F.otherLast⟩

variable {F : Fork} {α β : Type} {us vs : List Token} {u : Token} {q : Span}

/-- The second outcome is as the first, or the first has left the shared tokens. -/
inductive Echoes (F : Fork) (us : List Token) :
    Except Refusal (α × Cursor) → Except Refusal (α × Cursor) → Prop where
  | ok {a : α} {vs : List Token} {q : Span} :
    Remain us vs → Echoes F us (.ok (a, F.left vs q)) (.ok (a, F.right vs q))
  | unexpected {e : Expected} {vs : List Token} {q : Span} :
    Remain us vs →
      Echoes F us (.error (.unexpected e (F.left vs q))) (.error (.unexpected e (F.right vs q)))
  | target (span : Span) : Echoes F us (.error (.target span)) (.error (.target span))
  | endless (y : Except Refusal (α × Cursor)) : Echoes F us (.error .endless) y
  | beyond {x : Except Refusal (α × Cursor)} (y : Except Refusal (α × Cursor)) :
    (∀ u ∈ us, u.kind ≠ .endOfFile) → Leaves F.one.length x → Echoes F us x y

theorem Echoes.widen {x y : Except Refusal (α × Cursor)} (hus : Remain us vs)
    (h : Echoes F vs x y) : Echoes F us x y := by
  cases h with
  | ok h => exact .ok (hus.trans h)
  | unexpected h => exact .unexpected (hus.trans h)
  | target span => exact .target span
  | endless => exact .endless y
  | beyond _ h hx =>
    obtain ⟨-, ws, rfl, hws⟩ := hus
    refine .beyond y (fun u hu => ?_) hx
    obtain hu | hu := List.mem_append.1 hu
    · exact hws u hu
    · exact h u hu

/-- The first reader never goes back, and where the shared tokens start with a suitable kind the
second echoes it. -/
structure EchoAt (F : Fork) (p : Kind → Prop) (r r' : Reader α) : Prop where
  forward : Forward r
  echoes : ∀ u us q, p u.kind → Echoes F (u :: us) (r.run (F.left (u :: us) q))
    (r'.run (F.right (u :: us) q))

/-- The second reader echoes the first wherever tokens are shared. -/
abbrev Echo (F : Fork) (r r' : Reader α) : Prop := EchoAt F (fun _ => True) r r'

namespace EchoAt

variable {p : Kind → Prop} {r r' : Reader α} {f f' : α → Reader β}

theorem mono {p' : Kind → Prop} (h : EchoAt F p r r') (hp : ∀ {k}, p' k → p k) :
    EchoAt F p' r r' := ⟨h.forward, fun u us q hu => h.echoes u us q (hp hu)⟩

theorem pure (a : α) : EchoAt F p (Pure.pure a) (Pure.pure a) where
  forward _ := .ok (Nat.le_refl _)
  echoes u us _ _ := .ok (.refl (List.cons_ne_nil u us))

theorem endless (r' : Reader α) : EchoAt F p Reader.endless r' where
  forward _ := .endless
  echoes _ _ _ _ := .endless _

theorem expected (e : Expected) :
    EchoAt F p (Reader.expected e : Reader α) (Reader.expected e) where
  forward _ := .unexpected (Nat.le_refl _)
  echoes u us _ _ := .unexpected (.refl (List.cons_ne_nil u us))

theorem bind (h : EchoAt F p r r') (hf : ∀ a, Echo F (f a) (f' a)) :
    EchoAt F p (r >>= f) (r' >>= f') where
  forward c := by
    rw [StateT.run_bind]
    exact (h.forward c).bind fun a => (hf a).forward
  echoes u us q hu := by
    have hr := h.echoes u us q hu
    rw [StateT.run_bind, StateT.run_bind]
    generalize r.run (F.left (u :: us) q) = x at hr
    generalize r'.run (F.right (u :: us) q) = y at hr
    cases hr with
    | @ok a vs q hus =>
      obtain ⟨v, vs, rfl⟩ := List.exists_cons_of_ne_nil hus.1
      exact ((hf a).echoes v vs q trivial).widen hus
    | unexpected hus => exact .unexpected hus
    | target span => exact .target span
    | endless => exact .endless _
    | beyond _ hus hx => exact .beyond _ hus (hx.bind fun a => (hf a).forward)

/-- A reader that looks at the kind at hand. -/
theorem kind {f f' : Kind → Reader α} (h : ∀ k, EchoAt F (· = k) (f k) (f' k)) :
    EchoAt F p (Reader.kind >>= f) (Reader.kind >>= f') where
  forward c := (h c.kind).forward c
  echoes u us q _ := (h u.kind).echoes u us q rfl

theorem here {f f' : Span → Reader α} (h : ∀ span, EchoAt F p (f span) (f' span)) :
    EchoAt F p (Reader.here >>= f) (Reader.here >>= f') where
  forward c := (h c.token.span).forward c
  echoes u us q hu := (h u.span).echoes u us q hu

theorem since (start : Span) {f f' : Span → Reader α} (h : ∀ span, EchoAt F p (f span) (f' span)) :
    EchoAt F p (Reader.since start >>= f) (Reader.since start >>= f') where
  forward c := (h (start.merge c.previous)).forward c
  echoes u us q hu := (h (start.merge q)).echoes u us q hu

theorem sees (m : Mark) {f f' : Bool → Reader α}
    (h : ∀ b, EchoAt F (fun k => (k == .mark m) = b) (f b) (f' b)) :
    EchoAt F p (Reader.sees m >>= f) (Reader.sees m >>= f') where
  forward c := (h (c.kind == .mark m)).forward c
  echoes u us q _ := (h (u.kind == .mark m)).echoes u us q rfl

end EchoAt

theorem advance_length (c : Cursor) : c.advance.rest.length ≤ c.rest.length := by
  rw [Cursor.advance]
  split
  · exact Nat.le_refl _
  · rename_i h
    rw [h]
    exact Nat.le_succ _

/-- Moving behind a token other than an end of file. -/
theorem EchoAt.advance {p : Kind → Prop} (hp : ∀ {k}, p k → k ≠ .endOfFile) {r r' : Reader α}
    (h : Echo F r r') :
    EchoAt F p (do Reader.advance; r) (do Reader.advance; r') where
  forward c := (h.forward c.advance).mono (advance_length c)
  echoes u us q hu := by
    have hne : u.kind ≠ .endOfFile := hp hu
    cases us with
    | nil =>
      refine .beyond _ (fun v hv => ?_) (h.forward (F.left [] u.span))
      rwa [List.mem_singleton.1 hv]
    | cons v vs =>
      have hus : Remain (u :: v :: vs) (v :: vs) :=
        ⟨List.cons_ne_nil v vs, [u], rfl, fun w hw => (List.mem_singleton.1 hw).symm ▸ hne⟩
      exact (h.echoes v vs u.span trivial).widen hus

namespace EchoAt

variable {p : Kind → Prop}

/-- Moving behind a kind that is known. -/
theorem skip {k : Kind} (hk : k ≠ .endOfFile) {r r' : Reader α} (h : Echo F r r') :
    EchoAt F (· = k) (do Reader.advance; r) (do Reader.advance; r') :=
  .advance (by rintro _ rfl; exact hk) h

theorem eats (m : Mark) : EchoAt F p (Reader.eats m) (Reader.eats m) := by
  refine .sees m fun b => ?_
  cases b with
  | false => exact .pure false
  | true => exact .advance (by rintro _ hk rfl; cases hk) (.pure true)

theorem eatsWord (w : Word) : EchoAt F p (Reader.eatsWord w) (Reader.eatsWord w) := by
  refine .kind fun k => ?_
  split
  · rename_i hk
    exact .advance (by rintro _ rfl rfl; cases hk) (.pure true)
  · exact .pure false

theorem mark (m : Mark) : EchoAt F p (Reader.mark m) (Reader.mark m) := by
  refine (eats m).bind fun b => ?_
  cases b with
  | false => exact .expected _
  | true => exact .pure ()

theorem word (w : Word) : EchoAt F p (Reader.word w) (Reader.word w) := by
  refine (eatsWord w).bind fun b => ?_
  cases b with
  | false => exact .expected _
  | true => exact .pure ()

theorem name : EchoAt F p Reader.name Reader.name := by
  refine .kind fun k => ?_
  split
  · exact .here fun span => .skip (by simp) (.pure _)
  · exact .expected _

theorem string : EchoAt F p Reader.string Reader.string := by
  refine .kind fun k => ?_
  split
  · exact .skip (by simp) (.pure _)
  · exact .expected _

end EchoAt

open Reader

/-! ### Expressions -/

/-- With a bound and a larger one, the readers of expressions echo each other. -/
structure EchoExpressions (F : Fork) (bound larger : Nat) : Prop where
  expression : Echo F (expression bound) (expression larger)
  layer : ∀ level, Echo F (layer bound level) (layer larger level)
  chain : ∀ level left, Echo F (chain bound level left) (chain larger level left)
  operand : Echo F (operand bound) (operand larger)
  primary : Echo F (primary bound) (primary larger)
  separated : ∀ close, Echo F (separated bound close) (separated larger close)
  several : Echo F (several bound) (several larger)

variable {bound larger : Nat}

theorem exists_larger (h : bound + 1 ≤ larger) : ∃ n, larger = n + 1 ∧ bound ≤ n :=
  ⟨larger - 1, by omega, by omega⟩

theorem echo_commas {one one' : Reader α} {others others' : Reader (List α)} (h : Echo F one one')
    (hs : Echo F others others') : Echo F (commas one others) (commas one' others') := by
  refine h.bind fun first => (EchoAt.eats .comma).bind fun b => ?_
  cases b with
  | false => exact .pure _
  | true => exact hs.bind fun _ => .pure _

theorem echo_listed {close : Mark} {some some' : Reader (List α)} {f f' : List α → Reader β}
    (hsome : Echo F some some') (hf : ∀ as, Echo F (f as) (f' as)) :
    Echo F (do if ← sees close then Pure.pure [] >>= f else some >>= f)
      (do if ← sees close then Pure.pure [] >>= f' else some' >>= f') := by
  refine .sees close fun b => ?_
  cases b with
  | false => exact (hsome.bind hf).mono fun _ => trivial
  | true => exact (hf []).mono fun _ => trivial

theorem echo_assignment (target value : Expr) :
    Echo F (assignment target value) (assignment target value) := by
  unfold assignment
  split
  · exact .pure _
  · exact ⟨fun _ => .target _, fun _ _ _ _ => .target _⟩

theorem EchoExpressions.succ (ih : EchoExpressions F bound larger) :
    EchoExpressions F (bound + 1) (larger + 1) where
  expression := by
    refine (ih.layer _).bind fun target => (EchoAt.eats .assign).bind fun b => ?_
    cases b with
    | false => exact .pure _
    | true => exact ih.expression.bind fun value => echo_assignment target value
  layer level := by
    cases level with
    | zero => exact ih.operand
    | succ level => exact (ih.layer level).bind fun left => ih.chain level left
  chain level left := by
    refine .kind fun k => ?_
    cases hop : Operator.ofKind? k with
    | none => exact .pure left
    | some op =>
      dsimp only
      split
      · refine .advance (by rintro _ rfl rfl; cases hop) ?_
        exact (ih.layer level).bind fun right => ih.chain level _
      · exact .pure left
  operand := by
    refine .sees .minus fun b => ?_
    cases b with
    | false => exact ih.primary.mono fun _ => trivial
    | true =>
      refine .here fun start => .advance (by rintro _ hk rfl; cases hk) ?_
      exact ih.operand.bind fun inner => .pure _
  primary := by
    refine .here fun start => .kind fun k => ?_
    split
    case h_5 n =>
      refine .skip (by simp) ((EchoAt.eats .leftParen).bind fun b => ?_)
      cases b with
      | true =>
        refine (ih.separated .rightParen).bind fun arguments => (EchoAt.mark _).bind fun _ => ?_
        exact .since start fun span => .pure _
      | false =>
        refine (EchoAt.eats .leftBracket).bind fun b => ?_
        cases b with
        | true =>
          refine ih.expression.bind fun position => (EchoAt.mark _).bind fun _ => ?_
          exact .since start fun span => .pure _
        | false => exact .pure _
    case h_6 =>
      exact .skip (by simp) (ih.expression.bind fun _ => (EchoAt.mark _).bind fun _ => .pure _)
    case h_7 =>
      refine .skip (by simp) ((ih.separated .rightBracket).bind fun items => ?_)
      exact (EchoAt.mark _).bind fun _ => .since start fun span => .pure _
    case h_8 => exact .expected _
    all_goals exact .skip (by simp) (.pure _)
  separated close := by
    refine .sees close fun b => ?_
    cases b with
    | false => exact ih.several.mono fun _ => trivial
    | true => exact .pure []
  several := echo_commas ih.expression ih.several

theorem echoExpressions (h : bound ≤ larger) : EchoExpressions F bound larger := by
  induction bound generalizing larger with
  | zero => constructor <;> intros <;> exact .endless _
  | succ bound ih =>
    obtain ⟨larger, rfl, hle⟩ := exists_larger h
    exact (ih hle).succ

/-! ### Parts of statements -/

/-- The rest of a type, behind its word. -/
def typeRest (element : TypeName) (start : Span) : Reader TypeRef := do
  if ← eats .leftBracket then
    mark .rightBracket
    return ⟨.array element, ← since start⟩
  else return ⟨element, ← since start⟩

/-- The rest of a variable's declaration, behind its name. -/
def variableRest (bound : Nat) (start : Span) (type : TypeRef) (name : Ident) : Reader Stmt := do
  let value? ← initial? bound
  mark .semicolon
  return .declare (← since start) type name value?

section Parts

variable (h : bound ≤ larger)
include h

theorem echo_initial : Echo F (initial? bound) (initial? larger) := by
  refine (EchoAt.eats .assign).bind fun b => ?_
  cases b with
  | false => exact .pure _
  | true => exact (echoExpressions h).expression.bind fun _ => .pure _

theorem echo_condition : Echo F (condition bound) (condition larger) :=
  (EchoAt.mark _).bind fun _ => (echoExpressions h).expression.bind fun _ =>
    (EchoAt.mark _).bind fun _ => .pure _

omit h in
theorem echo_typeRest (element : TypeName) (start : Span) :
    Echo F (typeRest element start) (typeRest element start) := by
  refine (EchoAt.eats .leftBracket).bind fun b => ?_
  cases b with
  | false => exact .since start fun _ => .pure _
  | true => exact (EchoAt.mark _).bind fun _ => .since start fun _ => .pure _

omit h in
theorem echo_type : Echo F type type := by
  refine .here fun start => .kind fun k => ?_
  split
  · rename_i htype
    exact .skip (by rintro rfl; cases htype) (echo_typeRest _ start)
  · exact .expected _

theorem echo_param : Echo F (param bound) (param larger) :=
  .here fun start => echo_type.bind fun _ => EchoAt.name.bind fun _ =>
    (echo_initial h).bind fun _ => .since start fun _ => .pure _

theorem echo_someParams : Echo F (someParams bound) (someParams larger) := by
  induction bound generalizing larger with
  | zero => exact .endless _
  | succ bound ih =>
    obtain ⟨larger, rfl, hle⟩ := exists_larger h
    exact echo_commas (echo_param hle) (ih hle)

theorem echo_params : Echo F (params bound) (params larger) := by
  refine (EchoAt.mark _).bind fun _ => echo_listed (echo_someParams h) fun ps => ?_
  exact (EchoAt.mark _).bind fun _ => .pure _

theorem echo_variableRest (start : Span) (type : TypeRef) (name : Ident) :
    Echo F (variableRest bound start type name) (variableRest larger start type name) :=
  (echo_initial h).bind fun _ => (EchoAt.mark _).bind fun _ => .since start fun _ => .pure _

theorem echo_variableDeclaration :
    Echo F (variableDeclaration bound) (variableDeclaration larger) :=
  .here fun start => echo_type.bind fun type => EchoAt.name.bind fun name =>
    echo_variableRest h start type name

omit h in
theorem echo_renameStatement : EchoAt F (· = .word .use) renameStatement renameStatement :=
  .here fun start => .skip (by simp) <| EchoAt.name.bind fun _ => (EchoAt.word _).bind fun _ =>
    EchoAt.name.bind fun _ => (EchoAt.mark _).bind fun _ => .since start fun _ => .pure _

omit h in
theorem echo_importItem : Echo F importItem importItem := by
  refine EchoAt.name.bind fun oldName => (EchoAt.eatsWord _).bind fun b => ?_
  cases b with
  | false => exact .pure _
  | true => exact EchoAt.name.bind fun _ => .pure _

theorem echo_someItems : Echo F (someItems bound) (someItems larger) := by
  induction bound generalizing larger with
  | zero => exact .endless _
  | succ bound ih =>
    obtain ⟨larger, rfl, hle⟩ := exists_larger h
    exact echo_commas echo_importItem (ih hle)

theorem echo_importList : Echo F (importList? bound) (importList? larger) := by
  refine (EchoAt.eats .leftBrace).bind fun b => ?_
  cases b with
  | false => exact .pure _
  | true =>
    refine echo_listed (echo_someItems h) fun items => ?_
    exact (EchoAt.mark _).bind fun _ => (EchoAt.word _).bind fun _ => .pure _

theorem echo_importStatement :
    EchoAt F (· = .word .importWord) (importStatement bound) (importStatement larger) :=
  .here fun start => .skip (by simp) <| (echo_importList h).bind fun _ =>
    EchoAt.string.bind fun _ => (EchoAt.mark _).bind fun _ => .since start fun _ => .pure _

theorem echo_showStatement :
    EchoAt F (· = .word .showWord) (showStatement bound) (showStatement larger) :=
  .here fun start => .skip (by simp) <| (EchoAt.mark _).bind fun _ =>
    ((echoExpressions h).separated _).bind fun _ => (EchoAt.mark _).bind fun _ =>
      (EchoAt.mark _).bind fun _ => .since start fun _ => .pure _

theorem echo_returnStatement :
    EchoAt F (· = .word .returnWord) (returnStatement bound) (returnStatement larger) :=
  .here fun start => .skip (by simp) <| ((echoExpressions h).separated _).bind fun _ =>
    (EchoAt.mark _).bind fun _ => .since start fun _ => .pure _

theorem echo_expressionStatement :
    Echo F (expressionStatement bound) (expressionStatement larger) :=
  (echoExpressions h).expression.bind fun _ => (EchoAt.mark _).bind fun _ =>
    .since _ fun _ => .pure _

end Parts

/-! ### Where a declaration starts -/

/-- Tokens behind a type word that leave open whether a function starts at it. -/
inductive Undecided : List Token → Prop where
  | nothing : Undecided []
  | name {a : Token} {n : String} : a.kind = .name n → Undecided [a]
  | bracket {a : Token} : a.kind = .mark .leftBracket → Undecided [a]
  | brackets {a b : Token} :
    a.kind = .mark .leftBracket → b.kind = .mark .rightBracket → Undecided [a, b]
  | named {a b c : Token} {n : String} :
    a.kind = .mark .leftBracket → b.kind = .mark .rightBracket → c.kind = .name n →
      Undecided [a, b, c]

theorem Undecided.kind_ne (h : Undecided us) : ∀ a ∈ us, a.kind ≠ .endOfFile := by
  cases h <;> simp [*]

/-- A name and an opening parenthesis. -/
def headsParameters (k next : Kind) : Bool :=
  match k with
  | .name _ => next == .mark .leftParen
  | _ => false

theorem headsParameters_of_ne {k : Kind} (h : ∀ n, k ≠ .name n) (next : Kind) :
    headsParameters k next = false := by
  unfold headsParameters
  split
  · exact absurd rfl (h _)
  · rfl

theorem startsFunction_of_brackets {c : Cursor} (h : c.ahead 1 = .mark .leftBracket)
    (h' : c.ahead 2 = .mark .rightBracket) :
    startsFunction c = headsParameters (c.ahead 3) (c.ahead 4) := by
  rw [startsFunction, h, h']
  rfl

theorem startsFunction_of_not {c : Cursor}
    (h : ¬ (c.ahead 1 = .mark .leftBracket ∧ c.ahead 2 = .mark .rightBracket)) :
    startsFunction c = headsParameters (c.ahead 1) (c.ahead 2) := by
  have hne : (c.ahead 1 == .mark .leftBracket && c.ahead 2 == .mark .rightBracket) = false := by
    rw [Bool.eq_false_iff]
    simpa using h
  rw [startsFunction, hne]
  rfl

/-- Either the shared tokens decide whether a function starts, or they are all the head of one. -/
theorem startsFunction_eq_or (F : Fork) (u : Token) (us : List Token) (q : Span) :
    startsFunction (F.left (u :: us) q) = startsFunction (F.right (u :: us) q) ∨ Undecided us := by
  match us with
  | [] => exact .inr .nothing
  | [a] =>
    by_cases hbracket : a.kind = .mark .leftBracket
    · exact .inr (.bracket hbracket)
    by_cases hname : ∃ n, a.kind = .name n
    · exact .inr (hname.elim fun n => .name)
    · have hfalse {c : Cursor} (h : c.ahead 1 = a.kind) : startsFunction c = false := by
        rw [startsFunction_of_not fun h' => hbracket (h ▸ h'.1), h]
        exact headsParameters_of_ne (fun n hn => hname ⟨n, hn⟩) _
      exact .inl ((hfalse rfl).trans (hfalse rfl).symm)
  | a :: b :: us =>
    by_cases hbrackets : a.kind = .mark .leftBracket ∧ b.kind = .mark .rightBracket
    · obtain ⟨ha, hb⟩ := hbrackets
      have hheads {e : Cursor} {k next : Kind} (h : e.ahead 1 = a.kind) (h' : e.ahead 2 = b.kind)
          (hk : e.ahead 3 = k) (hnext : e.ahead 4 = next) :
          startsFunction e = headsParameters k next := by
        rw [startsFunction_of_brackets (h.trans ha) (h'.trans hb), hk, hnext]
      match us with
      | [] => exact .inr (.brackets ha hb)
      | [c] =>
        by_cases hname : ∃ n, c.kind = .name n
        · exact .inr (hname.elim fun n => .named ha hb)
        · have hne (n : String) : c.kind ≠ .name n := fun h => hname ⟨n, h⟩
          have hfalse {e : Cursor} (h : e.ahead 1 = a.kind) (h' : e.ahead 2 = b.kind)
              (hk : e.ahead 3 = c.kind) : startsFunction e = false :=
            (hheads h h' hk rfl).trans (headsParameters_of_ne hne _)
          exact .inl ((hfalse rfl rfl rfl).trans (hfalse rfl rfl rfl).symm)
      | c :: d :: us =>
        have hc {e : Cursor} := @hheads e c.kind d.kind
        exact .inl ((hc rfl rfl rfl rfl).trans (hc rfl rfl rfl rfl).symm)
    · have hheads {c : Cursor} (h : c.ahead 1 = a.kind) (h' : c.ahead 2 = b.kind) :
          startsFunction c = headsParameters a.kind b.kind := by
        rw [startsFunction_of_not fun hc => hbrackets ⟨h ▸ hc.1, h' ▸ hc.2⟩, h, h']
      exact .inl ((hheads rfl rfl).trans (hheads rfl rfl).symm)

section Head

variable {c : Cursor}

theorem run_type (hc : c.kind.isType) :
    type.run c = (typeRest (.named c.kind.text) c.token.span).run c.advance := by
  rw [type, run_bind_of_ok (run_here c), run_bind_of_ok (run_kind c), if_pos hc,
    run_bind_of_ok (run_advance c)]
  rfl

theorem run_type_plain (hc : c.kind.isType) (h : c.advance.kind ≠ .mark .leftBracket) :
    ∃ t, type.run c = .ok (t, c.advance) := by
  rw [run_type hc, typeRest, run_bind_of_ok (run_eats_of_ne h)]
  exact ⟨_, rfl⟩

theorem run_type_array (hc : c.kind.isType) (h : c.advance.kind = .mark .leftBracket)
    (h' : c.advance.advance.kind = .mark .rightBracket) :
    ∃ t, type.run c = .ok (t, c.advance.advance.advance) := by
  rw [run_type hc, typeRest, run_bind_of_ok (run_eats_of_eq h), if_pos rfl,
    run_bind_of_ok (run_mark_of_eq h')]
  exact ⟨_, rfl⟩

/-- Behind a type word that leaves open what starts, the head of a function is passed. -/
theorem leaves_typed {f : TypeRef → Reader α} (hf : ∀ t, Forward (f t))
    (hname : ∀ t c n, c.kind = .name n → Leaves c.advance.rest.length ((f t).run c))
    (hu : u.kind.isType) (h : Undecided us) :
    Leaves F.one.length ((type >>= f).run (F.left (u :: us) q)) := by
  cases h with
  | nothing =>
    have hrun := run_type (c := F.left [u] q) hu
    rw [StateT.run_bind, hrun]
    exact ((echo_typeRest (F := F) _ _).forward (F.left [] u.span)).bind hf
  | @bracket a ha =>
    have hrun := run_type (c := F.left [u, a] q) hu
    have hopen := run_eats_of_eq (c := F.left [a] u.span) ha
    have hclose (element : TypeName) (start : Span) : Echo F
        (do mark .rightBracket; return ⟨.array element, ← since start⟩ : Reader TypeRef)
        (do mark .rightBracket; return ⟨.array element, ← since start⟩) :=
      (EchoAt.mark _).bind fun _ => .since start fun _ => .pure _
    rw [StateT.run_bind, hrun]
    refine Leaves.bind ?_ hf
    show Leaves _ ((typeRest _ _).run (F.left [a] u.span))
    rw [typeRest, run_bind_of_ok hopen]
    exact (hclose _ _).forward (F.left [] a.span)
  | @brackets a b ha hb =>
    obtain ⟨t, ht⟩ := run_type_array (c := F.left [u, a, b] q) hu ha hb
    rw [run_bind_of_ok ht]
    exact hf t (F.left [] b.span)
  | @name a n ha =>
    have hne : a.kind ≠ .mark .leftBracket := by simp [ha]
    obtain ⟨t, ht⟩ := run_type_plain (c := F.left [u, a] q) hu hne
    rw [run_bind_of_ok ht]
    exact hname t (F.left [a] u.span) n ha
  | @named a b c n ha hb hn =>
    obtain ⟨t, ht⟩ := run_type_array (c := F.left [u, a, b, c] q) hu ha hb
    rw [run_bind_of_ok ht]
    exact hname t (F.left [c] b.span) n hn

end Head

/-- What starts with a type word, read as a function or as a variable. -/
theorem EchoAt.typed {asFunction asFunction' asVariable asVariable' : Reader α}
    (hfunction : Echo F asFunction asFunction') (hvariable : Echo F asVariable asVariable')
    (hleaves : ∀ u us q, u.kind.isType → Undecided us →
      Leaves F.one.length (asFunction.run (F.left (u :: us) q)) ∧
        Leaves F.one.length (asVariable.run (F.left (u :: us) q))) :
    EchoAt F (·.isType)
      (do if startsFunction (← get) then asFunction else asVariable)
      (do if startsFunction (← get) then asFunction' else asVariable') where
  forward c := by
    rw [run_bind_of_ok (rfl : (get : Reader Cursor).run c = .ok (c, c))]
    split
    · exact hfunction.forward c
    · exact hvariable.forward c
  echoes u us q hu := by
    -- If the two ways are taken differently, the shared tokens are left by either.
    have hget (c : Cursor) : (get : Reader Cursor).run c = .ok (c, c) := rfl
    rw [run_bind_of_ok (hget _), run_bind_of_ok (hget _)]
    obtain hsame | hus := startsFunction_eq_or F u us q
    · rw [hsame]
      split
      · exact hfunction.echoes u us q trivial
      · exact hvariable.echoes u us q trivial
    · obtain ⟨hfun, hvar⟩ := hleaves u us q hu hus
      have hne : u.kind ≠ .endOfFile := fun h => by
        rw [h] at hu
        cases hu
      refine .beyond _ (List.forall_mem_cons.2 ⟨hne, hus.kind_ne⟩) ?_
      split
      · exact hfun
      · exact hvar

/-! ### Statements and declarations -/

/-- With a bound and a larger one, the readers of statements echo each other. -/
structure EchoStatements (F : Fork) (bound larger : Nat) : Prop where
  declaration : Echo F (declaration bound) (declaration larger)
  function : ∀ start returns?,
    Echo F (function bound start returns?) (function larger start returns?)
  /-- A function's name is passed before anything can be refused. -/
  named : ∀ start returns? (c : Cursor) n, c.kind = .name n →
    Leaves c.advance.rest.length ((Reader.function bound start returns?).run c)
  block : Echo F (block bound) (block larger)
  declarations : Echo F (declarations bound) (declarations larger)
  statement : Echo F (statement bound) (statement larger)

theorem leaves_name {f : Ident → Reader α} (hf : ∀ i, Forward (f i)) {c : Cursor} {n : String}
    (hk : c.kind = .name n) : Leaves c.advance.rest.length ((name >>= f).run c) := by
  rw [run_bind_of_ok (run_name_of_eq hk)]
  exact hf _ _

theorem leaves_variableDeclaration (hu : u.kind.isType) (hus : Undecided us) :
    Leaves F.one.length ((variableDeclaration bound).run (F.left (u :: us) q)) := by
  have hrest (start : Span) (type : TypeRef) (name : Ident) :
      Forward (variableRest bound start type name) :=
    (echo_variableRest (F := F) (Nat.le_refl bound) start type name).forward
  have hnamed (start : Span) (type : TypeRef) :
      Forward (do variableRest bound start type (← name)) :=
    (EchoAt.name.bind fun name => echo_variableRest (F := F) (Nat.le_refl bound) start type name :
      Echo F _ _).forward
  rw [variableDeclaration, run_bind_of_ok (run_here _)]
  exact leaves_typed (hnamed _) (fun t c n hk => leaves_name (hrest _ t) hk) hu hus

/-- The rest of a function, behind its name. -/
def functionRest (bound : Nat) (start : Span) (returns? : Option TypeRef) (name : Ident) :
    Reader Stmt := do
  let params ← params bound
  let body ← block bound
  return .action (← since start) name params returns? body

theorem EchoStatements.functionRest (ih : EchoStatements F bound larger) (hle : bound ≤ larger)
    (start : Span) (returns? : Option TypeRef) (name : Ident) :
    Echo F (functionRest bound start returns? name) (functionRest larger start returns? name) :=
  (echo_params hle).bind fun _ => ih.block.bind fun _ => .since start fun _ => .pure _

theorem EchoStatements.succ (hle : bound ≤ larger) (ih : EchoStatements F bound larger) :
    EchoStatements F (bound + 1) (larger + 1) where
  declaration := by
    refine .kind fun k => ?_
    split
    case h_1 => exact echo_importStatement hle
    case h_2 =>
      exact .here fun start => .skip (by simp) (ih.function start none)
    case h_3 => exact echo_renameStatement
    case h_4 =>
      split
      · rename_i htype
        refine (EchoAt.typed ?_ (echo_variableDeclaration hle) ?_).mono fun hk => hk ▸ htype
        · exact .here fun start => echo_type.bind fun returns => ih.function start (some returns)
        · refine fun u us q hu hus => ⟨?_, leaves_variableDeclaration hu hus⟩
          rw [run_bind_of_ok (run_here _)]
          exact leaves_typed (fun t => (ih.function _ (some t)).forward)
            (fun t => ih.named _ (some t)) hu hus
      · exact ih.statement.mono fun _ => trivial
  function start returns? := EchoAt.name.bind fun name => ih.functionRest hle start returns? name
  named start returns? c n hk :=
    leaves_name (fun name => (ih.functionRest hle start returns? name).forward) hk
  block :=
    .here fun start => (EchoAt.mark _).bind fun _ => ih.declarations.bind fun _ =>
      (EchoAt.mark _).bind fun _ => .since start fun _ => .pure _
  declarations := by
    refine .kind fun k => .mono ?_ fun _ => trivial
    refine .kind fun k' => ?_
    split
    · exact .pure _
    · refine .mono ?_ fun _ => trivial
      exact ih.declaration.bind fun _ => ih.declarations.bind fun _ => .pure _
  statement := by
    refine .kind fun k => ?_
    split
    case h_1 =>
      refine .here fun start => .skip (by simp) ((echo_condition hle).bind fun test => ?_)
      refine ih.statement.bind fun yes => (EchoAt.eatsWord _).bind fun b => ?_
      cases b with
      | false => exact .since start fun _ => .pure _
      | true => exact ih.statement.bind fun no => .since start fun _ => .pure _
    case h_2 =>
      exact .here fun start => .skip (by simp) <| (echo_condition hle).bind fun _ =>
        ih.statement.bind fun _ => .since start fun _ => .pure _
    case h_3 =>
      refine .here fun start => .skip (by simp) <| (EchoAt.mark _).bind fun _ => ?_
      refine EchoAt.name.bind fun counter => (EchoAt.word _).bind fun _ => ?_
      refine (EchoAt.word _).bind fun _ => (EchoAt.mark _).bind fun _ => ?_
      refine (echoExpressions hle).expression.bind fun first => (EchoAt.mark _).bind fun _ => ?_
      refine (echoExpressions hle).expression.bind fun limit => (EchoAt.mark _).bind fun _ => ?_
      exact (EchoAt.mark _).bind fun _ => ih.statement.bind fun _ => .since start fun _ => .pure _
    case h_4 => exact echo_showStatement hle
    case h_5 => exact echo_returnStatement hle
    case h_6 => exact (ih.block.bind fun _ => .pure _).mono fun _ => trivial
    case h_7 => exact (echo_expressionStatement hle).mono fun _ => trivial

theorem echoStatements (h : bound ≤ larger) : EchoStatements F bound larger := by
  induction bound generalizing larger with
  | zero =>
    constructor <;> intros <;> first | exact .endless _ | exact .endless
  | succ bound ih =>
    obtain ⟨larger, rfl, hle⟩ := exists_larger h
    exact (ih hle).succ hle

theorem echo_topLevel (h : bound ≤ larger) : Echo F (topLevel bound) (topLevel larger) := by
  induction bound generalizing larger with
  | zero => exact .endless _
  | succ bound ih =>
    obtain ⟨larger, rfl, hle⟩ := exists_larger h
    refine .kind fun k => ?_
    split
    · exact .pure _
    · refine .mono ?_ fun _ => trivial
      exact (echoStatements hle).declaration.bind fun _ => (ih hle).bind fun _ => .pure _

/-- Programs are read alike as far as their tokens are alike. -/
theorem echo_program (h : bound ≤ larger) : Echo F (program bound) (program larger) := by
  refine .here fun start => (echo_topLevel h).bind fun body => ?_
  split
  · exact .pure _
  · exact .since start fun _ => .pure _

end Fork

end Playscript

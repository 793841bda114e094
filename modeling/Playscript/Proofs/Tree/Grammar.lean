/-
# The grammar

Which token kinds spell which tree. Trees carry no places here: `bare` blanks
the spans a reader puts in.

Expressions have a rank. At rank 0 stand literals, names with at most one call
or index, arrays, expressions in parentheses, and these with signs before them.
At the ranks 1 to 4 an operator of that tightness joins a left side of its own
rank to a tighter right side, so operators bind to the left. At rank 5
an assignment has a name on the left, perhaps in parentheses, and an assignment
on the right.

Statements are closed or dangling: a dangling one ends in an `if` that an `else`
could still go with. Only a closed statement stands before `else`, so `else`
goes with the nearest `if`.

Key definitions: `Grammar.Spells`, `Grammar.Derives`, `Grammar.Script`.
Key theorems: `Grammar.Derives.isAction_iff`.
-/
import Playscript.Tree.Parser

namespace Playscript

open Token (Kind)

/-! ### Trees without places -/

/-- The span of what has no place. -/
def Span.nowhere : Span := .point .first

def Ident.bare (i : Ident) : Ident := ⟨i.name, .nowhere⟩

def TypeRef.bare (t : TypeRef) : TypeRef := ⟨t.type, .nowhere⟩

mutual

/-- An expression without places. -/
def Expr.bare : Expr → Expr
  | .number _ x => .number .nowhere x
  | .string _ s => .string .nowhere s
  | .bool _ b => .bool .nowhere b
  | .array _ items => .array .nowhere (Expr.bareAll items)
  | .name _ n => .name .nowhere n
  | .index _ items position => .index .nowhere items.bare position.bare
  | .call _ callee arguments => .call .nowhere callee.bare (Expr.bareAll arguments)
  | .assign _ target value => .assign .nowhere target.bare value.bare
  | .binary _ op left right => .binary .nowhere op left.bare right.bare
  | .negate _ operand => .negate .nowhere operand.bare

def Expr.bareAll : List Expr → List Expr
  | [] => []
  | e :: es => e.bare :: Expr.bareAll es

end

theorem Expr.bareAll_eq_map (es : List Expr) : Expr.bareAll es = es.map Expr.bare := by
  induction es with
  | nil => rfl
  | cons e es ih => rw [Expr.bareAll, ih, List.map_cons]

def Param.bare (p : Param) : Param :=
  { span := .nowhere, type := p.type.bare, name := p.name.bare,
    default? := p.default?.map Expr.bare }

def ImportItem.bare (i : ImportItem) : ImportItem := ⟨i.name.bare, i.newName?.map Ident.bare⟩

mutual

/-- A statement without places. -/
def Stmt.bare : Stmt → Stmt
  | .declare _ type name value? => .declare .nowhere type.bare name.bare (value?.map Expr.bare)
  | .display _ arguments => .display .nowhere (Expr.bareAll arguments)
  | .block ⟨_, body⟩ => .block ⟨.nowhere, Stmt.bareAll body⟩
  | .branch _ condition yes none => .branch .nowhere condition.bare yes.bare none
  | .branch _ condition yes (some no) => .branch .nowhere condition.bare yes.bare (some no.bare)
  | .loopWhile _ condition body => .loopWhile .nowhere condition.bare body.bare
  | .loopRange _ counter first limit body =>
    .loopRange .nowhere counter.bare first.bare limit.bare body.bare
  | .evaluate _ e => .evaluate .nowhere e.bare
  | .action _ name params returns? ⟨_, body⟩ =>
    .action .nowhere name.bare (params.map Param.bare) (returns?.map TypeRef.bare)
      ⟨.nowhere, Stmt.bareAll body⟩
  | .rename _ oldName newName => .rename .nowhere oldName.bare newName.bare
  | .returnValues _ values => .returnValues .nowhere (Expr.bareAll values)
  | .importFrom _ items? source =>
    .importFrom .nowhere (items?.map (List.map ImportItem.bare)) source

def Stmt.bareAll : List Stmt → List Stmt
  | [] => []
  | s :: ss => s.bare :: Stmt.bareAll ss

end

/-- A script without places. -/
def Program.bare (p : Program) : Program := ⟨.nowhere, Stmt.bareAll p.body⟩

/-! ### Kinds in a row -/

theorem Operator.tightness_pos (op : Operator) : 0 < op.tightness := by cases op <;> decide

theorem Operator.tightness_le (op : Operator) : op.tightness ≤ 4 := by cases op <;> decide

/-- The token kind of an operator. -/
def Operator.kind : Operator → Kind
  | add => .mark .plus
  | subtract => .mark .minus
  | multiply => .mark .star
  | divide => .mark .slash
  | remainder => .mark .percent
  | equal => .mark .equal
  | less => .mark .less
  | greater => .mark .greater

theorem Operator.ofKind?_eq_some {k : Kind} {op : Operator} :
    Operator.ofKind? k = some op ↔ k = op.kind := by
  refine ⟨fun h => ?_, fun h => h ▸ by cases op <;> rfl⟩
  unfold Operator.ofKind? at h
  split at h <;> first | (cases h; rfl) | cases h

namespace Grammar

def parens (ks : List Kind) : List Kind := .mark .leftParen :: (ks ++ [.mark .rightParen])

def brackets (ks : List Kind) : List Kind := .mark .leftBracket :: (ks ++ [.mark .rightBracket])

def braces (ks : List Kind) : List Kind := .mark .leftBrace :: (ks ++ [.mark .rightBrace])

/-- The word for a truth value. -/
def boolWord : Bool → Word
  | true => .trueWord
  | false => .falseWord

section Lists

variable {α : Type} (P : List Kind → α → Prop)

/-- One phrase or more between commas. -/
inductive Commas : List Kind → List α → Prop where
  | one {ks : List Kind} {a : α} : P ks a → Commas ks [a]
  | more {ks ls : List Kind} {a : α} {as : List α} :
    P ks a → Commas ls as → Commas (ks ++ .mark .comma :: ls) (a :: as)

/-- Phrases between commas, or nothing. -/
inductive Listed : List Kind → List α → Prop where
  | none : Listed [] []
  | some {ks : List Kind} {as : List α} : Commas P ks as → Listed ks as

/-- Phrases with nothing between them. -/
inductive Row : List Kind → List α → Prop where
  | nil : Row [] []
  | cons {ks ls : List Kind} {a : α} {as : List α} :
    P ks a → Row ls as → Row (ks ++ ls) (a :: as)

end Lists

/-! ### Expressions -/

/-- The kinds spell the expression, and no operator looser than the rank stands outside
parentheses and brackets. -/
inductive Spells : Nat → List Kind → Expr → Prop where
  | number (x : Float) : Spells 0 [.number x] (.number .nowhere x)
  | string (s : String) : Spells 0 [.string s] (.string .nowhere s)
  | bool (b : Bool) : Spells 0 [.word (boolWord b)] (.bool .nowhere b)
  | name (n : String) : Spells 0 [.name n] (.name .nowhere n)
  | call (n : String) {ks : List Kind} {es : List Expr} :
    Listed (Spells 5) ks es → Spells 0 (.name n :: parens ks) (.call .nowhere ⟨n, .nowhere⟩ es)
  | index (n : String) {ks : List Kind} {e : Expr} :
    Spells 5 ks e → Spells 0 (.name n :: brackets ks) (.index .nowhere ⟨n, .nowhere⟩ e)
  | array {ks : List Kind} {es : List Expr} :
    Listed (Spells 5) ks es → Spells 0 (brackets ks) (.array .nowhere es)
  | enclosed {ks : List Kind} {e : Expr} : Spells 5 ks e → Spells 0 (parens ks) e
  | negate {ks : List Kind} {e : Expr} :
    Spells 0 ks e → Spells 0 (.mark .minus :: ks) (.negate .nowhere e)
  | looser {rank : Nat} {ks : List Kind} {e : Expr} :
    rank < 5 → Spells rank ks e → Spells (rank + 1) ks e
  | join {rank : Nat} {op : Operator} {ks ls : List Kind} {left right : Expr} :
    op.tightness = rank + 1 → Spells (rank + 1) ks left → Spells rank ls right →
      Spells (rank + 1) (ks ++ op.kind :: ls) (.binary .nowhere op left right)
  | assign {n : String} {ks ls : List Kind} {e : Expr} :
    Spells 4 ks (.name .nowhere n) → Spells 5 ls e →
      Spells 5 (ks ++ .mark .assign :: ls) (.assign .nowhere ⟨n, .nowhere⟩ e)

/-! ### Parts of statements -/

/-- A type word, perhaps with brackets behind it. -/
inductive Types : List Kind → TypeRef → Prop where
  | plain {w : Word} : w.isType → Types [.word w] ⟨.named w.text, .nowhere⟩
  | array {w : Word} :
    w.isType → Types (.word w :: brackets []) ⟨.array (.named w.text), .nowhere⟩

/-- The value after `=`, or nothing. -/
inductive Initial : List Kind → Option Expr → Prop where
  | none : Initial [] none
  | some {ks : List Kind} {e : Expr} : Spells 5 ks e → Initial (.mark .assign :: ks) (some e)

inductive Parameter : List Kind → Param → Prop where
  | mk {ks ls : List Kind} {type : TypeRef} (n : String) {value? : Option Expr} :
    Types ks type → Initial ls value? → Parameter (ks ++ .name n :: ls)
      { span := .nowhere, type, name := ⟨n, .nowhere⟩, default? := value? }

/-- An item of an import list. -/
inductive Item : List Kind → ImportItem → Prop where
  | plain (n : String) : Item [.name n] ⟨⟨n, .nowhere⟩, none⟩
  | renamed (n m : String) :
    Item [.name n, .word .asWord, .name m] ⟨⟨n, .nowhere⟩, some ⟨m, .nowhere⟩⟩

/-- What a function starts with: `action`, or the type it returns. -/
inductive Returns : List Kind → Option TypeRef → Prop where
  | action : Returns [.word .action] none
  | typed {ks : List Kind} {type : TypeRef} : Types ks type → Returns ks (some type)

/-! ### Statements -/

/-- Where a statement may stand. -/
inductive Role where
  /-- The body of `if`, `while` and `for`. -/
  | statement (dangling : Bool)
  /-- Anywhere else. -/
  | declaration
deriving DecidableEq

inductive Derives : Role → List Kind → Stmt → Prop where
  | evaluate {ks : List Kind} {e : Expr} :
    Spells 5 ks e →
      Derives (.statement false) (ks ++ [.mark .semicolon]) (.evaluate .nowhere e)
  | display {ks : List Kind} {es : List Expr} :
    Listed (Spells 5) ks es →
      Derives (.statement false) (.word .showWord :: (parens ks ++ [.mark .semicolon]))
        (.display .nowhere es)
  | returnValues {ks : List Kind} {es : List Expr} :
    Listed (Spells 5) ks es →
      Derives (.statement false) (.word .returnWord :: (ks ++ [.mark .semicolon]))
        (.returnValues .nowhere es)
  | block {ks : List Kind} {body : List Stmt} :
    Row (Derives .declaration) ks body →
      Derives (.statement false) (braces ks) (.block ⟨.nowhere, body⟩)
  | branch {ks ls : List Kind} {e : Expr} {dangling : Bool} {yes : Stmt} :
    Spells 5 ks e → Derives (.statement dangling) ls yes →
      Derives (.statement true) (.word .ifWord :: (parens ks ++ ls))
        (.branch .nowhere e yes none)
  | branchElse {ks ls ms : List Kind} {e : Expr} {dangling : Bool} {yes no : Stmt} :
    Spells 5 ks e → Derives (.statement false) ls yes → Derives (.statement dangling) ms no →
      Derives (.statement dangling)
        (.word .ifWord :: (parens ks ++ (ls ++ .word .elseWord :: ms)))
        (.branch .nowhere e yes (some no))
  | loopWhile {ks ls : List Kind} {e : Expr} {dangling : Bool} {body : Stmt} :
    Spells 5 ks e → Derives (.statement dangling) ls body →
      Derives (.statement dangling) (.word .whileWord :: (parens ks ++ ls))
        (.loopWhile .nowhere e body)
  | loopRange (n : String) {ks ls ms : List Kind} {first limit : Expr} {dangling : Bool}
      {body : Stmt} :
    Spells 5 ks first → Spells 5 ls limit → Derives (.statement dangling) ms body →
      Derives (.statement dangling)
        (.word .forWord ::
          (parens (.name n :: .word .inWord :: .word .range :: parens (ks ++ .mark .comma :: ls))
            ++ ms))
        (.loopRange .nowhere ⟨n, .nowhere⟩ first limit body)
  | statement {ks : List Kind} {s : Stmt} {dangling : Bool} :
    Derives (.statement dangling) ks s → Derives .declaration ks s
  | declare (n : String) {ks ls : List Kind} {type : TypeRef} {value? : Option Expr} :
    Types ks type → Initial ls value? →
      Derives .declaration (ks ++ .name n :: (ls ++ [.mark .semicolon]))
        (.declare .nowhere type ⟨n, .nowhere⟩ value?)
  | function (n : String) {ks ls ms : List Kind} {returns? : Option TypeRef} {params : List Param}
      {body : List Stmt} :
    Returns ks returns? → Listed Parameter ls params → Row (Derives .declaration) ms body →
      Derives .declaration (ks ++ .name n :: (parens ls ++ braces ms))
        (.action .nowhere ⟨n, .nowhere⟩ params returns? ⟨.nowhere, body⟩)
  | rename (n m : String) :
    Derives .declaration
      [.word .use, .name n, .word .asWord, .name m, .mark .semicolon]
      (.rename .nowhere ⟨n, .nowhere⟩ ⟨m, .nowhere⟩)
  | importAll (source : String) :
    Derives .declaration [.word .importWord, .string source, .mark .semicolon]
      (.importFrom .nowhere none source)
  | importSome (source : String) {ks : List Kind} {items : List ImportItem} :
    Listed Item ks items →
      Derives .declaration
        (.word .importWord ::
          (braces ks ++ [.word .fromWord, .string source, .mark .semicolon]))
        (.importFrom .nowhere (some items) source)

/-- A whole script: declarations in a row. -/
def Script (ks : List Kind) (p : Program) : Prop :=
  p.span = .nowhere ∧ Row (Derives .declaration) ks p.body

/-! ### First kinds -/

/-- What an expression may start with. -/
def opensExpression : Kind → Bool
  | .number _ | .string _ | .name _ | .word .trueWord | .word .falseWord
  | .mark .minus | .mark .leftParen | .mark .leftBracket => true
  | _ => false

/-- What a statement other than a declaration may start with. -/
def opensStatement : Kind → Bool
  | .word .ifWord | .word .whileWord | .word .forWord | .word .showWord | .word .returnWord
  | .mark .leftBrace => true
  | k => opensExpression k

/-- What a declaration may start with. -/
def opensDeclaration : Kind → Bool
  | .word .importWord | .word .action | .word .use => true
  | k => k.isType || opensStatement k

theorem opensStatement_of_expression {k : Kind} (h : opensExpression k) : opensStatement k := by
  unfold opensStatement
  split <;> first | rfl | exact h

theorem opensDeclaration_of_statement {k : Kind} (h : opensStatement k) : opensDeclaration k := by
  unfold opensDeclaration
  split <;> first | rfl | rw [h, Bool.or_true]

theorem not_opensStatement_of_type {w : Word} : w.isType → ¬ opensStatement (.word w) := by
  cases w <;> decide

theorem opensDeclaration_of_type {w : Word} (h : w.isType) : opensDeclaration (.word w) := by
  cases w <;> first | rfl | cases h

theorem Spells.head {rank : Nat} {ks : List Kind} {e : Expr} :
    Spells rank ks e → ∃ k ls, ks = k :: ls ∧ opensExpression k
  | .number _ | .string _ | .bool true | .bool false | .name _ | .call _ _ | .index _ _
  | .array _ | .enclosed _ | .negate _ => ⟨_, _, rfl, rfl⟩
  | .looser _ h => h.head
  | .join _ h _ | .assign h _ => by
    obtain ⟨k, ls, rfl, hk⟩ := h.head
    exact ⟨k, _, rfl, hk⟩

theorem Types.head {ks : List Kind} {t : TypeRef} (h : Types ks t) :
    ∃ w ls, ks = .word w :: ls ∧ w.isType := by
  cases h with
  | plain hw => exact ⟨_, _, rfl, hw⟩
  | array hw => exact ⟨_, _, rfl, hw⟩

theorem Derives.statement_head {dangling : Bool} {ks : List Kind} {s : Stmt}
    (h : Derives (.statement dangling) ks s) : ∃ k ls, ks = k :: ls ∧ opensStatement k := by
  cases h with
  | evaluate he =>
    obtain ⟨k, ls, rfl, hk⟩ := he.head
    exact ⟨k, _, rfl, opensStatement_of_expression hk⟩
  | _ => exact ⟨_, _, rfl, rfl⟩

theorem Derives.declaration_head {ks : List Kind} {s : Stmt} (h : Derives .declaration ks s) :
    ∃ k ls, ks = k :: ls ∧ opensDeclaration k := by
  cases h with
  | statement hs =>
    obtain ⟨k, ls, rfl, hk⟩ := hs.statement_head
    exact ⟨k, ls, rfl, opensDeclaration_of_statement hk⟩
  | declare n ht _ =>
    obtain ⟨w, ls, rfl, hw⟩ := ht.head
    exact ⟨_, _, rfl, opensDeclaration_of_type hw⟩
  | function n hr _ _ =>
    cases hr with
    | action => exact ⟨_, _, rfl, rfl⟩
    | typed ht =>
      obtain ⟨w, ls, rfl, hw⟩ := ht.head
      exact ⟨_, _, rfl, opensDeclaration_of_type hw⟩
  | _ => exact ⟨_, _, rfl, rfl⟩

/-! ### Functions and variables -/

/-- Behind a type word: perhaps a pair of brackets, then a name and a parenthesis. -/
def HeadsFunction (ks : List Kind) : Prop :=
  ∃ n ls, ks = .name n :: .mark .leftParen :: ls ∨
    ks = .mark .leftBracket :: .mark .rightBracket :: .name n :: .mark .leftParen :: ls

end Grammar

/-- Whether a statement declares a function. -/
def Stmt.isAction : Stmt → Bool
  | .action .. => true
  | _ => false

namespace Grammar

/-- A variable's name is followed by its value or by the end. -/
theorem Initial.not_paren {ks ls ms : List Kind} {value? : Option Expr} (h : Initial ks value?) :
    ks ++ .mark .semicolon :: ls ≠ .mark .leftParen :: ms := by
  cases h <;> exact fun heq => nomatch (List.cons.inj heq).1

/-- What starts with a type word is a function exactly if a name and a parenthesis follow,
whatever stands behind it. -/
theorem Derives.isAction_iff {w : Word} {ks : List Kind} {s : Stmt}
    (h : Derives .declaration (.word w :: ks) s) (hw : w.isType) (tail : List Kind) :
    s.isAction ↔ HeadsFunction (ks ++ tail) := by
  generalize hws : Kind.word w :: ks = ws at h
  cases h with
  | statement hs =>
    obtain ⟨k, ls, rfl, hk⟩ := hs.statement_head
    obtain ⟨rfl, -⟩ := List.cons.inj hws
    exact absurd hk (not_opensStatement_of_type hw)
  | @declare n ls ms t value? ht hv =>
    refine iff_of_false Bool.false_ne_true ?_
    have hparen (more : List Kind) :
        ms ++ [.mark .semicolon] ++ tail ≠ .mark .leftParen :: more := by
      rw [List.append_assoc]
      exact hv.not_paren
    cases ht with
    | plain =>
      obtain ⟨-, rfl⟩ := List.cons.inj hws
      rintro ⟨m, more, heq | heq⟩
      · exact hparen more (List.cons.inj heq).2
      · cases heq
    | array =>
      obtain ⟨-, rfl⟩ := List.cons.inj hws
      rintro ⟨m, more, heq | heq⟩
      · cases heq
      · exact hparen more (List.cons.inj (List.cons.inj (List.cons.inj heq).2).2).2
  | function n hr hps hbody =>
    refine iff_of_true rfl ?_
    cases hr with
    | action =>
      cases hws
      cases hw
    | typed ht =>
      cases ht with
      | plain =>
        obtain ⟨-, rfl⟩ := List.cons.inj hws
        exact ⟨n, _, .inl rfl⟩
      | array =>
        obtain ⟨-, rfl⟩ := List.cons.inj hws
        exact ⟨n, _, .inr rfl⟩
  | rename | importAll | importSome =>
    obtain ⟨hword, -⟩ := List.cons.inj hws
    cases hword
    cases hw

end Grammar

end Playscript

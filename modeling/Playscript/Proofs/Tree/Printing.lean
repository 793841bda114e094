/-
# Trees as kinds in a row

A tree is printed with parentheses only around an expression that is looser
than its place allows. What is printed spells the tree (`script_printed`).

The trees that are printed are those with a shape: a type is a type word,
perhaps with brackets; the body of `if`, `while` and `for` is no declaration,
and the statement before `else` does not end in an `if` without `else`. Whatever
the grammar derives has a shape (`Script.shaped`).

Key definitions: `Expr.printed`, `Stmt.printed`, `Program.printed`,
`Program.Shaped`.
Key theorems: `Grammar.script_printed`, `Grammar.Script.shaped`.
-/
import Playscript.Proofs.Tree.Grammar

namespace Playscript

open Token (Kind)
open Grammar

/-! ### Printing -/

/-- How loose an expression is outside parentheses and brackets. -/
def Expr.rank : Expr → Nat
  | .assign .. => 5
  | .binary _ op _ _ => op.tightness
  | _ => 0

/-- Kinds of an expression in parentheses, unless the place allows its rank. -/
def Expr.within (e : Expr) (rank : Nat) (ks : List Kind) : List Kind :=
  if e.rank ≤ rank then ks else parens ks

mutual

/-- The kinds of an expression, with parentheses where they are needed. -/
def Expr.printed : Expr → List Kind
  | .number _ x => [.number x]
  | .string _ s => [.string s]
  | .bool _ b => [.word (boolWord b)]
  | .array _ items => brackets (Expr.printedAll items)
  | .name _ n => [.name n]
  | .index _ items position => .name items.name :: brackets position.printed
  | .call _ callee arguments => .name callee.name :: parens (Expr.printedAll arguments)
  | .assign _ target value => .name target.name :: .mark .assign :: value.printed
  | .binary _ op left right =>
    left.within op.tightness left.printed ++
      op.kind :: right.within (op.tightness - 1) right.printed
  | .negate _ operand => .mark .minus :: operand.within 0 operand.printed

def Expr.printedAll : List Expr → List Kind
  | [] => []
  | [e] => e.printed
  | e :: e' :: es => e.printed ++ .mark .comma :: Expr.printedAll (e' :: es)

end

/-- Phrases between commas. -/
def Grammar.commaed {α : Type} (printed : α → List Kind) : List α → List Kind
  | [] => []
  | [a] => printed a
  | a :: b :: as => printed a ++ .mark .comma :: commaed printed (b :: as)

theorem Expr.printedAll_eq (es : List Expr) : Expr.printedAll es = commaed Expr.printed es := by
  induction es with
  | nil => rfl
  | cons e es ih =>
    cases es with
    | nil => rfl
    | cons e' es => rw [Expr.printedAll, ih, commaed]

/-- A type word, and brackets for an array. -/
def TypeName.printed : TypeName → List Kind
  | .named n => [.ofWord n]
  | .array element => element.printed ++ brackets []

def Expr.printedInitial : Option Expr → List Kind
  | none => []
  | some e => .mark .assign :: e.printed

def Param.printed (p : Param) : List Kind :=
  p.type.type.printed ++ .name p.name.name :: Expr.printedInitial p.default?

def ImportItem.printed (i : ImportItem) : List Kind :=
  match i.newName? with
  | none => [.name i.name.name]
  | some n => [.name i.name.name, .word .asWord, .name n.name]

/-- What a function starts with. -/
def TypeRef.printedReturns : Option TypeRef → List Kind
  | none => [.word .action]
  | some t => t.type.printed

mutual

/-- The kinds of a statement. -/
def Stmt.printed : Stmt → List Kind
  | .declare _ type name value? =>
    type.type.printed ++ .name name.name :: (Expr.printedInitial value? ++ [.mark .semicolon])
  | .display _ arguments =>
    .word .showWord :: (parens (Expr.printedAll arguments) ++ [.mark .semicolon])
  | .block ⟨_, body⟩ => braces (Stmt.printedAll body)
  | .branch _ condition yes none => .word .ifWord :: (parens condition.printed ++ yes.printed)
  | .branch _ condition yes (some no) =>
    .word .ifWord :: (parens condition.printed ++ (yes.printed ++ .word .elseWord :: no.printed))
  | .loopWhile _ condition body =>
    .word .whileWord :: (parens condition.printed ++ body.printed)
  | .loopRange _ counter first limit body =>
    .word .forWord ::
      (parens (.name counter.name :: .word .inWord :: .word .range ::
        parens (first.printed ++ .mark .comma :: limit.printed)) ++ body.printed)
  | .evaluate _ e => e.printed ++ [.mark .semicolon]
  | .action _ name params returns? ⟨_, body⟩ =>
    TypeRef.printedReturns returns? ++
      .name name.name :: (parens (commaed Param.printed params) ++ braces (Stmt.printedAll body))
  | .rename _ oldName newName =>
    [.word .use, .name oldName.name, .word .asWord, .name newName.name, .mark .semicolon]
  | .returnValues _ values => .word .returnWord :: (Expr.printedAll values ++ [.mark .semicolon])
  | .importFrom _ none source => [.word .importWord, .string source, .mark .semicolon]
  | .importFrom _ (some items) source =>
    .word .importWord ::
      (braces (commaed ImportItem.printed items) ++
        [.word .fromWord, .string source, .mark .semicolon])

def Stmt.printedAll : List Stmt → List Kind
  | [] => []
  | s :: ss => s.printed ++ Stmt.printedAll ss

end

def Program.printed (p : Program) : List Kind := Stmt.printedAll p.body

/-! ### Shapes -/

/-- A type word, or an array of one. -/
def TypeName.Shaped : TypeName → Prop
  | .named n | .array (.named n) => ∃ w : Word, w.isType ∧ w.text = n
  | .array (.array _) => False

/-- Whether a statement ends in an `if` without `else`. -/
def Stmt.dangles : Stmt → Bool
  | .branch _ _ _ none => true
  | .branch _ _ _ (some no) => no.dangles
  | .loopWhile _ _ body | .loopRange _ _ _ _ body => body.dangles
  | _ => false

/-- Whether a statement is no declaration. -/
def Stmt.isPlain : Stmt → Bool
  | .declare .. | .action .. | .rename .. | .importFrom .. => false
  | _ => true

mutual

/-- The statements that can be written down. -/
def Stmt.Shaped : Stmt → Prop
  | .declare _ type _ _ => type.type.Shaped
  | .block ⟨_, body⟩ => Stmt.AllShaped body
  | .branch _ _ yes none => yes.isPlain ∧ yes.Shaped
  | .branch _ _ yes (some no) =>
    (yes.isPlain ∧ yes.dangles = false ∧ yes.Shaped) ∧ no.isPlain ∧ no.Shaped
  | .loopWhile _ _ body | .loopRange _ _ _ _ body => body.isPlain ∧ body.Shaped
  | .action _ _ params returns? ⟨_, body⟩ =>
    (∀ p ∈ params, p.type.type.Shaped) ∧ (∀ t ∈ returns?, t.type.Shaped) ∧ Stmt.AllShaped body
  | _ => True

def Stmt.AllShaped : List Stmt → Prop
  | [] => True
  | s :: ss => s.Shaped ∧ Stmt.AllShaped ss

end

def Program.Shaped (p : Program) : Prop := Stmt.AllShaped p.body

/-! ### Places do not matter -/

theorem Expr.rank_bare (e : Expr) : e.bare.rank = e.rank := by
  cases e <;> rfl

theorem Expr.within_bare (e : Expr) : e.bare.within = e.within := by
  funext rank ks
  rw [Expr.within, Expr.within, Expr.rank_bare]

mutual

theorem Expr.printed_bare : ∀ e : Expr, e.bare.printed = e.printed
  | .number .. | .string .. | .bool .. | .name .. => rfl
  | .array _ items => by rw [Expr.bare, Expr.printed, Expr.printed, Expr.printedAll_bare]
  | .index _ _ position => by
    rw [Expr.bare, Expr.printed, Expr.printed, Expr.printed_bare position]; rfl
  | .call _ _ arguments => by
    rw [Expr.bare, Expr.printed, Expr.printed, Expr.printedAll_bare arguments]; rfl
  | .assign _ _ value => by rw [Expr.bare, Expr.printed, Expr.printed, Expr.printed_bare value]; rfl
  | .binary _ _ left right => by
    rw [Expr.bare, Expr.printed, Expr.printed, Expr.printed_bare left, Expr.printed_bare right,
      Expr.within_bare, Expr.within_bare]
  | .negate _ operand => by
    rw [Expr.bare, Expr.printed, Expr.printed, Expr.printed_bare operand, Expr.within_bare]

theorem Expr.printedAll_bare : ∀ es : List Expr,
    Expr.printedAll (Expr.bareAll es) = Expr.printedAll es
  | [] => rfl
  | [e] => Expr.printed_bare e
  | e :: e' :: es => by
    have ih := Expr.printedAll_bare (e' :: es)
    rw [Expr.bareAll] at ih
    rw [Expr.bareAll, Expr.bareAll, Expr.printedAll, Expr.printedAll, Expr.printed_bare e, ih]

end

theorem Expr.printedInitial_bare (value? : Option Expr) :
    Expr.printedInitial (value?.map Expr.bare) = Expr.printedInitial value? := by
  cases value? with
  | none => rfl
  | some e => rw [Option.map_some, Expr.printedInitial, Expr.printedInitial, Expr.printed_bare]

theorem Grammar.commaed_map {α : Type} {printed : α → List Kind} {bare : α → α}
    (h : ∀ a, printed (bare a) = printed a) (as : List α) :
    commaed printed (as.map bare) = commaed printed as := by
  induction as with
  | nil => rfl
  | cons a as ih =>
    cases as with
    | nil => exact h a
    | cons b as =>
      rw [List.map_cons, List.map_cons, commaed, commaed, h, ← List.map_cons, ih]

theorem Param.printed_bare (p : Param) : p.bare.printed = p.printed := by
  rw [Param.printed, Param.printed, Param.bare, Expr.printedInitial_bare]
  rfl

theorem ImportItem.printed_bare (i : ImportItem) : i.bare.printed = i.printed := by
  obtain ⟨name, newName?⟩ := i
  cases newName? <;> rfl

theorem TypeRef.printedReturns_bare (t? : Option TypeRef) :
    TypeRef.printedReturns (t?.map TypeRef.bare) = TypeRef.printedReturns t? := by
  cases t? <;> rfl

mutual

theorem Stmt.printed_bare : ∀ s : Stmt, s.bare.printed = s.printed
  | .declare _ _ _ value? => by
    rw [Stmt.bare, Stmt.printed, Stmt.printed, Expr.printedInitial_bare]; rfl
  | .display _ arguments => by rw [Stmt.bare, Stmt.printed, Stmt.printed, Expr.printedAll_bare]
  | .block ⟨_, body⟩ => by rw [Stmt.bare, Stmt.printed, Stmt.printed, Stmt.printedAll_bare body]
  | .branch _ condition yes none => by
    rw [Stmt.bare, Stmt.printed, Stmt.printed, Expr.printed_bare, Stmt.printed_bare yes]
  | .branch _ condition yes (some no) => by
    rw [Stmt.bare, Stmt.printed, Stmt.printed, Expr.printed_bare, Stmt.printed_bare yes,
      Stmt.printed_bare no]
  | .loopWhile _ condition body => by
    rw [Stmt.bare, Stmt.printed, Stmt.printed, Expr.printed_bare, Stmt.printed_bare body]
  | .loopRange _ _ first limit body => by
    rw [Stmt.bare, Stmt.printed, Stmt.printed, Expr.printed_bare, Expr.printed_bare,
      Stmt.printed_bare body]
    rfl
  | .evaluate _ e => by rw [Stmt.bare, Stmt.printed, Stmt.printed, Expr.printed_bare]
  | .action _ _ params returns? ⟨_, body⟩ => by
    rw [Stmt.bare, Stmt.printed, Stmt.printed, TypeRef.printedReturns_bare,
      commaed_map Param.printed_bare, Stmt.printedAll_bare body]
    rfl
  | .rename .. => rfl
  | .returnValues _ values => by rw [Stmt.bare, Stmt.printed, Stmt.printed, Expr.printedAll_bare]
  | .importFrom _ none source => rfl
  | .importFrom _ (some items) source => by
    rw [Stmt.bare, Option.map_some, Stmt.printed, Stmt.printed, commaed_map ImportItem.printed_bare]

theorem Stmt.printedAll_bare : ∀ ss : List Stmt,
    Stmt.printedAll (Stmt.bareAll ss) = Stmt.printedAll ss
  | [] => rfl
  | s :: ss => by
    rw [Stmt.bareAll, Stmt.printedAll, Stmt.printedAll, Stmt.printed_bare s,
      Stmt.printedAll_bare ss]

end

theorem Stmt.isPlain_bare (s : Stmt) : s.bare.isPlain = s.isPlain := by
  cases s with
  | branch _ _ _ no? => cases no? <;> rfl
  | _ => rfl

theorem Stmt.dangles_bare : ∀ s : Stmt, s.bare.dangles = s.dangles
  | .branch _ _ _ none => rfl
  | .branch _ _ _ (some no) => Stmt.dangles_bare no
  | .loopWhile _ _ body | .loopRange _ _ _ _ body => Stmt.dangles_bare body
  | .declare .. | .display .. | .block _ | .evaluate .. | .action .. | .rename ..
  | .returnValues .. | .importFrom .. => rfl

mutual

theorem Stmt.shaped_bare : ∀ s : Stmt, s.bare.Shaped ↔ s.Shaped
  | .branch _ _ yes none => by
    rw [Stmt.bare, Stmt.Shaped, Stmt.Shaped, Stmt.isPlain_bare, Stmt.shaped_bare yes]
  | .branch _ _ yes (some no) => by
    rw [Stmt.bare, Stmt.Shaped, Stmt.Shaped, Stmt.isPlain_bare, Stmt.isPlain_bare,
      Stmt.dangles_bare, Stmt.shaped_bare yes, Stmt.shaped_bare no]
  | .loopWhile _ _ body | .loopRange _ _ _ _ body => by
    rw [Stmt.bare, Stmt.Shaped, Stmt.Shaped, Stmt.isPlain_bare, Stmt.shaped_bare body]
  | .block ⟨_, body⟩ => Stmt.allShaped_bare body
  | .action _ _ params returns? ⟨_, body⟩ => by
    rw [Stmt.bare, Stmt.Shaped, Stmt.Shaped, Stmt.allShaped_bare body]
    simp [Param.bare, TypeRef.bare]
  | .declare .. => Iff.rfl
  | .display .. | .evaluate .. | .rename .. | .returnValues .. | .importFrom .. => Iff.rfl

theorem Stmt.allShaped_bare : ∀ ss : List Stmt, Stmt.AllShaped (Stmt.bareAll ss) ↔ Stmt.AllShaped ss
  | [] => Iff.rfl
  | s :: ss => by
    rw [Stmt.bareAll, Stmt.AllShaped, Stmt.AllShaped, Stmt.shaped_bare s, Stmt.allShaped_bare ss]

end

theorem Program.printed_bare (p : Program) : p.bare.printed = p.printed :=
  Stmt.printedAll_bare p.body

theorem Program.shaped_bare (p : Program) : p.bare.Shaped ↔ p.Shaped := Stmt.allShaped_bare p.body

namespace Grammar

/-! ### What is printed is in the grammar -/

theorem Spells.le {rank loose : Nat} {ks : List Kind} {e : Expr} (h : Spells rank ks e)
    (hr : rank ≤ loose) (hl : loose ≤ 5) : Spells loose ks e := by
  induction hr with
  | refl => exact h
  | step _ ih => exact .looser (by omega) (ih (by omega))

theorem rank_le (e : Expr) : e.rank ≤ 5 := by
  cases e with
  | binary _ op _ _ => exact Nat.le_succ_of_le op.tightness_le
  | assign => exact Nat.le_refl 5
  | _ => exact Nat.zero_le 5

theorem Spells.within {e f : Expr} {ks : List Kind} (h : Spells e.rank ks f) (rank : Nat)
    (hr : rank ≤ 5) : Spells rank (e.within rank ks) f := by
  rw [Expr.within]
  split
  · rename_i hle
    exact h.le hle hr
  · exact (Spells.enclosed (h.le (rank_le e) (Nat.le_refl 5))).le (Nat.zero_le rank) hr

theorem Listed.more {α : Type} {P : List Kind → α → Prop} {ks ls : List Kind} {a b : α}
    {as : List α} (h : P ks a) (hs : Listed P ls (b :: as)) :
    Listed P (ks ++ .mark .comma :: ls) (a :: b :: as) := by
  cases hs with
  | some hs => exact .some (.more h hs)

mutual

/-- What is printed spells the expression at its rank. -/
theorem spells_printed : ∀ e : Expr, Spells e.rank e.printed e.bare
  | .number _ x => .number x
  | .string _ s => .string s
  | .bool _ b => .bool b
  | .array _ items => .array (listed_printed items)
  | .name _ n => .name n
  | .index _ items position =>
    .index items.name ((spells_printed position).le (rank_le position) (Nat.le_refl 5))
  | .call _ callee arguments => .call callee.name (listed_printed arguments)
  | .assign _ target value => by
    have htarget : Spells 4 [.name target.name] (.name .nowhere target.name) :=
      (Spells.name target.name).le (Nat.zero_le 4) (by decide)
    exact .assign htarget ((spells_printed value).le (rank_le value) (Nat.le_refl 5))
  | .binary _ op left right => by
    have hle := op.tightness_le
    have hleft := (spells_printed left).within op.tightness (by omega)
    have hright := (spells_printed right).within (op.tightness - 1) (by omega)
    obtain ⟨rank, hrank⟩ := Nat.exists_eq_add_one_of_ne_zero (Nat.ne_of_gt op.tightness_pos)
    rw [Expr.rank, Expr.printed, Expr.bare]
    rw [hrank] at hleft hright ⊢
    exact .join hrank hleft hright
  | .negate _ operand => .negate ((spells_printed operand).within 0 (Nat.zero_le 5))

theorem listed_printed : ∀ es : List Expr,
    Listed (Spells 5) (Expr.printedAll es) (Expr.bareAll es)
  | [] => .none
  | [e] => .some (.one ((spells_printed e).le (rank_le e) (Nat.le_refl 5)))
  | e :: e' :: es =>
    .more ((spells_printed e).le (rank_le e) (Nat.le_refl 5)) (listed_printed (e' :: es))

end

theorem ofWord_text (w : Word) : Kind.ofWord w.text = .word w := by
  rw [Kind.ofWord, Word.ofText?_eq_some.2 rfl]

theorem types_printed {t : TypeRef} (h : t.type.Shaped) : Types t.type.printed t.bare := by
  obtain ⟨type, span⟩ := t
  match type, h with
  | .named _, ⟨w, hw, rfl⟩ =>
    rw [TypeName.printed, ofWord_text]
    exact .plain hw
  | .array (.named _), ⟨w, hw, rfl⟩ =>
    rw [TypeName.printed, TypeName.printed, ofWord_text]
    exact .array hw

theorem initial_printed (value? : Option Expr) :
    Initial (Expr.printedInitial value?) (value?.map Expr.bare) := by
  cases value? with
  | none => exact .none
  | some e => exact .some ((spells_printed e).le (rank_le e) (Nat.le_refl 5))

/-- Phrases between commas are what they are one by one. -/
theorem listed_commaed {α β : Type} {P : List Kind → β → Prop} {printed : α → List Kind}
    {bare : α → β} {as : List α} (h : ∀ a ∈ as, P (printed a) (bare a)) :
    Listed P (commaed printed as) (as.map bare) := by
  induction as with
  | nil => exact .none
  | cons a as ih =>
    have ha := h a List.mem_cons_self
    cases as with
    | nil => exact .some (.one ha)
    | cons b as => exact .more ha (ih fun x hx => h x (List.mem_cons_of_mem _ hx))

theorem parameters_printed {ps : List Param} (h : ∀ p ∈ ps, p.type.type.Shaped) :
    Listed Parameter (commaed Param.printed ps) (ps.map Param.bare) :=
  listed_commaed fun p hp => .mk p.name.name (types_printed (h p hp)) (initial_printed p.default?)

theorem items_printed (is : List ImportItem) :
    Listed Item (commaed ImportItem.printed is) (is.map ImportItem.bare) := by
  refine listed_commaed fun i _ => ?_
  obtain ⟨name, newName?⟩ := i
  cases newName? with
  | none => exact .plain name.name
  | some n => exact .renamed name.name n.name

theorem returns_printed {t? : Option TypeRef} (h : ∀ t ∈ t?, t.type.Shaped) :
    Returns (TypeRef.printedReturns t?) (t?.map TypeRef.bare) := by
  cases t? with
  | none => exact .action
  | some t => exact .typed (types_printed (h t rfl))

end Grammar

/-- Where a statement can stand. -/
def Stmt.role (s : Stmt) : Role := if s.isPlain then .statement s.dangles else .declaration

theorem Stmt.role_of_plain {s : Stmt} (h : s.isPlain) : s.role = .statement s.dangles := if_pos h

namespace Grammar

theorem Derives.as_declaration {role : Role} {ks : List Kind} {s : Stmt} (h : Derives role ks s) :
    Derives .declaration ks s := by
  cases role with
  | statement dangling => exact .statement h
  | declaration => exact h

/-- An expression as the outermost phrase. -/
theorem full_printed (e : Expr) : Spells 5 e.printed e.bare :=
  (spells_printed e).le (rank_le e) (Nat.le_refl 5)

mutual

/-- What is printed is in the grammar. -/
theorem derives_printed : ∀ s : Stmt, s.Shaped → Derives s.role s.printed s.bare
  | .declare _ _ name value?, h => .declare name.name (types_printed h) (initial_printed value?)
  | .display _ arguments, _ => .display (listed_printed arguments)
  | .block ⟨_, body⟩, h => .block (row_printed body h)
  | .branch _ condition yes none, h =>
    .branch (full_printed condition) (Stmt.role_of_plain h.1 ▸ derives_printed yes h.2)
  | .branch _ condition yes (some no), h => by
    have hyes := derives_printed yes h.1.2.2
    have hno := derives_printed no h.2.2
    rw [Stmt.role_of_plain h.1.1, h.1.2.1] at hyes
    rw [Stmt.role_of_plain h.2.1] at hno
    exact .branchElse (full_printed condition) hyes hno
  | .loopWhile _ condition body, h =>
    .loopWhile (full_printed condition) (Stmt.role_of_plain h.1 ▸ derives_printed body h.2)
  | .loopRange _ counter first limit body, h =>
    .loopRange counter.name (full_printed first) (full_printed limit)
      (Stmt.role_of_plain h.1 ▸ derives_printed body h.2)
  | .evaluate _ e, _ => .evaluate (full_printed e)
  | .action _ name _ _ ⟨_, body⟩, h =>
    .function name.name (returns_printed h.2.1) (parameters_printed h.1) (row_printed body h.2.2)
  | .rename _ oldName newName, _ => .rename oldName.name newName.name
  | .returnValues _ values, _ => .returnValues (listed_printed values)
  | .importFrom _ none source, _ => .importAll source
  | .importFrom _ (some items) source, _ => .importSome source (items_printed items)

theorem row_printed : ∀ ss : List Stmt, Stmt.AllShaped ss →
    Row (Derives .declaration) (Stmt.printedAll ss) (Stmt.bareAll ss)
  | [], _ => .nil
  | s :: ss, h => .cons (derives_printed s h.1).as_declaration (row_printed ss h.2)

end

theorem script_printed {p : Program} (h : p.Shaped) : Script p.printed p.bare :=
  ⟨rfl, row_printed p.body h⟩

/-! ### What is in the grammar has a shape and no places -/

mutual

theorem Spells.bare_eq : ∀ {rank : Nat} {ks : List Kind} {e : Expr}, Spells rank ks e → e.bare = e
  | _, _, _, .number _ | _, _, _, .string _ | _, _, _, .bool _ | _, _, _, .name _ => rfl
  | _, _, _, .call _ h => by rw [Expr.bare, Expr.bareAll_eq_map, Listed.bare_eq h]; rfl
  | _, _, _, .index _ h => by rw [Expr.bare, Spells.bare_eq h]; rfl
  | _, _, _, .array h => by rw [Expr.bare, Expr.bareAll_eq_map, Listed.bare_eq h]
  | _, _, _, .enclosed h => Spells.bare_eq h
  | _, _, _, .negate h => by rw [Expr.bare, Spells.bare_eq h]
  | _, _, _, .looser _ h => Spells.bare_eq h
  | _, _, _, .join _ h h' => by rw [Expr.bare, Spells.bare_eq h, Spells.bare_eq h']
  | _, _, _, .assign _ h => by rw [Expr.bare, Spells.bare_eq h]; rfl

theorem Listed.bare_eq : ∀ {ks : List Kind} {es : List Expr},
    Listed (Spells 5) ks es → es.map Expr.bare = es
  | _, _, .none => rfl
  | _, _, .some h => Commas.bare_eq h

theorem Commas.bare_eq : ∀ {ks : List Kind} {es : List Expr},
    Commas (Spells 5) ks es → es.map Expr.bare = es
  | _, _, .one h => by rw [List.map_cons, Spells.bare_eq h]; rfl
  | _, _, .more h hs => by rw [List.map_cons, Spells.bare_eq h, Commas.bare_eq hs]

end

theorem Types.shaped {ks : List Kind} {t : TypeRef} (h : Types ks t) :
    t.type.Shaped ∧ t.bare = t := by
  cases h with
  | plain hw => exact ⟨⟨_, hw, rfl⟩, rfl⟩
  | array hw => exact ⟨⟨_, hw, rfl⟩, rfl⟩

theorem Initial.bare_eq {ks : List Kind} {value? : Option Expr} (h : Initial ks value?) :
    value?.map Expr.bare = value? := by
  cases h with
  | none => rfl
  | some he => rw [Option.map_some, he.bare_eq]

theorem Parameter.shaped {ks : List Kind} {p : Param} (h : Parameter ks p) :
    p.type.type.Shaped ∧ p.bare = p := by
  cases h with
  | mk n ht hv =>
    refine ⟨ht.shaped.1, ?_⟩
    simp only [Param.bare, ht.shaped.2, hv.bare_eq, Ident.bare]

theorem Item.bare_eq {ks : List Kind} {i : ImportItem} (h : Item ks i) : i.bare = i := by
  cases h <;> rfl

theorem Returns.shaped {ks : List Kind} {t? : Option TypeRef} (h : Returns ks t?) :
    (∀ t ∈ t?, t.type.Shaped) ∧ t?.map TypeRef.bare = t? := by
  cases h with
  | action => exact ⟨nofun, rfl⟩
  | typed ht =>
    refine ⟨?_, by rw [Option.map_some, ht.shaped.2]⟩
    rintro t ⟨⟩
    exact ht.shaped.1

/-- What holds of every phrase holds of all between commas. -/
theorem Listed.all {α : Type} {P : List Kind → α → Prop} {Q : α → Prop} {ks : List Kind}
    {as : List α} (h : Listed P ks as) (hQ : ∀ {ls a}, P ls a → Q a) : ∀ a ∈ as, Q a := by
  cases h with
  | none => exact nofun
  | some hs =>
    induction hs with
    | one ha => simpa using hQ ha
    | more ha _ ih => simpa using ⟨hQ ha, by simpa using ih⟩

mutual

theorem Derives.shaped : ∀ {role : Role} {ks : List Kind} {s : Stmt}, Derives role ks s →
    s.Shaped ∧ s.bare = s ∧ ∀ dangling, role = .statement dangling →
      s.isPlain ∧ s.dangles = dangling
  | _, _, _, .evaluate h =>
    ⟨trivial, by rw [Stmt.bare, h.bare_eq], by rintro _ ⟨⟩; exact ⟨rfl, rfl⟩⟩
  | _, _, _, .display h =>
    ⟨trivial, by rw [Stmt.bare, Expr.bareAll_eq_map, h.bare_eq], by rintro _ ⟨⟩; exact ⟨rfl, rfl⟩⟩
  | _, _, _, .returnValues h =>
    ⟨trivial, by rw [Stmt.bare, Expr.bareAll_eq_map, h.bare_eq], by rintro _ ⟨⟩; exact ⟨rfl, rfl⟩⟩
  | _, _, _, .block h =>
    ⟨(Row.shaped h).1, by rw [Stmt.bare, (Row.shaped h).2], by rintro _ ⟨⟩; exact ⟨rfl, rfl⟩⟩
  | _, _, _, .branch he h => by
    obtain ⟨hs, hbare, hrole⟩ := Derives.shaped h
    refine ⟨⟨(hrole _ rfl).1, hs⟩, by rw [Stmt.bare, he.bare_eq, hbare], ?_⟩
    rintro _ ⟨⟩
    exact ⟨rfl, rfl⟩
  | _, _, _, .branchElse he h h' => by
    obtain ⟨hs, hbare, hrole⟩ := Derives.shaped h
    obtain ⟨hs', hbare', hrole'⟩ := Derives.shaped h'
    obtain ⟨hplain, hdangles⟩ := hrole _ rfl
    refine ⟨⟨⟨hplain, hdangles, hs⟩, (hrole' _ rfl).1, hs'⟩,
      by rw [Stmt.bare, he.bare_eq, hbare, hbare'], ?_⟩
    rintro _ ⟨⟩
    exact ⟨rfl, (hrole' _ rfl).2⟩
  | _, _, _, .loopWhile he h => by
    obtain ⟨hs, hbare, hrole⟩ := Derives.shaped h
    refine ⟨⟨(hrole _ rfl).1, hs⟩, by rw [Stmt.bare, he.bare_eq, hbare], ?_⟩
    rintro _ ⟨⟩
    exact ⟨rfl, (hrole _ rfl).2⟩
  | _, _, _, .loopRange _ he he' h => by
    obtain ⟨hs, hbare, hrole⟩ := Derives.shaped h
    refine ⟨⟨(hrole _ rfl).1, hs⟩, by rw [Stmt.bare, he.bare_eq, he'.bare_eq, hbare]; rfl, ?_⟩
    rintro _ ⟨⟩
    exact ⟨rfl, (hrole _ rfl).2⟩
  | _, _, _, .statement h => by
    obtain ⟨hs, hbare, -⟩ := Derives.shaped h
    exact ⟨hs, hbare, nofun⟩
  | _, _, _, .declare _ ht hv =>
    ⟨ht.shaped.1, by rw [Stmt.bare, ht.shaped.2, hv.bare_eq]; rfl, nofun⟩
  | _, _, _, .function _ hr hps h => by
    have hparams := List.map_congr_left (g := id) (hps.all fun hp => (Parameter.shaped hp).2)
    exact ⟨⟨hps.all fun hp => (Parameter.shaped hp).1, hr.shaped.1, (Row.shaped h).1⟩,
      by rw [Stmt.bare, hparams, List.map_id, hr.shaped.2, (Row.shaped h).2]; rfl, nofun⟩
  | _, _, _, .rename _ _ => ⟨trivial, rfl, nofun⟩
  | _, _, _, .importAll _ => ⟨trivial, rfl, nofun⟩
  | _, _, _, .importSome _ h => by
    have hitems := List.map_congr_left (g := id) (h.all Item.bare_eq)
    exact ⟨trivial, by rw [Stmt.bare, Option.map_some, hitems, List.map_id], nofun⟩

theorem Row.shaped : ∀ {ks : List Kind} {ss : List Stmt}, Row (Derives .declaration) ks ss →
    Stmt.AllShaped ss ∧ Stmt.bareAll ss = ss
  | _, _, .nil => ⟨trivial, rfl⟩
  | _, _, .cons h hs =>
    ⟨⟨(Derives.shaped h).1, (Row.shaped hs).1⟩,
      by rw [Stmt.bareAll, (Derives.shaped h).2.1, (Row.shaped hs).2]⟩

end

theorem Script.shaped {ks : List Kind} {p : Program} (h : Script ks p) : p.Shaped ∧ p.bare = p := by
  obtain ⟨span, body⟩ := p
  obtain ⟨rfl, hbody⟩ := h
  exact ⟨hbody.shaped.1, by rw [Program.bare, hbody.shaped.2]⟩

end Grammar

end Playscript

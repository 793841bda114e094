/-
# The grammar as productions

The phrases of the language, and what each of them is made of. Only token kinds
count here: the productions yield the kinds of a script exactly if the grammar
of trees derives some program from them (`yields_script_iff`). They do not say
which `if` an `else` belongs to. That leaves the same scripts, since an `else`
behind a dangling statement can always be given to the nearest `if`.

With one production more, what stands left of `=` may be any operation
(`Leniently`).

Key definitions: `Grammar.Produces`, `Grammar.Leniently`, `Grammar.Yields`.
Key theorems: `Grammar.yields_script_iff`, `Grammar.exists_yields`.
-/
import Playscript.Proofs.Tree.Printing

namespace Playscript

open Token (Kind)

namespace Grammar

/-- The phrases of the language. -/
inductive Phrase where
  | name
  | string
  | type
  /-- What may stand left of `=`. -/
  | target
  /-- An expression without an operator looser than the rank. -/
  | rank (rank : Nat)
  /-- A value after `=`, or nothing. -/
  | initial
  | parameter
  /-- An item of an import list. -/
  | item
  | commas (one : Phrase)
  | listed (one : Phrase)
  | statement
  | declaration
  /-- Declarations in a row. -/
  | script

abbrev Phrase.expression : Phrase := .rank 5

/-- What a production puts in a row: kinds, and phrases to be produced in turn. -/
inductive Piece where
  | kind (k : Kind)
  | phrase (φ : Phrase)

abbrev Piece.mark (m : Mark) : Piece := .kind (.mark m)

abbrev Piece.word (w : Word) : Piece := .kind (.word w)

/-- The productions of the language. -/
inductive Produces : Phrase → List Piece → Prop where
  | name (n : String) : Produces .name [.kind (.name n)]
  | string (s : String) : Produces .string [.kind (.string s)]
  | plainType {w : Word} : w.isType → Produces .type [.word w]
  | arrayType {w : Word} :
    w.isType → Produces .type [.word w, .mark .leftBracket, .mark .rightBracket]
  | targetName : Produces .target [.phrase .name]
  | targetEnclosed :
    Produces .target [.mark .leftParen, .phrase .target, .mark .rightParen]
  | number (x : Float) : Produces (.rank 0) [.kind (.number x)]
  | text : Produces (.rank 0) [.phrase .string]
  | bool (b : Bool) : Produces (.rank 0) [.word (boolWord b)]
  | reference : Produces (.rank 0) [.phrase .name]
  | call :
    Produces (.rank 0)
      [.phrase .name, .mark .leftParen, .phrase (.listed .expression), .mark .rightParen]
  | index :
    Produces (.rank 0)
      [.phrase .name, .mark .leftBracket, .phrase .expression, .mark .rightBracket]
  | array :
    Produces (.rank 0) [.mark .leftBracket, .phrase (.listed .expression), .mark .rightBracket]
  | enclosed : Produces (.rank 0) [.mark .leftParen, .phrase .expression, .mark .rightParen]
  | negate : Produces (.rank 0) [.mark .minus, .phrase (.rank 0)]
  | looser (rank : Nat) : Produces (.rank (rank + 1)) [.phrase (.rank rank)]
  | join {rank : Nat} {op : Operator} :
    op.tightness = rank + 1 →
      Produces (.rank (rank + 1)) [.phrase (.rank (rank + 1)), .kind op.kind, .phrase (.rank rank)]
  | assign : Produces .expression [.phrase .target, .mark .assign, .phrase .expression]
  | one (φ : Phrase) : Produces (.commas φ) [.phrase φ]
  | more (φ : Phrase) : Produces (.commas φ) [.phrase φ, .mark .comma, .phrase (.commas φ)]
  | none (φ : Phrase) : Produces (.listed φ) []
  | some (φ : Phrase) : Produces (.listed φ) [.phrase (.commas φ)]
  | absent : Produces .initial []
  | initial : Produces .initial [.mark .assign, .phrase .expression]
  | parameter : Produces .parameter [.phrase .type, .phrase .name, .phrase .initial]
  | plainItem : Produces .item [.phrase .name]
  | renamedItem : Produces .item [.phrase .name, .word .asWord, .phrase .name]
  | evaluate : Produces .statement [.phrase .expression, .mark .semicolon]
  | display :
    Produces .statement
      [.word .showWord, .mark .leftParen, .phrase (.listed .expression), .mark .rightParen,
        .mark .semicolon]
  | returnValues :
    Produces .statement
      [.word .returnWord, .phrase (.listed .expression), .mark .semicolon]
  | block : Produces .statement [.mark .leftBrace, .phrase .script, .mark .rightBrace]
  | branch :
    Produces .statement
      [.word .ifWord, .mark .leftParen, .phrase .expression, .mark .rightParen, .phrase .statement]
  | branchElse :
    Produces .statement
      [.word .ifWord, .mark .leftParen, .phrase .expression, .mark .rightParen, .phrase .statement,
        .word .elseWord, .phrase .statement]
  | loopWhile :
    Produces .statement
      [.word .whileWord, .mark .leftParen, .phrase .expression, .mark .rightParen,
        .phrase .statement]
  | loopRange :
    Produces .statement
      [.word .forWord, .mark .leftParen, .phrase .name, .word .inWord, .word .range,
        .mark .leftParen, .phrase .expression, .mark .comma, .phrase .expression,
        .mark .rightParen, .mark .rightParen, .phrase .statement]
  | statement : Produces .declaration [.phrase .statement]
  | declare :
    Produces .declaration [.phrase .type, .phrase .name, .phrase .initial, .mark .semicolon]
  | action :
    Produces .declaration
      [.word .action, .phrase .name, .mark .leftParen, .phrase (.listed .parameter),
        .mark .rightParen, .mark .leftBrace, .phrase .script, .mark .rightBrace]
  | function :
    Produces .declaration
      [.phrase .type, .phrase .name, .mark .leftParen, .phrase (.listed .parameter),
        .mark .rightParen, .mark .leftBrace, .phrase .script, .mark .rightBrace]
  | rename :
    Produces .declaration
      [.word .use, .phrase .name, .word .asWord, .phrase .name, .mark .semicolon]
  | importAll :
    Produces .declaration [.word .importWord, .phrase .string, .mark .semicolon]
  | importSome :
    Produces .declaration
      [.word .importWord, .mark .leftBrace, .phrase (.listed .item), .mark .rightBrace,
        .word .fromWord, .phrase .string, .mark .semicolon]
  | nil : Produces .script []
  | cons : Produces .script [.phrase .declaration, .phrase .script]

/-- The productions, and one that lets any operation stand left of `=`. -/
inductive Leniently : Phrase → List Piece → Prop where
  | strictly {φ : Phrase} {ps : List Piece} : Produces φ ps → Leniently φ ps
  | target : Leniently .target [.phrase (.rank 4)]

/-- What pieces in a row become by productions. -/
inductive Yields (G : Phrase → List Piece → Prop) : List Piece → List Kind → Prop where
  | nil : Yields G [] []
  | kind {k : Kind} {ps : List Piece} {ks : List Kind} :
    Yields G ps ks → Yields G (.kind k :: ps) (k :: ks)
  | phrase {φ : Phrase} {qs ps : List Piece} {ks ls : List Kind} :
    G φ qs → Yields G qs ks → Yields G ps ls → Yields G (.phrase φ :: ps) (ks ++ ls)

section Yields

variable {G H : Phrase → List Piece → Prop} {φ : Phrase} {ps qs : List Piece} {ks ls : List Kind}

theorem Yields.append (h : Yields G ps ks) (h' : Yields G qs ls) :
    Yields G (ps ++ qs) (ks ++ ls) := by
  induction h with
  | nil => exact h'
  | kind _ ih => exact .kind ih
  | phrase hφ hqs _ _ ih =>
    rw [List.append_assoc]
    exact .phrase hφ hqs ih

theorem Yields.mono (hG : ∀ φ ps, G φ ps → H φ ps) (h : Yields G ps ks) : Yields H ps ks := by
  induction h with
  | nil => exact .nil
  | kind _ ih => exact .kind ih
  | phrase hφ _ _ ih ih' => exact .phrase (hG _ _ hφ) ih ih'

/-- A phrase becomes what a production of it becomes. -/
theorem Yields.of_rule (hφ : G φ qs) (h : Yields G qs ks) : Yields G [.phrase φ] ks := by
  rw [← List.append_nil ks]
  exact .phrase hφ h .nil

/-- A phrase in front of other pieces. -/
theorem Yields.behind (h : Yields G [.phrase φ] ks) (h' : Yields G ps ls) :
    Yields G (.phrase φ :: ps) (ks ++ ls) := h.append h'

theorem Yields.parens (h : Yields G qs ks) (h' : Yields G ps ls) :
    Yields G (.mark .leftParen :: (qs ++ .mark .rightParen :: ps)) (parens ks ++ ls) := by
  rw [Grammar.parens, List.cons_append, List.append_assoc]
  exact .kind (h.append (.kind h'))

theorem Yields.braces (h : Yields G [.phrase φ] ks) (h' : Yields G ps ls) :
    Yields G (.mark .leftBrace :: .phrase φ :: .mark .rightBrace :: ps) (braces ks ++ ls) := by
  rw [Grammar.braces, List.cons_append, List.append_assoc]
  exact .kind (h.behind (.kind h'))

end Yields

/-! ### Every phrase becomes something -/

theorem Phrase.exists_yields (φ : Phrase) : ∃ ks, Yields Produces [.phrase φ] ks := by
  have hname : Yields Produces [.phrase .name] [.name ""] := .of_rule (.name "") (.kind .nil)
  have hreturn : Yields Produces [.phrase .statement] [.word .returnWord, .mark .semicolon] :=
    .of_rule .returnValues (.kind (.phrase (.none _) .nil (.kind .nil)))
  have htype : Yields Produces [.phrase .type] [.word .int] :=
    .of_rule (.plainType (w := .int) rfl) (.kind .nil)
  induction φ with
  | name => exact ⟨_, hname⟩
  | string => exact ⟨_, .of_rule (.string "") (.kind .nil)⟩
  | type => exact ⟨_, htype⟩
  | target => exact ⟨_, .of_rule .targetName hname⟩
  | rank rank =>
    induction rank with
    | zero => exact ⟨_, .of_rule .reference hname⟩
    | succ rank ih => exact ih.imp fun _ h => .of_rule (.looser rank) h
  | initial => exact ⟨_, .of_rule .absent .nil⟩
  | parameter =>
    exact ⟨_, .of_rule .parameter (htype.behind (hname.behind (.of_rule .absent .nil)))⟩
  | item => exact ⟨_, .of_rule .plainItem hname⟩
  | commas φ ih => exact ih.imp fun _ h => .of_rule (.one φ) h
  | listed φ => exact ⟨_, .of_rule (.none φ) .nil⟩
  | statement => exact ⟨_, hreturn⟩
  | declaration => exact ⟨_, .of_rule .statement hreturn⟩
  | script => exact ⟨_, .of_rule .nil .nil⟩

theorem exists_yields (ps : List Piece) : ∃ ks, Yields Leniently ps ks := by
  induction ps with
  | nil => exact ⟨[], .nil⟩
  | cons p ps ih =>
    obtain ⟨ls, hls⟩ := ih
    cases p with
    | kind k => exact ⟨k :: ls, .kind hls⟩
    | phrase φ =>
      obtain ⟨ks, hks⟩ := φ.exists_yields
      exact ⟨ks ++ ls, (hks.mono fun _ _ => .strictly).behind hls⟩

/-! ### From trees to productions -/

/-- What spells a name is made of the name and parentheses. -/
theorem Spells.yields_target : ∀ {rank : Nat} {ks : List Kind} {e : Expr}, Spells rank ks e →
    ∀ {n : String}, e = .name .nowhere n → Yields Produces [.phrase .target] ks
  | _, _, _, .name n, _, _ => .of_rule .targetName (.of_rule (.name n) (.kind .nil))
  | _, _, _, .enclosed h, _, he =>
    .of_rule .targetEnclosed (.kind ((h.yields_target he).behind (.kind .nil)))
  | _, _, _, .looser _ h, _, he => h.yields_target he
  | _, _, _, .number _, _, he | _, _, _, .string _, _, he | _, _, _, .bool _, _, he
  | _, _, _, .call _ _, _, he | _, _, _, .index _ _, _, he | _, _, _, .array _, _, he
  | _, _, _, .negate _, _, he | _, _, _, .join _ _ _, _, he | _, _, _, .assign _ _, _, he =>
    Expr.noConfusion he

theorem yields_name (n : String) : Yields Produces [.phrase .name] [.name n] :=
  .of_rule (.name n) (.kind .nil)

theorem yields_string (s : String) : Yields Produces [.phrase .string] [.string s] :=
  .of_rule (.string s) (.kind .nil)

mutual

/-- What spells an expression is produced at its rank. -/
theorem Spells.yields : ∀ {rank : Nat} {ks : List Kind} {e : Expr}, Spells rank ks e →
    Yields Produces [.phrase (.rank rank)] ks
  | _, _, _, .number x => .of_rule (.number x) (.kind .nil)
  | _, _, _, .string s => .of_rule .text (yields_string s)
  | _, _, _, .bool b => .of_rule (.bool b) (.kind .nil)
  | _, _, _, .name n => .of_rule .reference (yields_name n)
  | _, _, _, .call n h =>
    .of_rule .call ((yields_name n).behind (.kind ((Listed.yields_all h).behind (.kind .nil))))
  | _, _, _, .index n h =>
    .of_rule .index ((yields_name n).behind (.kind ((Spells.yields h).behind (.kind .nil))))
  | _, _, _, .array h => .of_rule .array (.kind ((Listed.yields_all h).behind (.kind .nil)))
  | _, _, _, .enclosed h => .of_rule .enclosed (.kind ((Spells.yields h).behind (.kind .nil)))
  | _, _, _, .negate h => .of_rule .negate (.kind (Spells.yields h))
  | _, _, _, .looser _ h => .of_rule (.looser _) (Spells.yields h)
  | _, _, _, .join hop h h' =>
    .of_rule (.join hop) ((Spells.yields h).behind (.kind (Spells.yields h')))
  | _, _, _, .assign h h' =>
    .of_rule .assign ((h.yields_target rfl).behind (.kind (Spells.yields h')))

theorem Commas.yields_all : ∀ {ks : List Kind} {es : List Expr}, Commas (Spells 5) ks es →
    Yields Produces [.phrase (.commas .expression)] ks
  | _, _, .one h => .of_rule (.one _) (Spells.yields h)
  | _, _, .more h hs =>
    .of_rule (.more _) ((Spells.yields h).behind (.kind (Commas.yields_all hs)))

theorem Listed.yields_all : ∀ {ks : List Kind} {es : List Expr}, Listed (Spells 5) ks es →
    Yields Produces [.phrase (.listed .expression)] ks
  | _, _, .none => .of_rule (.none _) .nil
  | _, _, .some h => .of_rule (.some _) (Commas.yields_all h)

end

theorem Types.yields {ks : List Kind} {t : TypeRef} (h : Types ks t) :
    Yields Produces [.phrase .type] ks := by
  cases h with
  | plain hw => exact .of_rule (.plainType hw) (.kind .nil)
  | array hw => exact .of_rule (.arrayType hw) (.kind (.kind (.kind .nil)))

theorem Initial.yields {ks : List Kind} {value? : Option Expr} (h : Initial ks value?) :
    Yields Produces [.phrase .initial] ks := by
  cases h with
  | none => exact .of_rule .absent .nil
  | some he => exact .of_rule .initial (.kind he.yields)

theorem Parameter.yields {ks : List Kind} {p : Param} (h : Parameter ks p) :
    Yields Produces [.phrase .parameter] ks := by
  cases h with
  | mk n ht hv => exact .of_rule .parameter (ht.yields.behind ((yields_name n).behind hv.yields))

theorem Item.yields {ks : List Kind} {i : ImportItem} (h : Item ks i) :
    Yields Produces [.phrase .item] ks := by
  cases h with
  | plain n => exact .of_rule .plainItem (yields_name n)
  | renamed n m =>
    exact .of_rule .renamedItem ((yields_name n).behind (.kind (yields_name m)))

/-- Between commas stands what stands there alone. -/
theorem Listed.yields {α : Type} {P : List Kind → α → Prop} {φ : Phrase} {ks : List Kind}
    {as : List α} (h : Listed P ks as)
    (hone : ∀ {ks a}, P ks a → Yields Produces [.phrase φ] ks) :
    Yields Produces [.phrase (.listed φ)] ks := by
  cases h with
  | none => exact .of_rule (.none φ) .nil
  | some hs =>
    refine .of_rule (.some φ) ?_
    induction hs with
    | one h => exact .of_rule (.one φ) (hone h)
    | more h _ ih => exact .of_rule (.more φ) ((hone h).behind (.kind ih))

/-- The phrase of a statement's role. -/
def Role.phrase : Role → Phrase
  | statement _ => .statement
  | declaration => .declaration

mutual

/-- A derived statement is produced in its role. -/
theorem Derives.yields : ∀ {role : Role} {ks : List Kind} {s : Stmt}, Derives role ks s →
    Yields Produces [.phrase role.phrase] ks
  | _, _, _, .evaluate h => .of_rule .evaluate (h.yields.behind (.kind .nil))
  | _, _, _, .display h =>
    .of_rule .display (.kind ((h.yields Spells.yields).parens (.kind .nil)))
  | _, _, _, .returnValues h =>
    .of_rule .returnValues (.kind ((h.yields Spells.yields).behind (.kind .nil)))
  | _, _, _, .block h => .of_rule .block (.kind ((Row.yields h).behind (.kind .nil)))
  | _, _, _, .branch he h => .of_rule .branch (.kind (he.yields.parens (Derives.yields h)))
  | _, _, _, .branchElse he h h' =>
    .of_rule .branchElse
      (.kind (he.yields.parens ((Derives.yields h).behind (.kind (Derives.yields h')))))
  | _, _, _, .loopWhile he h => .of_rule .loopWhile (.kind (he.yields.parens (Derives.yields h)))
  | _, _, _, .loopRange n he he' h => by
    have hbounds : Yields Produces [.phrase .expression, .mark .comma, .phrase .expression] _ :=
      he.yields.behind (.kind he'.yields)
    have hhead : Yields Produces [.phrase .name, .word .inWord, .word .range, .mark .leftParen,
        .phrase .expression, .mark .comma, .phrase .expression, .mark .rightParen] _ :=
      (yields_name n).behind (.kind (.kind (hbounds.parens .nil)))
    rw [List.append_nil] at hhead
    exact .of_rule .loopRange (.kind (hhead.parens (Derives.yields h)))
  | _, _, _, .statement h => .of_rule .statement (Derives.yields h)
  | _, _, _, .declare n ht hv =>
    .of_rule .declare (ht.yields.behind ((yields_name n).behind (hv.yields.behind (.kind .nil))))
  | _, _, _, .function n hr hps h => by
    have hbody := (Row.yields h).braces .nil
    rw [List.append_nil] at hbody
    have hname := (yields_name n).behind ((hps.yields Parameter.yields).parens hbody)
    cases hr with
    | action => exact .of_rule .action (.kind hname)
    | typed ht => exact .of_rule .function (ht.yields.behind hname)
  | _, _, _, .rename n m =>
    .of_rule .rename (.kind ((yields_name n).behind (.kind ((yields_name m).behind (.kind .nil)))))
  | _, _, _, .importAll source =>
    .of_rule .importAll (.kind ((yields_string source).behind (.kind .nil)))
  | _, _, _, .importSome source h =>
    .of_rule .importSome
      (.kind ((h.yields Item.yields).braces (.kind ((yields_string source).behind (.kind .nil)))))

theorem Row.yields : ∀ {ks : List Kind} {ss : List Stmt}, Row (Derives .declaration) ks ss →
    Yields Produces [.phrase .script] ks
  | _, _, .nil => .of_rule .nil .nil
  | _, _, .cons h hs => .of_rule .cons ((Derives.yields h).behind (Row.yields hs))

end

/-! ### From productions to trees -/

section Choice

variable {α : Type} {P : List Kind → α → Prop} {Q : List Kind → Prop} {ks : List Kind}
  {units : List Unit}

theorem Commas.exists_trees (hQ : ∀ {ls}, Q ls → ∃ a, P ls a)
    (h : Commas (fun ls _ => Q ls) ks units) : ∃ as, Commas P ks as := by
  induction h with
  | one h => exact (hQ h).elim fun a ha => ⟨[a], .one ha⟩
  | more h _ ih =>
    obtain ⟨a, ha⟩ := hQ h
    obtain ⟨as, has⟩ := ih
    exact ⟨a :: as, .more ha has⟩

theorem Listed.exists_trees (hQ : ∀ {ls}, Q ls → ∃ a, P ls a)
    (h : Listed (fun ls _ => Q ls) ks units) : ∃ as, Listed P ks as := by
  cases h with
  | none => exact ⟨[], .none⟩
  | some h => exact (h.exists_trees hQ).imp fun _ has => .some has

end Choice

/-- The grammar of trees derives the phrase from the kinds. -/
def Phrase.HasTree : Phrase → List Kind → Prop
  | name, ks => ∃ n, ks = [.name n]
  | string, ks => ∃ s, ks = [.string s]
  | type, ks => ∃ t, Types ks t
  | target, ks => ∃ n, Spells 0 ks (.name .nowhere n)
  | rank r, ks => r ≤ 5 → ∃ e, Spells r ks e
  | initial, ks => ∃ value?, Initial ks value?
  | parameter, ks => ∃ p, Parameter ks p
  | item, ks => ∃ i, Item ks i
  | commas φ, ks => ∃ units : List Unit, Commas (fun ls _ => φ.HasTree ls) ks units
  | listed φ, ks => ∃ units : List Unit, Listed (fun ls _ => φ.HasTree ls) ks units
  | statement, ks => ∃ dangling s, Derives (.statement dangling) ks s
  | declaration, ks => ∃ s, Derives .declaration ks s
  | script, ks => ∃ ss, Row (Derives .declaration) ks ss

/-- The same of pieces in a row. -/
def HaveTrees : List Piece → List Kind → Prop
  | [], ks => ks = []
  | .kind k :: ps, ks => ∃ ls, ks = k :: ls ∧ HaveTrees ps ls
  | .phrase φ :: ps, ks => ∃ ls ms, ks = ls ++ ms ∧ φ.HasTree ls ∧ HaveTrees ps ms

/-- A dangling statement takes an `else`, as the nearest `if` in it does. -/
theorem Derives.takes_else {ls : List Kind} {no : Stmt} {dangling : Bool}
    (hno : Derives (.statement dangling) ls no) : ∀ {role : Role} {ks : List Kind} {yes : Stmt},
    Derives role ks yes → role = .statement true →
      ∃ dangling' s, Derives (.statement dangling') (ks ++ .word .elseWord :: ls) s
  | _, _, _, @Derives.branch _ _ _ true _ he h, _ => by
    obtain ⟨_, s, hs⟩ := takes_else hno h rfl
    rw [List.cons_append, List.append_assoc]
    exact ⟨true, _, .branch he hs⟩
  | _, _, _, @Derives.branch _ _ _ false _ he h, _ => by
    rw [List.cons_append, List.append_assoc]
    exact ⟨dangling, _, .branchElse he h hno⟩
  | _, _, _, .branchElse he h h', hrole => by
    obtain ⟨dangling', s, hs⟩ := takes_else hno h' hrole
    rw [List.cons_append, List.append_assoc, List.append_assoc, List.cons_append]
    exact ⟨dangling', _, .branchElse he h hs⟩
  | _, _, _, .loopWhile he h, hrole => by
    obtain ⟨dangling', s, hs⟩ := takes_else hno h hrole
    rw [List.cons_append, List.append_assoc]
    exact ⟨dangling', _, .loopWhile he hs⟩
  | _, _, _, .loopRange n he he' h, hrole => by
    obtain ⟨dangling', s, hs⟩ := takes_else hno h hrole
    rw [List.cons_append, List.append_assoc]
    exact ⟨dangling', _, .loopRange n he he' hs⟩
  | _, _, _, .evaluate _, hrole | _, _, _, .display _, hrole
  | _, _, _, .returnValues _, hrole | _, _, _, .block _, hrole => nomatch hrole

theorem Phrase.HasTree.spelled {ks : List Kind} (h : Phrase.expression.HasTree ks) :
    ∃ e, Spells 5 ks e := h (Nat.le_refl 5)

theorem Phrase.HasTree.arguments {ks : List Kind} (h : (Phrase.listed .expression).HasTree ks) :
    ∃ es, Listed (Spells 5) ks es := h.elim fun _ h => h.exists_trees spelled

/-! ### What the pieces are -/

namespace HaveTrees

variable {φ : Phrase} {ps : List Piece} {ks : List Kind}

theorem last (h : HaveTrees [.phrase φ] ks) : φ.HasTree ks := by
  obtain ⟨ls, _, rfl, hls, rfl⟩ := h
  rwa [List.append_nil]

theorem name (h : HaveTrees (.phrase .name :: ps) ks) :
    ∃ n ls, ks = .name n :: ls ∧ HaveTrees ps ls := by
  obtain ⟨_, ls, rfl, ⟨n, rfl⟩, hls⟩ := h
  exact ⟨n, ls, rfl, hls⟩

theorem split (qs : List Piece) (h : HaveTrees (qs ++ ps) ks) :
    ∃ ls ms, ks = ls ++ ms ∧ HaveTrees qs ls ∧ HaveTrees ps ms := by
  induction qs generalizing ks with
  | nil => exact ⟨[], ks, rfl, rfl, h⟩
  | cons q qs ih =>
    cases q with
    | kind k =>
      obtain ⟨_, rfl, hrest⟩ := h
      obtain ⟨ls, ms, rfl, hls, hms⟩ := ih hrest
      exact ⟨k :: ls, ms, rfl, ⟨ls, rfl, hls⟩, hms⟩
    | phrase φ =>
      obtain ⟨ls, _, rfl, hφ, hrest⟩ := h
      obtain ⟨ms, ns, rfl, hms, hns⟩ := ih hrest
      exact ⟨ls ++ ms, ns, (List.append_assoc ..).symm, ⟨ls, ms, rfl, hφ, hms⟩, hns⟩

theorem parens (qs : List Piece)
    (h : HaveTrees (.mark .leftParen :: (qs ++ .mark .rightParen :: ps)) ks) :
    ∃ ls ms, ks = Grammar.parens ls ++ ms ∧ HaveTrees qs ls ∧ HaveTrees ps ms := by
  obtain ⟨_, rfl, hrest⟩ := h
  obtain ⟨ls, _, rfl, hls, ms, rfl, hms⟩ := hrest.split qs
  exact ⟨ls, ms, by simp [Grammar.parens], hls, hms⟩

theorem braces (h : HaveTrees (.mark .leftBrace :: .phrase φ :: .mark .rightBrace :: ps) ks) :
    ∃ ls ms, ks = Grammar.braces ls ++ ms ∧ φ.HasTree ls ∧ HaveTrees ps ms := by
  obtain ⟨_, rfl, ls, _, rfl, hls, ms, rfl, hms⟩ := h
  exact ⟨ls, ms, by simp [Grammar.braces], hls, hms⟩

end HaveTrees

/-! ### What each phrase is -/

namespace Produces

variable {φ : Phrase} {ps : List Piece} {ks : List Kind} {rank : Nat}

theorem hasTree_type (h : Produces .type ps) (hps : HaveTrees ps ks) : Phrase.type.HasTree ks := by
  cases h with
  | plainType hw =>
    obtain ⟨_, rfl, rfl⟩ := hps
    exact ⟨_, .plain hw⟩
  | arrayType hw =>
    obtain ⟨_, rfl, _, rfl, _, rfl, rfl⟩ := hps
    exact ⟨_, .array hw⟩

theorem hasTree_target (h : Produces .target ps) (hps : HaveTrees ps ks) :
    Phrase.target.HasTree ks := by
  cases h with
  | targetName =>
    obtain ⟨n, _, rfl, rfl⟩ := hps.name
    exact ⟨n, .name n⟩
  | targetEnclosed =>
    obtain ⟨_, rfl, _, _, rfl, ⟨n, hn⟩, _, rfl, rfl⟩ := hps
    exact ⟨n, .enclosed (hn.le (Nat.zero_le 5) (Nat.le_refl 5))⟩

/-- An expression without operations but the negation. -/
theorem hasTree_primary (h : Produces (.rank 0) ps) (hps : HaveTrees ps ks) :
    ∃ e, Spells 0 ks e := by
  cases h with
  | number x =>
    obtain ⟨_, rfl, rfl⟩ := hps
    exact ⟨_, .number x⟩
  | text =>
    obtain ⟨s, rfl⟩ := hps.last
    exact ⟨_, .string s⟩
  | bool b =>
    obtain ⟨_, rfl, rfl⟩ := hps
    exact ⟨_, .bool b⟩
  | reference =>
    obtain ⟨n, rfl⟩ := hps.last
    exact ⟨_, .name n⟩
  | call =>
    obtain ⟨n, _, rfl, _, rfl, _, _, rfl, h, _, rfl, rfl⟩ := hps.name
    obtain ⟨args, hargs⟩ := h.arguments
    exact ⟨_, .call n hargs⟩
  | index =>
    obtain ⟨n, _, rfl, _, rfl, _, _, rfl, h, _, rfl, rfl⟩ := hps.name
    obtain ⟨e, he⟩ := h.spelled
    exact ⟨_, .index n he⟩
  | array =>
    obtain ⟨_, rfl, _, _, rfl, h, _, rfl, rfl⟩ := hps
    obtain ⟨items, hitems⟩ := h.arguments
    exact ⟨_, .array hitems⟩
  | enclosed =>
    obtain ⟨_, rfl, _, _, rfl, h, _, rfl, rfl⟩ := hps
    obtain ⟨e, he⟩ := h.spelled
    exact ⟨_, .enclosed he⟩
  | negate =>
    obtain ⟨_, rfl, hps⟩ := hps
    obtain ⟨e, he⟩ := hps.last (Nat.zero_le 5)
    exact ⟨_, .negate he⟩

theorem hasTree_operation (h : Produces (.rank (rank + 1)) ps) (hps : HaveTrees ps ks)
    (hr : rank + 1 ≤ 5) : ∃ e, Spells (rank + 1) ks e := by
  cases h with
  | looser =>
    obtain ⟨e, he⟩ := hps.last (Nat.le_of_succ_le hr)
    exact ⟨e, .looser hr he⟩
  | join hop =>
    obtain ⟨_, _, rfl, h, _, rfl, hps⟩ := hps
    obtain ⟨left, hleft⟩ := h hr
    obtain ⟨right, hright⟩ := hps.last (Nat.le_of_succ_le hr)
    exact ⟨_, .join hop hleft hright⟩
  | assign =>
    obtain ⟨_, _, rfl, ⟨n, hn⟩, _, rfl, hps⟩ := hps
    obtain ⟨e, he⟩ := hps.last.spelled
    exact ⟨_, .assign (hn.le (Nat.zero_le 4) (by decide)) he⟩

theorem hasTree_initial (h : Produces .initial ps) (hps : HaveTrees ps ks) :
    Phrase.initial.HasTree ks := by
  cases h with
  | absent =>
    cases hps
    exact ⟨_, .none⟩
  | initial =>
    obtain ⟨_, rfl, hps⟩ := hps
    obtain ⟨e, he⟩ := hps.last.spelled
    exact ⟨_, .some he⟩

theorem hasTree_parameter (h : Produces .parameter ps) (hps : HaveTrees ps ks) :
    Phrase.parameter.HasTree ks := by
  cases h with
  | parameter =>
    obtain ⟨_, _, rfl, ⟨t, ht⟩, hps⟩ := hps
    obtain ⟨n, _, rfl, hrest⟩ := hps.name
    obtain ⟨value?, hv⟩ := hrest.last
    exact ⟨_, .mk n ht hv⟩

theorem hasTree_item (h : Produces .item ps) (hps : HaveTrees ps ks) : Phrase.item.HasTree ks := by
  cases h with
  | plainItem =>
    obtain ⟨n, _, rfl, rfl⟩ := hps.name
    exact ⟨_, .plain n⟩
  | renamedItem =>
    obtain ⟨n, _, rfl, _, rfl, hrest⟩ := hps.name
    obtain ⟨m, rfl⟩ := hrest.last
    exact ⟨_, .renamed n m⟩

theorem hasTree_commas (h : Produces (.commas φ) ps) (hps : HaveTrees ps ks) :
    (Phrase.commas φ).HasTree ks := by
  cases h with
  | one => exact ⟨[()], .one hps.last⟩
  | more =>
    obtain ⟨_, _, rfl, h, _, rfl, hps⟩ := hps
    obtain ⟨units, hs⟩ := hps.last
    exact ⟨() :: units, .more h hs⟩

theorem hasTree_listed (h : Produces (.listed φ) ps) (hps : HaveTrees ps ks) :
    (Phrase.listed φ).HasTree ks := by
  cases h with
  | none =>
    cases hps
    exact ⟨[], .none⟩
  | some =>
    obtain ⟨units, hs⟩ := hps.last
    exact ⟨units, .some hs⟩

/-- An `else` behind a dangling statement belongs further inside. -/
theorem hasTree_else {e : Expr} {yes no : Stmt} {dangling dangling' : Bool}
    {ls ms : List Kind} (he : Spells 5 ks e) (hyes : Derives (.statement dangling) ls yes)
    (hno : Derives (.statement dangling') ms no) :
    Phrase.statement.HasTree
      (.word .ifWord :: (Grammar.parens ks ++ (ls ++ .word .elseWord :: ms))) := by
  cases dangling with
  | false => exact ⟨dangling', _, .branchElse he hyes hno⟩
  | true =>
    obtain ⟨_, s, hs⟩ := Derives.takes_else hno hyes rfl
    exact ⟨true, _, .branch he hs⟩

theorem hasTree_statement (h : Produces .statement ps) (hps : HaveTrees ps ks) :
    Phrase.statement.HasTree ks := by
  cases h with
  | evaluate =>
    obtain ⟨_, _, rfl, h, _, rfl, rfl⟩ := hps
    obtain ⟨e, he⟩ := h.spelled
    exact ⟨false, _, .evaluate he⟩
  | display =>
    obtain ⟨_, rfl, hps⟩ := hps
    obtain ⟨_, _, rfl, h, _, rfl, rfl⟩ := hps.parens [.phrase (.listed .expression)]
    obtain ⟨es, hes⟩ := h.last.arguments
    exact ⟨false, _, .display hes⟩
  | returnValues =>
    obtain ⟨_, rfl, _, _, rfl, h, _, rfl, rfl⟩ := hps
    obtain ⟨es, hes⟩ := h.arguments
    exact ⟨false, _, .returnValues hes⟩
  | block =>
    obtain ⟨_, rfl, _, _, rfl, ⟨ss, hss⟩, _, rfl, rfl⟩ := hps
    exact ⟨false, _, .block hss⟩
  | branch =>
    obtain ⟨_, rfl, hps⟩ := hps
    obtain ⟨_, _, rfl, h, hrest⟩ := hps.parens [.phrase .expression]
    obtain ⟨e, he⟩ := h.last.spelled
    obtain ⟨_, yes, hyes⟩ := hrest.last
    exact ⟨true, _, .branch he hyes⟩
  | branchElse =>
    obtain ⟨_, rfl, hps⟩ := hps
    obtain ⟨_, _, rfl, h, hrest⟩ := hps.parens [.phrase .expression]
    obtain ⟨e, he⟩ := h.last.spelled
    obtain ⟨_, _, rfl, ⟨_, yes, hyes⟩, _, rfl, helse⟩ := hrest
    obtain ⟨_, no, hno⟩ := helse.last
    exact hasTree_else he hyes hno
  | loopWhile =>
    obtain ⟨_, rfl, hps⟩ := hps
    obtain ⟨_, _, rfl, h, hrest⟩ := hps.parens [.phrase .expression]
    obtain ⟨e, he⟩ := h.last.spelled
    obtain ⟨dangling, body, hbody⟩ := hrest.last
    exact ⟨dangling, _, .loopWhile he hbody⟩
  | loopRange =>
    obtain ⟨_, rfl, hps⟩ := hps
    obtain ⟨_, _, rfl, hhead, hstatement⟩ := hps.parens [.phrase .name, .word .inWord,
      .word .range, .mark .leftParen, .phrase .expression, .mark .comma, .phrase .expression,
      .mark .rightParen]
    obtain ⟨n, _, rfl, _, rfl, _, rfl, hrange⟩ := hhead.name
    obtain ⟨_, _, rfl, hbounds, rfl⟩ :=
      hrange.parens [.phrase .expression, .mark .comma, .phrase .expression]
    obtain ⟨_, _, rfl, h, _, rfl, hlast⟩ := hbounds
    obtain ⟨first, hfirst⟩ := h.spelled
    obtain ⟨limit, hlimit⟩ := hlast.last.spelled
    obtain ⟨dangling, body, hbody⟩ := hstatement.last
    rw [List.append_nil]
    exact ⟨dangling, _, .loopRange n hfirst hlimit hbody⟩

theorem hasTree_declaration (h : Produces .declaration ps) (hps : HaveTrees ps ks) :
    Phrase.declaration.HasTree ks := by
  cases h with
  | statement =>
    obtain ⟨_, s, hs⟩ := hps.last
    exact ⟨s, .statement hs⟩
  | declare =>
    obtain ⟨_, _, rfl, ⟨t, ht⟩, hps⟩ := hps
    obtain ⟨n, _, rfl, _, _, rfl, ⟨value?, hv⟩, _, rfl, rfl⟩ := hps.name
    exact ⟨_, .declare n ht hv⟩
  | action =>
    obtain ⟨_, rfl, hps⟩ := hps
    obtain ⟨n, _, rfl, hrest⟩ := hps.name
    obtain ⟨_, _, rfl, h, hblock⟩ := hrest.parens [.phrase (.listed .parameter)]
    obtain ⟨_, _, rfl, ⟨body, hbody⟩, rfl⟩ := hblock.braces
    obtain ⟨_, hparams⟩ := h.last
    obtain ⟨params, hparams⟩ := hparams.exists_trees id
    rw [List.append_nil]
    exact ⟨_, .function n .action hparams hbody⟩
  | function =>
    obtain ⟨_, _, rfl, ⟨t, ht⟩, hps⟩ := hps
    obtain ⟨n, _, rfl, hrest⟩ := hps.name
    obtain ⟨_, _, rfl, h, hblock⟩ := hrest.parens [.phrase (.listed .parameter)]
    obtain ⟨_, _, rfl, ⟨body, hbody⟩, rfl⟩ := hblock.braces
    obtain ⟨_, hparams⟩ := h.last
    obtain ⟨params, hparams⟩ := hparams.exists_trees id
    rw [List.append_nil]
    exact ⟨_, .function n (.typed ht) hparams hbody⟩
  | rename =>
    obtain ⟨_, rfl, hps⟩ := hps
    obtain ⟨n, _, rfl, _, rfl, hrest⟩ := hps.name
    obtain ⟨m, _, rfl, _, rfl, rfl⟩ := hrest.name
    exact ⟨_, .rename n m⟩
  | importAll =>
    obtain ⟨_, rfl, _, _, rfl, ⟨s, rfl⟩, _, rfl, rfl⟩ := hps
    exact ⟨_, .importAll s⟩
  | importSome =>
    obtain ⟨_, rfl, hps⟩ := hps
    obtain ⟨_, _, rfl, ⟨_, hitems⟩, _, rfl, _, _, rfl, ⟨s, rfl⟩, _, rfl, rfl⟩ := hps.braces
    obtain ⟨items, hitems⟩ := hitems.exists_trees id
    exact ⟨_, .importSome s hitems⟩

theorem hasTree_script (h : Produces .script ps) (hps : HaveTrees ps ks) :
    Phrase.script.HasTree ks := by
  cases h with
  | nil =>
    cases hps
    exact ⟨[], .nil⟩
  | cons =>
    obtain ⟨_, _, rfl, ⟨s, hs⟩, hps⟩ := hps
    obtain ⟨ss, hss⟩ := hps.last
    exact ⟨_, .cons hs hss⟩

/-- What a production puts in a row has a tree, if its pieces do. -/
theorem hasTree (h : Produces φ ps) (hps : HaveTrees ps ks) : φ.HasTree ks := by
  cases φ with
  | name =>
    cases h with
    | name n =>
      obtain ⟨_, rfl, rfl⟩ := hps
      exact ⟨n, rfl⟩
  | string =>
    cases h with
    | string s =>
      obtain ⟨_, rfl, rfl⟩ := hps
      exact ⟨s, rfl⟩
  | type => exact h.hasTree_type hps
  | target => exact h.hasTree_target hps
  | rank rank =>
    cases rank with
    | zero => exact fun _ => h.hasTree_primary hps
    | succ rank => exact h.hasTree_operation hps
  | initial => exact h.hasTree_initial hps
  | parameter => exact h.hasTree_parameter hps
  | item => exact h.hasTree_item hps
  | commas φ => exact h.hasTree_commas hps
  | listed φ => exact h.hasTree_listed hps
  | statement => exact h.hasTree_statement hps
  | declaration => exact h.hasTree_declaration hps
  | script => exact h.hasTree_script hps

end Produces

/-- What is produced has trees, production by production. -/
theorem Yields.haveTrees {ps : List Piece} {ks : List Kind} (h : Yields Produces ps ks) :
    HaveTrees ps ks := by
  induction h with
  | nil => rfl
  | kind _ ih => exact ⟨_, rfl, ih⟩
  | phrase hφ _ _ ih ih' => exact ⟨_, _, rfl, hφ.hasTree ih, ih'⟩

/-- The productions yield a script exactly if the grammar of trees derives a program from it. -/
theorem yields_script_iff {ks : List Kind} :
    Yields Produces [.phrase .script] ks ↔ ∃ p, Script ks p := by
  constructor
  · intro h
    obtain ⟨_, _, rfl, ⟨ss, hss⟩, rfl⟩ := h.haveTrees
    rw [List.append_nil]
    exact ⟨⟨.nowhere, ss⟩, rfl, hss⟩
  · rintro ⟨p, -, hp⟩
    exact hp.yields

end Grammar

end Playscript

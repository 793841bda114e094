/-
# What is read is in the grammar

Every reader passes kinds that spell the tree it answers, whatever the bound on
its calls. The induction is on that bound; at each bound the readers that call
each other are taken together (`ReadsExpressions`, `ReadsStatements`). A reader
of operators has its left side already, so what it passes goes behind the kinds
of the left side.

A statement is read as dangling only where no `else` follows.

Key definitions: `Reader.ReadsExpressions`, `Reader.ReadsStatements`.
Key theorems: `Reader.readsExpressions`, `Reader.readsStatements`,
`Reader.reads_program`.
-/
import Playscript.Proofs.Tree.Grammar
import Playscript.Proofs.Tree.Reading

namespace Playscript

open Token (Kind)
open Grammar

namespace Reader

/-! ### Expressions -/

/-- With so many calls, what the readers of expressions pass spells what they answer. -/
structure ReadsExpressions (bound : Nat) : Prop where
  expression : Reads (expression bound) fun ks e => Spells 5 ks e.bare
  layer : ∀ level, level ≤ 4 → Reads (layer bound level) fun ks e => Spells level ks e.bare
  chain : ∀ level left ks, level < 4 → Spells (level + 1) ks left.bare →
    Reads (chain bound level left) fun ls e => Spells (level + 1) (ks ++ ls) e.bare
  operand : Reads (operand bound) fun ks e => Spells 0 ks e.bare
  primary : Reads (primary bound) fun ks e => Spells 0 ks e.bare
  separated : ∀ close,
    Reads (separated bound close) fun ks es => Listed (Spells 5) ks (es.map Expr.bare)
  several : Reads (several bound) fun ks es => Commas (Spells 5) ks (es.map Expr.bare)

variable {bound : Nat} {c d : Cursor}

theorem reads_commas {α β : Type} {P : List Kind → β → Prop} {bare : α → β} {one : Reader α}
    {others : Reader (List α)} (hone : Reads one fun ks a => P ks (bare a))
    (hothers : Reads others fun ks as => Commas P ks (as.map bare)) :
    Reads (commas one others) fun ks as => Commas P ks (as.map bare) := by
  intro c as d hc h
  obtain ⟨first, ks, c₁, hks, hfirst, h⟩ := hone.bind hc h
  obtain ⟨c₂, hmark, h⟩ | ⟨-, h⟩ := eats_bind hks.ends h
  · obtain ⟨rest, ls, c₃, hls, hrest, h⟩ := hothers.bind hmark.ends h
    cases h
    exact ⟨_, hks.trans (hmark.trans hls), .more hfirst hrest⟩
  · cases h
    exact ⟨ks, hks, .one hfirst⟩

theorem spells_assignment {target value e : Expr} {ks ls : List Kind}
    (h : (assignment target value).run c = .ok (e, d)) (ht : Spells 4 ks target.bare)
    (hv : Spells 5 ls value.bare) : d = c ∧ Spells 5 (ks ++ .mark .assign :: ls) e.bare := by
  unfold assignment at h
  split at h
  · rename_i span n
    obtain ⟨rfl, rfl⟩ := run_pure_ok.1 h
    exact ⟨rfl, .assign ht hv⟩
  · cases h

theorem ReadsExpressions.expression_succ (ih : ReadsExpressions bound) :
    Reads (Reader.expression (bound + 1)) fun ks e => Spells 5 ks e.bare := by
  intro c e d hc h
  obtain ⟨target, ks, c₁, hks, htarget, h⟩ := (ih.layer 4 (Nat.le_refl 4)).bind hc h
  obtain ⟨c₂, hmark, h⟩ | ⟨-, h⟩ := eats_bind hks.ends h
  · obtain ⟨value, ls, c₃, hls, hvalue, h⟩ := ih.expression.bind hmark.ends h
    obtain ⟨rfl, he⟩ := spells_assignment h htarget hvalue
    exact ⟨_, hks.trans (hmark.trans hls), he⟩
  · cases h
    exact ⟨ks, hks, .looser (by decide) htarget⟩

theorem ReadsExpressions.layer_succ (ih : ReadsExpressions bound) {level : Nat} (hl : level ≤ 4) :
    Reads (Reader.layer (bound + 1) level) fun ks e => Spells level ks e.bare := by
  intro c e d hc h
  cases level with
  | zero => exact ih.operand hc h
  | succ level =>
    obtain ⟨left, ks, c₁, hks, hleft, h⟩ := (ih.layer level (Nat.le_of_succ_le hl)).bind hc h
    have hlooser : Spells (level + 1) ks left.bare := .looser (by omega) hleft
    obtain ⟨ls, hls, he⟩ := ih.chain level left ks hl hlooser hks.ends h
    exact ⟨_, hks.trans hls, he⟩

theorem ReadsExpressions.chain_succ (ih : ReadsExpressions bound) {level : Nat} (hl : level < 4)
    {left : Expr} {ks : List Kind} (hleft : Spells (level + 1) ks left.bare) :
    Reads (Reader.chain (bound + 1) level left) fun ls e =>
      Spells (level + 1) (ks ++ ls) e.bare := by
  have hdone : Reads (pure left) fun ls e => Spells (level + 1) (ks ++ ls) e.bare := by
    intro c e d hc h
    cases h
    refine ⟨[], .refl hc, ?_⟩
    simpa only [List.append_nil] using hleft
  intro c e d hc h
  rw [Reader.chain, run_bind_of_ok (run_kind c)] at h
  split at h
  · rename_i op hop
    split at h
    · rename_i htight
      have hk : c.kind = op.kind := Operator.ofKind?_eq_some.1 hop
      have hmark := Cursor.passes_advance hc hk (by cases op <;> exact nofun)
      rw [run_bind_of_ok (run_advance c)] at h
      obtain ⟨right, ls, c₁, hls, hright, h⟩ := (ih.layer level (Nat.le_of_lt hl)).bind hmark.ends h
      have hjoin : Spells (level + 1) (ks ++ op.kind :: ls) (left.join op right).bare :=
        .join htight hleft hright
      obtain ⟨ms, hms, he⟩ := ih.chain level _ _ hl hjoin hls.ends h
      refine ⟨_, hmark.trans (hls.trans hms), ?_⟩
      rwa [List.append_assoc] at he
    · exact hdone hc h
  · exact hdone hc h

theorem ReadsExpressions.operand_succ (ih : ReadsExpressions bound) :
    Reads (Reader.operand (bound + 1)) fun ks e => Spells 0 ks e.bare := by
  intro c e d hc h
  rw [Reader.operand, run_bind_of_ok (run_sees c .minus)] at h
  split at h
  · rename_i hsees
    have hmark := Cursor.passes_advance hc (eq_of_beq hsees) nofun
    rw [run_bind_of_ok (run_here c), run_bind_of_ok (run_advance c)] at h
    obtain ⟨inner, ks, c₁, hks, hinner, h⟩ := ih.operand.bind hmark.ends h
    cases h
    exact ⟨_, hmark.trans hks, .negate hinner⟩
  · exact ih.primary hc h

theorem ReadsExpressions.separated_succ (ih : ReadsExpressions bound) (close : Mark) :
    Reads (Reader.separated (bound + 1) close) fun ks es =>
      Listed (Spells 5) ks (es.map Expr.bare) := by
  intro c es d hc h
  rw [Reader.separated, run_bind_of_ok (run_sees c close)] at h
  split at h
  · cases h
    exact ⟨[], .refl hc, .none⟩
  · obtain ⟨ks, hks, hes⟩ := ih.several hc h
    exact ⟨ks, hks, .some hes⟩

/-- What stands between two marks. -/
theorem reads_between {α β : Type} {inner : Reader α} {P : List Kind → α → Prop}
    (hinner : Reads inner P) {close : Mark} {f : α → Reader β} {b : β} (hc : c.Ends)
    (h : (do let a ← inner; mark close; f a : Reader β).run c = .ok (b, d)) :
    ∃ a ks e, c.Passes (ks ++ [.mark close]) e ∧ P ks a ∧ (f a).run e = .ok (b, d) := by
  obtain ⟨a, ks, c₁, hks, ha, h⟩ := hinner.bind hc h
  obtain ⟨_, _, c₂, hclose, rfl, h⟩ := (reads_mark close).bind hks.ends h
  exact ⟨a, ks, c₂, hks.trans hclose, ha, h⟩

theorem ReadsExpressions.primary_succ (ih : ReadsExpressions bound) :
    Reads (Reader.primary (bound + 1)) fun ks e => Spells 0 ks e.bare := by
  intro c e d hc h
  rw [Reader.primary, run_bind_of_ok (run_here c), run_bind_of_ok (run_kind c)] at h
  have hfirst {k : Kind} (hk : c.kind = k) (hne : k ≠ .endOfFile) : c.Passes [k] c.advance :=
    Cursor.passes_advance hc hk hne
  split at h <;> try rw [run_bind_of_ok (run_advance c)] at h
  case h_1 x hk =>
    cases h
    exact ⟨_, hfirst hk nofun, .number x⟩
  case h_2 s hk =>
    cases h
    exact ⟨_, hfirst hk nofun, .string s⟩
  case h_3 hk =>
    cases h
    exact ⟨_, hfirst hk nofun, .bool true⟩
  case h_4 hk =>
    cases h
    exact ⟨_, hfirst hk nofun, .bool false⟩
  case h_5 n hk =>
    have hname := hfirst hk nofun
    obtain ⟨c₁, hopen, h⟩ | ⟨-, h⟩ := eats_bind hname.ends h
    · obtain ⟨arguments, ks, c₂, hks, harguments, h⟩ :=
        reads_between (ih.separated .rightParen) hopen.ends h
      cases h
      rw [← Expr.bareAll_eq_map] at harguments
      exact ⟨_, hname.trans (hopen.trans hks), .call n harguments⟩
    obtain ⟨c₁, hopen, h⟩ | ⟨-, h⟩ := eats_bind hname.ends h
    · obtain ⟨position, ks, c₂, hks, hposition, h⟩ := reads_between ih.expression hopen.ends h
      cases h
      exact ⟨_, hname.trans (hopen.trans hks), .index n hposition⟩
    · cases h
      exact ⟨_, hname, .name n⟩
  case h_6 hk =>
    have hopen := hfirst hk nofun
    obtain ⟨inner, ks, c₂, hks, hinner, h⟩ := reads_between ih.expression hopen.ends h
    cases h
    exact ⟨_, hopen.trans hks, .enclosed hinner⟩
  case h_7 hk =>
    have hopen := hfirst hk nofun
    obtain ⟨items, ks, c₂, hks, hitems, h⟩ :=
      reads_between (ih.separated .rightBracket) hopen.ends h
    cases h
    rw [← Expr.bareAll_eq_map] at hitems
    exact ⟨_, hopen.trans hks, .array hitems⟩
  case h_8 => exact absurd h not_run_expected

theorem readsExpressions (bound : Nat) : ReadsExpressions bound := by
  induction bound with
  | zero =>
    constructor <;> intros <;> intro c e d hc h <;> exact absurd h not_run_endless
  | succ bound ih =>
    exact {
      expression := ih.expression_succ
      layer := fun _ hl => ih.layer_succ hl
      chain := fun _ _ _ hl hleft => ih.chain_succ hl hleft
      operand := ih.operand_succ
      primary := ih.primary_succ
      separated := ih.separated_succ
      several := reads_commas ih.expression ih.several }

/-! ### Parts of statements -/

theorem reads_initial (bound : Nat) :
    Reads (initial? bound) fun ks e? => Initial ks (e?.map Expr.bare) := by
  intro c e? d hc h
  obtain ⟨c₁, hmark, h⟩ | ⟨-, h⟩ := eats_bind hc h
  · obtain ⟨e, ks, c₂, hks, he, h⟩ := (readsExpressions bound).expression.bind hmark.ends h
    cases h
    exact ⟨_, hmark.trans hks, .some he⟩
  · cases h
    exact ⟨[], .refl hc, .none⟩

theorem reads_condition (bound : Nat) :
    Reads (condition bound) fun ks e => ∃ ls, ks = parens ls ∧ Spells 5 ls e.bare := by
  intro c e d hc h
  obtain ⟨_, _, c₁, hopen, rfl, h⟩ := (reads_mark .leftParen).bind hc h
  obtain ⟨test, ks, c₂, hks, htest, h⟩ :=
    reads_between (readsExpressions bound).expression hopen.ends h
  cases h
  exact ⟨_, hopen.trans hks, ks, rfl, htest⟩

theorem reads_type : Reads type fun ks t => Types ks t.bare := by
  intro c t d hc h
  rw [type, run_bind_of_ok (run_here c), run_bind_of_ok (run_kind c)] at h
  split at h
  · rename_i htype
    obtain ⟨w, hk, hw⟩ := Kind.exists_word htype
    have hword := Cursor.passes_advance hc hk nofun
    rw [run_bind_of_ok (run_advance c)] at h
    obtain ⟨c₁, hopen, h⟩ | ⟨-, h⟩ := eats_bind hword.ends h
    · obtain ⟨_, _, c₂, hclose, rfl, h⟩ := (reads_mark .rightBracket).bind hopen.ends h
      cases h
      refine ⟨_, hword.trans (hopen.trans hclose), ?_⟩
      rw [hk]
      exact .array hw
    · cases h
      refine ⟨_, hword, ?_⟩
      rw [hk]
      exact .plain hw
  · exact absurd h not_run_expected

theorem reads_param (bound : Nat) : Reads (param bound) fun ks p => Parameter ks p.bare := by
  intro c p d hc h
  rw [param, run_bind_of_ok (run_here c)] at h
  obtain ⟨type, ks, c₁, hks, htype, h⟩ := reads_type.bind hc h
  obtain ⟨n, _, c₂, hname, rfl, h⟩ := reads_name.bind hks.ends h
  obtain ⟨value?, ls, c₃, hls, hvalue, h⟩ := (reads_initial bound).bind hname.ends h
  cases h
  exact ⟨_, hks.trans (hname.trans hls), .mk n.name htype hvalue⟩

theorem reads_someParams (bound : Nat) :
    Reads (someParams bound) fun ks ps => Commas Parameter ks (ps.map Param.bare) := by
  induction bound with
  | zero => exact fun _ _ _ _ h => absurd h not_run_endless
  | succ bound ih => exact reads_commas (reads_param bound) ih

theorem reads_importItem : Reads importItem fun ks i => Item ks i.bare := by
  intro c i d hc h
  obtain ⟨n, _, c₁, hname, rfl, h⟩ := reads_name.bind hc h
  obtain ⟨c₂, hword, h⟩ | ⟨-, h⟩ := eatsWord_bind hname.ends h
  · obtain ⟨m, _, c₃, hnew, rfl, h⟩ := reads_name.bind hword.ends h
    cases h
    exact ⟨_, hname.trans (hword.trans hnew), .renamed n.name m.name⟩
  · cases h
    exact ⟨_, hname, .plain n.name⟩

theorem reads_someItems (bound : Nat) :
    Reads (someItems bound) fun ks is => Commas Item ks (is.map ImportItem.bare) := by
  induction bound with
  | zero => exact fun _ _ _ _ h => absurd h not_run_endless
  | succ bound ih => exact reads_commas reads_importItem ih

/-- A list that is empty if its closing mark comes at once. -/
theorem listed_bind {α β γ : Type} {P : List Kind → γ → Prop} {g : α → γ} {some : Reader (List α)}
    (hsome : Reads some fun ks as => Commas P ks (as.map g)) {close : Mark} {f : List α → Reader β}
    {b : β} (hc : c.Ends)
    (h : (do if ← sees close then pure [] >>= f else some >>= f : Reader β).run c = .ok (b, d)) :
    ∃ as ks e, c.Passes ks e ∧ Listed P ks (as.map g) ∧ (f as).run e = .ok (b, d) := by
  rw [run_bind_of_ok (run_sees c close)] at h
  split at h
  · exact ⟨[], [], c, .refl hc, .none, h⟩
  · obtain ⟨as, ks, e, hks, has, h⟩ := hsome.bind hc h
    exact ⟨as, ks, e, hks, .some has, h⟩

theorem reads_params (bound : Nat) :
    Reads (params bound) fun ks ps =>
      ∃ ls, ks = parens ls ∧ Listed Parameter ls (ps.map Param.bare) := by
  intro c ps d hc h
  obtain ⟨_, _, c₁, hopen, rfl, h⟩ := (reads_mark .leftParen).bind hc h
  obtain ⟨params, ks, c₂, hks, hparams, h⟩ := listed_bind (reads_someParams bound) hopen.ends h
  obtain ⟨_, _, c₃, hclose, rfl, h⟩ := (reads_mark .rightParen).bind hks.ends h
  cases h
  exact ⟨_, hopen.trans (hks.trans hclose), ks, rfl, hparams⟩

/-! ### Statements without statements inside -/

theorem reads_variableDeclaration (bound : Nat) :
    Reads (variableDeclaration bound) fun ks s => Derives .declaration ks s.bare := by
  intro c s d hc h
  rw [variableDeclaration, run_bind_of_ok (run_here c)] at h
  obtain ⟨type, ks, c₁, hks, htype, h⟩ := reads_type.bind hc h
  obtain ⟨n, _, c₂, hname, rfl, h⟩ := reads_name.bind hks.ends h
  obtain ⟨value?, ls, c₃, hls, hvalue, h⟩ := reads_between (reads_initial bound) hname.ends h
  cases h
  exact ⟨_, hks.trans (hname.trans hls), .declare n.name htype hvalue⟩

theorem reads_renameStatement {c d : Cursor} {s : Stmt} (hc : c.Ends) (hk : c.kind = .word .use)
    (h : renameStatement.run c = .ok (s, d)) :
    ∃ ks, c.Passes ks d ∧ Derives .declaration ks s.bare := by
  have hword := Cursor.passes_advance hc hk nofun
  rw [renameStatement, run_bind_of_ok (run_here c), run_bind_of_ok (run_advance c)] at h
  obtain ⟨n, _, c₁, hold, rfl, h⟩ := reads_name.bind hword.ends h
  obtain ⟨_, _, c₂, has, rfl, h⟩ := (reads_word .asWord).bind hold.ends h
  obtain ⟨m, _, c₃, hnew, rfl, h⟩ := reads_name.bind has.ends h
  obtain ⟨_, _, c₄, hend, rfl, h⟩ := (reads_mark .semicolon).bind hnew.ends h
  cases h
  exact ⟨_, hword.trans (hold.trans (has.trans (hnew.trans hend))), .rename n.name m.name⟩

theorem reads_importList (bound : Nat) :
    Reads (importList? bound) fun ks items? =>
      (items? = none ∧ ks = []) ∨
        ∃ ls items, items? = some items ∧ ks = braces ls ++ [.word .fromWord] ∧
          Listed Item ls (items.map ImportItem.bare) := by
  intro c items? d hc h
  obtain ⟨c₁, hopen, h⟩ | ⟨-, h⟩ := eats_bind hc h
  · obtain ⟨items, ks, c₂, hks, hitems, h⟩ := listed_bind (reads_someItems bound) hopen.ends h
    obtain ⟨_, _, c₃, hclose, rfl, h⟩ := (reads_mark .rightBrace).bind hks.ends h
    obtain ⟨_, _, c₄, hfrom, rfl, h⟩ := (reads_word .fromWord).bind hclose.ends h
    cases h
    exact ⟨_, (hopen.trans (hks.trans hclose)).trans hfrom, .inr ⟨ks, items, rfl, rfl, hitems⟩⟩
  · cases h
    exact ⟨[], .refl hc, .inl ⟨rfl, rfl⟩⟩

theorem reads_importStatement {c d : Cursor} {s : Stmt} (hc : c.Ends)
    (hk : c.kind = .word .importWord) (h : (importStatement bound).run c = .ok (s, d)) :
    ∃ ks, c.Passes ks d ∧ Derives .declaration ks s.bare := by
  have hword := Cursor.passes_advance hc hk nofun
  rw [importStatement, run_bind_of_ok (run_here c), run_bind_of_ok (run_advance c)] at h
  obtain ⟨items?, ks, c₁, hks, hlist, h⟩ := (reads_importList bound).bind hword.ends h
  obtain ⟨source, _, c₂, hsource, rfl, h⟩ := reads_string.bind hks.ends h
  obtain ⟨_, _, c₃, hend, rfl, h⟩ := (reads_mark .semicolon).bind hsource.ends h
  cases h
  refine ⟨_, hword.trans (hks.trans (hsource.trans hend)), ?_⟩
  obtain ⟨rfl, rfl⟩ | ⟨ls, items, rfl, rfl, hitems⟩ := hlist
  · exact .importAll source
  · have hs := Derives.importSome source hitems
    simpa [Stmt.bare] using hs

theorem reads_showStatement {c d : Cursor} {s : Stmt} (hc : c.Ends)
    (hk : c.kind = .word .showWord) (h : (showStatement bound).run c = .ok (s, d)) :
    ∃ ks, c.Passes ks d ∧ Derives (.statement false) ks s.bare := by
  have hword := Cursor.passes_advance hc hk nofun
  rw [showStatement, run_bind_of_ok (run_here c), run_bind_of_ok (run_advance c)] at h
  obtain ⟨_, _, c₁, hopen, rfl, h⟩ := (reads_mark .leftParen).bind hword.ends h
  obtain ⟨arguments, ks, c₂, hks, harguments, h⟩ :=
    reads_between ((readsExpressions bound).separated .rightParen) hopen.ends h
  obtain ⟨_, _, c₃, hend, rfl, h⟩ := (reads_mark .semicolon).bind hks.ends h
  cases h
  rw [← Expr.bareAll_eq_map] at harguments
  exact ⟨_, hword.trans ((hopen.trans hks).trans hend), .display harguments⟩

theorem reads_returnStatement {c d : Cursor} {s : Stmt} (hc : c.Ends)
    (hk : c.kind = .word .returnWord) (h : (returnStatement bound).run c = .ok (s, d)) :
    ∃ ks, c.Passes ks d ∧ Derives (.statement false) ks s.bare := by
  have hword := Cursor.passes_advance hc hk nofun
  rw [returnStatement, run_bind_of_ok (run_here c), run_bind_of_ok (run_advance c)] at h
  obtain ⟨values, ks, c₁, hks, hvalues, h⟩ :=
    reads_between ((readsExpressions bound).separated .semicolon) hword.ends h
  cases h
  rw [← Expr.bareAll_eq_map] at hvalues
  exact ⟨_, hword.trans hks, .returnValues hvalues⟩

theorem reads_expressionStatement (bound : Nat) :
    Reads (expressionStatement bound) fun ks s => Derives (.statement false) ks s.bare := by
  intro c s d hc h
  obtain ⟨e, ks, c₁, hks, he, h⟩ := reads_between (readsExpressions bound).expression hc h
  cases h
  exact ⟨_, hks, .evaluate he⟩

/-! ### Statements and declarations -/

/-- With so many calls, what the readers of statements pass is in the grammar. -/
structure ReadsStatements (bound : Nat) : Prop where
  declaration : Reads (declaration bound) fun ks s => Derives .declaration ks s.bare
  function : ∀ start returns? ks, Returns ks (returns?.map TypeRef.bare) →
    Reads (function bound start returns?) fun ls s => Derives .declaration (ks ++ ls) s.bare
  block : Reads (block bound) fun ks b =>
    ∃ ls, ks = braces ls ∧ Row (Derives .declaration) ls (Stmt.bareAll b.body)
  declarations : Reads (declarations bound) fun ks ss =>
    Row (Derives .declaration) ks (Stmt.bareAll ss)
  /-- A dangling statement ends before something other than `else`. -/
  statement : ∀ ⦃c s d⦄, c.Ends → (statement bound).run c = .ok (s, d) →
    ∃ dangling ks, c.Passes ks d ∧ Derives (.statement dangling) ks s.bare ∧
      (dangling = true → d.kind ≠ .word .elseWord)

theorem ReadsStatements.declaration_succ (ih : ReadsStatements bound) :
    Reads (Reader.declaration (bound + 1)) fun ks s => Derives .declaration ks s.bare := by
  intro c s d hc h
  rw [Reader.declaration, run_bind_of_ok (run_kind c)] at h
  split at h
  case h_1 hk => exact reads_importStatement hc hk h
  case h_2 hk =>
    have hword := Cursor.passes_advance hc hk nofun
    rw [run_bind_of_ok (run_here c), run_bind_of_ok (run_advance c)] at h
    obtain ⟨ks, hks, hs⟩ := ih.function _ _ _ .action hword.ends h
    exact ⟨_, hword.trans hks, hs⟩
  case h_3 hk => exact reads_renameStatement hc hk h
  case h_4 =>
    split at h
    · obtain ⟨found, c₁, hget, h⟩ := run_bind_ok.1 h
      cases hget
      split at h
      · rw [run_bind_of_ok (run_here _)] at h
        obtain ⟨returns, ks, c₁, hks, hreturns, h⟩ := reads_type.bind hc h
        obtain ⟨ls, hls, hs⟩ := ih.function _ (some returns) ks (.typed hreturns) hks.ends h
        exact ⟨_, hks.trans hls, hs⟩
      · exact reads_variableDeclaration bound hc h
    · obtain ⟨dangling, ks, hks, hs, -⟩ := ih.statement hc h
      exact ⟨ks, hks, .statement hs⟩

theorem ReadsStatements.function_succ (ih : ReadsStatements bound) {start : Span}
    {returns? : Option TypeRef} {ks : List Kind} (hks : Returns ks (returns?.map TypeRef.bare)) :
    Reads (Reader.function (bound + 1) start returns?) fun ls s =>
      Derives .declaration (ks ++ ls) s.bare := by
  intro c s d hc h
  obtain ⟨n, _, c₁, hname, rfl, h⟩ := reads_name.bind hc h
  obtain ⟨params, _, c₂, hls, ⟨ls, rfl, hparams⟩, h⟩ := (reads_params bound).bind hname.ends h
  obtain ⟨body, _, c₃, hms, ⟨ms, rfl, hbody⟩, h⟩ := ih.block.bind hls.ends h
  cases h
  exact ⟨_, hname.trans (hls.trans hms), .function n.name hks hparams hbody⟩

theorem ReadsStatements.block_succ (ih : ReadsStatements bound) :
    Reads (Reader.block (bound + 1)) fun ks b =>
      ∃ ls, ks = braces ls ∧ Row (Derives .declaration) ls (Stmt.bareAll b.body) := by
  intro c b d hc h
  rw [Reader.block, run_bind_of_ok (run_here c)] at h
  obtain ⟨_, _, c₁, hopen, rfl, h⟩ := (reads_mark .leftBrace).bind hc h
  obtain ⟨body, ks, c₂, hks, hbody, h⟩ := reads_between ih.declarations hopen.ends h
  cases h
  exact ⟨_, hopen.trans hks, ks, rfl, hbody⟩

theorem ReadsStatements.declarations_succ (ih : ReadsStatements bound) :
    Reads (Reader.declarations (bound + 1)) fun ks ss =>
      Row (Derives .declaration) ks (Stmt.bareAll ss) := by
  intro c ss d hc h
  rw [Reader.declarations, run_bind_of_ok (run_kind c), run_bind_of_ok (run_kind c)] at h
  split at h
  · cases h
    exact ⟨[], .refl hc, .nil⟩
  · obtain ⟨first, ks, c₁, hks, hfirst, h⟩ := ih.declaration.bind hc h
    obtain ⟨others, ls, c₂, hls, hothers, h⟩ := ih.declarations.bind hks.ends h
    cases h
    exact ⟨_, hks.trans hls, .cons hfirst hothers⟩

theorem ReadsStatements.statement_succ (ih : ReadsStatements bound) {c d : Cursor} {s : Stmt}
    (hc : c.Ends) (h : (Reader.statement (bound + 1)).run c = .ok (s, d)) :
    ∃ dangling ks, c.Passes ks d ∧ Derives (.statement dangling) ks s.bare ∧
      (dangling = true → d.kind ≠ .word .elseWord) := by
  rw [Reader.statement, run_bind_of_ok (run_kind c)] at h
  have hclosed (hs : ∃ ks, c.Passes ks d ∧ Derives (.statement false) ks s.bare) :
      ∃ dangling ks, c.Passes ks d ∧ Derives (.statement dangling) ks s.bare ∧
        (dangling = true → d.kind ≠ .word .elseWord) := by
    obtain ⟨ks, hks, hs⟩ := hs
    exact ⟨false, ks, hks, hs, nofun⟩
  split at h
  case h_1 hk =>
    have hword := Cursor.passes_advance hc hk nofun
    rw [run_bind_of_ok (run_here c), run_bind_of_ok (run_advance c)] at h
    obtain ⟨test, _, c₁, hks, ⟨ks, rfl, htest⟩, h⟩ := (reads_condition bound).bind hword.ends h
    obtain ⟨yes, c₂, hrun, h⟩ := run_bind_ok.1 h
    obtain ⟨dangling, ls, hls, hyes, hnext⟩ := ih.statement hks.ends hrun
    obtain ⟨c₃, helse, h⟩ | ⟨hnone, h⟩ := eatsWord_bind hls.ends h
    · -- an `else` follows, so the statement before it was no dangling one
      obtain rfl : dangling = false := by
        cases dangling with
        | false => rfl
        | true =>
          have hkind : c₂.kind = .word .elseWord := by
            rw [Cursor.kind_eq hls.ends, helse.kinds]
            rfl
          exact absurd hkind (hnext rfl)
      obtain ⟨no, c₄, hrun, h⟩ := run_bind_ok.1 h
      obtain ⟨dangling, ms, hms, hno, hnext⟩ := ih.statement helse.ends hrun
      cases h
      exact ⟨dangling, _, hword.trans (hks.trans (hls.trans (helse.trans hms))),
        .branchElse htest hyes hno, hnext⟩
    · cases h
      exact ⟨true, _, hword.trans (hks.trans hls), .branch htest hyes, fun _ => hnone⟩
  case h_2 hk =>
    have hword := Cursor.passes_advance hc hk nofun
    rw [run_bind_of_ok (run_here c), run_bind_of_ok (run_advance c)] at h
    obtain ⟨test, _, c₁, hks, ⟨ks, rfl, htest⟩, h⟩ := (reads_condition bound).bind hword.ends h
    obtain ⟨body, c₂, hrun, h⟩ := run_bind_ok.1 h
    obtain ⟨dangling, ls, hls, hbody, hnext⟩ := ih.statement hks.ends hrun
    cases h
    exact ⟨dangling, _, hword.trans (hks.trans hls), .loopWhile htest hbody, hnext⟩
  case h_3 hk =>
    have hword := Cursor.passes_advance hc hk nofun
    rw [run_bind_of_ok (run_here c), run_bind_of_ok (run_advance c)] at h
    obtain ⟨_, _, c₁, hopen, rfl, h⟩ := (reads_mark .leftParen).bind hword.ends h
    obtain ⟨n, _, c₂, hname, rfl, h⟩ := reads_name.bind hopen.ends h
    obtain ⟨_, _, c₃, hin, rfl, h⟩ := (reads_word .inWord).bind hname.ends h
    obtain ⟨_, _, c₄, hrange, rfl, h⟩ := (reads_word .range).bind hin.ends h
    obtain ⟨_, _, c₅, hinner, rfl, h⟩ := (reads_mark .leftParen).bind hrange.ends h
    obtain ⟨first, ks, c₆, hks, hfirst, h⟩ :=
      reads_between (readsExpressions bound).expression hinner.ends h
    obtain ⟨limit, ls, c₇, hls, hlimit, h⟩ :=
      reads_between (readsExpressions bound).expression hks.ends h
    obtain ⟨_, _, c₈, hclose, rfl, h⟩ := (reads_mark .rightParen).bind hls.ends h
    obtain ⟨body, c₉, hrun, h⟩ := run_bind_ok.1 h
    obtain ⟨dangling, ms, hms, hbody, hnext⟩ := ih.statement hclose.ends hrun
    cases h
    have hhead :=
      hopen.trans (hname.trans (hin.trans (hrange.trans (hinner.trans (hks.trans hls)))))
    refine ⟨dangling, _, hword.trans ((hhead.trans hclose).trans hms), ?_, hnext⟩
    have hs := Derives.loopRange n.name hfirst hlimit hbody
    simpa [parens, Stmt.bare, Ident.bare] using hs
  case h_4 hk => exact hclosed (reads_showStatement hc hk h)
  case h_5 hk => exact hclosed (reads_returnStatement hc hk h)
  case h_6 hk =>
    obtain ⟨b, _, c₁, hks, ⟨ks, rfl, hbody⟩, h⟩ := ih.block.bind hc h
    cases h
    exact hclosed ⟨_, hks, .block hbody⟩
  case h_7 => exact hclosed (reads_expressionStatement bound hc h)

theorem readsStatements (bound : Nat) : ReadsStatements bound := by
  induction bound with
  | zero =>
    constructor <;> intros <;> (try intro c a d hc h) <;>
      exact absurd (by assumption) not_run_endless
  | succ bound ih =>
    exact {
      declaration := ih.declaration_succ
      function := fun _ _ _ hks => ih.function_succ hks
      block := ih.block_succ
      declarations := ih.declarations_succ
      statement := fun _ _ _ => ih.statement_succ }

/-- Declarations up to an end of file. -/
theorem reads_topLevel {bound : Nat} {c d : Cursor} {ss : List Stmt} (hc : c.Ends)
    (h : (topLevel bound).run c = .ok (ss, d)) :
    ∃ ks, c.Passes ks d ∧ Row (Derives .declaration) ks (Stmt.bareAll ss) ∧
      d.kind = .endOfFile := by
  induction bound generalizing c d ss with
  | zero => exact absurd h not_run_endless
  | succ bound ih =>
    rw [topLevel, run_bind_of_ok (run_kind c)] at h
    split at h
    · rename_i hend
      cases h
      exact ⟨[], .refl hc, .nil, eq_of_beq hend⟩
    · obtain ⟨first, ks, c₁, hks, hfirst, h⟩ := (readsStatements bound).declaration.bind hc h
      obtain ⟨others, c₂, hrun, h⟩ := run_bind_ok.1 h
      obtain ⟨ls, hls, hothers, hend⟩ := ih hks.ends hrun
      cases h
      exact ⟨_, hks.trans hls, .cons hfirst hothers, hend⟩

/-- What is read as a script is one, up to an end of file. -/
theorem reads_program {bound : Nat} {c d : Cursor} {p : Program} (hc : c.Ends)
    (h : (program bound).run c = .ok (p, d)) :
    ∃ ks, c.Passes ks d ∧ Script ks p.bare ∧ d.kind = .endOfFile := by
  rw [program, run_bind_of_ok (run_here c)] at h
  obtain ⟨body, c₁, hrun, h⟩ := run_bind_ok.1 h
  obtain ⟨ks, hks, hbody, hend⟩ := reads_topLevel hc hrun
  split at h
  · rename_i hempty
    cases h
    rw [List.isEmpty_iff] at hempty
    subst hempty
    exact ⟨ks, hks, ⟨rfl, hbody⟩, hend⟩
  · cases h
    exact ⟨ks, hks, ⟨rfl, hbody⟩, hend⟩

end Reader

end Playscript

/-
# The spans of a tree are nested

Every reader draws the outline of its answer from the tokens it takes, whatever
the bound on its calls. A span that is read runs from the token the cursor stood
before to the token taken last (`Cursor.Takes.since`), or over the spans of two
operands. Parentheses are left out of a tree; the span inside them stands among
the tokens all the same.

The tokens of a source stand in a row as far as they are no end of file, so the
outline of a program is nested, and its names and literals are tokens of the
source (`Program.outline_nested`).

Key definitions: `Cursor.Takes`, `Reader.Draws`.
Key theorems: `Reader.drawsExpressions`, `Reader.drawsStatements`,
`Program.outline_nested`.
-/
import Playscript.Proofs.Tree.Outlines
import Playscript.Proofs.Tree.Reading

namespace Playscript

/-! ### Taking tokens -/

namespace Cursor

/-- The tokens between two places of a cursor, none of them an end of file. -/
structure Takes (c : Cursor) (ts : List Token) (d : Cursor) : Prop where
  ends : d.Ends
  rest : c.rest = ts ++ d.rest
  inside : ∀ t ∈ ts, t.kind ≠ .endOfFile
  /-- The token taken last is remembered. -/
  previous : d.previous = (ts.getLast?.map (·.span)).getD c.previous

variable {c d e : Cursor} {ts us : List Token} {t : Token}

theorem Takes.refl (hc : c.Ends) : c.Takes [] c := ⟨hc, rfl, List.forall_mem_nil _, rfl⟩

theorem Takes.trans (h : c.Takes ts d) (h' : d.Takes us e) : c.Takes (ts ++ us) e where
  ends := h'.ends
  rest := by rw [h.rest, h'.rest, List.append_assoc]
  inside := List.forall_mem_append.2 ⟨h.inside, h'.inside⟩
  previous := by
    rw [h'.previous, h.previous, List.getLast?_append]
    cases us.getLast? <;> rfl

/-- A token other than an end of file is taken. -/
theorem takes_advance (hc : c.Ends) (hk : c.kind ≠ .endOfFile) : c.Takes [c.token] c.advance := by
  rw [kind, token] at hk
  cases hrest : c.rest with
  | nil =>
    rw [hrest] at hk
    exact absurd hc hk
  | cons t rest =>
    rw [hrest] at hk
    have htoken : c.token = t := by rw [token, hrest]; rfl
    have hadvance : c.advance = { c with rest, previous := t.span } := by rw [advance, hrest]
    rw [htoken, hadvance]
    exact ⟨hc, hrest, by simpa using hk, rfl⟩

theorem takes_kind {k : Token.Kind} (hc : c.Ends) (hk : c.kind = k) (hne : k ≠ .endOfFile) :
    c.Takes [c.token] c.advance :=
  takes_advance hc (hk ▸ hne)

/-- The first token taken is the one the cursor stood before. -/
theorem Takes.head (h : c.Takes ts d) (hne : ts ≠ []) : ts.head? = some c.token := by
  obtain ⟨t, us, rfl⟩ := List.exists_cons_of_ne_nil hne
  rw [token, h.rest]
  rfl

end Cursor

/-- The token before a cursor is a leaf of its kind. -/
theorem Drawn.token {c : Cursor} {k : Token.Kind} (hk : c.kind = k) :
    Drawn [c.token] [.leaf ⟨k, c.token.span⟩] := by
  rw [← hk]
  exact .leaf c.token

/-- A node over all that was taken, from the first token to the last. -/
theorem Drawn.since {c d : Cursor} {ts : List Token} {os : List Outline} (h : Drawn ts os)
    (htakes : c.Takes ts d) (hne : ts ≠ []) :
    Drawn ts [.node (c.token.span.merge d.previous) os] := by
  obtain ⟨front, u, rfl⟩ := (List.eq_nil_or_concat' ts).resolve_left hne
  have hu : (front ++ [u]).getLast? = some u := List.getLast?_concat ..
  rw [htakes.previous, hu]
  exact h.enclose (htakes.head hne) hu

namespace Reader

/-- Where the reader answers, the outlines of the answer are drawn from the tokens taken. -/
def Draws {α : Type} (r : Reader α) (outlines : α → List Outline) : Prop :=
  ∀ ⦃c a d⦄, c.Ends → r.run c = .ok (a, d) → ∃ ts, c.Takes ts d ∧ Drawn ts (outlines a)

/-- The first of two readers, and the run of the second. -/
theorem Draws.bind {α β : Type} {r : Reader α} {outlines : α → List Outline}
    (hr : Draws r outlines) {f : α → Reader β} {c d : Cursor} {b : β} (hc : c.Ends)
    (h : (r >>= f).run c = .ok (b, d)) :
    ∃ a ts e, c.Takes ts e ∧ Drawn ts (outlines a) ∧ (f a).run e = .ok (b, d) := by
  obtain ⟨a, e, hrun, hrest⟩ := run_bind_ok.1 h
  obtain ⟨ts, hts, ha⟩ := hr hc hrun
  exact ⟨a, ts, e, hts, ha, hrest⟩

/-! ### One token -/

section

variable {β : Type} {c d : Cursor} {b : β} {f : Bool → Reader β} {g : Unit → Reader β}

theorem eats_takes {m : Mark} (hc : c.Ends) (h : (eats m >>= f).run c = .ok (b, d)) :
    (∃ t e, c.Takes [t] e ∧ (f true).run e = .ok (b, d)) ∨ (f false).run c = .ok (b, d) := by
  by_cases hk : c.kind = .mark m
  · rw [run_bind_of_ok (run_eats_of_eq hk)] at h
    exact .inl ⟨_, _, Cursor.takes_kind hc hk (by simp), h⟩
  · rw [run_bind_of_ok (run_eats_of_ne hk)] at h
    exact .inr h

theorem eatsWord_takes {w : Word} (hc : c.Ends) (h : (eatsWord w >>= f).run c = .ok (b, d)) :
    (∃ t e, c.Takes [t] e ∧ (f true).run e = .ok (b, d)) ∨ (f false).run c = .ok (b, d) := by
  by_cases hk : c.kind = .word w
  · rw [run_bind_of_ok (run_eatsWord_of_eq hk)] at h
    exact .inl ⟨_, _, Cursor.takes_kind hc hk (by simp), h⟩
  · rw [run_bind_of_ok (run_eatsWord_of_ne hk)] at h
    exact .inr h

theorem mark_takes {m : Mark} (hc : c.Ends) (h : (mark m >>= g).run c = .ok (b, d)) :
    ∃ t e, c.Takes [t] e ∧ (g ()).run e = .ok (b, d) := by
  obtain ⟨_, e, hrun, h⟩ := run_bind_ok.1 h
  obtain ⟨t, e', htakes, hrun⟩ | hrun := eats_takes hc hrun
  · obtain ⟨-, rfl⟩ := run_pure_ok.1 hrun
    exact ⟨t, e, htakes, h⟩
  · exact absurd hrun not_run_expected

theorem word_takes {w : Word} (hc : c.Ends) (h : (word w >>= g).run c = .ok (b, d)) :
    ∃ t e, c.Takes [t] e ∧ (g ()).run e = .ok (b, d) := by
  obtain ⟨_, e, hrun, h⟩ := run_bind_ok.1 h
  obtain ⟨t, e', htakes, hrun⟩ | hrun := eatsWord_takes hc hrun
  · obtain ⟨-, rfl⟩ := run_pure_ok.1 hrun
    exact ⟨t, e, htakes, h⟩
  · exact absurd hrun not_run_expected

end

theorem draws_name : Draws name fun i => [i.outline] := by
  intro c i d hc h
  rw [name, run_bind_of_ok (run_kind c)] at h
  split at h
  · rename_i n hk
    cases h
    exact ⟨_, Cursor.takes_kind hc hk (by simp), .token hk⟩
  · exact absurd h not_run_expected

theorem draws_string : Draws string fun _ => [] := by
  intro c s d hc h
  rw [string, run_bind_of_ok (run_kind c)] at h
  split at h
  · rename_i s hk
    cases h
    exact ⟨_, Cursor.takes_kind hc hk (by simp), .none _⟩
  · exact absurd h not_run_expected

/-! ### Expressions -/

/-- With so many calls, the readers of expressions draw the outlines of what they answer. -/
structure DrawsExpressions (bound : Nat) : Prop where
  expression : Draws (expression bound) fun e => [e.outline]
  layer : ∀ level, Draws (layer bound level) fun e => [e.outline]
  /-- The left side is drawn already. -/
  chain : ∀ level left ts, Drawn ts [left.outline] → ∀ ⦃c e d⦄, c.Ends →
    (chain bound level left).run c = .ok (e, d) → ∃ us, c.Takes us d ∧ Drawn (ts ++ us) [e.outline]
  operand : Draws (operand bound) fun e => [e.outline]
  primary : Draws (primary bound) fun e => [e.outline]
  separated : ∀ close, Draws (separated bound close) Expr.outlines
  several : Draws (several bound) Expr.outlines

variable {bound : Nat} {c d : Cursor}

theorem draws_commas {α : Type} {one : Reader α} {others : Reader (List α)}
    {outlines : α → List Outline} (hone : Draws one outlines)
    (hothers : Draws others (List.flatMap outlines)) :
    Draws (commas one others) (List.flatMap outlines) := by
  intro c as d hc h
  obtain ⟨first, ts, c₁, hts, hfirst, h⟩ := hone.bind hc h
  obtain ⟨t, c₂, hmark, h⟩ | h := eats_takes hts.ends h
  · obtain ⟨rest, us, c₃, hus, hrest, h⟩ := hothers.bind hmark.ends h
    cases h
    exact ⟨_, hts.trans (hmark.trans hus), hfirst.append (hrest.behind [t])⟩
  · cases h
    refine ⟨ts, hts, ?_⟩
    rwa [List.flatMap_singleton]

theorem assignment_draws {target value e : Expr} {ts : List Token}
    (h : (assignment target value).run c = .ok (e, d))
    (hdrawn : Drawn ts [target.outline, value.outline]) : d = c ∧ Drawn ts [e.outline] := by
  unfold assignment at h
  split at h
  · rename_i span n
    obtain ⟨rfl, rfl⟩ := run_pure_ok.1 h
    rw [← Expr.span_outline value]
    exact ⟨rfl, hdrawn.join⟩
  · cases h

namespace DrawsExpressions

variable (ih : DrawsExpressions bound)
include ih

theorem expression_succ : Draws (Reader.expression (bound + 1)) fun e => [e.outline] := by
  intro c e d hc h
  obtain ⟨target, ts, c₁, hts, htarget, h⟩ := (ih.layer _).bind hc h
  obtain ⟨t, c₂, hmark, h⟩ | h := eats_takes hts.ends h
  · obtain ⟨value, us, c₃, hus, hvalue, h⟩ := ih.expression.bind hmark.ends h
    obtain ⟨rfl, he⟩ := assignment_draws h (htarget.append (hvalue.behind [t]))
    exact ⟨_, hts.trans (hmark.trans hus), he⟩
  · cases h
    exact ⟨ts, hts, htarget⟩

theorem layer_succ (level : Nat) :
    Draws (Reader.layer (bound + 1) level) fun e => [e.outline] := by
  intro c e d hc h
  cases level with
  | zero => exact ih.operand hc h
  | succ level =>
    obtain ⟨left, ts, c₁, hts, hleft, h⟩ := (ih.layer level).bind hc h
    obtain ⟨us, hus, he⟩ := ih.chain level left ts hleft hts.ends h
    exact ⟨_, hts.trans hus, he⟩

theorem chain_succ (level : Nat) {left e : Expr} {ts : List Token} (hleft : Drawn ts [left.outline])
    (hc : c.Ends) (h : (Reader.chain (bound + 1) level left).run c = .ok (e, d)) :
    ∃ us, c.Takes us d ∧ Drawn (ts ++ us) [e.outline] := by
  have hdone (h : (pure left : Reader Expr).run c = .ok (e, d)) :
      ∃ us, c.Takes us d ∧ Drawn (ts ++ us) [e.outline] := by
    cases h
    exact ⟨[], .refl hc, hleft.before []⟩
  rw [Reader.chain, run_bind_of_ok (run_kind c)] at h
  split at h
  · rename_i op hop
    split at h
    · have hk : c.kind ≠ .endOfFile := fun hk => nomatch hk ▸ hop
      have hmark := Cursor.takes_advance hc hk
      rw [run_bind_of_ok (run_advance c)] at h
      obtain ⟨right, us, c₁, hus, hright, h⟩ := (ih.layer level).bind hmark.ends h
      have hjoin := (hleft.append (hright.behind [c.token])).join
      rw [Expr.span_outline, Expr.span_outline] at hjoin
      obtain ⟨vs, hvs, he⟩ := ih.chain level (left.join op right) _ hjoin hus.ends h
      rw [List.append_assoc] at he
      exact ⟨_, (hmark.trans hus).trans hvs, he⟩
    · exact hdone h
  · exact hdone h

theorem operand_succ : Draws (Reader.operand (bound + 1)) fun e => [e.outline] := by
  intro c e d hc h
  rw [Reader.operand, run_bind_of_ok (run_sees c .minus)] at h
  split at h
  · rename_i hk
    have hmark := Cursor.takes_kind hc (eq_of_beq hk) (by simp)
    rw [run_bind_of_ok (run_here c), run_bind_of_ok (run_advance c)] at h
    obtain ⟨inner, ts, c₁, hts, hinner, h⟩ := ih.operand.bind hmark.ends h
    cases h
    refine ⟨_, hmark.trans hts, ?_⟩
    rw [← Expr.span_outline inner]
    exact (hinner.behind [c.token]).sign List.mem_cons_self
  · exact ih.primary hc h

theorem separated_succ (close : Mark) :
    Draws (Reader.separated (bound + 1) close) Expr.outlines := by
  intro c es d hc h
  rw [Reader.separated, run_bind_of_ok (run_sees c close)] at h
  split at h
  · cases h
    exact ⟨[], .refl hc, .none []⟩
  · exact ih.several hc h

theorem several_succ : Draws (Reader.several (bound + 1)) Expr.outlines := by
  have heq : Expr.outlines = List.flatMap fun e : Expr => [e.outline] := by
    funext es
    rw [Expr.outlines_eq_map, List.map_eq_flatMap]
  have hothers := ih.several
  rw [heq] at hothers ⊢
  exact draws_commas ih.expression hothers

theorem primary_succ : Draws (Reader.primary (bound + 1)) fun e => [e.outline] := by
  intro c e d hc h
  rw [Reader.primary, run_bind_of_ok (run_here c), run_bind_of_ok (run_kind c)] at h
  split at h <;> try rw [run_bind_of_ok (run_advance c)] at h
  case h_1 x hk | h_2 s hk | h_3 hk | h_4 hk =>
    cases h
    exact ⟨_, Cursor.takes_kind hc hk (by simp), .token hk⟩
  case h_5 n hk =>
    have hname := Cursor.takes_kind hc hk (by simp)
    obtain ⟨t, c₁, hopen, h⟩ | h := eats_takes hname.ends h
    · obtain ⟨arguments, ts, c₂, hts, harguments, h⟩ := (ih.separated .rightParen).bind hopen.ends h
      obtain ⟨u, c₃, hclose, h⟩ := mark_takes hts.ends h
      cases h
      have htakes := hname.trans (hopen.trans (hts.trans hclose))
      have hdrawn := (Drawn.token hk).append ((harguments.before [u]).behind [t])
      exact ⟨_, htakes, hdrawn.since htakes (List.cons_ne_nil _ _)⟩
    obtain ⟨t, c₁, hopen, h⟩ | h := eats_takes hname.ends h
    · obtain ⟨position, ts, c₂, hts, hposition, h⟩ := ih.expression.bind hopen.ends h
      obtain ⟨u, c₃, hclose, h⟩ := mark_takes hts.ends h
      cases h
      have htakes := hname.trans (hopen.trans (hts.trans hclose))
      have hdrawn := (Drawn.token hk).append ((hposition.before [u]).behind [t])
      exact ⟨_, htakes, hdrawn.since htakes (List.cons_ne_nil _ _)⟩
    · cases h
      exact ⟨_, hname, Drawn.token hk⟩
  case h_6 hk =>
    have hopen := Cursor.takes_kind hc hk (by simp)
    obtain ⟨inner, ts, c₁, hts, hinner, h⟩ := ih.expression.bind hopen.ends h
    obtain ⟨u, c₂, hclose, h⟩ := mark_takes hts.ends h
    cases h
    exact ⟨_, hopen.trans (hts.trans hclose), (hinner.before [u]).behind [c.token]⟩
  case h_7 hk =>
    have hopen := Cursor.takes_kind hc hk (by simp)
    obtain ⟨items, ts, c₁, hts, hitems, h⟩ := (ih.separated .rightBracket).bind hopen.ends h
    obtain ⟨u, c₂, hclose, h⟩ := mark_takes hts.ends h
    cases h
    have htakes := hopen.trans (hts.trans hclose)
    exact ⟨_, htakes,
      ((hitems.before [u]).behind [c.token]).since htakes (List.cons_ne_nil _ _)⟩
  case h_8 => exact absurd h not_run_expected

end DrawsExpressions

theorem drawsExpressions (bound : Nat) : DrawsExpressions bound := by
  induction bound with
  | zero =>
    constructor <;> intros <;> (try intro c e d hc h) <;>
      exact absurd (by assumption) not_run_endless
  | succ bound ih =>
    exact {
      expression := ih.expression_succ
      layer := ih.layer_succ
      chain := fun level _ _ hleft _ _ _ => ih.chain_succ level hleft
      operand := ih.operand_succ
      primary := ih.primary_succ
      separated := ih.separated_succ
      several := ih.several_succ }

/-! ### Parts of statements -/

theorem draws_initial (bound : Nat) : Draws (initial? bound) Expr.outline? := by
  intro c e? d hc h
  obtain ⟨t, c₁, hmark, h⟩ | h := eats_takes hc h
  · obtain ⟨e, ts, c₂, hts, he, h⟩ := (drawsExpressions bound).expression.bind hmark.ends h
    cases h
    exact ⟨_, hmark.trans hts, he.behind [t]⟩
  · cases h
    exact ⟨[], .refl hc, .none []⟩

theorem draws_condition (bound : Nat) : Draws (condition bound) fun e => [e.outline] := by
  intro c e d hc h
  obtain ⟨t, c₁, hopen, h⟩ := mark_takes hc h
  obtain ⟨test, ts, c₂, hts, htest, h⟩ := (drawsExpressions bound).expression.bind hopen.ends h
  obtain ⟨u, c₃, hclose, h⟩ := mark_takes hts.ends h
  cases h
  exact ⟨_, hopen.trans (hts.trans hclose), (htest.before [u]).behind [t]⟩

/-- A type is more than no token. -/
theorem type_takes {α : Type} {c d : Cursor} {a : α} {f : TypeRef → Reader α} (hc : c.Ends)
    (h : (type >>= f).run c = .ok (a, d)) :
    ∃ t ts e, c.Takes ts e ∧ Drawn ts [t.outline] ∧ ts ≠ [] ∧ (f t).run e = .ok (a, d) := by
  obtain ⟨t, e, hrun, h⟩ := run_bind_ok.1 h
  rw [type, run_bind_of_ok (run_here c), run_bind_of_ok (run_kind c)] at hrun
  split at hrun
  · rename_i htype
    have hword := Cursor.takes_advance hc fun hk => nomatch hk ▸ htype
    rw [run_bind_of_ok (run_advance c)] at hrun
    obtain ⟨u, c₁, hopen, hrun⟩ | hrun := eats_takes hword.ends hrun
    · obtain ⟨v, c₂, hclose, hrun⟩ := mark_takes hopen.ends hrun
      cases hrun
      have htakes := hword.trans (hopen.trans hclose)
      refine ⟨_, _, _, htakes, ?_, nofun, h⟩
      exact (Drawn.none _).since htakes nofun
    · cases hrun
      refine ⟨_, _, _, hword, ?_, nofun, h⟩
      exact (Drawn.none _).since hword nofun
  · exact absurd hrun not_run_expected

theorem draws_param (bound : Nat) : Draws (param bound) fun p => [p.outline] := by
  intro c p d hc h
  rw [param, run_bind_of_ok (run_here c)] at h
  obtain ⟨type, ts, c₁, hts, htype, hne, h⟩ := type_takes hc h
  obtain ⟨name, us, c₂, hus, hname, h⟩ := draws_name.bind hts.ends h
  obtain ⟨value?, vs, c₃, hvs, hvalue, h⟩ := (draws_initial bound).bind hus.ends h
  cases h
  have htakes := hts.trans (hus.trans hvs)
  exact ⟨_, htakes, (htype.append (hname.append hvalue)).since htakes
    (List.append_ne_nil_of_left_ne_nil hne _)⟩

theorem draws_someParams (bound : Nat) :
    Draws (someParams bound) (List.flatMap fun p => [p.outline]) := by
  induction bound with
  | zero => exact fun _ _ _ _ h => absurd h not_run_endless
  | succ bound ih => exact draws_commas (draws_param bound) ih

theorem draws_importItem : Draws importItem ImportItem.outlines := by
  intro c i d hc h
  obtain ⟨n, ts, c₁, hts, hname, h⟩ := draws_name.bind hc h
  obtain ⟨t, c₂, hword, h⟩ | h := eatsWord_takes hts.ends h
  · obtain ⟨m, us, c₃, hus, hnew, h⟩ := draws_name.bind hword.ends h
    cases h
    exact ⟨_, hts.trans (hword.trans hus), hname.append (hnew.behind [t])⟩
  · cases h
    exact ⟨ts, hts, hname⟩

theorem draws_someItems (bound : Nat) :
    Draws (someItems bound) (List.flatMap ImportItem.outlines) := by
  induction bound with
  | zero => exact fun _ _ _ _ h => absurd h not_run_endless
  | succ bound ih => exact draws_commas draws_importItem ih

/-- A list that is empty if its closing mark comes at once. -/
theorem listed_takes {α β : Type} {outlines : α → List Outline} {some : Reader (List α)}
    (hsome : Draws some (List.flatMap outlines)) {close : Mark} {f : List α → Reader β} {b : β}
    (hc : c.Ends)
    (h : (do if ← sees close then pure [] >>= f else some >>= f : Reader β).run c = .ok (b, d)) :
    ∃ as ts e, c.Takes ts e ∧ Drawn ts (as.flatMap outlines) ∧ (f as).run e = .ok (b, d) := by
  rw [run_bind_of_ok (run_sees c close)] at h
  split at h
  · exact ⟨[], [], c, .refl hc, .none [], h⟩
  · exact hsome.bind hc h

theorem draws_importList (bound : Nat) :
    Draws (importList? bound) fun items? => (items?.getD []).flatMap ImportItem.outlines := by
  intro c items? d hc h
  obtain ⟨t, c₁, hopen, h⟩ | h := eats_takes hc h
  · obtain ⟨items, ts, c₂, hts, hitems, h⟩ := listed_takes (draws_someItems bound) hopen.ends h
    obtain ⟨u, c₃, hclose, h⟩ := mark_takes hts.ends h
    obtain ⟨v, c₄, hfrom, h⟩ := word_takes hclose.ends h
    cases h
    exact ⟨_, hopen.trans (hts.trans (hclose.trans hfrom)), (hitems.before [u, v]).behind [t]⟩
  · cases h
    exact ⟨[], .refl hc, .none []⟩

theorem draws_params (bound : Nat) : Draws (params bound) (List.map Param.outline) := by
  intro c ps d hc h
  obtain ⟨t, c₁, hopen, h⟩ := mark_takes hc h
  obtain ⟨params, ts, c₂, hts, hparams, h⟩ := listed_takes (draws_someParams bound) hopen.ends h
  obtain ⟨u, c₃, hclose, h⟩ := mark_takes hts.ends h
  cases h
  rw [List.map_eq_flatMap]
  exact ⟨_, hopen.trans (hts.trans hclose), (hparams.before [u]).behind [t]⟩

/-! ### Statements without statements inside -/

theorem draws_variableDeclaration (bound : Nat) :
    Draws (variableDeclaration bound) fun s => [s.outline] := by
  intro c s d hc h
  rw [variableDeclaration, run_bind_of_ok (run_here c)] at h
  obtain ⟨type, ts, c₁, hts, htype, hne, h⟩ := type_takes hc h
  obtain ⟨name, us, c₂, hus, hname, h⟩ := draws_name.bind hts.ends h
  obtain ⟨value?, vs, c₃, hvs, hvalue, h⟩ := (draws_initial bound).bind hus.ends h
  obtain ⟨u, c₄, hend, h⟩ := mark_takes hvs.ends h
  cases h
  have htakes := hts.trans (hus.trans (hvs.trans hend))
  have hdrawn := htype.append (hname.append (hvalue.before [u]))
  exact ⟨_, htakes, hdrawn.since htakes (List.append_ne_nil_of_left_ne_nil hne _)⟩

section

variable {s : Stmt} (hc : c.Ends) (hk : c.kind ≠ .endOfFile)
include hc hk

theorem renameStatement_draws (h : renameStatement.run c = .ok (s, d)) :
    ∃ ts, c.Takes ts d ∧ Drawn ts [s.outline] := by
  have hword := Cursor.takes_advance hc hk
  rw [renameStatement, run_bind_of_ok (run_here c), run_bind_of_ok (run_advance c)] at h
  obtain ⟨n, ts, c₁, hts, hold, h⟩ := draws_name.bind hword.ends h
  obtain ⟨t, c₂, has, h⟩ := word_takes hts.ends h
  obtain ⟨m, us, c₃, hus, hnew, h⟩ := draws_name.bind has.ends h
  obtain ⟨u, c₄, hend, h⟩ := mark_takes hus.ends h
  cases h
  have htakes := hword.trans (hts.trans (has.trans (hus.trans hend)))
  have hdrawn := (hold.append ((hnew.before [u]).behind [t])).behind [c.token]
  exact ⟨_, htakes, hdrawn.since htakes (List.cons_ne_nil _ _)⟩

theorem importStatement_draws (h : (importStatement bound).run c = .ok (s, d)) :
    ∃ ts, c.Takes ts d ∧ Drawn ts [s.outline] := by
  have hword := Cursor.takes_advance hc hk
  rw [importStatement, run_bind_of_ok (run_here c), run_bind_of_ok (run_advance c)] at h
  obtain ⟨items?, ts, c₁, hts, hitems, h⟩ := (draws_importList bound).bind hword.ends h
  obtain ⟨source, us, c₂, hus, -, h⟩ := draws_string.bind hts.ends h
  obtain ⟨u, c₃, hend, h⟩ := mark_takes hus.ends h
  cases h
  have htakes := hword.trans (hts.trans (hus.trans hend))
  have hdrawn := (hitems.before (us ++ [u])).behind [c.token]
  exact ⟨_, htakes, hdrawn.since htakes (List.cons_ne_nil _ _)⟩

theorem showStatement_draws (h : (showStatement bound).run c = .ok (s, d)) :
    ∃ ts, c.Takes ts d ∧ Drawn ts [s.outline] := by
  have hword := Cursor.takes_advance hc hk
  rw [showStatement, run_bind_of_ok (run_here c), run_bind_of_ok (run_advance c)] at h
  obtain ⟨t, c₁, hopen, h⟩ := mark_takes hword.ends h
  obtain ⟨arguments, ts, c₂, hts, harguments, h⟩ :=
    ((drawsExpressions bound).separated .rightParen).bind hopen.ends h
  obtain ⟨u, c₃, hclose, h⟩ := mark_takes hts.ends h
  obtain ⟨v, c₄, hend, h⟩ := mark_takes hclose.ends h
  cases h
  have htakes := hword.trans (hopen.trans (hts.trans (hclose.trans hend)))
  have hdrawn := (harguments.before [u, v]).behind [c.token, t]
  exact ⟨_, htakes, hdrawn.since htakes (List.cons_ne_nil _ _)⟩

theorem returnStatement_draws (h : (returnStatement bound).run c = .ok (s, d)) :
    ∃ ts, c.Takes ts d ∧ Drawn ts [s.outline] := by
  have hword := Cursor.takes_advance hc hk
  rw [returnStatement, run_bind_of_ok (run_here c), run_bind_of_ok (run_advance c)] at h
  obtain ⟨values, ts, c₁, hts, hvalues, h⟩ :=
    ((drawsExpressions bound).separated .semicolon).bind hword.ends h
  obtain ⟨u, c₂, hend, h⟩ := mark_takes hts.ends h
  cases h
  have htakes := hword.trans (hts.trans hend)
  have hdrawn := (hvalues.before [u]).behind [c.token]
  exact ⟨_, htakes, hdrawn.since htakes (List.cons_ne_nil _ _)⟩

end

theorem draws_expressionStatement (bound : Nat) :
    Draws (expressionStatement bound) fun s => [s.outline] := by
  intro c s d hc h
  obtain ⟨e, ts, c₁, hts, he, h⟩ := (drawsExpressions bound).expression.bind hc h
  obtain ⟨t, c₂, hend, h⟩ := mark_takes hts.ends h
  cases h
  have hprevious : d.previous = t.span := hend.previous
  refine ⟨_, hts.trans hend, ?_⟩
  rw [hprevious, ← Expr.span_outline e]
  exact (he.before [t]).finish (by simp)

/-! ### Statements and declarations -/

/-- With so many calls, the readers of statements draw the outlines of what they answer. -/
structure DrawsStatements (bound : Nat) : Prop where
  declaration : Draws (declaration bound) fun s => [s.outline]
  /-- The word or the type in front is taken already. -/
  function : ∀ returns? ts ⦃b c s d⦄, Cursor.Takes b ts c → ts ≠ [] →
    Drawn ts (returns?.toList.map TypeRef.outline) →
    (function bound b.token.span returns?).run c = .ok (s, d) →
    ∃ us, b.Takes us d ∧ Drawn us [s.outline]
  block : Draws (block bound) fun b => [Stmt.outlineOfBlock b]
  declarations : Draws (declarations bound) Stmt.outlines
  statement : Draws (statement bound) fun s => [s.outline]

namespace DrawsStatements

variable (ih : DrawsStatements bound)
include ih

theorem declaration_succ : Draws (Reader.declaration (bound + 1)) fun s => [s.outline] := by
  intro c s d hc h
  rw [Reader.declaration, run_bind_of_ok (run_kind c)] at h
  split at h
  case h_1 hk => exact importStatement_draws hc (hk ▸ nofun) h
  case h_2 hk =>
    have hword := Cursor.takes_kind hc hk (by simp)
    rw [run_bind_of_ok (run_here c), run_bind_of_ok (run_advance c)] at h
    exact ih.function none _ hword nofun (.none _) h
  case h_3 hk => exact renameStatement_draws hc (hk ▸ nofun) h
  case h_4 =>
    split at h
    · obtain ⟨found, c₁, hget, h⟩ := run_bind_ok.1 h
      cases hget
      split at h
      · rw [run_bind_of_ok (run_here _)] at h
        obtain ⟨returns, ts, c₁, hts, hreturns, hne, h⟩ := type_takes hc h
        exact ih.function (some returns) ts hts hne hreturns h
      · exact draws_variableDeclaration bound hc h
    · exact ih.statement hc h

theorem function_succ {returns? : Option TypeRef} {ts : List Token} {b : Cursor} {s : Stmt}
    (hts : b.Takes ts c) (hne : ts ≠ []) (hreturns : Drawn ts (returns?.toList.map TypeRef.outline))
    (h : (Reader.function (bound + 1) b.token.span returns?).run c = .ok (s, d)) :
    ∃ us, b.Takes us d ∧ Drawn us [s.outline] := by
  obtain ⟨n, us, c₁, hus, hname, h⟩ := draws_name.bind hts.ends h
  obtain ⟨params, vs, c₂, hvs, hparams, h⟩ := (draws_params bound).bind hus.ends h
  obtain ⟨body, ws, c₃, hws, hbody, h⟩ := ih.block.bind hvs.ends h
  cases h
  have htakes := hts.trans (hus.trans (hvs.trans hws))
  have hdrawn := hreturns.append (hname.append (hparams.append hbody))
  exact ⟨_, htakes, hdrawn.since htakes (List.append_ne_nil_of_left_ne_nil hne _)⟩

theorem block_succ : Draws (Reader.block (bound + 1)) fun b => [Stmt.outlineOfBlock b] := by
  intro c b d hc h
  rw [Reader.block, run_bind_of_ok (run_here c)] at h
  obtain ⟨t, c₁, hopen, h⟩ := mark_takes hc h
  obtain ⟨body, ts, c₂, hts, hbody, h⟩ := ih.declarations.bind hopen.ends h
  obtain ⟨u, c₃, hclose, h⟩ := mark_takes hts.ends h
  cases h
  have htakes := hopen.trans (hts.trans hclose)
  exact ⟨_, htakes, ((hbody.before [u]).behind [t]).since htakes (List.cons_ne_nil _ _)⟩

theorem declarations_succ : Draws (Reader.declarations (bound + 1)) Stmt.outlines := by
  intro c ss d hc h
  rw [Reader.declarations, run_bind_of_ok (run_kind c), run_bind_of_ok (run_kind c)] at h
  split at h
  · cases h
    exact ⟨[], .refl hc, .none []⟩
  · obtain ⟨first, ts, c₁, hts, hfirst, h⟩ := ih.declaration.bind hc h
    obtain ⟨others, us, c₂, hus, hothers, h⟩ := ih.declarations.bind hts.ends h
    cases h
    exact ⟨_, hts.trans hus, hfirst.append hothers⟩

theorem statement_succ : Draws (Reader.statement (bound + 1)) fun s => [s.outline] := by
  intro c s d hc h
  rw [Reader.statement, run_bind_of_ok (run_kind c)] at h
  split at h
  case h_1 hk =>
    have hword := Cursor.takes_kind hc hk (by simp)
    rw [run_bind_of_ok (run_here c), run_bind_of_ok (run_advance c)] at h
    obtain ⟨test, ts, c₁, hts, htest, h⟩ := (draws_condition bound).bind hword.ends h
    obtain ⟨yes, us, c₂, hus, hyes, h⟩ := ih.statement.bind hts.ends h
    obtain ⟨t, c₃, helse, h⟩ | h := eatsWord_takes hus.ends h
    · obtain ⟨no, vs, c₄, hvs, hno, h⟩ := ih.statement.bind helse.ends h
      cases h
      have htakes := hword.trans (hts.trans (hus.trans (helse.trans hvs)))
      have hdrawn := (htest.append (hyes.append (hno.behind [t]))).behind [c.token]
      exact ⟨_, htakes, hdrawn.since htakes (List.cons_ne_nil _ _)⟩
    · cases h
      have htakes := hword.trans (hts.trans hus)
      exact ⟨_, htakes,
        ((htest.append hyes).behind [c.token]).since htakes (List.cons_ne_nil _ _)⟩
  case h_2 hk =>
    have hword := Cursor.takes_kind hc hk (by simp)
    rw [run_bind_of_ok (run_here c), run_bind_of_ok (run_advance c)] at h
    obtain ⟨test, ts, c₁, hts, htest, h⟩ := (draws_condition bound).bind hword.ends h
    obtain ⟨body, us, c₂, hus, hbody, h⟩ := ih.statement.bind hts.ends h
    cases h
    have htakes := hword.trans (hts.trans hus)
    exact ⟨_, htakes,
      ((htest.append hbody).behind [c.token]).since htakes (List.cons_ne_nil _ _)⟩
  case h_3 hk =>
    have hword := Cursor.takes_kind hc hk (by simp)
    rw [run_bind_of_ok (run_here c), run_bind_of_ok (run_advance c)] at h
    obtain ⟨t₁, c₁, hopen, h⟩ := mark_takes hword.ends h
    obtain ⟨n, ts, c₂, hts, hname, h⟩ := draws_name.bind hopen.ends h
    obtain ⟨t₂, c₃, hin, h⟩ := word_takes hts.ends h
    obtain ⟨t₃, c₄, hrange, h⟩ := word_takes hin.ends h
    obtain ⟨t₄, c₅, hinner, h⟩ := mark_takes hrange.ends h
    obtain ⟨first, us, c₆, hus, hfirst, h⟩ := (drawsExpressions bound).expression.bind hinner.ends h
    obtain ⟨t₅, c₇, hcomma, h⟩ := mark_takes hus.ends h
    obtain ⟨limit, vs, c₈, hvs, hlimit, h⟩ := (drawsExpressions bound).expression.bind hcomma.ends h
    obtain ⟨t₆, c₉, hclose, h⟩ := mark_takes hvs.ends h
    obtain ⟨t₇, c₁₀, hend, h⟩ := mark_takes hclose.ends h
    obtain ⟨body, ws, c₁₁, hws, hbody, h⟩ := ih.statement.bind hend.ends h
    cases h
    have hhead := hword.trans (hopen.trans (hts.trans (hin.trans (hrange.trans hinner))))
    have htail := hcomma.trans (hvs.trans (hclose.trans (hend.trans hws)))
    have htakes := hhead.trans (hus.trans htail)
    have hcounter := (hname.before [t₂, t₃, t₄]).behind [c.token, t₁]
    have hrow := hfirst.append ((hlimit.append (hbody.behind [t₆, t₇])).behind [t₅])
    exact ⟨_, htakes, (hcounter.append hrow).since htakes (List.cons_ne_nil _ _)⟩
  case h_4 hk => exact showStatement_draws hc (hk ▸ nofun) h
  case h_5 hk => exact returnStatement_draws hc (hk ▸ nofun) h
  case h_6 =>
    obtain ⟨b, ts, c₁, hts, hb, h⟩ := ih.block.bind hc h
    cases h
    exact ⟨ts, hts, hb⟩
  case h_7 => exact draws_expressionStatement bound hc h

end DrawsStatements

theorem drawsStatements (bound : Nat) : DrawsStatements bound := by
  induction bound with
  | zero =>
    constructor <;> intros <;> (try intro c a d hc h) <;>
      exact absurd (by assumption) not_run_endless
  | succ bound ih =>
    exact {
      declaration := ih.declaration_succ
      function := fun _ _ _ _ _ _ => ih.function_succ
      block := ih.block_succ
      declarations := ih.declarations_succ
      statement := ih.statement_succ }

theorem draws_topLevel (bound : Nat) : Draws (topLevel bound) Stmt.outlines := by
  induction bound with
  | zero => exact fun _ _ _ _ h => absurd h not_run_endless
  | succ bound ih =>
    intro c ss d hc h
    rw [topLevel, run_bind_of_ok (run_kind c)] at h
    split at h
    · cases h
      exact ⟨[], .refl hc, .none []⟩
    · obtain ⟨first, ts, c₁, hts, hfirst, h⟩ := (drawsStatements bound).declaration.bind hc h
      obtain ⟨others, us, c₂, hus, hothers, h⟩ := ih.bind hts.ends h
      cases h
      exact ⟨_, hts.trans hus, hfirst.append hothers⟩

/-- A program without statements has the span of the token it ends at. -/
theorem draws_program {c d : Cursor} {p : Program} (hc : c.Ends)
    (h : (program bound).run c = .ok (p, d)) :
    p = ⟨c.token.span, []⟩ ∨ ∃ ts, c.Takes ts d ∧ Drawn ts [p.outline] := by
  rw [program, run_bind_of_ok (run_here c)] at h
  obtain ⟨body, ts, c₁, hts, hbody, h⟩ := (draws_topLevel bound).bind hc h
  split at h
  · cases h
    exact .inl rfl
  · rename_i hbodyNe
    cases h
    refine .inr ⟨ts, hts, hbody.since hts ?_⟩
    -- statements are among the tokens taken
    rintro rfl
    obtain _ | ⟨s, ss⟩ := body
    · exact hbodyNe rfl
    · have hamong := (hbody ⟨List.forall_mem_nil _, .nil⟩).among s.outline List.mem_cons_self
      obtain ⟨t, ht, -⟩ := hamong.begun
      exact absurd ht List.not_mem_nil

end Reader

/-! ### Programs -/

namespace Source

variable {s : Source}

theorem tokens_forward {t : Token} (h : t ∈ s.tokens) : t.span.start ≤ t.span.stop :=
  (((cuts_lexemes s.text.toList).ordered s.BreaksOff (fun l hl hb => ⟨l, hl, hb⟩) []
    s.span_endOfFile).1 t h).2

/-- The tokens of a source other than the end of file stand in a row. -/
theorem inRow {ts : List Token} (h : ts.Sublist s.tokens) (hts : ∀ t ∈ ts, t.kind ≠ .endOfFile) :
    InRow ts := by
  have hordered := ((cuts_lexemes s.text.toList).ordered s.BreaksOff
    (fun l hl hb => ⟨l, hl, hb⟩) [] s.span_endOfFile).2
  change s.tokens.Pairwise _ at hordered
  refine ⟨fun t ht => tokens_forward (h.subset ht), (hordered.sublist h).imp_of_mem ?_⟩
  rintro t u - hu (hlt | ⟨-, rfl, -⟩)
  · exact hlt
  · exact absurd rfl (hts _ hu)

theorem token_mem (s : Source) : (Cursor.ofTokens s.tokens).token ∈ s.tokens := by
  obtain ⟨t, ts, h⟩ : ∃ t ts, s.tokens = t :: ts :=
    List.exists_cons_of_ne_nil (List.append_ne_nil_of_right_ne_nil _ (List.cons_ne_nil _ _))
  rw [h]
  exact List.mem_cons_self

end Source

namespace Program

/-- In the program of a source every node lies around the nodes right below it, and these stand in
a row without overlap; names and literals are tokens of the source, one each and in order. -/
theorem outline_nested {source : Source} {p : Program} (h : (ofSource source).1 = .ok p) :
    p.outline.Nested ∧ p.outline.leaves.Sublist source.lex.tokens := by
  obtain ⟨d, hrun⟩ := ofTokens_eq_ok.1 (ofTokens_of_ofSource h)
  have hends : (Cursor.ofTokens source.lex.tokens).Ends := by
    have hlast := source.tokens_getLast
    rw [Cursor.Ends, Cursor.ofTokens, Source.lex, hlast]
    rfl
  obtain rfl | ⟨ts, hts, hdrawn⟩ := Reader.draws_program hends hrun
  · refine ⟨.node (Source.tokens_forward source.token_mem) (List.forall_mem_nil _) .nil
      (List.forall_mem_nil _), List.nil_sublist _⟩
  · have hrest : source.lex.tokens = ts ++ d.rest := hts.rest
    have hsub : ts.Sublist source.lex.tokens := by
      rw [hrest]
      exact List.sublist_append_left ts d.rest
    have hfits := hdrawn (Source.inRow hsub hts.inside)
    have hleaves := hfits.leaves
    rw [Outline.leavesOfAll, Outline.leavesOfAll, List.append_nil] at hleaves
    exact ⟨hfits.nested _ (List.mem_singleton_self _), hleaves.trans hsub⟩

/-- A call with a signed argument, the sign and the name on two lines. -/
def signed : Source := ⟨"main", "f(-\n(a));"⟩

/-- The tree of `signed`; the parentheses around the name are left out. -/
def signedTree : Program :=
  ⟨⟨⟨1, 1⟩, ⟨2, 5⟩⟩,
    [.evaluate ⟨⟨1, 1⟩, ⟨2, 5⟩⟩ (.call ⟨⟨1, 1⟩, ⟨2, 4⟩⟩ ⟨"f", ⟨⟨1, 1⟩, ⟨1, 1⟩⟩⟩
      [.negate ⟨⟨1, 3⟩, ⟨2, 2⟩⟩ (.name ⟨⟨2, 2⟩, ⟨2, 2⟩⟩ "a")])]⟩

theorem outline_nested_signed :
    (ofSource signed).1 = .ok signedTree ∧ signedTree.outline.Nested ∧
      signedTree.outline.leaves =
        [⟨.name "f", ⟨⟨1, 1⟩, ⟨1, 1⟩⟩⟩, ⟨.name "a", ⟨⟨2, 2⟩, ⟨2, 2⟩⟩⟩] ∧
      signedTree.outline.leaves.Sublist signed.lex.tokens := by
  have hparsed : (ofSource signed).1 = .ok signedTree := by with_unfolding_all rfl
  obtain ⟨hnested, hleaves⟩ := outline_nested hparsed
  exact ⟨hparsed, hnested, rfl, hleaves⟩

end Program

end Playscript

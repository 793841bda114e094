/-
# What is in the grammar is read

A derivation is found by the reader of its phrase, where what follows could not
belong to the phrase and the bound on calls is large enough. The bound a phrase
needs is a multiple of the number of its kinds, since every few calls pass
a kind.

A chain of operators is derived from its last operator and read from its first.
So a derivation at a rank leads the reader of that rank to go on behind it with
what was derived as the left side (`FindsExpression.chain`).

Key definitions: `Finds`, `Grammar.stops`, `FindsExpression`, `FindsStatement`.
Key theorems: `Reader.findsExpression`, `Reader.findsStatement`,
`Reader.finds_program`.
-/
import Playscript.Proofs.Tree.Soundness

namespace Playscript

open Token (Kind)
open Grammar

/-- Where the kinds stand and something that stops follows, the reader answers a tree, up to what
is left out of it, and has passed the kinds. -/
def Finds {α β : Type} (r : Reader α) (bare : α → β) (ks : List Kind) (b : β)
    (stop : Kind → Prop) : Prop :=
  ∀ ⦃c tail⦄, c.At (ks ++ tail) → stop (tail.headD .endOfFile) →
    ∃ a d, r.run c = .ok (a, d) ∧ bare a = b ∧ d.At tail

/-- What an expression of a rank cannot go on with. -/
def Grammar.stops (rank : Nat) : Kind → Bool
  | .mark .leftParen | .mark .leftBracket => false
  | .mark .assign => rank < 5
  | k =>
    match Operator.ofKind? k with
    | some op => rank < op.tightness
    | none => true

section Stops

variable {rank : Nat} {k : Kind}

theorem Grammar.stops_mono {loose : Nat} (h : stops loose k) (hr : rank ≤ loose) :
    stops rank k := by
  unfold stops at h ⊢
  split at h <;> simp_all
  · omega
  · split at h <;> simp_all
    omega

theorem Grammar.ne_leftParen_of_stops (h : stops rank k) : k ≠ .mark .leftParen := by
  rintro rfl
  cases h

theorem Grammar.ne_leftBracket_of_stops (h : stops rank k) : k ≠ .mark .leftBracket := by
  rintro rfl
  cases h

theorem Grammar.ne_assign_of_stops (h : stops 5 k) : k ≠ .mark .assign := by
  rintro rfl
  cases h

theorem Grammar.lt_tightness_of_stops (h : stops rank k) {op : Operator}
    (hop : Operator.ofKind? k = some op) : rank < op.tightness := by
  obtain rfl := Operator.ofKind?_eq_some.1 hop
  cases op <;> simpa [stops, Operator.kind, Operator.ofKind?] using h

theorem Grammar.stops_kind {op : Operator} (h : rank < op.tightness) : stops rank op.kind := by
  cases op <;> simpa [stops, Operator.kind, Operator.ofKind?] using h

end Stops

theorem Grammar.Spells.ne_nil {rank : Nat} {ks : List Kind} {e : Expr} (h : Spells rank ks e) :
    ks ≠ [] := by
  obtain ⟨k, ls, rfl, -⟩ := h.head
  exact List.cons_ne_nil _ _

theorem Grammar.Commas.head {ks : List Kind} {es : List Expr} (h : Commas (Spells 5) ks es) :
    ∃ k ls, ks = k :: ls ∧ opensExpression k := by
  cases h with
  | one he => exact he.head
  | more he _ =>
    obtain ⟨k, ls, rfl, hk⟩ := he.head
    exact ⟨k, _, rfl, hk⟩

namespace Reader

variable {bound : Nat} {c d : Cursor} {tail : List Kind}

/-! ### Expressions -/

/-- A derived expression is found by the reader of its rank. -/
structure FindsExpression (rank : Nat) (ks : List Kind) (e : Expr) : Prop where
  operand : rank = 0 → ∀ bound, 16 * ks.length ≤ bound + 1 →
    Finds (operand bound) Expr.bare ks e (stops 0 ·)
  /-- The reader goes on with the derived expression as its left side. -/
  chain : ∀ level, rank = level + 1 → level < 4 → ∀ bound, 16 * ks.length + rank ≤ bound →
    ∀ ⦃c tail⦄, c.At (ks ++ tail) → stops level (tail.headD .endOfFile) →
      ∃ rest left d, (layer bound rank).run c = (chain rest level left).run d ∧
        left.bare = e ∧ d.At tail ∧ bound ≤ rest + ks.length
  expression : rank = 5 → ∀ bound, 16 * ks.length + 5 ≤ bound →
    Finds (expression bound) Expr.bare ks e (stops 5 ·)

/-- A chain stops where no operator of its level follows. -/
theorem run_chain_of_stops {level : Nat} {left : Expr} (h : stops (level + 1) c.kind) :
    (chain (bound + 1) level left).run c = .ok (left, c) := by
  rw [chain, run_bind_of_ok (run_kind c)]
  split
  · rename_i op hop
    have hlt := lt_tightness_of_stops h hop
    rw [if_neg (by omega)]
    rfl
  · rfl

theorem FindsExpression.layer {rank : Nat} {ks : List Kind} {e : Expr}
    (h : FindsExpression rank ks e) (hr : rank ≤ 4) (bound : Nat)
    (hb : 16 * ks.length + rank ≤ bound) (hne : ks ≠ []) :
    Finds (layer bound rank) Expr.bare ks e (stops rank ·) := by
  have hpos : 0 < ks.length := List.length_pos_iff.2 hne
  intro c tail hc hstop
  cases rank with
  | zero =>
    obtain ⟨bound, rfl⟩ := Nat.exists_eq_add_one_of_ne_zero (n := bound) (by omega)
    exact h.operand rfl bound (by omega) hc hstop
  | succ level =>
    obtain ⟨rest, left, d, hrun, hleft, hd, hrest⟩ :=
      h.chain level rfl hr bound hb hc (stops_mono hstop (Nat.le_succ level))
    obtain ⟨rest, rfl⟩ := Nat.exists_eq_add_one_of_ne_zero (n := rest) (by omega)
    have hkind : stops (level + 1) d.kind := by rwa [hd.kind_eq]
    exact ⟨left, d, by rw [hrun, run_chain_of_stops hkind], hleft, hd⟩

/-- What the reader of primary expressions finds is an operand, unless it starts with a sign. -/
theorem findsExpression_of_primary {k : Kind} {ks : List Kind} {e : Expr} (hk : k ≠ .mark .minus)
    (h : ∀ bound, 16 * (k :: ks).length ≤ bound + 2 →
      Finds (primary bound) Expr.bare (k :: ks) e (stops 0 ·)) :
    FindsExpression 0 (k :: ks) e where
  operand _ bound hb := by
    intro c tail hc hstop
    rw [List.length_cons] at hb
    obtain ⟨bound, rfl⟩ := Nat.exists_eq_add_one_of_ne_zero (n := bound) (by omega)
    obtain ⟨f, d, hrun, hf, hd⟩ := h bound (by rw [List.length_cons]; omega) hc hstop
    have hsees : (c.kind == .mark .minus) = false := by
      rw [hc.kind]
      exact beq_eq_false_iff_ne.2 hk
    refine ⟨f, d, ?_, hf, hd⟩
    rw [operand, run_bind_of_ok (run_sees c .minus), hsees]
    exact hrun
  chain _ hr := nomatch hr
  expression hr := nomatch hr

/-- A mark behind what a reader finds. -/
theorem finds_before {α β : Type} {inner : Reader α} {bare : α → β} {ks : List Kind} {b : β}
    {stop : Kind → Prop} {close : Mark} (h : Finds inner bare ks b stop)
    (hstop : stop (.mark close)) (hc : c.At (ks ++ .mark close :: tail)) :
    ∃ a d e, inner.run c = .ok (a, d) ∧ (mark close).run d = .ok ((), e) ∧ bare a = b ∧
      e.At tail := by
  obtain ⟨a, d, hrun, ha, hd⟩ := h hc hstop
  exact ⟨a, d, d.advance, hrun, run_mark_of_eq hd.kind, ha, hd.advance⟩

/-- A token that is an expression by itself. -/
theorem findsExpression_token {k : Kind} {e : Expr} (hk : k ≠ .mark .minus)
    (h : ∀ bound c, c.kind = k → stops 0 c.advance.kind →
      ∃ f, (primary (bound + 1)).run c = .ok (f, c.advance) ∧ f.bare = e) :
    FindsExpression 0 [k] e := by
  refine findsExpression_of_primary hk fun bound hb => ?_
  obtain ⟨bound, rfl⟩ := Nat.exists_eq_add_one_of_ne_zero (n := bound) (by simp at hb; omega)
  intro c tail hc hstop
  have hnext : stops 0 c.advance.kind := by rwa [hc.advance.kind_eq]
  obtain ⟨f, hrun, hf⟩ := h bound c hc.kind hnext
  exact ⟨f, c.advance, hrun, hf, hc.advance⟩

theorem findsExpression_name (n : String) : FindsExpression 0 [.name n] (.name .nowhere n) := by
  refine findsExpression_token nofun fun bound c hk hstop => ⟨.name c.token.span n, ?_, rfl⟩
  rw [primary, run_bind_of_ok (run_here c), run_bind_of_ok (run_kind c), hk]
  dsimp only
  rw [run_bind_of_ok (run_advance c), run_bind_of_ok (run_eats_of_ne (ne_leftParen_of_stops hstop))]
  rw [if_neg Bool.false_ne_true, run_bind_of_ok (run_eats_of_ne (ne_leftBracket_of_stops hstop))]
  rfl

theorem finds_commas_one {α β : Type} {one : Reader α} {others : Reader (List α)} {bare : α → β}
    {ks : List Kind} {b : β} {stop : Kind → Prop} (h : Finds one bare ks b stop) :
    Finds (commas one others) (List.map bare) ks [b] fun k => stop k ∧ k ≠ .mark .comma := by
  intro c tail hc hstop
  obtain ⟨a, d, hrun, rfl, hd⟩ := h hc hstop.1
  have hcomma : d.kind ≠ .mark .comma := by
    rw [hd.kind_eq]
    exact hstop.2
  refine ⟨[a], d, ?_, rfl, hd⟩
  rw [commas, run_bind_of_ok hrun, run_bind_of_ok (run_eats_of_ne hcomma)]
  rfl

theorem finds_commas_more {α β : Type} {one : Reader α} {others : Reader (List α)} {bare : α → β}
    {ks ls : List Kind} {b : β} {bs : List β} {stop stops : Kind → Prop}
    (h : Finds one bare ks b stop) (hstop : stop (.mark .comma))
    (hs : Finds others (List.map bare) ls bs stops) :
    Finds (commas one others) (List.map bare) (ks ++ .mark .comma :: ls) (b :: bs) stops := by
  intro c tail hc hstops
  rw [List.append_assoc, List.cons_append] at hc
  obtain ⟨a, d, hrun, rfl, hd⟩ := h hc hstop
  obtain ⟨as, d', hrun', rfl, hd'⟩ := hs hd.advance hstops
  refine ⟨a :: as, d', ?_, rfl, hd'⟩
  rw [commas, run_bind_of_ok hrun, run_bind_of_ok (run_eats_of_eq hd.kind), if_pos rfl,
    run_bind_of_ok hrun']
  rfl

/-- Expressions between commas are found before anything that ends them. -/
def FindsSeveral (ks : List Kind) (es : List Expr) : Prop :=
  ∀ bound, 16 * ks.length + 6 ≤ bound →
    Finds (several bound) (List.map Expr.bare) ks es fun k => stops 5 k ∧ k ≠ .mark .comma

/-- The marks that close a list of expressions. -/
def closes : Mark → Bool
  | .rightParen | .rightBracket | .semicolon => true
  | _ => false

theorem stops_of_closes {m : Mark} (h : closes m) : stops 5 (.mark m) ∧ m ≠ .comma := by
  revert h
  cases m <;> decide

theorem not_opensExpression_of_closes {m : Mark} (h : closes m) : ¬ opensExpression (.mark m) := by
  revert h
  cases m <;> decide

/-- A list of expressions is found before a mark that closes it. -/
def FindsListed (ks : List Kind) (es : List Expr) : Prop :=
  ∀ close, closes close → ∀ bound, 16 * ks.length + 7 ≤ bound →
    Finds (separated bound close) (List.map Expr.bare) ks es (· = .mark close)

theorem findsListed_nil : FindsListed [] [] := by
  intro close _ bound hb
  obtain ⟨bound, rfl⟩ := Nat.exists_eq_add_one_of_ne_zero (n := bound) (by omega)
  intro c tail hc hstop
  have hsees : (c.kind == .mark close) = true := by
    rw [hc.kind_eq]
    exact beq_iff_eq.2 hstop
  refine ⟨[], c, ?_, rfl, hc⟩
  rw [separated, run_bind_of_ok (run_sees c close), hsees]
  rfl

theorem findsListed_of_several {ks : List Kind} {es : List Expr}
    (hhead : ∃ k ls, ks = k :: ls ∧ opensExpression k) (h : FindsSeveral ks es) :
    FindsListed ks es := by
  obtain ⟨k, ks, rfl, hk⟩ := hhead
  intro close hclose bound hb
  obtain ⟨bound, rfl⟩ := Nat.exists_eq_add_one_of_ne_zero (n := bound) (by omega)
  intro c tail hc hstop
  have hsees : (c.kind == .mark close) = false := by
    rw [hc.kind]
    refine beq_eq_false_iff_ne.2 ?_
    rintro rfl
    exact not_opensExpression_of_closes hclose hk
  have hends : stops 5 (tail.headD .endOfFile) ∧ tail.headD .endOfFile ≠ .mark .comma := by
    rw [hstop]
    exact ⟨(stops_of_closes hclose).1, fun heq => (stops_of_closes hclose).2 (Kind.mark.inj heq)⟩
  obtain ⟨fs, d, hrun, hfs, hd⟩ := h bound (by omega) hc hends
  refine ⟨fs, d, ?_, hfs, hd⟩
  rw [separated, run_bind_of_ok (run_sees c close), hsees]
  exact hrun

theorem findsSeveral_one {ks : List Kind} {e : Expr} (h : FindsExpression 5 ks e) :
    FindsSeveral ks [e] := by
  intro bound hb
  obtain ⟨bound, rfl⟩ := Nat.exists_eq_add_one_of_ne_zero (n := bound) (by omega)
  rw [several_succ]
  exact finds_commas_one (h.expression rfl bound (by omega))

theorem findsSeveral_more {ks ls : List Kind} {e : Expr} {es : List Expr}
    (h : FindsExpression 5 ks e) (hs : FindsSeveral ls es) :
    FindsSeveral (ks ++ .mark .comma :: ls) (e :: es) := by
  intro bound hb
  rw [List.length_append, List.length_cons] at hb
  obtain ⟨bound, rfl⟩ := Nat.exists_eq_add_one_of_ne_zero (n := bound) (by omega)
  rw [several_succ]
  exact finds_commas_more (h.expression rfl bound (by omega)) rfl (hs bound (by omega))

theorem findsExpression_call (n : String) {ks : List Kind} {es : List Expr}
    (h : FindsListed ks es) :
    FindsExpression 0 (.name n :: parens ks) (.call .nowhere ⟨n, .nowhere⟩ es) := by
  refine findsExpression_of_primary nofun fun bound hb => ?_
  simp only [parens, List.length_cons, List.length_append] at hb
  obtain ⟨bound, rfl⟩ := Nat.exists_eq_add_one_of_ne_zero (n := bound) (by omega)
  intro c tail hc _
  have hopen : c.advance.At (parens ks ++ tail) := hc.advance
  have hinner : c.advance.advance.At (ks ++ .mark .rightParen :: tail) := by
    simpa [parens] using hopen.advance
  rw [primary, run_bind_of_ok (run_here c), run_bind_of_ok (run_kind c), hc.kind]
  dsimp only
  rw [run_bind_of_ok (run_advance c), run_bind_of_ok (run_eats_of_eq hopen.kind), if_pos rfl]
  obtain ⟨fs, d, e, hrun, hclose, hfs, he⟩ :=
    finds_before (h .rightParen rfl bound (by omega)) rfl hinner
  rw [run_bind_of_ok hrun, run_bind_of_ok hclose]
  exact ⟨_, e, rfl, by rw [Expr.bare, Expr.bareAll_eq_map, hfs]; rfl, he⟩

theorem findsExpression_index (n : String) {ks : List Kind} {e : Expr}
    (h : FindsExpression 5 ks e) :
    FindsExpression 0 (.name n :: brackets ks) (.index .nowhere ⟨n, .nowhere⟩ e) := by
  refine findsExpression_of_primary nofun fun bound hb => ?_
  simp only [brackets, List.length_cons, List.length_append] at hb
  obtain ⟨bound, rfl⟩ := Nat.exists_eq_add_one_of_ne_zero (n := bound) (by omega)
  intro c tail hc _
  have hopen : c.advance.At (brackets ks ++ tail) := hc.advance
  have hinner : c.advance.advance.At (ks ++ .mark .rightBracket :: tail) := by
    simpa [brackets] using hopen.advance
  have hparen : c.advance.kind ≠ .mark .leftParen := by
    rw [hopen.kind]
    exact nofun
  rw [primary, run_bind_of_ok (run_here c), run_bind_of_ok (run_kind c), hc.kind]
  dsimp only
  rw [run_bind_of_ok (run_advance c), run_bind_of_ok (run_eats_of_ne hparen),
    if_neg Bool.false_ne_true, run_bind_of_ok (run_eats_of_eq hopen.kind), if_pos rfl]
  obtain ⟨f, d, e', hrun, hclose, rfl, he⟩ :=
    finds_before (h.expression rfl bound (by omega)) rfl hinner
  rw [run_bind_of_ok hrun, run_bind_of_ok hclose]
  exact ⟨_, e', rfl, rfl, he⟩

theorem findsExpression_array {ks : List Kind} {es : List Expr} (h : FindsListed ks es) :
    FindsExpression 0 (brackets ks) (.array .nowhere es) := by
  refine findsExpression_of_primary nofun fun bound hb => ?_
  simp only [List.length_cons, List.length_append] at hb
  obtain ⟨bound, rfl⟩ := Nat.exists_eq_add_one_of_ne_zero (n := bound) (by omega)
  intro c tail hc _
  have hinner : c.advance.At (ks ++ .mark .rightBracket :: tail) := by
    simpa using hc.advance
  rw [primary, run_bind_of_ok (run_here c), run_bind_of_ok (run_kind c), hc.kind]
  dsimp only
  rw [run_bind_of_ok (run_advance c)]
  obtain ⟨fs, d, e, hrun, hclose, hfs, he⟩ :=
    finds_before (h .rightBracket rfl bound (by omega)) rfl hinner
  rw [run_bind_of_ok hrun, run_bind_of_ok hclose]
  exact ⟨_, e, rfl, by rw [Expr.bare, Expr.bareAll_eq_map, hfs], he⟩

theorem findsExpression_enclosed {ks : List Kind} {e : Expr} (h : FindsExpression 5 ks e) :
    FindsExpression 0 (parens ks) e := by
  refine findsExpression_of_primary nofun fun bound hb => ?_
  simp only [List.length_cons, List.length_append] at hb
  obtain ⟨bound, rfl⟩ := Nat.exists_eq_add_one_of_ne_zero (n := bound) (by omega)
  intro c tail hc _
  have hinner : c.advance.At (ks ++ .mark .rightParen :: tail) := by
    simpa using hc.advance
  rw [primary, run_bind_of_ok (run_here c), run_bind_of_ok (run_kind c), hc.kind]
  dsimp only
  rw [run_bind_of_ok (run_advance c)]
  obtain ⟨f, d, e', hrun, hclose, hf, he⟩ :=
    finds_before (h.expression rfl bound (by omega)) rfl hinner
  rw [run_bind_of_ok hrun, run_bind_of_ok hclose]
  exact ⟨f, e', rfl, hf, he⟩

theorem findsExpression_negate {ks : List Kind} {e : Expr} (h : FindsExpression 0 ks e) :
    FindsExpression 0 (.mark .minus :: ks) (.negate .nowhere e) where
  operand _ bound hb := by
    rw [List.length_cons] at hb
    obtain ⟨bound, rfl⟩ := Nat.exists_eq_add_one_of_ne_zero (n := bound) (by omega)
    intro c tail hc hstop
    have hsees : (c.kind == .mark .minus) = true := by rw [hc.kind, beq_self_eq_true]
    obtain ⟨f, d, hrun, hf, hd⟩ := h.operand rfl bound (by omega) hc.advance hstop
    refine ⟨.negate (c.token.span.merge f.span) f, d, ?_, by rw [Expr.bare, hf], hd⟩
    rw [operand, run_bind_of_ok (run_sees c .minus), hsees, if_pos rfl,
      run_bind_of_ok (run_here c), run_bind_of_ok (run_advance c), run_bind_of_ok hrun]
    rfl
  chain _ hr := nomatch hr
  expression hr := nomatch hr

/-- A tighter expression is the left side of a chain, or an expression no `=` follows. -/
theorem findsExpression_looser {rank : Nat} {ks : List Kind} {e : Expr} (hne : ks ≠ [])
    (h : FindsExpression rank ks e) : FindsExpression (rank + 1) ks e where
  operand hr := nomatch hr
  chain level hr hl bound hb := by
    obtain rfl : rank = level := Nat.succ.inj hr
    have hpos : 0 < ks.length := List.length_pos_iff.2 hne
    obtain ⟨bound, rfl⟩ := Nat.exists_eq_add_one_of_ne_zero (n := bound) (by omega)
    intro c tail hc hstop
    obtain ⟨left, d, hrun, hleft, hd⟩ := h.layer (Nat.le_of_lt hl) bound (by omega) hne hc hstop
    refine ⟨bound, left, d, ?_, hleft, hd, by omega⟩
    rw [layer, run_bind_of_ok hrun]
  expression hr bound hb := by
    obtain rfl : rank = 4 := Nat.succ.inj hr
    obtain ⟨bound, rfl⟩ := Nat.exists_eq_add_one_of_ne_zero (n := bound) (by omega)
    intro c tail hc hstop
    obtain ⟨f, d, hrun, hf, hd⟩ :=
      h.layer (Nat.le_refl 4) bound (by omega) hne hc (stops_mono hstop (by decide))
    have hassign : d.kind ≠ .mark .assign := by
      rw [hd.kind_eq]
      exact ne_assign_of_stops hstop
    refine ⟨f, d, ?_, hf, hd⟩
    rw [expression, Operator.loosest, run_bind_of_ok hrun, run_bind_of_ok (run_eats_of_ne hassign)]
    rfl

theorem findsExpression_join {rank : Nat} {op : Operator} {ks ls : List Kind} {left right : Expr}
    (hop : op.tightness = rank + 1) (hne : ls ≠ []) (hleft : FindsExpression (rank + 1) ks left)
    (hright : FindsExpression rank ls right) :
    FindsExpression (rank + 1) (ks ++ op.kind :: ls) (.binary .nowhere op left right) where
  operand hr := nomatch hr
  chain level hr hl bound hb := by
    obtain rfl : rank = level := Nat.succ.inj hr
    rw [List.length_append, List.length_cons] at hb
    intro c tail hc hstop
    rw [List.append_assoc, List.cons_append] at hc
    have hop' : stops rank op.kind := stops_kind (by omega)
    obtain ⟨rest, f, d, hrun, hf, hd, hrest⟩ := hleft.chain rank rfl hl bound (by omega) hc hop'
    obtain ⟨rest, rfl⟩ := Nat.exists_eq_add_one_of_ne_zero (n := rest) (by omega)
    obtain ⟨g, d', hrun', hg, hd'⟩ :=
      hright.layer (Nat.le_of_lt hl) rest (by omega) hne hd.advance hstop
    have hkind : Operator.ofKind? d.kind = some op := Operator.ofKind?_eq_some.2 hd.kind
    refine ⟨rest, f.join op g, d', ?_, ?_, hd', ?_⟩
    · rw [hrun, chain, run_bind_of_ok (run_kind d), hkind]
      dsimp only
      rw [if_pos hop, run_bind_of_ok (run_advance d), run_bind_of_ok hrun']
    · rw [Expr.join, Expr.bare, hf, hg]
    · rw [List.length_append, List.length_cons]
      omega
  expression hr := by
    have hle := op.tightness_le
    omega

theorem findsExpression_assign {n : String} {ks ls : List Kind} {e : Expr} (hne : ks ≠ [])
    (htarget : FindsExpression 4 ks (.name .nowhere n)) (hvalue : FindsExpression 5 ls e) :
    FindsExpression 5 (ks ++ .mark .assign :: ls) (.assign .nowhere ⟨n, .nowhere⟩ e) where
  operand hr := nomatch hr
  chain level hr hl := by omega
  expression _ bound hb := by
    rw [List.length_append, List.length_cons] at hb
    obtain ⟨bound, rfl⟩ := Nat.exists_eq_add_one_of_ne_zero (n := bound) (by omega)
    intro c tail hc hstop
    rw [List.append_assoc, List.cons_append] at hc
    obtain ⟨f, d, hrun, hf, hd⟩ := htarget.layer (Nat.le_refl 4) bound (by omega) hne hc rfl
    obtain ⟨g, d', hrun', hg, hd'⟩ := hvalue.expression rfl bound (by omega) hd.advance hstop
    -- only a name is a name without places
    obtain ⟨span, rfl⟩ : ∃ span, f = .name span n := by
      cases f <;> cases hf
      exact ⟨_, rfl⟩
    have hbare : (Expr.assign (span.merge g.span) ⟨n, span⟩ g).bare =
        .assign .nowhere ⟨n, .nowhere⟩ e := congrArg (Expr.assign .nowhere ⟨n, .nowhere⟩) hg
    refine ⟨_, d', ?_, hbare, hd'⟩
    rw [expression, Operator.loosest, run_bind_of_ok hrun, run_bind_of_ok (run_eats_of_eq hd.kind),
      if_pos rfl, run_bind_of_ok hrun']
    rfl

mutual

theorem findsExpression : ∀ {rank : Nat} {ks : List Kind} {e : Expr},
    Spells rank ks e → FindsExpression rank ks e
  | _, _, _, .number x => findsExpression_token nofun fun _ c hk _ =>
      ⟨.number c.token.span x, by
        rw [primary, run_bind_of_ok (run_here c), run_bind_of_ok (run_kind c), hk]; rfl, rfl⟩
  | _, _, _, .string s => findsExpression_token nofun fun _ c hk _ =>
      ⟨.string c.token.span s, by
        rw [primary, run_bind_of_ok (run_here c), run_bind_of_ok (run_kind c), hk]; rfl, rfl⟩
  | _, _, _, .bool b => findsExpression_token nofun fun _ c hk _ =>
      ⟨.bool c.token.span b, by
        rw [primary, run_bind_of_ok (run_here c), run_bind_of_ok (run_kind c), hk]
        cases b <;> rfl, rfl⟩
  | _, _, _, .name n => findsExpression_name n
  | _, _, _, .call n h => findsExpression_call n (findsListed h)
  | _, _, _, .index n h => findsExpression_index n (findsExpression h)
  | _, _, _, .array h => findsExpression_array (findsListed h)
  | _, _, _, .enclosed h => findsExpression_enclosed (findsExpression h)
  | _, _, _, .negate h => findsExpression_negate (findsExpression h)
  | _, _, _, .looser _ h => findsExpression_looser h.ne_nil (findsExpression h)
  | _, _, _, .join hop h h' =>
    findsExpression_join hop h'.ne_nil (findsExpression h) (findsExpression h')
  | _, _, _, .assign h h' =>
    findsExpression_assign h.ne_nil (findsExpression h) (findsExpression h')

theorem findsSeveral : ∀ {ks : List Kind} {es : List Expr},
    Commas (Spells 5) ks es → FindsSeveral ks es
  | _, _, .one h => findsSeveral_one (findsExpression h)
  | _, _, .more h hs => findsSeveral_more (findsExpression h) (findsSeveral hs)

theorem findsListed : ∀ {ks : List Kind} {es : List Expr},
    Listed (Spells 5) ks es → FindsListed ks es
  | _, _, .none => findsListed_nil
  | _, _, .some h => findsListed_of_several h.head (findsSeveral h)

end

/-! ### Parts of statements -/

theorem finds_initial {ks : List Kind} {value? : Option Expr} (h : Initial ks value?)
    (bound : Nat) (hb : 16 * ks.length + 5 ≤ bound) :
    Finds (initial? bound) (Option.map Expr.bare) ks value? (stops 5 ·) := by
  intro c tail hc hstop
  cases h with
  | none =>
    have hassign : c.kind ≠ .mark .assign := by
      rw [hc.kind_eq]
      exact ne_assign_of_stops hstop
    refine ⟨none, c, ?_, rfl, hc⟩
    rw [initial?, run_bind_of_ok (run_eats_of_ne hassign)]
    rfl
  | some he =>
    rw [List.length_cons] at hb
    obtain ⟨f, d, hrun, hf, hd⟩ :=
      (findsExpression he).expression rfl bound (by omega) hc.advance hstop
    refine ⟨some f, d, ?_, congrArg some hf, hd⟩
    rw [initial?, run_bind_of_ok (run_eats_of_eq hc.kind), if_pos rfl, run_bind_of_ok hrun]
    rfl

theorem finds_condition {ks : List Kind} {e : Expr} (h : Spells 5 ks e)
    (bound : Nat) (hb : 16 * ks.length + 5 ≤ bound) :
    Finds (condition bound) Expr.bare (parens ks) e fun _ => True := by
  intro c tail hc _
  have hinner : c.advance.At (ks ++ .mark .rightParen :: tail) := by
    simpa using hc.advance
  rw [condition, run_bind_of_ok (run_mark_of_eq hc.kind)]
  obtain ⟨f, d, e', hrun, hclose, hf, he⟩ :=
    finds_before ((findsExpression h).expression rfl bound hb) rfl hinner
  rw [run_bind_of_ok hrun, run_bind_of_ok hclose]
  exact ⟨f, e', rfl, hf, he⟩

theorem finds_type {ks : List Kind} {t : TypeRef} (h : Types ks t) :
    Finds type TypeRef.bare ks t (· ≠ .mark .leftBracket) := by
  have hfirst {w : Word} {c : Cursor} (hw : w.isType) (hk : c.kind = .word w) :
      type.run c = (do
        if ← eats .leftBracket then
          mark .rightBracket
          return ⟨.array (.named w.text), ← since c.token.span⟩
        else return ⟨.named w.text, ← since c.token.span⟩ : Reader TypeRef).run c.advance := by
    rw [type, run_bind_of_ok (run_here c), run_bind_of_ok (run_kind c), hk,
      if_pos (show (Kind.word w).isType from hw), run_bind_of_ok (run_advance c)]
    rfl
  intro c tail hc hstop
  cases h with
  | plain hw =>
    have hbracket : c.advance.kind ≠ .mark .leftBracket := by
      rw [hc.advance.kind_eq]
      exact hstop
    rw [hfirst hw hc.kind, run_bind_of_ok (run_eats_of_ne hbracket)]
    exact ⟨_, _, rfl, rfl, hc.advance⟩
  | array hw =>
    have hopen := hc.advance
    rw [hfirst hw hc.kind, run_bind_of_ok (run_eats_of_eq hopen.kind), if_pos rfl,
      run_bind_of_ok (run_mark_of_eq hopen.advance.kind)]
    exact ⟨_, _, rfl, rfl, hopen.advance.advance⟩

theorem finds_param {ks : List Kind} {p : Param} (h : Parameter ks p)
    (hb : 16 * ks.length + 5 ≤ bound) : Finds (param bound) Param.bare ks p (stops 5 ·) := by
  intro c tail hc hstop
  cases h with
  | mk n ht hv =>
    simp only [List.length_append, List.length_cons] at hb
    rw [List.append_assoc, List.cons_append] at hc
    obtain ⟨t, d, hrun, rfl, hd⟩ := finds_type ht hc nofun
    obtain ⟨v, d', hrun', rfl, hd'⟩ := finds_initial hv bound (by omega) hd.advance hstop
    rw [param, run_bind_of_ok (run_here c), run_bind_of_ok hrun,
      run_bind_of_ok (run_name_of_eq hd.kind), run_bind_of_ok hrun']
    exact ⟨_, d', rfl, rfl, hd'⟩

theorem finds_someParams {ks : List Kind} {ps : List Param} (h : Commas Parameter ks ps) :
    ∀ bound, 16 * ks.length + 6 ≤ bound →
      Finds (someParams bound) (List.map Param.bare) ks ps
        fun k => stops 5 k ∧ k ≠ .mark .comma := by
  induction h with
  | one hp =>
    intro bound hb
    obtain ⟨bound, rfl⟩ := Nat.exists_eq_add_one_of_ne_zero (n := bound) (by omega)
    rw [someParams_succ]
    exact finds_commas_one (finds_param hp (by omega))
  | more hp _ ih =>
    intro bound hb
    rw [List.length_append, List.length_cons] at hb
    obtain ⟨bound, rfl⟩ := Nat.exists_eq_add_one_of_ne_zero (n := bound) (by omega)
    rw [someParams_succ]
    exact finds_commas_more (finds_param hp (by omega)) rfl (ih bound (by omega))

theorem finds_importItem {ks : List Kind} {i : ImportItem} (h : Item ks i) :
    Finds importItem ImportItem.bare ks i (· ≠ .word .asWord) := by
  intro c tail hc hstop
  cases h with
  | plain n =>
    have has : c.advance.kind ≠ .word .asWord := by
      rw [hc.advance.kind_eq]
      exact hstop
    refine ⟨⟨⟨n, c.token.span⟩, none⟩, c.advance, ?_, rfl, hc.advance⟩
    rw [importItem, run_bind_of_ok (run_name_of_eq hc.kind),
      run_bind_of_ok (run_eatsWord_of_ne has)]
    rfl
  | renamed n m =>
    have hword := hc.advance
    have hnew := hword.advance
    rw [importItem, run_bind_of_ok (run_name_of_eq hc.kind),
      run_bind_of_ok (run_eatsWord_of_eq hword.kind), if_pos rfl,
      run_bind_of_ok (run_name_of_eq hnew.kind)]
    exact ⟨_, _, rfl, rfl, hnew.advance⟩

theorem finds_someItems {ks : List Kind} {is : List ImportItem} (h : Commas Item ks is) :
    ∀ bound, ks.length < bound →
      Finds (someItems bound) (List.map ImportItem.bare) ks is
        fun k => k ≠ .word .asWord ∧ k ≠ .mark .comma := by
  induction h with
  | one hi =>
    intro bound hb
    obtain ⟨bound, rfl⟩ := Nat.exists_eq_add_one_of_ne_zero (n := bound) (by omega)
    rw [someItems_succ]
    exact finds_commas_one (finds_importItem hi)
  | more hi _ ih =>
    intro bound hb
    rw [List.length_append, List.length_cons] at hb
    obtain ⟨bound, rfl⟩ := Nat.exists_eq_add_one_of_ne_zero (n := bound) (by omega)
    rw [someItems_succ]
    exact finds_commas_more (finds_importItem hi) nofun (ih bound (by omega))

/-- A list that is empty if its closing mark comes at once. -/
theorem finds_listed {α β γ : Type} {P : List Kind → β → Prop} {some : Reader (List α)}
    {bare : α → β} {stop : Kind → Prop} {ks : List Kind} {bs : List β} {close : Mark}
    (h : Listed P ks bs) (hhead : Commas P ks bs → ∃ k ls, ks = k :: ls ∧ k ≠ .mark close)
    (hsome : Commas P ks bs → Finds some (List.map bare) ks bs stop) (hstop : stop (.mark close))
    (hc : c.At (ks ++ .mark close :: tail)) :
    ∃ as d, (∀ f : List α → Reader γ,
        (do if ← sees close then pure [] >>= f else some >>= f).run c = (f as).run d) ∧
      as.map bare = bs ∧ d.At (.mark close :: tail) := by
  simp only [run_bind_of_ok (run_sees c close)]
  cases h with
  | none =>
    rw [hc.kind, beq_self_eq_true]
    exact ⟨[], c, fun f => rfl, rfl, hc⟩
  | some hs =>
    obtain ⟨k, ls, rfl, hk⟩ := hhead hs
    obtain ⟨as, d, hrun, has, hd⟩ := hsome hs hc hstop
    rw [hc.kind, beq_eq_false_iff_ne.2 hk]
    exact ⟨as, d, fun f => run_bind_of_ok hrun, has, hd⟩

theorem parameters_head {ks : List Kind} {ps : List Param} (h : Commas Parameter ks ps) :
    ∃ k ls, ks = k :: ls ∧ k ≠ .mark .rightParen := by
  have hone {ls : List Kind} {p : Param} (hp : Parameter ls p) :
      ∃ k ms, ls = k :: ms ∧ k ≠ .mark .rightParen := by
    cases hp with
    | mk n ht _ =>
      obtain ⟨w, ms, rfl, -⟩ := ht.head
      exact ⟨.word w, _, rfl, nofun⟩
  cases h with
  | one hp => exact hone hp
  | more hp _ =>
    obtain ⟨k, ms, rfl, hk⟩ := hone hp
    exact ⟨k, _, rfl, hk⟩

theorem items_head {ks : List Kind} {is : List ImportItem} (h : Commas Item ks is) :
    ∃ k ls, ks = k :: ls ∧ k ≠ .mark .rightBrace := by
  have hone {ls : List Kind} {i : ImportItem} (hi : Item ls i) :
      ∃ k ms, ls = k :: ms ∧ k ≠ .mark .rightBrace := by
    cases hi with
    | plain n => exact ⟨.name n, _, rfl, nofun⟩
    | renamed n m => exact ⟨.name n, _, rfl, nofun⟩
  cases h with
  | one hi => exact hone hi
  | more hi _ =>
    obtain ⟨k, ms, rfl, hk⟩ := hone hi
    exact ⟨k, _, rfl, hk⟩

theorem finds_params {ks : List Kind} {ps : List Param} (h : Listed Parameter ks ps)
    (bound : Nat) (hb : 16 * ks.length + 6 ≤ bound) :
    Finds (params bound) (List.map Param.bare) (parens ks) ps fun _ => True := by
  intro c tail hc _
  have hinner : c.advance.At (ks ++ .mark .rightParen :: tail) := by
    simpa using hc.advance
  rw [params, run_bind_of_ok (run_mark_of_eq hc.kind)]
  obtain ⟨ps', d, hrun, hps, hd⟩ := finds_listed h parameters_head
    (fun hs => finds_someParams hs bound hb) ⟨rfl, nofun⟩ hinner
  refine ⟨ps', d.advance, ?_, hps, hd.advance⟩
  refine (hrun _).trans ?_
  rw [run_bind_of_ok (run_mark_of_eq hd.kind)]
  rfl

/-! ### Statements without statements inside -/

theorem finds_variableDeclaration (n : String) {ks ls : List Kind} {t : TypeRef}
    {value? : Option Expr} (ht : Types ks t) (hv : Initial ls value?)
    (hb : 16 * ls.length + 5 ≤ bound) :
    Finds (variableDeclaration bound) Stmt.bare (ks ++ .name n :: (ls ++ [.mark .semicolon]))
      (.declare .nowhere t ⟨n, .nowhere⟩ value?) fun _ => True := by
  intro c tail hc _
  have hstart : c.At (ks ++ .name n :: (ls ++ .mark .semicolon :: tail)) := by
    simpa using hc
  obtain ⟨t', d, hrun, rfl, hd⟩ := finds_type ht hstart nofun
  obtain ⟨v, d', e, hrun', hend, rfl, he⟩ := finds_before (finds_initial hv bound hb) rfl hd.advance
  rw [variableDeclaration, run_bind_of_ok (run_here c), run_bind_of_ok hrun,
    run_bind_of_ok (run_name_of_eq hd.kind), run_bind_of_ok hrun', run_bind_of_ok hend]
  exact ⟨_, e, rfl, rfl, he⟩

theorem finds_renameStatement (n m : String) :
    Finds renameStatement Stmt.bare [.word .use, .name n, .word .asWord, .name m, .mark .semicolon]
      (.rename .nowhere ⟨n, .nowhere⟩ ⟨m, .nowhere⟩) fun _ => True := by
  intro c tail hc _
  have hold := hc.advance
  have has := hold.advance
  have hnew := has.advance
  have hend := hnew.advance
  rw [renameStatement, run_bind_of_ok (run_here c), run_bind_of_ok (run_advance c),
    run_bind_of_ok (run_name_of_eq hold.kind), run_bind_of_ok (run_word_of_eq has.kind),
    run_bind_of_ok (run_name_of_eq hnew.kind), run_bind_of_ok (run_mark_of_eq hend.kind)]
  exact ⟨_, _, rfl, rfl, hend.advance⟩

theorem finds_importAll (source : String) :
    Finds (importStatement bound) Stmt.bare
      [.word .importWord, .string source, .mark .semicolon]
      (.importFrom .nowhere none source) fun _ => True := by
  intro c tail hc _
  have hsource := hc.advance
  have hend := hsource.advance
  have hbrace : c.advance.kind ≠ .mark .leftBrace := by
    rw [hsource.kind]
    exact nofun
  have hlist : (importList? bound).run c.advance = .ok (none, c.advance) := by
    rw [importList?, run_bind_of_ok (run_eats_of_ne hbrace)]
    rfl
  rw [importStatement, run_bind_of_ok (run_here c), run_bind_of_ok (run_advance c),
    run_bind_of_ok hlist, run_bind_of_ok (run_string_of_eq hsource.kind),
    run_bind_of_ok (run_mark_of_eq hend.kind)]
  exact ⟨_, _, rfl, rfl, hend.advance⟩

theorem finds_importSome (source : String) {ks : List Kind} {items : List ImportItem}
    (h : Listed Item ks items) (hb : ks.length < bound) :
    Finds (importStatement bound) Stmt.bare
      (.word .importWord :: (braces ks ++ [.word .fromWord, .string source, .mark .semicolon]))
      (.importFrom .nowhere (some items) source) fun _ => True := by
  intro c tail hc _
  have hopen : c.advance.At (.mark .leftBrace :: (ks ++ .mark .rightBrace ::
      .word .fromWord :: .string source :: .mark .semicolon :: tail)) := by
    simpa [braces] using hc.advance
  obtain ⟨is, d, hrun, rfl, hd⟩ := finds_listed h items_head
    (fun hs => finds_someItems hs bound hb) ⟨nofun, nofun⟩ hopen.advance
  have hfrom := hd.advance
  have hsource := hfrom.advance
  have hend := hsource.advance
  have hlist : (importList? bound).run c.advance = .ok (some is, d.advance.advance) := by
    rw [importList?, run_bind_of_ok (run_eats_of_eq hopen.kind), if_pos rfl]
    refine (hrun _).trans ?_
    rw [run_bind_of_ok (run_mark_of_eq hd.kind), run_bind_of_ok (run_word_of_eq hfrom.kind)]
    rfl
  rw [importStatement, run_bind_of_ok (run_here c), run_bind_of_ok (run_advance c),
    run_bind_of_ok hlist, run_bind_of_ok (run_string_of_eq hsource.kind),
    run_bind_of_ok (run_mark_of_eq hend.kind)]
  exact ⟨_, _, rfl, rfl, hend.advance⟩

theorem finds_showStatement {ks : List Kind} {es : List Expr} (h : Listed (Spells 5) ks es)
    (hb : 16 * ks.length + 7 ≤ bound) :
    Finds (showStatement bound) Stmt.bare (.word .showWord :: (parens ks ++ [.mark .semicolon]))
      (.display .nowhere es) fun _ => True := by
  intro c tail hc _
  have hopen : c.advance.At (.mark .leftParen :: (ks ++ .mark .rightParen ::
      .mark .semicolon :: tail)) := by
    simpa [parens] using hc.advance
  rw [showStatement, run_bind_of_ok (run_here c), run_bind_of_ok (run_advance c),
    run_bind_of_ok (run_mark_of_eq hopen.kind)]
  obtain ⟨fs, d, e, hrun, hclose, hfs, he⟩ :=
    finds_before (findsListed h .rightParen rfl bound hb) rfl hopen.advance
  rw [run_bind_of_ok hrun, run_bind_of_ok hclose, run_bind_of_ok (run_mark_of_eq he.kind)]
  exact ⟨_, _, rfl, by rw [Stmt.bare, Expr.bareAll_eq_map, hfs], he.advance⟩

theorem finds_returnStatement {ks : List Kind} {es : List Expr} (h : Listed (Spells 5) ks es)
    (hb : 16 * ks.length + 7 ≤ bound) :
    Finds (returnStatement bound) Stmt.bare (.word .returnWord :: (ks ++ [.mark .semicolon]))
      (.returnValues .nowhere es) fun _ => True := by
  intro c tail hc _
  have hinner : c.advance.At (ks ++ .mark .semicolon :: tail) := by
    simpa using hc.advance
  rw [returnStatement, run_bind_of_ok (run_here c), run_bind_of_ok (run_advance c)]
  obtain ⟨fs, d, e, hrun, hclose, hfs, he⟩ :=
    finds_before (findsListed h .semicolon rfl bound hb) rfl hinner
  rw [run_bind_of_ok hrun, run_bind_of_ok hclose]
  exact ⟨_, e, rfl, by rw [Stmt.bare, Expr.bareAll_eq_map, hfs], he⟩

theorem finds_expressionStatement {ks : List Kind} {e : Expr} (h : Spells 5 ks e)
    (hb : 16 * ks.length + 5 ≤ bound) :
    Finds (expressionStatement bound) Stmt.bare (ks ++ [.mark .semicolon])
      (.evaluate .nowhere e) fun _ => True := by
  intro c tail hc _
  have hstart : c.At (ks ++ .mark .semicolon :: tail) := by
    simpa using hc
  obtain ⟨f, d, e', hrun, hclose, rfl, he⟩ :=
    finds_before ((findsExpression h).expression rfl bound hb) rfl hstart
  rw [expressionStatement, run_bind_of_ok hrun, run_bind_of_ok hclose]
  exact ⟨_, e', rfl, rfl, he⟩

/-! ### Statements and declarations -/

/-- Looking ahead over a type word tells whether a function starts there. -/
theorem startsFunction_iff (c : Cursor) : startsFunction c ↔ HeadsFunction c.kinds.tail := by
  have hahead (n : Nat) : c.ahead (n + 1) = (c.kinds.tail[n]?).getD .endOfFile := by
    rw [Cursor.ahead_eq, List.getElem?_tail]
  have h1 := hahead 0
  have h2 := hahead 1
  have h3 := hahead 2
  have h4 := hahead 3
  revert h1 h2 h3 h4
  generalize c.kinds.tail = ks
  intro h1 h2 h3 h4
  have hget {i : Nat} {k : Kind} (h : (ks[i]?).getD .endOfFile = k) (hk : k ≠ .endOfFile) :
      ks[i]? = some k := by
    cases hi : ks[i]? with
    | none => rw [hi] at h; exact absurd h.symm hk
    | some j => rw [hi] at h; exact congrArg some h
  constructor
  · intro h
    unfold startsFunction at h
    dsimp only at h
    split at h
    · rename_i n hn
      by_cases hb : (c.ahead 1 == .mark .leftBracket && c.ahead 2 == .mark .rightBracket) = true
      · rw [if_pos hb] at hn h
        simp only [Bool.and_eq_true, beq_iff_eq] at hb h
        have e1 := hget (h1.symm.trans hb.1) nofun
        have e2 := hget (h2.symm.trans hb.2) nofun
        have e3 := hget (h3.symm.trans hn) nofun
        have e4 := hget (h4.symm.trans h) nofun
        match ks, e1, e2, e3, e4 with
        | _ :: _ :: _ :: _ :: ls, rfl, rfl, rfl, rfl => exact ⟨n, ls, .inr rfl⟩
      · rw [if_neg hb] at hn h
        have e1 := hget (h1.symm.trans hn) nofun
        have e2 := hget (h2.symm.trans (eq_of_beq h)) nofun
        match ks, e1, e2 with
        | _ :: _ :: ls, rfl, rfl => exact ⟨n, ls, .inl rfl⟩
    · cases h
  · rintro ⟨n, ls, rfl | rfl⟩
    · simp only [List.getElem?_cons_zero, List.getElem?_cons_succ, Option.getD_some] at h1 h2
      simp [startsFunction, h1, h2]
    · simp only [List.getElem?_cons_zero, List.getElem?_cons_succ, Option.getD_some] at h1 h2 h3 h4
      simp [startsFunction, h1, h2, h3, h4]

theorem run_declaration_of_statement (h : opensStatement c.kind) :
    (declaration (bound + 1)).run c = (statement bound).run c := by
  rw [declaration, run_bind_of_ok (run_kind c)]
  split
  · rename_i hk
    rw [hk] at h
    cases h
  · rename_i hk
    rw [hk] at h
    cases h
  · rename_i hk
    rw [hk] at h
    cases h
  · rw [if_neg]
    intro htype
    cases hk : c.kind with
    | word w =>
      rw [hk] at h htype
      exact not_opensStatement_of_type htype h
    | _ =>
      rw [hk] at htype
      cases htype

theorem run_statement_of_expression (h : opensExpression c.kind) :
    (statement (bound + 1)).run c = (expressionStatement bound).run c := by
  rw [statement, run_bind_of_ok (run_kind c)]
  split <;> first | rfl | (rename_i hk; rw [hk] at h; cases h)

/-- A derived statement is found by the reader of its role. -/
structure FindsStatement (role : Role) (ks : List Kind) (s : Stmt) : Prop where
  /-- No `else` may follow a dangling statement. -/
  statement : ∀ dangling, role = .statement dangling → ∀ bound, 16 * ks.length + 6 ≤ bound →
    Finds (statement bound) Stmt.bare ks s fun k => dangling = true → k ≠ .word .elseWord
  declaration : role = .declaration → ∀ bound, 16 * ks.length + 7 ≤ bound →
    Finds (declaration bound) Stmt.bare ks s (· ≠ .word .elseWord)

/-- Derived declarations are found up to a closing brace or the end of file. -/
structure FindsRow (ks : List Kind) (ss : List Stmt) : Prop where
  declarations : ∀ bound, 16 * ks.length + 8 ≤ bound →
    Finds (declarations bound) Stmt.bareAll ks ss (· = .mark .rightBrace)
  topLevel : ∀ bound, 16 * ks.length + 8 ≤ bound →
    Finds (topLevel bound) Stmt.bareAll ks ss (· = .endOfFile)

theorem findsStatement_closed {ks : List Kind} {s : Stmt}
    (h : ∀ bound, 16 * ks.length + 6 ≤ bound + 1 →
      Finds (Reader.statement (bound + 1)) Stmt.bare ks s fun _ => True) :
    FindsStatement (.statement false) ks s where
  statement dangling hrole bound hb := by
    obtain ⟨bound, rfl⟩ := Nat.exists_eq_add_one_of_ne_zero (n := bound) (by omega)
    intro c tail hc _
    exact h bound hb hc trivial
  declaration hrole := nomatch hrole

theorem findsStatement_declaration {ks : List Kind} {s : Stmt}
    (h : ∀ bound, 16 * ks.length + 7 ≤ bound + 1 →
      Finds (Reader.declaration (bound + 1)) Stmt.bare ks s (· ≠ .word .elseWord)) :
    FindsStatement .declaration ks s where
  statement _ hrole := nomatch hrole
  declaration _ bound hb := by
    obtain ⟨bound, rfl⟩ := Nat.exists_eq_add_one_of_ne_zero (n := bound) (by omega)
    exact h bound hb

theorem findsStatement_evaluate {ks : List Kind} {e : Expr} (h : Spells 5 ks e) :
    FindsStatement (.statement false) (ks ++ [.mark .semicolon]) (.evaluate .nowhere e) := by
  refine findsStatement_closed fun bound hb c tail hc hstop => ?_
  rw [List.length_append, List.length_cons] at hb
  have hopens : opensExpression c.kind := by
    obtain ⟨k, ls, rfl, hk⟩ := h.head
    rw [hc.kind]
    exact hk
  rw [run_statement_of_expression hopens]
  exact finds_expressionStatement h (by omega) hc hstop

theorem findsStatement_display {ks : List Kind} {es : List Expr} (h : Listed (Spells 5) ks es) :
    FindsStatement (.statement false) (.word .showWord :: (parens ks ++ [.mark .semicolon]))
      (.display .nowhere es) := by
  refine findsStatement_closed fun bound hb c tail hc hstop => ?_
  simp only [parens, List.length_append, List.length_cons] at hb
  rw [statement, run_bind_of_ok (run_kind c), hc.kind]
  exact finds_showStatement h (by omega) hc hstop

theorem findsStatement_returnValues {ks : List Kind} {es : List Expr}
    (h : Listed (Spells 5) ks es) :
    FindsStatement (.statement false) (.word .returnWord :: (ks ++ [.mark .semicolon]))
      (.returnValues .nowhere es) := by
  refine findsStatement_closed fun bound hb c tail hc hstop => ?_
  simp only [List.length_append, List.length_cons] at hb
  rw [statement, run_bind_of_ok (run_kind c), hc.kind]
  exact finds_returnStatement h (by omega) hc hstop

theorem finds_block {ks : List Kind} {body : List Stmt} (h : FindsRow ks body)
    (bound : Nat) (hb : 16 * ks.length + 9 ≤ bound) :
    Finds (block bound) (fun b => Stmt.bareAll b.body) (braces ks) body fun _ => True := by
  intro c tail hc _
  obtain ⟨bound, rfl⟩ := Nat.exists_eq_add_one_of_ne_zero (n := bound) (by omega)
  have hinner : c.advance.At (ks ++ .mark .rightBrace :: tail) := by
    simpa using hc.advance
  rw [block, run_bind_of_ok (run_here c), run_bind_of_ok (run_mark_of_eq hc.kind)]
  obtain ⟨ss, d, e, hrun, hclose, rfl, he⟩ :=
    finds_before (h.declarations bound (by omega)) rfl hinner
  rw [run_bind_of_ok hrun, run_bind_of_ok hclose]
  exact ⟨_, e, rfl, rfl, he⟩

theorem findsStatement_block {ks : List Kind} {body : List Stmt} (h : FindsRow ks body) :
    FindsStatement (.statement false) (braces ks) (.block ⟨.nowhere, body⟩) := by
  refine findsStatement_closed fun bound hb c tail hc hstop => ?_
  simp only [braces, List.length_append, List.length_cons] at hb
  obtain ⟨b, d, hrun, rfl, hd⟩ := finds_block h bound (by omega) hc hstop
  rw [statement, run_bind_of_ok (run_kind c), hc.kind]
  dsimp only
  rw [run_bind_of_ok hrun]
  exact ⟨_, d, rfl, rfl, hd⟩

/-- The condition and the body that `if` and `while` start with. -/
theorem finds_guarded {ks ls : List Kind} {e : Expr} {dangling : Bool} {s : Stmt}
    {w : Word} (he : Spells 5 ks e) (h : FindsStatement (.statement dangling) ls s)
    (bound : Nat) (hb : 16 * (ks.length + ls.length) + 6 ≤ bound)
    (hc : c.At (.word w :: (parens ks ++ ls) ++ tail))
    (hstop : dangling = true → tail.headD .endOfFile ≠ .word .elseWord) :
    ∃ f d t e', (condition bound).run c.advance = .ok (f, d) ∧ f.bare = e ∧
      (statement bound).run d = .ok (t, e') ∧ t.bare = s ∧ e'.At tail := by
  have hopen : c.advance.At (parens ks ++ (ls ++ tail)) := by
    simpa using hc.advance
  obtain ⟨f, d, hrun, hf, hd⟩ := finds_condition he bound (by omega) hopen trivial
  obtain ⟨t, e', hrun', ht, he'⟩ := h.statement dangling rfl bound (by omega) hd hstop
  exact ⟨f, d, t, e', hrun, hf, hrun', ht, he'⟩

theorem findsStatement_branch {ks ls : List Kind} {e : Expr} {dangling : Bool} {s : Stmt}
    (he : Spells 5 ks e) (h : FindsStatement (.statement dangling) ls s) :
    FindsStatement (.statement true) (.word .ifWord :: (parens ks ++ ls))
      (.branch .nowhere e s none) where
  statement dangling' hrole bound hb := by
    obtain rfl : true = dangling' := Role.statement.inj hrole
    simp only [parens, List.length_append, List.length_cons] at hb
    obtain ⟨bound, rfl⟩ := Nat.exists_eq_add_one_of_ne_zero (n := bound) (by omega)
    intro c tail hc hstop
    obtain ⟨f, d, t, e', hrun, rfl, hrun', rfl, he'⟩ :=
      finds_guarded he h bound (by omega) hc fun _ => hstop rfl
    have helse : e'.kind ≠ .word .elseWord := by
      rw [he'.kind_eq]
      exact hstop rfl
    rw [statement, run_bind_of_ok (run_kind c), hc.kind]
    dsimp only
    rw [run_bind_of_ok (run_here c), run_bind_of_ok (run_advance c), run_bind_of_ok hrun,
      run_bind_of_ok hrun', run_bind_of_ok (run_eatsWord_of_ne helse)]
    exact ⟨_, _, rfl, rfl, he'⟩
  declaration hrole := nomatch hrole

theorem findsStatement_branchElse {ks ls ms : List Kind} {e : Expr} {dangling : Bool}
    {yes no : Stmt} (he : Spells 5 ks e) (hyes : FindsStatement (.statement false) ls yes)
    (hno : FindsStatement (.statement dangling) ms no) :
    FindsStatement (.statement dangling)
      (.word .ifWord :: (parens ks ++ (ls ++ .word .elseWord :: ms)))
      (.branch .nowhere e yes (some no)) where
  statement dangling' hrole bound hb := by
    obtain rfl : dangling = dangling' := Role.statement.inj hrole
    simp only [parens, List.length_append, List.length_cons] at hb
    obtain ⟨bound, rfl⟩ := Nat.exists_eq_add_one_of_ne_zero (n := bound) (by omega)
    intro c tail hc hstop
    have hstart : c.At
        (.word .ifWord :: (parens ks ++ ls) ++ (.word .elseWord :: (ms ++ tail))) := by
      simpa using hc
    obtain ⟨f, d, t, e', hrun, rfl, hrun', rfl, he'⟩ :=
      finds_guarded he hyes bound (by omega) hstart fun h => absurd h Bool.false_ne_true
    obtain ⟨t', d', hrun'', rfl, hd'⟩ :=
      hno.statement dangling rfl bound (by omega) he'.advance hstop
    rw [statement, run_bind_of_ok (run_kind c), hc.kind]
    dsimp only
    rw [run_bind_of_ok (run_here c), run_bind_of_ok (run_advance c), run_bind_of_ok hrun,
      run_bind_of_ok hrun', run_bind_of_ok (run_eatsWord_of_eq he'.kind), if_pos rfl,
      run_bind_of_ok hrun'']
    exact ⟨_, _, rfl, rfl, hd'⟩
  declaration hrole := nomatch hrole

theorem findsStatement_loopWhile {ks ls : List Kind} {e : Expr} {dangling : Bool} {s : Stmt}
    (he : Spells 5 ks e) (h : FindsStatement (.statement dangling) ls s) :
    FindsStatement (.statement dangling) (.word .whileWord :: (parens ks ++ ls))
      (.loopWhile .nowhere e s) where
  statement dangling' hrole bound hb := by
    obtain rfl : dangling = dangling' := Role.statement.inj hrole
    simp only [parens, List.length_append, List.length_cons] at hb
    obtain ⟨bound, rfl⟩ := Nat.exists_eq_add_one_of_ne_zero (n := bound) (by omega)
    intro c tail hc hstop
    obtain ⟨f, d, t, e', hrun, rfl, hrun', rfl, he'⟩ :=
      finds_guarded he h bound (by omega) hc hstop
    rw [statement, run_bind_of_ok (run_kind c), hc.kind]
    dsimp only
    rw [run_bind_of_ok (run_here c), run_bind_of_ok (run_advance c), run_bind_of_ok hrun,
      run_bind_of_ok hrun']
    exact ⟨_, _, rfl, rfl, he'⟩
  declaration hrole := nomatch hrole

theorem findsStatement_loopRange (n : String) {ks ls ms : List Kind} {first limit : Expr}
    {dangling : Bool} {s : Stmt} (hfirst : Spells 5 ks first) (hlimit : Spells 5 ls limit)
    (h : FindsStatement (.statement dangling) ms s) :
    FindsStatement (.statement dangling)
      (.word .forWord ::
        (parens (.name n :: .word .inWord :: .word .range :: parens (ks ++ .mark .comma :: ls))
          ++ ms))
      (.loopRange .nowhere ⟨n, .nowhere⟩ first limit s) where
  statement dangling' hrole bound hb := by
    obtain rfl : dangling = dangling' := Role.statement.inj hrole
    simp only [parens, List.length_append, List.length_cons] at hb
    obtain ⟨bound, rfl⟩ := Nat.exists_eq_add_one_of_ne_zero (n := bound) (by omega)
    intro c tail hc hstop
    have hopen : c.advance.At (.mark .leftParen :: .name n :: .word .inWord :: .word .range ::
        .mark .leftParen :: (ks ++ .mark .comma :: (ls ++ .mark .rightParen ::
          .mark .rightParen :: (ms ++ tail)))) := by
      simpa [parens] using hc.advance
    have hname := hopen.advance
    have hin := hname.advance
    have hrange := hin.advance
    have hinner := hrange.advance
    rw [statement, run_bind_of_ok (run_kind c), hc.kind]
    dsimp only
    rw [run_bind_of_ok (run_here c), run_bind_of_ok (run_advance c),
      run_bind_of_ok (run_mark_of_eq hopen.kind), run_bind_of_ok (run_name_of_eq hname.kind),
      run_bind_of_ok (run_word_of_eq hin.kind), run_bind_of_ok (run_word_of_eq hrange.kind),
      run_bind_of_ok (run_mark_of_eq hinner.kind)]
    obtain ⟨f, d₁, e₁, hrun₁, hcomma, rfl, he₁⟩ := finds_before
      ((findsExpression hfirst).expression rfl bound (by omega)) rfl hinner.advance
    obtain ⟨g, d₂, e₂, hrun₂, hclose, rfl, he₂⟩ := finds_before
      ((findsExpression hlimit).expression rfl bound (by omega)) rfl he₁
    obtain ⟨t, d₃, hrun₃, rfl, hd₃⟩ :=
      h.statement dangling rfl bound (by omega) he₂.advance hstop
    rw [run_bind_of_ok hrun₁, run_bind_of_ok hcomma, run_bind_of_ok hrun₂, run_bind_of_ok hclose,
      run_bind_of_ok (run_mark_of_eq he₂.kind), run_bind_of_ok hrun₃]
    exact ⟨_, _, rfl, rfl, hd₃⟩
  declaration hrole := nomatch hrole

/-- A statement is found as a declaration where no `else` follows. -/
theorem findsStatement_statement {ks : List Kind} {s : Stmt} {dangling : Bool}
    (hhead : ∃ k ls, ks = k :: ls ∧ opensStatement k)
    (h : FindsStatement (.statement dangling) ks s) : FindsStatement .declaration ks s := by
  refine findsStatement_declaration fun bound hb c tail hc hstop => ?_
  have hopens : opensStatement c.kind := by
    obtain ⟨k, ls, rfl, hk⟩ := hhead
    rw [hc.kind]
    exact hk
  rw [run_declaration_of_statement hopens]
  exact h.statement dangling rfl bound (by omega) hc fun _ => hstop

theorem run_declaration_of_type {w : Word} (hk : c.kind = .word w) (hw : w.isType) :
    (declaration (bound + 1)).run c =
      (if startsFunction c then (do
          let start ← here
          let returns ← type
          function bound start (some returns))
        else variableDeclaration bound : Reader Stmt).run c := by
  rw [declaration, run_bind_of_ok (run_kind c), hk]
  split
  · rename_i h
    cases h
    cases hw
  · rename_i h
    cases h
    cases hw
  · rename_i h
    cases h
    cases hw
  · rw [if_pos (show (Kind.word w).isType from hw)]
    rfl

theorem findsStatement_declare (n : String) {ks ls : List Kind} {t : TypeRef}
    {value? : Option Expr} (ht : Types ks t) (hv : Initial ls value?) :
    FindsStatement .declaration (ks ++ .name n :: (ls ++ [.mark .semicolon]))
      (.declare .nowhere t ⟨n, .nowhere⟩ value?) := by
  refine findsStatement_declaration fun bound hb c tail hc hstop => ?_
  simp only [List.length_append, List.length_cons] at hb
  have hderives := Derives.declare n ht hv
  obtain ⟨w, ms, rfl, hw⟩ := ht.head
  have hfunction : ¬ startsFunction c := by
    rw [startsFunction_iff, hc.kinds]
    exact fun h => Bool.false_ne_true ((hderives.isAction_iff hw tail).2 h)
  rw [run_declaration_of_type hc.kind hw, if_neg hfunction]
  exact finds_variableDeclaration n ht hv (by omega) hc trivial

/-- A function from its name on. -/
theorem finds_function (n : String) (returns? : Option TypeRef) {ls ms : List Kind}
    {params : List Param} {body : List Stmt} {start : Span} (hps : Listed Parameter ls params)
    (hbody : FindsRow ms body) (hb : 16 * (ls.length + ms.length) + 10 ≤ bound) :
    Finds (function bound start returns?) Stmt.bare (.name n :: (parens ls ++ braces ms))
      (.action .nowhere ⟨n, .nowhere⟩ params (returns?.map TypeRef.bare) ⟨.nowhere, body⟩)
      fun _ => True := by
  intro c tail hc _
  obtain ⟨bound, rfl⟩ := Nat.exists_eq_add_one_of_ne_zero (n := bound) (by omega)
  have hopen : c.advance.At (parens ls ++ (braces ms ++ tail)) := by
    simpa using hc.advance
  obtain ⟨ps, d, hrun, rfl, hd⟩ := finds_params hps bound (by omega) hopen trivial
  obtain ⟨b, e, hrun', rfl, he⟩ := finds_block hbody bound (by omega) hd trivial
  rw [function, run_bind_of_ok (run_name_of_eq hc.kind), run_bind_of_ok hrun, run_bind_of_ok hrun']
  exact ⟨_, e, rfl, rfl, he⟩

theorem findsStatement_function (n : String) {ks ls ms : List Kind} {returns? : Option TypeRef}
    {params : List Param} {body : List Stmt} (hr : Returns ks returns?)
    (hps : Listed Parameter ls params) (hbody : Row (Derives .declaration) ms body)
    (ih : FindsRow ms body) :
    FindsStatement .declaration (ks ++ .name n :: (parens ls ++ braces ms))
      (.action .nowhere ⟨n, .nowhere⟩ params returns? ⟨.nowhere, body⟩) := by
  refine findsStatement_declaration fun bound hb c tail hc hstop => ?_
  simp only [parens, braces, List.length_append, List.length_cons] at hb
  have hderives := Derives.function n hr hps hbody
  cases hr with
  | action =>
    rw [declaration, run_bind_of_ok (run_kind c), hc.kind]
    dsimp only
    rw [run_bind_of_ok (run_here c), run_bind_of_ok (run_advance c)]
    exact finds_function n none hps ih (by omega) hc.advance trivial
  | typed ht =>
    have hstart : c.At (ks ++ (.name n :: (parens ls ++ braces ms) ++ tail)) := by
      rwa [List.append_assoc] at hc
    obtain ⟨t, d, hrun, rfl, hd⟩ := finds_type ht hstart (by rintro ⟨⟩)
    obtain ⟨w, more, rfl, hw⟩ := ht.head
    have hfunction : startsFunction c := by
      rw [startsFunction_iff, hc.kinds]
      exact (hderives.isAction_iff hw tail).1 rfl
    rw [run_declaration_of_type hc.kind hw, if_pos hfunction, run_bind_of_ok (run_here c),
      run_bind_of_ok hrun]
    exact finds_function n (some t) hps ih (by omega) hd trivial

theorem findsStatement_rename (n m : String) :
    FindsStatement .declaration
      [.word .use, .name n, .word .asWord, .name m, .mark .semicolon]
      (.rename .nowhere ⟨n, .nowhere⟩ ⟨m, .nowhere⟩) := by
  refine findsStatement_declaration fun bound hb c tail hc hstop => ?_
  rw [declaration, run_bind_of_ok (run_kind c), hc.kind]
  exact finds_renameStatement n m hc trivial

theorem findsStatement_importAll (source : String) :
    FindsStatement .declaration [.word .importWord, .string source, .mark .semicolon]
      (.importFrom .nowhere none source) := by
  refine findsStatement_declaration fun bound hb c tail hc hstop => ?_
  rw [declaration, run_bind_of_ok (run_kind c), hc.kind]
  exact finds_importAll source hc trivial

theorem findsStatement_importSome (source : String) {ks : List Kind} {items : List ImportItem}
    (h : Listed Item ks items) :
    FindsStatement .declaration
      (.word .importWord :: (braces ks ++ [.word .fromWord, .string source, .mark .semicolon]))
      (.importFrom .nowhere (some items) source) := by
  refine findsStatement_declaration fun bound hb c tail hc hstop => ?_
  simp only [braces, List.length_append, List.length_cons] at hb
  rw [declaration, run_bind_of_ok (run_kind c), hc.kind]
  exact finds_importSome source h (by omega) hc trivial

/-- Nothing that starts a declaration ends one or goes on with an `if`. -/
theorem ne_of_opensDeclaration {k : Kind} (h : opensDeclaration k) :
    k ≠ .word .elseWord ∧ k ≠ .mark .rightBrace ∧ k ≠ .endOfFile := by
  refine ⟨?_, ?_, ?_⟩ <;> rintro rfl <;> cases h

theorem findsRow_nil : FindsRow [] [] where
  declarations bound hb := by
    obtain ⟨bound, rfl⟩ := Nat.exists_eq_add_one_of_ne_zero (n := bound) (by omega)
    intro c tail hc hstop
    have hkind : c.kind = .mark .rightBrace := hc.kind_eq.trans hstop
    rw [declarations, run_bind_of_ok (run_kind c), run_bind_of_ok (run_kind c), hkind]
    exact ⟨[], c, rfl, rfl, hc⟩
  topLevel bound hb := by
    obtain ⟨bound, rfl⟩ := Nat.exists_eq_add_one_of_ne_zero (n := bound) (by omega)
    intro c tail hc hstop
    have hkind : c.kind = .endOfFile := hc.kind_eq.trans hstop
    rw [topLevel, run_bind_of_ok (run_kind c), hkind]
    exact ⟨[], c, rfl, rfl, hc⟩

/-- What follows a declaration in a row: another one, or the end of the row. -/
theorem Row.next_ne_else {ks : List Kind} {ss : List Stmt} (h : Row (Derives .declaration) ks ss)
    (htail : tail.headD .endOfFile ≠ .word .elseWord) :
    (ks ++ tail).headD .endOfFile ≠ .word .elseWord := by
  cases h with
  | nil => exact htail
  | cons hs _ =>
    obtain ⟨k, ls, rfl, hk⟩ := hs.declaration_head
    exact (ne_of_opensDeclaration hk).1

/-- The first declaration of a row, which no closing brace and no end of file stands for. -/
theorem finds_first {ks ls : List Kind} {s : Stmt} {ss : List Stmt}
    (hs : Derives .declaration ks s) (hss : Row (Derives .declaration) ls ss)
    (ih : FindsStatement .declaration ks s) (bound : Nat) (hb : 16 * ks.length + 7 ≤ bound)
    (hc : c.At (ks ++ ls ++ tail)) (htail : tail.headD .endOfFile ≠ .word .elseWord) :
    (c.kind == .mark .rightBrace) = false ∧ (c.kind == .endOfFile) = false ∧
      ∃ t d, (declaration bound).run c = .ok (t, d) ∧ t.bare = s ∧ d.At (ls ++ tail) := by
  obtain ⟨k, more, hks, hk⟩ := hs.declaration_head
  have hkind : c.kind = k := by
    rw [hc.kind_eq, hks]
    rfl
  obtain ⟨-, hbrace, hend⟩ := ne_of_opensDeclaration hk
  rw [List.append_assoc] at hc
  exact ⟨hkind ▸ beq_eq_false_iff_ne.2 hbrace, hkind ▸ beq_eq_false_iff_ne.2 hend,
    ih.declaration rfl bound hb hc (Row.next_ne_else hss htail)⟩

theorem findsRow_cons {ks ls : List Kind} {s : Stmt} {ss : List Stmt}
    (hs : Derives .declaration ks s) (hss : Row (Derives .declaration) ls ss)
    (ih : FindsStatement .declaration ks s) (ihs : FindsRow ls ss) :
    FindsRow (ks ++ ls) (s :: ss) := by
  have hlength : 0 < ks.length := by
    obtain ⟨k, more, rfl, -⟩ := hs.declaration_head
    exact Nat.succ_pos _
  constructor <;> intro bound hb <;> rw [List.length_append] at hb <;>
    obtain ⟨bound, rfl⟩ := Nat.exists_eq_add_one_of_ne_zero (n := bound) (by omega) <;>
    intro c tail hc hstop
  case declarations =>
    obtain ⟨hbrace, hend, t, d, hrun, rfl, hd⟩ :=
      finds_first hs hss ih bound (by omega) hc (by rw [hstop]; rintro ⟨⟩)
    obtain ⟨ts, e, hrun', rfl, he⟩ := ihs.declarations bound (by omega) hd hstop
    rw [declarations, run_bind_of_ok (run_kind c), run_bind_of_ok (run_kind c), hbrace, hend,
      Bool.or_self, if_neg Bool.false_ne_true, run_bind_of_ok hrun, run_bind_of_ok hrun']
    exact ⟨_, e, rfl, rfl, he⟩
  case topLevel =>
    obtain ⟨-, hend, t, d, hrun, rfl, hd⟩ :=
      finds_first hs hss ih bound (by omega) hc (by rw [hstop]; rintro ⟨⟩)
    obtain ⟨ts, e, hrun', rfl, he⟩ := ihs.topLevel bound (by omega) hd hstop
    rw [topLevel, run_bind_of_ok (run_kind c), hend, if_neg Bool.false_ne_true,
      run_bind_of_ok hrun, run_bind_of_ok hrun']
    exact ⟨_, e, rfl, rfl, he⟩

mutual

theorem findsStatement : ∀ {role : Role} {ks : List Kind} {s : Stmt},
    Derives role ks s → FindsStatement role ks s
  | _, _, _, .evaluate h => findsStatement_evaluate h
  | _, _, _, .display h => findsStatement_display h
  | _, _, _, .returnValues h => findsStatement_returnValues h
  | _, _, _, .block h => findsStatement_block (findsRow h)
  | _, _, _, .branch he h => findsStatement_branch he (findsStatement h)
  | _, _, _, .branchElse he h h' =>
    findsStatement_branchElse he (findsStatement h) (findsStatement h')
  | _, _, _, .loopWhile he h => findsStatement_loopWhile he (findsStatement h)
  | _, _, _, .loopRange n he he' h => findsStatement_loopRange n he he' (findsStatement h)
  | _, _, _, .statement h => findsStatement_statement h.statement_head (findsStatement h)
  | _, _, _, .declare n ht hv => findsStatement_declare n ht hv
  | _, _, _, .function n hr hps h => findsStatement_function n hr hps h (findsRow h)
  | _, _, _, .rename n m => findsStatement_rename n m
  | _, _, _, .importAll source => findsStatement_importAll source
  | _, _, _, .importSome source h => findsStatement_importSome source h

theorem findsRow : ∀ {ks : List Kind} {ss : List Stmt},
    Row (Derives .declaration) ks ss → FindsRow ks ss
  | _, _, .nil => findsRow_nil
  | _, _, .cons h hs => findsRow_cons h hs (findsStatement h) (findsRow hs)

end

/-- A script is read up to the end of file. -/
theorem finds_program {ks : List Kind} {p : Program} (h : Script ks p)
    (hb : 16 * ks.length + 8 ≤ bound) :
    Finds (program bound) Program.bare ks p (· = .endOfFile) := by
  intro c tail hc hstop
  obtain ⟨span, body⟩ := p
  obtain ⟨rfl, hbody⟩ := h
  obtain ⟨ss, d, hrun, rfl, hd⟩ := (findsRow hbody).topLevel bound hb hc hstop
  rw [program, run_bind_of_ok (run_here c), run_bind_of_ok hrun]
  cases ss with
  | nil => exact ⟨_, d, rfl, rfl, hd⟩
  | cons s ss => exact ⟨_, d, rfl, rfl, hd⟩

end Reader

end Playscript

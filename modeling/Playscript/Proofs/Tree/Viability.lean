/-
# What is passed before a refusal

Where a reader refuses a token, the kinds it has passed begin its phrase: some
kinds behind them would complete it, by the productions that let any operation
stand left of `=`. Where it refuses a target instead, an assignment has been
read whose left side is no name. It does one of these or answers, if the bound
on its calls is large enough for the tokens in front of the next end of file.

The readers of expressions are taken together, and so are those of statements.
The induction is on the bound.

Key definitions: `Misassigned`, `Viable`, `Reader.ViableExpressions`,
`Reader.ViableStatements`.
Key theorems: `Reader.viableExpressions`, `Reader.viableStatements`,
`Reader.viable_program`.
-/
import Playscript.Proofs.Tree.Exactness
import Playscript.Proofs.Tree.Productions

namespace Playscript

open Token (Kind)
open Grammar

/-! ### How much is left -/

namespace Cursor

/-- The number of tokens in front of the next end of file. -/
def size (c : Cursor) : Nat := (scriptKinds c.kinds).length

variable {c d e : Cursor} {k : Kind} {ks ls : List Kind}

theorem Passes.size_eq (h : c.Passes ks d) : c.size = ks.length + d.size := by
  have hks : ∀ k ∈ ks, (k != .endOfFile) = true := fun k hk =>
    bne_iff_ne.2 fun heq => h.inside (heq ▸ hk)
  rw [size, size, h.kinds, scriptKinds, scriptKinds, List.takeWhile_append_of_pos hks,
    List.length_append]

theorem Passes.size_le (h : c.Passes ks d) : d.size ≤ c.size := by
  rw [h.size_eq]
  exact Nat.le_add_left _ _

theorem Passes.size_lt (h : c.Passes ks d) (hks : ks ≠ []) : d.size < c.size := by
  have hpos := List.length_pos_iff.2 hks
  rw [h.size_eq]
  omega

theorem Passes.size_lt_of_one (h : c.Passes [k] d) : d.size < c.size :=
  h.size_lt (List.cons_ne_nil k [])

/-- The kinds between two places of a cursor, the second being further on. -/
structure Crosses (c : Cursor) (ks : List Kind) (d : Cursor) : Prop extends Passes c ks d where
  suffix : d.rest <:+ c.rest

theorem Crosses.refl (hc : c.Ends) : c.Crosses [] c := ⟨.refl hc, List.suffix_refl c.rest⟩

theorem Crosses.trans (h : c.Crosses ks d) (h' : d.Crosses ls e) : c.Crosses (ks ++ ls) e :=
  ⟨h.toPasses.trans h'.toPasses, h'.suffix.trans h.suffix⟩

theorem crosses_advance (hc : c.Ends) (hk : c.kind = k) (hne : k ≠ .endOfFile) :
    c.Crosses [k] c.advance := by
  refine ⟨passes_advance hc hk hne, ?_⟩
  rw [advance]
  split
  · exact List.suffix_refl c.rest
  · rename_i t rest h
    rw [h]
    exact List.suffix_cons t rest

end Cursor

/-! ### Outcomes of readers -/

/-- At the cursor an operation other than a name is read, and an assignment to it. The span is that
of the operation. -/
inductive Misassigned (c : Cursor) : Span → Prop where
  | mk {bound : Nat} {target value : Expr} {d e : Cursor} {ks ls : List Kind} :
    (Reader.layer bound Operator.loosest).run c = .ok (target, d) → c.Passes ks d →
      Spells 4 ks target.bare → d.kind = .mark .assign →
      (Reader.expression bound).run d.advance = .ok (value, e) → d.advance.Passes ls e →
      Spells 5 ls value.bare → (∀ place n, target ≠ .name place n) → Misassigned c target.span

/-- What may come of reading a phrase of certain kinds at a cursor. -/
inductive Viable {α : Type} (L : List Kind → Prop) (c : Cursor) :
    Except Refusal (α × Cursor) → Prop where
  | ok {a : α} {d : Cursor} {ks : List Kind} : c.Crosses ks d → L ks → Viable L c (.ok (a, d))
  | unexpected {e : Expected} {d : Cursor} {ks ls : List Kind} :
    c.Crosses ks d → L (ks ++ ls) → Viable L c (.error (.unexpected e d))
  | target {span : Span} {d : Cursor} {ks : List Kind} :
    c.Crosses ks d → Misassigned d span → Viable L c (.error (.target span))

/-- What pieces become, any operation being a target. -/
abbrev Grammar.Lenient : List Piece → List Kind → Prop := Yields Leniently

theorem Grammar.Yields.lenient {ps : List Piece} {ks : List Kind} (h : Yields Produces ps ks) :
    Lenient ps ks := h.mono fun _ _ => .strictly

namespace Viable

variable {α β : Type} {L M : List Kind → Prop} {c d e : Cursor} {ks : List Kind}
  {ps qs : List Piece} {φ : Phrase} {x : Except Refusal (α × Cursor)} {r : Reader α}
  {f : α → Reader β}

theorem mono (h : Viable M c x) (hL : ∀ {ls}, M ls → L ls) : Viable L c x := by
  cases h with
  | ok hks hM => exact .ok hks (hL hM)
  | unexpected hks hM => exact .unexpected hks (hL hM)
  | target hks hd => exact .target hks hd

/-- What comes of reading behind kinds that have been passed. -/
theorem after (hks : c.Crosses ks d) (h : Viable M d x) (hL : ∀ {ls}, M ls → L (ks ++ ls)) :
    Viable L c x := by
  cases h with
  | ok hls hM => exact .ok (hks.trans hls) (hL hM)
  | unexpected hls hM =>
    have hL := hL hM
    rw [← List.append_assoc] at hL
    exact .unexpected (hks.trans hls) hL
  | target hls hd => exact .target (hks.trans hls) hd

/-- Two readers in turn, both seen from one cursor. -/
theorem bind (h : Viable M c (r.run e)) (hsome : ∀ {ks}, M ks → ∃ ls, L (ks ++ ls))
    (hrest : ∀ {a d ks}, r.run e = .ok (a, d) → c.Crosses ks d → M ks →
      Viable L c ((f a).run d)) : Viable L c ((r >>= f).run e) := by
  rw [StateT.run_bind]
  generalize hx : r.run e = x at h
  cases h with
  | ok hks hM => exact hrest hx hks hM
  | unexpected hks hM =>
    obtain ⟨ls, hL⟩ := hsome hM
    rw [List.append_assoc] at hL
    exact .unexpected hks hL
  | target hks hd => exact .target hks hd

/-- The same where the kinds of the first would do for both. -/
theorem extend (h : Viable M c (r.run e)) (hL : ∀ {ks}, M ks → L ks)
    (hrest : ∀ {a d ks}, r.run e = .ok (a, d) → c.Crosses ks d → M ks →
      Viable L c ((f a).run d)) : Viable L c ((r >>= f).run e) :=
  h.bind (fun {ks} hks => ⟨[], (List.append_nil ks).symm ▸ hL hks⟩) hrest

/-- A reader whose answer is only put to use. -/
theorem answer (h : Viable L c (r.run e)) (hf : ∀ a d, ∃ b, (f a).run d = .ok (b, d)) :
    Viable L c ((r >>= f).run e) := by
  refine h.extend id fun {a d ks} _ hks hL => ?_
  obtain ⟨b, hb⟩ := hf a d
  rw [hb]
  exact .ok hks hL

/-- Two readers in turn, for the pieces of the first and then those of the second. -/
theorem append (h : Viable (Lenient qs) c (r.run c))
    (hrest : ∀ {a d ks}, r.run c = .ok (a, d) → c.Crosses ks d →
      Viable (Lenient ps) d ((f a).run d)) :
    Viable (Lenient (qs ++ ps)) c ((r >>= f).run c) := by
  refine h.bind (fun hks => ?_) fun hrun hks hM => (hrest hrun hks).after hks (hM.append ·)
  exact (exists_yields ps).imp fun _ => hks.append

theorem behind (h : Viable (Lenient [.phrase φ]) c (r.run c))
    (hrest : ∀ {a d ks}, r.run c = .ok (a, d) → c.Crosses ks d →
      Viable (Lenient ps) d ((f a).run d)) :
    Viable (Lenient (.phrase φ :: ps)) c ((r >>= f).run c) := h.append hrest

theorem of_rule (hφ : Leniently φ ps) (h : Viable (Lenient ps) c x) :
    Viable (Lenient [.phrase φ]) c x := h.mono (.of_rule hφ)

theorem done {a : α} (hc : c.Ends) : Viable (Lenient []) c (.ok (a, c)) := .ok (.refl hc) .nil

/-- Where some kinds would do, a token may be refused. -/
theorem refused (hc : c.Ends) (ps : List Piece) {e : Expected} :
    Viable (Lenient ps) c (.error (.unexpected e c) : Except Refusal (α × Cursor)) :=
  (exists_yields ps).elim fun _ hls => .unexpected (.refl hc) hls

/-- A kind that has been passed. -/
theorem kind {k : Kind} (hk : c.Crosses [k] d) (h : Viable (Lenient ps) d x) :
    Viable (Lenient (.kind k :: ps)) c x := h.after hk .kind

end Viable

namespace Reader

variable {α : Type} {bound : Nat} {o c d : Cursor} {ps qs : List Piece}

/-! ### Marks, words, names and strings -/

section Small

variable {f : Unit → Reader α} {g : Bool → Reader α}

theorem viable_mark {m : Mark} (hc : c.Ends)
    (h : ∀ {d}, c.Crosses [.mark m] d → Viable (Lenient ps) d ((f ()).run d)) :
    Viable (Lenient (.mark m :: ps)) c ((mark m >>= f).run c) := by
  by_cases hk : c.kind = .mark m
  · rw [run_bind_of_ok (run_mark_of_eq hk)]
    have hmark := Cursor.crosses_advance hc hk (by simp)
    exact (h hmark).kind hmark
  · rw [mark, bind_assoc, run_bind_of_ok (run_eats_of_ne hk)]
    exact .refused hc _

theorem viable_word {w : Word} (hc : c.Ends)
    (h : ∀ {d}, c.Crosses [.word w] d → Viable (Lenient ps) d ((f ()).run d)) :
    Viable (Lenient (.word w :: ps)) c ((word w >>= f).run c) := by
  by_cases hk : c.kind = .word w
  · rw [run_bind_of_ok (run_word_of_eq hk)]
    have hword := Cursor.crosses_advance hc hk (by simp)
    exact (h hword).kind hword
  · rw [word, bind_assoc, run_bind_of_ok (run_eatsWord_of_ne hk)]
    exact .refused hc _

/-- A mark that may be there. -/
theorem viable_eats {L : List Kind → Prop} {m : Mark} (hc : c.Ends)
    (hyes : ∀ {d}, c.Crosses [.mark m] d → Viable L o ((g true).run d))
    (hno : Viable L o ((g false).run c)) : Viable L o ((eats m >>= g).run c) := by
  by_cases hk : c.kind = .mark m
  · rw [run_bind_of_ok (run_eats_of_eq hk)]
    exact hyes (Cursor.crosses_advance hc hk (by simp))
  · rw [run_bind_of_ok (run_eats_of_ne hk)]
    exact hno

theorem viable_eatsWord {L : List Kind → Prop} {w : Word} (hc : c.Ends)
    (hyes : ∀ {d}, c.Crosses [.word w] d → Viable L o ((g true).run d))
    (hno : Viable L o ((g false).run c)) : Viable L o ((eatsWord w >>= g).run c) := by
  by_cases hk : c.kind = .word w
  · rw [run_bind_of_ok (run_eatsWord_of_eq hk)]
    exact hyes (Cursor.crosses_advance hc hk (by simp))
  · rw [run_bind_of_ok (run_eatsWord_of_ne hk)]
    exact hno

theorem viable_name (hc : c.Ends) : Viable (Lenient [.phrase .name]) c (name.run c) := by
  rw [name, run_bind_of_ok (run_kind c)]
  split
  · rename_i n hk
    have hname := Cursor.crosses_advance hc hk (by simp)
    exact .ok hname (yields_name n).lenient
  · exact .refused hc _

theorem viable_string (hc : c.Ends) : Viable (Lenient [.phrase .string]) c (string.run c) := by
  rw [string, run_bind_of_ok (run_kind c)]
  split
  · rename_i s hk
    have hstring := Cursor.crosses_advance hc hk (by simp)
    exact .ok hstring (yields_string s).lenient
  · exact .refused hc _

theorem viable_type (hc : c.Ends) : Viable (Lenient [.phrase .type]) c (type.run c) := by
  rw [type, run_bind_of_ok (run_here c), run_bind_of_ok (run_kind c)]
  split
  · rename_i htype
    obtain ⟨w, hk, hw⟩ := Kind.exists_word htype
    have hword := Cursor.crosses_advance hc hk (by simp)
    rw [run_bind_of_ok (run_advance c)]
    refine viable_eats hword.ends (fun hopen => ?_) ?_
    · refine .of_rule (.strictly (.arrayType hw)) (.kind hword (.kind hopen ?_))
      exact viable_mark hopen.ends fun hclose => .done hclose.ends
    · exact .of_rule (.strictly (.plainType hw)) (.kind hword (.done hword.ends))
  · exact .refused hc _

/-- A word that is known to be there, and where it stands. -/
theorem viable_opened {M L : List Kind → Prop} {w : Word} {f : Span → Reader α} (hc : c.Ends)
    (hk : c.kind = .word w) (hL : ∀ {ls}, M ls → L (.word w :: ls))
    (h : ∀ {d}, c.Crosses [.word w] d → Viable M d ((f c.token.span).run d)) :
    Viable L c ((do let start ← here; advance; f start : Reader α).run c) := by
  have hword := Cursor.crosses_advance hc hk (by simp)
  rw [run_bind_of_ok (run_here c), run_bind_of_ok (run_advance c)]
  exact .after hword (h hword) hL

end Small

/-! ### Expressions -/

/-- What may stand behind an expression of a rank for an expression of that rank to stand there. -/
def GoesOn (rank : Nat) (ls : List Kind) : Prop :=
  ∀ {ks}, Lenient [.phrase (.rank rank)] ks → Lenient [.phrase (.rank rank)] (ks ++ ls)

/-- With so many calls, the readers of expressions are viable. -/
structure ViableExpressions (bound : Nat) : Prop where
  expression : ∀ {c}, c.Ends → 16 * c.size + 8 ≤ bound →
    Viable (Lenient [.phrase .expression]) c ((expression bound).run c)
  layer : ∀ {c} level, level ≤ 4 → c.Ends → 16 * c.size + level + 3 ≤ bound →
    Viable (Lenient [.phrase (.rank level)]) c ((layer bound level).run c)
  chain : ∀ {c} level left, level < 4 → c.Ends → 16 * c.size + 1 ≤ bound →
    Viable (GoesOn (level + 1)) c ((chain bound level left).run c)
  operand : ∀ {c}, c.Ends → 16 * c.size + 2 ≤ bound →
    Viable (Lenient [.phrase (.rank 0)]) c ((operand bound).run c)
  primary : ∀ {c}, c.Ends → 16 * c.size + 1 ≤ bound →
    Viable (Lenient [.phrase (.rank 0)]) c ((primary bound).run c)
  separated : ∀ {c} close, c.Ends → 16 * c.size + 10 ≤ bound →
    Viable (Lenient [.phrase (.listed .expression)]) c ((separated bound close).run c)
  several : ∀ {c}, c.Ends → 16 * c.size + 9 ≤ bound →
    Viable (Lenient [.phrase (.commas .expression)]) c ((several bound).run c)

theorem viable_commas {φ : Phrase} {one : Reader α} {others : Reader (List α)}
    (hone : Viable (Lenient [.phrase φ]) c (one.run c))
    (hothers : ∀ {d}, d.Ends → d.size < c.size →
      Viable (Lenient [.phrase (.commas φ)]) d (others.run d)) :
    Viable (Lenient [.phrase (.commas φ)]) c ((commas one others).run c) := by
  refine hone.extend (.of_rule (.strictly (.one φ))) fun _ hks hone =>
    viable_eats hks.ends (fun hcomma => ?_) ?_
  · have hlt := Nat.lt_of_lt_of_le hcomma.size_lt_of_one hks.size_le
    refine .after hks (.kind hcomma ((hothers hcomma.ends hlt).answer fun _ _ => ⟨_, rfl⟩))
      fun hls => ?_
    exact .of_rule (.strictly (.more φ)) (hone.behind hls)
  · exact .ok hks (hone.of_rule (.strictly (.one φ)))

theorem ViableExpressions.expression_succ (ih : ViableExpressions bound) (hc : c.Ends)
    (hb : 16 * c.size + 8 ≤ bound + 1) :
    Viable (Lenient [.phrase .expression]) c ((Reader.expression (bound + 1)).run c) := by
  have htarget := ih.layer 4 (Nat.le_refl 4) hc (by omega)
  refine htarget.extend (.of_rule (.strictly (.looser 4))) fun {target d ks} hrun hks hyields => ?_
  by_cases hk : d.kind = .mark .assign
  · rw [run_bind_of_ok (run_eats_of_eq hk)]
    have hmark := Cursor.crosses_advance hks.ends hk (by simp)
    have hlt := Nat.lt_of_lt_of_le hmark.size_lt_of_one hks.size_le
    have hvalue : Viable (Lenient [.phrase .expression]) c
        ((Reader.expression bound).run d.advance) :=
      .after hks (.kind hmark (ih.expression hmark.ends (by omega))) fun hls =>
        .of_rule (.strictly .assign) ((hyields.of_rule .target).behind hls)
    refine hvalue.extend id fun {value e ms} hrun' hms hvalue => ?_
    unfold assignment
    split
    · exact .ok hms hvalue
    · rename_i hname
      obtain ⟨_, hks, hspells⟩ := (readsExpressions bound).layer 4 (Nat.le_refl 4) hc hrun
      obtain ⟨_, hls, hspells'⟩ := (readsExpressions bound).expression hmark.ends hrun'
      exact .target (.refl hc) (.mk hrun hks hspells hk hrun' hls hspells' hname)
  · rw [run_bind_of_ok (run_eats_of_ne hk)]
    exact .ok hks (hyields.of_rule (.strictly (.looser 4)))

theorem ViableExpressions.layer_succ (ih : ViableExpressions bound) {level : Nat} (hl : level ≤ 4)
    (hc : c.Ends) (hb : 16 * c.size + level + 3 ≤ bound + 1) :
    Viable (Lenient [.phrase (.rank level)]) c ((Reader.layer (bound + 1) level).run c) := by
  cases level with
  | zero => exact ih.operand hc (by omega)
  | succ level =>
    have hleft := ih.layer level (Nat.le_of_succ_le hl) hc (by omega)
    have hlooser {ks : List Kind} (h : Lenient [.phrase (.rank level)] ks) :
        Lenient [.phrase (.rank (level + 1))] ks := h.of_rule (.strictly (.looser level))
    refine hleft.extend hlooser fun {left d ks} _ hks hyields => ?_
    have hle := hks.size_le
    have hchain := ih.chain level left hl hks.ends (by omega)
    exact hchain.after hks fun h => h (hlooser hyields)

theorem ViableExpressions.chain_succ (ih : ViableExpressions bound) {level : Nat} (hl : level < 4)
    (left : Expr) (hc : c.Ends) (hb : 16 * c.size + 1 ≤ bound + 1) :
    Viable (GoesOn (level + 1)) c ((Reader.chain (bound + 1) level left).run c) := by
  have hdone : Viable (GoesOn (level + 1)) c ((pure left : Reader Expr).run c) := by
    refine .ok (.refl hc) fun {ks} hks => ?_
    rwa [List.append_nil]
  rw [Reader.chain, run_bind_of_ok (run_kind c)]
  split
  · rename_i op hop
    split
    · rename_i htight
      have hk : c.kind = op.kind := Operator.ofKind?_eq_some.1 hop
      have hmark := Cursor.crosses_advance hc hk (by cases op <;> simp [Operator.kind])
      have hlt := hmark.size_lt_of_one
      rw [run_bind_of_ok (run_advance c)]
      -- The left operand has been read already: what is passed here continues any such.
      have hjoin {ms : List Kind} (hms : Lenient [.phrase (.rank level)] ms) :
          GoesOn (level + 1) (op.kind :: ms) := by
        intro ks hks
        exact .of_rule (.strictly (.join htight)) (hks.behind (.kind hms))
      have hright : Viable (GoesOn (level + 1)) c ((Reader.layer bound level).run c.advance) :=
        .after hmark (ih.layer level (Nat.le_of_lt hl) hmark.ends (by omega)) hjoin
      refine hright.extend id fun {right d ms} hrun hpass hms => ?_
      obtain ⟨_, hinner, -⟩ :=
        (readsExpressions bound).layer level (Nat.le_of_lt hl) hmark.ends hrun
      have hle := hinner.size_le
      refine .after hpass (ih.chain level (left.join op right) hl hpass.ends (by omega)) ?_
      intro ls hls ks hks
      rw [← List.append_assoc]
      exact hls (hms hks)
    · exact hdone
  · exact hdone

theorem ViableExpressions.operand_succ (ih : ViableExpressions bound) (hc : c.Ends)
    (hb : 16 * c.size + 2 ≤ bound + 1) :
    Viable (Lenient [.phrase (.rank 0)]) c ((Reader.operand (bound + 1)).run c) := by
  rw [Reader.operand, run_bind_of_ok (run_sees c .minus)]
  split
  · rename_i hsees
    have hmark := Cursor.crosses_advance hc (eq_of_beq hsees) (by simp)
    have hlt := hmark.size_lt_of_one
    rw [run_bind_of_ok (run_here c), run_bind_of_ok (run_advance c)]
    have hinner := ih.operand hmark.ends (by omega)
    exact .of_rule (.strictly .negate) (.kind hmark (hinner.answer fun _ _ => ⟨_, rfl⟩))
  · exact ih.primary hc (by omega)

theorem ViableExpressions.separated_succ (ih : ViableExpressions bound) (close : Mark)
    (hc : c.Ends) (hb : 16 * c.size + 10 ≤ bound + 1) :
    Viable (Lenient [.phrase (.listed .expression)]) c
      ((Reader.separated (bound + 1) close).run c) := by
  rw [Reader.separated, run_bind_of_ok (run_sees c close)]
  split
  · exact .of_rule (.strictly (.none _)) (.done hc)
  · exact .of_rule (.strictly (.some _)) (ih.several hc (by omega))

/-- What stands between two marks. -/
theorem viable_between {φ : Phrase} {inner : Reader α} {β : Type} {f : α → Reader β} {close : Mark}
    (hinner : Viable (Lenient [.phrase φ]) c (inner.run c))
    (hf : ∀ a d, ∃ b, (f a).run d = .ok (b, d)) :
    Viable (Lenient [.phrase φ, .mark close]) c
      ((do let a ← inner; mark close; f a : Reader β).run c) := by
  refine hinner.behind fun {a d ks} _ hks => viable_mark hks.ends fun {e} hclose => ?_
  obtain ⟨b, hb⟩ := hf a e
  rw [hb]
  exact .done hclose.ends

theorem ViableExpressions.primary_succ (ih : ViableExpressions bound) (hc : c.Ends)
    (hb : 16 * c.size + 1 ≤ bound + 1) :
    Viable (Lenient [.phrase (.rank 0)]) c ((Reader.primary (bound + 1)).run c) := by
  rw [Reader.primary, run_bind_of_ok (run_here c), run_bind_of_ok (run_kind c)]
  have hfirst {k : Kind} (hk : c.kind = k) (hne : k ≠ .endOfFile) : c.Crosses [k] c.advance :=
    Cursor.crosses_advance hc hk hne
  split <;> try rw [run_bind_of_ok (run_advance c)]
  case h_1 x hk => exact .ok (hfirst hk (by simp)) (Spells.number x).yields.lenient
  case h_2 s hk => exact .ok (hfirst hk (by simp)) (Spells.string s).yields.lenient
  case h_3 hk => exact .ok (hfirst hk (by simp)) (Spells.bool true).yields.lenient
  case h_4 hk => exact .ok (hfirst hk (by simp)) (Spells.bool false).yields.lenient
  case h_5 n hk =>
    have hname := hfirst hk (by simp)
    refine viable_eats hname.ends (fun hopen => ?_) (viable_eats hname.ends (fun hopen => ?_) ?_)
    · have hlt := Nat.lt_trans hopen.size_lt_of_one hname.size_lt_of_one
      have harguments := ih.separated .rightParen hopen.ends (by omega)
      exact .after hname (.kind hopen (viable_between harguments fun _ _ => ⟨_, rfl⟩)) fun hls =>
        .of_rule (.strictly .call) ((yields_name n).lenient.behind hls)
    · have hlt := Nat.lt_trans hopen.size_lt_of_one hname.size_lt_of_one
      have hposition := ih.expression hopen.ends (by omega)
      exact .after hname (.kind hopen (viable_between hposition fun _ _ => ⟨_, rfl⟩)) fun hls =>
        .of_rule (.strictly .index) ((yields_name n).lenient.behind hls)
    · exact .ok hname (Spells.name n).yields.lenient
  case h_6 hk =>
    have hopen := hfirst hk (by simp)
    have hlt := hopen.size_lt_of_one
    have hinner := ih.expression hopen.ends (by omega)
    exact .of_rule (.strictly .enclosed)
      (.kind hopen (viable_between hinner fun _ _ => ⟨_, rfl⟩))
  case h_7 hk =>
    have hopen := hfirst hk (by simp)
    have hlt := hopen.size_lt_of_one
    have hitems := ih.separated .rightBracket hopen.ends (by omega)
    exact .of_rule (.strictly .array)
      (.kind hopen (viable_between hitems fun _ _ => ⟨_, rfl⟩))
  case h_8 => exact .refused hc _

theorem viableExpressions (bound : Nat) : ViableExpressions bound := by
  induction bound with
  | zero => constructor <;> intros <;> omega
  | succ bound ih =>
    exact {
      expression := ih.expression_succ
      layer := fun _ => ih.layer_succ
      chain := fun _ left hl => ih.chain_succ hl left
      operand := ih.operand_succ
      primary := ih.primary_succ
      separated := ih.separated_succ
      several := fun hc hb => viable_commas (ih.expression hc (by omega)) fun hd hlt =>
        ih.several hd (by omega) }

/-! ### Parts of statements -/

theorem viable_initial (hc : c.Ends) (hb : 16 * c.size ≤ bound) :
    Viable (Lenient [.phrase .initial]) c ((initial? bound).run c) := by
  refine viable_eats hc (fun hmark => ?_) ?_
  · have hlt := hmark.size_lt_of_one
    have hvalue := (viableExpressions bound).expression hmark.ends (by omega)
    exact .of_rule (.strictly .initial) (.kind hmark (hvalue.answer fun _ _ => ⟨_, rfl⟩))
  · exact .of_rule (.strictly .absent) (.done hc)

theorem viable_condition (hc : c.Ends) (hb : 16 * c.size ≤ bound) :
    Viable (Lenient [.mark .leftParen, .phrase .expression, .mark .rightParen]) c
      ((condition bound).run c) := by
  refine viable_mark hc fun hopen => ?_
  have hlt := hopen.size_lt_of_one
  exact viable_between ((viableExpressions bound).expression hopen.ends (by omega))
    fun _ _ => ⟨_, rfl⟩

theorem viable_param (hc : c.Ends) (hb : 16 * c.size ≤ bound) :
    Viable (Lenient [.phrase .parameter]) c ((param bound).run c) := by
  rw [param, run_bind_of_ok (run_here c)]
  refine .of_rule (.strictly .parameter) ((viable_type hc).behind fun _ hks => ?_)
  refine (viable_name hks.ends).behind fun _ hname => ?_
  have hle := Nat.le_trans hname.size_le hks.size_le
  exact (viable_initial hname.ends (by omega)).answer fun _ _ => ⟨_, rfl⟩

theorem viable_someParams (hc : c.Ends) (hb : 16 * c.size + 1 ≤ bound) :
    Viable (Lenient [.phrase (.commas .parameter)]) c ((someParams bound).run c) := by
  induction bound generalizing c with
  | zero => omega
  | succ bound ih =>
    exact viable_commas (viable_param hc (by omega)) fun hd hlt => ih hd (by omega)

theorem viable_importItem (hc : c.Ends) :
    Viable (Lenient [.phrase .item]) c (importItem.run c) := by
  refine (viable_name hc).extend (.of_rule (.strictly .plainItem)) fun _ hks hname =>
    viable_eatsWord hks.ends (fun hword => ?_) ?_
  · refine .after hks (.kind hword ((viable_name hword.ends).answer fun _ _ => ⟨_, rfl⟩)) ?_
    exact fun hls => .of_rule (.strictly .renamedItem) (hname.behind hls)
  · exact .ok hks (hname.of_rule (.strictly .plainItem))

theorem viable_someItems (hc : c.Ends) (hb : 16 * c.size + 1 ≤ bound) :
    Viable (Lenient [.phrase (.commas .item)]) c ((someItems bound).run c) := by
  induction bound generalizing c with
  | zero => omega
  | succ bound ih =>
    exact viable_commas (viable_importItem hc) fun hd hlt => ih hd (by omega)

/-- A list that is empty if its closing mark comes at once. -/
theorem viable_listed {φ : Phrase} {some : Reader (List α)} {β : Type} {f : List α → Reader β}
    {close : Mark} (hc : c.Ends) (hsome : Viable (Lenient [.phrase (.commas φ)]) c (some.run c))
    (hrest : ∀ {as d ks}, c.Crosses ks d → Viable (Lenient ps) d ((f as).run d)) :
    Viable (Lenient (.phrase (.listed φ) :: ps)) c
      ((do if ← sees close then pure [] >>= f else some >>= f : Reader β).run c) := by
  rw [run_bind_of_ok (run_sees c close)]
  split
  · refine .mono (hrest (.refl hc)) fun hls => ?_
    exact Yields.behind (.of_rule (.strictly (.none φ)) .nil) hls
  · exact (hsome.of_rule (.strictly (.some φ))).behind fun _ hks => hrest hks

theorem viable_params (hc : c.Ends) (hb : 16 * c.size ≤ bound) :
    Viable (Lenient [.mark .leftParen, .phrase (.listed .parameter), .mark .rightParen]) c
      ((params bound).run c) := by
  refine viable_mark hc fun hopen => ?_
  have hlt := hopen.size_lt_of_one
  refine viable_listed hopen.ends (viable_someParams hopen.ends (by omega)) fun hks => ?_
  exact viable_mark hks.ends fun hclose => .done hclose.ends

/-! ### Statements without statements inside -/

theorem viable_variableDeclaration (hc : c.Ends) (hb : 16 * c.size ≤ bound) :
    Viable (Lenient [.phrase .declaration]) c ((variableDeclaration bound).run c) := by
  rw [variableDeclaration, run_bind_of_ok (run_here c)]
  refine .of_rule (.strictly .declare) ((viable_type hc).behind fun _ hks => ?_)
  refine (viable_name hks.ends).behind fun _ hname => ?_
  have hle := Nat.le_trans hname.size_le hks.size_le
  exact viable_between (viable_initial hname.ends (by omega)) fun _ _ => ⟨_, rfl⟩

theorem viable_renameStatement (hc : c.Ends) (hk : c.kind = .word .use) :
    Viable (Lenient [.phrase .declaration]) c (renameStatement.run c) := by
  refine .of_rule (.strictly .rename) (viable_opened hc hk .kind fun hword => ?_)
  refine (viable_name hword.ends).behind fun _ hold => ?_
  refine viable_word hold.ends fun has => (viable_name has.ends).behind fun _ hnew => ?_
  exact viable_mark hnew.ends fun hend => .done hend.ends

/-- What may stand between `import` and the source. -/
def Imported (ls : List Kind) : Prop :=
  Lenient [] ls ∨
    Lenient [.mark .leftBrace, .phrase (.listed .item), .mark .rightBrace, .word .fromWord] ls

theorem viable_importList (hc : c.Ends) (hb : 16 * c.size ≤ bound) :
    Viable Imported c ((importList? bound).run c) := by
  refine viable_eats hc (fun hopen => ?_) ((Viable.done hc).mono .inl)
  have hlt := hopen.size_lt_of_one
  refine Viable.mono (.kind hopen ?_) .inr
  refine viable_listed hopen.ends (viable_someItems hopen.ends (by omega)) fun hks => ?_
  exact viable_mark hks.ends fun hclose => viable_word hclose.ends fun hfrom => .done hfrom.ends

theorem Imported.lenient {ls ms : List Kind} (h : Imported ls)
    (hms : Lenient [.phrase .string, .mark .semicolon] ms) :
    Lenient [.phrase .declaration] (.word .importWord :: (ls ++ ms)) := by
  obtain h | h := h
  · exact .of_rule (.strictly .importAll) (.kind (h.append hms))
  · exact .of_rule (.strictly .importSome) (.kind (h.append hms))

theorem viable_importStatement (hc : c.Ends) (hk : c.kind = .word .importWord)
    (hb : 16 * c.size ≤ bound) :
    Viable (Lenient [.phrase .declaration]) c ((importStatement bound).run c) := by
  refine viable_opened hc hk id fun {d} hword => ?_
  have hlt := hword.size_lt_of_one
  have hitems := viable_importList hword.ends (by omega : 16 * d.size ≤ bound)
  refine hitems.bind (fun h => ?_) fun _ hks h => .after hks ?_ h.lenient
  · exact (exists_yields _).imp fun _ => h.lenient
  · exact viable_between (viable_string hks.ends) fun _ _ => ⟨_, rfl⟩

theorem viable_showStatement (hc : c.Ends) (hk : c.kind = .word .showWord)
    (hb : 16 * c.size ≤ bound) :
    Viable (Lenient [.phrase .statement]) c ((showStatement bound).run c) := by
  refine .of_rule (.strictly .display) (viable_opened hc hk .kind fun hword => ?_)
  refine viable_mark hword.ends fun hopen => ?_
  have hlt := Nat.lt_trans hopen.size_lt_of_one hword.size_lt_of_one
  have harguments := (viableExpressions bound).separated .rightParen hopen.ends (by omega)
  refine harguments.behind fun _ hks => viable_mark hks.ends fun hclose => ?_
  exact viable_mark hclose.ends fun hend => .done hend.ends

theorem viable_returnStatement (hc : c.Ends) (hk : c.kind = .word .returnWord)
    (hb : 16 * c.size ≤ bound) :
    Viable (Lenient [.phrase .statement]) c ((returnStatement bound).run c) := by
  refine .of_rule (.strictly .returnValues) (viable_opened hc hk .kind fun hword => ?_)
  have hlt := hword.size_lt_of_one
  have hvalues := (viableExpressions bound).separated .semicolon hword.ends (by omega)
  exact viable_between hvalues fun _ _ => ⟨_, rfl⟩

theorem viable_expressionStatement (hc : c.Ends) (hb : 16 * c.size + 8 ≤ bound) :
    Viable (Lenient [.phrase .statement]) c ((expressionStatement bound).run c) :=
  .of_rule (.strictly .evaluate)
    (viable_between ((viableExpressions bound).expression hc hb) fun _ _ => ⟨_, rfl⟩)

/-! ### Statements and declarations -/

/-- What a function is made of from its name on. -/
abbrev functionPieces : List Piece :=
  [.phrase .name, .mark .leftParen, .phrase (.listed .parameter), .mark .rightParen,
    .mark .leftBrace, .phrase .script, .mark .rightBrace]

/-- With so many calls, the readers of statements are viable. -/
structure ViableStatements (bound : Nat) : Prop where
  declaration : ∀ {c}, c.Ends → 16 * c.size + 10 ≤ bound →
    Viable (Lenient [.phrase .declaration]) c ((declaration bound).run c)
  function : ∀ {c} start returns?, c.Ends → 16 * c.size + 2 ≤ bound →
    Viable (Lenient functionPieces) c ((function bound start returns?).run c)
  block : ∀ {c}, c.Ends → 16 * c.size + 1 ≤ bound →
    Viable (Lenient [.mark .leftBrace, .phrase .script, .mark .rightBrace]) c
      ((block bound).run c)
  declarations : ∀ {c}, c.Ends → 16 * c.size + 11 ≤ bound →
    Viable (Lenient [.phrase .script]) c ((declarations bound).run c)
  statement : ∀ {c}, c.Ends → 16 * c.size + 9 ≤ bound →
    Viable (Lenient [.phrase .statement]) c ((statement bound).run c)

theorem ViableStatements.declaration_succ (ih : ViableStatements bound) (hc : c.Ends)
    (hb : 16 * c.size + 10 ≤ bound + 1) :
    Viable (Lenient [.phrase .declaration]) c ((Reader.declaration (bound + 1)).run c) := by
  rw [Reader.declaration, run_bind_of_ok (run_kind c)]
  split
  case h_1 hk => exact viable_importStatement hc hk (by omega)
  case h_2 hk =>
    refine .of_rule (.strictly .action) (viable_opened hc hk .kind fun hword => ?_)
    have hlt := hword.size_lt_of_one
    exact ih.function _ none hword.ends (by omega)
  case h_3 hk => exact viable_renameStatement hc hk
  case h_4 =>
    split
    · rw [run_bind_of_ok (rfl : (get : Reader Cursor).run c = .ok (c, c))]
      split
      · rw [run_bind_of_ok (run_here c)]
        refine .of_rule (.strictly .function) ((viable_type hc).behind fun _ hks => ?_)
        have hle := hks.size_le
        exact ih.function _ _ hks.ends (by omega)
      · exact viable_variableDeclaration hc (by omega)
    · exact .of_rule (.strictly .statement) (ih.statement hc (by omega))

theorem ViableStatements.function_succ (ih : ViableStatements bound) (start : Span)
    (returns? : Option TypeRef) (hc : c.Ends) (hb : 16 * c.size + 2 ≤ bound + 1) :
    Viable (Lenient functionPieces) c ((Reader.function (bound + 1) start returns?).run c) := by
  refine (viable_name hc).behind fun _ hname => ?_
  have hle := hname.size_le
  refine (viable_params hname.ends (by omega)).append fun _ hparams => ?_
  have hle' := hparams.size_le
  exact (ih.block hparams.ends (by omega)).answer fun _ _ => ⟨_, rfl⟩

theorem ViableStatements.block_succ (ih : ViableStatements bound) (hc : c.Ends)
    (hb : 16 * c.size + 1 ≤ bound + 1) :
    Viable (Lenient [.mark .leftBrace, .phrase .script, .mark .rightBrace]) c
      ((Reader.block (bound + 1)).run c) := by
  rw [Reader.block, run_bind_of_ok (run_here c)]
  refine viable_mark hc fun hopen => ?_
  have hlt := hopen.size_lt_of_one
  exact viable_between (ih.declarations hopen.ends (by omega)) fun _ _ => ⟨_, rfl⟩

/-- A row of declarations that goes on, since no end of file is in front of it. -/
theorem viable_cons {others : Reader (List Stmt)} (ih : ViableStatements bound) (hc : c.Ends)
    (hb : 16 * c.size + 10 ≤ bound)
    (hothers : ∀ {d}, d.Ends → d.size < c.size →
      Viable (Lenient [.phrase .script]) d (others.run d)) :
    Viable (Lenient [.phrase .script]) c
      ((do let first ← Reader.declaration bound; return first :: (← others)).run c) := by
  refine .of_rule (.strictly .cons) ((ih.declaration hc hb).behind fun {first d ks} hrun hks => ?_)
  have hlt : d.size < c.size := by
    obtain ⟨ls, hls, hderives⟩ := (readsStatements bound).declaration hc hrun
    obtain ⟨k, ms, rfl, -⟩ := hderives.declaration_head
    exact hls.size_lt (List.cons_ne_nil k ms)
  exact (hothers hks.ends hlt).answer fun _ _ => ⟨_, rfl⟩

theorem ViableStatements.declarations_succ (ih : ViableStatements bound) (hc : c.Ends)
    (hb : 16 * c.size + 11 ≤ bound + 1) :
    Viable (Lenient [.phrase .script]) c ((Reader.declarations (bound + 1)).run c) := by
  rw [Reader.declarations, run_bind_of_ok (run_kind c), run_bind_of_ok (run_kind c)]
  split
  · exact .of_rule (.strictly .nil) (.done hc)
  · exact viable_cons ih hc (by omega) fun hd hlt => ih.declarations hd (by omega)

/-- What may stand behind `if` and its condition. -/
def Branched (ls : List Kind) : Prop :=
  Lenient [.phrase .statement] ls ∨
    Lenient [.phrase .statement, .word .elseWord, .phrase .statement] ls

theorem Branched.lenient {ks ls : List Kind} (h : Branched ls)
    (hks : Lenient [.mark .leftParen, .phrase .expression, .mark .rightParen] ks) :
    Lenient [.phrase .statement] (.word .ifWord :: (ks ++ ls)) := by
  obtain h | h := h
  · exact .of_rule (.strictly .branch) (.kind (hks.append h))
  · exact .of_rule (.strictly .branchElse) (.kind (hks.append h))

theorem ViableStatements.statement_succ (ih : ViableStatements bound) (hc : c.Ends)
    (hb : 16 * c.size + 9 ≤ bound + 1) :
    Viable (Lenient [.phrase .statement]) c ((Reader.statement (bound + 1)).run c) := by
  rw [Reader.statement, run_bind_of_ok (run_kind c)]
  split
  case h_1 hk =>
    refine viable_opened hc hk id fun {d} hword => ?_
    have hlt := hword.size_lt_of_one
    have htest := viable_condition hword.ends (by omega : 16 * d.size ≤ bound)
    refine htest.bind (fun h => ?_) fun _ hks h => .after (M := Branched) hks ?_ (·.lenient h)
    · exact (exists_yields [.phrase .statement]).imp fun _ hls => Branched.lenient (.inl hls) h
    have hle := hks.size_le
    refine (ih.statement hks.ends (by omega)).extend .inl fun _ hls h =>
      viable_eatsWord hls.ends (fun helse => ?_) (.ok hls (.inl h))
    · have hlt := Nat.lt_of_lt_of_le helse.size_lt_of_one hls.size_le
      refine .after hls (.kind helse ?_) fun hms => .inr (h.behind hms)
      exact (ih.statement helse.ends (by omega)).answer fun _ _ => ⟨_, rfl⟩
  case h_2 hk =>
    refine .of_rule (.strictly .loopWhile) (viable_opened hc hk .kind fun {d} hword => ?_)
    have hlt := hword.size_lt_of_one
    have htest := viable_condition hword.ends (by omega : 16 * d.size ≤ bound)
    refine htest.append fun _ hks => ?_
    have hle := hks.size_le
    exact (ih.statement hks.ends (by omega)).answer fun _ _ => ⟨_, rfl⟩
  case h_3 hk =>
    refine .of_rule (.strictly .loopRange) (viable_opened hc hk .kind fun {d} hword => ?_)
    have hlt := hword.size_lt_of_one
    refine viable_mark hword.ends fun hopen => ?_
    refine (viable_name hopen.ends).behind fun _ hname => viable_word hname.ends fun hin => ?_
    refine viable_word hin.ends fun hrange => viable_mark hrange.ends fun hinner => ?_
    have hhead := hopen.trans (hname.trans (hin.trans (hrange.trans hinner)))
    have hle := hhead.size_le
    have hexpression {e : Cursor} (he : e.Ends) (hle : e.size ≤ d.size) :=
      (viableExpressions bound).expression he (by omega)
    refine (hexpression hinner.ends hle).behind fun _ hfirst => ?_
    refine viable_mark hfirst.ends fun hcomma => ?_
    have hle := (hhead.trans (hfirst.trans hcomma)).size_le
    refine (hexpression hcomma.ends hle).behind fun _ hlimit => ?_
    refine viable_mark hlimit.ends fun hclose => viable_mark hclose.ends fun hend => ?_
    have htail := hcomma.trans (hlimit.trans (hclose.trans hend))
    have hle := (hhead.trans (hfirst.trans htail)).size_le
    exact (ih.statement hend.ends (by omega)).answer fun _ _ => ⟨_, rfl⟩
  case h_4 hk => exact viable_showStatement hc hk (by omega)
  case h_5 hk => exact viable_returnStatement hc hk (by omega)
  case h_6 hk =>
    exact .of_rule (.strictly .block) ((ih.block hc (by omega)).answer fun _ _ => ⟨_, rfl⟩)
  case h_7 => exact viable_expressionStatement hc (by omega)

theorem viableStatements (bound : Nat) : ViableStatements bound := by
  induction bound with
  | zero => constructor <;> intros <;> omega
  | succ bound ih =>
    exact {
      declaration := ih.declaration_succ
      function := ih.function_succ
      block := ih.block_succ
      declarations := ih.declarations_succ
      statement := ih.statement_succ }

theorem viable_topLevel (hc : c.Ends) (hb : 16 * c.size + 11 ≤ bound) :
    Viable (Lenient [.phrase .script]) c ((topLevel bound).run c) := by
  induction bound generalizing c with
  | zero => omega
  | succ bound ih =>
    rw [topLevel, run_bind_of_ok (run_kind c)]
    split
    · exact .of_rule (.strictly .nil) (.done hc)
    · exact viable_cons (viableStatements bound) hc (by omega) fun hd hlt => ih hd (by omega)

/-- What has been passed of a program when a token is refused could go on as a script. -/
theorem viable_program (hc : c.Ends) (hb : 16 * c.size + 11 ≤ bound) :
    Viable (Lenient [.phrase .script]) c ((program bound).run c) := by
  rw [program, run_bind_of_ok (run_here c)]
  refine (viable_topLevel hc hb).answer fun body d => ?_
  split
  · exact ⟨_, rfl⟩
  · exact ⟨_, rfl⟩

end Reader

end Playscript

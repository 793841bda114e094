/-
# Reading ends in front of the end of file

Where an end of file is ahead, every procedure of the parser is careful
(`Procedure.careful`): it looks at a token before it passes it, so the end of file
is never passed; and until it has passed a token, it calls only procedures of less
rank. Each plan is followed once, step by step, with a rule for every kind of step;
what is called is known by where it may be called, by its rank, and by whether its
phrase has a token at least.

So the tokens ahead, and the rank where no token has been consumed, go down along the
calls that are open. No more than thirteen calls can be open for each token up to the
first end of file, and no more than twenty-four for each token in front of it below
the loop over the statements; a procedure that is called again below itself has
consumed a token. A bound on calls is missed only where so many calls are open, so the
parser never gives up (`Program.terminates_of_end`).

Key definitions: `Cursor.Within`, `Cursor.Beyond`, `Procedure.rank`, `Plan.Careful`,
`Program.Terminates`.
Key theorems: `Procedure.careful`, `Procedure.covers_of_answers`, `Call.Sound.asks`,
`Program.terminates_of_end`.
-/
import Playscript.Proofs.Tree.Procedures
import Playscript.Proofs.Tree.Refusals

namespace Playscript

open Token (Kind)
open Grammar

/-! ### Places in front of an end of file -/

namespace Cursor

/-- An end of file is ahead. -/
def Stops (c : Cursor) : Prop := ∃ t ∈ c.rest, t.kind = .endOfFile

/-- The second place is the first or further on, in front of the same end of file. -/
structure Within (o c : Cursor) : Prop where
  stops : c.Stops
  remain : Remain o.rest c.rest

/-- A token lies between the places. -/
structure Beyond (o c : Cursor) : Prop extends Within o c where
  consumed : c.size < o.size

variable {o c d : Cursor}

theorem size_append {ws : List Token} (h : o.rest = ws ++ c.rest)
    (hws : ∀ w ∈ ws, w.kind ≠ .endOfFile) : o.size = ws.length + c.size := by
  have hpassed : ∀ k ∈ ws.map (·.kind), (k != .endOfFile) = true := by simpa using hws
  rw [size, size, kinds, kinds, h, List.map_append, scriptKinds, scriptKinds,
    List.takeWhile_append_of_pos hpassed, List.length_append, List.length_map]

theorem Within.refl (h : c.Stops) : c.Within c :=
  ⟨h, .refl (h.elim fun _ ht => List.ne_nil_of_mem ht.1)⟩

theorem Within.trans (h : o.Within c) (h' : c.Within d) : o.Within d :=
  ⟨h'.stops, h.remain.trans h'.remain⟩

theorem Within.size_add (h : o.Within c) : o.size + c.rest.length = c.size + o.rest.length := by
  obtain ⟨-, -, ws, hws, hnone⟩ := h
  rw [size_append hws hnone, hws, List.length_append]
  omega

theorem Within.size_le (h : o.Within c) : c.size ≤ o.size := by
  obtain ⟨-, -, ws, hws, hnone⟩ := h
  rw [size_append hws hnone]
  exact Nat.le_add_left _ _

theorem Beyond.after (h : o.Within c) (h' : c.Beyond d) : o.Beyond d :=
  ⟨h.trans h'.toWithin, Nat.lt_of_lt_of_le h'.consumed h.size_le⟩

theorem Beyond.before (h : o.Beyond c) (h' : c.Within d) : o.Beyond d :=
  ⟨h.toWithin.trans h', Nat.lt_of_le_of_lt h'.size_le h.consumed⟩

/-- A token other than the end of file is passed. -/
theorem Stops.advance (h : c.Stops) (hk : c.kind ≠ .endOfFile) : c.Beyond c.advance := by
  obtain ⟨rest, previous, last⟩ := c
  obtain ⟨t, ht, hend⟩ := h
  cases rest with
  | nil => cases ht
  | cons u us =>
    have hmem : t ∈ us := (List.mem_cons.1 ht).resolve_left fun heq => hk (heq ▸ hend)
    have hnone : ∀ w ∈ [u], w.kind ≠ .endOfFile := fun w hw => List.mem_singleton.1 hw ▸ hk
    refine ⟨⟨⟨t, hmem, hend⟩, List.ne_nil_of_mem hmem, [u], rfl, hnone⟩, ?_⟩
    rw [size_append (o := ⟨u :: us, previous, last⟩) (c := ⟨us, u.span, last⟩) rfl hnone]
    exact Nat.lt_add_of_pos_left Nat.one_pos

theorem Within.advance (h : o.Within c) (hk : c.kind ≠ .endOfFile) : o.Beyond c.advance :=
  .after h (h.stops.advance hk)

theorem Stops.kind_of_size (h : c.Stops) (hsize : c.size = 0) : c.kind = .endOfFile := by
  by_contra hk
  have hlt := (h.advance hk).consumed
  omega

end Cursor

/-! ### What procedures may do -/

namespace Procedure

/-- Until it has consumed a token a procedure calls only procedures of less rank. -/
def rank : Procedure → Nat
  | program => 12
  | topLevel | declarations => 11
  | declaration => 10
  | statement | separated => 9
  | expressionStatement | several => 8
  | expression => 7
  | layer level => level + 2
  | someParams => 2
  | param | someItems | variableDeclaration | operand => 1
  | function | block | renameStatement | importStatement | importList | importItem | showStatement
  | returnStatement | type | params | initial | condition | chain _ | primary => 0

theorem rank_le (p : Procedure) : p.rank ≤ 12 := by
  cases p with
  | layer level =>
    have hlevel := level.isLt
    simp only [rank]
    omega
  | _ => simp [rank]

/-- Whether the phrase of a procedure has a token at least. -/
def consumes : Procedure → Bool
  | program | topLevel | declarations | importList | initial | chain _ | separated => false
  | _ => true

/-- Where a procedure is called: some pass their first token without a look at it. -/
def Opens : Procedure → Kind → Prop
  | renameStatement, k => k = .word .use
  | importStatement, k => k = .word .importWord
  | showStatement, k => k = .word .showWord
  | returnStatement, k => k = .word .returnWord
  | _, _ => True

/-- The places in front of a phrase of the procedure and behind it. -/
structure Covers (p : Procedure) (c d : Cursor) : Prop where
  within : c.Within d
  beyond : p.consumes → c.Beyond d

end Procedure

namespace Plan

variable {α : Type} {p q : Procedure} {o c : Cursor}

/-- What a procedure that was called at `o` still does is careful: it looks at a token before it
passes it, and calls procedures only where it may. -/
def Careful (p : Procedure) (o : Cursor) : Plan α → Cursor → Prop
  | done _, c => p.consumes → o.Beyond c
  | unexpected _, _ => True
  | target _, _ => True
  | look next, c => (next c).Careful p o c
  | advance next, c => c.kind ≠ .endOfFile ∧ next.Careful p o c.advance
  | ask q _ next, c =>
    q.Opens c.kind ∧ (q.rank < p.rank ∨ o.Beyond c) ∧
      ∀ a d, q.Covers c d → (next a).Careful p o d

namespace Careful

theorem answer (h : o.Beyond c) (a : α) : Careful p o (pure a) c := fun _ => h

/-! ### Calls -/

/-- A call may be answered wherever its phrase may end. -/
theorem ask {input : q.Input} {next : q.Result → Plan α} (hc : o.Within c) (hopens : q.Opens c.kind)
    (hrank : q.rank < p.rank ∨ o.Beyond c)
    (h : ∀ {a d}, o.Within d → (q.consumes ∨ o.Beyond c → o.Beyond d) → Careful p o (next a) d) :
    Careful p o (call q input >>= next) c := by
  refine ⟨hopens, hrank, fun a d hd => h (hc.trans hd.within) ?_⟩
  rintro (hconsumes | hbeyond)
  · exact .after hc (hd.beyond hconsumes)
  · exact hbeyond.before hd.within

/-- Once a token has been consumed, any procedure may be called. -/
theorem askNext {input : q.Input} {next : q.Result → Plan α} (hc : o.Beyond c)
    (hopens : q.Opens c.kind) (h : ∀ {a d}, o.Beyond d → Careful p o (next a) d) :
    Careful p o (call q input >>= next) c :=
  ask hc.toWithin hopens (.inr hc) fun _ hd => h (hd (.inr hc))

/-- A call that consumes the first token. -/
theorem askFirst {input : q.Input} {next : q.Result → Plan α} (hc : o.Within c)
    (hopens : q.Opens c.kind) (hrank : q.rank < p.rank) (hconsumes : q.consumes = true)
    (h : ∀ {a d}, o.Beyond d → Careful p o (next a) d) : Careful p o (call q input >>= next) c :=
  ask hc hopens (.inl hrank) fun _ hd => h (hd (.inl hconsumes))

theorem tailFirst {q : Procedure} {input : q.Input} (hc : o.Within c) (hopens : q.Opens c.kind)
    (hrank : q.rank < p.rank) (hconsumes : p.consumes → q.consumes) :
    Careful p o (call q input) c :=
  ⟨hopens, .inl hrank, fun _ _ hd hp => .after hc (hd.beyond (hconsumes hp))⟩

theorem tailNext {q : Procedure} {input : q.Input} (hc : o.Beyond c) (hopens : q.Opens c.kind) :
    Careful p o (call q input) c :=
  ⟨hopens, .inr hc, fun _ _ hd _ => hc.before hd.within⟩

/-! ### Small steps -/

theorem kind {next : Kind → Plan α} (h : ∀ k, c.kind = k → Careful p o (next k) c) :
    Careful p o (Plan.kind >>= next) c := h c.kind rfl

theorem here {next : Span → Plan α} (h : ∀ span, Careful p o (next span) c) :
    Careful p o (Plan.here >>= next) c := h c.token.span

/-- What has consumed a token may be answered with its span. -/
theorem spanned {f : Span → α} (h : o.Beyond c) (start : Span) :
    Careful p o (do return f (← Plan.since start)) c := answer h (f (start.merge c.previous))

theorem sees (m : Mark) {next : Bool → Plan α}
    (h : ∀ b, (c.kind == .mark m) = b → Careful p o (next b) c) :
    Careful p o (Plan.sees m >>= next) c := h _ rfl

/-- A token that is known to be no end of file is passed. -/
theorem pass {k : Kind} {plan : Plan α} (hc : o.Within c) (hk : c.kind = k) (hne : k ≠ .endOfFile)
    (h : ∀ {d}, o.Beyond d → Careful p o plan d) : Careful p o (.advance plan) c :=
  ⟨hk ▸ hne, h (hc.advance (hk ▸ hne))⟩

theorem step {k : Kind} {next : Unit → Plan α} (hc : o.Within c) (hk : c.kind = k)
    (hne : k ≠ .endOfFile) (h : ∀ {d}, o.Beyond d → Careful p o (next ()) d) :
    Careful p o (Plan.step >>= next) c := pass hc hk hne h

theorem eats {m : Mark} {next : Bool → Plan α} (hc : o.Within c)
    (hyes : ∀ {d}, o.Beyond d → Careful p o (next true) d) (hno : Careful p o (next false) c) :
    Careful p o (Plan.eats m >>= next) c := by
  show Careful p o ((if (c.kind == .mark m) = true then _ else _ : Plan Bool).bind next) c
  split
  · rename_i hk
    exact pass hc (eq_of_beq hk) nofun hyes
  · exact hno

theorem eatsWord {w : Word} {next : Bool → Plan α} (hc : o.Within c)
    (hyes : ∀ {d}, o.Beyond d → Careful p o (next true) d) (hno : Careful p o (next false) c) :
    Careful p o (Plan.eatsWord w >>= next) c := by
  show Careful p o ((if (c.kind == .word w) = true then _ else _ : Plan Bool).bind next) c
  split
  · rename_i hk
    exact pass hc (eq_of_beq hk) nofun hyes
  · exact hno

theorem mark {m : Mark} {next : Unit → Plan α} (hc : o.Within c)
    (h : ∀ {d}, o.Beyond d → Careful p o (next ()) d) : Careful p o (Plan.mark m >>= next) c := by
  rw [Plan.mark, bind_assoc]
  exact eats hc h trivial

theorem word {w : Word} {next : Unit → Plan α} (hc : o.Within c)
    (h : ∀ {d}, o.Beyond d → Careful p o (next ()) d) : Careful p o (Plan.word w >>= next) c := by
  rw [Plan.word, bind_assoc]
  exact eatsWord hc h trivial

theorem name {next : Ident → Plan α} (hc : o.Within c)
    (h : ∀ {i d}, o.Beyond d → Careful p o (next i) d) : Careful p o (Plan.name >>= next) c := by
  rw [Plan.name, bind_assoc]
  refine kind fun k hk => ?_
  split
  · exact pass hc hk (by simp) h
  · trivial

theorem string {next : String → Plan α} (hc : o.Within c)
    (h : ∀ {s d}, o.Beyond d → Careful p o (next s) d) : Careful p o (Plan.string >>= next) c := by
  rw [Plan.string, bind_assoc]
  refine kind fun k hk => ?_
  split
  · exact pass hc hk (by simp) h
  · trivial

/-! ### Expressions -/

section Procedures

variable (h : o.Stops)
include h

theorem expression : Careful .expression o Plan.expression o := by
  refine askFirst (.refl h) trivial (by decide) rfl fun hd => eats hd.toWithin (fun hd => ?_) ?_
  · refine askNext hd trivial fun {value _} hd => ?_
    unfold assignment
    split
    · exact answer hd _
    · trivial
  · exact answer hd _

theorem layer (level : Fin 5) : Careful (.layer level) o (Plan.layer level) o := by
  obtain ⟨_ | level, hlevel⟩ := level
  · exact tailFirst (.refl h) trivial (Nat.lt_succ_self 1) fun _ => rfl
  · exact askFirst (.refl h) trivial (Nat.lt_succ_self _) rfl fun hd => tailNext hd trivial

theorem chain (level : Fin 4) (left : Expr) :
    Careful (.chain level) o (Plan.chain level left) o := by
  refine kind fun k hk => ?_
  split
  · rename_i op hop
    have hne : k ≠ .endOfFile := by
      rintro rfl
      cases hop
    split
    · exact step (.refl h) hk hne fun hd => askNext hd trivial fun hd => tailNext hd trivial
    · exact nofun
  · exact nofun

theorem operand : Careful .operand o Plan.operand o := by
  refine sees .minus fun b hb => ?_
  cases b with
  | true =>
    refine here fun start => step (.refl h) (eq_of_beq hb) nofun fun hd => ?_
    exact askNext hd trivial fun hd => answer hd _
  | false => exact tailFirst (.refl h) trivial (by decide) fun _ => rfl

theorem primary : Careful .primary o Plan.primary o := by
  refine here fun start => kind fun k hk => ?_
  split
  case h_5 =>
    refine step (.refl h) hk (by simp) fun hd => ?_
    refine eats hd.toWithin (fun hd => ?_) (eats hd.toWithin (fun hd => ?_) (answer hd _))
    · exact askNext hd trivial fun hd => mark hd.toWithin fun hd => spanned hd start
    · exact askNext hd trivial fun hd => mark hd.toWithin fun hd => spanned hd start
  case h_6 =>
    refine step (.refl h) hk (by simp) fun hd => askNext hd trivial fun hd => ?_
    exact mark hd.toWithin fun hd => answer hd _
  case h_7 =>
    refine step (.refl h) hk (by simp) fun hd => askNext hd trivial fun hd => ?_
    exact mark hd.toWithin fun hd => spanned hd start
  case h_8 => trivial
  all_goals exact step (.refl h) hk (by simp) fun hd => answer hd _

theorem separated (close : Mark) : Careful .separated o (Plan.separated close) o := by
  refine sees close fun b hb => ?_
  cases b with
  | true => exact nofun
  | false => exact tailFirst (.refl h) trivial (by decide) nofun

omit h in
theorem commas {input : q.Input} {others : Plan (List q.Result)} (hc : o.Within c)
    (hopens : q.Opens c.kind) (hrank : q.rank < p.rank) (hconsumes : q.consumes = true)
    (hothers : ∀ {first d}, o.Beyond d →
      Careful p o (others >>= fun rest => pure (first :: rest)) d) :
    Careful p o (Plan.commas (call q input) others) c :=
  Careful.askFirst hc hopens hrank hconsumes fun hd => eats hd.toWithin hothers (answer hd _)

theorem several :
    Careful .several o (Plan.commas (call .expression ()) (call .several ())) o :=
  commas (.refl h) trivial (by decide) rfl fun hd => askNext hd trivial fun hd => answer hd _

theorem initial : Careful .initial o Plan.initial o :=
  eats (.refl h) (fun hd => askNext hd trivial fun hd => answer hd _) nofun

theorem condition : Careful .condition o Plan.condition o :=
  mark (.refl h) fun hd => askNext hd trivial fun hd => mark hd.toWithin fun hd => answer hd _

/-! ### Types and parameters -/

theorem type : Careful .type o Plan.type o := by
  refine here fun start => kind fun k hk => ?_
  split
  · rename_i htype
    have hne : k ≠ .endOfFile := by
      rintro rfl
      cases htype
    refine step (.refl h) hk hne fun hd => eats hd.toWithin (fun hd => ?_) ?_
    · exact mark hd.toWithin fun hd => spanned hd start
    · exact spanned hd start
  · trivial

theorem param : Careful .param o Plan.param o := by
  refine here fun start => askFirst (.refl h) trivial (by decide) rfl fun hd => ?_
  refine name hd.toWithin fun hd => askNext hd trivial fun hd => ?_
  exact spanned hd start

theorem someParams :
    Careful .someParams o (Plan.commas (call .param ()) (call .someParams ())) o :=
  commas (.refl h) trivial (by decide) rfl fun hd => askNext hd trivial fun hd => answer hd _

omit h in
/-- A list that is empty if its closing mark comes at once. -/
theorem listed {input : q.Input} {close : Mark} {next : q.Result → Plan α} {empty : q.Result}
    (hc : o.Beyond c) (hopens : q.Opens c.kind)
    (hnext : ∀ {a d}, o.Beyond d → Careful p o (next a) d) :
    Careful p o
      (do if ← Plan.sees close then pure empty >>= next else call q input >>= next) c := by
  refine sees close fun b _ => ?_
  cases b with
  | true => exact hnext hc
  | false => exact askNext hc hopens hnext

theorem params : Careful .params o Plan.params o :=
  mark (.refl h) fun hd => listed (q := .someParams) hd trivial fun hd =>
    mark hd.toWithin fun hd => answer hd _

/-! ### Statements without statements inside -/

theorem variableDeclaration : Careful .variableDeclaration o Plan.variableDeclaration o := by
  refine here fun start => askFirst (.refl h) trivial (by decide) rfl fun hd => ?_
  refine name hd.toWithin fun hd => askNext hd trivial fun hd => mark hd.toWithin fun hd => ?_
  exact spanned hd start

theorem renameStatement (hk : o.kind = .word .use) :
    Careful .renameStatement o Plan.renameStatement o := by
  refine here fun start => step (.refl h) hk nofun fun hd => name hd.toWithin fun hd => ?_
  refine word hd.toWithin fun hd => name hd.toWithin fun hd => mark hd.toWithin fun hd => ?_
  exact spanned hd start

theorem importItem : Careful .importItem o Plan.importItem o := by
  refine name (.refl h) fun hd => eatsWord hd.toWithin (fun hd => ?_) (answer hd _)
  exact name hd.toWithin fun hd => answer hd _

theorem someItems :
    Careful .someItems o (Plan.commas (call .importItem ()) (call .someItems ())) o :=
  commas (.refl h) trivial (by decide) rfl fun hd => askNext hd trivial fun hd => answer hd _

theorem importList : Careful .importList o Plan.importList o := by
  refine eats (.refl h) (fun hd => listed (q := .someItems) hd trivial fun hd => ?_) nofun
  exact mark hd.toWithin fun hd => word hd.toWithin fun hd => answer hd _

theorem importStatement (hk : o.kind = .word .importWord) :
    Careful .importStatement o Plan.importStatement o := by
  refine here fun start => step (.refl h) hk nofun fun hd => askNext hd trivial fun hd => ?_
  refine string hd.toWithin fun hd => mark hd.toWithin fun hd => ?_
  exact spanned hd start

theorem showStatement (hk : o.kind = .word .showWord) :
    Careful .showStatement o Plan.showStatement o := by
  refine here fun start => step (.refl h) hk nofun fun hd => mark hd.toWithin fun hd => ?_
  refine askNext hd trivial fun hd => mark hd.toWithin fun hd => mark hd.toWithin fun hd => ?_
  exact spanned hd start

theorem returnStatement (hk : o.kind = .word .returnWord) :
    Careful .returnStatement o Plan.returnStatement o := by
  refine here fun start => step (.refl h) hk nofun fun hd => askNext hd trivial fun hd => ?_
  exact mark hd.toWithin fun hd => spanned hd start

theorem expressionStatement : Careful .expressionStatement o Plan.expressionStatement o := by
  refine askFirst (.refl h) trivial (by decide) rfl fun hd => mark hd.toWithin fun hd => ?_
  exact spanned hd _

/-! ### Statements and declarations -/

theorem declaration : Careful .declaration o Plan.declaration o := by
  have hin := Cursor.Within.refl h
  refine kind fun k hk => ?_
  split
  · exact tailFirst hin hk (by decide) fun _ => rfl
  · exact here fun start => step hin hk nofun fun hd => tailNext hd trivial
  · exact tailFirst hin hk (by decide) fun _ => rfl
  · split
    · show Careful .declaration o (if Reader.startsFunction o = true then _ else _) o
      split
      · exact here fun start => askFirst hin trivial (by decide) rfl fun hd => tailNext hd trivial
      · exact tailFirst hin trivial (by decide) fun _ => rfl
    · exact tailFirst hin trivial (by decide) fun _ => rfl

theorem function (start : Span) (returns? : Option TypeRef) :
    Careful .function o (Plan.function start returns?) o := by
  refine name (.refl h) fun hd => askNext hd trivial fun hd => askNext hd trivial fun hd => ?_
  exact spanned hd start

theorem block : Careful .block o Plan.block o := by
  refine here fun start => mark (.refl h) fun hd => askNext hd trivial fun hd => ?_
  exact mark hd.toWithin fun hd => spanned hd start

theorem declarations : Careful .declarations o Plan.declarations o := by
  refine kind fun k _ => kind fun k' _ => ?_
  split
  · exact nofun
  · refine askFirst (.refl h) trivial (by decide) rfl fun hd => ?_
    exact askNext hd trivial fun hd => answer hd _

theorem statement : Careful .statement o Plan.statement o := by
  have hin := Cursor.Within.refl h
  refine kind fun k hk => ?_
  split
  case h_1 =>
    refine here fun start => step hin hk nofun fun hd => askNext hd trivial fun hd => ?_
    refine askNext hd trivial fun hd => eatsWord hd.toWithin (fun hd => ?_) ?_
    · exact askNext hd trivial fun hd => spanned hd start
    · exact spanned hd start
  case h_2 =>
    refine here fun start => step hin hk nofun fun hd => askNext hd trivial fun hd => ?_
    exact askNext hd trivial fun hd => spanned hd start
  case h_3 =>
    refine here fun start => step hin hk nofun fun hd => mark hd.toWithin fun hd => ?_
    refine name hd.toWithin fun hd => word hd.toWithin fun hd => word hd.toWithin fun hd => ?_
    refine mark hd.toWithin fun hd => askNext hd trivial fun hd => mark hd.toWithin fun hd => ?_
    refine askNext hd trivial fun hd => mark hd.toWithin fun hd => mark hd.toWithin fun hd => ?_
    exact askNext hd trivial fun hd => spanned hd start
  case h_4 => exact tailFirst hin hk (by decide) fun _ => rfl
  case h_5 => exact tailFirst hin hk (by decide) fun _ => rfl
  case h_6 => exact askFirst hin trivial (by decide) rfl fun hd => answer hd _
  case h_7 => exact tailFirst hin trivial (by decide) fun _ => rfl

theorem topLevel : Careful .topLevel o Plan.topLevel o := by
  refine kind fun k _ => ?_
  split
  · exact nofun
  · refine askFirst (.refl h) trivial (by decide) rfl fun hd => ?_
    exact askNext hd trivial fun hd => answer hd _

theorem program : Careful .program o Plan.program o := by
  refine here fun start => ask (.refl h) trivial (.inl (by decide)) fun _ _ => ?_
  split
  · exact nofun
  · exact nofun

end Procedures

end Careful

end Plan

/-- Every procedure is careful from where it may be called. -/
theorem Procedure.careful {o : Cursor} (h : o.Stops) :
    ∀ (p : Procedure) (input : p.Input), p.Opens o.kind → (p.plan input).Careful p o o
  | program, _, _ => .program h
  | topLevel, _, _ => .topLevel h
  | declaration, _, _ => .declaration h
  | function, (start, returns?), _ => .function h start returns?
  | block, _, _ => .block h
  | declarations, _, _ => .declarations h
  | statement, _, _ => .statement h
  | variableDeclaration, _, _ => .variableDeclaration h
  | renameStatement, _, hopens => .renameStatement h hopens
  | importStatement, _, hopens => .importStatement h hopens
  | importList, _, _ => .importList h
  | someItems, _, _ => .someItems h
  | importItem, _, _ => .importItem h
  | showStatement, _, hopens => .showStatement h hopens
  | returnStatement, _, hopens => .returnStatement h hopens
  | expressionStatement, _, _ => .expressionStatement h
  | type, _, _ => .type h
  | params, _, _ => .params h
  | someParams, _, _ => .someParams h
  | param, _, _ => .param h
  | initial, _, _ => .initial h
  | condition, _, _ => .condition h
  | expression, _, _ => .expression h
  | layer level, _, _ => .layer h level
  | chain level, left, _ => .chain h level left
  | operand, _, _ => .operand h
  | primary, _, _ => .primary h
  | separated, close, _ => .separated h close
  | several, _, _ => .several h

/-! ### What careful plans come to -/

namespace Plan

variable {α : Type} {p : Procedure} {o c d : Cursor} {plan plan' : Plan α}

/-- A careful plan answers further on, if what it calls does. -/
theorem Careful.covers {callees : Callees} {a : α} (h : plan.Careful p o c) (hc : o.Within c)
    (hcallees : ∀ q input {c a d}, c.Stops → q.Opens c.kind →
      (callees q input).run c = .ok (a, d) → q.Covers c d)
    (hrun : (plan.run callees).run c = .ok (a, d)) : p.Covers o d := by
  induction plan generalizing c with
  | done b =>
    obtain ⟨-, rfl⟩ := Reader.run_pure_ok.1 hrun
    exact ⟨hc, h⟩
  | unexpected e => cases hrun
  | target span => cases hrun
  | look next ih => exact ih c h hc hrun
  | advance next ih => exact ih h.2 (hc.advance h.1).toWithin hrun
  | ask q input next ih =>
    obtain ⟨b, e, hcall, hrest⟩ := Reader.run_bind_ok.1 hrun
    have hcovers := hcallees q input hc.stops h.1 hcall
    exact ih b (h.2.2 b e hcovers) (hc.trans hcovers.within) hrest

end Plan

/-- Every reader answers in front of the end of file, and behind a token if its phrase has one. -/
theorem Procedure.covers_of_answers {p : Procedure} {input : p.Input} {c d : Cursor} {a : p.Result}
    (hc : c.Stops) (hopens : p.Opens c.kind) (h : p.Answers input c a d) : p.Covers c d := by
  obtain ⟨bound, h⟩ := h
  refine read_induction
    (P := fun _ p _ reader => ∀ {c a d}, c.Stops → p.Opens c.kind →
      reader.run c = .ok (a, d) → p.Covers c d)
    ?zero ?weaken ?follow .endless ?refused bound p input hc hopens h
  case zero => exact fun _ _ _ _ _ _ _ h => absurd h Reader.not_run_endless
  case refused => exact fun _ _ _ _ _ _ _ _ h => absurd h Reader.not_run_endless
  case weaken => exact id
  case follow =>
    exact fun _ ih p input _ _ _ hc hopens hrun =>
      (careful hc p input hopens).covers (.refl hc) ih hrun

namespace Plan

variable {α : Type} {p : Procedure} {o c d : Cursor} {plan plan' : Plan α}

/-- A careful plan stays careful, and in front of the end of file. -/
theorem Careful.reaches (h : plan.Careful p o c) (hc : o.Within c)
    (hreach : plan.Reaches c plan' d) : plan'.Careful p o d ∧ o.Within d := by
  induction hreach with
  | refl plan c => exact ⟨h, hc⟩
  | look _ ih => exact ih h hc
  | advance _ ih => exact ih h.2 (hc.advance h.1).toWithin
  | ask hanswers _ ih =>
    have hcovers := Procedure.covers_of_answers hc.stops h.1 hanswers
    exact ih (h.2.2 _ _ hcovers) (hc.trans hcovers.within)

end Plan

/-! ### Open calls -/

namespace Call

/-- A call that may be made. -/
structure Sound (x : Call) : Prop where
  stops : x.cursor.Stops
  opens : x.procedure.Opens x.cursor.kind

variable {x y : Call} {stack : List Call}

theorem Sound.careful (h : x.Sound) : x.plan.Careful x.procedure x.cursor x.cursor :=
  x.procedure.careful h.stops x.input h.opens

/-- A call makes sound calls, of less rank or behind a token. -/
theorem Sound.asks (h : x.Sound) (hxy : x.Asks y) :
    y.Sound ∧ x.cursor.Within y.cursor ∧
      (y.procedure.rank < x.procedure.rank ∨ x.cursor.Beyond y.cursor) := by
  obtain ⟨next, hreach⟩ := hxy
  obtain ⟨⟨hopens, hrank, -⟩, hwithin⟩ := h.careful.reaches (.refl h.stops) hreach
  exact ⟨⟨hwithin.stops, hopens⟩, hwithin, hrank⟩

/-- How many calls may be open below a call. A token counts for more than any rank, so the weight
goes down from a call to what it calls, whether a token has been consumed or not. -/
def weight (x : Call) : Nat := 13 * x.cursor.size + x.procedure.rank

theorem Sound.weight_lt (h : x.Sound) (hxy : x.Asks y) : y.weight < x.weight := by
  obtain ⟨-, hwithin, hrank | hbeyond⟩ := h.asks hxy
  · have hle := hwithin.size_le
    unfold weight
    omega
  · have hlt := hbeyond.consumed
    have hle := y.procedure.rank_le
    unfold weight
    omega

theorem Sound.length_le (h : x.Sound) (hstack : (x :: stack).IsChain Asks) :
    stack.length ≤ x.weight := by
  induction stack generalizing x with
  | nil => exact Nat.zero_le _
  | cons y stack ih =>
    obtain ⟨hxy, hrest⟩ := List.isChain_cons_cons.1 hstack
    exact Nat.lt_of_le_of_lt (ih (h.asks hxy).1 hrest) (h.weight_lt hxy)

/-- The open calls below a sound one are sound and in front of the end of file. -/
theorem Sound.below (h : x.Sound) (hxy : Relation.ReflTransGen Asks x y) :
    y.Sound ∧ x.cursor.Within y.cursor := by
  induction hxy with
  | refl => exact ⟨h, .refl h.stops⟩
  | tail _ hstep ih =>
    obtain ⟨hsound, hwithin⟩ := ih
    obtain ⟨hsound', hwithin', -⟩ := hsound.asks hstep
    exact ⟨hsound', hwithin.trans hwithin'⟩

theorem Sound.weight_lt_of_transGen (h : x.Sound) (hxy : Relation.TransGen Asks x y) :
    y.weight < x.weight := by
  induction hxy with
  | single hstep => exact h.weight_lt hstep
  | tail hxz hstep ih =>
    exact Nat.lt_trans ((h.below hxz.to_reflTransGen).1.weight_lt hstep) ih

/-- Before a procedure is called again below itself, a token is consumed. -/
theorem Sound.size_lt (h : x.Sound) (hxy : Relation.TransGen Asks x y)
    (hsame : x.procedure = y.procedure) : y.cursor.size < x.cursor.size := by
  have hlt := h.weight_lt_of_transGen hxy
  unfold weight at hlt
  rw [hsame] at hlt
  omega

end Call

namespace Program

open Reader

variable {tokens : List Token} {bound larger : Nat}

/-- The call that reads a list of tokens. -/
def reading (tokens : List Token) : Call := ⟨.program, (), .ofTokens tokens⟩

/-- The number of tokens in front of the first end of file. -/
def scriptLength (tokens : List Token) : Nat := (tokens.takeWhile (·.kind != .endOfFile)).length

theorem size_ofTokens (tokens : List Token) :
    (Cursor.ofTokens tokens).size = scriptLength tokens := by
  show ((tokens.map (·.kind)).takeWhile (· != Kind.endOfFile)).length = _
  rw [List.takeWhile_map, List.length_map]
  rfl

theorem sound_reading (hend : ∃ t ∈ tokens, t.kind = .endOfFile) : (reading tokens).Sound :=
  ⟨hend, trivial⟩

theorem length_le_of_reading (hend : ∃ t ∈ tokens, t.kind = .endOfFile) {stack : List Call}
    (hstack : (reading tokens :: stack).IsChain Call.Asks) :
    (reading tokens :: stack).length ≤ 13 * (scriptLength tokens + 1) := by
  have hle := (sound_reading hend).length_le hstack
  have hweight : (reading tokens).weight = 13 * scriptLength tokens + 12 :=
    congrArg (13 * · + 12) (size_ofTokens tokens)
  rw [List.length_cons]
  omega

/-- The statements of a program are the only thing it calls for. -/
theorem procedure_of_asks {y : Call} (h : (reading tokens).Asks y) : y.procedure = .topLevel := by
  obtain ⟨q, input, d⟩ := y
  obtain ⟨next, h⟩ := h
  cases h with
  | look h =>
    cases h with
    | refl => rfl
    | ask _ h =>
      change Plan.Reaches (if (_ : List Stmt).isEmpty = true then _ else _) _ _ _ at h
      split at h
      · cases h
      · cases h with
        | look h => cases h

/-- At the end of file no more statements are called for. -/
theorem not_asks_of_end {x y : Call} (hx : x.procedure = .topLevel)
    (hend : x.cursor.kind = .endOfFile) : ¬ x.Asks y := by
  rintro ⟨next, h⟩
  obtain ⟨p, input, c⟩ := x
  cases hx
  cases h with
  | look h =>
    change Plan.Reaches (if (c.kind == .endOfFile) = true then _ else _) _ _ _ at h
    rw [if_pos (beq_of_eq hend)] at h
    cases h

/-- Below the loop over the statements there is a call only if there is a token, so the tokens pay
for all of them. -/
theorem length_le_of_loop (hend : ∃ t ∈ tokens, t.kind = .endOfFile) {loop : Call}
    {stack : List Call} (hstack : (reading tokens :: loop :: stack).IsChain Call.Asks) :
    stack.length ≤ 24 * scriptLength tokens := by
  obtain ⟨hasks, hbelow⟩ := List.isChain_cons_cons.1 hstack
  cases stack with
  | nil => exact Nat.zero_le _
  | cons y stack =>
    have hpos : scriptLength tokens ≠ 0 := by
      intro hzero
      obtain ⟨hsound, hwithin, -⟩ := (sound_reading hend).asks hasks
      have hsize : loop.cursor.size = 0 :=
        Nat.le_zero.1 (hwithin.size_le.trans_eq ((size_ofTokens tokens).trans hzero))
      exact not_asks_of_end (procedure_of_asks hasks) (hsound.stops.kind_of_size hsize)
        (List.isChain_cons_cons.1 hbelow).1
    have hle := length_le_of_reading hend hstack
    simp only [List.length_cons] at hle ⊢
    omega

/-- Thirteen calls for each token up to the end of file are enough. -/
theorem not_endless_of_le (hend : ∃ t ∈ tokens, t.kind = .endOfFile)
    (h : 13 * (scriptLength tokens + 1) ≤ bound) :
    (program bound).run (.ofTokens tokens) ≠ .error .endless := by
  intro hrun
  obtain ⟨stack, hstack, hle⟩ := Call.exists_open_of_endless (x := reading tokens) hrun
  have hlength := length_le_of_reading hend hstack
  rw [List.length_cons] at hlength
  omega

/-- More calls than enough do not change what is read. -/
theorem run_larger (hend : ∃ t ∈ tokens, t.kind = .endOfFile) (h : bound ≤ larger)
    (hrun : (program bound).run (.ofTokens tokens) ≠ .error .endless) :
    (program larger).run (.ofTokens tokens) = (program bound).run (.ofTokens tokens) := by
  have hne : tokens ≠ [] := hend.elim fun _ ht => List.ne_nil_of_mem ht.1
  -- Nothing but the bounds makes the two readings differ.
  obtain ⟨last, hlast⟩ : ∃ last, Cursor.ofTokens tokens = .start tokens last := ⟨_, rfl⟩
  have hecho := echoes_start ⟨[], [], last, last⟩ h hne
  rw [List.append_nil, ← hlast] at hecho
  obtain ⟨_, _, _, hx, hy⟩ | ⟨_, _, _, -, hx, hy⟩ | ⟨_, hx, hy⟩ := hecho.of_end hend hrun <;>
    exact hy.trans hx.symm

/-- The statements of a program are read up to an end of file. -/
theorem kind_of_topLevel {c d : Cursor} {body : List Stmt}
    (h : (topLevel bound).run c = .ok (body, d)) : d.kind = .endOfFile := by
  induction bound generalizing c body with
  | zero => exact absurd h not_run_endless
  | succ bound ih =>
    rw [topLevel, run_bind_of_ok (run_kind c)] at h
    split at h
    · rename_i hk
      obtain ⟨-, rfl⟩ := run_pure_ok.1 h
      exact eq_of_beq hk
    · obtain ⟨first, c₁, -, h⟩ := run_bind_ok.1 h
      obtain ⟨others, c₂, hothers, h⟩ := run_bind_ok.1 h
      obtain ⟨-, rfl⟩ := run_pure_ok.1 h
      exact ih hothers

theorem kind_of_program {c d : Cursor} {p : Program}
    (h : (program bound).run c = .ok (p, d)) : d.kind = .endOfFile := by
  rw [program, run_bind_of_ok (run_here c)] at h
  obtain ⟨body, c₁, hbody, h⟩ := run_bind_ok.1 h
  have hd : d = c₁ := by
    split at h
    · exact (run_pure_ok.1 h).2
    · cases h
      rfl
  rw [hd]
  exact kind_of_topLevel hbody

/-- The first end of file in front of a place where one stands is that one. -/
theorem rest_eq_dropWhile {d : Cursor} (h : Remain tokens d.rest) (hk : d.kind = .endOfFile) :
    d.rest = tokens.dropWhile (·.kind != .endOfFile) := by
  obtain ⟨hne, ws, rfl, hws⟩ := h
  obtain ⟨t, rest, hrest⟩ := List.exists_cons_of_ne_nil hne
  have ht : t.kind = .endOfFile := by
    rwa [Cursor.kind, Cursor.token, hrest] at hk
  have hpassed : ∀ w ∈ ws, (w.kind != .endOfFile) = true := by simpa using hws
  rw [hrest, List.dropWhile_append_of_pos hpassed, List.dropWhile_cons_of_neg (by simp [ht])]

theorem enough_le_callBound (tokens : List Token) :
    13 * (scriptLength tokens + 1) ≤ callBound tokens := by
  have hle : scriptLength tokens ≤ tokens.length := (List.takeWhile_prefix _).length_le
  rw [callBound]
  omega

/-- How the reading of a list of tokens comes to an end. -/
structure Terminates (tokens : List Token) : Prop where
  /-- The parser answers, or refuses a token or a target. -/
  settled : ofTokens tokens ≠ .error .endless
  /-- Thirteen calls for each token up to the first end of file are enough, and more change
  nothing. -/
  enough : ∀ bound, 13 * (scriptLength tokens + 1) ≤ bound →
    (program bound).run (.ofTokens tokens) = (program (callBound tokens)).run (.ofTokens tokens)
  /-- No more calls are ever open, one below the other. -/
  shallow : ∀ stack, (reading tokens :: stack).IsChain Call.Asks →
    (reading tokens :: stack).length ≤ 13 * (scriptLength tokens + 1)
  /-- Below the loop over its statements, no more calls are ever open than a fixed multiple of the
  tokens in front of the first end of file. -/
  nested : ∀ loop stack, (reading tokens :: loop :: stack).IsChain Call.Asks →
    stack.length ≤ 24 * scriptLength tokens
  /-- A bound on calls is too small only where more calls are open. -/
  needed : ∀ bound, (program bound).run (.ofTokens tokens) = .error .endless →
    ∃ stack, (reading tokens :: stack).IsChain Call.Asks ∧
      bound < (reading tokens :: stack).length
  /-- Between two open calls of one procedure, as between two rounds of a loop, a token is
  consumed. -/
  progress : ∀ x y, Relation.ReflTransGen Call.Asks (reading tokens) x →
    Relation.TransGen Call.Asks x y → x.procedure = y.procedure →
      y.cursor.rest.length < x.cursor.rest.length
  /-- Wherever an open call stands, the first end of file has not been consumed. -/
  inside : ∀ x, Relation.ReflTransGen Call.Asks (reading tokens) x →
    ∀ plan d, x.plan.Reaches x.cursor plan d → Remain tokens d.rest
  /-- What is refused, an open call refuses where it stands. -/
  refused : ∀ r, ofTokens tokens = .error r →
    ∃ x, Relation.ReflTransGen Call.Asks (reading tokens) x ∧
      ∃ plan d, x.plan.Reaches x.cursor plan d ∧ plan.Refuses d r
  /-- A program is read exactly up to the first end of file. -/
  ended : ∀ p d, (program (callBound tokens)).run (.ofTokens tokens) = .ok (p, d) →
    d.rest = tokens.dropWhile (·.kind != .endOfFile)

/-- **The parser terminates and stays in front of the end of file.** All it needs is that there is
one among the tokens, as there is among those of a source. -/
theorem terminates_of_end (hend : ∃ t ∈ tokens, t.kind = .endOfFile) : Terminates tokens where
  settled h := not_endless_of_le hend (enough_le_callBound tokens) (ofTokens_eq_error.1 h)
  enough bound h := by
    have hrun := not_endless_of_le hend (Nat.le_refl _)
    rw [run_larger hend h hrun, run_larger hend (enough_le_callBound tokens) hrun]
  shallow stack hstack := length_le_of_reading hend hstack
  nested loop stack hstack := length_le_of_loop hend hstack
  needed bound h := by
    obtain ⟨stack, hstack, hle⟩ := Call.exists_open_of_endless (x := reading tokens) h
    exact ⟨stack, hstack, Nat.lt_succ_of_le hle⟩
  progress x y hx hxy hsame := by
    have hsound := ((sound_reading hend).below hx).1
    have hlt := hsound.size_lt hxy hsame
    have hadd := (hsound.below hxy.to_reflTransGen).2.size_add
    omega
  inside x hx plan d hreach := by
    obtain ⟨hsound, hwithin⟩ := (sound_reading hend).below hx
    have hinside := (hsound.careful.reaches (.refl hsound.stops) hreach).2
    exact (hwithin.trans hinside).remain
  refused r h := by
    have hrun := ofTokens_eq_error.1 h
    refine Call.exists_refusing (x := reading tokens) hrun ?_
    rintro rfl
    exact not_endless_of_le hend (enough_le_callBound tokens) hrun
  ended p d h := by
    have hsound := sound_reading hend
    have hanswers : Procedure.program.Answers () (.ofTokens tokens) p d := ⟨_, h⟩
    have hcovers := Procedure.covers_of_answers hsound.stops hsound.opens hanswers
    exact rest_eq_dropWhile hcovers.within.remain (kind_of_program h)

/-- The tokens of `f(true);`, and one more behind the end of file. -/
def overlong : List Token :=
  [.name "f", .mark .leftParen, .word .trueWord, .mark .rightParen, .mark .semicolon, .endOfFile,
    .mark .rightBrace].map (⟨·, .nowhere⟩)

theorem terminates_of_end_overlong :
    ∃ p d, (program (callBound overlong)).run (.ofTokens overlong) = .ok (p, d) ∧
      d.rest = overlong.drop 5 ∧ Terminates overlong := by
  have hend : ∃ t ∈ overlong, t.kind = .endOfFile := ⟨.stop, by simp [overlong, Token.stop], rfl⟩
  have hterminates := terminates_of_end hend
  have hread : ∃ p d, (program (callBound overlong)).run (.ofTokens overlong) = .ok (p, d) :=
    ⟨_, _, rfl⟩
  obtain ⟨p, d, hrun⟩ := hread
  exact ⟨p, d, hrun, hterminates.ended p d hrun, hterminates⟩

end Program

end Playscript

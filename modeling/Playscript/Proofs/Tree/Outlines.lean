/-
# Outlines of trees

An outline keeps of a tree where its nodes stand. Names and literals are leaves
and stand for a token each; any other node has a span and the nodes right below
it, in the order of the text. An outline is nested if no span is the wrong way
round, the nodes below a node lie within its span, and each of them stops
before the next one starts (`Outline.Nested`).

Outlines are drawn from tokens that stand in a row: neighbours are drawn from
neighbouring rows (`Drawn.append`), and a node is put over them by merging two
spans from the same row (`Drawn.wrap`).

Key definitions: `Outline.Nested`, `Outline.leaves`, `Program.outline`, `Drawn`.
Key theorems: `Drawn.append`, `Drawn.wrap`, `Drawn.enclose`.
-/
import Playscript.Tree.Basic
import Playscript.Proofs.Token.Spans

namespace Playscript

/-! ### Outlines -/

/-- Where the nodes of a tree stand. -/
inductive Outline where
  /-- A name or a literal, as the token it stands for. -/
  | leaf (token : Token)
  /-- A node and what is right below it. -/
  | node (span : Span) (below : List Outline)

namespace Outline

/-- Where the uppermost node stands. -/
def span : Outline → Span
  | leaf t => t.span
  | node s _ => s

mutual

/-- The names and literals, in order. -/
def leaves : Outline → List Token
  | leaf t => [t]
  | node _ below => leavesOfAll below

/-- Those of several outlines. -/
def leavesOfAll : List Outline → List Token
  | [] => []
  | o :: os => o.leaves ++ leavesOfAll os

end

theorem leavesOfAll_append (os ps : List Outline) :
    leavesOfAll (os ++ ps) = leavesOfAll os ++ leavesOfAll ps := by
  induction os with
  | nil => rfl
  | cons o os ih => rw [List.cons_append, leavesOfAll, leavesOfAll, ih, List.append_assoc]

/-- Every node lies around those below it, and these stand in a row. -/
inductive Nested : Outline → Prop
  | leaf {t : Token} (forward : t.span.start ≤ t.span.stop) : Nested (leaf t)
  | node {s : Span} {below : List Outline} (forward : s.start ≤ s.stop)
      (within : ∀ o ∈ below, o.span.Within s)
      (row : below.Pairwise fun o p => o.span.stop < p.span.start)
      (nested : ∀ o ∈ below, o.Nested) : Nested (node s below)

theorem Nested.forward {o : Outline} (h : o.Nested) : o.span.start ≤ o.span.stop := by
  cases h with
  | leaf forward => exact forward
  | node forward => exact forward

end Outline

/-! ### The outline of a program -/

def Ident.outline (i : Ident) : Outline := .leaf ⟨.name i.name, i.span⟩

def TypeRef.outline (t : TypeRef) : Outline := .node t.span []

mutual

/-- The outline of an expression. -/
def Expr.outline : Expr → Outline
  | .number s x => .leaf ⟨.number x, s⟩
  | .string s text => .leaf ⟨.string text, s⟩
  | .bool s true => .leaf ⟨.word .trueWord, s⟩
  | .bool s false => .leaf ⟨.word .falseWord, s⟩
  | .array s items => .node s (Expr.outlines items)
  | .name s n => .leaf ⟨.name n, s⟩
  | .index s items position => .node s [items.outline, position.outline]
  | .call s callee arguments => .node s (callee.outline :: Expr.outlines arguments)
  | .assign s target value => .node s [target.outline, value.outline]
  | .binary s _ left right => .node s [left.outline, right.outline]
  | .negate s operand => .node s [operand.outline]

/-- The outlines of several expressions. -/
def Expr.outlines : List Expr → List Outline
  | [] => []
  | e :: es => e.outline :: Expr.outlines es

end

theorem Expr.outlines_eq_map (es : List Expr) : Expr.outlines es = es.map Expr.outline := by
  induction es with
  | nil => rfl
  | cons e es ih => rw [Expr.outlines, ih, List.map_cons]

theorem Expr.span_outline (e : Expr) : e.outline.span = e.span := by
  cases e with
  | bool s b => cases b <;> rfl
  | _ => rfl

/-- The outline of an expression that may be there. -/
def Expr.outline? (e? : Option Expr) : List Outline := e?.toList.map Expr.outline

def Param.outline (p : Param) : Outline :=
  .node p.span (p.type.outline :: p.name.outline :: Expr.outline? p.default?)

/-- An item has no span of its own, only its names have. -/
def ImportItem.outlines (i : ImportItem) : List Outline :=
  i.name.outline :: i.newName?.toList.map Ident.outline

mutual

/-- The outline of a statement. -/
def Stmt.outline : Stmt → Outline
  | .declare s type name value? => .node s (type.outline :: name.outline :: Expr.outline? value?)
  | .display s arguments => .node s (Expr.outlines arguments)
  | .block b => Stmt.outlineOfBlock b
  | .branch s condition yes no? =>
    .node s (condition.outline :: yes.outline :: Stmt.outlineOfElse no?)
  | .loopWhile s condition body => .node s [condition.outline, body.outline]
  | .loopRange s counter first limit body =>
    .node s [counter.outline, first.outline, limit.outline, body.outline]
  | .evaluate s e => .node s [e.outline]
  | .action s name params returns? body =>
    .node s (returns?.toList.map TypeRef.outline ++
      (name.outline :: (params.map Param.outline ++ [Stmt.outlineOfBlock body])))
  | .rename s oldName newName => .node s [oldName.outline, newName.outline]
  | .returnValues s values => .node s (Expr.outlines values)
  | .importFrom s items? _ => .node s ((items?.getD []).flatMap ImportItem.outlines)

/-- The outline of a block. -/
def Stmt.outlineOfBlock : Block Stmt → Outline
  | ⟨s, body⟩ => .node s (Stmt.outlines body)

/-- The outline of an else branch that may be there. -/
def Stmt.outlineOfElse : Option Stmt → List Outline
  | none => []
  | some s => [s.outline]

/-- The outlines of several statements. -/
def Stmt.outlines : List Stmt → List Outline
  | [] => []
  | s :: ss => s.outline :: Stmt.outlines ss

end

def Program.outline (p : Program) : Outline := .node p.span (Stmt.outlines p.body)

/-! ### Rows of tokens -/

/-- Tokens one behind the other. -/
structure InRow (ts : List Token) : Prop where
  forward : ∀ t ∈ ts, t.span.start ≤ t.span.stop
  ordered : ts.Pairwise fun t u => t.span.stop < u.span.start

variable {ts us : List Token} {t u : Token} {s : Span} {o p : Outline} {os ps : List Outline}

theorem InRow.left (h : InRow (ts ++ us)) : InRow ts :=
  ⟨fun t ht => h.forward t (List.mem_append_left us ht), (List.pairwise_append.1 h.ordered).1⟩

theorem InRow.right (h : InRow (ts ++ us)) : InRow us :=
  ⟨fun t ht => h.forward t (List.mem_append_right ts ht), (List.pairwise_append.1 h.ordered).2.1⟩

theorem InRow.lt (h : InRow (ts ++ us)) (ht : t ∈ ts) (hu : u ∈ us) :
    t.span.stop < u.span.start := (List.pairwise_append.1 h.ordered).2.2 t ht u hu

namespace Span

/-- Not the wrong way round, from one token of a list on and up to one. -/
structure Among (ts : List Token) (s : Span) : Prop where
  forward : s.start ≤ s.stop
  begun : ∃ t ∈ ts, t.span.start ≤ s.start
  ended : ∃ t ∈ ts, s.stop ≤ t.span.stop

theorem Among.mono {ts us : List Token} {s : Span} (h : s.Among ts) (hsub : ts ⊆ us) :
    s.Among us := by
  obtain ⟨t, ht, hstart⟩ := h.begun
  obtain ⟨u, hu, hstop⟩ := h.ended
  exact ⟨h.forward, ⟨t, hsub ht, hstart⟩, ⟨u, hsub hu, hstop⟩⟩

theorem Among.merge {ts : List Token} {a b : Span} (ha : a.Among ts) (hb : b.Among ts) :
    (a.merge b).Among ts := by
  obtain ⟨⟨hstart, hstop⟩, -⟩ := a.merge_covers b
  refine ⟨Place.le_trans hstart (Place.le_trans ha.forward hstop), ?_, ?_⟩
  · rw [Span.merge, Place.earlier]
    split
    · exact ha.begun
    · exact hb.begun
  · rw [Span.merge, Place.later]
    split
    · exact hb.ended
    · exact ha.ended

end Span

theorem InRow.among (h : InRow ts) (ht : t ∈ ts) : t.span.Among ts :=
  ⟨h.forward t ht, ⟨t, ht, Place.le_refl _⟩, ⟨t, ht, Place.le_refl _⟩⟩

/-- The first and the last token of a row lie around whatever else does. -/
theorem InRow.within_merge (h : InRow ts) (ht : ts.head? = some t) (hu : ts.getLast? = some u)
    (hs : s.Among ts) : s.Within (t.span.merge u.span) := by
  obtain ⟨⟨htstart, -⟩, -, hustop⟩ := Span.merge_covers t.span u.span
  obtain ⟨v, hv, hstart⟩ := hs.begun
  obtain ⟨w, hw, hstop⟩ := hs.ended
  constructor
  · obtain ⟨rest, rfl⟩ := List.head?_eq_some_iff.1 ht
    refine Place.le_trans htstart (Place.le_trans ?_ hstart)
    rcases List.mem_cons.1 hv with rfl | hv
    · exact Place.le_refl _
    · have hlt := InRow.lt (show InRow ([t] ++ rest) from h) (List.mem_singleton_self t) hv
      exact Place.le_trans (h.forward t List.mem_cons_self) (Place.le_of_lt hlt)
  · obtain ⟨front, rfl⟩ := List.getLast?_eq_some_iff.1 hu
    refine Place.le_trans hstop (Place.le_trans ?_ hustop)
    rcases List.mem_append.1 hw with hw | hw
    · have hlt := h.lt hw (List.mem_singleton_self u)
      exact Place.le_trans (Place.le_of_lt hlt) (h.forward u (by simp))
    · rw [List.mem_singleton.1 hw]
      exact Place.le_refl _

/-! ### Drawing outlines -/

/-- Nested outlines in a row, each among some tokens, and their leaves too. -/
structure Fits (ts : List Token) (os : List Outline) : Prop where
  nested : ∀ o ∈ os, o.Nested
  among : ∀ o ∈ os, o.span.Among ts
  row : os.Pairwise fun o p => o.span.stop < p.span.start
  leaves : (Outline.leavesOfAll os).Sublist ts

/-- Outlines that fit some tokens if these stand in a row. -/
def Drawn (ts : List Token) (os : List Outline) : Prop := InRow ts → Fits ts os

namespace Drawn

/-- Marks and words draw nothing. -/
theorem none (ts : List Token) : Drawn ts [] := fun _ =>
  ⟨List.forall_mem_nil _, List.forall_mem_nil _, .nil, List.nil_sublist ts⟩

theorem leaf (t : Token) : Drawn [t] [.leaf t] := by
  intro hrow
  refine ⟨?_, ?_, List.pairwise_singleton _ _, List.Sublist.refl _⟩
  · rw [List.forall_mem_singleton]
    exact .leaf (hrow.forward t (List.mem_singleton_self t))
  · rw [List.forall_mem_singleton]
    exact hrow.among (List.mem_singleton_self t)

/-- What is drawn from neighbours stands side by side. -/
theorem append (h : Drawn ts os) (h' : Drawn us ps) : Drawn (ts ++ us) (os ++ ps) := by
  intro hrow
  have hos := h hrow.left
  have hps := h' hrow.right
  refine ⟨List.forall_mem_append.2 ⟨hos.nested, hps.nested⟩,
    List.forall_mem_append.2 ⟨fun o ho => ?_, fun p hp => ?_⟩,
    List.pairwise_append.2 ⟨hos.row, hps.row, fun o ho p hp => ?_⟩, ?_⟩
  · exact (hos.among o ho).mono (List.subset_append_left ts us)
  · exact (hps.among p hp).mono (List.subset_append_right ts us)
  · obtain ⟨t, ht, hstop⟩ := (hos.among o ho).ended
    obtain ⟨u, hu, hstart⟩ := (hps.among p hp).begun
    have hlt := Place.lt_of_lt_of_le (hrow.lt ht hu) hstart
    exact Place.lt_of_le_of_lt hstop hlt
  · rw [Outline.leavesOfAll_append]
    exact hos.leaves.append hps.leaves

/-- Tokens in front that draw nothing. -/
theorem behind (ts : List Token) (h : Drawn us os) : Drawn (ts ++ us) os :=
  append (none ts) h

/-- Tokens behind that draw nothing. -/
theorem before (h : Drawn ts os) (us : List Token) : Drawn (ts ++ us) os := by
  have hboth := h.append (none us)
  rwa [List.append_nil] at hboth

/-- A node over what is drawn, from two spans among the same tokens. -/
theorem wrap {a b : Span} (h : Drawn ts os) (ha : InRow ts → a.Among ts)
    (hb : InRow ts → b.Among ts) (hos : InRow ts → ∀ o ∈ os, o.span.Within (a.merge b)) :
    Drawn ts [.node (a.merge b) os] := by
  intro hrow
  have hfits := h hrow
  have hamong := (ha hrow).merge (hb hrow)
  refine ⟨?_, ?_, List.pairwise_singleton _ _, ?_⟩
  · rw [List.forall_mem_singleton]
    exact .node hamong.forward (hos hrow) hfits.row hfits.nested
  · rw [List.forall_mem_singleton]
    exact hamong
  · rw [Outline.leavesOfAll, Outline.leavesOfAll, List.append_nil]
    exact hfits.leaves

/-- A node from the first token to the last. -/
theorem enclose (h : Drawn ts os) (ht : ts.head? = some t) (hu : ts.getLast? = some u) :
    Drawn ts [.node (t.span.merge u.span) os] :=
  h.wrap (fun hrow => hrow.among (List.mem_of_head? ht))
    (fun hrow => hrow.among (List.mem_of_getLast? hu))
    (fun hrow o ho => hrow.within_merge ht hu ((h hrow).among o ho))

/-- A node over two. -/
theorem join (h : Drawn ts [o, p]) : Drawn ts [.node (o.span.merge p.span) [o, p]] := by
  obtain ⟨hleft, hright⟩ := o.span.merge_covers p.span
  refine h.wrap (fun hrow => (h hrow).among o (by simp)) (fun hrow => (h hrow).among p (by simp)) ?_
  rintro - q hq
  rcases List.mem_pair.1 hq with rfl | rfl
  · exact hleft
  · exact hright

/-- A node over one that starts further in front. -/
theorem sign (h : Drawn ts [o]) (ht : t ∈ ts) : Drawn ts [.node (t.span.merge o.span) [o]] := by
  refine h.wrap (fun hrow => hrow.among ht) (fun hrow => (h hrow).among o (by simp)) ?_
  rintro - q hq
  rw [List.mem_singleton.1 hq]
  exact (Span.merge_covers ..).2

/-- A node over one that stops further behind. -/
theorem finish (h : Drawn ts [o]) (ht : t ∈ ts) : Drawn ts [.node (o.span.merge t.span) [o]] := by
  refine h.wrap (fun hrow => (h hrow).among o (by simp)) (fun hrow => hrow.among ht) ?_
  rintro - q hq
  rw [List.mem_singleton.1 hq]
  exact (Span.merge_covers ..).1

end Drawn

end Playscript

/-
# Redundant parentheses

A pair of parentheses is redundant in what spells a tree, if the tree is still
spelled without the pair. Leaving redundant pairs out of whatever spells a tree,
one after the other, ends in what is printed of the tree (`Script.reduces`). What
is printed has no redundant pair any more, since nothing shorter spells the tree
(`Script.printed_length_le`, `Script.printed_final`).

Key definitions: `Grammar.Sheds`, `Grammar.Reduces`, `Grammar.Frame`.
Key theorems: `Grammar.Spells.reduces`, `Grammar.Script.reduces`,
`Grammar.Script.printed_final`.
-/
import Playscript.Proofs.Tree.Printing
import Mathlib.Logic.Relation

namespace Playscript

open Token (Kind)

namespace Grammar

/-- A pair of parentheses is left out, and the rest is still as it should be. -/
def Sheds (S : List Kind → Prop) (ks ls : List Kind) : Prop :=
  S ls ∧ ∃ before inner after, ks = before ++ parens inner ++ after ∧ ls = before ++ inner ++ after

/-- Redundant pairs of parentheses are left out, one after the other. -/
def Reduces (S : List Kind → Prop) : List Kind → List Kind → Prop := Relation.ReflTransGen (Sheds S)

section Reduces

variable {S T : List Kind → Prop} {ks ls : List Kind}

theorem Sheds.length_lt (h : Sheds S ks ls) : ls.length < ks.length := by
  obtain ⟨-, before, inner, after, rfl, rfl⟩ := h
  simp only [parens, List.length_append, List.length_cons]
  omega

theorem Reduces.length_le (h : Reduces S ks ls) : ls.length ≤ ks.length := by
  induction h with
  | refl => exact Nat.le_refl _
  | tail _ hstep ih => exact Nat.le_trans (Nat.le_of_lt hstep.length_lt) ih

theorem Reduces.holds (h : Reduces S ks ls) (hks : S ks) : S ls := by
  cases h with
  | refl => exact hks
  | tail _ hstep => exact hstep.1

theorem Reduces.mono (h : Reduces S ks ls) (hST : ∀ ms, S ms → T ms) : Reduces T ks ls :=
  Relation.ReflTransGen.mono (fun _ _ hstep => ⟨hST _ hstep.1, hstep.2⟩) _ _ h

/-- A pair around everything. -/
theorem Reduces.parens (h : S ks) : Reduces S (Grammar.parens ks) ks :=
  .single ⟨h, [], ks, [], by simp, by simp⟩

/-- A place in a row of kinds. -/
def Frame (f : List Kind → List Kind) : Prop := ∃ before after, ∀ ks, f ks = before ++ ks ++ after

namespace Frame

variable {f : List Kind → List Kind}

theorem id : Frame fun ks => ks := ⟨[], [], fun ks => by simp⟩

theorem cons (h : Frame f) (k : Kind) : Frame fun ks => k :: f ks := by
  obtain ⟨before, after, hf⟩ := h
  exact ⟨k :: before, after, fun ks => congrArg (k :: ·) (hf ks)⟩

theorem append (h : Frame f) (ls : List Kind) : Frame fun ks => f ks ++ ls := by
  obtain ⟨before, after, hf⟩ := h
  exact ⟨before, after ++ ls, fun ks => by dsimp only; rw [hf, List.append_assoc]⟩

theorem prepend (h : Frame f) (ls : List Kind) : Frame fun ks => ls ++ f ks := by
  obtain ⟨before, after, hf⟩ := h
  exact ⟨ls ++ before, after, fun ks => by dsimp only; rw [hf]; simp only [List.append_assoc]⟩

theorem parens (h : Frame f) : Frame fun ks => parens (f ks) :=
  (h.append [.mark .rightParen]).cons (.mark .leftParen)

theorem brackets (h : Frame f) : Frame fun ks => brackets (f ks) :=
  (h.append [.mark .rightBracket]).cons (.mark .leftBracket)

theorem braces (h : Frame f) : Frame fun ks => braces (f ks) :=
  (h.append [.mark .rightBrace]).cons (.mark .leftBrace)

end Frame

/-- What is left out at a place is left out of the whole. -/
theorem Reduces.frame {f : List Kind → List Kind} (h : Reduces S ks ls) (hf : Frame f)
    (hST : ∀ ms, S ms → T (f ms)) : Reduces T (f ks) (f ls) := by
  obtain ⟨before, after, hf⟩ := hf
  refine Relation.ReflTransGen.lift f ?_ _ _ h
  rintro ms ns ⟨hns, front, inner, back, rfl, rfl⟩
  refine ⟨hST _ hns, before ++ front, inner, back ++ after, ?_, ?_⟩
  · rw [hf]
    simp only [List.append_assoc]
  · rw [hf]
    simp only [List.append_assoc]

/-- What is left out at two places, one after the other. -/
theorem Reduces.frame₂ {U : List Kind → Prop} {f : List Kind → List Kind → List Kind}
    {ks ks' ls ls' : List Kind} (h : Reduces S ks ks') (h' : Reduces T ls ls') (hks : S ks)
    (hls : T ls) (hf : ∀ ms, Frame (f · ms)) (hf' : ∀ ms, Frame (f ms ·))
    (hU : ∀ ms ns, S ms → T ns → U (f ms ns)) : Reduces U (f ks ls) (f ks' ls') := by
  have hfirst : Reduces U (f ks ls) (f ks' ls) := h.frame (hf ls) fun ms hms => hU ms ls hms hls
  have hsecond : Reduces U (f ks' ls) (f ks' ls') :=
    h'.frame (hf' ks') fun ms hms => hU ks' ms (h.holds hks) hms
  exact hfirst.trans hsecond

end Reduces

/-! ### Lists between commas -/

section Lists

variable {α : Type} {P : List Kind → α → Prop} {printed : α → List Kind} {ks ls : List Kind}
  {a : α} {as : List α}

theorem reduces_one (h : Reduces (P · a) ks (printed a)) :
    Reduces (Commas P · [a]) ks (commaed printed [a]) := h.mono fun _ => .one

theorem reduces_more (ha : P ks a) (has : Commas P ls as) (h : Reduces (P · a) ks (printed a))
    (hs : Reduces (Commas P · as) ls (commaed printed as)) :
    Reduces (Commas P · (a :: as)) (ks ++ .mark .comma :: ls) (commaed printed (a :: as)) := by
  have hprinted : commaed printed (a :: as) = printed a ++ .mark .comma :: commaed printed as := by
    cases has <;> rfl
  rw [hprinted]
  exact h.frame₂ hs ha has (f := fun ms ns => ms ++ .mark .comma :: ns)
    (fun _ => Frame.id.append _) (fun _ => (Frame.id.cons _).prepend _) fun _ _ => .more

/-- What is left out of each phrase is left out of all between commas. -/
theorem Listed.reduces (h : ∀ ks a, P ks a → Reduces (P · a) ks (printed a))
    (has : Listed P ks as) : Reduces (Listed P · as) ks (commaed printed as) := by
  cases has with
  | none => exact .refl
  | some has =>
    refine Reduces.mono ?_ fun _ => .some
    induction has with
    | one ha => exact reduces_one (h _ _ ha)
    | more ha has ih => exact reduces_more ha has (h _ _ ha) ih

end Lists

/-! ### Expressions -/

theorem within_of_le {e : Expr} {rank : Nat} (h : e.rank ≤ rank) (ks : List Kind) :
    e.within rank ks = ks := if_pos h

theorem within_full (e : Expr) (ks : List Kind) : e.within 5 ks = ks := within_of_le (rank_le e) ks

/-- What is printed spells an expression in every place that allows its rank. -/
theorem spells_printed_of_le {rank : Nat} {e : Expr} (he : e.bare = e) (hle : e.rank ≤ rank)
    (hr : rank ≤ 5) : Spells rank e.printed e := by
  have hspells := spells_printed e
  rw [he] at hspells
  exact hspells.le hle hr

/-- Parentheses are left out where the place allows the rank of what is inside. -/
theorem reduces_enclosed {ks : List Kind} {e : Expr} (he : e.bare = e)
    (h : Reduces (Spells 5 · e) ks (e.within 5 e.printed)) :
    Reduces (Spells 0 · e) (parens ks) (e.within 0 e.printed) := by
  rw [within_full] at h
  have hparens : Reduces (Spells 0 · e) (parens ks) (parens e.printed) :=
    h.frame Frame.id.parens fun _ => .enclosed
  rw [Expr.within]
  split
  · rename_i hle
    exact hparens.trans (Reduces.parens (spells_printed_of_le he hle (Nat.zero_le 5)))
  · exact hparens

/-- Parentheses that a looser place does not need are left out. -/
theorem reduces_looser {rank : Nat} {ks : List Kind} {e : Expr} (hr : rank < 5) (he : e.bare = e)
    (h : Reduces (Spells rank · e) ks (e.within rank e.printed)) :
    Reduces (Spells (rank + 1) · e) ks (e.within (rank + 1) e.printed) := by
  have hmono : Reduces (Spells (rank + 1) · e) ks (e.within rank e.printed) :=
    h.mono fun _ => .looser hr
  by_cases hle : e.rank ≤ rank
  · rw [within_of_le hle] at hmono
    rwa [within_of_le (Nat.le_succ_of_le hle)]
  · rw [Expr.within, if_neg hle] at hmono
    rw [Expr.within]
    split
    · rename_i hle'
      exact hmono.trans (Reduces.parens (spells_printed_of_le he hle' hr))
    · exact hmono

theorem reduces_full {ks : List Kind} {e : Expr}
    (h : Reduces (Spells 5 · e) ks (e.within 5 e.printed)) :
    Reduces (Spells 5 · e) ks e.printed := by
  rwa [within_full] at h

theorem reduces_index (n : String) {ks : List Kind} {e : Expr}
    (h : Reduces (Spells 5 · e) ks (e.within 5 e.printed)) :
    Reduces (Spells 0 · (.index .nowhere ⟨n, .nowhere⟩ e)) (.name n :: brackets ks)
      (.name n :: brackets e.printed) := by
  rw [within_full] at h
  exact h.frame (Frame.id.brackets.cons _) fun _ => .index n

theorem reduces_join {rank : Nat} {op : Operator} {ks ls : List Kind} {left right : Expr}
    (hop : op.tightness = rank + 1) (hleft : Spells (rank + 1) ks left)
    (hright : Spells rank ls right)
    (h : Reduces (Spells (rank + 1) · left) ks (left.within (rank + 1) left.printed))
    (h' : Reduces (Spells rank · right) ls (right.within rank right.printed)) :
    Reduces (Spells (rank + 1) · (.binary .nowhere op left right)) (ks ++ op.kind :: ls)
      ((Expr.binary .nowhere op left right).within (rank + 1)
        (Expr.binary .nowhere op left right).printed) := by
  have hrank : (Expr.binary .nowhere op left right).rank ≤ rank + 1 := Nat.le_of_eq hop
  rw [within_of_le hrank, Expr.printed, hop, Nat.add_sub_cancel]
  exact h.frame₂ h' hleft hright (f := fun ms ns => ms ++ op.kind :: ns)
    (fun _ => Frame.id.append _) (fun _ => (Frame.id.cons _).prepend _) fun _ _ => .join hop

theorem reduces_assign {n : String} {ks ls : List Kind} {e : Expr}
    (htarget : Spells 4 ks (.name .nowhere n)) (hvalue : Spells 5 ls e)
    (h : Reduces (Spells 4 · (.name .nowhere n)) ks [.name n])
    (h' : Reduces (Spells 5 · e) ls (e.within 5 e.printed)) :
    Reduces (Spells 5 · (.assign .nowhere ⟨n, .nowhere⟩ e)) (ks ++ .mark .assign :: ls)
      (.name n :: .mark .assign :: e.printed) := by
  rw [within_full] at h'
  exact h.frame₂ h' htarget hvalue (f := fun ms ns => ms ++ .mark .assign :: ns)
    (fun _ => Frame.id.append _) (fun _ => (Frame.id.cons _).prepend _) fun _ _ => .assign

mutual

/-- What spells an expression becomes what is printed of it. -/
theorem Spells.reduces : ∀ {rank : Nat} {ks : List Kind} {e : Expr}, Spells rank ks e →
    Reduces (Spells rank · e) ks (e.within rank e.printed)
  | _, _, _, .number _ | _, _, _, .string _ | _, _, _, .bool _ | _, _, _, .name _ => .refl
  | _, _, _, .call n h =>
    (Listed.reduces_all h).frame (Frame.id.parens.cons (.name n)) fun _ => .call n
  | _, _, _, .index n h => reduces_index n (Spells.reduces h)
  | _, _, _, .array h => (Listed.reduces_all h).frame Frame.id.brackets fun _ => .array
  | _, _, _, .enclosed h => reduces_enclosed h.bare_eq (Spells.reduces h)
  | _, _, _, .negate h => (Spells.reduces h).frame (Frame.id.cons (.mark .minus)) fun _ => .negate
  | _, _, _, .looser hr h => reduces_looser hr h.bare_eq (Spells.reduces h)
  | _, _, _, .join hop h h' => reduces_join hop h h' (Spells.reduces h) (Spells.reduces h')
  | _, _, _, .assign h h' => reduces_assign h h' (Spells.reduces h) (Spells.reduces h')

theorem Commas.reduces_all : ∀ {ks : List Kind} {es : List Expr}, Commas (Spells 5) ks es →
    Reduces (Commas (Spells 5) · es) ks (commaed Expr.printed es)
  | _, _, .one h => reduces_one (reduces_full (Spells.reduces h))
  | _, _, .more h hs =>
    reduces_more h hs (reduces_full (Spells.reduces h)) (Commas.reduces_all hs)

theorem Listed.reduces_all : ∀ {ks : List Kind} {es : List Expr}, Listed (Spells 5) ks es →
    Reduces (Listed (Spells 5) · es) ks (Expr.printedAll es)
  | _, _, .none => .refl
  | _, _, .some h => by
    rw [Expr.printedAll_eq]
    exact (Commas.reduces_all h).mono fun _ => .some

end

/-! ### Statements -/

theorem Types.printed_eq {ks : List Kind} {t : TypeRef} (h : Types ks t) :
    t.type.printed = ks := by
  cases h with
  | plain => rw [TypeName.printed, ofWord_text]
  | array => rw [TypeName.printed, TypeName.printed, ofWord_text]; rfl

theorem Returns.printed_eq {ks : List Kind} {t? : Option TypeRef} (h : Returns ks t?) :
    TypeRef.printedReturns t? = ks := by
  cases h with
  | action => rfl
  | typed ht => exact ht.printed_eq

theorem Spells.reduces_full {ks : List Kind} {e : Expr} (h : Spells 5 ks e) :
    Reduces (Spells 5 · e) ks e.printed := Grammar.reduces_full h.reduces

theorem Initial.reduces {ks : List Kind} {value? : Option Expr} (h : Initial ks value?) :
    Reduces (Initial · value?) ks (Expr.printedInitial value?) := by
  cases h with
  | none => exact .refl
  | some he => exact he.reduces_full.frame (Frame.id.cons (.mark .assign)) fun _ => .some

theorem Parameter.reduces {ks : List Kind} {p : Param} (h : Parameter ks p) :
    Reduces (Parameter · p) ks p.printed := by
  cases h with
  | mk n ht hv =>
    rw [Param.printed, ht.printed_eq]
    exact hv.reduces.frame ((Frame.id.cons (.name n)).prepend _) fun _ => .mk n ht

theorem Item.reduces {ks : List Kind} {i : ImportItem} (h : Item ks i) :
    Reduces (Item · i) ks i.printed := by
  cases h <;> exact .refl

section Statements

variable {ks ls ms : List Kind} {e first limit : Expr} {dangling : Bool} {s yes no : Stmt}

theorem reduces_branch (he : Spells 5 ks e) (hs : Derives (.statement dangling) ls s)
    (ih : Reduces (Derives (.statement dangling) · s) ls s.printed) :
    Reduces (Derives (.statement true) · (.branch .nowhere e s none))
      (.word .ifWord :: (parens ks ++ ls)) (.word .ifWord :: (parens e.printed ++ s.printed)) :=
  he.reduces_full.frame₂ ih he hs (f := fun ms ns => .word .ifWord :: (parens ms ++ ns))
    (fun _ => (Frame.id.parens.append _).cons _) (fun _ => (Frame.id.prepend _).cons _)
    fun _ _ => .branch

theorem reduces_branchElse (he : Spells 5 ks e) (hyes : Derives (.statement false) ls yes)
    (hno : Derives (.statement dangling) ms no)
    (ih : Reduces (Derives (.statement false) · yes) ls yes.printed)
    (ih' : Reduces (Derives (.statement dangling) · no) ms no.printed) :
    Reduces (Derives (.statement dangling) · (.branch .nowhere e yes (some no)))
      (.word .ifWord :: (parens ks ++ (ls ++ .word .elseWord :: ms)))
      (.word .ifWord :: (parens e.printed ++ (yes.printed ++ .word .elseWord :: no.printed))) := by
  have hcondition : Reduces (Derives (.statement dangling) · (.branch .nowhere e yes (some no)))
      (.word .ifWord :: (parens ks ++ (ls ++ .word .elseWord :: ms)))
      (.word .ifWord :: (parens e.printed ++ (ls ++ .word .elseWord :: ms))) :=
    he.reduces_full.frame ((Frame.id.parens.append _).cons _) fun _ hks => .branchElse hks hyes hno
  have hbranches := ih.frame₂ ih' hyes hno
    (U := (Derives (.statement dangling) · (.branch .nowhere e yes (some no))))
    (f := fun ns os => .word .ifWord :: (parens e.printed ++ (ns ++ .word .elseWord :: os)))
    (fun _ => ((Frame.id.append _).prepend _).cons _)
    (fun _ => (((Frame.id.cons _).prepend _).prepend _).cons _)
    fun _ _ => .branchElse (he.reduces_full.holds he)
  exact hcondition.trans hbranches

theorem reduces_loopWhile (he : Spells 5 ks e) (hs : Derives (.statement dangling) ls s)
    (ih : Reduces (Derives (.statement dangling) · s) ls s.printed) :
    Reduces (Derives (.statement dangling) · (.loopWhile .nowhere e s))
      (.word .whileWord :: (parens ks ++ ls))
      (.word .whileWord :: (parens e.printed ++ s.printed)) :=
  he.reduces_full.frame₂ ih he hs (f := fun ms ns => .word .whileWord :: (parens ms ++ ns))
    (fun _ => (Frame.id.parens.append _).cons _) (fun _ => (Frame.id.prepend _).cons _)
    fun _ _ => .loopWhile

theorem reduces_loopRange (n : String) (hfirst : Spells 5 ks first) (hlimit : Spells 5 ls limit)
    (hs : Derives (.statement dangling) ms s)
    (ih : Reduces (Derives (.statement dangling) · s) ms s.printed) :
    Reduces (Derives (.statement dangling) · (.loopRange .nowhere ⟨n, .nowhere⟩ first limit s))
      (.word .forWord ::
        (parens (.name n :: .word .inWord :: .word .range :: parens (ks ++ .mark .comma :: ls))
          ++ ms))
      (.word .forWord ::
        (parens (.name n :: .word .inWord :: .word .range ::
          parens (first.printed ++ .mark .comma :: limit.printed)) ++ s.printed)) := by
  have hbody : Reduces
      (Derives (.statement dangling) · (.loopRange .nowhere ⟨n, .nowhere⟩ first limit s))
      (.word .forWord ::
        (parens (.name n :: .word .inWord :: .word .range :: parens (ks ++ .mark .comma :: ls))
          ++ ms))
      (.word .forWord ::
        (parens (.name n :: .word .inWord :: .word .range :: parens (ks ++ .mark .comma :: ls))
          ++ s.printed)) :=
    ih.frame ((Frame.id.prepend _).cons _) fun _ hms => .loopRange n hfirst hlimit hms
  have hhead {f : List Kind → List Kind} (hf : Frame f) : Frame fun ns => .word .forWord ::
      (parens (.name n :: .word .inWord :: .word .range :: parens (f ns)) ++ s.printed) :=
    ((((hf.parens.cons _).cons _).cons _).parens.append _).cons _
  have hlimits := hfirst.reduces_full.frame₂ hlimit.reduces_full hfirst hlimit
    (U := (Derives (.statement dangling) · (.loopRange .nowhere ⟨n, .nowhere⟩ first limit s)))
    (f := fun ns os => .word .forWord ::
      (parens (.name n :: .word .inWord :: .word .range :: parens (ns ++ .mark .comma :: os))
        ++ s.printed))
    (fun _ => hhead (Frame.id.append _)) (fun _ => hhead ((Frame.id.cons _).prepend _))
    fun _ _ hks hls => .loopRange n hks hls (ih.holds hs)
  exact hbody.trans hlimits

theorem reduces_function (n : String) {returns? : Option TypeRef} {params : List Param}
    {body : List Stmt} (hr : Returns ks returns?) (hps : Listed Parameter ls params)
    (hbody : Row (Derives .declaration) ms body)
    (ih : Reduces (Row (Derives .declaration) · body) ms (Stmt.printedAll body)) :
    Reduces (Derives .declaration ·
        (.action .nowhere ⟨n, .nowhere⟩ params returns? ⟨.nowhere, body⟩))
      (ks ++ .name n :: (parens ls ++ braces ms))
      (ks ++ .name n ::
        (parens (commaed Param.printed params) ++ braces (Stmt.printedAll body))) := by
  have hparams : Reduces (Listed Parameter · params) ls (commaed Param.printed params) :=
    Listed.reduces (fun _ _ h => h.reduces) hps
  exact hparams.frame₂ ih hps hbody (f := fun ns os => ks ++ .name n :: (parens ns ++ braces os))
    (fun _ => ((Frame.id.parens.append _).cons _).prepend _)
    (fun _ => ((Frame.id.braces.prepend _).cons _).prepend _)
    fun _ _ => .function n hr

end Statements

mutual

/-- What is in the grammar becomes what is printed of it. -/
theorem Derives.reduces : ∀ {role : Role} {ks : List Kind} {s : Stmt}, Derives role ks s →
    Reduces (Derives role · s) ks s.printed
  | _, _, _, .evaluate h => h.reduces_full.frame (Frame.id.append _) fun _ => .evaluate
  | _, _, _, .display h =>
    (Listed.reduces_all h).frame ((Frame.id.parens.append _).cons (.word .showWord))
      fun _ => .display
  | _, _, _, .returnValues h =>
    (Listed.reduces_all h).frame ((Frame.id.append _).cons (.word .returnWord))
      fun _ => .returnValues
  | _, _, _, .block h => (Row.reduces h).frame Frame.id.braces fun _ => .block
  | _, _, _, .branch he h => reduces_branch he h (Derives.reduces h)
  | _, _, _, .branchElse he h h' =>
    reduces_branchElse he h h' (Derives.reduces h) (Derives.reduces h')
  | _, _, _, .loopWhile he h => reduces_loopWhile he h (Derives.reduces h)
  | _, _, _, .loopRange n he he' h => reduces_loopRange n he he' h (Derives.reduces h)
  | _, _, _, .statement h => (Derives.reduces h).mono fun _ => .statement
  | _, _, _, .declare n ht hv => by
    rw [Stmt.printed, ht.printed_eq]
    exact hv.reduces.frame (((Frame.id.append _).cons (.name n)).prepend _) fun _ => .declare n ht
  | _, _, _, .function n hr hps h => by
    rw [Stmt.printed, hr.printed_eq]
    exact reduces_function n hr hps h (Row.reduces h)
  | _, _, _, .rename _ _ | _, _, _, .importAll _ => .refl
  | _, _, _, @Derives.importSome source _ items h => by
    have hitems : Reduces (Listed Item · items) _ (commaed ImportItem.printed items) :=
      Listed.reduces (fun _ _ h => h.reduces) h
    exact hitems.frame ((Frame.id.braces.append _).cons (.word .importWord))
      fun _ => .importSome source

theorem Row.reduces : ∀ {ks : List Kind} {ss : List Stmt}, Row (Derives .declaration) ks ss →
    Reduces (Row (Derives .declaration) · ss) ks (Stmt.printedAll ss)
  | _, _, .nil => .refl
  | _, _, .cons h hs =>
    (Derives.reduces h).frame₂ (Row.reduces hs) h hs (f := fun ns os => ns ++ os)
      (fun _ => Frame.id.append _) (fun _ => Frame.id.prepend _) fun _ _ => .cons

end

/-! ### Scripts -/

/-- Whatever spells a script becomes what is printed of it. -/
theorem Script.reduces {ks : List Kind} {p : Program} (h : Script ks p) :
    Reduces (Script · p) ks p.printed :=
  h.2.reduces.mono fun _ hms => ⟨h.1, hms⟩

/-- Nothing shorter than what is printed spells a script. -/
theorem Script.printed_length_le {ks : List Kind} {p : Program} (h : Script ks p) :
    p.printed.length ≤ ks.length := h.reduces.length_le

/-- What is printed has no redundant parentheses. -/
theorem Script.printed_final {ks : List Kind} {p : Program} : ¬ Sheds (Script · p) p.printed ks :=
  fun h => absurd h.length_lt (Nat.not_lt.2 h.1.printed_length_le)

end Grammar

end Playscript

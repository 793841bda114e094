/-
# A larger bound changes no answer

The bound of an evaluation only decides whether there is an answer: where an
evaluation comes to an end, the same evaluation with a larger bound comes to the
same end on the same machine (`approximates_of_le`). The proof goes along the
evaluator, one lemma for each way of putting evaluations together.

So it is told how a job ends without telling its bound (`Job.EndsWith`).

Key definitions: `Outcome.Ends`, `Eval.Approximates`, `Job.EndsWith`.
Key theorems: `Approximates.bind`, `approximates_succ`, `approximates_of_le`,
`EndsWith.unique`.
-/
import Playscript.Proofs.Trace.Visits

namespace Playscript

/-- The bound was large enough. -/
def Outcome.Ends {α : Type} : Outcome α → Prop
  | .exhausted => False
  | _ => True

namespace Eval

variable {α β : Type}

/-- Wherever the first evaluation comes to an end, the second comes to the same one. -/
def Approximates (x y : Eval α) : Prop := ∀ host held m,
  (x host held m).1.Ends → y host held m = x host held m

namespace Approximates

variable {x y z : Eval α} {k l : α → Eval β}

theorem refl (x : Eval α) : Approximates x x := fun _ _ _ _ => rfl

theorem trans (h : Approximates x y) (h' : Approximates y z) : Approximates x z := by
  intro host held m hends
  have hxy := h host held m hends
  rw [← hxy]
  exact h' host held m (hxy ▸ hends)

theorem exhausted (y : Eval α) : Approximates Eval.exhausted y := fun _ _ _ hends => hends.elim

theorem bind (hx : Approximates x y) (hk : ∀ a, Approximates (k a) (l a)) :
    Approximates (x >>= k) (y >>= l) := by
  intro host held m
  have hx := hx host held m
  show (Eval.bind x k host held m).1.Ends → Eval.bind y l host held m = Eval.bind x k host held m
  unfold Eval.bind
  generalize x host held m = r at hx
  obtain ⟨outcome, n⟩ := r
  intro hends
  cases outcome with
  | done a =>
    rw [hx trivial]
    exact hk a host held n hends
  | failed fault => rw [hx trivial]
  | exhausted => exact hends.elim

/-- The same evaluation, and the rest. -/
theorem rest (x : Eval α) (hk : ∀ a, Approximates (k a) (l a)) :
    Approximates (x >>= k) (x >>= l) := bind (refl x) hk

/-- An evaluation, and the same rest. -/
theorem first (hx : Approximates x y) (k : α → Eval β) : Approximates (x >>= k) (y >>= k) :=
  bind hx fun a => refl (k a)

theorem ite {b : Bool} {x' y' : Eval α} (hx : Approximates x y) (hy : Approximates x' y') :
    Approximates (if b then x else x') (if b then y else y') := by
  cases b
  · exact hy
  · exact hx

theorem holding (values : List Value) (hx : Approximates x y) :
    Approximates (Eval.holding values x) (Eval.holding values y) := fun host held =>
  hx host (values ++ held)

theorem claiming (span : Span) (hx : Approximates x y) :
    Approximates (Eval.claiming span x) (Eval.claiming span y) := by
  intro host held m
  have hx := hx host held m
  unfold Eval.claiming
  generalize x host held m = r at hx
  obtain ⟨outcome, n⟩ := r
  intro hends
  cases outcome with
  | exhausted => exact hends.elim
  | _ => rw [hx trivial]

theorem inScope (parent : Slot) (values : α → List Value) (hx : Approximates x y) :
    Approximates (Eval.inScope parent values x) (Eval.inScope parent values y) := by
  intro host held m
  have hx := hx host held (m.enter parent)
  unfold Eval.inScope
  dsimp only
  generalize x host held (m.enter parent) = r at hx
  obtain ⟨outcome, n⟩ := r
  intro hends
  cases outcome with
  | exhausted => exact hends.elim
  | _ => rw [hx trivial]

theorem inModule (path : String) (hx : Approximates x y) :
    Approximates (Eval.inModule path x) (Eval.inModule path y) := by
  intro host held m hends
  unfold Eval.inModule
  rw [hx host held (m.beginModule path) hends]

end Approximates

open Approximates

/-- Every job is approximated by itself with a bound less by one. -/
def Deepens (bound : Nat) : Prop := ∀ t : Job, Approximates (t.run bound) (t.run (bound + 1))

namespace Deepens

variable {bound : Nat}

theorem zero : Deepens 0 := fun t => by cases t <;> exact .exhausted _

variable (ih : Deepens bound)
include ih

theorem perform_succ (s : Stmt) :
    Approximates (Eval.perform (bound + 1) s) (Eval.perform (bound + 2) s) := by
  cases s with
  | declare _ type name value? =>
    cases value? with
    | none =>
      rw [Eval.perform, Eval.perform]
      exact .refl _
    | some e =>
      rw [Eval.perform, Eval.perform]
      exact .first (ih (.evaluate e)) _
  | display _ args =>
    rw [Eval.perform, Eval.perform]
    exact .first (ih (.showAll args)) _
  | block b =>
    rw [Eval.perform, Eval.perform]
    exact .rest _ fun m => .inScope _ _ (ih (.executeAll b.body))
  | branch _ condition yes no? =>
    rw [Eval.perform.eq_def, Eval.perform.eq_def]
    refine .bind (ih (.evaluate condition)) fun test => .ite (ih (.execute yes)) ?_
    cases no? with
    | none => exact .refl _
    | some no => exact ih (.execute no)
  | loopWhile _ condition body =>
    rw [Eval.perform, Eval.perform]
    exact ih (.whileLoop condition body)
  | loopRange _ counter first limit body =>
    rw [Eval.perform, Eval.perform]
    refine .bind (ih (.evaluateNumber "range start" first)) fun first => ?_
    refine .bind (ih (.evaluateNumber "range end" limit)) fun limit => ?_
    refine .rest _ fun m => .inScope _ _ (.rest _ fun _ => ?_)
    exact ih (.rangeLoop counter.name first limit body)
  | evaluate _ e =>
    rw [Eval.perform, Eval.perform]
    exact .first (ih (.evaluate e)) _
  | action _ name params _ body =>
    rw [Eval.perform, Eval.perform]
    exact .refl _
  | rename _ oldName newName =>
    rw [Eval.perform, Eval.perform]
    exact .refl _
  | returnValues _ es =>
    rw [Eval.perform, Eval.perform]
    exact .first (ih (.evaluateAll es)) _
  | importFrom _ items? source =>
    rw [Eval.perform, Eval.perform]
    exact .first (ih (.moduleExports source)) _

theorem executeAll_succ (ss : List Stmt) :
    Approximates (Eval.executeAll (bound + 1) ss) (Eval.executeAll (bound + 2) ss) := by
  cases ss with
  | nil =>
    rw [Eval.executeAll, Eval.executeAll]
    exact .refl _
  | cons s rest =>
    rw [Eval.executeAll, Eval.executeAll]
    refine .bind (ih (.execute s)) fun flow => ?_
    cases flow with
    | normal => exact ih (.executeAll rest)
    | returned vs => exact .refl _

theorem whileLoop_succ (condition : Expr) (body : Stmt) :
    Approximates (Eval.whileLoop (bound + 1) condition body)
      (Eval.whileLoop (bound + 2) condition body) := by
  rw [Eval.whileLoop, Eval.whileLoop]
  refine .bind (ih (.evaluate condition)) fun test => .ite ?_ (.refl _)
  refine .bind (ih (.execute body)) fun flow => ?_
  cases flow with
  | normal => exact ih (.whileLoop condition body)
  | returned vs => exact .refl _

theorem rangeLoop_succ (counter : String) (next limit : Float) (body : Stmt) :
    Approximates (Eval.rangeLoop (bound + 1) counter next limit body)
      (Eval.rangeLoop (bound + 2) counter next limit body) := by
  rw [Eval.rangeLoop, Eval.rangeLoop]
  split
  · refine .rest _ fun _ => .bind (ih (.execute body)) fun flow => ?_
    cases flow with
    | normal => exact ih (.rangeLoop counter (next + 1) limit body)
    | returned vs => exact .refl _
  · exact .refl _

theorem compute_succ (e : Expr) :
    Approximates (Eval.compute (bound + 1) e) (Eval.compute (bound + 2) e) := by
  cases e with
  | number | string | bool | name =>
    rw [Eval.compute, Eval.compute]
    exact .refl _
  | array _ es =>
    rw [Eval.compute, Eval.compute]
    exact .first (ih (.evaluateAll es)) _
  | index _ array position =>
    rw [Eval.compute, Eval.compute]
    exact .first (ih (.evaluateNumber "array index" position)) _
  | call _ callee args =>
    rw [Eval.compute, Eval.compute]
    refine .rest _ fun f => .bind (.holding [f] (ih (.evaluateAll args))) fun vs => ?_
    exact .holding [f] (ih (.call f vs))
  | assign _ target value =>
    rw [Eval.compute, Eval.compute]
    exact .first (ih (.evaluate value)) _
  | binary _ op left right =>
    rw [Eval.compute, Eval.compute]
    exact .bind (ih (.evaluate left)) fun l => .first (.holding [l] (ih (.evaluate right))) _
  | negate _ operand =>
    rw [Eval.compute, Eval.compute]
    exact .first (ih (.evaluate operand)) _

theorem evaluateAll_succ (es : List Expr) :
    Approximates (Eval.evaluateAll (bound + 1) es) (Eval.evaluateAll (bound + 2) es) := by
  cases es with
  | nil =>
    rw [Eval.evaluateAll, Eval.evaluateAll]
    exact .refl _
  | cons e rest =>
    rw [Eval.evaluateAll, Eval.evaluateAll]
    exact .bind (ih (.evaluate e)) fun v => .first (.holding [v] (ih (.evaluateAll rest))) _

theorem showAll_succ (es : List Expr) :
    Approximates (Eval.showAll (bound + 1) es) (Eval.showAll (bound + 2) es) := by
  cases es with
  | nil =>
    rw [Eval.showAll, Eval.showAll]
    exact .refl _
  | cons e rest =>
    rw [Eval.showAll, Eval.showAll]
    refine .bind (ih (.evaluate e)) fun v => .rest _ fun text => ?_
    exact .first (ih (.showAll rest)) _

theorem call_succ (f : Value) (args : List Value) :
    Approximates (Eval.call (bound + 1) f args) (Eval.call (bound + 2) f args) := by
  cases f with
  | closure c =>
    rw [Eval.call, Eval.call]
    refine .inScope _ _ (.holding _ ?_)
    refine .bind (ih (.bindParams c.name c.params args)) fun _ => ?_
    exact .first (ih (.executeAll c.body.body)) _
  | _ => exact .refl _

theorem bindParams_succ (function : String) (ps : List Param) (vs : List Value) :
    Approximates (Eval.bindParams (bound + 1) function ps vs)
      (Eval.bindParams (bound + 2) function ps vs) := by
  cases ps with
  | nil =>
    rw [Eval.bindParams, Eval.bindParams]
    exact .refl _
  | cons p ps =>
    cases vs with
    | cons v vs =>
      rw [Eval.bindParams, Eval.bindParams]
      exact .rest _ fun _ => ih (.bindParams function ps vs)
    | nil =>
      rw [Eval.bindParams, Eval.bindParams]
      cases p.default? with
      | none => exact .refl _
      | some e =>
        refine .bind (ih (.evaluate e)) fun v => .rest _ fun _ => ?_
        exact ih (.bindParams function ps [])

theorem moduleExports_succ (source : String) :
    Approximates (Eval.moduleExports (bound + 1) source)
      (Eval.moduleExports (bound + 2) source) := by
  rw [Eval.moduleExports, Eval.moduleExports]
  cases Library.moduleOf? source with
  | some name => exact .refl _
  | none =>
    refine .rest _ fun m => .rest _ fun h => ?_
    cases h.disk.canonical? (Path.join (m.directory h.settings) source) with
    | none => exact .refl _
    | some path => exact ih (.fileExports source path)

theorem fileExports_succ (source path : String) :
    Approximates (Eval.fileExports (bound + 1) source path)
      (Eval.fileExports (bound + 2) source path) := by
  rw [Eval.fileExports, Eval.fileExports]
  refine .rest _ fun reusable? => ?_
  cases reusable? with
  | some exports => exact .refl _
  | none =>
    refine .rest _ fun m => .ite (.refl _) (.rest _ fun found => ?_)
    refine .rest _ fun unchanged? => ?_
    cases unchanged? with
    | some exports => exact .refl _
    | none => exact .first (ih (.runModule path found.1)) _

theorem runModule_succ (path text : String) :
    Approximates (Eval.runModule (bound + 1) path text)
      (Eval.runModule (bound + 2) path text) := by
  rw [Eval.runModule.eq_def, Eval.runModule.eq_def]
  refine .rest _ fun program => .inModule path (.rest _ fun m => .inScope _ _ ?_)
  exact .first (ih (.executeAll program.body)) _

theorem succ : Deepens (bound + 1)
  | .execute s => by
    rw [Job.run, Job.run, Eval.execute, Eval.execute]
    exact .claiming s.span (ih (.perform s))
  | .perform s => perform_succ ih s
  | .executeAll ss => executeAll_succ ih ss
  | .whileLoop condition body => whileLoop_succ ih condition body
  | .rangeLoop counter next limit body => rangeLoop_succ ih counter next limit body
  | .evaluate e => by
    rw [Job.run, Job.run, Eval.evaluate, Eval.evaluate]
    exact .claiming e.span (ih (.compute e))
  | .compute e => compute_succ ih e
  | .evaluateNumber purpose e => by
    rw [Job.run, Job.run, Eval.evaluateNumber, Eval.evaluateNumber]
    exact .first (ih (.evaluate e)) _
  | .evaluateAll es => evaluateAll_succ ih es
  | .showAll es => showAll_succ ih es
  | .call f args => call_succ ih f args
  | .bindParams function ps vs => bindParams_succ ih function ps vs
  | .moduleExports source => moduleExports_succ ih source
  | .fileExports source path => fileExports_succ ih source path
  | .runModule path text => runModule_succ ih path text

end Deepens

theorem approximates_succ : ∀ bound, Deepens bound
  | 0 => .zero
  | bound + 1 => (approximates_succ bound).succ

/-- Whatever comes to an end with a bound comes to the same end with every larger one. -/
theorem approximates_of_le {bound bound' : Nat} (h : bound ≤ bound') (t : Job) :
    Approximates (t.run bound) (t.run bound') := by
  induction h with
  | refl => exact .refl _
  | step _ ih => exact ih.trans (approximates_succ _ t)

end Eval

/-! ### Jobs without bounds -/

namespace Job

/-- How a job ends, and the machine it leaves, if its bound is large enough. -/
def EndsWith (t : Job) (host : Host) (held : List Value) (m : Machine)
    (outcome : Outcome t.Result) (n : Machine) : Prop :=
  outcome.Ends ∧ ∃ bound, t.run bound host held m = (outcome, n)

namespace EndsWith

variable {t : Job} {host : Host} {held : List Value} {m n n' : Machine}
  {outcome outcome' : Outcome t.Result}

/-- Every larger bound will do. -/
theorem exists_least (h : t.EndsWith host held m outcome n) :
    ∃ least, ∀ bound, least ≤ bound → t.run bound host held m = (outcome, n) := by
  obtain ⟨hends, least, hrun⟩ := h
  refine ⟨least, fun bound hle => ?_⟩
  have hmore := Eval.approximates_of_le hle t host held m
  rw [hrun] at hmore
  exact hmore hends

/-- A job comes to one end only. -/
theorem unique (h : t.EndsWith host held m outcome n) (h' : t.EndsWith host held m outcome' n') :
    outcome = outcome' ∧ n = n' := by
  obtain ⟨least, hleast⟩ := h.exists_least
  obtain ⟨least', hleast'⟩ := h'.exists_least
  have hrun := hleast _ (Nat.le_max_left least least')
  rw [hleast' _ (Nat.le_max_right least least')] at hrun
  cases hrun
  exact ⟨rfl, rfl⟩

end EndsWith
end Job
end Playscript

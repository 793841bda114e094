/-
# Arguments are bound one after the other

A call of an action starts a frame of its own inside the one that the action was
made in. Its parameters are set there, each to the argument at its place or else
to its default, which is evaluated in that frame and sees what has been set before
it (`Binds`); only then the body runs. Binding stops at the first parameter that
has neither, or at a default that fails, and the body does not run.

A capsule binds all of its arguments before it runs. Where its parameters are those
of an action, and the defaults are constants, it is handed what the action's
parameters are set to (`Alike`).

Key definitions: `Binds`, `Runs`, `Alike`, `BindsArguments`, `HandsArguments`.
Key theorems: `binds_of_run`, `Binds.exists_least`, `call_iff`, `binds_missing_iff`,
`Alike.bind_iff`, `Session.binds_reached`.
-/
import Playscript.Proofs.Machine.Bounds
import Playscript.Proofs.Machine.Restoring
import Mathlib.Data.List.Forall2

namespace Playscript

open Eval

/-! ### Binding -/

/-- Parameters are set one after the other: to what the arguments are, or to a fault that stops it.
A default is evaluated where the parameters in front of it are set. -/
inductive Binds (host : Host) (held : List Value) (function : String) :
    List Param → List Value → Machine → Except Fault (List Value) → Machine → Prop where
  | nil {args : List Value} {m : Machine} : Binds host held function [] args m (.ok []) m
  | supplied {p : Param} {ps : List Param} {v : Value} {args : List Value} {m n : Machine}
      {r : Except Fault (List Value)} :
    Binds host held function ps args (m.define p.name.name v) r n →
      Binds host held function (p :: ps) (v :: args) m (r.map (v :: ·)) n
  | default {p : Param} {ps : List Param} {e : Expr} {v : Value} {m m' n : Machine}
      {r : Except Fault (List Value)} :
    p.default? = some e → (Job.evaluate e).EndsWith host held m (.done v) m' →
      Binds host held function ps [] (m'.define p.name.name v) r n →
      Binds host held function (p :: ps) [] m (r.map (v :: ·)) n
  | failing {p : Param} {ps : List Param} {e : Expr} {fault : Fault} {m n : Machine} :
    p.default? = some e → (Job.evaluate e).EndsWith host held m (.failed fault) n →
      Binds host held function (p :: ps) [] m (.error fault) n
  | missing {p : Param} {ps : List Param} {m : Machine} : p.default? = none →
    Binds host held function (p :: ps) [] m
      (.error (.raised (.missingArgument function p.name.name))) m

/-- The outcome of an evaluation that only sets names. -/
def Outcome.ofBinding : Except Fault (List Value) → Outcome Unit
  | .ok _ => .done ()
  | .error fault => .failed fault

theorem Outcome.ofBinding_map (r : Except Fault (List Value)) (f : List Value → List Value) :
    ofBinding (r.map f) = ofBinding r := by
  cases r <;> rfl

section Binding

variable {host : Host} {held : List Value} {function : String} {p : Param} {ps : List Param}
  {v : Value} {args : List Value} {m n : Machine} {bound : Nat} {r : Except Fault (List Value)}

theorem run_bindParams_supplied :
    Eval.bindParams (bound + 1) function (p :: ps) (v :: args) host held m =
      Eval.bindParams bound function ps args host held (m.define p.name.name v) := by
  rw [Eval.bindParams]
  exact bind_of_done rfl

theorem run_bindParams_default {e : Expr} {m' : Machine} (hp : p.default? = some e)
    (he : Eval.evaluate bound e host held m = (.done v, m')) :
    Eval.bindParams (bound + 1) function (p :: ps) [] host held m =
      Eval.bindParams bound function ps [] host held (m'.define p.name.name v) := by
  rw [Eval.bindParams, hp]
  exact (bind_of_done he).trans (bind_of_done rfl)

theorem run_bindParams_failing {e : Expr} {fault : Fault} (hp : p.default? = some e)
    (he : Eval.evaluate bound e host held m = (.failed fault, n)) :
    Eval.bindParams (bound + 1) function (p :: ps) [] host held m = (.failed fault, n) := by
  rw [Eval.bindParams, hp]
  exact bind_of_failed he

theorem run_bindParams_exhausted {e : Expr} (hp : p.default? = some e)
    (he : Eval.evaluate bound e host held m = (.exhausted, n)) :
    Eval.bindParams (bound + 1) function (p :: ps) [] host held m = (.exhausted, n) := by
  rw [Eval.bindParams, hp]
  exact bind_of_exhausted he

theorem run_bindParams_missing (hp : p.default? = none) :
    Eval.bindParams (bound + 1) function (p :: ps) [] host held m =
      (.failed (.raised (.missingArgument function p.name.name)), m) := by
  rw [Eval.bindParams, hp]
  rfl

/-- What the evaluator binds is bound in this way. -/
theorem binds_of_run {outcome : Outcome Unit}
    (h : Eval.bindParams bound function ps args host held m = (outcome, n)) (hends : outcome.Ends) :
    ∃ r, Binds host held function ps args m r n ∧ outcome = .ofBinding r := by
  induction bound generalizing ps args m with
  | zero =>
    cases h
    exact hends.elim
  | succ bound ih =>
    cases ps with
    | nil =>
      rw [Eval.bindParams] at h
      cases h
      exact ⟨_, .nil, rfl⟩
    | cons p ps =>
      cases args with
      | cons v args =>
        rw [run_bindParams_supplied] at h
        obtain ⟨r, hr, rfl⟩ := ih h
        exact ⟨_, .supplied hr, (Outcome.ofBinding_map r _).symm⟩
      | nil =>
        cases hp : p.default? with
        | none =>
          rw [run_bindParams_missing hp] at h
          cases h
          exact ⟨_, .missing hp, rfl⟩
        | some e =>
          rcases he : Eval.evaluate bound e host held m with ⟨v | fault | _, m'⟩
          · rw [run_bindParams_default hp he] at h
            obtain ⟨r, hr, rfl⟩ := ih h
            exact ⟨_, .default hp ⟨trivial, bound, he⟩ hr, (Outcome.ofBinding_map r _).symm⟩
          · rw [run_bindParams_failing hp he] at h
            cases h
            exact ⟨_, .failing hp ⟨trivial, bound, he⟩, rfl⟩
          · rw [run_bindParams_exhausted hp he] at h
            cases h
            exact hends.elim

/-- What is bound in this way the evaluator binds, if its bound is large enough. -/
theorem Binds.exists_least (h : Binds host held function ps args m r n) :
    ∃ least, ∀ bound, least ≤ bound →
      Eval.bindParams bound function ps args host held m = (.ofBinding r, n) := by
  have hsucc {P : Nat → Prop} {least : Nat} (hP : ∀ bound, least ≤ bound → P (bound + 1)) :
      ∀ bound, least + 1 ≤ bound → P bound := by
    rintro (_ | bound) hle
    · exact absurd hle (Nat.not_succ_le_zero _)
    · exact hP bound (Nat.le_of_succ_le_succ hle)
  induction h with
  | nil =>
    refine ⟨1, hsucc fun bound _ => ?_⟩
    rw [Eval.bindParams]
    rfl
  | supplied _ ih =>
    obtain ⟨least, hleast⟩ := ih
    refine ⟨least + 1, hsucc fun bound hle => ?_⟩
    rw [run_bindParams_supplied, hleast bound hle, Outcome.ofBinding_map]
  | default hp he _ ih =>
    obtain ⟨least, hleast⟩ := ih
    obtain ⟨least', hleast'⟩ := he.exists_least
    refine ⟨max least least' + 1, hsucc fun bound hle => ?_⟩
    have hdone := hleast' bound (Nat.le_trans (Nat.le_max_right _ _) hle)
    rw [run_bindParams_default hp hdone, hleast bound (Nat.le_trans (Nat.le_max_left _ _) hle),
      Outcome.ofBinding_map]
  | failing hp he =>
    obtain ⟨least, hleast⟩ := he.exists_least
    exact ⟨least + 1, hsucc fun bound hle => run_bindParams_failing hp (hleast bound hle)⟩
  | missing hp => exact ⟨1, hsucc fun bound _ => run_bindParams_missing hp⟩

/-! ### What is bound -/

namespace Binds

/-- Parameters are bound in one way. -/
theorem unique {n' : Machine} {r' : Except Fault (List Value)}
    (h : Binds host held function ps args m r n) (h' : Binds host held function ps args m r' n') :
    r = r' ∧ n = n' := by
  induction h generalizing r' n' with
  | nil =>
    cases h'
    exact ⟨rfl, rfl⟩
  | supplied _ ih =>
    cases h' with
    | supplied h' =>
      obtain ⟨rfl, rfl⟩ := ih h'
      exact ⟨rfl, rfl⟩
  | default hp he _ ih =>
    cases h' with
    | default hp' he' h' =>
      cases hp.symm.trans hp'
      obtain ⟨heq, rfl⟩ := he.unique he'
      cases heq
      obtain ⟨rfl, rfl⟩ := ih h'
      exact ⟨rfl, rfl⟩
    | failing hp' he' =>
      cases hp.symm.trans hp'
      cases (he.unique he').1
    | missing hp' => cases hp.symm.trans hp'
  | failing hp he =>
    cases h' with
    | default hp' he' _ =>
      cases hp.symm.trans hp'
      cases (he.unique he').1
    | failing hp' he' =>
      cases hp.symm.trans hp'
      obtain ⟨heq, rfl⟩ := he.unique he'
      cases heq
      exact ⟨rfl, rfl⟩
    | missing hp' => cases hp.symm.trans hp'
  | missing hp =>
    cases h' with
    | default hp' _ _ => cases hp.symm.trans hp'
    | failing hp' _ => cases hp.symm.trans hp'
    | missing => exact ⟨rfl, rfl⟩

/-- All of it happens in one scope. -/
theorem scope (h : Binds host held function ps args m r n) : n.current = m.current := by
  have hevaluate {e : Expr} {o : Outcome Value} {m m' : Machine}
      (he : (Job.evaluate e).EndsWith host held m o m') : m'.current = m.current := by
    obtain ⟨-, bound, hrun⟩ := he
    have hscope := (settles_visits bound (.evaluate e) host held m).scope
    rwa [hrun] at hscope
  induction h with
  | nil => rfl
  | supplied _ ih => exact ih
  | default _ he _ ih =>
    have hscope := hevaluate he
    exact ih.trans hscope
  | failing _ he => exact hevaluate he
  | missing => rfl

/-- There is a value for each parameter. -/
theorem length_eq {ws : List Value} (h : Binds host held function ps args m (.ok ws) n) :
    ws.length = ps.length := by
  generalize hr : (Except.ok ws : Except Fault (List Value)) = r at h
  induction h generalizing ws with
  | nil =>
    cases hr
    rfl
  | @supplied _ _ _ _ _ _ r _ ih | @default _ _ _ _ _ _ _ r _ _ _ ih =>
    cases r with
    | ok vs =>
      cases hr
      exact congrArg Nat.succ (ih rfl)
    | error fault => cases hr
  | failing | missing => cases hr

/-- Arguments without a parameter make no difference. -/
theorem congr {others : List Value} (h : Binds host held function ps args m r n)
    (hargs : others.take ps.length = args.take ps.length) :
    Binds host held function ps others m r n := by
  induction h generalizing others with
  | nil => exact .nil
  | @supplied p ps v args _ _ _ _ ih =>
    cases others with
    | nil => cases hargs
    | cons w others =>
      obtain ⟨rfl, hrest⟩ := List.cons.inj hargs
      exact .supplied (ih hrest)
  | default hp he _ ih =>
    obtain rfl : others = [] := (List.take_eq_nil_iff.1 hargs).resolve_left (Nat.succ_ne_zero _)
    exact .default hp he (ih rfl)
  | failing hp he =>
    obtain rfl : others = [] := (List.take_eq_nil_iff.1 hargs).resolve_left (Nat.succ_ne_zero _)
    exact .failing hp he
  | missing hp =>
    obtain rfl : others = [] := (List.take_eq_nil_iff.1 hargs).resolve_left (Nat.succ_ne_zero _)
    exact .missing hp

end Binds

/-- A failure that a default ends with is claimed. -/
theorem site?_of_evaluate {e : Expr} {fault : Fault}
    (h : (Job.evaluate e).EndsWith host held m (.failed fault) n) : fault.site?.isSome := by
  obtain ⟨-, bound, hrun⟩ := h
  cases bound with
  | zero => cases hrun
  | succ bound =>
    rw [Job.run, Eval.evaluate] at hrun
    unfold Eval.claiming at hrun
    generalize Eval.compute bound e host held m = x at hrun
    obtain ⟨outcome, k⟩ := x
    cases outcome with
    | failed inner =>
      cases hrun
      rfl
    | _ => cases hrun

/-- Binding stops for want of an argument at the first parameter that has neither an argument nor
a default, where all parameters in front of it can be set. -/
theorem binds_missing_iff {failure : Failure} :
    Binds host held function ps args m (.error (.raised failure)) n ↔
      ∃ before p after ws, ps = before ++ p :: after ∧ args.length ≤ before.length ∧
        p.default? = none ∧ failure = .missingArgument function p.name.name ∧
        Binds host held function before args m (.ok ws) n := by
  constructor
  · intro h
    generalize hr : (Except.error (Fault.raised failure) : Except Fault (List Value)) = r at h
    induction h with
    | nil => cases hr
    | @supplied p ps v args m n r _ ih =>
      cases r with
      | ok vs => cases hr
      | error fault =>
        cases hr
        obtain ⟨before, q, after, ws, rfl, hargs, hq, hfailure, hws⟩ := ih rfl
        exact ⟨p :: before, q, after, v :: ws, rfl, Nat.succ_le_succ hargs, hq, hfailure,
          .supplied hws⟩
    | @default p ps e v m m' n r hp he _ ih =>
      cases r with
      | ok vs => cases hr
      | error fault =>
        cases hr
        obtain ⟨before, q, after, ws, rfl, -, hq, hfailure, hws⟩ := ih rfl
        exact ⟨p :: before, q, after, v :: ws, rfl, Nat.zero_le _, hq, hfailure,
          .default hp he hws⟩
    | failing hp he =>
      cases hr
      cases site?_of_evaluate he
    | @missing p ps m hp =>
      cases hr
      exact ⟨[], p, ps, [], rfl, Nat.zero_le _, hp, rfl, .nil⟩
  · rintro ⟨before, p, after, ws, rfl, hargs, hp, rfl, hws⟩
    generalize hr : (Except.ok ws : Except Fault (List Value)) = r at hws
    induction hws generalizing ws with
    | nil =>
      obtain rfl := List.length_eq_zero_iff.1 (Nat.le_zero.1 hargs)
      exact .missing hp
    | @supplied _ _ _ _ _ _ r _ ih =>
      cases r with
      | ok vs => exact .supplied (ih vs (Nat.le_of_succ_le_succ hargs) rfl)
      | error fault => cases hr
    | @default _ _ _ _ _ _ _ r hq he _ ih =>
      cases r with
      | ok vs => exact .default hq he (ih vs (Nat.zero_le _) rfl)
      | error fault => cases hr
    | failing | missing => cases hr

end Binding

/-! ### Calls of actions -/

/-- The value of a call, from how its body ends. -/
def Outcome.ofBody (flow : Outcome Flow) : Outcome Value := flow.map fun f => .ofReturned f.values

/-- The body runs where all parameters are set; where binding stops the call ends with the fault. -/
inductive Runs (host : Host) (held : List Value) (body : List Stmt) :
    Except Fault (List Value) → Machine → Outcome Value → Machine → Prop where
  | body {ws : List Value} {flow : Outcome Flow} {m n : Machine} :
    (Job.executeAll body).EndsWith host held m flow n →
      Runs host held body (.ok ws) m (.ofBody flow) n
  | stopped {fault : Fault} {m : Machine} :
    Runs host held body (.error fault) m (.failed fault) m

section Calls

variable {host : Host} {held : List Value} {m n : Machine} {c : Closure} {args : List Value}
  {bound : Nat}

/-- The parameters are bound, and then the body runs. -/
def Closure.apply (c : Closure) (bound : Nat) (args : List Value) : Eval Value := do
  Eval.bindParams bound c.name c.params args
  let flow ← Eval.executeAll bound c.body.body
  return .ofReturned flow.values

/-- A call of an action is the action applied in a scope of its own. -/
theorem run_call_closure :
    Eval.call (bound + 1) (.closure c) args host held m =
      inScope c.frame (fun v => [v]) (holding (args.drop c.params.length) (c.apply bound args))
        host held m := by
  rw [Eval.call]
  rfl

theorem run_apply_done {k : Machine}
    (h : Eval.bindParams bound c.name c.params args host held m = (.done (), k)) :
    c.apply bound args host held m =
      ((Eval.executeAll bound c.body.body host held k).1.ofBody,
        (Eval.executeAll bound c.body.body host held k).2) := by
  refine (bind_of_done h).trans ?_
  rcases hrun : Eval.executeAll bound c.body.body host held k with ⟨flow | fault | _, n⟩
  · exact bind_of_done hrun
  · exact bind_of_failed hrun
  · exact bind_of_exhausted hrun

theorem Outcome.ends_ofBody {flow : Outcome Flow} : flow.ofBody.Ends ↔ flow.Ends := by
  cases flow <;> exact Iff.rfl

/-- An action that is applied binds its parameters, and runs its body if that does not stop. -/
theorem apply_iff {outcome : Outcome Value} :
    (outcome.Ends ∧ ∃ bound, c.apply bound args host held m = (outcome, n)) ↔
      ∃ r k, Binds host held c.name c.params args m r k ∧
        Runs host held c.body.body r k outcome n := by
  constructor
  · rintro ⟨hends, bound, h⟩
    rcases hbind : Eval.bindParams bound c.name c.params args host held m with ⟨_ | fault | _, k⟩
    · obtain ⟨r, hr, hok⟩ := binds_of_run hbind trivial
      rw [run_apply_done hbind] at h
      cases h
      cases r with
      | ok ws =>
        exact ⟨_, k, hr, .body ⟨Outcome.ends_ofBody.1 hends, bound, rfl⟩⟩
      | error fault => cases hok
    · obtain ⟨r, hr, hfault⟩ := binds_of_run hbind trivial
      rw [show c.apply bound args host held m = (.failed fault, k) from bind_of_failed hbind] at h
      cases h
      cases r with
      | ok ws => cases hfault
      | error fault =>
        cases hfault
        exact ⟨_, _, hr, .stopped⟩
    · rw [show c.apply bound args host held m = (.exhausted, k) from bind_of_exhausted hbind] at h
      cases h
      exact hends.elim
  · rintro ⟨r, k, hbinds, hruns⟩
    obtain ⟨least, hleast⟩ := hbinds.exists_least
    cases hruns with
    | body hbody =>
      obtain ⟨least', hleast'⟩ := hbody.exists_least
      refine ⟨Outcome.ends_ofBody.2 hbody.1, max least least', ?_⟩
      have hrun := hleast' _ (Nat.le_max_right least least')
      rw [Job.run] at hrun
      rw [run_apply_done (hleast _ (Nat.le_max_left _ _)), hrun]
    | stopped => exact ⟨trivial, least, bind_of_failed (hleast least (Nat.le_refl _))⟩

/-- A call binds and runs in a new scope, and leaves it. Arguments without a parameter are in hand
meanwhile. -/
theorem call_iff {outcome : Outcome Value} :
    (Job.call (.closure c) args).EndsWith host held m outcome n ↔
      ∃ r k l, Binds host (args.drop c.params.length ++ held) c.name c.params args
          (m.enter c.frame) r k ∧
        Runs host (args.drop c.params.length ++ held) c.body.body r k outcome l ∧
        n = l.leave host (outcome.holds (fun v => [v]) ++ held) m.current := by
  have hrun (bound : Nat) : (Job.call (.closure c) args).run (bound + 1) host held m = _ :=
    run_call_closure.trans (inScope_eq ..)
  constructor
  · rintro ⟨hends, bound, h⟩
    cases bound with
    | zero =>
      cases h
      exact hends.elim
    | succ bound =>
      rw [hrun] at h
      cases h
      obtain ⟨r, k, hbinds, hruns⟩ := apply_iff.1 ⟨hends, bound, rfl⟩
      exact ⟨r, k, _, hbinds, hruns, rfl⟩
  · rintro ⟨r, k, l, hbinds, hruns, rfl⟩
    obtain ⟨hends, bound, happly⟩ := apply_iff.2 ⟨r, k, hbinds, hruns⟩
    refine ⟨hends, bound + 1, ?_⟩
    have happly : holding (args.drop c.params.length) (c.apply bound args) host held
        (m.enter c.frame) = (outcome, l) := happly
    rw [hrun, happly]
    rfl

/-- What a call asks for is its binding and, where that is done, the body. -/
theorem call_asks {u : Visit}
    (hu : u ∈ Visit.asks ⟨bound + 1, .call (.closure c) args, host, held, m⟩) :
    u.job = .bindParams c.name c.params args ∨
      ∃ ws, Binds host (args.drop c.params.length ++ held) c.name c.params args
        (m.enter c.frame) (.ok ws) u.machine := by
  obtain hu | ⟨_, n, hbind, hu⟩ := Trace.mem_andThen.1 hu
  · rw [List.mem_singleton.1 hu]
    exact .inl rfl
  · rw [List.mem_singleton.1 hu]
    obtain ⟨r, hr, hok⟩ := binds_of_run hbind trivial
    cases r with
    | ok ws => exact .inr ⟨ws, hr⟩
    | error fault => cases hok

/-- Where a call starts makes no difference but that it comes back there. -/
theorem run_call_scope (s : Slot) :
    Eval.call bound (.closure c) args host held { m with current := s } =
      ((Eval.call bound (.closure c) args host held m).1,
        { (Eval.call bound (.closure c) args host held m).2 with current := s }) := by
  cases bound with
  | zero => rfl
  | succ bound =>
    rw [run_call_closure, run_call_closure, inScope_eq, inScope_eq]
    rfl

end Calls

/-! ### Calls of capsules -/

/-- An expression that has one value wherever it is evaluated, and changes nothing. -/
def Expr.Constant (e : Expr) (v : Value) : Prop := ∀ host held m,
  (Job.evaluate e).EndsWith host held m (.done v) m

/-- A parameter of an action and one of a capsule with the same name, and with the same constant
for a default, or with none. -/
structure Param.Alike (p : Param) (q : CapsuleParam Value) : Prop where
  name : p.name.name = q.name
  required : p.default? = none ↔ q.default? = none
  constant : ∀ e v, p.default? = some e → q.default? = some v → e.Constant v

/-- The same parameters, and constants for defaults. -/
abbrev Alike : List Param → List (CapsuleParam Value) → Prop := List.Forall₂ Param.Alike

section Capsules

variable {host : Host} {held : List Value} {name : String} {ps : List Param}
  {qs : List (CapsuleParam Value)} {args : List Value}

/-- What a capsule is handed, or what it misses, is what the parameters of an action are set to, or
what that misses. -/
theorem Alike.binds (h : Alike ps qs) (args : List Value) (m : Machine) :
    ∃ n, Binds host held name ps args m ((Capsule.bind name qs args).mapError .raised) n := by
  induction h generalizing args m with
  | nil => exact ⟨m, .nil⟩
  | @cons p q ps qs hpq _ ih =>
    cases args with
    | cons v args =>
      obtain ⟨n, hn⟩ := ih args (m.define p.name.name v)
      refine ⟨n, ?_⟩
      have hsupplied := Binds.supplied hn
      rw [Capsule.bind]
      cases hbind : Capsule.bind name qs args <;> rw [hbind] at hsupplied <;> exact hsupplied
    | nil =>
      rw [Capsule.bind]
      cases hq : q.default? with
      | none =>
        refine ⟨m, ?_⟩
        rw [← hpq.name]
        exact .missing (hpq.required.2 hq)
      | some d =>
        obtain ⟨e, hp⟩ : ∃ e, p.default? = some e := by
          rw [← Option.isSome_iff_exists, Option.isSome_iff_ne_none]
          exact fun hp => nomatch hq.symm.trans (hpq.required.1 hp)
        obtain ⟨n, hn⟩ := ih [] (m.define p.name.name d)
        refine ⟨n, ?_⟩
        have hdefault := Binds.default hp (hpq.constant e d hp hq host held m) hn
        cases hbind : Capsule.bind name qs [] <;> rw [hbind] at hdefault <;> exact hdefault

theorem Alike.bind_iff (h : Alike ps qs) {m : Machine} {r : Except Failure (List Value)} :
    Capsule.bind name qs args = r ↔
      ∃ n, Binds host held name ps args m (r.mapError .raised) n := by
  obtain ⟨n, hn⟩ : ∃ n, Binds host held name ps args m
      ((Capsule.bind name qs args).mapError .raised) n := h.binds args m
  refine ⟨fun heq => ⟨n, heq ▸ hn⟩, fun ⟨n', hn'⟩ => ?_⟩
  have heq := (hn.unique hn').1
  generalize Capsule.bind name qs args = r' at heq ⊢
  cases r' <;> cases r <;> cases heq <;> rfl

/-- A capsule is handed one value for each parameter. -/
theorem length_of_bind {ws : List Value} (h : Capsule.bind name qs args = .ok ws) :
    ws.length = qs.length := by
  induction qs generalizing args ws with
  | nil =>
    cases h
    rfl
  | cons q qs ih =>
    cases args with
    | cons v args =>
      rw [Capsule.bind] at h
      cases hbind : Capsule.bind name qs args with
      | error failure =>
        rw [hbind] at h
        cases h
      | ok vs =>
        rw [hbind] at h
        cases h
        exact congrArg Nat.succ (ih hbind)
    | nil =>
      rw [Capsule.bind] at h
      cases hq : q.default? with
      | none =>
        rw [hq] at h
        cases h
      | some d =>
        rw [hq] at h
        cases hbind : Capsule.bind name qs [] with
        | error failure =>
          rw [hbind] at h
          cases h
        | ok vs =>
          rw [hbind] at h
          cases h
          exact congrArg Nat.succ (ih hbind)

end Capsules

/-! ### All calls -/

/-- How a call of an action binds its arguments, in the scope that it starts. -/
def Closure.BindsTo (c : Closure) (host : Host) (held : List Value) (m : Machine)
    (args : List Value) : Except Fault (List Value) → Machine → Prop :=
  Binds host (args.drop c.params.length ++ held) c.name c.params args (m.enter c.frame)

/-- What the call of an action does with its arguments. -/
structure BindsArguments (host : Host) (held : List Value) (m : Machine) (c : Closure)
    (args : List Value) : Prop where
  /-- The scope that it starts is new, -/
  vacant : m.arena.frame? (m.enter c.frame).current = none
  /-- stands right inside the one the action was made in, -/
  child : (m.enter c.frame).arena.parent? (m.enter c.frame).current = some c.frame
  /-- and binds nothing yet. -/
  empty : (m.enter c.frame).arena.bindings (m.enter c.frame).current = .empty
  /-- The parameters are bound there, and the body runs where that has left the machine, in the
  same scope; or the call ends with the fault that stops it. -/
  runs : ∀ outcome n, (Job.call (.closure c) args).EndsWith host held m outcome n ↔
    ∃ r k l, c.BindsTo host held m args r k ∧
      Runs host (args.drop c.params.length ++ held) c.body.body r k outcome l ∧
      n = l.leave host (outcome.holds (fun v => [v]) ++ held) m.current
  stays : ∀ r k, c.BindsTo host held m args r k → k.current = (m.enter c.frame).current
  /-- Arguments without a parameter make no difference. -/
  extra : ∀ r k, c.BindsTo host held m args r k ↔
    Binds host (args.drop c.params.length ++ held) c.name c.params (args.take c.params.length)
      (m.enter c.frame) r k
  /-- An argument is missing for the first parameter that has neither an argument nor a default, if
  those in front of it can be set. -/
  missing : ∀ failure k, c.BindsTo host held m args (.error (.raised failure)) k ↔
    ∃ before p after ws, c.params = before ++ p :: after ∧ args.length ≤ before.length ∧
      p.default? = none ∧ failure = .missingArgument c.name p.name.name ∧
      Binds host (args.drop c.params.length ++ held) c.name before args (m.enter c.frame)
        (.ok ws) k
  /-- Where binding stops, the body is not asked for. -/
  stopped : ∀ fault k, c.BindsTo host held m args (.error fault) k → ∀ bound,
    ∀ u ∈ Visit.asks ⟨bound + 1, .call (.closure c) args, host, held, m⟩,
      u.job = .bindParams c.name c.params args
  /-- From any other scope the call does the same, and comes back there. -/
  anywhere : ∀ bound s,
    Eval.call bound (.closure c) args host held { m with current := s } =
      ((Eval.call bound (.closure c) args host held m).1,
        { (Eval.call bound (.closure c) args host held m).2 with current := s })

/-- What the call of a capsule does with its arguments. -/
structure HandsArguments (host : Host) (held : List Value) (m : Machine) (k : Capsule Value)
    (args : List Value) : Prop where
  /-- The capsule runs on what is bound; if an argument is missing it does not run. -/
  runs : ∀ bound, Eval.call (bound + 1) (.capsule k) args host held m =
    match Capsule.bind k.name k.params args with
    | .ok ws => Eval.runCapsule k ws host held m
    | .error failure => (.failed (.raised failure), m)
  /-- It is handed one value for each parameter. -/
  each : ∀ ws, Capsule.bind k.name k.params args = .ok ws → ws.length = k.params.length
  /-- The values are those that the parameters of an action are set to, -/
  handed : ∀ ps, Alike ps k.params → ∀ ws, Capsule.bind k.name k.params args = .ok ws ↔
    ∃ n, Binds host held k.name ps args m (.ok ws) n
  /-- and what is missing is the same. -/
  missing : ∀ ps, Alike ps k.params → ∀ failure,
    Capsule.bind k.name k.params args = .error failure ↔
      ∃ n, Binds host held k.name ps args m (.error (.raised failure)) n

section All

variable {host : Host} {held : List Value} {m : Machine} {args : List Value}

theorem bindsArguments (hm : m.arena.Sturdy) (c : Closure) :
    BindsArguments host held m c args where
  vacant := by
    change m.arena.frame? (m.arena.push c.frame).1 = none
    rw [Arena.push_fst]
    exact hm.ledger.frame?_next
  child := by
    change (m.arena.push c.frame).2.parent? (m.arena.push c.frame).1 = some c.frame
    rw [Arena.push_fst, hm.ledger.parent?_push, if_pos rfl]
  empty := Arena.bindings_push_self (fun _ => hm.ledger.lt_size) c.frame
  runs _ _ := call_iff
  stays _ _ h := h.scope
  extra _ _ :=
    ⟨fun h => h.congr (by rw [List.take_take, Nat.min_self]),
      fun h => h.congr (by rw [List.take_take, Nat.min_self])⟩
  missing _ _ := binds_missing_iff
  stopped fault k h bound u hu := by
    obtain hjob | ⟨ws, hok⟩ := call_asks hu
    · exact hjob
    · cases (hok.unique h).1
  anywhere _ s := run_call_scope s

theorem handsArguments (k : Capsule Value) : HandsArguments host held m k args where
  runs bound := by
    rw [Eval.call]
    cases hbind : Capsule.bind k.name k.params args with
    | ok ws => exact bind_of_done rfl
    | error failure => rfl
  each _ := length_of_bind
  handed _ hps _ := hps.bind_iff
  missing _ hps _ := hps.bind_iff

end All

namespace Session

/-- Every call binds its arguments in this way, on any machine whose arena is in order; so does
every call in a session. -/
theorem binds_reached :
    (∀ (host : Host) (held : List Value) (m : Machine) (args : List Value),
      (∀ c : Closure, m.arena.Sturdy → BindsArguments host held m c args) ∧
        ∀ k : Capsule Value, HandsArguments host held m k args) ∧
    ∀ (settings : Settings) (bound : Nat) (clock : Clock) (disk : Disk) (requests : List Request),
      ∀ v ∈ (start clock disk).visits settings true bound requests, ∀ c args,
        v.job = .call (.closure c) args → BindsArguments v.host v.held v.machine c args := by
  refine ⟨fun host held m args => ⟨fun c hm => bindsArguments hm c, handsArguments⟩, ?_⟩
  intro settings bound clock disk requests v hv c args _
  exact bindsArguments
    ((orderly_after settings bound (orderly_start clock disk) requests).2 v hv).sturdy c

/-- A parameter of any type. -/
def plainParam (name : String) (default? : Option Expr) : Param :=
  ⟨default, ⟨.named "any", default⟩, ⟨name, default⟩, default?⟩

/-- An action with two parameters that have to be given, and one between them with a default. -/
def framing : Closure :=
  { identity := 0, name := "framing", frame := Arena.root
    params := [plainParam "left" none, plainParam "body" (some (.string default "-")),
      plainParam "right" none]
    body := ⟨default, []⟩ }

/-- A capsule with the same parameters. -/
def framingCapsule : Capsule Value :=
  { name := "framing", routine := .gather
    params := [⟨"any", "left", none⟩, ⟨"any", "body", some (.string "-")⟩, ⟨"any", "right", none⟩] }

theorem alike_framing : Alike framing.params framingCapsule.params := by
  have hrequired (name : String) : (plainParam name none).Alike ⟨"any", name, none⟩ :=
    ⟨rfl, ⟨fun _ => rfl, fun _ => rfl⟩, nofun⟩
  refine .cons (hrequired "left") (.cons ⟨rfl, by decide, ?_⟩ (.cons (hrequired "right") .nil))
  rintro _ _ ⟨⟩ ⟨⟩ host held m
  exact ⟨trivial, 2, rfl⟩

/-- With one argument the default is set, and then the third is missing. -/
theorem binds_reached_framing :
    let host : Host := (start ⟨0, 0⟩ ⟨fun _ => none, fun _ => .error .missing⟩).host .standard true
    let m := Machine.start ⟨0, 0⟩
    m.arena.Sturdy ∧ BindsArguments host [] m framing [.null] ∧
      Alike framing.params framingCapsule.params ∧
      Capsule.bind "framing" framingCapsule.params [.null] =
        .error (.missingArgument "framing" "right") ∧
      ∃ n, framing.BindsTo host [] m [.null]
        (.error (.raised (.missingArgument "framing" "right"))) n := by
  intro host m
  have hm : m.arena.Sturdy := orderly_start ⟨0, 0⟩ host.disk
  have hmissing : Capsule.bind "framing" framingCapsule.params [.null] =
      .error (.missingArgument "framing" "right") := rfl
  have hcalls := binds_reached.1 host [] (m.enter framing.frame) [.null]
  exact ⟨hm, (binds_reached.1 host [] m [.null]).1 framing hm, alike_framing, hmissing,
    ((hcalls.2 framingCapsule).missing framing.params alike_framing _).1 hmissing⟩

end Session

end Playscript

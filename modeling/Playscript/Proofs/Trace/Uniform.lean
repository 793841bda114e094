/-
# Claims that hold of every evaluation in the same way

What is kept by runs of modules and by the cache as it is by everything else has
only to be shown of nodes and of what is visited (`Cord`, and `Loom` where whole jobs
and parts of them are not told apart). A claim may be
indifferent to these as well: for such a claim it is enough to say how it passes
through each way of putting evaluations together (`Uniform`). It then holds of every
job, and of the statements of every program.
Most such claims relate the machine before an evaluation to the one after it
(`Composes`); what holds of evaluations then holds of requests, which reclaim
frames besides (`Machine.Tidies`).

Key definitions: `Cord`, `Loom`, `Uniform`, `Composes`.
Key theorems: `Cord.below`, `Cord.visits`, `Uniform.visits`, `Uniform.runTop`,
`Composes.uniform`, `Composes.step`.
-/
import Playscript.Proofs.Modules.Imports
import Playscript.Proofs.Trace.Sessions

namespace Playscript

open Eval Job

/-! ### Cords -/

section Parts

variable {sets : Bool}

theorem still_reusable? (path : String) : Still sets (reusable? path) := by
  refine .bind .host fun h => ?_
  cases h.settings.policy with
  | reuse => exact .bind .machine fun _ => .pure _
  | _ => exact .pure _

theorem still_moduleText (source path : String) : Still sets (moduleText source path) := by
  refine .bind .host fun h => ?_
  cases h.disk.read path with
  | ok text => exact .pure _
  | error cause => exact .fail _

theorem still_unchanged? (path digest : String) : Still sets (unchanged? path digest) := by
  refine .bind .host fun h => .bind .machine fun m => ?_
  split <;> exact .pure _

/-- A job with no bound left is given up. -/
theorem still_run_zero (t : Job) : Still sets (t.run 0) := by
  cases t <;> exact .exhausted

end Parts

/-- A braid that is closed also under what imports of files and runs of modules do. -/
structure Cord (S T : Bool → {α : Type} → Eval α → Trace → Prop) : Prop extends Braid S T where
  inModule : ∀ {sets : Bool} {α : Type} {x : Eval α} {tr : Trace} (path : String),
    T sets x tr → T sets (Eval.inModule path x) (.inModule path tr)
  keep : ∀ path digest exports, S false (Eval.keep path digest exports) .none

namespace Cord

variable {S T : Bool → {α : Type} → Eval α → Trace → Prop} (l : Cord S T) {bound : Nat}
  {sub : Job → Trace}
include l

theorem fileExports_below (source path : String)
    (h : ∀ text, S false (Eval.runModule bound path text) (sub (.runModule path text))) :
    T false (Eval.fileExports (bound + 1) source path) (belowFile sub source path) := by
  rw [Eval.fileExports, belowFile]
  refine l.still_andThen (still_reusable? path) fun kept? => ?_
  cases kept? with
  | some exports => exact l.idle (.pure _)
  | none =>
    refine l.machine fun m => Braid.ite (l.idle (.fail _)) ?_
    refine l.still_andThen (still_moduleText source path) fun found => ?_
    obtain ⟨text, digest⟩ := found
    refine l.still_andThen (still_unchanged? path digest) fun kept? => ?_
    cases kept? with
    | some exports => exact l.idle (.pure _)
    | none =>
      dsimp only
      rw [← Trace.andThen_none (sub _)]
      refine l.andThen (h text) fun exports => ?_
      exact l.andThen_still (l.keep path digest exports) fun _ => .pure _

theorem runModule_below (path text : String)
    (h : ∀ ss, S (ss.any Stmt.declares) (Eval.executeAll bound ss) (sub (.executeAll ss))) :
    T false (Eval.runModule (bound + 1) path text)
      (Job.below bound sub (.runModule path text)) := by
  rw [Eval.runModule.eq_def]
  refine l.still_andThen (still_moduleProgram path text) fun program => l.inModule path ?_
  refine l.machine fun m => l.inScope _ _ ?_
  refine l.andThen_still (l.free (h program.body)) fun flow => ?_
  cases flow with
  | normal => exact .bind .machine fun _ => .pure _
  | returned vs => exact .fail _

/-- A job that is no node, from the jobs right below it. -/
theorem below {t : Job} (h : ∀ u : Job, S u.declares (u.run bound) (sub u))
    (hnode : t.span? = none) : T t.declares (t.run (bound + 1)) (Job.below bound sub t) := by
  cases hfile : t.opensFile with
  | false =>
    exact l.toBraid.below (fun u _ => h u) hnode hfile fun source path _ =>
      h (.fileExports source path)
  | true =>
    cases t with
    | fileExports source path =>
      exact l.fileExports_below source path fun text => h (.runModule path text)
    | runModule path text => exact l.runModule_below path text fun ss => h (.executeAll ss)
    | _ => cases hfile

/-- What holds of nodes, of other jobs and where no bound is left holds of every job. -/
theorem visits (hzero : ∀ t : Job, S t.declares (t.run 0) (Job.visits 0 t))
    (hstatement : ∀ bound s, S s.declares (perform bound s) (Job.visits bound (.perform s)) →
      S s.declares (Eval.execute (bound + 1) s) (Job.visits (bound + 1) (.execute s)))
    (hexpression : ∀ bound e, S false (compute bound e) (Job.visits bound (.compute e)) →
      S false (Eval.evaluate (bound + 1) e) (Job.visits (bound + 1) (.evaluate e)))
    (hinner : ∀ bound t, t.span? = none →
      T t.declares (t.run (bound + 1)) (Job.below bound (Job.visits bound) t) →
      S t.declares (t.run (bound + 1)) (Job.visits (bound + 1) t)) (bound : Nat) (t : Job) :
    S t.declares (t.run bound) (Job.visits bound t) := by
  induction bound generalizing t with
  | zero => exact hzero t
  | succ bound ih =>
    cases hnode : t.span? with
    | none => exact hinner bound t hnode (l.below ih hnode)
    | some span =>
      cases t with
      | execute s => exact hstatement bound s (ih (.perform s))
      | evaluate e => exact hexpression bound e (ih (.compute e))
      | _ => cases hnode

end Cord

/-! ### Looms -/

/-- What is closed also under what imports of files and runs of modules do. -/
structure Loom (P : {α : Type} → Eval α → Trace → Prop) : Prop extends Weave P where
  inModule : ∀ {α : Type} {x : Eval α} {tr : Trace} (path : String),
    P x tr → P (Eval.inModule path x) (.inModule path tr)
  keep : ∀ path digest exports, P (Eval.keep path digest exports) .none

namespace Loom

variable {P : {α : Type} → Eval α → Trace → Prop} (l : Loom P) {bound : Nat} {sub : Job → Trace}
include l

theorem cord : Cord (fun _ => P) (fun _ => P) where
  toBraid := l.toWeave.braid
  inModule := l.inModule
  keep := l.keep

/-- A job that is no node, from the jobs right below it. -/
theorem below {t : Job} (h : ∀ u : Job, P (u.run bound) (sub u)) (hnode : t.span? = none) :
    P (t.run (bound + 1)) (Job.below bound sub t) := l.cord.below h hnode

/-- What holds of nodes, of other jobs and where no bound is left holds of every job. -/
theorem visits (hzero : ∀ t : Job, P (t.run 0) (Job.visits 0 t))
    (hstatement : ∀ bound s, P (perform bound s) (Job.visits bound (.perform s)) →
      P (Eval.execute (bound + 1) s) (Job.visits (bound + 1) (.execute s)))
    (hexpression : ∀ bound e, P (compute bound e) (Job.visits bound (.compute e)) →
      P (Eval.evaluate (bound + 1) e) (Job.visits (bound + 1) (.evaluate e)))
    (hinner : ∀ bound t, t.span? = none →
      P (t.run (bound + 1)) (Job.below bound (Job.visits bound) t) →
      P (t.run (bound + 1)) (Job.visits (bound + 1) t)) (bound : Nat) (t : Job) :
    P (t.run bound) (Job.visits bound t) :=
  l.cord.visits hzero hstatement hexpression hinner bound t

end Loom

/-! ### Uniform claims -/

/-- What is closed under the ways of putting evaluations together, whatever is visited. -/
structure Uniform (P : {α : Type} → Eval α → Trace → Prop) : Prop extends Loom P where
  claiming : ∀ {α : Type} {x : Eval α} {tr : Trace} (span : Span),
    P x tr → P (Eval.claiming span x) tr
  visit : ∀ {α : Type} {x : Eval α} {tr : Trace} {bound : Nat} {t : Job},
    P x tr → P x fun host held m => ⟨bound, t, host, held, m⟩ :: tr host held m

namespace Uniform

variable {P : {α : Type} → Eval α → Trace → Prop} (u : Uniform P)
include u

/-- What is uniform holds of every job. -/
theorem visits (bound : Nat) (t : Job) : P (t.run bound) (Job.visits bound t) := by
  have hzero (t : Job) : Still true (t.run 0) := still_run_zero t
  refine u.toLoom.visits (fun t => u.visit (u.quiet (hzero t).toQuiet)) (fun bound s h => ?_)
    (fun bound e h => ?_) (fun _ _ _ h => u.visit h) bound t
  · rw [Eval.execute]
    exact u.visit (u.claiming s.span h)
  · rw [Eval.evaluate]
    exact u.visit (u.claiming e.span h)

/-- What is uniform holds of the statements of every program. -/
theorem runTop (bound : Nat) (ss : List Stmt) :
    P (Interpreter.runTop bound ss) (Interpreter.topVisits bound ss) := by
  induction ss with
  | nil => exact u.quiet (.pure ())
  | cons s rest ih =>
    refine u.andThen (u.visits bound (.execute s)) fun flow => ?_
    cases flow with
    | normal => exact ih
    | returned vs => exact u.claiming s.span (u.quiet (.fail _))

end Uniform

/-! ### Relations between machines -/

/-- A relation between the machine before an evaluation and the one after it, with what the
evaluation visits, that is put together from steps. -/
structure Composes (R : Host → List Visit → Machine → Machine → Prop) : Prop where
  steady : ∀ {host m n}, m.Steady n → R host [] m n
  trans : ∀ {host vs ws m n o}, R host vs m n → R host ws n o → R host (vs ++ ws) m o
  /-- A visit in front, on the machine that everything starts on. -/
  cons : ∀ {host vs m n} {v : Visit}, v.host = host → v.machine = m → R host vs m n →
    R host (v :: vs) m n
  /-- A scope is entered and left. -/
  leave : ∀ {host vs m n} (parent : Slot) (held : List Value), R host vs (m.enter parent) n →
    R host vs m (n.leave host held m.current)
  /-- A file is started and ended. -/
  endModule : ∀ {host vs m n} (path : String), R host vs (m.beginModule path) n →
    R host vs m n.endModule
  keepModule : ∀ {host} (m : Machine) (policy path kept),
    R host [] m (m.keepModule policy path kept)

namespace Composes

variable {R : Host → List Visit → Machine → Machine → Prop} {α β : Type} {x : Eval α}
  {k : α → Eval β} {tr : Trace} {rest : α → Trace}

theorem andThen (h : Composes R) (hx : ∀ host held m, R host (tr host held m) m (x host held m).2)
    (hk : ∀ a host held m, R host (rest a host held m) m (k a host held m).2) (host : Host)
    (held : List Value) (m : Machine) :
    R host (Trace.andThen x tr rest host held m) m ((x >>= k) host held m).2 := by
  have hx := hx host held m
  show R host (Trace.andThen x tr rest host held m) m (Eval.bind x k host held m).2
  unfold Trace.andThen Eval.bind
  generalize x host held m = r at hx
  obtain ⟨outcome, n⟩ := r
  cases outcome with
  | done a => exact h.trans hx (hk a host held n)
  | failed fault => exact (List.append_nil (tr host held m)).symm ▸ hx
  | exhausted => exact (List.append_nil (tr host held m)).symm ▸ hx

theorem inScope (h : Composes R) (parent : Slot) (values : α → List Value)
    (hx : ∀ host held m, R host (tr host held m) m (x host held m).2) (host : Host)
    (held : List Value) (m : Machine) :
    R host (Trace.inScope parent tr host held m) m
      (Eval.inScope parent values x host held m).2 := by
  have hx := hx host held (m.enter parent)
  unfold Eval.inScope Trace.inScope
  dsimp only
  generalize x host held (m.enter parent) = r at hx
  obtain ⟨outcome, n⟩ := r
  cases outcome <;> exact h.leave parent _ hx

/-- A relation that is put together from steps holds of what every evaluation does. -/
theorem uniform (h : Composes R) :
    Uniform fun x tr => ∀ host held m, R host (tr host held m) m (x host held m).2 where
  quiet hx host held m := h.steady (hx.steady host held m)
  andThen := h.andThen
  holding vs hx host held m := hx host (vs ++ held) m
  inScope := h.inScope
  claiming span hx host held m := by
    rw [machine_claiming]
    exact hx host held m
  inModule path hx host held m := h.endModule path (hx host held (m.beginModule path))
  keep path digest exports host held m := by
    rw [run_keep]
    exact h.keepModule m _ _ _
  visit hx host held m := h.cons rfl rfl (hx host held m)

end Composes

/-! ### Requests -/

/-- What a request does to the machine besides evaluating: the scope in use stays, and unreachable
frames may be reclaimed. -/
structure Machine.Tidies (m n : Machine) : Prop where
  scope : n.current = m.current
  arena : n.arena = m.arena ∨ ∃ held, n.arena = m.arena.collect held

theorem Machine.Tidies.refl (m : Machine) : m.Tidies m := ⟨rfl, .inl rfl⟩

theorem Machine.tidies_collect (m : Machine) (host : Host) (held : List Value) :
    m.Tidies (m.collect host held) where
  scope := rfl
  arena := by
    unfold Machine.collect
    split
    · exact .inr ⟨_, rfl⟩
    · exact .inl rfl

namespace Interpreter

theorem tidies_interpret (bound : Nat) (i : Interpreter) (host : Host) (program : Program) :
    (runTop bound program.body host i.held i.machine).2.Tidies
      (i.interpret bound host program).2.machine := by
  rw [interpret, perform, Eval.run, held_cleared, machine_cleared]
  generalize runTop bound program.body host i.held i.machine = r
  obtain ⟨outcome, m⟩ := r
  cases outcome with
  | done result => exact m.tidies_collect _ _
  | failed fault =>
    have hcollect := m.tidies_collect host ([] ++ i.held)
    exact ⟨hcollect.scope, hcollect.arena⟩
  | exhausted => exact m.tidies_collect _ _

theorem tidies_run (bound : Nat) (i : Interpreter) (host : Host) (program : Program) :
    (Eval.executeAll bound program.body host i.held i.machine).2.Tidies
      (i.run bound host program).2.machine := by
  rw [run, perform, Eval.run, held_cleared, machine_cleared]
  generalize Eval.executeAll bound program.body host i.held i.machine = r
  obtain ⟨outcome, m⟩ := r
  cases outcome with
  | done flow => cases flow <;> exact m.tidies_collect _ _
  | failed fault => exact m.tidies_collect _ _
  | exhausted => exact m.tidies_collect _ _

end Interpreter

/-- What is put together from steps relates the machine before a request to one that the request
tidies up. -/
theorem Composes.step {R : Host → List Visit → Machine → Machine → Prop} (h : Composes R)
    (settings : Settings) (reclaims : Bool) (bound : Nat) (s : Session) (r : Request) :
    ∃ m, R (s.host settings reclaims) (r.visits bound s.interpreter (s.host settings reclaims))
      s.interpreter.machine m ∧
        m.Tidies (s.step settings reclaims bound r).2.interpreter.machine := by
  have hjob (t : Job) (held : List Value) :=
    h.uniform.visits bound t (s.host settings reclaims) held s.interpreter.machine
  cases r with
  | interpret program =>
    exact ⟨_, h.uniform.runTop bound program.body _ _ _, Interpreter.tidies_interpret _ _ _ _⟩
  | run program =>
    exact ⟨_, hjob (.executeAll program.body) _, Interpreter.tidies_run _ _ _ _⟩
  | execute statement => exact ⟨_, hjob (.execute statement) _, .refl _⟩
  | evaluate e => exact ⟨_, hjob (.evaluate e) _, .refl _⟩
  | call f args given =>
    exact ⟨_, hjob (.call (f.value s.interpreter.held) (Pick.valueAll s.interpreter.held args)) _,
      .refl _⟩
  | invalidate | wait => exact ⟨_, h.steady (.refl _), rfl, .inl rfl⟩
  | look | drop | edit => exact ⟨_, h.steady (.refl _), .refl _⟩

end Playscript

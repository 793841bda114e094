/-
# Two ways to run a program

`interpret` reports the first failure of a program and `run` answers it. Both
are the statements of the program, executed one by one up to the first that fails or
returns (`Interpreter.Executes`): they come to an end where those do, whatever the
bounds, and what a script can see afterwards is the same (`Interpreter.Matches`). The
arenas may differ, since `run` collects while the values of an escaped `return`
are held; from the root, no difference is reached.

Key definitions: `Interpreter.Executes`, `Interpreter.Matches`, `Interpreter.SameExecution`.
Key theorems: `Executes.unique`, `executes_of_runTop`, `executes_of_executeAll`,
`same_execution`.
-/
import Playscript.Proofs.Arena.Exactness
import Playscript.Proofs.Machine.Bounds
import Playscript.Proofs.Machine.Restoring
import Playscript.Proofs.Trace.Faults

namespace Playscript
namespace Interpreter

open Eval

variable {i j k : Interpreter} {host : Host} {s : Stmt} {ss : List Stmt} {bound bound' : Nat}
  {outcome outcome' : Outcome Flow}

/-! ### One statement after the other -/

/-- Statements are executed one by one, up to the first that fails or returns. -/
inductive Executes (host : Host) :
    Interpreter → List Stmt → Outcome Flow → Interpreter → Prop where
  | nil (i : Interpreter) : Executes host i [] (.done .normal) i
  | next {i j k : Interpreter} {bound : Nat} {s : Stmt} {rest : List Stmt}
      {outcome : Outcome Flow} :
    i.execute bound host s = (.done .normal, j) → Executes host j rest outcome k →
      Executes host i (s :: rest) outcome k
  | returned {i j : Interpreter} {bound : Nat} {s : Stmt} {rest : List Stmt}
      {values : List Value} :
    i.execute bound host s = (.done (.returned values), j) →
      Executes host i (s :: rest) (.done (.returned values)) j
  | failed {i j : Interpreter} {bound : Nat} {s : Stmt} {rest : List Stmt} {fault : Fault} :
    i.execute bound host s = (.failed fault, j) → Executes host i (s :: rest) (.failed fault) j

theorem execute_eq {m : Machine} (h : Eval.execute bound s host i.held i.machine = (outcome, m)) :
    i.execute bound host s =
      (outcome, { i with machine := m, pending? := i.pending?.or outcome.site? }) := by
  rw [execute, perform, Eval.run, h]

theorem run_of_execute (h : i.execute bound host s = (outcome, j)) :
    ∃ m, Eval.execute bound s host i.held i.machine = (outcome, m) ∧
      j = { i with machine := m, pending? := i.pending?.or outcome.site? } := by
  rcases hrun : Eval.execute bound s host i.held i.machine with ⟨outcome', m⟩
  rw [execute_eq hrun] at h
  obtain ⟨rfl, rfl⟩ := Prod.mk.inj h
  exact ⟨m, rfl, rfl⟩

theorem held_execute (h : i.execute bound host s = (outcome, j)) : j.held = i.held := by
  obtain ⟨m, -, rfl⟩ := run_of_execute h
  rfl

/-- With a larger bound the statement is executed alike. -/
theorem execute_of_le (h : i.execute bound host s = (outcome, j)) (hends : outcome.Ends)
    (hle : bound ≤ bound') :
    Eval.execute bound' s host i.held i.machine = (outcome, j.machine) := by
  obtain ⟨m, hrun, rfl⟩ := run_of_execute h
  have hmore := approximates_of_le hle (.execute s) host i.held i.machine
  rw [Job.run, Job.run, hrun] at hmore
  exact hmore hends

/-- A statement comes to one end only, whatever the bounds. -/
theorem execute_unique (h : i.execute bound host s = (outcome, j)) (hends : outcome.Ends)
    (h' : i.execute bound' host s = (outcome', k)) (hends' : outcome'.Ends) :
    outcome = outcome' ∧ j = k := by
  obtain ⟨m, -, rfl⟩ := run_of_execute h
  obtain ⟨m', -, rfl⟩ := run_of_execute h'
  have hrun := execute_of_le h hends (Nat.le_max_left bound bound')
  rw [execute_of_le h' hends' (Nat.le_max_right bound bound')] at hrun
  cases hrun
  exact ⟨rfl, rfl⟩

theorem Executes.unique (h : Executes host i ss outcome j) (h' : Executes host i ss outcome' k) :
    outcome = outcome' ∧ j = k := by
  induction h with
  | nil =>
    cases h'
    exact ⟨rfl, rfl⟩
  | next hs _ ih =>
    cases h' with
    | next hs' hrest =>
      obtain ⟨-, rfl⟩ := execute_unique hs trivial hs' trivial
      exact ih hrest
    | returned hs' => cases (execute_unique hs trivial hs' trivial).1
    | failed hs' => cases (execute_unique hs trivial hs' trivial).1
  | returned hs =>
    cases h' with
    | next hs' _ => cases (execute_unique hs trivial hs' trivial).1
    | returned hs' => exact execute_unique hs trivial hs' trivial
    | failed hs' => cases (execute_unique hs trivial hs' trivial).1
  | failed hs =>
    cases h' with
    | next hs' _ => cases (execute_unique hs trivial hs' trivial).1
    | returned hs' => cases (execute_unique hs trivial hs' trivial).1
    | failed hs' => exact execute_unique hs trivial hs' trivial

/-! ### The two loops -/

/-- What a program answers whose statements come to an end. -/
def answerOf : Outcome Flow → Outcome Unit
  | .done .normal => .done ()
  | .done (.returned _) => .failed (.raised .returnOutside)
  | .failed fault => .failed fault
  | .exhausted => .exhausted

theorem executes_of_executeAll
    (h : (Eval.executeAll bound ss host i.held i.machine).1.Ends) :
    ∃ j, Executes host i ss (Eval.executeAll bound ss host i.held i.machine).1 j ∧
      (Eval.executeAll bound ss host i.held i.machine).2 = j.machine := by
  induction ss generalizing bound i with
  | nil =>
    cases bound with
    | zero => exact h.elim
    | succ bound => exact ⟨i, by rw [Eval.executeAll]; exact .nil i, by rw [Eval.executeAll]; rfl⟩
  | cons s rest ih =>
    cases bound with
    | zero => exact h.elim
    | succ bound =>
      rw [Eval.executeAll] at h ⊢
      rcases hrun : Eval.execute bound s host i.held i.machine with ⟨outcome, m⟩
      have hs := execute_eq hrun
      cases outcome with
      | done flow =>
        rw [bind_of_done hrun] at h ⊢
        cases flow with
        | normal =>
          obtain ⟨j, hrest, hj⟩ :=
            ih (i := { i with machine := m, pending? := i.pending?.or none }) h
          exact ⟨j, .next hs hrest, hj⟩
        | returned values => exact ⟨_, .returned hs, rfl⟩
      | failed fault =>
        rw [bind_of_failed hrun]
        exact ⟨_, .failed hs, rfl⟩
      | exhausted =>
        rw [bind_of_exhausted hrun] at h
        exact h.elim

/-- The loop of `interpret` fails exactly where `run` answers a failure, and with the same one. -/
theorem executes_of_runTop (h : (runTop bound ss host i.held i.machine).1.Ends) :
    ∃ outcome j, Executes host i ss outcome j ∧
      (runTop bound ss host i.held i.machine).2 = j.machine ∧
      (runTop bound ss host i.held i.machine).1.failure? = (answerOf outcome).failure? := by
  induction ss generalizing i with
  | nil => exact ⟨_, i, .nil i, rfl, rfl⟩
  | cons s rest ih =>
    rw [runTop] at h ⊢
    rcases hrun : Eval.execute bound s host i.held i.machine with ⟨outcome, m⟩
    have hs := execute_eq hrun
    cases outcome with
    | done flow =>
      rw [bind_of_done hrun] at h ⊢
      cases flow with
      | normal =>
        obtain ⟨outcome, j, hrest, hj, hfailure⟩ :=
          ih (i := { i with machine := m, pending? := i.pending?.or none }) h
        exact ⟨outcome, j, .next hs hrest, hj, hfailure⟩
      | returned values => exact ⟨_, _, .returned hs, rfl, rfl⟩
    | failed fault =>
      rw [bind_of_failed hrun]
      exact ⟨_, _, .failed hs, rfl, rfl⟩
    | exhausted =>
      rw [bind_of_exhausted hrun] at h
      exact h.elim

/-- Where the statements come to an end, both loops do with every bound that is large enough. -/
theorem Executes.loops_end (h : Executes host i ss outcome j) :
    ∃ least, ∀ bound, least ≤ bound →
      (runTop (bound + 1) ss host i.held i.machine).1.Ends ∧
        (Eval.executeAll (bound + 1) ss host i.held i.machine).1.Ends := by
  induction h with
  | nil => exact ⟨0, fun bound _ => ⟨trivial, by rw [Eval.executeAll]; trivial⟩⟩
  | @next i j k least s rest outcome hs _ ih =>
    obtain ⟨leastRest, hrest⟩ := ih
    refine ⟨max least leastRest + 1, fun bound hbound => ?_⟩
    obtain ⟨bound, rfl⟩ : ∃ n, bound = n + 1 := ⟨bound - 1, by omega⟩
    have hle : least ≤ bound + 1 := by omega
    have hshallow := execute_of_le hs trivial hle
    have hdeep := execute_of_le hs trivial (Nat.le_succ_of_le hle)
    obtain ⟨htop, -⟩ := hrest (bound + 1) (by omega)
    obtain ⟨-, hall⟩ := hrest bound (by omega)
    rw [held_execute hs] at htop hall
    rw [runTop, Eval.executeAll, bind_of_done hshallow, bind_of_done hdeep]
    exact ⟨htop, hall⟩
  | @returned i j least s rest values hs =>
    refine ⟨least, fun bound hle => ?_⟩
    have hshallow := execute_of_le hs trivial hle
    have hdeep := execute_of_le hs trivial (Nat.le_succ_of_le hle)
    rw [runTop, Eval.executeAll, bind_of_done hshallow, bind_of_done hdeep]
    exact ⟨trivial, trivial⟩
  | @failed i j least s rest fault hs =>
    refine ⟨least, fun bound hle => ?_⟩
    have hshallow := execute_of_le hs trivial hle
    have hdeep := execute_of_le hs trivial (Nat.le_succ_of_le hle)
    rw [runTop, Eval.executeAll, bind_of_failed hshallow, bind_of_failed hdeep]
    exact ⟨trivial, trivial⟩

/-! ### What is left of a program -/

/-- Two interpreters that a script cannot tell apart from the root, but for what was reported. -/
structure Matches (i j : Interpreter) : Prop where
  output : j.machine.output = i.machine.output
  modules : j.machine.modules = i.machine.modules
  current : j.machine.current = i.machine.current
  files : j.machine.files = i.machine.files
  clock : j.machine.clock = i.machine.clock
  fresh : j.machine.fresh = i.machine.fresh
  held : j.held = i.held
  /-- The same frames are reached from the root. -/
  reaches : ∀ s, j.machine.arena.Reaches (· = Arena.root) s ↔
    i.machine.arena.Reaches (· = Arena.root) s
  /-- And they bind the same. -/
  bindings : ∀ s, i.machine.arena.Reaches (· = Arena.root) s →
    j.machine.arena.bindings s = i.machine.arena.bindings s

theorem Matches.collect (i : Interpreter) (host : Host) (held : List Value) :
    i.Matches (i.collect host held) := by
  refine ⟨rfl, rfl, rfl, rfl, rfl, rfl, rfl, fun s => ?_, fun s hs => ?_⟩
  · show Arena.Reaches (if host.reclaims then i.machine.arena.collect _ else _) _ s ↔ _
    split
    · exact Arena.reaches_root_collect
    · rfl
  · show Arena.bindings (if host.reclaims then i.machine.arena.collect _ else _) s = _
    split
    · exact Arena.bindings_collect hs
    · rfl

/-- What an interpreter matches does not depend on what it has reported, nor on what is pending. -/
theorem Matches.congr (h : i.Matches k) (hmachine : j.machine = i.machine)
    (hheld : j.held = i.held) : j.Matches k := by
  obtain ⟨output, modules, current, files, clock, fresh, held, reaches, bindings⟩ := h
  rw [← hmachine] at output modules current files clock fresh reaches bindings
  rw [← hheld] at held
  exact ⟨output, modules, current, files, clock, fresh, held, reaches, bindings⟩

/-- What `interpret` leaves, by the end of its loop: a failure is one report and one line. -/
theorem interpret_of_runTop {program : Program} {ended : Outcome Unit} {m : Machine}
    (h : runTop bound program.body host i.held i.machine = (ended, m)) :
    ({ i with machine := m } : Interpreter).Matches (i.interpret bound host program).2 ∧
      match ended.failure? with
      | none => (i.interpret bound host program).2.machine.errors = m.errors ∧
          (i.interpret bound host program).2.reports = i.reports
      | some failure => ∃ site,
          (i.interpret bound host program).2.machine.errors =
            m.errors.push (Report.text ⟨site, failure.message⟩) ∧
          (i.interpret bound host program).2.reports = i.reports.push ⟨site, failure.message⟩ := by
  rw [interpret, perform, Eval.run, held_cleared, machine_cleared, h]
  cases ended with
  | done result => exact ⟨(Matches.collect _ host []).congr rfl rfl, rfl, rfl⟩
  | failed fault =>
    have hcollect := Matches.collect { i with machine := m } host []
    exact ⟨⟨hcollect.output, hcollect.modules, hcollect.current, hcollect.files, hcollect.clock,
      hcollect.fresh, hcollect.held, hcollect.reaches, hcollect.bindings⟩, _, rfl, rfl⟩
  | exhausted => exact ⟨(Matches.collect _ host []).congr rfl rfl, rfl, rfl⟩

theorem interpret_ends_iff {program : Program} :
    (i.interpret bound host program).1.Ends ↔
      (runTop bound program.body host i.held i.machine).1.Ends := by
  rw [interpret, perform, Eval.run, held_cleared, machine_cleared]
  generalize runTop bound program.body host i.held i.machine = r
  obtain ⟨outcome, m⟩ := r
  cases outcome <;> exact Iff.rfl

/-- What `run` leaves and answers, by the end of its statements. -/
theorem run_of_executeAll {program : Program} {m : Machine}
    (h : Eval.executeAll bound program.body host i.held i.machine = (outcome, m)) :
    (i.run bound host program).1 = answerOf outcome ∧
      ({ i with machine := m } : Interpreter).Matches (i.run bound host program).2 ∧
      (i.run bound host program).2.machine.errors = m.errors ∧
      (i.run bound host program).2.reports = i.reports := by
  rw [run, perform, Eval.run, held_cleared, machine_cleared, h]
  cases outcome with
  | done flow =>
    cases flow with
    | normal => exact ⟨rfl, (Matches.collect _ host []).congr rfl rfl, rfl, rfl⟩
    | returned values => exact ⟨rfl, (Matches.collect _ host values).congr rfl rfl, rfl, rfl⟩
  | failed fault => exact ⟨rfl, (Matches.collect _ host []).congr rfl rfl, rfl, rfl⟩
  | exhausted => exact ⟨rfl, (Matches.collect _ host []).congr rfl rfl, rfl, rfl⟩

theorem run_ends_iff {program : Program} :
    (i.run bound host program).1.Ends ↔
      (Eval.executeAll bound program.body host i.held i.machine).1.Ends := by
  rw [(run_of_executeAll (Prod.eta _).symm).1]
  generalize Eval.executeAll bound program.body host i.held i.machine = r
  obtain ⟨outcome, m⟩ := r
  cases outcome with
  | done flow => cases flow <;> exact Iff.rfl
  | failed fault => exact Iff.rfl
  | exhausted => exact Iff.rfl

theorem Executes.writes (h : Executes host i ss outcome j) : i.machine.Writes j.machine := by
  have hstep {i j : Interpreter} {bound : Nat} {s : Stmt} {outcome : Outcome Flow}
      (hs : i.execute bound host s = (outcome, j)) : i.machine.Writes j.machine := by
    obtain ⟨m, hrun, rfl⟩ := run_of_execute hs
    have hwrites := (settles_visits bound (.execute s) host i.held i.machine).writes
    rwa [Job.run, hrun] at hwrites
  induction h with
  | nil i => exact .of_eq rfl rfl
  | next hs _ ih => exact (hstep hs).trans ih
  | returned hs => exact hstep hs
  | failed hs => exact hstep hs

/-! ### The same execution -/

/-- What `interpret` leaves, and what `run` leaves and answers, when the statements of a program
lead from `i` to `j`. -/
structure SameEnd (i : Interpreter) (outcome : Outcome Flow) (j interpreted : Interpreter)
    (ran : Outcome Unit × Interpreter) : Prop where
  /-- Both leave what the statements leave. -/
  afterInterpret : j.Matches interpreted
  afterRun : j.Matches ran.2
  /-- Lines are only added to what was written before. -/
  writes : i.machine.Writes j.machine
  /-- `run` answers how the statements end, and reports nothing of its own. -/
  answer : ran.1 = answerOf outcome
  errors : ran.2.machine.errors = j.machine.errors
  reports : ran.2.reports = i.reports
  /-- `interpret` reports what `run` answers as a failure, in one line, and nothing else. -/
  reported : match ran.1.failure? with
    | none => interpreted.machine.errors = ran.2.machine.errors ∧ interpreted.reports = i.reports
    | some failure => ∃ site,
        interpreted.machine.errors =
          ran.2.machine.errors.push (Report.text ⟨site, failure.message⟩) ∧
        interpreted.reports = i.reports.push ⟨site, failure.message⟩

/-- `interpret` and `run` on a program are its statements, one by one. -/
structure SameExecution (i : Interpreter) (host : Host) (program : Program) : Prop where
  /-- With bounds large enough, both come to an end where the statements do, and only there. -/
  interpret_ends : (∃ bound, (i.interpret bound host program).1.Ends) ↔
    ∃ outcome j, Executes host i program.body outcome j
  run_ends : (∃ bound, (i.run bound host program).1.Ends) ↔
    ∃ outcome j, Executes host i program.body outcome j
  /-- The statements come to one end only. -/
  unique : ∀ outcome outcome' j k, Executes host i program.body outcome j →
    Executes host i program.body outcome' k → outcome = outcome' ∧ j = k
  /-- And whatever the bounds, both come to that end. -/
  same : ∀ bound bound' outcome j, (i.interpret bound host program).1.Ends →
    (i.run bound' host program).1.Ends → Executes host i program.body outcome j →
    SameEnd i outcome j (i.interpret bound host program).2 (i.run bound' host program)

theorem Executes.held_eq (h : Executes host i ss outcome j) : j.held = i.held := by
  induction h with
  | nil => rfl
  | next hs _ ih => exact ih.trans (held_execute hs)
  | returned hs => exact held_execute hs
  | failed hs => exact held_execute hs

theorem same_execution (i : Interpreter) (host : Host) (program : Program) :
    SameExecution i host program where
  interpret_ends := by
    constructor
    · rintro ⟨bound, hends⟩
      obtain ⟨outcome, j, hexecutes, -, -⟩ := executes_of_runTop (interpret_ends_iff.1 hends)
      exact ⟨outcome, j, hexecutes⟩
    · rintro ⟨outcome, j, hexecutes⟩
      obtain ⟨least, hleast⟩ := hexecutes.loops_end
      exact ⟨least + 1, interpret_ends_iff.2 (hleast least (Nat.le_refl _)).1⟩
  run_ends := by
    constructor
    · rintro ⟨bound, hends⟩
      obtain ⟨j, hexecutes, -⟩ := executes_of_executeAll (run_ends_iff.1 hends)
      exact ⟨_, j, hexecutes⟩
    · rintro ⟨outcome, j, hexecutes⟩
      obtain ⟨least, hleast⟩ := hexecutes.loops_end
      exact ⟨least + 1, run_ends_iff.2 (hleast least (Nat.le_refl _)).2⟩
  unique _ _ _ _ h h' := h.unique h'
  same := by
    intro bound bound' outcome j hinterpret hrun h
    obtain ⟨outcome', k, htop, hk, hfailure⟩ := executes_of_runTop (interpret_ends_iff.1 hinterpret)
    obtain ⟨rfl, rfl⟩ := h.unique htop
    obtain ⟨k, hall, hk'⟩ := executes_of_executeAll (run_ends_iff.1 hrun)
    obtain ⟨houtcome, rfl⟩ := h.unique hall
    obtain ⟨hinterpreted, hreported⟩ :=
      interpret_of_runTop (Prod.eta (runTop bound program.body host i.held i.machine)).symm
    obtain ⟨hanswer, hran, herrors, hreports⟩ :=
      run_of_executeAll (Prod.eta (executeAll bound' program.body host i.held i.machine)).symm
    rw [← houtcome] at hanswer
    rw [hk'] at herrors
    refine ⟨hinterpreted.congr hk.symm h.held_eq, hran.congr hk'.symm h.held_eq, h.writes, hanswer,
      herrors, hreports, ?_⟩
    rw [hfailure, hk] at hreported
    rw [hanswer, herrors]
    exact hreported

end Interpreter
end Playscript

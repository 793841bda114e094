/-
# Where a failure is located

A failure is claimed by the statement or the expression that fails while none
below it does, and no other node claims it (`Accounts`). The claim has the
span of the node. Its file is that of the innermost module under way when the node
starts, and the script where there is none: a function runs under the file of
whoever calls it, and not under the file that it was written in.

Key definitions: `Visit.Fails`, `Accounts`, `Interpreter.Escapes`, `Located`.
Key theorems: `accounts_visits`, `Session.interpret_located`.
-/
import Playscript.Proofs.Modules.Policy
import Playscript.Proofs.Trace.Calls
import Playscript.Proofs.Trace.Uniform

namespace Playscript

open Eval Job

/-- The failure of an outcome. -/
def Outcome.failure? {α : Type} : Outcome α → Option Failure
  | .failed fault => some fault.failure
  | _ => none

/-- What a visit visits below itself. -/
def Visit.below (v : Visit) : List Visit :=
  (Job.visits v.bound v.job v.host v.held v.machine).tail

/-- No statement and no expression among the visits has failed. -/
def Calm (vs : List Visit) : Prop := ∀ v ∈ vs, v.job.span?.isSome → v.answer.1.failure? = none

/-- A statement or an expression at a span fails, and none below it does. -/
structure Visit.Fails (v : Visit) (failure : Failure) (span : Span) : Prop where
  span : v.job.span? = some span
  failure : v.answer.1.failure? = some failure
  innermost : Calm v.below

/-- How an outcome goes with the visits it comes from. -/
def Accounts {α : Type} (settings : Settings) (vs : List Visit) : Outcome α → Prop
  | .done _ => Calm vs
  | .failed fault =>
    match fault.site? with
    | none => Calm vs
    | some site =>
      ∃ v ∈ vs, v.Fails fault.failure site.span ∧ site.file = v.machine.file settings
  | .exhausted => True

section Accounts

variable {α β : Type} {settings : Settings} {vs ws : List Visit} {v : Visit} {outcome : Outcome α}

theorem calm_nil : Calm [] := List.forall_mem_nil _

theorem Calm.append (h : Calm vs) (h' : Calm ws) : Calm (vs ++ ws) :=
  List.forall_mem_append.2 ⟨h, h'⟩

theorem Calm.cons (hv : v.job.span?.isSome → v.answer.1.failure? = none) (h : Calm vs) :
    Calm (v :: vs) := List.forall_mem_cons.2 ⟨hv, h⟩

/-- Visits without a failure in front make no difference. -/
theorem Accounts.prepend (hvs : Calm vs) (h : Accounts settings ws outcome) :
    Accounts settings (vs ++ ws) outcome := by
  cases outcome with
  | done a => exact hvs.append h
  | failed fault =>
    rw [Accounts] at h ⊢
    split at h
    · exact hvs.append h
    · obtain ⟨v, hv, hfails⟩ := h
      exact ⟨v, List.mem_append_right _ hv, hfails⟩
  | exhausted => trivial

/-- A visit that is no node makes no difference. -/
theorem Accounts.cons (hv : v.job.span? = none) (h : Accounts settings vs outcome) :
    Accounts settings (v :: vs) outcome := by
  have hcalm : Calm [v] := Calm.cons (fun hsome => by rw [hv] at hsome; cases hsome) calm_nil
  exact h.prepend hcalm

end Accounts

/-- An evaluation accounts for its failures by its visits. -/
def AccountsBy {α : Type} (x : Eval α) (tr : Trace) : Prop := ∀ host held m,
  Accounts host.settings (tr host held m) (x host held m).1

namespace AccountsBy

variable {α β : Type} {x : Eval α} {k : α → Eval β} {tr : Trace} {rest : α → Trace} {bound : Nat}

theorem quiet (hx : Quiet x) : AccountsBy x .none := by
  intro host held m
  have hunclaimed := hx.unclaimed host held m
  generalize (x host held m).1 = outcome at hunclaimed
  cases outcome with
  | done a => exact calm_nil
  | failed fault =>
    rw [Accounts, hunclaimed fault rfl]
    exact calm_nil
  | exhausted => trivial

theorem andThen (hx : AccountsBy x tr) (hk : ∀ a, AccountsBy (k a) (rest a)) :
    AccountsBy (x >>= k) (.andThen x tr rest) := by
  intro host held m
  have hx := hx host held m
  show Accounts _ (Trace.andThen x tr rest host held m) (Eval.bind x k host held m).1
  unfold Trace.andThen Eval.bind
  generalize x host held m = r at hx
  obtain ⟨outcome, n⟩ := r
  cases outcome with
  | done a => exact (hk a host held n).prepend hx
  | failed fault => exact (List.append_nil (tr host held m)).symm ▸ hx
  | exhausted => trivial

theorem inScope (parent : Slot) (values : α → List Value) (hx : AccountsBy x tr) :
    AccountsBy (Eval.inScope parent values x) (.inScope parent tr) := by
  intro host held m
  have hx := hx host held (m.enter parent)
  unfold Eval.inScope Trace.inScope
  dsimp only
  generalize x host held (m.enter parent) = r at hx
  obtain ⟨outcome, n⟩ := r
  cases outcome <;> exact hx

theorem inModule (path : String) (hx : AccountsBy x tr) :
    AccountsBy (Eval.inModule path x) (.inModule path tr) := fun host held m =>
  hx host held (m.beginModule path)

/-- A visit that is no node, in front of what it visits. -/
theorem inner {t : Job} (ht : t.span? = none) {x : Eval α} (hx : AccountsBy x tr) :
    AccountsBy x fun host held m => ⟨bound, t, host, held, m⟩ :: tr host held m :=
  fun host held m => (hx host held m).cons ht

end AccountsBy

/-- A node claims what nothing below it has claimed. -/
theorem accounts_claiming {α : Type} {x : Eval α} {v : Visit} {vs : List Visit} {span : Span}
    (hspan : v.job.span? = some span) (hbelow : v.below = vs)
    (hfile : (x v.host v.held v.machine).2.file v.host.settings = v.machine.file v.host.settings)
    (hanswer : v.answer.1.failure? = (Eval.claiming span x v.host v.held v.machine).1.failure?)
    (h : Accounts v.host.settings vs (x v.host v.held v.machine).1) :
    Accounts v.host.settings (v :: vs) (Eval.claiming span x v.host v.held v.machine).1 := by
  unfold Eval.claiming at hanswer ⊢
  generalize x v.host v.held v.machine = r at hfile hanswer h
  obtain ⟨outcome, n⟩ := r
  cases outcome with
  | done a => exact Calm.cons (fun _ => hanswer) h
  | failed fault =>
    obtain ⟨failure, site?⟩ := fault
    cases site? with
    | none =>
      refine ⟨v, List.mem_cons_self, ⟨hspan, hanswer, hbelow ▸ h⟩, hfile⟩
    | some site =>
      obtain ⟨w, hw, hfails⟩ := h
      exact ⟨w, List.mem_cons_of_mem _ hw, hfails⟩
  | exhausted => trivial

/-- The machine a job leaves runs the same file. -/
theorem file_visits (bound : Nat) {t : Job} (ht : t.runsModule = false) (host : Host)
    (held : List Value) (m : Machine) :
    (t.run bound host held m).2.file host.settings = m.file host.settings := by
  have hfiles := (loads_visits bound ht host held m).restores.1
  exact congrArg (fun files : List String => files.headD host.settings.fileName) hfiles

theorem accounts_loom : Loom AccountsBy where
  quiet := .quiet
  andThen := .andThen
  holding vs hx host held m := hx host (vs ++ held) m
  inScope := .inScope
  inModule := .inModule
  keep path digest exports host held m := by
    rw [run_keep]
    exact calm_nil

/-- Every job accounts for its failures. -/
theorem accounts_visits (bound : Nat) (t : Job) : AccountsBy (t.run bound) (visits bound t) := by
  refine accounts_loom.visits (fun t host held m => ?_) (fun bound s h host held m => ?_)
    (fun bound e h host held m => ?_) (fun _ _ ht h => .inner ht h) bound t
  · cases t <;> trivial
  · have hclaiming : Eval.execute (bound + 1) s = Eval.claiming s.span (Eval.perform bound s) := by
      rw [Eval.execute]
    rw [hclaiming]
    refine accounts_claiming (v := ⟨bound + 1, .execute s, host, held, m⟩) rfl rfl
      (file_visits bound (t := .perform s) rfl host held m) ?_ (h host held m)
    rw [Visit.answer, Job.run, hclaiming]
    rfl
  · have hclaiming : Eval.evaluate (bound + 1) e = Eval.claiming e.span (Eval.compute bound e) := by
      rw [Eval.evaluate]
    rw [hclaiming]
    refine accounts_claiming (v := ⟨bound + 1, .evaluate e, host, held, m⟩) rfl rfl
      (file_visits bound (t := .compute e) rfl host held m) ?_ (h host held m)
    rw [Visit.answer, Job.run, hclaiming]
    rfl

/-- A statement leaves no failure unclaimed. -/
theorem site?_of_execute {bound : Nat} {s : Stmt} {host : Host} {held : List Value} {m : Machine}
    {fault : Fault} (h : (Eval.execute bound s host held m).1 = .failed fault) :
    fault.site?.isSome := by
  cases bound with
  | zero => cases h
  | succ bound =>
    rw [Eval.execute] at h
    unfold Eval.claiming at h
    generalize Eval.perform bound s host held m = r at h
    obtain ⟨outcome, n⟩ := r
    cases outcome with
    | done flow => cases h
    | failed inner =>
      cases h
      rfl
    | exhausted => cases h

/-! ### Programs -/

namespace Interpreter

/-- A statement among those of a program returns, from no function. -/
def Escapes (ss : List Stmt) (vs : List Visit) (s : Stmt) : Prop := s ∈ ss ∧
  ∃ bound host held m values, ⟨bound, .execute s, host, held, m⟩ ∈ vs ∧
    (Eval.execute bound s host held m).1 = .done (.returned values)

theorem Escapes.more {s t : Stmt} {ss : List Stmt} {vs ws : List Visit} (h : Escapes ss ws t) :
    Escapes (s :: ss) (vs ++ ws) t := by
  obtain ⟨ht, bound, host, held, m, values, hv, hreturned⟩ := h
  exact ⟨List.mem_cons_of_mem _ ht, bound, host, held, m, values, List.mem_append_right _ hv,
    hreturned⟩

end Interpreter

/-- Where a failure that stops the statements of a program is located: at a failing node, or at
a statement that returns from no function. -/
inductive Located (settings : Settings) (ss : List Stmt) (vs : List Visit) (file : String) :
    Failure → Site → Prop where
  | node {failure : Failure} {span : Span} {v : Visit} : v ∈ vs → v.Fails failure span →
    Located settings ss vs file failure ⟨v.machine.file settings, span⟩
  | returned {s : Stmt} : Interpreter.Escapes ss vs s →
    Located settings ss vs file .returnOutside ⟨file, s.span⟩

theorem Located.more {settings : Settings} {s : Stmt} {ss : List Stmt} {vs ws : List Visit}
    {file : String} {failure : Failure} {site : Site}
    (h : Located settings ss ws file failure site) :
    Located settings (s :: ss) (vs ++ ws) file failure site := by
  cases h with
  | node hv hfails => exact .node (List.mem_append_right _ hv) hfails
  | returned hs => exact .returned hs.more

namespace Interpreter

theorem runTop_located (bound : Nat) (ss : List Stmt) (host : Host) (held : List Value)
    (m : Machine) {fault : Fault} (h : (runTop bound ss host held m).1 = .failed fault) :
    ∃ site, fault.site? = some site ∧ Located host.settings ss (topVisits bound ss host held m)
      (m.file host.settings) fault.failure site := by
  induction ss generalizing m with
  | nil => cases h
  | cons s rest ih =>
    have haccounts := accounts_visits bound (.execute s) host held m
    have hfile := file_visits bound (t := .execute s) rfl host held m
    rw [runTop] at h
    rw [topVisits]
    rcases hrun : Eval.execute bound s host held m with ⟨outcome, n⟩
    rw [Job.run, hrun] at haccounts hfile
    cases outcome with
    | done flow =>
      rw [bind_of_done hrun] at h
      rw [Trace.append_of_done hrun]
      cases flow with
      | normal =>
        obtain ⟨site, hsite, hlocated⟩ := ih n h
        rw [show n.file host.settings = m.file host.settings from hfile] at hlocated
        exact ⟨site, hsite, hlocated.more⟩
      | returned values =>
        cases h
        have hescapes : Escapes (s :: rest) (Job.visits bound (.execute s) host held m ++ []) s :=
          ⟨List.mem_cons_self, bound, host, held, m, values,
            List.mem_append_left _ (Visit.mem_visits_self ⟨bound, .execute s, host, held, m⟩),
            congrArg Prod.fst hrun⟩
        exact ⟨_, rfl, hfile ▸ .returned hescapes⟩
    | failed inner =>
      rw [bind_of_failed hrun] at h
      rw [Trace.append_of_failed hrun]
      cases h
      obtain ⟨site, hsite⟩ := Option.isSome_iff_exists.1 (site?_of_execute (congrArg Prod.fst hrun))
      change Accounts _ _ (.failed fault) at haccounts
      rw [Accounts, hsite] at haccounts
      obtain ⟨v, hv, hfails, hfile⟩ := haccounts
      obtain ⟨file, span⟩ := site
      cases hfile
      exact ⟨_, hsite, .node hv hfails⟩
    | exhausted =>
      rw [bind_of_exhausted hrun] at h
      cases h

/-- A program reports the failure that has ended its statements. -/
theorem reports_interpret (i : Interpreter) (bound : Nat) (host : Host) (program : Program) :
    (i.interpret bound host program).2.reports =
      match (runTop bound program.body host i.held i.machine).1 with
      | .failed fault => i.reports.push
        ⟨fault.site?.getD ⟨host.settings.fileName, program.span⟩, fault.failure.message⟩
      | _ => i.reports := by
  rw [interpret, perform, Eval.run, held_cleared, machine_cleared]
  generalize runTop bound program.body host i.held i.machine = r
  obtain ⟨outcome, m⟩ := r
  cases outcome <;> rfl

/-- What a program reports is located at the innermost node that failed, in the file of the
module under way. -/
theorem interpret_reports (i : Interpreter) (bound : Nat) (host : Host) (program : Program) :
    (i.interpret bound host program).2.reports = i.reports ∨
      ∃ failure site,
        (i.interpret bound host program).2.reports = i.reports.push ⟨site, failure.message⟩ ∧
        Located host.settings program.body (topVisits bound program.body host i.held i.machine)
          (i.machine.file host.settings) failure site := by
  have hlocated (fault : Fault) (h : (runTop bound program.body host i.held i.machine).1 =
      .failed fault) := runTop_located bound program.body host i.held i.machine h
  rw [reports_interpret]
  generalize (runTop bound program.body host i.held i.machine).1 = outcome at hlocated
  cases outcome with
  | done result => exact .inl rfl
  | failed fault =>
    obtain ⟨site, hsite, hlocated⟩ := hlocated fault rfl
    refine .inr ⟨fault.failure, site, ?_, hlocated⟩
    dsimp only
    rw [hsite]
    rfl
  | exhausted => exact .inl rfl

end Interpreter

namespace Session

/-- Whatever has been asked before: the report of a program is located at a statement or an
expression that failed, in the file of the innermost module that was under way, and in the script
where none was; or at a statement of the program that returns. -/
theorem interpret_located (settings : Settings) (reclaims : Bool) (bound : Nat) (clock : Clock)
    (disk : Disk) (requests : List Request) (program : Program) :
    let s := (start clock disk).after settings reclaims bound requests
    let reports := (s.step settings reclaims bound (.interpret program)).2.interpreter.reports
    reports = s.interpreter.reports ∨
      ∃ failure site, reports = s.interpreter.reports.push ⟨site, failure.message⟩ ∧
        Located settings program.body
          ((Request.interpret program).visits bound s.interpreter (s.host settings reclaims))
          settings.fileName failure site := by
  intro s
  have hreports := s.interpreter.interpret_reports bound (s.host settings reclaims) program
  have hfiles : s.interpreter.machine.files = [] :=
    (history settings reclaims bound (start clock disk) requests).files_eq
  have hfile : s.interpreter.machine.file settings = settings.fileName := by
    rw [Machine.file, hfiles]
    rfl
  rw [show (s.host settings reclaims).settings = settings from rfl, hfile] at hreports
  exact hreports

/-- A disk with one module, which calls a function of whoever imports it. -/
def strayDisk : Disk where
  canonical? path := if path = "./lib.gvx" then some "/lib.gvx" else none
  read path := if path = "/lib.gvx" then .ok "f();" else .error .missing

def strayScript : String := "action f() { show(nope); }\nimport \"lib.gvx\";"

/-- A function of the script fails when the module calls it: the columns are those of the script,
and the file is that of the module, whose text has four columns. -/
theorem interpret_strays :
    (Program.ofSource ⟨Settings.standard.fileName, strayScript⟩).1.toOption.map (fun program =>
      let s := (start ⟨0, 0⟩ strayDisk).step .standard true 30 (.interpret program)
      s.2.interpreter.reports.toList) =
    some [⟨⟨"/lib.gvx", ⟨⟨1, 19⟩, ⟨1, 22⟩⟩⟩, "Undefined variable 'nope'."⟩] := by
  decide +kernel

end Session

end Playscript

/-
# The top level of a module

The frame of a module is new when its top level starts, and only the declarations there set
names in it (`Visit.extends_declaration`). A module that has run to its end has run the
statements of its top level one after the other, and what it exports is the frame they
have left: it binds the names that these declare, or import, and no others.

Key definitions: `Job.inTurn`, `Visit.topLevel`, `Visit.Completes`, `Visit.Sets`.
Key theorems: `executeAll_declared`, `Visit.Completes.declared`.
-/
import Playscript.Proofs.Machine.Declaring

namespace Playscript

open Eval Job

/-! ### The top level of a module -/

/-- Statements that are run one after the other, up to the first that is not done or returns. -/
def Job.inTurn : Nat → List Stmt → Trace
  | 0, _ | _ + 1, [] => .none
  | bound + 1, s :: rest =>
    .andThen (Eval.execute bound s) (alone bound (.execute s)) fun
      | .normal => inTurn bound rest
      | .returned _ => .none

namespace Visit

/-- The statements of the module that a visit runs. -/
def body (v : Visit) : List Stmt :=
  match v.job with
  | .runModule path text =>
    match (Program.ofSource ⟨path, text⟩).1 with
    | .ok program => program.body
    | .error _ => []
  | _ => []

/-- The machine its top level starts on, in a new scope inside the importer's. -/
def opening (v : Visit) : Machine :=
  match v.job with
  | .runModule path text =>
    let m := (Eval.moduleProgram path text v.host v.held v.machine).2.beginModule path
    m.enter m.current
  | _ => v.machine

/-- The machine its top level ends on. -/
def closing (v : Visit) : Machine :=
  (Eval.executeAll (v.bound - 1) v.body v.host v.held v.opening).2

/-- The statements of its top level, each with the machine it starts on. -/
def topLevel (v : Visit) : List Visit := Job.inTurn (v.bound - 1) v.body v.host v.held v.opening

/-- A visit that has run the text of a path to its end, and what the module exports. -/
structure Completes (v : Visit) (path text : String) (exports : Bindings) : Prop where
  job : v.job = .runModule path text
  done : (Eval.runModule v.bound path text v.host v.held v.machine).1 = .done exports

/-- A statement that sets a name: it declares the name itself, or imports it. -/
def Sets (u : Visit) (name : String) : Prop :=
  ∃ s exports, u.job = .execute s ∧ u.loaded = .done exports ∧ name ∈ s.localNames exports

end Visit

/-! ### Statements in turn -/

/-- Statements that are all done have set the names of their declarations. -/
structure Declared (us : List Visit) (m n : Machine) : Prop where
  loaded : ∀ u ∈ us, ∃ exports, u.loaded = .done exports
  names : ∀ name, (n.arena.bindings m.current).binds name = true ↔
    (m.arena.bindings m.current).binds name = true ∨ ∃ u ∈ us, u.Sets name

theorem Stmt.localNames_of_isDeclaration {s : Stmt} (h : s.isDeclaration = false)
    (exports : Bindings) : s.localNames exports = [] := by
  cases s with
  | declare | action | rename | importFrom => cases h
  | _ => rfl

namespace Visit

/-- A statement that is done has set its names. -/
theorem Working.adds_localNames {bound : Nat} {s : Stmt} {host : Host} {held : List Value}
    {m : Machine} (hv : Working ⟨bound, .execute s, host, held, m⟩)
    (hs : s.isDeclaration = false → s.declares = false)
    (hdone : (Eval.execute bound s host held m).1.isDone = true) :
    ∃ exports, (⟨bound, .execute s, host, held, m⟩ : Visit).loaded = .done exports ∧
      m.Adds (Eval.execute bound s host held m).2 (s.localNames exports) := by
  cases hdeclaration : s.isDeclaration with
  | true =>
    have hextends := extends_declaration hv hdeclaration
    exact hextends.all hdone
  | false =>
    refine ⟨.empty, ?_, ?_⟩
    · cases s with
      | importFrom => cases hdeclaration
      | _ => rfl
    · rw [Stmt.localNames_of_isDeclaration hdeclaration]
      let v : Visit := ⟨bound, .execute s, host, held, m⟩
      exact v.adds_nil hv (hs hdeclaration)

end Visit

/-- What comes next is at work as well. -/
theorem Visit.Working.after {v : Visit} (hv : v.Working) {bound : Nat} {t : Job}
    {held : List Value} :
    Visit.Working ⟨bound, t, v.host, held, v.answer.2⟩ where
  reclaims := hv.reclaims
  sturdy := (v.guards.settles.frames hv.reclaims hv.sturdy).sturdy
  live := live_scope hv

/-- The statements are done one after the other. -/
theorem executeAll_normal {bound : Nat} {s : Stmt} {rest : List Stmt} {host : Host}
    {held : List Value} {m n : Machine}
    (h : Eval.executeAll (bound + 1) (s :: rest) host held m = (.done .normal, n)) :
    ∃ k, Eval.execute bound s host held m = (.done .normal, k) ∧
      Eval.executeAll bound rest host held k = (.done .normal, n) := by
  rw [Eval.executeAll] at h
  rcases hstep : Eval.execute bound s host held m with ⟨outcome, k⟩
  cases outcome with
  | done flow =>
    rw [bind_of_done hstep] at h
    cases flow with
    | normal => exact ⟨k, rfl, h⟩
    | returned vs => cases h
  | failed fault =>
    rw [bind_of_failed hstep] at h
    cases h
  | exhausted =>
    rw [bind_of_exhausted hstep] at h
    cases h

theorem executeAll_declared {bound : Nat} {ss : List Stmt} {host : Host} {held : List Value}
    {m n : Machine} (hparts : ∀ s ∈ ss, s.isDeclaration = false → s.declares = false)
    (hv : Visit.Working ⟨bound, .executeAll ss, host, held, m⟩)
    (hrun : Eval.executeAll bound ss host held m = (.done .normal, n)) :
    (inTurn bound ss host held m).map Visit.job = ss.map .execute ∧
      Declared (inTurn bound ss host held m) m n := by
  induction ss generalizing bound m with
  | nil =>
    cases bound with
    | zero => cases hrun
    | succ bound =>
      rw [Eval.executeAll] at hrun
      cases hrun
      exact ⟨rfl, List.forall_mem_nil _, fun name => by simp [inTurn, Trace.none]⟩
  | cons s rest ih =>
    cases bound with
    | zero => cases hrun
    | succ bound =>
      obtain ⟨k, hstep, hrest⟩ := executeAll_normal hrun
      let u : Visit := ⟨bound, .execute s, host, held, m⟩
      have hu : u.Working := ⟨⟨hv.reclaims, hv.sturdy⟩, hv.live⟩
      obtain ⟨hs, hparts⟩ := List.forall_mem_cons.1 hparts
      obtain ⟨exports, hloaded, hadds⟩ := hu.adds_localNames hs (by rw [hstep]; rfl)
      have hanswer : u.answer.2 = k := congrArg Prod.snd hstep
      have hscope : k.current = m.current := hanswer ▸ u.scope_eq
      have hk : Visit.Working ⟨bound, .executeAll rest, host, held, k⟩ := hanswer ▸ hu.after
      rw [hstep] at hadds
      obtain ⟨hjobs, hdeclared⟩ := ih hparts hk hrest
      have hturn : inTurn (bound + 1) (s :: rest) host held m =
          u :: inTurn bound rest host held k := Trace.append_of_done hstep
      rw [hturn]
      refine ⟨by rw [List.map_cons, hjobs]; rfl, ?_, fun name => ?_⟩
      · exact List.forall_mem_cons.2 ⟨⟨exports, hloaded⟩, hdeclared.loaded⟩
      · have hset : name ∈ s.localNames exports ↔ u.Sets name := by
          refine ⟨fun hname => ⟨s, exports, rfl, hloaded, hname⟩, ?_⟩
          rintro ⟨s', exports', hjob, hloaded', hname⟩
          cases hjob
          rw [hloaded] at hloaded'
          cases hloaded'
          exact hname
        have hnames := hdeclared.names name
        rw [hscope] at hnames
        rw [hnames, hadds name, hset, or_assoc, List.exists_mem_cons_iff]

/-! ### Runs that end -/

section Outcomes

variable {α : Type} (x : Eval α) (host : Host) (held : List Value) (m : Machine)

theorem outcome_inModule (path : String) :
    (inModule path x host held m).1 = (x host held (m.beginModule path)).1 := rfl

theorem outcome_inScope (parent : Slot) (values : α → List Value) :
    (inScope parent values x host held m).1 = (x host held (m.enter parent)).1 := by
  unfold inScope
  dsimp only
  generalize x host held (m.enter parent) = r
  obtain ⟨outcome, n⟩ := r
  cases outcome <;> rfl

end Outcomes

section Runs

variable {bound : Nat} {path text : String} {host : Host} {held : List Value} {m k : Machine}
  {program : Program}

/-- Once a module is read, its top level is run in a scope of its own. -/
theorem outcome_runModule (h : Eval.moduleProgram path text host held m = (.done program, k)) :
    (Eval.runModule (bound + 1) path text host held m).1 =
      ((Eval.executeAll bound program.body >>= fun
        | .normal => Eval.machine >>= fun n => pure (n.arena.bindings n.current)
        | .returned _ => fail .returnOutside) host held
          ((k.beginModule path).enter (k.beginModule path).current)).1 := by
  rw [Eval.runModule, bind_of_done h, outcome_inModule, bind_of_done (n := k.beginModule path) rfl]
  exact outcome_inScope _ _ _ _ _ _

theorem executeAll_of_exports {ss : List Stmt} {exports : Bindings}
    (h : ((Eval.executeAll bound ss >>= fun
      | .normal => Eval.machine >>= fun n => pure (n.arena.bindings n.current)
      | .returned _ => fail .returnOutside) host held m).1 = .done exports) :
    ∃ n, Eval.executeAll bound ss host held m = (.done .normal, n) ∧
      exports = n.arena.bindings n.current := by
  rcases hall : Eval.executeAll bound ss host held m with ⟨outcome, n⟩
  cases outcome with
  | done flow =>
    rw [bind_of_done hall] at h
    cases flow with
    | normal =>
      cases h
      exact ⟨n, rfl, rfl⟩
    | returned vs => cases h
  | failed fault =>
    rw [bind_of_failed hall] at h
    cases h
  | exhausted =>
    rw [bind_of_exhausted hall] at h
    cases h

end Runs

namespace Visit.Completes

variable {v : Visit} {path text : String} {exports : Bindings}

/-- The top level of a module starts in a new scope. -/
theorem opening_working (hv : v.Working) (hjob : v.job = .runModule path text) :
    Working ⟨v.bound - 1, .executeAll v.body, v.host, v.held, v.opening⟩ ∧
      v.opening.arena.bindings v.opening.current = .empty := by
  obtain ⟨bound, job, host, held, m⟩ := v
  dsimp only at hjob
  subst hjob
  rcases hread : Eval.moduleProgram path text host held m with ⟨outcome, k⟩
  have harena : k.arena = m.arena := by
    have h := arena_moduleProgram path text host held m
    rwa [hread] at h
  have hsturdy : k.arena.Sturdy := harena ▸ hv.sturdy
  have hopening : opening ⟨bound, .runModule path text, host, held, m⟩ =
      (k.beginModule path).enter (k.beginModule path).current := by
    simp only [opening, hread]
  rw [hopening]
  refine ⟨⟨⟨hv.reclaims, hsturdy.push k.current⟩, ?_⟩, ?_⟩
  · exact hsturdy.ledger.live_push.2 (.inl (Arena.push_fst _ _))
  · exact Arena.bindings_push_self (fun _ => hsturdy.ledger.lt_size) k.current

/-- The module has been read, and its top level has been run to the end. -/
theorem executed (h : v.Completes path text exports) :
    (∃ program, (Program.ofSource ⟨path, text⟩).1 = .ok program ∧ v.body = program.body) ∧
      Eval.executeAll (v.bound - 1) v.body v.host v.held v.opening = (.done .normal, v.closing) ∧
      exports = v.closing.arena.bindings v.closing.current ∧
      v.visits = v :: Job.visits (v.bound - 1) (.executeAll v.body) v.host v.held v.opening := by
  obtain ⟨bound, job, host, held, m⟩ := v
  obtain ⟨hjob, hdone⟩ := h
  dsimp only at hjob hdone
  subst hjob
  cases bound with
  | zero => cases hdone
  | succ bound =>
    rcases hread : Eval.moduleProgram path text host held m with ⟨outcome, k⟩
    cases outcome with
    | failed fault =>
      rw [Eval.runModule, bind_of_failed hread] at hdone
      cases hdone
    | exhausted =>
      rw [Eval.runModule, bind_of_exhausted hread] at hdone
      cases hdone
    | done program =>
      have hprogram := program_of_moduleProgram hread
      rw [outcome_runModule hread] at hdone
      obtain ⟨n, hall, hexports⟩ := executeAll_of_exports hdone
      have hbody : body ⟨bound + 1, .runModule path text, host, held, m⟩ = program.body := by
        simp only [body, hprogram]
      have hopening : opening ⟨bound + 1, .runModule path text, host, held, m⟩ =
          (k.beginModule path).enter (k.beginModule path).current := by
        simp only [opening, hread]
      have hclosing : closing ⟨bound + 1, .runModule path text, host, held, m⟩ = n := by
        rw [closing, hbody, hopening]
        exact congrArg Prod.snd hall
      have hbelow : Job.below bound (Job.visits bound) (.runModule path text) host held m =
          Job.visits bound (.executeAll program.body) host held
            ((k.beginModule path).enter (k.beginModule path).current) :=
        Trace.andThen_of_done hread
      rw [hbody, hopening, hclosing]
      exact ⟨⟨program, hprogram, rfl⟩, hall, hexports, congrArg (_ :: ·) hbelow⟩

/-- What a completed run has exported is what the statements of its top level have set. -/
theorem declared (h : v.Completes path text exports) (hv : v.Working) :
    v.topLevel.map Visit.job = v.body.map .execute ∧
      exports = v.closing.arena.bindings v.opening.current ∧
      (∀ u ∈ v.topLevel, ∃ exports, u.loaded = .done exports) ∧
      ∀ name, exports.binds name = true ↔ ∃ u ∈ v.topLevel, u.Sets name := by
  obtain ⟨⟨program, hprogram, hbody⟩, hall, hexports, -⟩ := h.executed
  obtain ⟨hopen, hempty⟩ := opening_working hv h.job
  let top : Visit := ⟨v.bound - 1, .executeAll v.body, v.host, v.held, v.opening⟩
  have hparts : ∀ s ∈ v.body, s.isDeclaration = false → s.declares = false := fun s hs =>
    Program.parts_placed (Program.ofTokens_of_ofSource hprogram)
      (Stmt.mem_partsOfAll.2 ⟨s, hbody ▸ hs, s.mem_parts_self⟩)
  have hscope : v.closing.current = v.opening.current := top.scope_eq
  obtain ⟨hjobs, hdeclared⟩ := executeAll_declared hparts hopen hall
  refine ⟨hjobs, hscope ▸ hexports, hdeclared.loaded, fun name => ?_⟩
  rw [hexports, hscope, hdeclared.names, hempty]
  exact or_iff_right nofun

end Visit.Completes

end Playscript

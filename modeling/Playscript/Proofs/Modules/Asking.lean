/-
# What visits ask for

A visit asks for others in four ways (`Visit.Asks`): for what is written in its
job, or is called there, with the same files and modules under way; an import asks
for a file, by its canonical path in the directory of the module under way; a file
that is imported asks for the run of its text, if it is not under way already; and
the run of a text asks for its statements, with the file under way. Whatever is
claimed of the stack behind a visit is shown one such step at a time.

Key definitions: `Loader.Beside`, `Visit.Asks`.
Key theorems: `Loads.beside`, `Visit.asks_of_mem`, `Visit.asks_induction`.
-/
import Playscript.Proofs.Modules.Loads
import Playscript.Proofs.Trace.Calls
import Playscript.Proofs.Trace.Sessions

namespace Playscript

open Eval Job

/-! ### Beside the modules under way -/

/-- The same files and modules are under way, and for them the same is kept. -/
structure Loader.Beside (c d : Loader) : Prop where
  files : d.files = c.files
  loading : d.modules.loading = c.modules.loading
  kept : ∀ path ∈ c.modules.loading, d.modules.get? path = c.modules.get? path

namespace Loader.Beside

variable {c d e : Loader}

theorem refl (c : Loader) : c.Beside c := ⟨rfl, rfl, fun _ _ => rfl⟩

theorem trans (h : c.Beside d) (h' : d.Beside e) : c.Beside e where
  files := h'.files.trans h.files
  loading := h'.loading.trans h.loading
  kept path hpath := (h'.kept path (h.loading ▸ hpath)).trans (h.kept path hpath)

end Loader.Beside

/-- What is loaded leaves what is kept for the modules under way: none of them is run. -/
theorem Loads.beside {policy : CachePolicy} {c d : Loader} {vs : List Visit}
    (h : Loads policy c vs d) : c.Beside d where
  files := h.restores.1
  loading := h.restores.2
  kept _ hpath := h.get?_of_not_runs fun _ hv hruns => h.not_loading hv hruns hpath

/-- Whatever is evaluated, the files and modules under way stay, and so does what is kept for
them. -/
theorem beside_run (bound : Nat) (t : Job) (host : Host) (held : List Value) (m : Machine) :
    m.loader.Beside (t.run bound host held m).2.loader := by
  cases ht : t.runsModule with
  | false => exact (loads_visits bound ht host held m).beside
  | true =>
    cases t with
    | runModule path text =>
      obtain ⟨d, vs, -, hd, hloader⟩ := exists_loads_runModule
        (fun b ss _ => loads_walk.visits b (.executeAll ss) rfl) path text host held m
      -- the file is started before `d` and ended after it
      have hd := hd.beside
      rw [Job.run, hloader]
      exact ⟨congrArg List.tail hd.files, congrArg List.tail hd.loading,
        fun other hother => hd.kept other (List.mem_cons_of_mem _ hother)⟩
    | _ => cases ht

/-! ### The ways of asking -/

/-- What a visit asks for. -/
inductive Visit.Asks : Visit → Visit → Prop where
  | within {v u : Visit} : u.bound + 1 = v.bound → u.host = v.host → v.job.opensFile = false →
    v.job.Within u.job → v.machine.loader.Beside u.machine.loader → Asks v u
  | file {bound : Nat} {source path : String} {host : Host} {held : List Value} {m : Machine} :
    Library.moduleOf? source = none →
      host.disk.canonical? (Path.join (m.directory host.settings) source) = some path →
      Asks ⟨bound + 1, .moduleExports source, host, held, m⟩
        ⟨bound, .fileExports source path, host, held, m⟩
  | module {bound : Nat} {source path text : String} {host : Host} {held : List Value}
      {m : Machine} :
    path ∉ m.modules.loading → host.disk.read path = .ok text →
      (host.settings.policy = .reuse → m.modules.get? path = none) →
      Asks ⟨bound + 1, .fileExports source path, host, held, m⟩
        ⟨bound, .runModule path text, host, held, m⟩
  | body {bound : Nat} {path text : String} {host : Host} {held : List Value} {m n : Machine}
      {program : Program} :
    (Program.ofSource ⟨path, text⟩).1 = .ok program → n.loader = m.loader.enter path →
      Asks ⟨bound + 1, .runModule path text, host, held, m⟩
        ⟨bound, .executeAll program.body, host, held, n⟩

/-! ### Asking without opening a file -/

/-- What an evaluation asks for belongs to a job, beside what is under way. -/
def AsksBy (t : Job) (bound : Nat) {α : Type} (x : Eval α) (tr : Trace) : Prop :=
  ∀ host held m, m.loader.Beside (x host held m).2.loader ∧
    ∀ u ∈ tr host held m, u.bound = bound ∧ u.host = host ∧ t.Within u.job ∧
      m.loader.Beside u.machine.loader

namespace AsksBy

variable {t : Job} {bound : Nat} {α β : Type} {x : Eval α} {k : α → Eval β} {tr : Trace}
  {rest : α → Trace}

theorem quiet (hx : Quiet x) : AsksBy t bound x .none := by
  intro host held m
  rw [hx.loader host held m]
  exact ⟨.refl _, List.forall_mem_nil _⟩

theorem andThen (hx : AsksBy t bound x tr) (hk : ∀ a, AsksBy t bound (k a) (rest a)) :
    AsksBy t bound (x >>= k) (.andThen x tr rest) := by
  intro host held m
  have hx := hx host held m
  show m.loader.Beside (Eval.bind x k host held m).2.loader ∧
    ∀ u ∈ Trace.andThen x tr rest host held m, _
  unfold Trace.andThen Eval.bind
  generalize x host held m = r at hx
  obtain ⟨outcome, n⟩ := r
  cases outcome with
  | done a =>
    obtain ⟨hn, hfirst⟩ := hx
    obtain ⟨ho, hrest⟩ := hk a host held n
    refine ⟨hn.trans ho, List.forall_mem_append.2 ⟨hfirst, fun u hu => ?_⟩⟩
    obtain ⟨hbound, hhost, hwithin, hbeside⟩ := hrest u hu
    exact ⟨hbound, hhost, hwithin, hn.trans hbeside⟩
  | failed fault => exact (List.append_nil (tr host held m)).symm ▸ hx
  | exhausted => exact (List.append_nil (tr host held m)).symm ▸ hx

theorem inScope (parent : Slot) (values : α → List Value) (hx : AsksBy t bound x tr) :
    AsksBy t bound (Eval.inScope parent values x) (.inScope parent tr) := by
  intro host held m
  have hx := hx host held (m.enter parent)
  unfold Eval.inScope Trace.inScope
  dsimp only
  generalize x host held (m.enter parent) = r at hx
  obtain ⟨outcome, n⟩ := r
  cases outcome <;> exact hx

end AsksBy

theorem asks_weave (t : Job) (bound : Nat) : Weave (AsksBy t bound) where
  quiet := .quiet
  andThen := .andThen
  holding vs hx host held m := hx host (vs ++ held) m
  inScope := .inScope

/-- A job alone is what its visit asks for. -/
theorem asksBy_alone {t u : Job} (bound : Nat) (hu : t.Within u) :
    AsksBy t bound (u.run bound) (alone bound u) := fun host held m =>
  ⟨(loads_visits bound (runsModule_of_opensFile hu.shut) host held m).beside,
    List.forall_mem_singleton.2 ⟨rfl, rfl, hu, .refl _⟩⟩

/-! ### Asking for files -/

/-- The import of a file asks for the run of its text or for nothing. -/
theorem belowFile_eq (sub : Job → Trace) (source path : String) (host : Host) (held : List Value)
    (m : Machine) :
    belowFile sub source path host held m = [] ∨
      path ∉ m.modules.loading ∧ (host.settings.policy = .reuse → m.modules.get? path = none) ∧
        ∃ text, host.disk.read path = .ok text ∧
          belowFile sub source path host held m = sub (.runModule path text) host held m := by
  rw [belowFile]
  by_cases hreuse : host.settings.policy = .reuse ∧ ∃ kept, m.modules.get? path = some kept
  · obtain ⟨hpolicy, kept, hget⟩ := hreuse
    rw [Trace.andThen_of_done (run_reusable?_some hpolicy hget)]
    exact .inl rfl
  have hnone : host.settings.policy = .reuse → m.modules.get? path = none := fun hpolicy =>
    Option.eq_none_iff_forall_ne_some.2 fun kept hget => hreuse ⟨hpolicy, kept, hget⟩
  rw [Trace.andThen_of_done (run_reusable?_none hnone)]
  dsimp only [Trace.machine]
  by_cases hloading : path ∈ m.modules.loading
  · rw [if_pos (List.contains_iff_mem.2 hloading)]
    exact .inl rfl
  rw [if_neg (mt List.contains_iff_mem.1 hloading)]
  have htext : Eval.moduleText source path host held m = _ := run_moduleText
  cases hread : host.disk.read path with
  | error cause =>
    rw [hread] at htext
    rw [Trace.andThen_of_failed htext]
    exact .inl rfl
  | ok text =>
    rw [hread] at htext
    rw [Trace.andThen_of_done htext, Trace.andThen_of_done run_unchanged?]
    dsimp only
    generalize (if host.settings.policy = .revalidate then _ else none : Option Bindings) = serves?
    cases serves? with
    | some exports => exact .inl rfl
    | none => exact .inr ⟨hloading, hnone, text, rfl, rfl⟩

theorem program_of_moduleProgram {path text : String} {host : Host} {held : List Value}
    {m n : Machine} {program : Program}
    (h : Eval.moduleProgram path text host held m = (.done program, n)) :
    (Program.ofSource ⟨path, text⟩).1 = .ok program := by
  unfold Eval.moduleProgram at h
  generalize Program.ofSource ⟨path, text⟩ = result at h ⊢
  obtain ⟨program?, log⟩ := result
  cases program? with
  | ok p =>
    cases h
    rfl
  | error d => cases h

/-- The run of a text asks for the statements of its program, with the file under way. -/
theorem mem_below_runModule {bound : Nat} {path text : String} {host : Host} {held : List Value}
    {m : Machine} {u : Visit}
    (hu : u ∈ below bound (alone bound) (.runModule path text) host held m) :
    ∃ program n, (Program.ofSource ⟨path, text⟩).1 = .ok program ∧
      n.loader = m.loader.enter path ∧ u = ⟨bound, .executeAll program.body, host, held, n⟩ := by
  have hloader := (quiet_moduleProgram path text).loader host held m
  rw [below] at hu
  rcases hrun : Eval.moduleProgram path text host held m with ⟨outcome, n⟩
  rw [hrun] at hloader
  cases outcome with
  | done program =>
    rw [Trace.andThen_of_done hrun] at hu
    have hentered : ((n.beginModule path).enter n.current).loader = m.loader.enter path :=
      congrArg (fun c : Loader => c.enter path) hloader
    exact ⟨program, _, program_of_moduleProgram hrun, hentered, List.mem_singleton.1 hu⟩
  | failed fault =>
    rw [Trace.andThen_of_failed hrun] at hu
    cases hu
  | exhausted =>
    unfold Trace.andThen at hu
    rw [hrun] at hu
    cases hu

/-- Every visit asks in one of the four ways. -/
theorem Visit.asks_of_mem {v u : Visit} (hu : u ∈ v.asks) : v.Asks u := by
  obtain ⟨bound, t, host, held, m⟩ := v
  cases bound with
  | zero => cases hu
  | succ bound =>
    change u ∈ below bound (alone bound) t host held m at hu
    have hwithin (ht : t.opensFile = false) (x : Eval t.Result)
        (hx : AsksBy t bound x (below bound (alone bound) t)) :
        Visit.Asks ⟨bound + 1, t, host, held, m⟩ u := by
      obtain ⟨hbound, hhost, hwithin, hbeside⟩ := (hx host held m).2 u hu
      exact .within (congrArg (· + 1) hbound) hhost ht hwithin hbeside
    cases t with
    | execute s =>
      rw [List.mem_singleton.1 hu]
      exact .within rfl rfl rfl (.part rfl (List.Subset.refl _)) (.refl _)
    | evaluate e =>
      rw [List.mem_singleton.1 hu]
      exact .within rfl rfl rfl (.silent rfl rfl) (.refl _)
    | moduleExports source =>
      rw [below] at hu
      cases hmodule : Library.moduleOf? source with
      | some name =>
        rw [hmodule] at hu
        cases hu
      | none =>
        rw [hmodule] at hu
        dsimp only [Trace.machine, Trace.host] at hu
        cases hpath : host.disk.canonical? (Path.join (m.directory host.settings) source) with
        | none =>
          rw [hpath] at hu
          cases hu
        | some path =>
          rw [hpath] at hu
          rw [List.mem_singleton.1 hu]
          exact .file hmodule hpath
    | fileExports source path =>
      rw [below] at hu
      rcases belowFile_eq (alone bound) source path host held m with
        hnil | ⟨hloading, hnone, text, hread, hrun⟩
      · rw [hnil] at hu
        cases hu
      · rw [hrun] at hu
        rw [List.mem_singleton.1 hu]
        exact .module hloading hread hnone
    | runModule path text =>
      obtain ⟨program, n, hprogram, hloader, rfl⟩ := mem_below_runModule hu
      exact .body hprogram hloader
    | _ =>
      refine hwithin rfl _ ((asks_weave _ bound).below (fun _ => asksBy_alone bound) rfl rfl ?_)
      exact fun _ _ himport => by cases himport

/-! ### The stack behind a visit -/

namespace Visit

variable {root u v : Visit}

theorem Asks.bound (h : v.Asks u) : u.bound + 1 = v.bound := by
  cases h with
  | within hbound => exact hbound
  | file | module | body => rfl

theorem Asks.host (h : v.Asks u) : u.host = v.host := by
  cases h with
  | within _ hhost => exact hhost
  | file | module | body => rfl

/-- What holds of a visit when it holds of those that it asks for holds of every visit. -/
theorem asks_induction {motive : Visit → Prop} (h : ∀ v, (∀ u ∈ v.asks, motive u) → motive v)
    (v : Visit) : motive v := by
  induction hbound : v.bound generalizing v with
  | zero =>
    refine h v fun u hu => ?_
    have hdepth := (asks_of_mem hu).bound
    omega
  | succ bound ih =>
    refine h v fun u hu => ih u ?_
    have hdepth := (asks_of_mem hu).bound
    omega

theorem Stack.exists_of_mem {callers : List Visit} (h : Stack root (u :: callers))
    (hv : v ∈ u.visits) : ∃ callers, Stack root (v :: callers) := by
  induction u using asks_induction generalizing callers with
  | h u ih =>
    rw [visits_eq] at hv
    rcases List.mem_cons.1 hv with rfl | hv
    · exact ⟨callers, h⟩
    · obtain ⟨w, hw, hv⟩ := List.mem_flatMap.1 hv
      exact ih w hw (.ask h hw) hv

/-- Behind every visit there is a stack. -/
theorem exists_stack (hv : v ∈ root.visits) : ∃ callers, Stack root (v :: callers) :=
  Stack.exists_of_mem .root hv

theorem Stack.host_eq {vs : List Visit} (h : Stack root vs) : ∀ v ∈ vs, v.host = root.host := by
  induction h with
  | root => exact List.forall_mem_singleton.2 rfl
  | ask _ hu ih =>
    obtain ⟨hv, -⟩ := List.forall_mem_cons.1 ih
    exact List.forall_mem_cons.2 ⟨(asks_of_mem hu).host.trans hv, ih⟩

end Visit

/-! ### Requests -/

/-- The jobs of a request. -/
inductive Request.Has (kept : List Value) : Request → Job → Prop where
  | interpret {program : Program} {s : Stmt} :
    s ∈ program.body → Has kept (.interpret program) (.execute s)
  | run (program : Program) : Has kept (.run program) (.executeAll program.body)
  | execute (s : Stmt) : Has kept (.execute s) (.execute s)
  | evaluate (e : Expr) : Has kept (.evaluate e) (.evaluate e)
  | call (f : Pick) (args : List Pick) (given : List Nat) :
    Has kept (.call f args given) (.call (f.value kept) (Pick.valueAll kept args))

/-- A visit that a request starts with: of one of its jobs, beside what is under way. -/
structure Request.Starts (i : Interpreter) (host : Host) (r : Request) (root : Visit) : Prop where
  job : r.Has i.held root.job
  host : root.host = host
  beside : i.machine.loader.Beside root.machine.loader

theorem exists_root_topVisits {bound : Nat} {ss : List Stmt} {host : Host} {held : List Value}
    {m : Machine} {v : Visit} (hv : v ∈ Interpreter.topVisits bound ss host held m) :
    ∃ (root : Visit) (s : Stmt), s ∈ ss ∧ root.job = .execute s ∧ root.host = host ∧
      m.loader.Beside root.machine.loader ∧ v ∈ root.visits := by
  induction ss generalizing m with
  | nil => cases hv
  | cons s rest ih =>
    have hbeside := beside_run bound (.execute s) host held m
    rw [Interpreter.topVisits, Trace.andThen] at hv
    rw [Job.run] at hbeside
    generalize Eval.execute bound s host held m = r at hv hbeside
    obtain ⟨outcome, n⟩ := r
    rcases List.mem_append.1 hv with hv | hv
    · exact ⟨⟨bound, .execute s, host, held, m⟩, s, List.mem_cons_self, rfl, rfl, .refl _, hv⟩
    · cases outcome with
      | done flow =>
        cases flow with
        | normal =>
          obtain ⟨root, s', hs', hjob, hhost, hroot, hv⟩ := ih hv
          exact ⟨root, s', List.mem_cons_of_mem _ hs', hjob, hhost, hbeside.trans hroot, hv⟩
        | returned vs => cases hv
      | failed fault => cases hv
      | exhausted => cases hv

/-- Whatever a request visits is visited from a visit it starts with. -/
theorem Request.exists_root {bound : Nat} {i : Interpreter} {host : Host} {r : Request} {v : Visit}
    (hv : v ∈ r.visits bound i host) : ∃ root, r.Starts i host root ∧ v ∈ root.visits := by
  cases r with
  | interpret program =>
    obtain ⟨root, s, hs, hjob, hhost, hbeside, hv⟩ := exists_root_topVisits hv
    exact ⟨root, ⟨hjob ▸ .interpret hs, hhost, hbeside⟩, hv⟩
  | run program => exact ⟨⟨bound, _, _, _, _⟩, ⟨.run program, rfl, .refl _⟩, hv⟩
  | execute s => exact ⟨⟨bound, _, _, _, _⟩, ⟨.execute s, rfl, .refl _⟩, hv⟩
  | evaluate e => exact ⟨⟨bound, _, _, _, _⟩, ⟨.evaluate e, rfl, .refl _⟩, hv⟩
  | call f args given => exact ⟨⟨bound, _, _, _, _⟩, ⟨.call f args given, rfl, .refl _⟩, hv⟩
  | look | invalidate | drop | edit | wait => cases hv

theorem Request.Has.opensFile {kept : List Value} {r : Request} {t : Job} (h : r.Has kept t) :
    t.opensFile = false := by
  cases h <;> rfl

end Playscript

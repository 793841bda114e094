/-
# What a module exports

A module exports the names that its top level declares (`Visit.Completes.declared`), among them,
for each module that it imports whole, all names which that one exports. That is either a
standard module or a file that has run to its end before, whose names are those of its own
declarations again (`Visit.Declares`). The modules that are kept are followed from run to
run, in the order in which the runs end (`Loads.accounted`).

Key definitions: `Visit.Declares`, `Visit.Accounts`, `Visit.Origin`, `Loader.Accounted`.
Key theorems: `Loads.accounted`, `Visit.execute_list`, `Session.exports_declared`.
-/
import Playscript.Proofs.Modules.Listing
import Playscript.Proofs.Modules.Policy
import Playscript.Proofs.Modules.TopLevel

namespace Playscript

open Eval Job

/-! ### Declarations, from module to module -/

namespace Visit

/-- The import of a source is answered with what the run of its file has exported. -/
structure LoadsFrom (u : Visit) (source : String) (w : Visit) : Prop where
  nonstandard : Library.moduleOf? source = none
  made : ∃ path text kept,
    u.host.disk.canonical? (Path.join (u.machine.directory u.host.settings) source) = some path ∧
      w.Made path text kept ∧ u.loaded = .done kept.exports

/-- The names a module declares, when the modules it imports have run in some visits. -/
inductive Declares (runs : List Visit) : Visit → String → Prop where
  /-- A variable, an action, a new name of an action, or a listed item of an import. -/
  | named {v : Visit} {s : Stmt} {name : String} :
    s ∈ v.body → name ∈ s.localNames .empty → Declares runs v name
  /-- What a standard module exports that is imported whole. -/
  | standard {v : Visit} {span : Span} {source library name : String} {exports : Bindings} :
    .importFrom span none source ∈ v.body → Library.moduleOf? source = some library →
      Library.exports? library = some exports → name ∈ exports.names → Declares runs v name
  /-- What another module declares that is imported whole. -/
  | module {v u w : Visit} {span : Span} {source name : String} :
    u ∈ v.topLevel → u.job = .execute (.importFrom span none source) → w ∈ runs →
      u.LoadsFrom source w → Declares runs w name → Declares runs v name

/-- A module that has run to its end has run its top level statement by statement; it exports
the frame that these have left, which binds exactly the names that the module declares. -/
structure Accounts (runs : List Visit) (v : Visit) (exports : Bindings) : Prop where
  complete : v.topLevel.map Visit.job = v.body.map .execute
  values : exports = v.closing.arena.bindings v.opening.current
  names : ∀ name, exports.binds name = true ↔ v.Declares runs name

end Visit

/-! ### Where an import comes from -/

/-- Where what an import has loaded comes from. -/
inductive Visit.Origin (u : Visit) (source : String) (exports : Bindings) : Prop where
  | standard {library : String} : Library.moduleOf? source = some library →
    Library.exports? library = some exports → Origin u source exports
  /-- A file whose module is kept when the import starts. -/
  | kept {path : String} {kept : CachedModule} : Library.moduleOf? source = none →
    u.host.disk.canonical? (Path.join (u.machine.directory u.host.settings) source) = some path →
    u.machine.modules.get? path = some kept → exports = kept.exports → Origin u source exports
  /-- A file that the import has run. -/
  | ran {path text : String} {kept : CachedModule} {w : Visit} : Library.moduleOf? source = none →
    u.host.disk.canonical? (Path.join (u.machine.directory u.host.settings) source) = some path →
    w ∈ u.visits → w.Made path text kept → exports = kept.exports → Origin u source exports

theorem FileImport.origin {i : FileImport} {exports : Bindings} (h : i.answer.1 = .done exports)
    {u : Visit} (hhost : u.host = i.host) (hmachine : u.machine = i.machine)
    (hvisits : ∀ w ∈ i.visits, w ∈ u.visits) : u.Origin i.source exports := by
  have hpath : u.host.disk.canonical? (Path.join (u.machine.directory u.host.settings) i.source) =
      some i.path := by
    rw [hhost, hmachine]
    exact i.resolves
  have himports := i.imports
  have hbelow : ∀ w ∈ belowFile (Job.visits i.bound) i.source i.path i.host i.held i.machine,
      w ∈ u.visits := fun w hw => hvisits w (by
    rw [visits_eq]
    exact List.mem_cons_of_mem _ (List.mem_cons_of_mem _ hw))
  generalize i.answer = r at himports h
  generalize belowFile (Job.visits i.bound) i.source i.path i.host i.held i.machine = vs
    at himports hbelow
  cases himports with
  | circular | unreadable => cases h
  | reused _ hget | unchanged _ _ _ hget =>
    cases h
    exact .kept i.nonstandard hpath (hmachine ▸ hget) rfl
  | @ran text _ hread _ _ =>
    let w : Visit := ⟨i.bound, .runModule i.path text, i.host, i.held, i.machine⟩
    rcases hrun : Eval.runModule i.bound i.path text i.host i.held i.machine with ⟨outcome, n⟩
    rw [hrun] at h
    cases outcome with
    | done exports' =>
      cases h
      have hw : w ∈ u.visits := hbelow w w.mem_visits_self
      have hmade : w.Made i.path text ⟨Digest.ofText text, exports⟩ :=
        ⟨rfl, hread, congrArg Prod.fst hrun, rfl⟩
      exact .ran i.nonstandard hpath hw hmade rfl
    | failed fault => cases h
    | exhausted => cases h

theorem Visit.origin_of_loaded {u : Visit} {span : Span} {items? : Option (List ImportItem)}
    {source : String} {exports : Bindings}
    (hjob : u.job = .execute (.importFrom span items? source))
    (h : u.loaded = .done exports) : u.Origin source exports := by
  obtain ⟨bound, job, host, held, m⟩ := u
  dsimp only at hjob
  subst hjob
  change (Eval.moduleExports (bound - 2) source host held m).1 = .done exports at h
  match bound, h with
  | 0, h | 1, h | 2, h => cases h
  | bound + 3, h =>
    change (Eval.moduleExports (bound + 1) source host held m).1 = .done exports at h
    rw [Eval.moduleExports] at h
    cases hmodule : Library.moduleOf? source with
    | some library =>
      rw [hmodule] at h
      dsimp only at h
      cases hexports : Library.exports? library with
      | none =>
        rw [hexports] at h
        cases h
      | some exports' =>
        rw [hexports] at h
        cases h
        exact .standard hmodule hexports
    | none =>
      rw [hmodule] at h
      dsimp only at h
      rw [bind_of_done (n := m) (a := m) rfl, bind_of_done (n := m) (a := host) rfl] at h
      cases hpath : host.disk.canonical? (Path.join (m.directory host.settings) source) with
      | none =>
        rw [hpath] at h
        cases h
      | some path =>
        rw [hpath] at h
        cases bound with
        | zero => cases h
        | succ bound =>
          let i : FileImport := ⟨bound, source, path, host, held, m, hmodule, hpath⟩
          refine FileImport.origin (i := i) (i.answer_eq ▸ h) rfl rfl fun w hw => ?_
          exact List.mem_cons_of_mem _ (List.mem_cons_of_mem _ hw)

/-! ### What is declared is exported -/

namespace Stmt

variable {s : Stmt} {name : String}

/-- What a statement declares does not depend on what it imports, unless it imports everything. -/
theorem localNames_of_ne (h : ∀ span source, s ≠ .importFrom span none source)
    (exports : Bindings) : s.localNames exports = s.localNames .empty := by
  cases s with
  | importFrom span items? source =>
    cases items? with
    | none => exact absurd rfl (h span source)
    | some items => rfl
  | _ => rfl

theorem localNames_empty_subset (exports : Bindings) :
    s.localNames .empty ⊆ s.localNames exports := by
  by_cases h : ∃ span source, s = .importFrom span none source
  · obtain ⟨span, source, rfl⟩ := h
    exact List.nil_subset _
  · rw [localNames_of_ne (fun span source heq => h ⟨span, source, heq⟩) exports]
    exact List.Subset.refl _

end Stmt

namespace Visit

variable {runs : List Visit} {v w u : Visit} {path text name : String} {exports : Bindings}

theorem Made.completes {kept : CachedModule} (h : w.Made path text kept) :
    w.Completes path text kept.exports := ⟨h.job, h.done⟩

namespace Completes

/-- Each statement of the body is one of the top level, and has loaded what it imports. -/
theorem exists_topLevel (h : v.Completes path text exports) (hv : v.Working) {s : Stmt}
    (hs : s ∈ v.body) : ∃ u ∈ v.topLevel, u.job = .execute s ∧ ∃ e, u.loaded = .done e := by
  obtain ⟨hjobs, -, hloaded, -⟩ := h.declared hv
  have hmem : Job.execute s ∈ v.topLevel.map Visit.job := hjobs ▸ List.mem_map_of_mem hs
  obtain ⟨u, hu, hjob⟩ := List.mem_map.1 hmem
  exact ⟨u, hu, hjob, hloaded u hu⟩

/-- And the other way round. -/
theorem mem_body (h : v.Completes path text exports) (hv : v.Working) (hu : u ∈ v.topLevel)
    {s : Stmt} (hjob : u.job = .execute s) : s ∈ v.body := by
  obtain ⟨hjobs, -⟩ := h.declared hv
  have hmem : u.job ∈ v.body.map Job.execute := hjobs ▸ List.mem_map_of_mem hu
  obtain ⟨s', hs', heq⟩ := List.mem_map.1 hmem
  rw [hjob] at heq
  cases heq
  exact hs'

end Completes

theorem Declares.binds (hruns : ∀ w ∈ runs, w.Working) (h : v.Declares runs name) (hv : v.Working)
    (hdone : v.Completes path text exports) : exports.binds name = true := by
  induction h generalizing path text exports with
  | @named v s name hs hname =>
    obtain ⟨u, hu, hjob, e, hloaded⟩ := hdone.exists_topLevel hv hs
    obtain ⟨-, -, -, hnames⟩ := hdone.declared hv
    exact (hnames name).2 ⟨u, hu, s, e, hjob, hloaded, Stmt.localNames_empty_subset e hname⟩
  | @standard v span source library name table hs hlibrary htable hname =>
    obtain ⟨u, hu, hjob, e, hloaded⟩ := hdone.exists_topLevel hv hs
    obtain ⟨-, -, -, hnames⟩ := hdone.declared hv
    cases origin_of_loaded hjob hloaded with
    | standard hlibrary' htable' =>
      rw [hlibrary] at hlibrary'
      cases hlibrary'
      rw [htable] at htable'
      cases htable'
      exact (hnames name).2 ⟨u, hu, _, table, hjob, hloaded, hname⟩
    | kept hnone | ran hnone =>
      rw [hlibrary] at hnone
      cases hnone
  | @module v u w span source name hu hjob hw hloads _ ih =>
    obtain ⟨-, -, -, hnames⟩ := hdone.declared hv
    obtain ⟨path, text, kept, -, hmade, hloaded⟩ := hloads.made
    have hbinds := ih (hruns w hw) hmade.completes
    exact (hnames name).2 ⟨u, hu, _, kept.exports, hjob, hloaded, Bindings.mem_names.2 hbinds⟩

/-! ### What is exported is declared -/

/-- A module declares all that it has exported. -/
def Owns (runs : List Visit) (v : Visit) : Prop := ∀ path text exports,
  v.Completes path text exports → ∀ name, exports.binds name = true → v.Declares runs name

end Visit

/-- All that is kept was exported by a run that has declared it. -/
def Loader.Accounted (runs : List Visit) (c : Loader) : Prop := ∀ path kept,
  c.modules.get? path = some kept → ∃ w ∈ runs, ∃ text, w.Made path text kept ∧ w.Owns runs

theorem Loader.Accounted.keep {runs : List Visit} {c : Loader} {policy : CachePolicy}
    {path : String} {kept? : Option CachedModule} (hc : c.Accounted runs)
    (h : ∀ kept, kept? = some kept → ∃ w ∈ runs, ∃ text, w.Made path text kept ∧ w.Owns runs) :
    (c.keep policy path kept?).Accounted runs := by
  intro other kept hget
  by_cases hpolicy : policy = .disabled
  · subst hpolicy
    rw [ModuleCache.get?, keep_entries] at hget
    exact hc other kept hget
  · rw [get?_keep hpolicy] at hget
    cases kept? with
    | none => exact hc other kept hget
    | some last =>
      dsimp only at hget
      split at hget
      · rename_i heq
        cases hget
        exact heq ▸ h kept rfl
      · exact hc other kept hget

namespace Visit

variable {runs : List Visit} {v u : Visit}

/-- A module declares all that it has exported if those that it imports do. -/
theorem owns_of_topLevel (hv : v.Working)
    (hkept : ∀ u ∈ v.topLevel, u.machine.loader.Accounted runs)
    (hran : ∀ u ∈ v.topLevel, ∀ w ∈ u.visits, w ∈ runs ∧ w.Owns runs) : v.Owns runs := by
  intro path text exports hdone name hname
  obtain ⟨-, -, -, hnames⟩ := hdone.declared hv
  obtain ⟨u, hu, s, e, hjob, hloaded, hset⟩ := (hnames name).1 hname
  have hs := hdone.mem_body hv hu hjob
  by_cases hwhole : ∃ span source, s = .importFrom span none source
  · obtain ⟨span, source, rfl⟩ := hwhole
    cases origin_of_loaded hjob hloaded with
    | standard hlibrary htable => exact .standard hs hlibrary htable hset
    | @kept path kept hnone hpath hget he =>
      subst he
      obtain ⟨w, hw, text, hmade, howns⟩ := hkept u hu path kept hget
      exact .module hu hjob hw ⟨hnone, path, text, kept, hpath, hmade, hloaded⟩
        (howns _ _ _ hmade.completes name (Bindings.mem_names.1 hset))
    | @ran path text kept w hnone hpath hw hmade he =>
      subst he
      obtain ⟨hw, howns⟩ := hran u hu w hw
      exact .module hu hjob hw ⟨hnone, path, text, kept, hpath, hmade, hloaded⟩
        (howns _ _ _ hmade.completes name (Bindings.mem_names.1 hset))
  · rw [Stmt.localNames_of_ne fun span source heq => hwhole ⟨span, source, heq⟩] at hset
    exact .named hs hset

end Visit

/-- What statements in turn visit is among what they visit together. -/
theorem mem_visits_of_inTurn {bound : Nat} {ss : List Stmt} {host : Host} {held : List Value}
    {m : Machine} {u w : Visit} (hu : u ∈ inTurn bound ss host held m) (hw : w ∈ u.visits) :
    w ∈ Job.visits bound (.executeAll ss) host held m := by
  induction ss generalizing bound m with
  | nil => cases bound <;> cases hu
  | cons s rest ih =>
    cases bound with
    | zero => cases hu
    | succ bound =>
      refine List.mem_cons_of_mem _ (Trace.mem_andThen.2 ?_)
      rcases Trace.mem_andThen.1 hu with hu | ⟨flow, k, hstep, hu⟩
      · rw [List.mem_singleton.1 hu] at hw
        exact .inl hw
      · cases flow with
        | normal => exact .inr ⟨.normal, k, hstep, ih hu⟩
        | returned vs => cases hu

/-- Whatever runs load is accounted for, in the order in which they end. -/
theorem Loads.accounted {policy : CachePolicy} {c d : Loader} {runs vs : List Visit}
    (h : Loads policy c vs d) (hruns : ∀ w ∈ runs, w.Working) (hvs : ∀ v ∈ vs, v ∈ runs)
    (hc : c.Accounted runs) :
    d.Accounted runs ∧ ∀ v ∈ vs, v.machine.loader.Accounted runs ∧ v.Owns runs := by
  induction h with
  | still => exact ⟨hc, List.forall_mem_nil _⟩
  | visit v hjob hmachine _ _ ih =>
    obtain ⟨hv, hvs⟩ := List.forall_mem_cons.1 hvs
    obtain ⟨hd, hrest⟩ := ih hvs hc
    have howns : v.Owns runs := fun path text _ hdone =>
      have hruns : v.Runs path := ⟨text, hdone.job⟩
      absurd hruns (Visit.not_runs_of hjob)
    exact ⟨hd, List.forall_mem_cons.2 ⟨⟨hmachine ▸ hc, howns⟩, hrest⟩⟩
  | trans _ _ ih ih' =>
    obtain ⟨hvs, hws⟩ := List.forall_mem_append.1 hvs
    obtain ⟨hd, hrest⟩ := ih hvs hc
    obtain ⟨he, hrest'⟩ := ih' hws hd
    exact ⟨he, List.forall_mem_append.2 ⟨hrest, hrest'⟩⟩
  | @run c d vs path text v hjob hmachine _ hread _ _ hvisits _ ih =>
    obtain ⟨hv, hvs⟩ := List.forall_mem_cons.1 hvs
    obtain ⟨hd, hrest⟩ := ih hvs hc
    have howns : v.Owns runs := by
      intro path text exports hdone
      obtain ⟨-, -, -, hbelow⟩ := hdone.executed
      have hmem : ∀ u ∈ v.topLevel, ∀ w ∈ u.visits, w ∈ vs := fun u hu w hw => by
        rw [Visit.visits, hvisits] at hbelow
        rw [(List.cons.inj hbelow).2]
        exact mem_visits_of_inTurn hu hw
      exact Visit.owns_of_topLevel (hruns v hv)
        (fun u hu => (hrest u (hmem u hu u u.mem_visits_self)).1)
        (fun u hu w hw => ⟨hvs w (hmem u hu w hw), (hrest w (hmem u hu w hw)).2⟩) _ _ _ hdone
    have hleave : d.leave.Accounted runs := hd
    refine ⟨hleave.keep fun kept hload => ?_,
      List.forall_mem_cons.2 ⟨⟨hmachine ▸ hc, howns⟩, hrest⟩⟩
    obtain ⟨other, hmade⟩ := Visit.exists_made hload fun other hother => by
      rw [hjob] at hother
      cases hother
      exact hread
    exact ⟨v, hv, other, hmade, howns⟩

theorem History.accounted {policy : CachePolicy} {c d : Loader} {runs vs : List Visit}
    (h : History policy c vs d) (hruns : ∀ w ∈ runs, w.Working) (hvs : ∀ v ∈ vs, v ∈ runs)
    (hc : c.Accounted runs) :
    d.Accounted runs ∧ ∀ v ∈ vs, v.machine.loader.Accounted runs ∧ v.Owns runs := by
  induction h with
  | loads h => exact h.accounted hruns hvs hc
  | forget c => exact ⟨nofun, List.forall_mem_nil _⟩
  | trans _ _ ih ih' =>
    obtain ⟨hvs, hws⟩ := List.forall_mem_append.1 hvs
    obtain ⟨hd, hrest⟩ := ih hvs hc
    obtain ⟨he, hrest'⟩ := ih' hws hd
    exact ⟨he, List.forall_mem_append.2 ⟨hrest, hrest'⟩⟩

/-! ### Tables that are loaded -/

namespace Visit

variable {runs : List Visit} {u v : Visit} {source : String} {exports : Bindings}

/-- What a module exports is in order. -/
theorem Completes.ordered {path text : String} (h : v.Completes path text exports)
    (hv : v.machine.arena.Ordered) : exports.Ordered := by
  obtain ⟨-, -, hexports, -⟩ := h.executed
  have hopening : v.opening.arena.Ordered := by
    rw [opening, h.job]
    dsimp only
    have harena := arena_moduleProgram path text v.host v.held v.machine
    exact Arena.Ordered.push (harena ▸ hv) _
  have hclosing := (orders_composes.uniform.visits (v.bound - 1) (.executeAll v.body) v.host v.held
    v.opening hopening).1
  exact hexports ▸ hclosing v.closing.current

/-- So is all that imports load. -/
theorem Origin.ordered (h : u.Origin source exports) (hu : ∀ w ∈ u.visits, w.machine.arena.Ordered)
    (hruns : ∀ w ∈ runs, w.machine.arena.Ordered) (hkept : u.machine.loader.Accounted runs) :
    exports.Ordered := by
  cases h with
  | @standard library _ htable =>
    obtain ⟨capsules, -, rfl⟩ := Option.map_eq_some_iff.1 htable
    exact .ofList _
  | @kept path kept _ _ hget he =>
    obtain ⟨w, hw, text, hmade, -⟩ := hkept path kept hget
    exact he ▸ hmade.completes.ordered (hruns w hw)
  | ran _ _ hw hmade he => exact he ▸ hmade.completes.ordered (hu _ hw)

/-- The import of a list of all names is that of everything. -/
theorem execute_list {bound : Nat} {span span' : Span} {items : List ImportItem}
    (hv : v.Working) (hordered : v.machine.arena.Ordered) (hexports : exports.Ordered)
    (hload : (Eval.moduleExports bound source v.host v.held v.machine).1 = .done exports)
    (hnew : ∀ i ∈ items, i.newName? = none)
    (hnames : ∀ n, n ∈ items.map (·.name.name) ↔ n ∈ exports.names) :
    Eval.execute (bound + 2) (.importFrom span (some items) source) v.host v.held v.machine =
      Eval.execute (bound + 2) (.importFrom span' none source) v.host v.held v.machine := by
  let load : Visit := ⟨bound, .moduleExports source, v.host, v.held, v.machine⟩
  have hloading : load.Working := ⟨⟨hv.reclaims, hv.sturdy⟩, hv.live⟩
  have hlive := load.live_scope hloading
  have hm := (orders_composes.uniform.visits bound (.moduleExports source) v.host v.held v.machine
    hordered).1
  rcases hrun : Eval.moduleExports bound source v.host v.held v.machine with ⟨outcome, n⟩
  have hanswer : load.answer.2 = n := congrArg Prod.snd hrun
  rw [hrun] at hload
  cases hload
  rw [hanswer] at hlive
  rw [Job.run, hrun] at hm
  have hall : bindExports none source exports v.host v.held n =
      (.done .normal, n.defineFrom exports exports.names) := bind_of_done (run_defineAll hexports)
  have hlist : bindExports (some items) source exports v.host v.held n =
      (.done .normal, n.defineFrom exports exports.names) := by
    rw [bindExports_list hexports hm hlive.isSome hnew hnames, hall]
  rw [Eval.execute, Eval.execute, perform_importFrom, perform_importFrom,
    claiming_of_done ((bind_of_done hrun).trans hlist),
    claiming_of_done ((bind_of_done hrun).trans hall)]

end Visit

/-! ### Sessions -/

namespace Session

/-- In a session every module that has run to its end exports the names that its top level
declares, with those of the modules that it imports whole, and no others: neither the names of its
blocks, loops and parameters, nor those of its importer. Wherever a visit starts, the import of
all these names by a list is that of everything. -/
theorem exports_declared (settings : Settings) (most : Nat) (clock : Clock) (disk : Disk)
    (requests : List Request) :
    let runs := (start clock disk).visits settings true most requests
    ∀ v ∈ runs,
      (∀ path text exports, v.Completes path text exports → v.Accounts runs exports) ∧
      ∀ bound span span' source exports items,
        (Eval.moduleExports bound source v.host v.held v.machine).1 = .done exports →
        (∀ i ∈ items, i.newName? = none) →
        (∀ n, n ∈ items.map (·.name.name) ↔ n ∈ exports.names) →
          Eval.execute (bound + 2) (.importFrom span (some items) source) v.host v.held v.machine =
            Eval.execute (bound + 2) (.importFrom span' none source) v.host v.held v.machine := by
  intro runs v hv
  have hstart := orderly_start clock disk
  have hlive := working_start clock disk
  have hworking : ∀ w ∈ runs, w.Working := fun w hw =>
    ⟨(orderly_after settings most hstart requests).2 w hw,
      working_after settings most hstart hlive requests w hw⟩
  have haccounted := (history settings true most (start clock disk) requests).accounted hworking
    (fun _ => id) nofun
  refine ⟨fun path text exports hdone => ?_, ?_⟩
  · obtain ⟨hcomplete, hvalues, -⟩ := hdone.declared (hworking v hv)
    have howns := (haccounted.2 v hv).2 path text exports hdone
    exact ⟨hcomplete, hvalues, fun name =>
      ⟨howns name, fun h => h.binds hworking (hworking v hv) hdone⟩⟩
  · intro bound span span' source exports items hload hnew hnames
    have hordered := ordered_after settings most (s := start clock disk) .empty requests
    let u : Visit := ⟨bound + 2, .execute (.importFrom span none source), v.host, v.held, v.machine⟩
    have hu := (orders_composes.uniform.visits (bound + 2) u.job v.host v.held v.machine
      (hordered v hv)).2
    have horigin : u.Origin source exports := Visit.origin_of_loaded rfl hload
    have hexports := horigin.ordered hu hordered (haccounted.2 v hv).1
    exact Visit.execute_list (hworking v hv) (hordered v hv) hexports hload hnew hnames

/-- A module that imports another one whole. -/
def nestedModules : Disk where
  canonical? := some
  read path :=
    if path = "./m.gvx" then
      .ok "import \"n.gvx\"; action f(int x) \x7b int y = x; \x7d int b = 1;"
    else if path = "./n.gvx" then .ok "int a = 1;"
    else .error .missing

/-- Whether a visit has run the module of a path to its end, and some names are exported. -/
def exportsNames (path : String) (names : List String) (v : Visit) : Bool :=
  match v.job with
  | .runModule p text =>
    match (Eval.runModule v.bound p text v.host v.held v.machine).1 with
    | .done exports => p == path && exports.names == names
    | _ => false
  | _ => false

theorem completes_of_exportsNames {path : String} {names : List String} {v : Visit}
    (h : exportsNames path names v = true) :
    ∃ text exports, v.Completes path text exports ∧ exports.names = names := by
  unfold exportsNames at h
  split at h
  · rename_i p text hjob
    split at h
    · rename_i exports hdone
      rw [Bool.and_eq_true, beq_iff_eq, beq_iff_eq] at h
      obtain ⟨rfl, hnames⟩ := h
      exact ⟨text, exports, ⟨hjob, hdone⟩, hnames⟩
    · cases h
  · cases h

/-- Whether the import of a source where a visit starts loads some names. -/
def loadsNames (source : String) (names : List String) (v : Visit) : Bool :=
  match (Eval.moduleExports 30 source v.host v.held v.machine).1 with
  | .done exports => exports.names == names
  | _ => false

theorem done_of_loadsNames {source : String} {names : List String} {v : Visit}
    (h : loadsNames source names v = true) :
    ∃ exports, (Eval.moduleExports 30 source v.host v.held v.machine).1 = .done exports ∧
      exports.names = names := by
  unfold loadsNames at h
  split at h
  · rename_i exports hdone
    exact ⟨exports, hdone, beq_iff_eq.1 h⟩
  · cases h

/-- The module exports the name of the one that it imports, and no name of its action's body. -/
theorem exports_declared_nestedModules :
    let runs := (start ⟨0, 0⟩ nestedModules).visits .standard true 40
      [.execute (.importFrom default none "m.gvx")]
    ∃ v ∈ runs, (∃ text exports, v.Completes "./m.gvx" text exports ∧
        exports.names = ["a", "b", "f"] ∧ v.Declares runs "a" ∧ ¬ v.Declares runs "y") ∧
      Eval.execute 32 (.importFrom default (some [⟨⟨"a", default⟩, none⟩]) "n.gvx") v.host v.held
          v.machine =
        Eval.execute 32 (.importFrom default none "n.gvx") v.host v.held v.machine := by
  intro runs
  have hfound : (runs.find? fun v =>
      exportsNames "./m.gvx" ["a", "b", "f"] v && loadsNames "n.gvx" ["a"] v).isSome = true := by
    decide +kernel
  obtain ⟨v, hfind⟩ := Option.isSome_iff_exists.1 hfound
  have hv : v ∈ runs := List.mem_of_find?_eq_some hfind
  have hboth := List.find?_some hfind
  obtain ⟨hexports, hloads⟩ := Bool.and_eq_true_iff.1 hboth
  obtain ⟨text, exports, hdone, hnames⟩ := completes_of_exportsNames hexports
  obtain ⟨loaded, hload, hloaded⟩ := done_of_loadsNames hloads
  obtain ⟨haccounts, hlist⟩ := exports_declared .standard 40 ⟨0, 0⟩ nestedModules _ v hv
  have hdeclares (name : String) : name ∈ exports.names ↔ v.Declares runs name := by
    rw [Bindings.mem_names]
    exact (haccounts "./m.gvx" text exports hdone).names name
  refine ⟨v, hv, ⟨text, exports, hdone, hnames, ?_, ?_⟩, ?_⟩
  · rw [← hdeclares, hnames]
    exact List.mem_cons_self
  · rw [← hdeclares, hnames]
    decide
  · refine hlist 30 default default "n.gvx" loaded _ hload ?_ fun n => ?_
    · exact List.forall_mem_singleton.2 rfl
    · rw [hloaded]
      exact Iff.rfl

end Session

end Playscript

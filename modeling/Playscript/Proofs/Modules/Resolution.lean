/-
# Where imports are looked up

An import statement is written in a module, in the code of a request or in a
function (`Visit.text`). It is looked up in the directory of the innermost
module under way, and in the base directory where there is none. For a
statement of a module, or of the code of a request, that is the directory of its own
file. A function is run under the module of whoever calls it: its imports are
looked up beside the caller, and not beside the file that the function was written
in (`Session.import_strays`).

Key definitions: `Eval.exportsFrom`, `Visit.directory`, `Visit.text`.
Key theorems: `Visit.Stack.written`, `Session.resolves_imports`, `Session.import_strays`.
-/
import Playscript.Proofs.Modules.Nesting

namespace Playscript

open Eval Job

/-- The directory of a file; the base directory for a file in none. -/
def Settings.directoryOf (settings : Settings) (path : String) : String :=
  (Path.parent? path).getD settings.baseDirectory

/-- What a source exports that is looked up in a directory. -/
def Eval.exportsFrom (bound : Nat) (directory source : String) : Eval Bindings :=
  fun host held m =>
    match host.disk.canonical? (Path.join directory source) with
    | none => (.failed (.raised (.importNotFound source)), m)
    | some path => Eval.fileExports bound source path host held m

theorem run_moduleExports {bound : Nat} {source : String} (h : Library.moduleOf? source = none)
    (host : Host) (held : List Value) (m : Machine) :
    Eval.moduleExports (bound + 1) source host held m =
      Eval.exportsFrom bound (m.directory host.settings) source host held m := by
  rw [Eval.moduleExports, h, Eval.exportsFrom]
  dsimp only
  rw [bind_of_done (n := m) (a := m) rfl, bind_of_done (n := m) (a := host) rfl]
  cases host.disk.canonical? (Path.join (m.directory host.settings) source) <;> rfl

namespace Visit

variable {root u v w : Visit} {vs callers : List Visit} {path code : String}

/-- The directory of the innermost module that is run in some visits, or the base directory. -/
def directory (settings : Settings) (vs : List Visit) : String :=
  ((files vs).head?.map settings.directoryOf).getD settings.baseDirectory

theorem directory_eq {settings : Settings} {m : Machine} (h : m.files = files vs) :
    m.directory settings = directory settings vs := by
  rw [Machine.directory, directory, h]
  cases (files vs).head? <;> rfl

/-- Whether a visit runs a text of its own: the body of a function, or a module. -/
def opensText (v : Visit) : Bool := v.job.calls || v.job.runsModule

/-- The visit that runs the text which a visit is in: the innermost call or run of a module, or
the visit that everything started with. -/
def text (root : Visit) (vs : List Visit) : Visit := (vs.find? opensText).getD root

theorem text_cons (h : v.opensText = true) : text root (v :: callers) = v := by
  rw [text, List.find?_cons_of_pos h, Option.getD_some]

theorem text_cons_of_not (h : v.opensText = false) :
    text root (v :: callers) = text root callers := by
  rw [text, List.find?_cons_of_neg (Bool.eq_false_iff.1 h), text]

theorem opensText_of_shut (hshut : v.job.opensFile = false) : v.opensText = v.job.calls := by
  rw [opensText, runsModule_of_opensFile hshut, Bool.or_false]

theorem file?_of_opensText (h : v.opensText = false) : v.job.file? = none := by
  obtain ⟨bound, t, host, held, m⟩ := v
  cases t with
  | runModule => cases h
  | _ => rfl

/-- What a visit imports is written in the text that the visit is in. -/
theorem Stack.written (h : Stack root vs) :
    ∀ v ∈ vs.head?, v.job.sources ⊆ (text root vs).job.sources := by
  induction h with
  | root =>
    have htext : text root [root] = root := by cases hopens : root.opensText <;> simp [text, hopens]
    simp [htext]
  | @ask u v callers hstack hu ih =>
    have hv : v.job.sources ⊆ (text root (v :: callers)).job.sources := ih v rfl
    suffices hsources : u.job.sources ⊆ (text root (u :: v :: callers)).job.sources by
      simpa using hsources
    cases hopens : u.opensText with
    | true =>
      rw [text_cons hopens]
      exact List.Subset.refl _
    | false =>
      rw [text_cons_of_not hopens]
      refine List.Subset.trans ?_ hv
      cases asks_of_mem hu with
      | within _ _ _ hwithin _ =>
        rw [opensText_of_shut hwithin.shut] at hopens
        exact hwithin.written hopens
      | file _ _ => exact List.nil_subset _
      | module _ _ _ => cases hopens
      | body hprogram _ =>
        rw [Job.sources, Job.sources, hprogram]
        exact List.Subset.refl _

/-- Before the first call or run of a module, no module is run. -/
theorem head?_files (h : vs.find? opensText = some w) (hjob : w.job = .runModule path code) :
    (files vs).head? = some path := by
  induction vs with
  | nil => cases h
  | cons v vs ih =>
    cases hopens : v.opensText with
    | true =>
      rw [List.find?_cons_of_pos hopens] at h
      cases h
      rw [files, List.filterMap_cons_some (by rw [hjob]; rfl), List.head?_cons]
    | false =>
      rw [List.find?_cons_of_neg (Bool.eq_false_iff.1 hopens)] at h
      rw [files_cons_of_file? (file?_of_opensText hopens)]
      exact ih h

theorem files_eq_nil (h : vs.find? opensText = none) : files vs = [] := by
  refine List.filterMap_eq_nil_iff.2 fun v hv => file?_of_opensText ?_
  exact Bool.eq_false_iff.2 (List.find?_eq_none.1 h v hv)

end Visit

/-! ### Sessions -/

/-- How the directory of an import goes with the text that the import is written in. -/
structure Visit.Written (settings : Settings) (root : Visit) (callers : List Visit)
    (source : String) : Prop where
  /-- The source is named in the text that is run. -/
  named : source ∈ (text root callers).job.sources
  /-- In a module it is looked up beside the file of the module. -/
  module : ∀ path code, (text root callers).job = .runModule path code →
    directory settings callers = settings.directoryOf path
  /-- In the code of a request it is looked up in the base directory. -/
  script : (text root callers).opensText = false →
    text root callers = root ∧ directory settings callers = settings.baseDirectory

theorem Visit.Stack.writtenAt {root v : Visit} {callers : List Visit} {source : String}
    (h : Stack root (v :: callers)) (hroot : root.job.opensFile = false)
    (hjob : v.job = .moduleExports source) (settings : Settings) :
    Written settings root callers source := by
  have hopens : v.opensText = false := by
    rw [opensText, hjob]
    rfl
  have hwritten : v.job.sources ⊆ (text root callers).job.sources :=
    text_cons_of_not hopens ▸ h.written v rfl
  rw [hjob] at hwritten
  have hcases : (∃ w, callers.find? opensText = some w ∧ text root callers = w) ∨
      callers.find? opensText = none ∧ text root callers = root := by
    rw [text]
    cases callers.find? opensText with
    | some w => exact .inl ⟨w, rfl, rfl⟩
    | none => exact .inr ⟨rfl, rfl⟩
  refine ⟨hwritten List.mem_cons_self, fun path code hmodule => ?_, fun hscript => ?_⟩
  · rcases hcases with ⟨w, hfind, htext⟩ | ⟨-, htext⟩
    · rw [directory, head?_files hfind (htext ▸ hmodule)]
      rfl
    · rw [htext] at hmodule
      rw [hmodule] at hroot
      cases hroot
  · rcases hcases with ⟨w, hfind, htext⟩ | ⟨hfind, htext⟩
    · rw [htext, List.find?_some hfind] at hscript
      cases hscript
    · rw [directory, files_eq_nil hfind]
      exact ⟨htext, rfl⟩

namespace Session

variable {settings : Settings} {reclaims : Bool} {bound : Nat} {clock : Clock} {disk : Disk}

theorem StackOf.settings_eq {s : Session} {requests : List Request} {r : Request}
    {root v : Visit} {callers : List Visit}
    (h : StackOf settings reclaims bound s requests r root (v :: callers)) :
    v.host.settings = settings := by
  obtain ⟨⟨before, rest, -, hstarts⟩, hstack⟩ := h
  rw [hstack.host_eq v List.mem_cons_self, hstarts.host]
  rfl

/-- Every import of a session that is no part of the library answers what its source exports from
the directory of the innermost module on the stack behind it. This is the directory of the file that
the import is written in, unless it is written in a function. -/
structure ResolvesImports (settings : Settings) (reclaims : Bool) (bound : Nat) (clock : Clock)
    (disk : Disk) (requests : List Request) (visits : List Visit) : Prop where
  imports : ∀ (depth : Nat) (source : String) (host : Host) (held : List Value) (m : Machine),
    ⟨depth + 1, .moduleExports source, host, held, m⟩ ∈ visits →
    Library.moduleOf? source = none → ∃ r root callers,
      StackOf settings reclaims bound (start clock disk) requests r root
          (⟨depth + 1, .moduleExports source, host, held, m⟩ :: callers) ∧
        Eval.moduleExports (depth + 1) source host held m =
          Eval.exportsFrom depth (Visit.directory settings callers) source host held m ∧
        Visit.Written settings root callers source

theorem resolves_imports (settings : Settings) (reclaims : Bool) (bound : Nat) (clock : Clock)
    (disk : Disk) (requests : List Request) :
    ResolvesImports settings reclaims bound clock disk requests
      ((start clock disk).visits settings reclaims bound requests) where
  imports := by
    intro depth source host held m hv hmodule
    obtain ⟨r, root, callers, hstack, hplaced⟩ := exists_placed hv
    have hsettings : host.settings = settings := hstack.settings_eq
    have hdirectory : m.directory host.settings = Visit.directory settings callers :=
      hsettings ▸ Visit.directory_eq hplaced.files
    obtain ⟨before, rest, -, hstarts⟩ := hstack.request
    refine ⟨r, root, callers, hstack, ?_, ?_⟩
    · rw [run_moduleExports hmodule, hdirectory]
    · exact hstack.stack.writtenAt hstarts.job.opensFile rfl settings

/-! ### Imports in functions -/

/-- A directory with a module whose function imports what stands beside it, and a file of the
same name outside the directory. -/
def strayImports : Disk where
  canonical? path :=
    if path = "./lib/a.gvx" then some "/lib/a.gvx"
    else if path = "/lib/b.gvx" then some "/lib/b.gvx"
    else if path = "./b.gvx" then some "/b.gvx" else none
  read path :=
    if path = "/lib/a.gvx" then .ok "action go() \x7b import \"b.gvx\"; \x7d"
    else if path = "/lib/b.gvx" then .ok "show(\"inside\");"
    else if path = "/b.gvx" then .ok "show(\"outside\");" else .error .missing

/-- The function is called after its module has run: the file outside is run, and not the one beside
the file that the import is written in. -/
theorem import_strays :
    (Program.ofSource ⟨Settings.standard.fileName, "import \"lib/a.gvx\"; go();"⟩).1.toOption.map
      (fun program =>
        let s := (start ⟨0, 0⟩ strayImports).step .standard true 40 (.interpret program)
        (s.2.interpreter.machine.output.toList, s.2.interpreter.machine.errors.toList)) =
    some (["outside"], []) := by
  decide +kernel

end Session

end Playscript

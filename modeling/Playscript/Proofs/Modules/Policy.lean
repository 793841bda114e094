/-
# The cache of modules over a session

Over any requests of a host, files changed and modules forgotten in between:
what is kept for a path was left by a completed run of its file, with the digest
of the text that ran. What an import comes to is settled by the policy and
what is kept when it starts. Under reuse no path is run to its end twice unless
the modules are forgotten; without a cache nothing is ever kept. An import that
fails leaves what is kept for its path.

Key definitions: `FileImport`, `Visit.Made`, `Session.KeepsModules`.
Key theorems: `FileImport.revalidates`, `Session.keeps_modules`.
-/
import Playscript.Proofs.Modules.Loads
import Playscript.Proofs.Trace.Sessions

namespace Playscript

open Eval Job

namespace Imports

variable {bound : Nat} {source path text : String} {host : Host} {held : List Value}
  {m : Machine} {r : Outcome Bindings × Machine} {vs : List Visit} {kept : CachedModule}

theorem of_reuse (h : Imports bound source path host held m r vs)
    (hpolicy : host.settings.policy = .reuse) (hget : m.modules.get? path = some kept) :
    r = (.done kept.exports, m) ∧ vs = [] := by
  cases h with
  | reused _ hget' =>
    rw [hget] at hget'
    cases hget'
    exact ⟨rfl, rfl⟩
  | circular hnone | unreadable hnone | ran _ _ hnone =>
    rw [hnone hpolicy] at hget
    cases hget
  | unchanged _ _ hpolicy' =>
    rw [hpolicy] at hpolicy'
    cases hpolicy'

theorem of_unchanged (h : Imports bound source path host held m r vs)
    (hpolicy : host.settings.policy = .revalidate) (hloading : path ∉ m.modules.loading)
    (hread : host.disk.read path = .ok text) (hget : m.modules.get? path = some kept)
    (hdigest : kept.digest = Digest.ofText text) : r = (.done kept.exports, m) ∧ vs = [] := by
  cases h with
  | reused hpolicy' =>
    rw [hpolicy] at hpolicy'
    cases hpolicy'
  | circular _ hloading' => exact absurd hloading' hloading
  | unreadable _ _ hread' =>
    rw [hread] at hread'
    cases hread'
  | unchanged _ _ _ hget' =>
    rw [hget] at hget'
    cases hget'
    exact ⟨rfl, rfl⟩
  | ran _ hread' _ hstale =>
    rw [hread] at hread'
    cases hread'
    exact absurd hdigest (hstale hpolicy kept hget)

/-- A module that nothing kept can serve for is run. -/
theorem of_stale (h : Imports bound source path host held m r vs)
    (hpolicy : host.settings.policy ≠ .reuse) (hloading : path ∉ m.modules.loading)
    (hread : host.disk.read path = .ok text)
    (hstale : host.settings.policy = .revalidate → ∀ kept, m.modules.get? path = some kept →
      kept.digest ≠ Digest.ofText text) :
    vs = Job.visits bound (.runModule path text) host held m := by
  cases h with
  | reused hpolicy' => exact absurd hpolicy' hpolicy
  | circular _ hloading' => exact absurd hloading' hloading
  | unreadable _ _ hread' =>
    rw [hread] at hread'
    cases hread'
  | unchanged _ hread' hpolicy' hget hdigest =>
    rw [hread] at hread'
    cases hread'
    exact absurd hdigest (hstale hpolicy' _ hget)
  | ran _ hread' =>
    rw [hread] at hread'
    cases hread'
    rfl

end Imports

/-! ### Imports of files -/

/-- An import whose source leads to a file. -/
structure FileImport where
  bound : Nat
  source : String
  path : String
  host : Host
  held : List Value
  machine : Machine
  nonstandard : Library.moduleOf? source = none
  resolves : host.disk.canonical? (Path.join (machine.directory host.settings) source) = some path

namespace FileImport

variable (i : FileImport)

/-- The import as it is visited, deep enough to come to the cache. -/
def visit : Visit := ⟨i.bound + 2, .moduleExports i.source, i.host, i.held, i.machine⟩

/-- The look at what is kept for the file. -/
def look : Visit := ⟨i.bound + 1, .fileExports i.source i.path, i.host, i.held, i.machine⟩

/-- How the import ends. -/
def answer : Outcome Bindings × Machine :=
  Eval.moduleExports (i.bound + 2) i.source i.host i.held i.machine

def visits : List Visit :=
  Job.visits (i.bound + 2) (.moduleExports i.source) i.host i.held i.machine

/-- What is kept for the file when the import starts. -/
def kept? : Option CachedModule := i.machine.modules.get? i.path

/-- The import answers what is kept and runs nothing. -/
def Reuses (kept : CachedModule) : Prop :=
  i.kept? = some kept ∧ i.answer = (.done kept.exports, i.machine) ∧ i.visits = [i.visit, i.look]

/-- The import runs the text of the module, on the machine as it is. -/
def Runs (text : String) : Prop :=
  i.visits = i.visit :: i.look ::
    Job.visits i.bound (.runModule i.path text) i.host i.held i.machine

variable {i}

theorem answer_eq :
    i.answer = Eval.fileExports (i.bound + 1) i.source i.path i.host i.held i.machine := by
  rw [answer, Eval.moduleExports, i.nonstandard]
  dsimp only
  rw [bind_of_done (n := i.machine) (a := i.machine) rfl,
    bind_of_done (n := i.machine) (a := i.host) rfl, i.resolves]

theorem visits_eq :
    i.visits = i.visit :: i.look ::
      belowFile (Job.visits i.bound) i.source i.path i.host i.held i.machine := by
  rw [visits, Job.visits, below, i.nonstandard]
  dsimp only [Trace.machine, Trace.host]
  rw [i.resolves]
  rfl

/-- What the import comes to. -/
theorem imports :
    Imports i.bound i.source i.path i.host i.held i.machine i.answer
      (belowFile (Job.visits i.bound) i.source i.path i.host i.held i.machine) := by
  rw [answer_eq]
  exact Playscript.imports i.bound i.source i.path i.host i.held i.machine

/-- Under reuse what is kept serves. -/
theorem reuses (hpolicy : i.host.settings.policy = .reuse) {kept : CachedModule}
    (hkept : i.kept? = some kept) : i.Reuses kept := by
  obtain ⟨hanswer, hbelow⟩ := i.imports.of_reuse hpolicy hkept
  refine ⟨hkept, hanswer, ?_⟩
  rw [visits_eq, hbelow]

/-- A run of a module is one more visit at least. -/
theorem Runs.not_reuses {text : String} (h : i.Runs text) (kept : CachedModule) :
    ¬ i.Reuses kept := by
  rintro ⟨-, -, hvisits⟩
  rw [Runs, hvisits] at h
  have hnil := (List.cons.inj (List.cons.inj h).2).2
  exact Job.visits_ne_nil hnil.symm

/-- Under revalidation what is kept serves exactly as long as the text is the same. -/
theorem revalidates (hpolicy : i.host.settings.policy = .revalidate)
    (hloading : i.path ∉ i.machine.modules.loading) {text : String}
    (hread : i.host.disk.read i.path = .ok text) :
    (∀ kept, i.kept? = some kept → kept.digest = Digest.ofText text → i.Reuses kept) ∧
      (i.Runs text ↔ ∀ kept, i.kept? = some kept → kept.digest ≠ Digest.ofText text) := by
  have hserves : ∀ kept, i.kept? = some kept → kept.digest = Digest.ofText text →
      i.Reuses kept := by
    intro kept hkept hdigest
    obtain ⟨hanswer, hbelow⟩ := i.imports.of_unchanged hpolicy hloading hread hkept hdigest
    refine ⟨hkept, hanswer, ?_⟩
    rw [visits_eq, hbelow]
  refine ⟨hserves, fun hruns kept hkept hdigest => ?_, fun hstale => ?_⟩
  · exact hruns.not_reuses kept (hserves kept hkept hdigest)
  · have hbelow := i.imports.of_stale (by rw [hpolicy]; nofun) hloading hread fun _ => hstale
    rw [Runs, visits_eq, hbelow]

/-- Without a cache every module is run. -/
theorem runs_disabled (hpolicy : i.host.settings.policy = .disabled)
    (hloading : i.path ∉ i.machine.modules.loading) {text : String}
    (hread : i.host.disk.read i.path = .ok text) : i.Runs text := by
  have hne : i.host.settings.policy ≠ .revalidate := by
    rw [hpolicy]
    nofun
  have hbelow := i.imports.of_stale (by rw [hpolicy]; nofun) hloading hread fun h => absurd h hne
  rw [Runs, visits_eq, hbelow]

/-- An import that is not done leaves what is kept for its path. -/
theorem failing (hfails : i.answer.1.isDone = false) :
    i.answer.2.modules.get? i.path = i.kept? := by
  have himports := i.imports
  generalize i.answer = r at himports hfails
  generalize belowFile (Job.visits i.bound) i.source i.path i.host i.held i.machine = vs at himports
  cases himports with
  | reused | unchanged => cases hfails
  | circular | unreadable => rfl
  | @ran text =>
    have hget := get?_runModule i.bound i.path text i.host i.held i.machine
    generalize Eval.runModule i.bound i.path text i.host i.held i.machine = result at hfails hget
    obtain ⟨outcome, n⟩ := result
    cases outcome with
    | done exports => cases hfails
    | failed fault => exact hget
    | exhausted => exact hget

end FileImport

/-! ### Sessions -/

/-- What requests make of the files under way and of the cache. -/
inductive History (policy : CachePolicy) : Loader → List Visit → Loader → Prop where
  | loads {c d : Loader} {vs : List Visit} : Loads policy c vs d → History policy c vs d
  /-- The modules that have run are forgotten. -/
  | forget (c : Loader) : History policy c [] ⟨c.files, c.modules.clear⟩
  | trans {c d e : Loader} {vs ws : List Visit} :
    History policy c vs d → History policy d ws e → History policy c (vs ++ ws) e

/-- A visit that has run a text of a path to its end, and left a module to be kept. -/
structure Visit.Made (path text : String) (kept : CachedModule) (v : Visit) : Prop where
  job : v.job = .runModule path text
  read : v.host.disk.read path = .ok text
  done : (Eval.runModule v.bound path text v.host v.held v.machine).1 = .done kept.exports
  digest : kept.digest = Digest.ofText text

theorem Visit.exists_made {path : String} {kept : CachedModule} {v : Visit}
    (hload : v.load? path = some kept)
    (hread : ∀ text, v.job = .runModule path text → v.host.disk.read path = .ok text) :
    ∃ text, v.Made path text kept := by
  obtain ⟨text, hjob⟩ := Visit.runs_of_load? hload
  refine ⟨text, ?_⟩
  obtain ⟨bound, job, host, held, m⟩ := v
  subst hjob
  rw [Visit.load?_runModule] at hload
  cases hrun : (Eval.runModule bound path text host held m).1 with
  | done exports =>
    rw [hrun, Outcome.kept?] at hload
    cases hload
    exact ⟨rfl, hread text rfl, hrun, rfl⟩
  | failed fault =>
    rw [hrun] at hload
    cases hload
  | exhausted =>
    rw [hrun] at hload
    cases hload

namespace History

variable {policy : CachePolicy} {c d : Loader} {vs : List Visit}

theorem stems (h : History policy c vs d) :
    ∀ path kept, d.modules.get? path = some kept → Loads.Stems c vs path kept := by
  induction h with
  | loads h => exact fun _ _ => h.stems
  | forget c => exact fun path kept hget => nomatch hget
  | trans h h' ih ih' =>
    intro path kept hget
    rcases ih' path kept hget with hkept | ⟨v, hv, hload⟩
    · exact (ih path kept hkept).mono fun _ => List.mem_append_left _
    · exact .inr ⟨v, List.mem_append_right _ hv, hload⟩

theorem stemming (h : History policy c vs d) : Loads.Stemming c vs := by
  induction h with
  | loads h => exact h.stemming
  | forget c =>
    intro front v back path kept hvs
    exact absurd hvs (by simp)
  | trans h _ ih ih' => exact ih.append h.stems ih'

theorem files_eq (h : History policy c vs d) : d.files = c.files := by
  induction h with
  | loads h => exact h.restores.1
  | forget c => rfl
  | trans _ _ ih ih' => exact ih'.trans ih

theorem policy_eq (h : History policy c vs d) : ∀ v ∈ vs, v.host.settings.policy = policy := by
  induction h with
  | loads h => exact h.policy_eq
  | forget c => exact List.forall_mem_nil _
  | trans _ _ ih ih' => exact List.forall_mem_append.2 ⟨ih, ih'⟩

theorem read_eq (h : History policy c vs d) :
    ∀ v ∈ vs, ∀ path text, v.job = .runModule path text → v.host.disk.read path = .ok text := by
  induction h with
  | loads h => exact h.read_eq
  | forget c => exact List.forall_mem_nil _
  | trans _ _ ih ih' => exact List.forall_mem_append.2 ⟨ih, ih'⟩

/-- Without a cache nothing is ever kept. -/
theorem entries_nil (h : History .disabled c vs d) (hc : c.modules.entries = []) :
    (∀ v ∈ vs, v.machine.modules.entries = []) ∧ d.modules.entries = [] := by
  generalize hpolicy : CachePolicy.disabled = policy at h
  induction h with
  | loads h =>
    subst hpolicy
    exact ⟨h.entries_visited hc, h.entries_eq.trans hc⟩
  | forget c => exact ⟨List.forall_mem_nil _, rfl⟩
  | trans _ _ ih ih' =>
    have hd := ih hc
    have he := ih' hd.2
    exact ⟨List.forall_mem_append.2 ⟨hd.1, he.1⟩, he.2⟩

/-- From an empty cache on, all that is kept was made by a visit. -/
theorem made (h : History policy c vs d) (hc : c.modules.entries = []) {path : String}
    {kept : CachedModule} (hget : d.modules.get? path = some kept) :
    ∃ v ∈ vs, ∃ text, v.Made path text kept := by
  rcases h.stems path kept hget with hkept | ⟨v, hv, hload⟩
  · rw [ModuleCache.get?, hc] at hkept
    cases hkept
  · exact ⟨v, hv, Visit.exists_made hload fun text => h.read_eq v hv path text⟩

/-- And all that is kept when a visit starts was made by one before it. -/
theorem made_visited (h : History policy c vs d) (hc : c.modules.entries = [])
    {front back : List Visit} {v : Visit} (hvs : vs = front ++ v :: back) {path : String}
    {kept : CachedModule} (hget : v.machine.modules.get? path = some kept) :
    ∃ w ∈ front, ∃ text, w.Made path text kept := by
  rcases h.stemming front v back path kept hvs hget with hkept | ⟨w, hw, hload⟩
  · rw [ModuleCache.get?, hc] at hkept
    cases hkept
  · have hmem : w ∈ vs := by
      rw [hvs]
      exact List.mem_append_left _ hw
    exact ⟨w, hw, Visit.exists_made hload fun text => h.read_eq w hmem path text⟩

end History

/-! ### Requests -/

/-- The statements of a program keep to the rules. -/
theorem loadsBy_runTop (bound : Nat) (ss : List Stmt) :
    LoadsBy (Interpreter.runTop bound ss) (Interpreter.topVisits bound ss) := by
  induction ss with
  | nil => exact .quiet (.pure ())
  | cons s rest ih =>
    refine .andThen (loads_walk.visits bound (.execute s) rfl) fun flow => ?_
    cases flow with
    | normal => exact ih
    | returned vs => exact (LoadsBy.quiet (.fail _)).claiming s.span

namespace Interpreter

theorem loader_interpret (i : Interpreter) (bound : Nat) (host : Host) (program : Program) :
    (i.interpret bound host program).2.machine.loader =
      (runTop bound program.body host i.held i.machine).2.loader := by
  rw [interpret, perform, Eval.run, held_cleared, machine_cleared]
  generalize runTop bound program.body host i.held i.machine = r
  obtain ⟨outcome, m⟩ := r
  cases outcome <;> rfl

theorem loader_run (i : Interpreter) (bound : Nat) (host : Host) (program : Program) :
    (i.run bound host program).2.machine.loader =
      (Eval.executeAll bound program.body host i.held i.machine).2.loader := by
  rw [run, perform, Eval.run, held_cleared, machine_cleared]
  generalize Eval.executeAll bound program.body host i.held i.machine = r
  obtain ⟨outcome, m⟩ := r
  cases outcome with
  | done flow => cases flow <;> rfl
  | failed fault => rfl
  | exhausted => rfl

end Interpreter

def Session.loader (s : Session) : Loader := s.interpreter.machine.loader

/-- Whether a request forgets the modules that have run. -/
def Request.forgets : Request → Bool
  | invalidate => true
  | _ => false

namespace Session

variable {settings : Settings} {reclaims : Bool} {bound : Nat}

/-- What a request loads. -/
theorem loads_step (s : Session) (r : Request) (hr : r.forgets = false) :
    Loads settings.policy s.loader (r.visits bound s.interpreter (s.host settings reclaims))
      (s.step settings reclaims bound r).2.loader := by
  have hjob (t : Job) (ht : t.runsModule = false) (held : List Value) :=
    loads_visits bound ht (s.host settings reclaims) held s.interpreter.machine
  cases r with
  | interpret program =>
    have hrun := loadsBy_runTop bound program.body (s.host settings reclaims) s.interpreter.held
      s.interpreter.machine
    rwa [← Interpreter.loader_interpret] at hrun
  | run program =>
    have hrun := hjob (.executeAll program.body) rfl s.interpreter.held
    rwa [Job.run, ← Interpreter.loader_run] at hrun
  | execute statement => exact hjob (.execute statement) rfl s.interpreter.held
  | evaluate e => exact hjob (.evaluate e) rfl s.interpreter.held
  | call f args given =>
    exact hjob (.call (f.value s.interpreter.held) (Pick.valueAll s.interpreter.held args)) rfl
      (f.value s.interpreter.held :: letGo given s.interpreter.held)
  | invalidate => cases hr
  | look | drop | edit | wait => exact .still _

theorem history_step (s : Session) (r : Request) :
    History settings.policy s.loader (r.visits bound s.interpreter (s.host settings reclaims))
      (s.step settings reclaims bound r).2.loader := by
  cases hr : r.forgets with
  | false => exact .loads (loads_step s r hr)
  | true =>
    cases r with
    | invalidate => exact .forget s.loader
    | _ => cases hr

theorem history (settings : Settings) (reclaims : Bool) (bound : Nat) (s : Session)
    (requests : List Request) :
    History settings.policy s.loader (s.visits settings reclaims bound requests)
      (s.after settings reclaims bound requests).loader := by
  induction requests generalizing s with
  | nil => exact .loads (.still s.loader)
  | cons r rest ih => exact (history_step s r).trans (ih _)

/-- As long as no modules are forgotten. -/
theorem loads (settings : Settings) (reclaims : Bool) (bound : Nat) (s : Session)
    {requests : List Request} (hforgets : ∀ r ∈ requests, r.forgets = false) :
    Loads settings.policy s.loader (s.visits settings reclaims bound requests)
      (s.after settings reclaims bound requests).loader := by
  induction requests generalizing s with
  | nil => exact .still s.loader
  | cons r rest ih =>
    obtain ⟨hr, hrest⟩ := List.forall_mem_cons.1 hforgets
    exact (loads_step s r hr).trans (ih _ hrest)

/-- The cache of a session, under the policy of its settings. -/
structure KeepsModules (settings : Settings) (reclaims : Bool) (bound : Nat) (clock : Clock)
    (disk : Disk) (requests : List Request) (visits : List Visit) (last : ModuleCache) :
    Prop where
  /-- What is kept has the digest of the text whose completed run has exported it. -/
  made : ∀ path kept, last.get? path = some kept → ∃ v ∈ visits, ∃ text, v.Made path text kept
  /-- Also what is kept when a visit starts, by a run before it. -/
  made_visited : ∀ front v back, visits = front ++ v :: back →
    ∀ path kept, v.machine.modules.get? path = some kept →
      ∃ w ∈ front, ∃ text, w.Made path text kept
  /-- Under reuse what is kept is answered, and nothing is run. -/
  reused : settings.policy = .reuse → ∀ i : FileImport, i.visit ∈ visits →
    ∀ kept, i.kept? = some kept → i.Reuses kept
  /-- So no path is run to its end twice while no modules are forgotten. -/
  once : settings.policy = .reuse → ∀ before between after, requests = before ++ between ++ after →
    (∀ r ∈ between, r.forgets = false) → ∀ path,
      (((start clock disk).after settings reclaims bound before).visits settings reclaims bound
        between).countP (fun v => (v.load? path).isSome) ≤ 1
  /-- Under revalidation a module is run exactly if none is kept, or one of another text, unless
  the digests of the two texts collide. -/
  revalidated : settings.policy = .revalidate → ∀ front (i : FileImport) back text,
    visits = front ++ i.visit :: back → i.path ∉ i.machine.modules.loading →
      i.host.disk.read i.path = .ok text →
      (∀ w ∈ front, ∀ other kept, w.Made i.path other kept →
        Digest.ofText other = Digest.ofText text → other = text) →
      (i.Runs text ↔ i.kept? = none ∨ ∃ kept, i.kept? = some kept ∧
        ∃ w ∈ front, ∃ other, w.Made i.path other kept ∧ other ≠ text) ∧
      (¬ i.Runs text → ∃ kept, i.Reuses kept)
  /-- Without a cache every module is run, and nothing is ever kept. -/
  disabled : settings.policy = .disabled →
    (∀ i : FileImport, i.visit ∈ visits → i.path ∉ i.machine.modules.loading →
      ∀ text, i.host.disk.read i.path = .ok text → i.Runs text) ∧
    (∀ v ∈ visits, v.machine.modules.entries = []) ∧ last.entries = []
  /-- An import that fails leaves what is kept for its path. -/
  failed : ∀ i : FileImport, i.visit ∈ visits → i.answer.1.isDone = false →
    i.answer.2.modules.get? i.path = i.kept?

/-- A text is run again exactly if what is kept is of another text. -/
theorem revalidates_iff {front : List Visit} {i : FileImport} {text : String}
    (hpolicy : i.host.settings.policy = .revalidate)
    (hloading : i.path ∉ i.machine.modules.loading) (hread : i.host.disk.read i.path = .ok text)
    (hmade : ∀ kept, i.kept? = some kept → ∃ w ∈ front, ∃ other, w.Made i.path other kept)
    (hcollide : ∀ w ∈ front, ∀ other kept, w.Made i.path other kept →
      Digest.ofText other = Digest.ofText text → other = text) :
    (i.Runs text ↔ i.kept? = none ∨ ∃ kept, i.kept? = some kept ∧
      ∃ w ∈ front, ∃ other, w.Made i.path other kept ∧ other ≠ text) ∧
    (¬ i.Runs text → ∃ kept, i.Reuses kept) := by
  obtain ⟨hserves, hruns⟩ := FileImport.revalidates hpolicy hloading hread
  cases hkept : i.kept? with
  | none =>
    have hrun : i.Runs text := hruns.2 fun kept h => by
      rw [hkept] at h
      cases h
    exact ⟨iff_of_true hrun (.inl rfl), fun hnot => absurd hrun hnot⟩
  | some kept =>
    have hsame (w : Visit) (hw : w ∈ front) (other : String) (h : w.Made i.path other kept) :
        kept.digest = Digest.ofText text ↔ other = text := by
      rw [h.digest]
      exact ⟨hcollide w hw other kept h, congrArg Digest.ofText⟩
    obtain ⟨w, hw, other, hother⟩ := hmade kept hkept
    by_cases hdigest : kept.digest = Digest.ofText text
    · have hreuses := hserves kept hkept hdigest
      refine ⟨iff_of_false (fun hrun => hrun.not_reuses kept hreuses) ?_, fun _ => ⟨kept, hreuses⟩⟩
      rintro (hnone | ⟨kept', hkept', w', hw', other', hother', hne⟩)
      · cases hnone
      · cases hkept'
        exact hne ((hsame w' hw' other' hother').1 hdigest)
    · have hrun : i.Runs text := hruns.2 fun kept' hkept' => by
        rw [hkept] at hkept'
        cases hkept'
        exact hdigest
      have hne : other ≠ text := mt (hsame w hw other hother).2 hdigest
      refine ⟨iff_of_true hrun ?_, fun hnot => absurd hrun hnot⟩
      exact .inr ⟨kept, rfl, w, hw, other, hother, hne⟩

theorem keeps_modules (settings : Settings) (reclaims : Bool) (bound : Nat) (clock : Clock)
    (disk : Disk) (requests : List Request) :
    KeepsModules settings reclaims bound clock disk requests
      ((start clock disk).visits settings reclaims bound requests)
      ((start clock disk).after settings reclaims bound requests).loader.modules := by
  have history := history settings reclaims bound (start clock disk) requests
  have hempty : (start clock disk).loader.modules.entries = [] := rfl
  have hpolicy (i : FileImport) (hi : i.visit ∈ _) : i.host.settings.policy = settings.policy :=
    history.policy_eq i.visit hi
  exact {
    made := fun path kept hget => history.made hempty hget
    made_visited := fun front v back hvs path kept hget => history.made_visited hempty hvs hget
    reused := fun h i hi kept hkept => FileImport.reuses ((hpolicy i hi).trans h) hkept
    once := by
      intro h before between after _ hforgets path
      have hloads := loads settings reclaims bound
        ((start clock disk).after settings reclaims bound before) hforgets
      rw [h] at hloads
      have hle := hloads.loaded_length_le path
      rwa [Loads.loaded, List.length_filterMap_eq_countP] at hle
    revalidated := by
      intro h front i back text hvs hloading hread hcollide
      have hi : i.visit ∈ (start clock disk).visits settings reclaims bound requests := by
        rw [hvs]
        exact List.mem_append_right _ List.mem_cons_self
      exact revalidates_iff ((hpolicy i hi).trans h) hloading hread
        (fun kept hkept => history.made_visited hempty hvs hkept) hcollide
    disabled := by
      intro h
      have hnil := (h ▸ history).entries_nil hempty
      refine ⟨fun i hi hloading text hread => ?_, hnil⟩
      exact FileImport.runs_disabled ((hpolicy i hi).trans h) hloading hread
    failed := fun i _ hfails => FileImport.failing hfails }

end Session

end Playscript

/-
# Imports nest without cycles

The modules under way are the modules on the stack behind a visit, the innermost
first. None is under way twice, since the run of a module is only asked for when
it is not under way; so imports nest no deeper than there are modules on
the disk. Under reuse nothing is kept for a module under way, so the look at the
cache that comes first does not hide a circular import from the check that
comes second.

Key definitions: `Disk.IsModule`, `Loader.Nested`, `Visit.Placed`, `Session.NestsImports`.
Key theorems: `Visit.Placed.ask`, `FileImport.circular`, `Session.nests_imports`.
-/
import Playscript.Proofs.Modules.Asking
import Playscript.Proofs.Modules.Policy
import Mathlib.Data.Finset.Card

namespace Playscript

open Job

/-! ### Modules under way -/

/-- The path of a module: a canonical one, of a file that can be read. -/
structure Disk.IsModule (d : Disk) (path : String) : Prop where
  canonical : ∃ spelling, d.canonical? spelling = some path
  readable : ∃ text, d.read path = .ok text

/-- The modules under way are the files under way, each once, and each of them is on the disk;
under reuse nothing is kept for them. -/
structure Loader.Nested (policy : CachePolicy) (disk : Disk) (c : Loader) : Prop where
  files : c.modules.loading = c.files
  nodup : c.modules.loading.Nodup
  modules : ∀ path ∈ c.modules.loading, disk.IsModule path
  fresh : policy = .reuse → ∀ path ∈ c.modules.loading, c.modules.get? path = none

namespace Loader.Nested

variable {policy : CachePolicy} {disk : Disk} {c d : Loader} {path : String}

/-- Nothing is under way. -/
theorem nil (hfiles : c.files = []) (hloading : c.modules.loading = []) : c.Nested policy disk where
  files := hloading.trans hfiles.symm
  nodup := hloading ▸ List.nodup_nil
  modules := hloading ▸ List.forall_mem_nil _
  fresh _ := hloading ▸ List.forall_mem_nil _

theorem beside (h : c.Nested policy disk) (hd : c.Beside d) : d.Nested policy disk where
  files := by rw [hd.loading, hd.files, h.files]
  nodup := hd.loading ▸ h.nodup
  modules := hd.loading ▸ h.modules
  fresh hpolicy path hpath := by
    rw [hd.loading] at hpath
    rw [hd.kept path hpath, h.fresh hpolicy path hpath]

/-- A module that is not under way is started. -/
theorem enter (h : c.Nested policy disk) (hloading : path ∉ c.modules.loading)
    (hmodule : disk.IsModule path) (hfresh : policy = .reuse → c.modules.get? path = none) :
    (c.enter path).Nested policy disk where
  files := congrArg (path :: ·) h.files
  nodup := List.nodup_cons.2 ⟨hloading, h.nodup⟩
  modules := List.forall_mem_cons.2 ⟨hmodule, h.modules⟩
  fresh hpolicy := List.forall_mem_cons.2 ⟨hfresh hpolicy, h.fresh hpolicy⟩

/-- No more modules are under way than there are. -/
theorem length_le (h : c.Nested policy disk) {all : Finset String}
    (hall : ∀ path, disk.IsModule path → path ∈ all) : c.modules.loading.length ≤ all.card := by
  rw [← List.toFinset_card_of_nodup h.nodup]
  refine Finset.card_le_card fun path hpath => ?_
  exact hall path (h.modules path (List.mem_toFinset.1 hpath))

end Loader.Nested

/-! ### The stack of modules -/

/-- The file of the module that a job runs. -/
def Job.file? : Job → Option String
  | runModule path _ => some path
  | _ => none

theorem Job.file?_of_opensFile {t : Job} (h : t.opensFile = false) : t.file? = none := by
  cases t with
  | runModule => cases h
  | _ => rfl

namespace Visit

/-- The files of the modules that are run in some visits, in order. -/
def files (vs : List Visit) : List String := vs.filterMap fun v => v.job.file?

/-- A visit in its place on the stack: the modules under way are those that its callers run, and
a file that the visit itself opens is a module that is not under way. -/
structure Placed (v : Visit) (callers : List Visit) : Prop where
  nested : v.machine.loader.Nested v.host.settings.policy v.host.disk
  files : v.machine.files = Visit.files callers
  imported : ∀ source path, v.job = .fileExports source path →
    ∃ spelling, v.host.disk.canonical? spelling = some path
  started : ∀ path text, v.job = .runModule path text →
    path ∉ v.machine.modules.loading ∧ v.host.disk.IsModule path ∧
      (v.host.settings.policy = .reuse → v.machine.modules.get? path = none)

variable {root u v : Visit} {callers : List Visit}

theorem files_cons_of_file? (h : v.job.file? = none) : files (v :: callers) = files callers :=
  List.filterMap_cons_none h

/-- A job that opens no file has a place wherever its machine has one. -/
theorem Placed.of_shut (hshut : v.job.opensFile = false)
    (hnested : v.machine.loader.Nested v.host.settings.policy v.host.disk)
    (hfiles : v.machine.files = Visit.files callers) : v.Placed callers where
  nested := hnested
  files := hfiles
  imported source path hjob := by
    rw [hjob] at hshut
    cases hshut
  started path text hjob := by
    rw [hjob] at hshut
    cases hshut

/-- What a visit asks for is in its place if the visit is. -/
theorem Placed.ask (h : v.Placed callers) (hu : v.Asks u) : u.Placed (v :: callers) := by
  cases hu with
  | within _ hhost hshut hwithin hbeside =>
    refine .of_shut hwithin.shut ?_ ?_
    · rw [hhost]
      exact h.nested.beside hbeside
    · rw [files_cons_of_file? (Job.file?_of_opensFile hshut), ← h.files]
      exact hbeside.files
  | file hmodule hpath =>
    exact ⟨h.nested, h.files, fun _ _ hjob => by cases hjob; exact ⟨_, hpath⟩, nofun⟩
  | module hloading hread hfresh =>
    refine ⟨h.nested, h.files, nofun, fun path text hjob => ?_⟩
    cases hjob
    exact ⟨hloading, ⟨h.imported _ _ rfl, _, hread⟩, hfresh⟩
  | @body bound path text host held m n program hprogram hloader =>
    obtain ⟨hloading, hmodule, hfresh⟩ := h.started path text rfl
    refine .of_shut rfl ?_ ?_
    · rw [hloader]
      exact h.nested.enter hloading hmodule hfresh
    · have hfiles : n.files = path :: m.files := congrArg Loader.files hloader
      rw [hfiles, h.files]
      rfl

theorem Stack.placed {vs : List Visit} (h : Stack root vs) (hroot : root.Placed []) :
    ∀ v ∈ vs.head?, v.Placed vs.tail := by
  induction h with
  | root => simpa using hroot
  | ask _ hu ih => simpa using (ih _ rfl).ask (asks_of_mem hu)

end Visit

/-! ### Circular imports -/

/-- An import of a module under way fails and runs nothing. -/
theorem FileImport.circular {i : FileImport} (hloading : i.path ∈ i.machine.modules.loading)
    (hfresh : i.host.settings.policy = .reuse → i.kept? = none) :
    i.answer = (.failed (.raised (.circularImport i.source)), i.machine) ∧
      i.visits = [i.visit, i.look] := by
  have himports := i.imports
  rw [visits_eq]
  generalize i.answer = r at himports
  generalize belowFile (Job.visits i.bound) i.source i.path i.host i.held i.machine = vs at himports
  cases himports with
  | reused hpolicy hget =>
    have hnone := hfresh hpolicy
    rw [FileImport.kept?, hget] at hnone
    cases hnone
  | circular => exact ⟨rfl, rfl⟩
  | unreadable _ hnot | unchanged hnot | ran hnot => exact absurd hloading hnot

/-! ### Sessions -/

theorem History.loading_eq {policy : CachePolicy} {c d : Loader} {vs : List Visit}
    (h : History policy c vs d) : d.modules.loading = c.modules.loading := by
  induction h with
  | loads h => exact h.restores.2
  | forget c => rfl
  | trans _ _ ih ih' => exact ih'.trans ih

namespace Session

variable {settings : Settings} {reclaims : Bool} {bound : Nat} {clock : Clock} {disk : Disk}

/-- The stack behind a visit of a session, from a visit that one of the requests starts with. -/
structure StackOf (settings : Settings) (reclaims : Bool) (bound : Nat) (s : Session)
    (requests : List Request) (r : Request) (root : Visit) (vs : List Visit) : Prop where
  request : ∃ before rest, requests = before ++ r :: rest ∧
    let s := s.after settings reclaims bound before
    r.Starts s.interpreter (s.host settings reclaims) root
  stack : root.Stack vs

theorem exists_stackOf {s : Session} {requests : List Request} {v : Visit}
    (hv : v ∈ s.visits settings reclaims bound requests) :
    ∃ r root callers, StackOf settings reclaims bound s requests r root (v :: callers) := by
  induction requests generalizing s with
  | nil => cases hv
  | cons r rest ih =>
    rcases List.mem_append.1 hv with hv | hv
    · obtain ⟨root, hstarts, hv⟩ := Request.exists_root hv
      obtain ⟨callers, hstack⟩ := Visit.exists_stack hv
      exact ⟨r, root, callers, ⟨[], rest, rfl, hstarts⟩, hstack⟩
    · obtain ⟨r', root, callers, ⟨before, after, hrequests, hstarts⟩, hstack⟩ := ih hv
      exact ⟨r', root, callers, ⟨r :: before, after, congrArg (r :: ·) hrequests, hstarts⟩, hstack⟩

variable (settings reclaims bound clock disk) in
/-- Between requests nothing is under way. -/
theorem idle_after (requests : List Request) :
    let s := (start clock disk).after settings reclaims bound requests
    s.loader.files = [] ∧ s.loader.modules.loading = [] := by
  have history := history settings reclaims bound (start clock disk) requests
  exact ⟨history.files_eq, history.loading_eq⟩

/-- Every visit of a session is in its place on a stack of the session. -/
theorem exists_placed {requests : List Request} {v : Visit}
    (hv : v ∈ (start clock disk).visits settings reclaims bound requests) :
    ∃ r root callers,
      StackOf settings reclaims bound (start clock disk) requests r root (v :: callers) ∧
        v.Placed callers := by
  obtain ⟨r, root, callers, hstack⟩ := exists_stackOf hv
  refine ⟨r, root, callers, hstack, ?_⟩
  obtain ⟨⟨before, rest, -, hstarts⟩, hstack⟩ := hstack
  obtain ⟨hfiles, hloading⟩ := idle_after settings reclaims bound clock disk before
  have hroot : root.Placed [] := by
    refine .of_shut hstarts.job.opensFile ?_ ?_
    · exact .nil (hstarts.beside.files.trans hfiles) (hstarts.beside.loading.trans hloading)
    · exact hstarts.beside.files.trans hfiles
  exact hstack.placed hroot v rfl

/-- How imports nest in a session. -/
structure NestsImports (settings : Settings) (reclaims : Bool) (bound : Nat) (clock : Clock)
    (disk : Disk) (requests : List Request) (visits : List Visit) (last : Loader) : Prop where
  /-- The modules under way are distinct modules of the disk, wherever an evaluation starts and
  wherever it ends, and under reuse none of them is kept. -/
  nested : ∀ v ∈ visits, v.machine.loader.Nested settings.policy v.host.disk ∧
    v.answer.2.loader.Nested settings.policy v.host.disk
  /-- They are the modules on a stack of evaluations that leads to the visit from a request. -/
  stacked : ∀ v ∈ visits, ∃ r root callers,
    StackOf settings reclaims bound (start clock disk) requests r root (v :: callers) ∧
      v.machine.modules.loading = Visit.files callers
  /-- So they are never more than there are modules. -/
  depth : ∀ v ∈ visits, ∀ all : Finset String, (∀ path, v.host.disk.IsModule path → path ∈ all) →
    v.machine.files.length ≤ all.card
  /-- An import of one of them fails as circular, and runs nothing. -/
  circular : ∀ i : FileImport, i.visit ∈ visits → i.path ∈ i.machine.modules.loading →
    i.answer = (.failed (.raised (.circularImport i.source)), i.machine) ∧
      i.visits = [i.visit, i.look]
  /-- Between requests none is under way. -/
  idle : last.files = [] ∧ last.modules.loading = []

theorem nests_imports (settings : Settings) (reclaims : Bool) (bound : Nat) (clock : Clock)
    (disk : Disk) (requests : List Request) :
    NestsImports settings reclaims bound clock disk requests
      ((start clock disk).visits settings reclaims bound requests)
      ((start clock disk).after settings reclaims bound requests).loader := by
  have hpolicy := (history settings reclaims bound (start clock disk) requests).policy_eq
  have hnested (v : Visit) (hv : v ∈ (start clock disk).visits settings reclaims bound requests) :
      v.machine.loader.Nested settings.policy v.host.disk := by
    obtain ⟨_, _, _, _, hplaced⟩ := exists_placed hv
    exact hpolicy v hv ▸ hplaced.nested
  exact {
    nested := fun v hv => ⟨hnested v hv,
      (hnested v hv).beside (beside_run v.bound v.job v.host v.held v.machine)⟩
    stacked := by
      intro v hv
      obtain ⟨r, root, callers, hstack, hplaced⟩ := exists_placed hv
      exact ⟨r, root, callers, hstack, hplaced.nested.files.trans hplaced.files⟩
    depth := by
      intro v hv all hall
      have hlength := (hnested v hv).length_le hall
      rwa [(hnested v hv).files] at hlength
    circular := by
      intro i hi hloading
      have hfresh := (hnested i.visit hi).fresh
      exact FileImport.circular hloading fun h => hfresh ((hpolicy i.visit hi) ▸ h) i.path hloading
    idle := idle_after settings reclaims bound clock disk requests }

end Session

end Playscript

/-
# How modules are loaded

An evaluation leaves the files under way as they were and changes the cache by
the modules that it loads, each of which may load others: `Loads` says what the
cache becomes, visit by visit. A module is run only if it is not under way, and
under reuse only if none is kept for its path. A module that has run is kept with
the digest of its text; one that fails leaves no trace of its own.

So the cache after an evaluation holds for each path what its last completed run
left (`Loads.get?_eq`), no path under way is run (`Loads.not_loading`), and under
reuse no path is run to its end twice (`Loads.loaded_length_le`).

Key definitions: `Visit.load?`, `Loads`.
Key theorems: `loads_visits`, `Loads.get?_eq`, `Loads.loaded_length_le`.
-/
import Playscript.Proofs.Modules.Imports

namespace Playscript

open Eval Job

/-! ### Loaders -/

namespace Loader

/-- Starts the file of a module. -/
def enter (c : Loader) (path : String) : Loader :=
  ⟨path :: c.files, { c.modules with loading := path :: c.modules.loading }⟩

/-- Ends the file of the innermost module. -/
def leave (c : Loader) : Loader :=
  ⟨c.files.tail, { c.modules with loading := c.modules.loading.tail }⟩

/-- Keeps a module that has run, under a policy. -/
def keep (c : Loader) (policy : CachePolicy) (path : String) : Option CachedModule → Loader
  | none => c
  | some kept => if policy = .disabled then c else { c with modules := c.modules.insert path kept }

variable {c : Loader} {policy : CachePolicy} {path : String}

@[simp] theorem keep_files (kept? : Option CachedModule) :
    (c.keep policy path kept?).files = c.files := by
  cases kept? with
  | none => rfl
  | some kept => rw [keep]; split <;> rfl

@[simp] theorem keep_loading (kept? : Option CachedModule) :
    (c.keep policy path kept?).modules.loading = c.modules.loading := by
  cases kept? with
  | none => rfl
  | some kept => rw [keep]; split <;> rfl

theorem keep_entries (kept? : Option CachedModule) :
    (c.keep .disabled path kept?).modules.entries = c.modules.entries := by
  cases kept? with
  | none => rfl
  | some kept => rfl

end Loader

theorem ModuleCache.get?_insert (c : ModuleCache) (path other : String) (kept : CachedModule) :
    (c.insert path kept).get? other = if other = path then some kept else c.get? other := by
  rw [get?, insert, List.lookup_cons]
  split
  · rename_i heq
    rw [if_pos (eq_of_beq heq)]
  · rename_i hne
    have hne : other ≠ path := fun h => by simp [h] at hne
    rw [if_neg hne, get?]
    induction c.entries with
    | nil => rfl
    | cons e rest ih =>
      obtain ⟨key, m⟩ := e
      by_cases hkey : key = path
      · have hother : (other == key) = false := by simp [hkey, hne]
        simp only [hkey, List.filter_cons, bne_self_eq_false, Bool.false_eq_true, if_false, ih]
        rw [← hkey, List.lookup_cons, hother]
      · simp only [List.filter_cons, bne_iff_ne.2 hkey, if_true, List.lookup_cons, ih]

theorem Loader.get?_keep {c : Loader} {policy : CachePolicy} (hpolicy : policy ≠ .disabled)
    (path other : String) (kept? : Option CachedModule) :
    (c.keep policy path kept?).modules.get? other =
      match kept? with
      | none => c.modules.get? other
      | some kept => if other = path then some kept else c.modules.get? other := by
  cases kept? with
  | none => rfl
  | some kept =>
    rw [keep, if_neg hpolicy]
    exact ModuleCache.get?_insert c.modules path other kept

/-! ### Runs of modules -/

/-- What the outcome of a run leaves to be kept. -/
def Outcome.kept? (digest : String) : Outcome Bindings → Option CachedModule
  | .done exports => some ⟨digest, exports⟩
  | .failed _ => none
  | .exhausted => none

/-- What a completed run of the module of a path leaves to be kept. -/
def Visit.load? (path : String) (v : Visit) : Option CachedModule :=
  match v.job with
  | .runModule p text =>
    if p = path then
      (Eval.runModule v.bound p text v.host v.held v.machine).1.kept? (Digest.ofText text)
    else none
  | _ => none

theorem Visit.load?_runModule (bound : Nat) (path text : String) (host : Host)
    (held : List Value) (m : Machine) :
    (⟨bound, .runModule path text, host, held, m⟩ : Visit).load? path =
      (Eval.runModule bound path text host held m).1.kept? (Digest.ofText text) := if_pos rfl

/-- Whether a visit runs the module of a path. -/
def Visit.Runs (path : String) (v : Visit) : Prop := ∃ text, v.job = .runModule path text

theorem Visit.runs_of_load? {path : String} {v : Visit} {kept : CachedModule}
    (h : v.load? path = some kept) : v.Runs path := by
  unfold load? at h
  split at h
  · rename_i p text hjob
    split at h
    · rename_i heq
      exact ⟨text, heq ▸ hjob⟩
    · cases h
  · cases h

theorem Visit.load?_eq_none {path : String} {v : Visit} (h : ¬ v.Runs path) :
    v.load? path = none := by
  cases hload : v.load? path with
  | none => rfl
  | some kept => exact absurd (runs_of_load? hload) h

theorem Visit.not_runs_of {path : String} {v : Visit} (h : v.job.runsModule = false) :
    ¬ v.Runs path := by
  rintro ⟨text, hjob⟩
  rw [hjob] at h
  cases h

theorem Visit.not_runs_of_ne {path p text : String} {v : Visit} (hjob : v.job = .runModule p text)
    (hne : path ≠ p) : ¬ v.Runs path := by
  rintro ⟨other, hother⟩
  rw [hjob] at hother
  cases hother
  exact hne rfl

/-- What visits make of the files under way and of the cache. -/
inductive Loads (policy : CachePolicy) : Loader → List Visit → Loader → Prop where
  | still (c : Loader) : Loads policy c [] c
  | visit {c d : Loader} {vs : List Visit} (v : Visit) :
    v.job.runsModule = false → v.machine.loader = c → v.host.settings.policy = policy →
      Loads policy c vs d → Loads policy c (v :: vs) d
  | trans {c d e : Loader} {vs ws : List Visit} :
    Loads policy c vs d → Loads policy d ws e → Loads policy c (vs ++ ws) e
  /-- The run of a module, with what it loads itself. -/
  | run {c d : Loader} {vs : List Visit} {path text : String} (v : Visit) :
    v.job = .runModule path text → v.machine.loader = c → v.host.settings.policy = policy →
      v.host.disk.read path = .ok text → path ∉ c.modules.loading →
      (policy = .reuse → c.modules.get? path = none) →
      visits v.bound v.job v.host v.held v.machine = v :: vs →
      Loads policy (c.enter path) vs d →
      Loads policy c (v :: vs) (d.leave.keep policy path (v.load? path))

namespace Loads

variable {policy : CachePolicy} {c d : Loader} {vs : List Visit} {path : String}

/-- What is under way stays under way. -/
theorem restores (h : Loads policy c vs d) :
    d.files = c.files ∧ d.modules.loading = c.modules.loading := by
  induction h with
  | still => exact ⟨rfl, rfl⟩
  | visit _ _ _ _ _ ih => exact ih
  | trans _ _ ih ih' => exact ⟨ih'.1.trans ih.1, ih'.2.trans ih.2⟩
  | run v _ _ _ _ _ _ _ _ ih =>
    rw [Loader.keep_files, Loader.keep_loading]
    exact ⟨congrArg List.tail ih.1, congrArg List.tail ih.2⟩

/-- No module that is under way is run. -/
theorem not_loading (h : Loads policy c vs d) {v : Visit} (hv : v ∈ vs) (hruns : v.Runs path) :
    path ∉ c.modules.loading := by
  induction h with
  | still => cases hv
  | visit w hjob _ _ _ ih =>
    rcases List.mem_cons.1 hv with rfl | hv
    · exact absurd hruns (Visit.not_runs_of hjob)
    · exact ih hv
  | trans h _ ih ih' =>
    rcases List.mem_append.1 hv with hv | hv
    · exact ih hv
    · rw [← h.restores.2]
      exact ih' hv
  | run w hjob _ _ _ hnot _ _ _ ih =>
    rcases List.mem_cons.1 hv with rfl | hv
    · obtain ⟨text, htext⟩ := hruns
      rw [hjob] at htext
      cases htext
      exact hnot
    · exact fun hmem => ih hv (List.mem_cons_of_mem _ hmem)

/-- What the completed runs of a path leave, in order. -/
def loaded (path : String) (vs : List Visit) : List CachedModule := vs.filterMap (·.load? path)

theorem loaded_cons_none {v : Visit} (h : v.load? path = none) :
    loaded path (v :: vs) = loaded path vs := List.filterMap_cons_none h

theorem loaded_cons_some {v : Visit} {kept : CachedModule} (h : v.load? path = some kept) :
    loaded path (v :: vs) = kept :: loaded path vs := List.filterMap_cons_some h

theorem loaded_append (vs ws : List Visit) :
    loaded path (vs ++ ws) = loaded path vs ++ loaded path ws := List.filterMap_append

theorem loaded_eq_nil (h : ∀ v ∈ vs, ¬ v.Runs path) : loaded path vs = [] :=
  List.filterMap_eq_nil_iff.2 fun v hv => Visit.load?_eq_none (h v hv)

/-- The run of a module runs no module of its own path. -/
theorem loaded_enter (h : Loads policy (c.enter path) vs d) : loaded path vs = [] :=
  loaded_eq_nil fun _ hv hruns => h.not_loading hv hruns List.mem_cons_self

/-- What is kept for a path is what its last completed run left. -/
theorem get?_eq (h : Loads policy c vs d) (hpolicy : policy ≠ .disabled) (path : String) :
    d.modules.get? path = ((loaded path vs).getLast?).or (c.modules.get? path) := by
  induction h with
  | still => rfl
  | visit v hjob _ _ _ ih =>
    rw [loaded_cons_none (Visit.load?_eq_none (Visit.not_runs_of hjob))]
    exact ih
  | trans _ _ ih ih' =>
    rw [ih', ih, loaded_append, List.getLast?_append, Option.or_assoc]
  | @run c d vs p text v hjob _ _ _ _ _ _ hrun ih =>
    rw [Loader.get?_keep hpolicy]
    by_cases heq : path = p
    · subst heq
      rw [loaded_enter hrun] at ih
      cases hload : v.load? path with
      | none =>
        rw [loaded_cons_none hload, loaded_enter hrun]
        exact ih
      | some kept =>
        rw [loaded_cons_some hload, loaded_enter hrun]
        exact if_pos rfl
    · rw [loaded_cons_none (Visit.load?_eq_none (Visit.not_runs_of_ne hjob heq))]
      cases v.load? p with
      | none => exact ih
      | some kept => exact (if_neg heq).trans ih

/-- Without a cache nothing is kept. -/
theorem entries_eq (h : Loads .disabled c vs d) : d.modules.entries = c.modules.entries := by
  generalize hpolicy : CachePolicy.disabled = policy at h
  induction h with
  | still => rfl
  | visit _ _ _ _ _ ih => exact ih
  | trans _ _ ih ih' => exact ih'.trans ih
  | run v _ _ _ _ _ _ _ _ ih =>
    subst hpolicy
    rw [Loader.keep_entries]
    exact ih

/-- What is kept for a path was kept by `c`, or was left by one of some visits. -/
def Stems (c : Loader) (vs : List Visit) (path : String) (kept : CachedModule) : Prop :=
  c.modules.get? path = some kept ∨ ∃ v ∈ vs, v.load? path = some kept

theorem Stems.mono {ws : List Visit} {kept : CachedModule} (h : Stems c vs path kept)
    (hsub : ∀ v ∈ vs, v ∈ ws) : Stems c ws path kept :=
  h.imp_right fun ⟨v, hv, hload⟩ => ⟨v, hsub v hv, hload⟩

/-- What is kept afterwards was kept before, or was left by a run. -/
theorem stems (h : Loads policy c vs d) {kept : CachedModule}
    (hget : d.modules.get? path = some kept) : Stems c vs path kept := by
  by_cases hpolicy : policy = .disabled
  · subst hpolicy
    left
    rwa [ModuleCache.get?, h.entries_eq] at hget
  · rw [h.get?_eq hpolicy, Option.or_eq_some_iff] at hget
    rcases hget with hlast | ⟨-, hget⟩
    · exact .inr (List.mem_filterMap.1 (List.mem_of_getLast? hlast))
    · exact .inl hget

/-- What is kept when a visit starts was kept by `c`, or was left by a run that is listed
earlier. -/
def Stemming (c : Loader) (vs : List Visit) : Prop :=
  ∀ front v back path kept, vs = front ++ v :: back →
    v.machine.modules.get? path = some kept → Stems c front path kept

theorem Stemming.cons {v : Visit} (hv : v.machine.modules = c.modules) (h : Stemming c vs) :
    Stemming c (v :: vs) := by
  intro front w back path kept hvs hget
  cases front with
  | nil =>
    obtain ⟨rfl, -⟩ := List.cons.inj hvs
    rw [hv] at hget
    exact .inl hget
  | cons _ front =>
    obtain ⟨-, hvs⟩ := List.cons.inj hvs
    exact (h front w back path kept hvs hget).mono fun _ => List.mem_cons_of_mem _

theorem Stemming.append {ws : List Visit} (h : Stemming c vs)
    (hd : ∀ path kept, d.modules.get? path = some kept → Stems c vs path kept)
    (h' : Stemming d ws) : Stemming c (vs ++ ws) := by
  intro front v back path kept hvs hget
  have hlater (front' back' : List Visit) (hws : ws = front' ++ v :: back') :
      Stems c (vs ++ front') path kept := by
    rcases h' front' v back' path kept hws hget with hkept | ⟨w, hw, hload⟩
    · exact (hd path kept hkept).mono fun _ => List.mem_append_left _
    · exact .inr ⟨w, List.mem_append_right _ hw, hload⟩
  rcases List.append_eq_append_iff.1 hvs with ⟨front', rfl, hws⟩ | ⟨rest, rfl, hrest⟩
  · exact hlater front' back hws
  · cases rest with
    | nil => simpa using hlater [] back hrest.symm
    | cons _ rest =>
      obtain ⟨rfl, -⟩ := List.cons.inj hrest
      exact h front v rest path kept rfl hget

theorem stemming (h : Loads policy c vs d) : Stemming c vs := by
  induction h with
  | still =>
    intro front v back path kept hvs
    exact absurd hvs (by simp)
  | visit v _ hmachine _ _ ih => exact ih.cons (congrArg Loader.modules hmachine)
  | trans h _ ih ih' => exact ih.append (fun _ _ => h.stems) ih'
  | run v _ hmachine _ _ _ _ _ _ ih =>
    -- what starts a file leaves what is kept
    exact Stemming.cons (congrArg Loader.modules hmachine) ih

/-- All that is visited has the policy. -/
theorem policy_eq (h : Loads policy c vs d) : ∀ v ∈ vs, v.host.settings.policy = policy := by
  induction h with
  | still => exact List.forall_mem_nil _
  | visit v _ _ hpolicy _ ih => exact List.forall_mem_cons.2 ⟨hpolicy, ih⟩
  | trans _ _ ih ih' => exact List.forall_mem_append.2 ⟨ih, ih'⟩
  | run v _ _ hpolicy _ _ _ _ _ ih => exact List.forall_mem_cons.2 ⟨hpolicy, ih⟩

/-- What is run is the text of the file. -/
theorem read_eq (h : Loads policy c vs d) :
    ∀ v ∈ vs, ∀ path text, v.job = .runModule path text → v.host.disk.read path = .ok text := by
  induction h with
  | still => exact List.forall_mem_nil _
  | visit v hjob _ _ _ ih =>
    refine List.forall_mem_cons.2 ⟨fun path text hruns => ?_, ih⟩
    exact (Visit.not_runs_of hjob ⟨text, hruns⟩).elim
  | trans _ _ ih ih' => exact List.forall_mem_append.2 ⟨ih, ih'⟩
  | run v hjob _ _ hread _ _ _ _ ih =>
    refine List.forall_mem_cons.2 ⟨fun path text hruns => ?_, ih⟩
    rw [hjob] at hruns
    cases hruns
    exact hread

/-- Without a cache nothing is kept when a visit starts. -/
theorem entries_visited (h : Loads .disabled c vs d) (hc : c.modules.entries = []) :
    ∀ v ∈ vs, v.machine.modules.entries = [] := by
  generalize hpolicy : CachePolicy.disabled = policy at h
  induction h with
  | still => exact List.forall_mem_nil _
  | visit v _ hmachine _ _ ih =>
    subst hmachine
    exact List.forall_mem_cons.2 ⟨hc, ih hc⟩
  | trans h _ ih ih' =>
    subst hpolicy
    exact List.forall_mem_append.2 ⟨ih hc, ih' (h.entries_eq.trans hc)⟩
  | run v _ hmachine _ _ _ _ _ _ ih =>
    subst hmachine
    exact List.forall_mem_cons.2 ⟨hc, ih hc⟩

/-- What is kept for a path that is not run stays. -/
theorem get?_of_not_runs (h : Loads policy c vs d) (hno : ∀ v ∈ vs, ¬ v.Runs path) :
    d.modules.get? path = c.modules.get? path := by
  by_cases hpolicy : policy = .disabled
  · subst hpolicy
    rw [ModuleCache.get?, h.entries_eq]
    rfl
  · rw [h.get?_eq hpolicy, loaded_eq_nil hno]
    rfl

/-! ### Under reuse -/

/-- A module that is kept is not run. -/
theorem not_runs (h : Loads .reuse c vs d) (hget : (c.modules.get? path).isSome) :
    ∀ v ∈ vs, ¬ v.Runs path := by
  generalize hpolicy : CachePolicy.reuse = policy at h
  induction h with
  | still => exact List.forall_mem_nil _
  | visit v hjob _ _ _ ih =>
    exact List.forall_mem_cons.2 ⟨Visit.not_runs_of hjob, ih hget⟩
  | trans h _ ih ih' =>
    have hno := ih hget
    refine List.forall_mem_append.2 ⟨hno, ih' ?_⟩
    rw [h.get?_of_not_runs hno]
    exact hget
  | run v hjob _ _ _ _ hnone _ _ ih =>
    refine List.forall_mem_cons.2 ⟨?_, ih hget⟩
    rintro ⟨text, hruns⟩
    rw [hjob] at hruns
    cases hruns
    rw [hnone hpolicy.symm] at hget
    cases hget

/-- No path is run to its end twice. -/
theorem loaded_length_le (h : Loads .reuse c vs d) (path : String) :
    (loaded path vs).length ≤ 1 := by
  generalize hpolicy : CachePolicy.reuse = policy at h
  induction h with
  | still => exact Nat.zero_le 1
  | visit v hjob _ _ _ ih =>
    rw [loaded_cons_none (Visit.load?_eq_none (Visit.not_runs_of hjob))]
    exact ih
  | @trans c d e vs ws h h' ih ih' =>
    subst hpolicy
    rw [loaded_append, List.length_append]
    cases hlast : (loaded path vs).getLast? with
    | none =>
      rw [List.getLast?_eq_none_iff.1 hlast]
      simpa using ih'
    | some kept =>
      have hget : (d.modules.get? path).isSome := by
        rw [h.get?_eq nofun, hlast]
        rfl
      rw [loaded_eq_nil (h'.not_runs hget)]
      exact ih
  | @run c d vs p text v hjob _ _ _ _ _ _ hrun ih =>
    by_cases heq : path = p
    · subst heq
      cases hload : v.load? path with
      | none =>
        rw [loaded_cons_none hload]
        exact ih
      | some kept =>
        rw [loaded_cons_some hload, loaded_enter hrun]
        exact Nat.le_refl 1
    · rw [loaded_cons_none (Visit.load?_eq_none (Visit.not_runs_of_ne hjob heq))]
      exact ih

end Loads

/-! ### Every evaluation -/

/-- What an evaluation and its visits do to the cache. -/
def LoadsBy {α : Type} (x : Eval α) (tr : Trace) : Prop := ∀ host held m,
  Loads host.settings.policy m.loader (tr host held m) (x host held m).2.loader

namespace LoadsBy

variable {α β : Type} {x : Eval α} {k : α → Eval β} {tr : Trace} {rest : α → Trace} {bound : Nat}

theorem quiet (hx : Quiet x) : LoadsBy x .none := by
  intro host held m
  rw [hx.loader host held m]
  exact .still m.loader

theorem andThen (hx : LoadsBy x tr) (hk : ∀ a, LoadsBy (k a) (rest a)) :
    LoadsBy (x >>= k) (.andThen x tr rest) := by
  intro host held m
  have hx := hx host held m
  show Loads _ _ (Trace.andThen x tr rest host held m) (Eval.bind x k host held m).2.loader
  unfold Trace.andThen Eval.bind
  generalize x host held m = r at hx
  obtain ⟨outcome, n⟩ := r
  cases outcome with
  | done a => exact hx.trans (hk a host held n)
  | failed fault => exact hx.trans (.still _)
  | exhausted => exact hx.trans (.still _)

theorem andThen_quiet (hx : LoadsBy x tr) (hk : ∀ a, Quiet (k a)) : LoadsBy (x >>= k) tr := by
  rw [← Trace.andThen_none tr]
  exact hx.andThen fun a => quiet (hk a)

theorem claiming (span : Span) (hx : LoadsBy x tr) : LoadsBy (Eval.claiming span x) tr := by
  intro host held m
  rw [machine_claiming]
  exact hx host held m

theorem inScope (parent : Slot) (values : α → List Value) (hx : LoadsBy x tr) :
    LoadsBy (Eval.inScope parent values x) (.inScope parent tr) := by
  intro host held m
  have hx := hx host held (m.enter parent)
  unfold Eval.inScope Trace.inScope
  dsimp only
  generalize x host held (m.enter parent) = r at hx
  obtain ⟨outcome, n⟩ := r
  cases outcome <;> exact hx

/-- A visit in front of what it visits. -/
theorem visit {t : Job} (ht : t.runsModule = false) {x : Eval α} (hx : LoadsBy x tr) :
    LoadsBy x fun host held m => ⟨bound, t, host, held, m⟩ :: tr host held m :=
  fun host held m => .visit ⟨bound, t, host, held, m⟩ ht rfl rfl (hx host held m)

end LoadsBy

/-- What the run of a module loads itself, between the start and the end of its file. -/
def LoadsIn {α : Type} (path : String) (x : Eval α) (tr : Trace) : Prop := ∀ host held m, ∃ d,
  Loads host.settings.policy (m.loader.enter path) (tr host held m) d ∧
    (x host held m).2.loader = d.leave

namespace LoadsIn

variable {α β : Type} {x : Eval α} {k : α → Eval β} {tr : Trace} {rest : α → Trace} {path : String}

theorem quiet_andThen (hx : Quiet x) (hk : ∀ a, LoadsIn path (k a) (rest a)) :
    LoadsIn path (x >>= k) (.andThen x .none rest) := by
  intro host held m
  have hx := hx.loader host held m
  show ∃ d, Loads _ _ (Trace.andThen x .none rest host held m) d ∧
    (Eval.bind x k host held m).2.loader = d.leave
  unfold Trace.andThen Eval.bind
  generalize x host held m = r at hx
  obtain ⟨outcome, n⟩ := r
  cases outcome with
  | done a =>
    rw [← hx]
    exact hk a host held n
  | failed fault => exact ⟨m.loader.enter path, .still _, hx⟩
  | exhausted => exact ⟨m.loader.enter path, .still _, hx⟩

theorem inModule (hx : LoadsBy x tr) : LoadsIn path (Eval.inModule path x) (.inModule path tr) :=
  fun host held m => ⟨_, hx host held (m.beginModule path), rfl⟩

end LoadsIn

theorem loadsIn_runModule {bound : Nat}
    (ih : ∀ ss, LoadsBy (Eval.executeAll bound ss) (visits bound (.executeAll ss)))
    (path text : String) :
    LoadsIn path (Eval.runModule (bound + 1) path text)
      (below bound (visits bound) (.runModule path text)) := by
  rw [Eval.runModule.eq_def]
  refine .quiet_andThen (quiet_moduleProgram path text) fun program => .inModule ?_
  refine .andThen (.quiet .machine) fun m => .inScope _ _ ?_
  refine (ih program.body).andThen_quiet fun flow => ?_
  cases flow with
  | normal => exact .bind .machine fun _ => .pure _
  | returned vs => exact .fail _

/-! ### Imports -/

theorem loader_keeping (policy : CachePolicy) (path digest : String)
    (r : Outcome Bindings × Machine) :
    (keeping policy path digest r).2.loader = r.2.loader.keep policy path (r.1.kept? digest) := by
  obtain ⟨outcome, m⟩ := r
  cases outcome with
  | done exports =>
    rw [keeping, Machine.keepModule, Outcome.kept?, Loader.keep]
    split <;> rfl
  | failed fault => rfl
  | exhausted => rfl

/-- The visit that runs a module, and what it loads itself. -/
theorem exists_loads_runModule {bound : Nat}
    (ih : ∀ b ss, b < bound → LoadsBy (Eval.executeAll b ss) (visits b (.executeAll ss)))
    (path text : String) (host : Host) (held : List Value) (m : Machine) :
    ∃ d vs, visits bound (.runModule path text) host held m =
        ⟨bound, .runModule path text, host, held, m⟩ :: vs ∧
      Loads host.settings.policy (m.loader.enter path) vs d ∧
        (Eval.runModule bound path text host held m).2.loader = d.leave := by
  cases bound with
  | zero => exact ⟨m.loader.enter path, [], rfl, .still _, rfl⟩
  | succ bound =>
    obtain ⟨d, hd, hloader⟩ := loadsIn_runModule
      (fun ss => ih bound ss (Nat.lt_succ_self bound)) path text host held m
    exact ⟨d, _, rfl, hd, hloader⟩

/-- The import of a file. -/
theorem loadsBy_fileExports {bound : Nat} (source path : String)
    (ih : ∀ b ss, b < bound → LoadsBy (Eval.executeAll b ss) (visits b (.executeAll ss))) :
    LoadsBy (Eval.fileExports (bound + 1) source path)
      (visits (bound + 1) (.fileExports source path)) := by
  refine .visit rfl fun host held m => ?_
  have himports := imports bound source path host held m
  generalize Eval.fileExports (bound + 1) source path host held m = r at himports
  change Loads _ _ (belowFile (visits bound) source path host held m) _
  generalize belowFile (visits bound) source path host held m = vs at himports
  cases himports with
  | reused | circular | unreadable | unchanged => exact .still _
  | @ran text hloading hread hreuse _ =>
    obtain ⟨d, vs, hvisits, hd, hloader⟩ := exists_loads_runModule ih path text host held m
    rw [hvisits, loader_keeping, hloader, ← Visit.load?_runModule bound path text host held m]
    exact .run _ rfl rfl rfl hread hloading hreuse hvisits hd

theorem loadsBy_exhausted (t : Job) (ht : t.runsModule = false) :
    LoadsBy (t.run 0) (visits 0 t) := by
  have hquiet : Quiet (t.run 0) := by
    cases t with
    | runModule => cases ht
    | _ => exact .exhausted
  exact LoadsBy.visit ht (LoadsBy.quiet hquiet)

theorem loads_walk : Walk LoadsBy where
  quiet := .quiet
  andThen := .andThen
  holding vs hx host held m := hx host (vs ++ held) m
  inScope := .inScope
  exhausted := loadsBy_exhausted
  statement bound s h := .visit rfl (by rw [Eval.execute]; exact h.claiming s.span)
  expression bound e h := .visit rfl (by rw [Eval.evaluate]; exact h.claiming e.span)
  inner bound t _ ht h := .visit ht h
  file _ source path ih := loadsBy_fileExports source path ih

/-- Every job that is no run of a module itself changes the cache by what it loads. -/
theorem loads_visits (bound : Nat) {t : Job} (ht : t.runsModule = false) (host : Host)
    (held : List Value) (m : Machine) :
    Loads host.settings.policy m.loader (visits bound t host held m)
      (t.run bound host held m).2.loader :=
  loads_walk.visits bound t ht host held m

/-- The run of a module leaves what is kept for its own path. -/
theorem get?_runModule (bound : Nat) (path text : String) (host : Host) (held : List Value)
    (m : Machine) :
    (Eval.runModule bound path text host held m).2.modules.get? path = m.modules.get? path := by
  obtain ⟨d, vs, -, hd, hloader⟩ := exists_loads_runModule
    (fun b ss _ => loads_walk.visits b (.executeAll ss) rfl) path text host held m
  have hno : ∀ v ∈ vs, ¬ v.Runs path := fun v hv hruns =>
    hd.not_loading hv hruns List.mem_cons_self
  calc (Eval.runModule bound path text host held m).2.modules.get? path
      = d.leave.modules.get? path := congrArg (fun c : Loader => c.modules.get? path) hloader
    _ = (m.loader.enter path).modules.get? path := hd.get?_of_not_runs hno
    _ = m.modules.get? path := rfl

end Playscript

/-
# What a failing import leaves bound

An evaluation binds names in the scope in use and nowhere else (`Shelters`): its
own scopes are pushed inside others, and what it assigns is bound already. A module
runs in a scope of its own, so whatever loading one comes to, the importer's names
are as before (`hides_moduleExports`). A wildcard import that is loaded cannot fail.
The items of a list are bound one after the other: when one is not exported, those
in front of it stay bound (`ImportLeaves`).

Key definitions: `Shelters`, `Hides`, `Machine.Adds`, `ImportLeaves`.
Key theorems: `hides_moduleExports`, `import_leaves`, `Session.failing_imports`.
-/
import Playscript.Proofs.Machine.Restoring
import Playscript.Proofs.Trace.Faults

namespace Playscript

open Eval Job

/-! ### Names of other frames -/

/-- An evaluation leaves the machine settled and binds no names in frames at work other than the
one in use; what it visits starts in frames at work. -/
structure Shelters (host : Host) (vs : List Visit) (m n : Machine) : Prop where
  settles : Settles host vs m n
  names : host.reclaims = true → m.arena.Sturdy → ∀ s, m.arena.Live s → s ≠ m.current →
    (n.arena.bindings s).binds = (m.arena.bindings s).binds
  working : host.reclaims = true → m.arena.Sturdy → m.arena.Live m.current →
    ∀ v ∈ vs, v.machine.arena.Live v.machine.current

namespace Shelters

variable {host : Host} {vs ws : List Visit} {m n o : Machine} {v : Visit}

theorem of_steady (h : m.Steady n) : Shelters host [] m n where
  settles := .of_steady h
  names _ _ s _ := h.names s
  working _ _ _ := List.forall_mem_nil _

theorem trans (h : Shelters host vs m n) (h' : Shelters host ws n o) :
    Shelters host (vs ++ ws) m o where
  settles := h.settles.trans h'.settles
  names hreclaims hm s hs hne := by
    have hn := h.settles.frames hreclaims hm
    exact (h'.names hreclaims hn.sturdy s ((hn.live s).2 hs) (h.settles.scope ▸ hne)).trans
      (h.names hreclaims hm s hs hne)
  working hreclaims hm hs := by
    have hn := h.settles.frames hreclaims hm
    refine List.forall_mem_append.2 ⟨h.working hreclaims hm hs, h'.working hreclaims hn.sturdy ?_⟩
    rw [h.settles.scope]
    exact (hn.live _).2 hs

theorem cons (hhost : v.host = host) (hmachine : v.machine = m) (h : Shelters host vs m n) :
    Shelters host (v :: vs) m n where
  settles := h.settles.cons hhost hmachine
  names := h.names
  working hreclaims hm hs := by
    subst hmachine
    exact List.forall_mem_cons.2 ⟨hs, h.working hreclaims hm hs⟩

/-- What runs in a scope of its own binds no names in any frame at work. -/
theorem names_leave {parent : Slot} {s : Slot} (h : Shelters host vs (m.enter parent) n)
    (held : List Value) (hreclaims : host.reclaims = true) (hm : m.arena.Sturdy)
    (hs : m.arena.Live s) :
    ((n.leave host held m.current).arena.bindings s).binds = (m.arena.bindings s).binds := by
  have hne : s ≠ m.arena.next := fun heq => hm.not_live_next (heq ▸ hs)
  have hpush : (m.arena.push parent).2.Live s := hm.ledger.live_push.2 (.inr hs)
  have hscope : n.current = m.arena.next := h.settles.scope.trans (Arena.push_fst _ _)
  have hn : n.arena.Live s := ((h.settles.frames hreclaims (hm.push parent)).live s).2 hpush
  calc ((n.leave host held m.current).arena.bindings s).binds
      = ((n.arena.release (n.outside held) n.current).bindings s).binds := by
        rw [Machine.leave, if_pos hreclaims]
    _ = (n.arena.bindings s).binds := by rw [hn.bindings_release (hscope ▸ hne)]
    _ = ((m.arena.push parent).2.bindings s).binds :=
        h.names hreclaims (hm.push parent) s hpush fun heq => hne (heq.trans (Arena.push_fst _ _))
    _ = (m.arena.bindings s).binds := by
        rw [Arena.bindings_push (fun t => hm.ledger.lt_size) parent (Ne.symm hne)]

theorem leave (parent : Slot) (held : List Value) (h : Shelters host vs (m.enter parent) n) :
    Shelters host vs m (n.leave host held m.current) where
  settles := h.settles.leave held
  names hreclaims hm _ hs _ := h.names_leave held hreclaims hm hs
  working hreclaims hm _ := h.working hreclaims (hm.push parent)
    (hm.ledger.live_push.2 (.inl (Arena.push_fst _ _)))

theorem keepModule (m : Machine) (policy : CachePolicy) (path : String) (kept : CachedModule) :
    Shelters host [] m (m.keepModule policy path kept) where
  settles := .keepModule m policy path kept
  names _ _ s _ _ := by
    unfold Machine.keepModule
    split <;> rfl
  working _ _ _ := List.forall_mem_nil _

theorem composes : Composes Shelters where
  steady := .of_steady
  trans := .trans
  cons := .cons
  leave := .leave
  endModule _ h := ⟨h.settles.endModule, h.names, h.working⟩
  keepModule := .keepModule

end Shelters

/-- Every job binds names in the scope in use only, and all it visits starts in frames at work. -/
theorem shelters_visits (bound : Nat) (t : Job) (host : Host) (held : List Value) (m : Machine) :
    Shelters host (visits bound t host held m) m (t.run bound host held m).2 :=
  Shelters.composes.uniform.visits bound t host held m

/-! ### Loading a module -/

/-- An evaluation binds no names in any frame that is at work already, not even in the one in
use. -/
def Hides {α : Type} (x : Eval α) : Prop := ∀ (host : Host) (held : List Value) (m : Machine),
  host.reclaims = true → m.arena.Sturdy → ∀ s, m.arena.Live s →
    ((x host held m).2.arena.bindings s).binds = (m.arena.bindings s).binds

namespace Hides

variable {α β : Type} {x : Eval α} {k : α → Eval β} {tr : Trace}

/-- Something that does not touch the arena comes first. -/
theorem andThen (hx : ∀ host held m, (x host held m).2.arena = m.arena)
    (hk : ∀ a, Hides (k a)) : Hides (x >>= k) := by
  intro host held m hreclaims hm s hs
  have hx := hx host held m
  show ((Eval.bind x k host held m).2.arena.bindings s).binds = _
  unfold Eval.bind
  generalize x host held m = r at hx
  obtain ⟨outcome, n⟩ := r
  change n.arena = m.arena at hx
  rw [← hx] at hm hs ⊢
  cases outcome with
  | done a => exact hk a host held n hreclaims hm s hs
  | failed fault => rfl
  | exhausted => rfl

theorem inScope (hx : ∀ host held m, Shelters host (tr host held m) m (x host held m).2)
    (parent : Slot) (values : α → List Value) : Hides (Eval.inScope parent values x) := by
  intro host held m hreclaims hm s hs
  have hx := hx host held (m.enter parent)
  unfold Eval.inScope
  dsimp only
  generalize x host held (m.enter parent) = r at hx
  obtain ⟨outcome, n⟩ := r
  cases outcome <;> exact hx.names_leave _ hreclaims hm hs

theorem inModule (path : String) (hx : Hides x) : Hides (Eval.inModule path x) :=
  fun host held m => hx host held (m.beginModule path)

end Hides

/-- Reading a module does not touch the arena. -/
theorem arena_moduleProgram (path text : String) (host : Host) (held : List Value) (m : Machine) :
    (moduleProgram path text host held m).2.arena = m.arena := by
  unfold moduleProgram
  obtain ⟨program, log⟩ := Program.ofSource ⟨path, text⟩
  cases program <;> rfl

/-- A module runs in a scope of its own. -/
theorem hides_runModule (bound : Nat) (path text : String) :
    Hides (Eval.runModule bound path text) := by
  cases bound with
  | zero => exact fun _ _ _ _ _ _ _ => rfl
  | succ bound =>
    rw [Eval.runModule.eq_def]
    refine .andThen (arena_moduleProgram path text) fun program => .inModule path ?_
    refine .andThen (fun _ _ _ => rfl) fun m => .inScope (Shelters.composes.uniform.andThen_quiet
      (shelters_visits bound (.executeAll program.body)) fun flow => ?_) _ _
    cases flow with
    | normal => exact .bind .machine fun _ => .pure _
    | returned vs => exact .fail _

theorem hides_fileExports (bound : Nat) (source path : String) :
    Hides (Eval.fileExports bound source path) := by
  cases bound with
  | zero => exact fun _ _ _ _ _ _ _ => rfl
  | succ bound =>
    intro host held m hreclaims hm s hs
    have himports := imports bound source path host held m
    generalize Eval.fileExports (bound + 1) source path host held m = r at himports
    generalize belowFile (visits bound) source path host held m = vs at himports
    cases himports with
    | reused | circular | unreadable | unchanged => rfl
    | @ran text =>
      have hrun := hides_runModule bound path text host held m hreclaims hm s hs
      generalize Eval.runModule bound path text host held m = r at hrun
      obtain ⟨outcome, n⟩ := r
      cases outcome with
      | done exports =>
        rw [keeping, Machine.keepModule]
        split <;> exact hrun
      | failed fault => exact hrun
      | exhausted => exact hrun

/-- Whatever loading a module comes to, every frame at work binds the names it has bound. -/
theorem hides_moduleExports (bound : Nat) (source : String) :
    Hides (Eval.moduleExports bound source) := by
  cases bound with
  | zero => exact fun _ _ _ _ _ _ _ => rfl
  | succ bound =>
    rw [Eval.moduleExports]
    cases Library.moduleOf? source with
    | some name =>
      dsimp only
      cases Library.exports? name <;> exact fun _ _ _ _ _ _ _ => rfl
    | none =>
      refine .andThen (fun _ _ _ => rfl) fun m => .andThen (fun _ _ _ => rfl) fun h => ?_
      cases h.disk.canonical? (Path.join (m.directory h.settings) source) with
      | none => exact fun _ _ _ _ _ _ _ => rfl
      | some path => exact hides_fileExports bound source path

/-! ### Binding what is exported -/

/-- The scope in use binds what it has bound, and the names of a list. -/
def Machine.Adds (m n : Machine) (names : List String) : Prop :=
  ∀ name, (n.arena.bindings m.current).binds name = true ↔
    (m.arena.bindings m.current).binds name = true ∨ name ∈ names

namespace Machine.Adds

variable {m n o : Machine} {names others : List String}

theorem nil (h : (n.arena.bindings m.current).binds = (m.arena.bindings m.current).binds) :
    m.Adds n [] := by
  intro name
  rw [h]
  simp

theorem define (hs : (m.arena.frame? m.current).isSome) (name : String) (v : Value) :
    m.Adds (m.define name v) [name] := by
  intro other
  show ((m.arena.define m.current name v).bindings m.current).binds other = true ↔ _
  rw [Arena.bindings_define_self hs, Bindings.binds_insert, Bool.or_eq_true, beq_iff_eq,
    List.mem_singleton, or_comm]

theorem trans (hcurrent : n.current = m.current) (h : m.Adds n names) (h' : n.Adds o others) :
    m.Adds o (names ++ others) := by
  intro name
  have h' := h' name
  rw [hcurrent] at h'
  rw [h', h name, List.mem_append, or_assoc]

end Machine.Adds

/-- The items of a list are bound up to the first that is not exported. -/
theorem bindItems_failed {exports : Bindings} {source : String} {items : List ImportItem}
    {host : Host} {held : List Value} {m : Machine} {failure : Failure}
    (hs : (m.arena.frame? m.current).isSome)
    (h : (bindItems exports source items host held m).1.failure? = some failure) :
    ∃ early missing rest, items = early ++ missing :: rest ∧
      (∀ i ∈ early, exports.binds i.name.name = true) ∧
      exports.binds missing.name.name = false ∧
      failure = .exportNotFound missing.name.name source ∧
      m.Adds (bindItems exports source items host held m).2 (early.map ImportItem.localName) := by
  induction items generalizing m with
  | nil => cases h
  | cons item items ih =>
    rw [bindItems] at h ⊢
    cases hget : exports.get? item.name.name with
    | none =>
      simp only [hget] at h ⊢
      cases h
      exact ⟨[], item, items, rfl, List.forall_mem_nil _, by rw [Bindings.binds, hget]; rfl, rfl,
        .nil rfl⟩
    | some v =>
      simp only [hget] at h ⊢
      have hdefine : m.Adds (m.define item.localName v) [item.localName] := .define hs _ v
      have hs' : ((m.define item.localName v).arena.frame? m.current).isSome := by
        rw [Machine.define, Arena.define, Arena.isSome_frame?_modify]
        exact hs
      obtain ⟨early, missing, rest, rfl, hearly, hmissing, hfailure, hadds⟩ :=
        ih hs' h
      have hall := Machine.Adds.trans (m := m) (n := m.define item.localName v) rfl hdefine hadds
      exact ⟨item :: early, missing, rest, rfl,
        List.forall_mem_cons.2 ⟨by rw [Bindings.binds, hget]; rfl, hearly⟩, hmissing, hfailure,
        hall⟩

/-! ### Failing imports -/

/-- What a failing import leaves bound, by what loading the module came to. -/
inductive ImportLeaves (items? : Option (List ImportItem)) (source : String)
    (load : Outcome Bindings) (m n : Machine) : Failure → Prop where
  /-- What could not be loaded binds nothing. -/
  | unloaded {failure : Failure} : load.failure? = some failure → m.Adds n [] →
      ImportLeaves items? source load m n failure
  /-- The items in front of one that is not exported are bound. -/
  | missing {exports : Bindings} {early rest : List ImportItem} {missing : ImportItem} :
    load = .done exports → items? = some (early ++ missing :: rest) →
      (∀ i ∈ early, exports.binds i.name.name = true) →
      exports.binds missing.name.name = false → m.Adds n (early.map ImportItem.localName) →
      ImportLeaves items? source load m n (.exportNotFound missing.name.name source)

/-- A node that claims a failure leaves it the same failure. -/
theorem failure?_claiming {α : Type} (x : Eval α) (span : Span) (host : Host) (held : List Value)
    (m : Machine) :
    (claiming span x host held m).1.failure? = (x host held m).1.failure? := by
  unfold claiming
  generalize x host held m = r
  obtain ⟨outcome, n⟩ := r
  cases outcome <;> rfl

/-- What is left of an import once its module is loaded. -/
def Eval.bindExports (items? : Option (List ImportItem)) (source : String) (exports : Bindings) :
    Eval Flow := do
  match items? with
  | none => defineAll exports
  | some items => bindItems exports source items
  return .normal

theorem perform_importFrom (bound : Nat) (span : Span) (items? : Option (List ImportItem))
    (source : String) : Eval.perform (bound + 1) (.importFrom span items? source) =
      Eval.moduleExports bound source >>= bindExports items? source := by
  rw [Eval.perform]
  rfl

/-- Only the binding of a list can fail. -/
theorem bindExports_failed {exports : Bindings} {items? : Option (List ImportItem)}
    {source : String} {host : Host} {held : List Value} {m : Machine} {failure : Failure}
    (hs : (m.arena.frame? m.current).isSome)
    (h : (bindExports items? source exports host held m).1.failure? = some failure) :
    ∃ early missing rest, items? = some (early ++ missing :: rest) ∧
      (∀ i ∈ early, exports.binds i.name.name = true) ∧
      exports.binds missing.name.name = false ∧
      failure = .exportNotFound missing.name.name source ∧
      m.Adds (bindExports items? source exports host held m).2
        (early.map ImportItem.localName) := by
  cases items? with
  | none => cases h
  | some items =>
    unfold bindExports at h ⊢
    dsimp only at h ⊢
    rcases hbind : bindItems exports source items host held m with ⟨outcome, n⟩
    cases outcome with
    | done result =>
      rw [bind_of_done hbind] at h
      cases h
    | exhausted =>
      rw [bind_of_exhausted hbind] at h
      cases h
    | failed fault =>
      rw [bind_of_failed hbind] at h ⊢
      obtain ⟨early, missing, rest, rfl, hall⟩ := bindItems_failed hs (by rwa [hbind])
      rw [hbind] at hall
      exact ⟨early, missing, rest, rfl, hall⟩

theorem import_leaves {bound : Nat} {span : Span} {items? : Option (List ImportItem)}
    {source : String} {host : Host} {held : List Value} {m : Machine} {failure : Failure}
    (hreclaims : host.reclaims = true) (hm : m.arena.Sturdy) (hcurrent : m.arena.Live m.current)
    (h : (Eval.execute (bound + 2) (.importFrom span items? source) host held m).1.failure? =
      some failure) :
    ImportLeaves items? source (Eval.moduleExports bound source host held m).1 m
      (Eval.execute (bound + 2) (.importFrom span items? source) host held m).2 failure := by
  rw [Eval.execute] at h ⊢
  rw [failure?_claiming] at h
  rw [machine_claiming]
  rw [perform_importFrom] at h ⊢
  have hnames := hides_moduleExports bound source host held m hreclaims hm _ hcurrent
  have hsettles := settles_visits bound (.moduleExports source) host held m
  rw [Job.run] at hsettles
  rcases hload : Eval.moduleExports bound source host held m with ⟨outcome, n⟩
  rw [hload] at hnames hsettles
  cases outcome with
  | failed fault =>
    rw [bind_of_failed hload] at h ⊢
    exact .unloaded h (.nil hnames)
  | exhausted =>
    rw [bind_of_exhausted hload] at h
    cases h
  | done exports =>
    rw [bind_of_done hload] at h ⊢
    have hlive : n.arena.Live n.current := by
      rw [hsettles.scope]
      exact ((hsettles.frames hreclaims hm).live _).2 hcurrent
    obtain ⟨early, missing, rest, rfl, hearly, hmissing, rfl, hadds⟩ :=
      bindExports_failed hlive.isSome h
    exact .missing rfl rfl hearly hmissing (Machine.Adds.trans hsettles.scope (.nil hnames) hadds)

/-! ### Sessions -/

namespace Session

variable (settings : Settings) (bound : Nat)

/-- The scope in use is at work between requests. -/
theorem live_step {s : Session} (hs : s.interpreter.Orderly)
    (hlive : s.interpreter.machine.arena.Live s.interpreter.machine.current) (r : Request) :
    (s.step settings true bound r).2.interpreter.machine.arena.Live
      (s.step settings true bound r).2.interpreter.machine.current := by
  obtain ⟨m, hsettles, htidies⟩ := Settles.composes.step settings true bound s r
  have hm : m.arena.Live m.current := by
    rw [hsettles.scope]
    exact ((hsettles.frames rfl hs).live _).2 hlive
  rw [htidies.scope]
  obtain harena | ⟨held, harena⟩ := htidies.arena
  · rwa [harena]
  · rw [harena]
    exact Arena.live_collect.2 hm

/-- So it is wherever an evaluation starts. -/
theorem working_after {s : Session} (hs : s.interpreter.Orderly)
    (hlive : s.interpreter.machine.arena.Live s.interpreter.machine.current)
    (requests : List Request) : ∀ v ∈ s.visits settings true bound requests,
      v.machine.arena.Live v.machine.current := by
  induction requests generalizing s with
  | nil => exact List.forall_mem_nil _
  | cons r rest ih =>
    obtain ⟨m, hshelters, -⟩ := Shelters.composes.step settings true bound s r
    exact List.forall_mem_append.2 ⟨hshelters.working rfl hs hlive,
      ih (orderly_step settings bound hs r).1 (live_step settings bound hs hlive r)⟩

/-- It is so after any requests. -/
theorem live_after {s : Session} (hs : s.interpreter.Orderly)
    (hlive : s.interpreter.machine.arena.Live s.interpreter.machine.current)
    (requests : List Request) :
    (s.after settings true bound requests).interpreter.machine.arena.Live
      (s.after settings true bound requests).interpreter.machine.current := by
  induction requests generalizing s with
  | nil => exact hlive
  | cons r rest ih =>
    exact ih (orderly_step settings bound hs r).1 (live_step settings bound hs hlive r)

theorem working_start (clock : Clock) (disk : Disk) :
    (start clock disk).interpreter.machine.arena.Live
      (start clock disk).interpreter.machine.current := ⟨.inside none, rfl, rfl⟩

/-- A failing import binds nothing in the scope in use, unless its module is loaded and an item of
its list is not exported: then the items in front of that one are bound. This is so on every
machine in order whose scope in use is at work, as are those on which the imports of a session
start. -/
theorem failing_imports (settings : Settings) (most : Nat) (clock : Clock) (disk : Disk)
    (requests : List Request) (bound : Nat) (span : Span) (items? : Option (List ImportItem))
    (source : String) (host : Host) (held : List Value) (m : Machine)
    (failure : Failure)
    (hstarts : host.reclaims = true ∧ m.arena.Sturdy ∧ m.arena.Live m.current ∨
      ⟨bound + 2, .execute (.importFrom span items? source), host, held, m⟩ ∈
        (start clock disk).visits settings true most requests)
    (hfails : (Eval.execute (bound + 2) (.importFrom span items? source) host held m).1.failure? =
      some failure) :
    ImportLeaves items? source (Eval.moduleExports bound source host held m).1 m
      (Eval.execute (bound + 2) (.importFrom span items? source) host held m).2 failure := by
  rcases hstarts with ⟨hreclaims, hm, hcurrent⟩ | hv
  · exact import_leaves hreclaims hm hcurrent hfails
  · have horderly := (orderly_after settings most (orderly_start clock disk) requests).2 _ hv
    have hworking := working_after settings most (orderly_start clock disk)
      (working_start clock disk) requests _ hv
    exact import_leaves horderly.reclaims horderly.sturdy hworking hfails

/-- A module that exports one name. -/
def smallModule : Disk where
  canonical? path := if path = "./m.gvx" then some "/m.gvx" else none
  read path := if path = "/m.gvx" then .ok "int a = 1;" else .error .missing

/-- The second item of the list is not exported. -/
theorem failing_imports_smallModule :
    let host := (start ⟨0, 0⟩ smallModule).host .standard true
    let m := Machine.start ⟨0, 0⟩
    let items := [⟨⟨"a", default⟩, none⟩, ⟨⟨"nope", default⟩, none⟩]
    let r := Eval.execute 30 (.importFrom default (some items) "m.gvx") host [] m
    (host.reclaims = true ∧ m.arena.Sturdy ∧ m.arena.Live m.current) ∧
      r.1.failure? = some (.exportNotFound "nope" "m.gvx") ∧
      ImportLeaves (some items) "m.gvx" (Eval.moduleExports 28 "m.gvx" host [] m).1 m r.2
        (.exportNotFound "nope" "m.gvx") := by
  intro host m items r
  have hstarts : host.reclaims = true ∧ m.arena.Sturdy ∧ m.arena.Live m.current :=
    ⟨rfl, orderly_start ⟨0, 0⟩ smallModule, working_start ⟨0, 0⟩ smallModule⟩
  have hfails : r.1.failure? = some (.exportNotFound "nope" "m.gvx") := by decide +kernel
  exact ⟨hstarts, hfails, failing_imports .standard 0 ⟨0, 0⟩ smallModule [] 28 default
    (some items) "m.gvx" host [] m _ (.inl hstarts) hfails⟩

/-- The second item of the list is not exported, and the first stays bound. -/
theorem partial_import :
    let text := "import \x7b a, nope \x7d from \"m.gvx\";"
    ((Program.ofSource ⟨Settings.standard.fileName, text⟩).1.toOption.bind fun program =>
      program.body.head?.map fun statement =>
        let s := start ⟨0, 0⟩ smallModule
        let after := s.step .standard true 30 (.execute statement)
        (after.1 matches .flowed (.failed ⟨.exportNotFound "nope" "m.gvx", _⟩),
          (s.interpreter.machine.arena.bindings Arena.root).names,
          (after.2.interpreter.machine.arena.bindings Arena.root).names)) =
    some (true, [], ["a"]) := by
  decide +kernel

end Session

end Playscript

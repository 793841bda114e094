/-
# What a declaration adds

A declaration that is done has added its own names to those of the scope in use,
and no others: the name it declares, or the names of what it imports. One that is
not done has added some of them at most, those in front of the place where it
failed. Other statements of a script, and all expressions, add none.

Key definitions: `Gains`, `Visit.loaded`, `Visit.Extends`, `Visit.Scoped`.
Key theorems: `Visit.extends_declaration`, `Session.scoped_reached`.
-/
import Playscript.Proofs.Machine.Scoping

namespace Playscript

open Eval Job

/-- A node that claims a failure is done where it was done without. -/
theorem Eval.isDone_claiming {α : Type} (span : Span) (x : Eval α) (host : Host)
    (held : List Value) (m : Machine) :
    (claiming span x host held m).1.isDone = (x host held m).1.isDone := by
  unfold claiming
  generalize x host held m = r
  obtain ⟨outcome, n⟩ := r
  cases outcome <;> rfl

/-! ### Names that are added -/

/-- Some names are added to the scope in use, in their order; all of them where the evaluation is
done. -/
def Gains {α : Type} (m : Machine) (names : List String) (r : Outcome α × Machine) : Prop :=
  ∃ early, early <+: names ∧ m.Adds r.2 early ∧ (r.1.isDone = true → early = names)

namespace Gains

variable {α β : Type} {m n : Machine} {names : List String} {r : Outcome α × Machine}

/-- Before the first name is set. -/
theorem none (h : m.Adds r.2 []) (hr : r.1.isDone = false) : Gains m names r :=
  ⟨[], List.nil_prefix, h, fun hdone => by rw [hr] at hdone; cases hdone⟩

theorem all (h : m.Adds r.2 names) : Gains m names r := ⟨names, List.prefix_rfl, h, fun _ => rfl⟩

/-- What adds no names comes first. -/
theorem after (hscope : n.current = m.current) (hn : m.Adds n []) (h : Gains n names r) :
    Gains m names r := by
  obtain ⟨early, hearly, hadds, hdone⟩ := h
  exact ⟨early, hearly, .trans hscope hn hadds, hdone⟩

/-- A node that claims a failure adds nothing. -/
theorem claiming {span : Span} {x : Eval α} {host : Host} {held : List Value}
    (h : Gains m names (x host held m)) : Gains m names (Eval.claiming span x host held m) := by
  obtain ⟨early, hearly, hadds, hdone⟩ := h
  exact ⟨early, hearly, by rwa [machine_claiming], fun hd => hdone (by rwa [isDone_claiming] at hd)⟩

/-- An evaluation that adds no names, and the rest. -/
theorem bind {x : Eval α} {k : α → Eval β} {host : Host} {held : List Value}
    (hscope : (x host held m).2.current = m.current) (hx : m.Adds (x host held m).2 [])
    (hk : ∀ a, (x host held m).1 = .done a →
      Gains (x host held m).2 names (k a host held (x host held m).2)) :
    Gains m names ((x >>= k) host held m) := by
  rcases h : x host held m with ⟨outcome, n⟩
  rw [h] at hscope hx hk
  cases outcome with
  | done a =>
    rw [bind_of_done h]
    exact (hk a rfl).after hscope hx
  | failed fault =>
    rw [bind_of_failed h]
    exact .none hx rfl
  | exhausted =>
    rw [bind_of_exhausted h]
    exact .none hx rfl

end Gains

namespace Machine.Adds

variable {m : Machine}

theorem isSome_define (hs : (m.arena.frame? m.current).isSome) (name : String) (v : Value) :
    ((m.define name v).arena.frame? (m.define name v).current).isSome := by
  rw [Machine.define, Arena.define, Arena.isSome_frame?_modify]
  exact hs

theorem foldl_define (hs : (m.arena.frame? m.current).isSome) (entries : List (String × Value)) :
    m.Adds (entries.foldl (fun m e => m.define e.1 e.2) m) (entries.map Prod.fst) := by
  induction entries generalizing m with
  | nil => exact .nil rfl
  | cons e entries ih =>
    exact .trans (m := m) (n := m.define e.1 e.2) rfl (.define hs e.1 e.2)
      (ih (isSome_define hs e.1 e.2))

end Machine.Adds

section Binding

variable {host : Host} {held : List Value} {m : Machine} {source : String} {exports : Bindings}

theorem gains_bindItems (hs : (m.arena.frame? m.current).isSome) (items : List ImportItem) :
    Gains m (items.map ImportItem.localName) (bindItems exports source items host held m) := by
  induction items generalizing m with
  | nil => exact .all (.nil rfl)
  | cons item items ih =>
    rw [bindItems]
    cases hget : exports.get? item.name.name with
    | none => exact .none (.nil rfl) rfl
    | some v =>
      obtain ⟨early, hearly, hadds, hdone⟩ := ih (Machine.Adds.isSome_define hs item.localName v)
      refine ⟨item.localName :: early, List.cons_prefix_cons.2 ⟨rfl, hearly⟩, ?_, fun hd => ?_⟩
      · exact .trans (m := m) (n := m.define item.localName v) rfl (.define hs _ v) hadds
      · rw [List.map_cons, hdone hd]

theorem gains_bindExports (hs : (m.arena.frame? m.current).isSome) {span : Span}
    (items? : Option (List ImportItem)) :
    Gains m ((Stmt.importFrom span items? source).localNames exports)
      (bindExports items? source exports host held m) := by
  cases items? with
  | none => exact .all (.foldl_define hs exports.entries)
  | some items =>
    have hitems : Gains m (items.map ImportItem.localName)
        (bindItems exports source items host held m) := gains_bindItems hs items
    unfold bindExports
    dsimp only
    rcases h : bindItems exports source items host held m with ⟨outcome, n⟩
    rw [h] at hitems
    cases outcome with
    | done result =>
      rw [bind_of_done h]
      exact hitems
    | failed fault =>
      rw [bind_of_failed h]
      exact hitems
    | exhausted =>
      rw [bind_of_exhausted h]
      exact hitems

end Binding

/-! ### Declarations -/

namespace Visit

/-- What the module exports that an import statement names. -/
def loaded (v : Visit) : Outcome Bindings :=
  match v.job with
  | .execute (.importFrom _ _ source) =>
    (Eval.moduleExports (v.bound - 2) source v.host v.held v.machine).1
  | _ => .done .empty

/-- What a declaration adds to the names of the scope in use: some of its own, in their order, and
all of them where it is done. -/
structure Extends (v : Visit) (s : Stmt) : Prop where
  some : ∃ names, v.machine.Adds v.answer.2 names ∧
    (names = [] ∨ ∃ exports, v.loaded = .done exports ∧ names <+: s.localNames exports)
  all : v.answer.1.isDone = true → ∃ exports, v.loaded = .done exports ∧
    v.machine.Adds v.answer.2 (s.localNames exports)

theorem Extends.of_gains {v : Visit} {s : Stmt} {exports : Bindings}
    (hload : v.loaded = .done exports)
    (h : Gains v.machine (s.localNames exports) v.answer) : v.Extends s := by
  obtain ⟨early, hearly, hadds, hdone⟩ := h
  exact ⟨⟨early, hadds, .inr ⟨exports, hload, hearly⟩⟩,
    fun hd => ⟨exports, hload, hdone hd ▸ hadds⟩⟩

theorem Extends.of_nil {v : Visit} {s : Stmt} (h : v.machine.Adds v.answer.2 [])
    (hdone : v.answer.1.isDone = false) : v.Extends s :=
  ⟨⟨[], h, .inl rfl⟩, fun hd => by rw [hdone] at hd; cases hd⟩

end Visit

section Declarations

variable {host : Host} {held : List Value} {m : Machine} {bound : Nat}

theorem gains_define {α : Type} (hs : (m.arena.frame? m.current).isSome) (name : String) (v : Value)
    (a : α) : Gains m [name] ((define name v >>= fun _ => pure a) host held m) :=
  .all (.define hs name v)

/-- What is still and sets no names comes first. -/
theorem Gains.bind_still {α β : Type} {x : Eval α} {k : α → Eval β} {names : List String}
    (hx : Still false x) (hs : (m.arena.frame? m.current).isSome)
    (hk : ∀ a n, (n.arena.frame? n.current).isSome → Gains n names (k a host held n)) :
    Gains m names ((x >>= k) host held m) := by
  have hsteady := hx.steady host held m
  refine .bind hsteady.scope (.nil (hx.names rfl host held m)) fun a _ => hk a _ ?_
  rwa [hsteady.scope, hsteady.frames.isSome]

/-- The evaluation of a visit that sets no names comes first. -/
theorem Gains.bind_visit {β : Type} {t : Job} {k : t.Result → Eval β} {names : List String}
    (hv : Visit.Working ⟨bound, t, host, held, m⟩) (hsets : t.declares = false)
    (hk : ∀ a n, (n.arena.frame? n.current).isSome → Gains n names (k a host held n)) :
    Gains m names ((t.run bound >>= k) host held m) := by
  let v : Visit := ⟨bound, t, host, held, m⟩
  have hscope : (t.run bound host held m).2.current = m.current := v.scope_eq
  have hadds : m.Adds (t.run bound host held m).2 [] := v.adds_nil hv hsets
  have hlive : (t.run bound host held m).2.arena.Live (t.run bound host held m).2.current :=
    v.live_scope hv
  exact .bind hscope hadds fun a _ => hk a _ hlive.isSome

/-- A declaration that imports nothing adds its name. -/
theorem gains_perform {s : Stmt} (hs : s.isDeclaration = true)
    (hsource : ∀ span items? source, s ≠ .importFrom span items? source)
    (hv : Visit.Working ⟨bound + 1, .perform s, host, held, m⟩) :
    Gains m (s.localNames .empty) (Eval.perform (bound + 1) s host held m) := by
  have hsome := hv.live.isSome
  cases s with
  | declare _ type name value? =>
    cases value? with
    | none =>
      rw [Eval.perform]
      exact gains_define hsome _ _ _
    | some e =>
      rw [Eval.perform]
      refine .bind_visit (t := .evaluate e) ⟨⟨hv.reclaims, hv.sturdy⟩, hv.live⟩ rfl fun v n hn => ?_
      split
      · exact gains_define hn _ _ _
      · exact .none (.nil rfl) rfl
  | action _ name params _ body =>
    rw [Eval.perform]
    exact .bind_still (still_newClosure _ _ _) hsome fun f n hn => gains_define hn _ _ _
  | rename _ oldName newName =>
    rw [Eval.perform]
    refine .bind_still (still_get _) hsome fun f n hn => ?_
    split
    · exact gains_define hn _ _ _
    · exact .none (.nil rfl) rfl
  | importFrom span items? source => exact absurd rfl (hsource span items? source)
  | _ => cases hs

end Declarations

namespace Visit

/-- An import adds the names of what it imports, once its module is loaded. -/
theorem extends_import {bound : Nat} {span : Span} {items? : Option (List ImportItem)}
    {source : String} {host : Host} {held : List Value} {m : Machine}
    (hv : Working ⟨bound + 2, .execute (.importFrom span items? source), host, held, m⟩) :
    Extends ⟨bound + 2, .execute (.importFrom span items? source), host, held, m⟩
      (.importFrom span items? source) := by
  let load : Visit := ⟨bound, .moduleExports source, host, held, m⟩
  have hload : load.Working := ⟨⟨hv.reclaims, hv.sturdy⟩, hv.live⟩
  have hscope : (Eval.moduleExports bound source host held m).2.current = m.current :=
    load.scope_eq
  have hnil : m.Adds (Eval.moduleExports bound source host held m).2 [] := load.adds_nil hload rfl
  have hlive : (Eval.moduleExports bound source host held m).2.arena.Live
      (Eval.moduleExports bound source host held m).2.current := load.live_scope hload
  rcases hrun : Eval.moduleExports bound source host held m with ⟨outcome, n⟩
  rw [hrun] at hscope hnil hlive
  have hexecute : Eval.execute (bound + 2) (.importFrom span items? source) host held m =
      claiming span (Eval.moduleExports bound source >>= bindExports items? source)
        host held m := by
    rw [Eval.execute, perform_importFrom]
    rfl
  -- a module that is not loaded ends the import, and adds no names
  have hlost (r : Outcome Flow) (hr : r.isDone = false)
      (h : (Eval.moduleExports bound source >>= bindExports items? source) host held m = (r, n)) :
      Extends ⟨bound + 2, .execute (.importFrom span items? source), host, held, m⟩
        (.importFrom span items? source) := by
    have hadds : m.Adds
        (Eval.execute (bound + 2) (.importFrom span items? source) host held m).2 [] := by
      rwa [hexecute, machine_claiming, h]
    have hdone : (Eval.execute (bound + 2) (.importFrom span items? source) host held m).1.isDone =
        false := by
      rwa [hexecute, isDone_claiming, h]
    exact .of_nil hadds hdone
  cases outcome with
  | done exports =>
    have hbind : Gains m ((Stmt.importFrom span items? source).localNames exports)
        ((Eval.moduleExports bound source >>= bindExports items? source) host held m) := by
      rw [bind_of_done hrun]
      exact .after hscope hnil (gains_bindExports hlive.isSome items?)
    rw [← perform_importFrom] at hbind
    exact .of_gains (congrArg Prod.fst hrun) hbind.claiming
  | failed fault => exact hlost (.failed fault) rfl (bind_of_failed hrun)
  | exhausted => exact hlost .exhausted rfl (bind_of_exhausted hrun)

/-- A declaration adds its own names to the scope in use, all of them where it is done. -/
theorem extends_declaration {bound : Nat} {s : Stmt} {host : Host} {held : List Value}
    {m : Machine} (hv : Working ⟨bound, .execute s, host, held, m⟩) (hs : s.isDeclaration = true) :
    Extends ⟨bound, .execute s, host, held, m⟩ s := by
  match bound, hv with
  | 0, _ => exact .of_nil (.nil rfl) rfl
  | 1, _ =>
    have hzero : Eval.execute 1 s host held m = (.exhausted, m) := by
      rw [Eval.execute, Eval.perform]
      rfl
    refine .of_nil (.nil ?_) ?_
    · rw [answer, Job.run, hzero]
    · rw [answer, Job.run, hzero]
      rfl
  | bound + 2, hv =>
    by_cases himport : ∃ span items? source, s = .importFrom span items? source
    · obtain ⟨span, items?, source, rfl⟩ := himport
      exact extends_import hv
    · have hperform : Gains m (s.localNames .empty) (Eval.perform (bound + 1) s host held m) :=
        gains_perform hs (fun span items? source h => himport ⟨span, items?, source, h⟩)
          ⟨⟨hv.reclaims, hv.sturdy⟩, hv.live⟩
      refine .of_gains ?_ hperform.claiming
      cases s <;> first | rfl | exact absurd ⟨_, _, _, rfl⟩ himport

/-- What a visit does to the names that frames bind. -/
structure Scoped (v : Visit) : Prop where
  /-- The scope in use is never reclaimed on the way. -/
  current : v.Retains v.machine.current
  /-- An expression leaves the names of every frame. -/
  expression : ∀ e, v.job = .evaluate e → ∀ s, v.Retains s → v.Preserves s
  /-- So does every statement of a script that is no declaration. -/
  statement : ∀ tokens program stmt, Program.ofTokens tokens = .ok program → stmt ∈ program.parts →
    stmt.isDeclaration = false → v.job = .execute stmt → ∀ s, v.Retains s → v.Preserves s
  /-- A declaration leaves those of all other frames, -/
  elsewhere : ∀ stmt, v.job = .execute stmt → ∀ s, v.Retains s → s ≠ v.machine.current →
    v.Preserves s
  /-- and adds its own to the scope in use. -/
  declaration : ∀ stmt, stmt.isDeclaration = true → v.job = .execute stmt → v.Extends stmt

theorem Working.scoped {v : Visit} (hv : v.Working) : v.Scoped where
  current := retains_of_live hv.toOrderly hv.live
  expression e hjob s hs := preserves hv.toOrderly hs fun h => by
    rw [hjob] at h
    cases h
  statement tokens program stmt hprogram hpart hdeclaration hjob s hs :=
    preserves hv.toOrderly hs fun h => by
      rw [hjob, Job.declares, Program.parts_placed hprogram hpart hdeclaration] at h
      cases h
  elsewhere stmt _ s hs hne := preserves hv.toOrderly hs fun _ => hne
  declaration stmt hdeclaration hjob := by
    obtain ⟨bound, job, host, held, m⟩ := v
    subst hjob
    exact extends_declaration hv hdeclaration

end Visit

/-! ### Sessions -/

namespace Session

/-- Names are set by declarations only, and in the scope that these run in, on every machine in
order whose scope in use is at work. In a session every machine is: between requests, and wherever
an evaluation starts. -/
theorem scoped_reached :
    (∀ v : Visit, v.Working → v.Scoped) ∧
    ∀ (settings : Settings) (bound : Nat) (clock : Clock) (disk : Disk) (requests : List Request),
      let reached := (start clock disk).after settings true bound requests
      (reached.interpreter.machine.arena.Sturdy ∧
        reached.interpreter.machine.arena.Live reached.interpreter.machine.current) ∧
      ∀ v ∈ (start clock disk).visits settings true bound requests, v.Working ∧ v.Scoped := by
  refine ⟨fun v hv => hv.scoped, fun settings bound clock disk requests => ?_⟩
  have hstart := orderly_start clock disk
  have hlive := working_start clock disk
  obtain ⟨hafter, hvisits⟩ := orderly_after settings bound hstart requests
  refine ⟨⟨hafter, live_after settings bound hstart hlive requests⟩, fun v hv => ?_⟩
  have hworking : v.Working :=
    ⟨hvisits v hv, working_after settings bound hstart hlive requests v hv⟩
  exact ⟨hworking, hworking.scoped⟩

/-- A declaration in a block. -/
def hiddenName : Stmt :=
  .block ⟨default, [.declare default ⟨.named "any", default⟩ ⟨"a", default⟩ none]⟩

/-- The block is read from `{ any a; }`; the root binds no name once it has run. -/
theorem scoped_reached_hiddenName :
    let kinds : List Token.Kind :=
      [.mark .leftBrace, .word .any, .name "a", .mark .semicolon, .mark .rightBrace, .endOfFile]
    let host : Host := (start ⟨0, 0⟩ ⟨fun _ => none, fun _ => .error .missing⟩).host .standard true
    let v : Visit := ⟨20, .execute hiddenName, host, [], Machine.start ⟨0, 0⟩⟩
    v.Working ∧ Program.ofTokens (kinds.map (⟨·, default⟩)) = .ok ⟨default, [hiddenName]⟩ ∧
      v.answer.1.isDone = true ∧ v.Preserves Arena.root := by
  intro kinds host v
  have hv : v.Working := ⟨⟨rfl, orderly_start ⟨0, 0⟩ host.disk⟩, working_start ⟨0, 0⟩ host.disk⟩
  have hprogram : Program.ofTokens (kinds.map (⟨·, default⟩)) = .ok ⟨default, [hiddenName]⟩ := rfl
  have hscoped := scoped_reached.1 v hv
  exact ⟨hv, hprogram, by decide +kernel, hscoped.statement _ _ hiddenName hprogram
    (List.mem_append_left _ List.mem_cons_self) rfl rfl Arena.root hscoped.current⟩

end Session

end Playscript

/-
# Walking along an evaluation

What is claimed of every evaluation together with its visits is proved once for
each way of putting evaluations together. `Braid.below` puts a job together from
whatever the jobs right below it are known to do. It is the one place that follows
the text of the evaluator. A braid tells whole jobs from what is left of a job that
is under way, and evaluations that may set names in the scope in use from those
that may not; a claim that makes no such difference is a weave (`Weave.below`).
With a claim for the visits as well (`Walk`) it holds of every job (`Walk.visits`).

An evaluation that visits nothing is quiet: it leaves the modules and
the files under way, the scope in use, the frames at work and the names that other
frames than the one in use bind, and no node has claimed its failure
(`Eval.Quiet`). Most also leave the names of the scope in use (`Eval.Still`).

Key definitions: `Loader`, `Machine.Steady`, `Eval.Quiet`, `Eval.Still`, `Braid`, `Weave`, `Walk`.
Key theorems: `Braid.below`, `Weave.below`, `Walk.visits`.
-/
import Playscript.Proofs.Arena.Ordering
import Playscript.Proofs.Trace.Visits

namespace Playscript

/-! ### Evaluations one after another -/

section Bind

variable {α β : Type} {x : Eval α} {k : α → Eval β} {rest : α → Trace} {host : Host}
  {held : List Value} {m n : Machine} {a : α} {fault : Fault}

theorem Eval.bind_of_done (h : x host held m = (.done a, n)) :
    (x >>= k) host held m = k a host held n := by
  show Eval.bind x k host held m = k a host held n
  unfold Eval.bind
  rw [h]

theorem Eval.bind_of_failed (h : x host held m = (.failed fault, n)) :
    (x >>= k) host held m = (.failed fault, n) := by
  show Eval.bind x k host held m = (.failed fault, n)
  unfold Eval.bind
  rw [h]

theorem Eval.bind_of_exhausted (h : x host held m = (.exhausted, n)) :
    (x >>= k) host held m = (.exhausted, n) := by
  show Eval.bind x k host held m = (.exhausted, n)
  unfold Eval.bind
  rw [h]

/-- A node that claims a failure leaves the machine alone. -/
theorem Eval.machine_claiming (span : Span) (x : Eval α) (host : Host) (held : List Value)
    (m : Machine) : (claiming span x host held m).2 = (x host held m).2 := by
  unfold claiming
  generalize x host held m = r
  obtain ⟨outcome, n⟩ := r
  cases outcome <;> rfl

/-- A node has nothing to claim of what is done. -/
theorem Eval.claiming_of_done {span : Span} (h : x host held m = (.done a, n)) :
    claiming span x host held m = (.done a, n) := by
  unfold claiming
  rw [h]

theorem Trace.andThen_none (first : Trace) : Trace.andThen x first (fun _ => .none) = first := by
  funext host held m
  unfold Trace.andThen
  split <;> exact List.append_nil _

theorem Trace.append_of_done {first : Trace} (h : x host held m = (.done a, n)) :
    Trace.andThen x first rest host held m = first host held m ++ rest a host held n := by
  unfold Trace.andThen
  rw [h]

theorem Trace.mem_andThen {first : Trace} {v : Visit} :
    v ∈ Trace.andThen x first rest host held m ↔ v ∈ first host held m ∨
      ∃ a n, x host held m = (.done a, n) ∧ v ∈ rest a host held n := by
  unfold Trace.andThen
  rw [List.mem_append]
  generalize x host held m = r
  obtain ⟨outcome, n⟩ := r
  cases outcome <;> simp

theorem Trace.append_of_failed {first : Trace} (h : x host held m = (.failed fault, n)) :
    Trace.andThen x first rest host held m = first host held m := by
  unfold Trace.andThen
  rw [h]
  exact List.append_nil _

theorem Trace.andThen_of_done (h : x host held m = (.done a, n)) :
    Trace.andThen x .none rest host held m = rest a host held n := Trace.append_of_done h

theorem Trace.andThen_of_failed (h : x host held m = (.failed fault, n)) :
    Trace.andThen x .none rest host held m = [] := Trace.append_of_failed h

end Bind

/-! ### Steady machines -/

/-- What the loading of modules reads and changes of a machine. -/
structure Loader where
  files : List String
  modules : ModuleCache

def Machine.loader (m : Machine) : Loader := ⟨m.files, m.modules⟩

/-- Lines are only added to what has been written. -/
structure Machine.Writes (m n : Machine) : Prop where
  output : m.output.toList <+: n.output.toList
  errors : m.errors.toList <+: n.errors.toList

/-- The modules and the files under way, the scope in use and the frames at work are the same;
lines may have been added, and names in the scope in use. Tables stay in order. -/
structure Machine.Steady (m n : Machine) : Prop where
  loader : n.loader = m.loader
  scope : n.current = m.current
  frames : m.arena.Alike n.arena
  names : ∀ s, s ≠ m.current → (n.arena.bindings s).binds = (m.arena.bindings s).binds
  tables : m.arena.Ordered → n.arena.Ordered
  writes : m.Writes n

namespace Machine

variable {m n o : Machine}

theorem Writes.of_eq (houtput : n.output = m.output) (herrors : n.errors = m.errors) :
    m.Writes n where
  output := houtput ▸ List.prefix_rfl
  errors := herrors ▸ List.prefix_rfl

theorem Writes.trans (h : m.Writes n) (h' : n.Writes o) : m.Writes o :=
  ⟨h.output.trans h'.output, h.errors.trans h'.errors⟩

namespace Steady

theorem refl (m : Machine) : m.Steady m :=
  ⟨rfl, rfl, .refl _, fun _ _ => rfl, id, .of_eq rfl rfl⟩

theorem trans (h : m.Steady n) (h' : n.Steady o) : m.Steady o where
  loader := h'.loader.trans h.loader
  scope := h'.scope.trans h.scope
  frames := h.frames.trans h'.frames
  names s hs := (h'.names s (h.scope ▸ hs)).trans (h.names s hs)
  tables := h'.tables ∘ h.tables
  writes := h.writes.trans h'.writes

theorem withArena {arena : Arena} (h : m.arena.Alike arena)
    (hnames : ∀ s, s ≠ m.current → (arena.bindings s).binds = (m.arena.bindings s).binds)
    (htables : m.arena.Ordered → arena.Ordered) : m.Steady { m with arena } where
  loader := rfl
  scope := rfl
  frames := h
  names := hnames
  tables := htables
  writes := .of_eq rfl rfl

theorem define (m : Machine) (name : String) (v : Value) : m.Steady (m.define name v) :=
  withArena (.define _ _ name v) (fun _ hs => by rw [Arena.bindings_define_of_ne hs])
    fun h => h.define m.current name v

end Steady
end Machine

namespace Eval

variable {α β : Type}

/-! ### Quiet evaluations -/

/-- The machine stays steady, and a failure is not claimed. -/
structure Quiet (x : Eval α) : Prop where
  steady : ∀ host held (m : Machine), m.Steady (x host held m).2
  unclaimed : ∀ host held m fault, (x host held m).1 = .failed fault → fault.site? = none

namespace Quiet

variable {x : Eval α} {k : α → Eval β}

theorem loader (h : Quiet x) (host : Host) (held : List Value) (m : Machine) :
    (x host held m).2.loader = m.loader := (h.steady host held m).loader

theorem pure (a : α) : Quiet (Pure.pure a) where
  steady _ _ m := .refl m
  unclaimed _ _ _ _ h := by cases h

theorem fail (failure : Failure) : Quiet (Eval.fail failure : Eval α) where
  steady _ _ m := .refl m
  unclaimed _ _ _ _ h := by
    cases h
    rfl

theorem exhausted : Quiet (Eval.exhausted : Eval α) where
  steady _ _ m := .refl m
  unclaimed _ _ _ _ h := by cases h

theorem ofExcept (r : Except Failure α) : Quiet (Eval.ofExcept r) := by
  cases r with
  | ok a => exact pure a
  | error failure => exact fail failure

theorem machine : Quiet Eval.machine where
  steady _ _ m := .refl m
  unclaimed _ _ _ _ h := by cases h

theorem host : Quiet Eval.host where
  steady _ _ m := .refl m
  unclaimed _ _ _ _ h := by cases h

theorem change {f : Machine → Machine} (h : ∀ m : Machine, m.Steady (f m)) :
    Quiet (Eval.change f) where
  steady _ _ m := h m
  unclaimed _ _ _ _ h := by cases h

theorem bind (hx : Quiet x) (hk : ∀ a, Quiet (k a)) : Quiet (x >>= k) where
  steady host held m := by
    have hx := hx.steady host held m
    show m.Steady (Eval.bind x k host held m).2
    unfold Eval.bind
    generalize x host held m = r at hx
    obtain ⟨outcome, n⟩ := r
    cases outcome with
    | done a => exact hx.trans ((hk a).steady host held n)
    | failed fault => exact hx
    | exhausted => exact hx
  unclaimed host held m fault h := by
    have hx := hx.unclaimed host held m
    change (Eval.bind x k host held m).1 = _ at h
    unfold Eval.bind at h
    generalize x host held m = r at h hx
    obtain ⟨outcome, n⟩ := r
    cases outcome with
    | done a => exact (hk a).unclaimed host held n fault h
    | failed fault =>
      cases h
      exact hx fault rfl
    | exhausted => cases h

theorem ite {b : Bool} {y : Eval α} (hx : Quiet x) (hy : Quiet y) :
    Quiet (if b then x else y) := by
  split
  · exact hx
  · exact hy

end Quiet

/-! ### Still evaluations -/

/-- Quiet; and unless names may be set, the scope in use binds the names it has bound. -/
structure Still (sets : Bool) (x : Eval α) : Prop extends Quiet x where
  names : sets = false → ∀ host held (m : Machine),
    ((x host held m).2.arena.bindings m.current).binds = (m.arena.bindings m.current).binds

theorem Quiet.still {x : Eval α} (h : Quiet x) : Still true x := ⟨h, nofun⟩

namespace Still

variable {sets : Bool} {x : Eval α} {k : α → Eval β}

theorem pure (a : α) : Still sets (Pure.pure a) := ⟨.pure a, fun _ _ _ _ => rfl⟩

theorem fail (failure : Failure) : Still sets (Eval.fail failure : Eval α) :=
  ⟨.fail failure, fun _ _ _ _ => rfl⟩

theorem exhausted : Still sets (Eval.exhausted : Eval α) := ⟨.exhausted, fun _ _ _ _ => rfl⟩

theorem machine : Still sets Eval.machine := ⟨.machine, fun _ _ _ _ => rfl⟩

theorem host : Still sets Eval.host := ⟨.host, fun _ _ _ _ => rfl⟩

theorem ofExcept (r : Except Failure α) : Still sets (Eval.ofExcept r) := by
  cases r with
  | ok a => exact pure a
  | error failure => exact fail failure

/-- A change that does not touch the bindings. -/
theorem change {f : Machine → Machine} (h : ∀ m : Machine, m.Steady (f m))
    (hnames : ∀ (m : Machine) s, (f m).arena.bindings s = m.arena.bindings s) :
    Still sets (Eval.change f) := by
  refine ⟨.change h, fun _ host held m => ?_⟩
  show ((f m).arena.bindings m.current).binds = _
  rw [hnames]

theorem bind (hx : Still sets x) (hk : ∀ a, Still sets (k a)) : Still sets (x >>= k) where
  toQuiet := .bind hx.toQuiet fun a => (hk a).toQuiet
  names hsets host held m := by
    have hscope := (hx.steady host held m).scope
    have hx := hx.names hsets host held m
    show ((Eval.bind x k host held m).2.arena.bindings m.current).binds = _
    unfold Eval.bind
    generalize x host held m = r at hx hscope
    obtain ⟨outcome, n⟩ := r
    cases outcome with
    | done a =>
      have hk := (hk a).names hsets host held n
      rw [hscope] at hk
      exact hk.trans hx
    | failed fault => exact hx
    | exhausted => exact hx

theorem ite {b : Bool} {y : Eval α} (hx : Still sets x) (hy : Still sets y) :
    Still sets (if b then x else y) := by
  split
  · exact hx
  · exact hy

end Still

/-! ### Parts of the evaluator that visit nothing -/

section Parts

variable {sets : Bool}

theorem still_get? (name : String) : Still sets (get? name) := .bind .machine fun _ => .pure _

theorem still_get (name : String) : Still sets (get name) := by
  refine .bind (still_get? name) fun v? => ?_
  cases v? with
  | some v => exact .pure v
  | none => exact .fail _

theorem still_define (name : String) (v : Value) : Still true (define name v) :=
  (Quiet.change fun m => .define m name v).still

/-- The arena that is set was made from that of the same machine. -/
theorem run_assign (name : String) (v : Value) (host : Host) (held : List Value) (m : Machine) :
    assign name v host held m =
      match m.arena.assign? m.current name v with
      | some arena => (.done (), { m with arena })
      | none => (.failed (.raised (.undefined name)), m) := by
  unfold assign
  rw [bind_of_done (n := m) (a := m) rfl]
  cases m.arena.assign? m.current name v <;> rfl

theorem still_assign (name : String) (v : Value) : Still sets (assign name v) where
  steady host held m := by
    rw [run_assign]
    cases hassign : m.arena.assign? m.current name v with
    | none => exact .refl m
    | some arena =>
      exact .withArena (.assign? hassign) (fun s _ => Arena.binds_assign? hassign s)
        fun h => h.assign? hassign
  unclaimed host held m fault h := by
    rw [run_assign] at h
    cases hassign : m.arena.assign? m.current name v with
    | none =>
      rw [hassign] at h
      cases h
      rfl
    | some arena =>
      rw [hassign] at h
      cases h
  names _ host held m := by
    rw [run_assign]
    cases hassign : m.arena.assign? m.current name v with
    | none => rfl
    | some arena => exact Arena.binds_assign? hassign _

theorem still_functionOf (name : String) : Still sets (functionOf name) := by
  refine .bind (still_get? name) fun v? => ?_
  cases v? with
  | some v => exact .ite (.pure v) (.fail _)
  | none => exact .fail _

theorem still_itemOf (array : String) (position : Float) : Still sets (itemOf array position) := by
  refine .bind (still_get array) fun v => ?_
  cases v with
  | array items =>
    dsimp only
    split
    · exact .pure _
    · exact .fail _
  | _ => exact .fail _

theorem still_defineAll (b : Bindings) : Still true (defineAll b) := by
  refine (Quiet.change fun m => ?_).still
  generalize b.entries = es
  induction es generalizing m with
  | nil => exact .refl m
  | cons e es ih => exact (Machine.Steady.define m e.1 e.2).trans (ih (m.define e.1 e.2))

theorem still_bindItems (exports : Bindings) (source : String) (items : List ImportItem) :
    Still true (bindItems exports source items) := by
  induction items with
  | nil => exact .pure ()
  | cons item items ih =>
    rw [bindItems]
    split
    · exact .bind (still_define _ _) fun _ => ih
    · exact .bind (.fail _) fun _ => ih

theorem still_shownText (v : Value) : Still sets (shownText v) := by
  refine .bind .machine fun m => ?_
  cases v <;> exact .pure _

theorem prefix_push (line : String) (written : Array String) :
    written.toList <+: (written.push line).toList := by
  rw [Array.toList_push]
  exact List.prefix_append _ _

theorem prefix_foldl_push (lines : List String) (written : Array String) :
    written.toList <+: (lines.foldl Array.push written).toList := by
  induction lines generalizing written with
  | nil => exact List.prefix_rfl
  | cons line lines ih => exact (prefix_push line written).trans (ih (written.push line))

theorem still_writeLine (line : String) : Still sets (writeLine line) :=
  .change (fun m =>
    ⟨rfl, rfl, .refl _, fun _ _ => rfl, id, prefix_push line m.output, List.prefix_rfl⟩)
    fun _ _ => rfl

theorem still_report (lines : List String) : Still sets (report lines) :=
  .change (fun m =>
    ⟨rfl, rfl, .refl _, fun _ _ => rfl, id, List.prefix_rfl, prefix_foldl_push lines m.errors⟩)
    fun _ _ => rfl

theorem still_newClosure (name : String) (params : List Param) (body : Block Stmt) :
    Still sets (newClosure name params body) :=
  .bind .machine fun _ =>
    .bind (.change (fun m => ⟨rfl, rfl, .capture _ _ _, fun s _ =>
      congrArg _ (Arena.bindings_capture m.arena _ _ s), fun h => h.capture _ _,
      .of_eq rfl rfl⟩)
      fun m s => Arena.bindings_capture m.arena _ _ s) fun _ => .pure _

theorem still_runCapsule (c : Capsule Value) (args : List Value) : Still sets (runCapsule c args) :=
  .bind .machine fun _ => .bind (.ofExcept _) fun _ =>
    .bind (.change (fun _ => ⟨rfl, rfl, .refl _, fun _ _ => rfl, id, .of_eq rfl rfl⟩)
      fun _ _ => rfl) fun _ => .pure _

theorem still_moduleProgram (path text : String) : Still sets (moduleProgram path text) := by
  unfold moduleProgram
  generalize Program.ofSource ⟨path, text⟩ = result
  obtain ⟨program, log⟩ := result
  refine .bind (still_report _) fun _ => ?_
  cases program with
  | ok p => exact .pure p
  | error d => exact .fail _

end Parts

theorem quiet_moduleProgram (path text : String) : Quiet (moduleProgram path text) := by
  have h : Still true (moduleProgram path text) := still_moduleProgram path text
  exact h.toQuiet

end Eval

/-! ### Braids -/

open Eval Job

/-- What is closed under the ways of putting evaluations together, claimed apart of whole jobs
(`S`) and of what is left of a job once it is under way (`T`), and apart of evaluations that may set
names in the scope in use (`true`) and of those that may not. -/
structure Braid (S T : Bool → {α : Type} → Eval α → Trace → Prop) : Prop where
  still : ∀ {sets : Bool} {α : Type} {x : Eval α}, Still sets x → S sets x .none
  rest : ∀ {sets : Bool} {α : Type} {x : Eval α} {tr : Trace}, S sets x tr → T sets x tr
  loosen : ∀ {α : Type} {x : Eval α} {tr : Trace}, S false x tr → S true x tr
  loosenRest : ∀ {α : Type} {x : Eval α} {tr : Trace}, T false x tr → T true x tr
  andThen : ∀ {sets : Bool} {α β : Type} {x : Eval α} {k : α → Eval β} {first : Trace}
    {rest : α → Trace}, S sets x first → (∀ a, T sets (k a) (rest a)) →
      T sets (x >>= k) (.andThen x first rest)
  holding : ∀ {sets : Bool} {α : Type} {x : Eval α} {tr : Trace} (vs : List Value),
    S sets x tr → S sets (Eval.holding vs x) (.holding vs tr)
  holdingRest : ∀ {sets : Bool} {α : Type} {x : Eval α} {tr : Trace} (vs : List Value),
    T sets x tr → T sets (Eval.holding vs x) (.holding vs tr)
  /-- Names that are set in a new scope are not set in the scope in use. -/
  inScope : ∀ {α : Type} {x : Eval α} {tr : Trace} (parent : Slot) (values : α → List Value),
    T true x tr → T false (Eval.inScope parent values x) (.inScope parent tr)

namespace Braid

variable {S T : Bool → {α : Type} → Eval α → Trace → Prop} {sets : Bool} {α β : Type} {x : Eval α}
  {k : α → Eval β} {tr : Trace} {bound : Nat} {sub : Job → Trace}

theorem ite {b : Bool} {y : Eval α} {tr' : Trace} (hx : T sets x tr) (hy : T sets y tr') :
    T sets (if b then x else y) (if b then tr else tr') := by
  cases b
  · exact hy
  · exact hx

/-- What holds of the jobs that a job can ask for without opening a file, and of their traces. -/
def Holds (S : Bool → {α : Type} → Eval α → Trace → Prop) (bound : Nat) (sub : Job → Trace)
    (t : Job) : Prop := ∀ u : Job, t.Within u → S u.declares (u.run bound) (sub u)

section Step

variable (w : Braid S T)
include w

/-- What may not set names counts as what may. -/
theorem widen {b : Bool} (h : b = true → sets = true) (hx : S b x tr) : S sets x tr := by
  cases b with
  | true => rwa [h rfl]
  | false =>
    cases sets with
    | true => exact w.loosen hx
    | false => exact hx

theorem silent (hx : S false x tr) : S sets x tr := w.widen (fun h => absurd h (by decide)) hx

theorem free {b : Bool} (hx : S b x tr) : S true x tr := w.widen (fun _ => rfl) hx

theorem idle (hx : Still sets x) : T sets x .none := w.rest (w.still hx)

theorem still_andThen {rest : α → Trace} (hx : Still sets x) (hk : ∀ a, T sets (k a) (rest a)) :
    T sets (x >>= k) (.andThen x .none rest) := w.andThen (w.still hx) hk

theorem andThen_still (hx : S sets x tr) (hk : ∀ a, Still sets (k a)) : T sets (x >>= k) tr := by
  rw [← Trace.andThen_none tr]
  exact w.andThen hx fun a => w.idle (hk a)

/-- The rest reads the machine. -/
theorem machine {k : Machine → Eval β} {rest : Machine → Trace}
    (h : ∀ m, T sets (k m) (rest m)) : T sets (Eval.machine >>= k) (.machine rest) :=
  w.still_andThen .machine h

/-- The rest reads the host. -/
theorem host {k : Host → Eval β} {rest : Host → Trace}
    (h : ∀ host, T sets (k host) (rest host)) : T sets (Eval.host >>= k) (.host rest) :=
  w.still_andThen .host h

theorem perform_below (s : Stmt) (ih : Holds S bound sub (.perform s)) :
    T s.declares (Eval.perform (bound + 1) s) (belowStmt bound sub s) := by
  cases s with
  | declare _ type name value? =>
    cases value? with
    | none =>
      rw [Eval.perform]
      exact w.idle (.bind (still_define _ _) fun _ => .pure _)
    | some e =>
      rw [Eval.perform]
      refine w.andThen_still (w.silent (ih (.evaluate e) (.silent rfl rfl))) fun v => ?_
      refine .ite (.bind (still_define _ _) fun _ => .pure _) ?_
      exact .bind (.fail _) fun _ => .pure _
  | display _ args =>
    rw [Eval.perform]
    refine w.andThen_still (ih (.showAll args) (.silent rfl rfl)) fun parts => ?_
    exact .bind (still_writeLine _) fun _ => .pure _
  | block b =>
    rw [Eval.perform, belowStmt]
    exact w.machine fun m => w.inScope _ _ (w.rest (w.free (ih (.executeAll b.body) (.body b rfl))))
  | branch _ condition yes no? =>
    rw [Eval.perform.eq_def, Stmt.declares]
    refine w.andThen (w.silent (ih (.evaluate condition) (.silent rfl rfl))) fun test => ?_
    refine ite (w.rest (w.widen (fun hyes => Bool.or_eq_true_iff.2 (.inl hyes))
      (ih (.execute yes) (.part rfl (List.subset_append_left _ _))))) ?_
    cases no? with
    | none => exact w.idle (.pure _)
    | some no =>
      exact w.rest (w.widen (fun hno => Bool.or_eq_true_iff.2 (.inr hno))
        (ih (.execute no) (.part rfl (List.subset_append_right _ _))))
  | loopWhile _ condition body =>
    rw [Eval.perform]
    exact w.rest (ih (.whileLoop condition body) (.part rfl (List.Subset.refl _)))
  | loopRange _ counter first limit body =>
    rw [Eval.perform]
    refine w.andThen (ih (.evaluateNumber "range start" first) (.silent rfl rfl)) fun first => ?_
    refine w.andThen (ih (.evaluateNumber "range end" limit) (.silent rfl rfl)) fun limit => ?_
    refine w.machine fun m => w.inScope _ _ ?_
    exact w.still_andThen (still_define _ _) fun _ => w.rest (w.free
      (ih (.rangeLoop counter.name first limit body) (.part rfl (List.Subset.refl _))))
  | evaluate _ e =>
    rw [Eval.perform]
    exact w.andThen_still (ih (.evaluate e) (.silent rfl rfl)) fun _ => .pure _
  | action _ name params _ body =>
    rw [Eval.perform]
    refine w.idle (.bind (still_newClosure _ _ _) fun _ => ?_)
    exact .bind (still_define _ _) fun _ => .pure _
  | rename _ oldName newName =>
    rw [Eval.perform]
    refine w.idle (.bind (still_get _) fun v => .ite ?_ ?_)
    · exact .bind (still_define _ _) fun _ => .pure _
    · exact .bind (.fail _) fun _ => .pure _
  | returnValues _ es =>
    rw [Eval.perform]
    exact w.andThen_still (ih (.evaluateAll es) (.silent rfl rfl)) fun _ => .pure _
  | importFrom _ items? source =>
    rw [Eval.perform]
    refine w.andThen_still (w.silent (ih (.moduleExports source)
      (.part rfl (List.Subset.refl _)))) fun exports => ?_
    cases items? with
    | none => exact .bind (still_defineAll _) fun _ => .pure _
    | some items => exact .bind (still_bindItems _ _ _) fun _ => .pure _

theorem executeAll_below (ss : List Stmt) (ih : Holds S bound sub (.executeAll ss)) :
    T (ss.any Stmt.declares) (Eval.executeAll (bound + 1) ss)
      (below bound sub (.executeAll ss)) := by
  cases ss with
  | nil =>
    rw [Eval.executeAll]
    exact w.idle (.pure _)
  | cons s rest =>
    rw [Eval.executeAll, List.any_cons]
    refine w.andThen (w.widen (fun hs => Bool.or_eq_true_iff.2 (.inl hs))
      (ih (.execute s) (.part rfl (List.subset_append_left _ _)))) fun flow => ?_
    cases flow with
    | normal =>
      exact w.rest (w.widen (fun hrest => Bool.or_eq_true_iff.2 (.inr hrest))
        (ih (.executeAll rest) (.part rfl (List.subset_append_right _ _))))
    | returned vs => exact w.idle (.pure _)

theorem whileLoop_below (condition : Expr) (body : Stmt)
    (ih : Holds S bound sub (.whileLoop condition body)) :
    T body.declares (Eval.whileLoop (bound + 1) condition body)
      (below bound sub (.whileLoop condition body)) := by
  rw [Eval.whileLoop]
  refine w.andThen (w.silent (ih (.evaluate condition) (.silent rfl rfl))) fun test =>
    ite ?_ (w.idle (.pure _))
  refine w.andThen (ih (.execute body) (.part rfl (List.Subset.refl _))) fun flow => ?_
  cases flow with
  | normal => exact w.rest (ih (.whileLoop condition body) (.part rfl (List.Subset.refl _)))
  | returned vs => exact w.idle (.pure _)

theorem rangeLoop_below (counter : String) (next limit : Float) (body : Stmt)
    (ih : Holds S bound sub (.rangeLoop counter next limit body)) :
    T body.declares (Eval.rangeLoop (bound + 1) counter next limit body)
      (below bound sub (.rangeLoop counter next limit body)) := by
  rw [Eval.rangeLoop, below]
  split
  · refine w.still_andThen (still_assign _ _) fun _ => ?_
    refine w.andThen (ih (.execute body) (.part rfl (List.Subset.refl _))) fun flow => ?_
    cases flow with
    | normal =>
      exact w.rest (ih (.rangeLoop counter (next + 1) limit body)
        (.part rfl (List.Subset.refl _)))
    | returned vs => exact w.idle (.pure _)
  · exact w.idle (.pure _)

theorem compute_below (e : Expr) (ih : Holds S bound sub (.compute e)) :
    T false (Eval.compute (bound + 1) e) (belowExpr bound sub e) := by
  cases e with
  | number | string | bool =>
    rw [Eval.compute]
    exact w.idle (.pure _)
  | name _ n =>
    rw [Eval.compute]
    exact w.idle (still_get n)
  | array _ es =>
    rw [Eval.compute]
    exact w.andThen_still (ih (.evaluateAll es) (.silent rfl rfl)) fun _ => .pure _
  | index _ array position =>
    rw [Eval.compute]
    exact w.andThen_still (ih (.evaluateNumber "array index" position) (.silent rfl rfl)) fun i =>
      still_itemOf array.name i
  | call _ callee args =>
    rw [Eval.compute]
    refine w.still_andThen (still_functionOf callee.name) fun f => ?_
    refine w.andThen (w.holding [f] (ih (.evaluateAll args) (.silent rfl rfl))) fun vs => ?_
    exact w.rest (w.holding [f] (ih (.call f vs) (.called f vs)))
  | assign _ target value =>
    rw [Eval.compute]
    refine w.andThen_still (ih (.evaluate value) (.silent rfl rfl)) fun v => ?_
    exact .bind (still_assign _ _) fun _ => .pure _
  | binary _ op left right =>
    rw [Eval.compute]
    refine w.andThen (ih (.evaluate left) (.silent rfl rfl)) fun l => ?_
    exact w.andThen_still (w.holding [l] (ih (.evaluate right) (.silent rfl rfl))) fun r =>
      .ofExcept _
  | negate _ operand =>
    rw [Eval.compute]
    exact w.andThen_still (ih (.evaluate operand) (.silent rfl rfl)) fun v => .ofExcept _

theorem evaluateAll_below (es : List Expr) (ih : Holds S bound sub (.evaluateAll es)) :
    T false (Eval.evaluateAll (bound + 1) es) (below bound sub (.evaluateAll es)) := by
  cases es with
  | nil =>
    rw [Eval.evaluateAll]
    exact w.idle (.pure _)
  | cons e rest =>
    rw [Eval.evaluateAll]
    refine w.andThen (ih (.evaluate e) (.silent rfl rfl)) fun v => ?_
    exact w.andThen_still (w.holding [v] (ih (.evaluateAll rest) (.silent rfl rfl))) fun _ =>
      .pure _

theorem showAll_below (es : List Expr) (ih : Holds S bound sub (.showAll es)) :
    T false (Eval.showAll (bound + 1) es) (below bound sub (.showAll es)) := by
  cases es with
  | nil =>
    rw [Eval.showAll]
    exact w.idle (.pure _)
  | cons e rest =>
    rw [Eval.showAll]
    refine w.andThen (ih (.evaluate e) (.silent rfl rfl)) fun v => ?_
    refine w.still_andThen (still_shownText v) fun _ => ?_
    exact w.andThen_still (ih (.showAll rest) (.silent rfl rfl)) fun _ => .pure _

theorem call_below (f : Value) (args : List Value) (ih : Holds S bound sub (.call f args)) :
    T false (Eval.call (bound + 1) f args) (below bound sub (.call f args)) := by
  cases f with
  | capsule c => exact w.idle (.bind (.ofExcept _) fun _ => still_runCapsule _ _)
  | closure c =>
    rw [Eval.call]
    refine w.inScope _ _ (w.holdingRest _ ?_)
    refine w.andThen (ih (.bindParams c.name c.params args) (.silent rfl rfl)) fun _ => ?_
    have hbody := ih (.executeAll c.body.body) (.body c.body rfl)
    exact w.andThen_still (w.free hbody) fun _ => .pure _
  | _ => exact w.idle (.pure _)

theorem bindParams_below (function : String) (ps : List Param) (vs : List Value)
    (ih : Holds S bound sub (.bindParams function ps vs)) :
    T true (Eval.bindParams (bound + 1) function ps vs)
      (below bound sub (.bindParams function ps vs)) := by
  cases ps with
  | nil =>
    rw [Eval.bindParams]
    exact w.idle (.pure _)
  | cons p ps =>
    cases vs with
    | cons v vs =>
      rw [Eval.bindParams]
      exact w.still_andThen (still_define _ _) fun _ =>
        w.rest (ih (.bindParams function ps vs) (.silent rfl rfl))
    | nil =>
      rw [Eval.bindParams, below]
      cases p.default? with
      | none => exact w.idle (.fail _)
      | some e =>
        refine w.andThen (w.silent (ih (.evaluate e) (.silent rfl rfl))) fun v => ?_
        exact w.still_andThen (still_define _ _) fun _ =>
          w.rest (ih (.bindParams function ps []) (.silent rfl rfl))

theorem moduleExports_below (source : String)
    (hfile : ∀ path, S false (Eval.fileExports bound source path)
      (sub (.fileExports source path))) :
    T false (Eval.moduleExports (bound + 1) source) (below bound sub (.moduleExports source)) := by
  rw [Eval.moduleExports, below]
  cases Library.moduleOf? source with
  | none =>
    refine w.machine fun m => w.host fun h => ?_
    cases h.disk.canonical? (Path.join (m.directory h.settings) source) with
    | none => exact w.idle (.fail _)
    | some path => exact w.rest (hfile path)
  | some name =>
    dsimp only
    cases Library.exports? name with
    | none => exact w.idle (.fail _)
    | some b => exact w.idle (.pure _)

theorem evaluateNumber_below (purpose : String) (e : Expr)
    (ih : Holds S bound sub (.evaluateNumber purpose e)) :
    T false (Eval.evaluateNumber (bound + 1) purpose e)
      (below bound sub (.evaluateNumber purpose e)) := by
  rw [Eval.evaluateNumber]
  exact w.andThen_still (ih (.evaluate e) (.silent rfl rfl)) fun _ => .ofExcept _

/-- A job that is no node and opens no file, from the jobs right below it. -/
theorem below {t : Job} (ih : Holds S bound sub t) (hnode : t.span? = none)
    (ht : t.opensFile = false)
    (hfile : ∀ source path, t = .moduleExports source →
      S false (Eval.fileExports bound source path) (sub (.fileExports source path))) :
    T t.declares (t.run (bound + 1)) (Job.below bound sub t) := by
  cases t with
  | execute s => cases hnode
  | evaluate e => cases hnode
  | perform s => exact w.perform_below s ih
  | executeAll ss => exact w.executeAll_below ss ih
  | whileLoop condition body => exact w.whileLoop_below condition body ih
  | rangeLoop counter next limit body => exact w.rangeLoop_below counter next limit body ih
  | compute e => exact w.compute_below e ih
  | evaluateNumber purpose e => exact w.evaluateNumber_below purpose e ih
  | evaluateAll es => exact w.evaluateAll_below es ih
  | showAll es => exact w.showAll_below es ih
  | call f args => exact w.call_below f args ih
  | bindParams function ps vs => exact w.bindParams_below function ps vs ih
  | moduleExports source =>
    exact w.moduleExports_below source fun path => hfile source path rfl
  | fileExports source path => cases ht
  | runModule path text => cases ht

end Step
end Braid

/-! ### Weaves -/

/-- What is closed under the ways of putting evaluations together. -/
structure Weave (P : {α : Type} → Eval α → Trace → Prop) : Prop where
  quiet : ∀ {α : Type} {x : Eval α}, Quiet x → P x .none
  andThen : ∀ {α β : Type} {x : Eval α} {k : α → Eval β} {first : Trace} {rest : α → Trace},
    P x first → (∀ a, P (k a) (rest a)) → P (x >>= k) (.andThen x first rest)
  holding : ∀ {α : Type} {x : Eval α} {tr : Trace} (vs : List Value),
    P x tr → P (Eval.holding vs x) (.holding vs tr)
  inScope : ∀ {α : Type} {x : Eval α} {tr : Trace} (parent : Slot) (values : α → List Value),
    P x tr → P (Eval.inScope parent values x) (.inScope parent tr)

namespace Weave

variable {P : {α : Type} → Eval α → Trace → Prop} {α β : Type} {x : Eval α} {k : α → Eval β}
  {tr : Trace} {bound : Nat} {sub : Job → Trace}

theorem quiet_andThen (w : Weave P) {rest : α → Trace} (hx : Quiet x)
    (hk : ∀ a, P (k a) (rest a)) : P (x >>= k) (.andThen x .none rest) :=
  w.andThen (w.quiet hx) hk

theorem andThen_quiet (w : Weave P) (hx : P x tr) (hk : ∀ a, Quiet (k a)) : P (x >>= k) tr := by
  rw [← Trace.andThen_none tr]
  exact w.andThen hx fun a => w.quiet (hk a)

/-- What makes no difference between evaluations is a braid of its own. -/
theorem braid (w : Weave P) : Braid (fun _ => P) (fun _ => P) where
  still hx := w.quiet hx.toQuiet
  rest hx := hx
  loosen hx := hx
  loosenRest hx := hx
  andThen := w.andThen
  holding := w.holding
  holdingRest := w.holding
  inScope := w.inScope

/-- A job that is no node and opens no file, from the jobs right below it. -/
theorem below (w : Weave P) {t : Job} (ih : ∀ u : Job, t.Within u → P (u.run bound) (sub u))
    (hnode : t.span? = none) (ht : t.opensFile = false)
    (hfile : ∀ source path, t = .moduleExports source →
      P (Eval.fileExports bound source path) (sub (.fileExports source path))) :
    P (t.run (bound + 1)) (Job.below bound sub t) := w.braid.below ih hnode ht hfile

end Weave

/-! ### Walks -/

/-- What has to be shown for a claim about every evaluation and its visits. -/
structure Walk (P : {α : Type} → Eval α → Trace → Prop) : Prop extends Weave P where
  exhausted : ∀ t, t.runsModule = false → P (t.run 0) (visits 0 t)
  /-- A statement claims what nothing below it has claimed. -/
  statement : ∀ bound s, P (perform bound s) (visits bound (.perform s)) →
    P (Eval.execute (bound + 1) s) (visits (bound + 1) (.execute s))
  expression : ∀ bound e, P (compute bound e) (visits bound (.compute e)) →
    P (Eval.evaluate (bound + 1) e) (visits (bound + 1) (.evaluate e))
  /-- A job that is neither a statement nor an expression, nor runs a module. -/
  inner : ∀ bound t, t.span? = none → t.runsModule = false →
    P (t.run (bound + 1)) (below bound (visits bound) t) →
    P (t.run (bound + 1)) (visits (bound + 1) t)
  /-- The import of a file, from the statements of the module. -/
  file : ∀ bound source path,
    (∀ b ss, b < bound → P (Eval.executeAll b ss) (visits b (.executeAll ss))) →
    P (Eval.fileExports (bound + 1) source path) (visits (bound + 1) (.fileExports source path))

namespace Walk

variable {P : {α : Type} → Eval α → Trace → Prop}

/-- What has been shown for a walk holds of every job that runs no module. -/
theorem visits (w : Walk P) :
    ∀ bound (t : Job), t.runsModule = false → P (t.run bound) (Job.visits bound t)
  | 0 => w.exhausted
  | bound + 1 => by
    have ih := visits w bound
    intro t ht
    have hwithin (u : Job) (hu : t.Within u) : P (u.run bound) (Job.visits bound u) :=
      ih u (Job.runsModule_of_opensFile hu.shut)
    cases hnode : t.span? with
    | some span =>
      cases t with
      | execute s => exact w.statement bound s (ih (.perform s) rfl)
      | evaluate e => exact w.expression bound e (ih (.compute e) rfl)
      | _ => cases hnode
    | none =>
      cases hfile : t.opensFile with
      | false =>
        refine w.inner bound t hnode ht (w.toWeave.below hwithin hnode hfile ?_)
        exact fun source path _ => ih (.fileExports source path) rfl
      | true =>
        cases t with
        | fileExports source path =>
          exact w.file bound source path fun b ss hb => visits w b (.executeAll ss) rfl
        | runModule path text => cases ht
        | _ => cases hfile
termination_by bound => bound

end Walk

end Playscript

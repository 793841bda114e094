/-
# The slot of a pending failure

What is pending is a slot that every node writes on its way out: a statement or an
expression that ends with a failure writes its place, unless the slot is full
already (`Visit.locate`). So the slot is full after the first node that ends with a
failure, and since everything below a node ends before it (`PostOrder`), that node
is an innermost one (`Records`).

No failure is ever dropped: what an evaluation has claimed when it ends is what its
nodes leave in the slot (`Visit.slotAfter_exits`). So the slot is empty after what
does not fail. A program starts with an empty slot, whatever was pending before, and
is reported by what its own nodes have written (`Session.records_failures`).

Key definitions: `Visit.exits`, `Visit.locate`, `slotAfter`, `Records`, `Request.slotAfter`.
Key theorems: `Visit.note?_answer`, `Visit.slotAfter_exits`, `PostOrder.records`,
`Session.pending_step`.
-/
import Playscript.Proofs.Modules.Asking
import Playscript.Proofs.Trace.Faults

namespace Playscript

open Eval Job

/-! ### The order in which evaluations end -/

/-- A job and everything below it, in the order in which they end. -/
def Job.exits : Nat → Job → Trace
  | 0, t => alone 0 t
  | bound + 1, t => fun host held m =>
    below bound (exits bound) t host held m ++ [⟨bound + 1, t, host, held, m⟩]

namespace Visit

variable {u v : Visit}

/-- A visit and everything below it, in the order in which they end. -/
def exits (v : Visit) : List Visit := Job.exits v.bound v.job v.host v.held v.machine

/-- A visit ends after those that it asks for. -/
theorem exits_eq (v : Visit) : v.exits = v.asks.flatMap exits ++ [v] := by
  obtain ⟨bound, t, host, held, m⟩ := v
  cases bound with
  | zero => rfl
  | succ bound =>
    have halone (t : Job) : (alone bound t).flatMap exits = Job.exits bound t := by
      funext host held m
      exact List.flatMap_singleton exits _
    have hbelow := Job.below_flatMap (f := exits) bound (alone bound) t
    simp only [halone] at hbelow
    exact congrArg (fun tr : Trace => tr host held m ++ [_]) hbelow

theorem below_eq (v : Visit) : v.below = v.asks.flatMap visits := congrArg List.tail v.visits_eq

/-- What is visited ends, and nothing else. -/
theorem perm_exits (v : Visit) : v.exits.Perm v.visits := by
  induction v using asks_induction with
  | h v ih =>
    rw [exits_eq, visits_eq]
    exact (List.perm_append_singleton v _).trans (.cons v (.flatMap_left _ ih))

end Visit

/-- Everything below a visit comes before it. -/
def PostOrder (vs : List Visit) : Prop := ∀ before v after, vs = before ++ v :: after →
  ∀ u ∈ v.below, u ∈ before

namespace PostOrder

variable {vs ws : List Visit} {v : Visit}

theorem nil : PostOrder [] := by
  intro before v after h
  cases before <;> cases h

theorem extend (h : PostOrder vs) (h' : ∀ before v after, ws = before ++ v :: after →
    ∀ u ∈ v.below, u ∈ vs ++ before) : PostOrder (vs ++ ws) := by
  intro before v after heq
  rcases List.append_eq_append_iff.1 heq with ⟨late, rfl, hws⟩ | ⟨late, rfl, hws⟩
  · exact h' late v after hws
  · cases late with
    | nil => simpa using h' [] v after hws.symm
    | cons w late =>
      cases hws
      exact h before v late rfl

theorem append (h : PostOrder vs) (h' : PostOrder ws) : PostOrder (vs ++ ws) :=
  h.extend fun before v after heq u hu => List.mem_append_right _ (h' before v after heq u hu)

/-- A visit may end after everything below it. -/
theorem snoc (h : PostOrder vs) (hv : ∀ u ∈ v.below, u ∈ vs) : PostOrder (vs ++ [v]) := by
  refine h.extend fun before w after heq u hu => ?_
  obtain ⟨rfl, hw⟩ | ⟨-, hw⟩ := List.append_eq_singleton_iff.1 heq.symm
  · cases hw
    exact List.mem_append_left _ (hv u hu)
  · cases hw

theorem flatMap {f : Visit → List Visit} (h : ∀ v ∈ vs, PostOrder (f v)) :
    PostOrder (vs.flatMap f) := by
  induction vs with
  | nil => exact .nil
  | cons v vs ih =>
    obtain ⟨hv, hvs⟩ := List.forall_mem_cons.1 h
    exact hv.append (ih hvs)

end PostOrder

/-- Evaluations end after what they have visited. -/
theorem Visit.postOrder_exits (v : Visit) : PostOrder v.exits := by
  induction v using asks_induction with
  | h v ih =>
    rw [exits_eq]
    refine (PostOrder.flatMap ih).snoc fun u hu => ?_
    rw [below_eq] at hu
    obtain ⟨w, hw, hu⟩ := List.mem_flatMap.1 hu
    exact List.mem_flatMap.2 ⟨w, hw, w.perm_exits.mem_iff.2 hu⟩

/-! ### What nodes note -/

/-- The failure of an outcome with the place that has been claimed for it. -/
def Outcome.note? {α : Type} : Outcome α → Option (Failure × Site)
  | .failed fault => fault.site?.map fun site => (fault.failure, site)
  | _ => none

/-- What a node that ends with a failure writes: its span, in the file that is running. -/
def Visit.note? (v : Visit) : Option (Failure × Site) :=
  match v.job.span?, v.answer.1.failure? with
  | some span, some failure => some (failure, ⟨v.answer.2.file v.host.settings, span⟩)
  | _, _ => none

theorem Outcome.failure?_of_note? {α : Type} {outcome : Outcome α} {failure : Failure}
    {site : Site} (h : outcome.note? = some (failure, site)) :
    outcome.failure? = some failure := by
  cases outcome with
  | done a => cases h
  | exhausted => cases h
  | failed fault =>
    obtain ⟨claimed, -, hnote⟩ := Option.map_eq_some_iff.1 h
    cases hnote
    rfl

theorem Outcome.map_note? {α : Type} (outcome : Outcome α) :
    outcome.note?.map Prod.snd = outcome.site? := by
  cases outcome with
  | done a => rfl
  | exhausted => rfl
  | failed fault =>
    obtain ⟨failure, site?⟩ := fault
    cases site? <;> rfl

theorem Visit.note?_eq_some {v : Visit} {failure : Failure} {site : Site} :
    v.note? = some (failure, site) ↔ v.job.span? = some site.span ∧
      v.answer.1.failure? = some failure ∧ site.file = v.answer.2.file v.host.settings := by
  obtain ⟨file, span⟩ := site
  unfold note?
  rcases v.job.span? with _ | span' <;> rcases v.answer.1.failure? with _ | failure' <;> simp
  grind

/-- What is noted of an evaluation is the first note of what it visits. -/
def NotesBy {α : Type} (x : Eval α) (tr : Trace) : Prop := ∀ host held m,
  (x host held m).1.note? = (tr host held m).findSome? fun u => u.answer.1.note?

namespace NotesBy

variable {α β : Type} {x : Eval α} {k : α → Eval β} {tr : Trace} {rest : α → Trace} {bound : Nat}

theorem quiet (hx : Quiet x) : NotesBy x .none := by
  intro host held m
  have hunclaimed := hx.unclaimed host held m
  generalize (x host held m).1 = outcome at hunclaimed
  cases outcome with
  | done a => rfl
  | failed fault => exact congrArg (Option.map _) (hunclaimed fault rfl)
  | exhausted => rfl

theorem andThen (hx : NotesBy x tr) (hk : ∀ a, NotesBy (k a) (rest a)) :
    NotesBy (x >>= k) (.andThen x tr rest) := by
  intro host held m
  have hx := hx host held m
  show (Eval.bind x k host held m).1.note? = (Trace.andThen x tr rest host held m).findSome? _
  unfold Trace.andThen Eval.bind
  rw [List.findSome?_append]
  generalize x host held m = r at hx
  obtain ⟨outcome, n⟩ := r
  cases outcome with
  | done a =>
    change none = _ at hx
    rw [← hx]
    exact hk a host held n
  | failed fault =>
    rw [List.findSome?_nil, Option.or_none]
    exact hx
  | exhausted =>
    rw [List.findSome?_nil, Option.or_none]
    exact hx

theorem inScope (parent : Slot) (values : α → List Value) (hx : NotesBy x tr) :
    NotesBy (Eval.inScope parent values x) (.inScope parent tr) := by
  intro host held m
  have hx := hx host held (m.enter parent)
  unfold Eval.inScope Trace.inScope
  dsimp only
  generalize x host held (m.enter parent) = r at hx
  obtain ⟨outcome, n⟩ := r
  cases outcome <;> exact hx

theorem alone (t : Job) : NotesBy (t.run bound) (Job.alone bound t) := fun _ _ _ =>
  List.findSome?_singleton.symm

end NotesBy

theorem notes_loom : Loom NotesBy where
  quiet := .quiet
  andThen := .andThen
  holding vs hx host held m := hx host (vs ++ held) m
  inScope := .inScope
  inModule path hx host held m := hx host held (m.beginModule path)
  keep path digest exports host held m := by
    rw [run_keep]
    rfl

/-- A node notes what nothing below it has noted. -/
theorem Visit.note?_claiming {v : Visit} {span : Span} {x : Eval v.job.Result}
    (hspan : v.job.span? = some span)
    (hanswer : v.answer = Eval.claiming span x v.host v.held v.machine) :
    v.answer.1.note? = (x v.host v.held v.machine).1.note?.or v.note? := by
  unfold note?
  rw [hspan, hanswer]
  unfold Eval.claiming
  generalize x v.host v.held v.machine = r
  obtain ⟨outcome, n⟩ := r
  cases outcome with
  | done a => rfl
  | exhausted => rfl
  | failed fault =>
    obtain ⟨failure, site?⟩ := fault
    cases site? <;> rfl

/-- What a visit that is no node has noted comes from what it asks for; a node adds its own note
where there is none. -/
theorem Visit.note?_answer (v : Visit) :
    v.answer.1.note? = (v.asks.findSome? fun u => u.answer.1.note?).or v.note? := by
  obtain ⟨bound, t, host, held, m⟩ := v
  cases bound with
  | zero => cases t <;> rfl
  | succ bound =>
    have halone (u : Job) : (u.run bound host held m).1.note? = _ := NotesBy.alone u host held m
    cases hnode : t.span? with
    | none =>
      have hnone : Visit.note? ⟨bound + 1, t, host, held, m⟩ = none := by
        rw [note?, hnode]
      rw [hnone, Option.or_none]
      exact notes_loom.below (fun u => .alone u) hnode host held m
    | some span =>
      cases t with
      | execute s =>
        refine (note?_claiming (v := ⟨bound + 1, .execute s, host, held, m⟩)
          (x := Eval.perform bound s) rfl ?_).trans (congrArg (Option.or · _) (halone (.perform s)))
        rw [answer, Job.run, Eval.execute]
        rfl
      | evaluate e =>
        refine (note?_claiming (v := ⟨bound + 1, .evaluate e, host, held, m⟩)
          (x := Eval.compute bound e) rfl ?_).trans (congrArg (Option.or · _) (halone (.compute e)))
        rw [answer, Job.run, Eval.evaluate]
        rfl
      | _ => cases hnode

/-- What a visit has noted is the first note of the nodes that have ended. -/
theorem Visit.findSome?_exits (v : Visit) : v.exits.findSome? note? = v.answer.1.note? := by
  induction v using asks_induction with
  | h v ih =>
    have hasks (us : List Visit) (h : ∀ u ∈ us, u.exits.findSome? note? = u.answer.1.note?) :
        (us.flatMap exits).findSome? note? = us.findSome? fun u => u.answer.1.note? := by
      induction us with
      | nil => rfl
      | cons u us ihus =>
        obtain ⟨hu, hus⟩ := List.forall_mem_cons.1 h
        rw [List.flatMap_cons, List.findSome?_append, hu, ihus hus, List.findSome?_cons]
        cases u.answer.1.note? <;> rfl
    rw [exits_eq, List.findSome?_append, hasks v.asks ih, note?_answer, List.findSome?_singleton]

/-- A node that fails has noted its failure. -/
theorem Visit.note?_of_failure? {v : Visit} {failure : Failure} (hnode : v.job.span?.isSome)
    (h : v.answer.1.failure? = some failure) :
    ∃ site, v.answer.1.note? = some (failure, site) := by
  obtain ⟨span, hspan⟩ := Option.isSome_iff_exists.1 hnode
  have hnoted : v.answer.1.note?.isSome := by
    have hown : v.note? = some (failure, ⟨v.answer.2.file v.host.settings, span⟩) :=
      note?_eq_some.2 ⟨hspan, h, rfl⟩
    rw [note?_answer, hown, Option.isSome_or]
    exact Bool.or_true _
  obtain ⟨⟨failure', site⟩, hnote⟩ := Option.isSome_iff_exists.1 hnoted
  have hsame := Outcome.failure?_of_note? hnote
  rw [h] at hsame
  cases hsame
  exact ⟨site, hnote⟩

/-! ### The slot -/

/-- What a visit does to the slot when it ends: it writes its note, unless the slot is full. -/
def Visit.locate (slot : Option Site) (v : Visit) : Option Site :=
  match slot with
  | some site => some site
  | none => v.note?.map Prod.snd

/-- The slot after visits have ended one after the other. -/
def slotAfter (slot : Option Site) (vs : List Visit) : Option Site := vs.foldl Visit.locate slot

theorem slotAfter_some (site : Site) (vs : List Visit) :
    slotAfter (some site) vs = some site := by
  induction vs with
  | nil => rfl
  | cons v vs ih => exact ih

/-- The first note is what an empty slot comes to hold. -/
theorem slotAfter_none (vs : List Visit) :
    slotAfter none vs = (vs.findSome? Visit.note?).map Prod.snd := by
  induction vs with
  | nil => rfl
  | cons v vs ih =>
    rw [List.findSome?_cons]
    show slotAfter (v.note?.map Prod.snd) vs = _
    cases v.note? with
    | none => exact ih
    | some note => exact slotAfter_some note.2 vs

theorem slotAfter_eq_or (slot : Option Site) (vs : List Visit) :
    slotAfter slot vs = slot.or (slotAfter none vs) := by
  cases slot with
  | none => rfl
  | some site => exact slotAfter_some site vs

/-- What is pending after an evaluation is what the nodes that have ended leave in the slot. -/
theorem Visit.slotAfter_exits (slot : Option Site) (v : Visit) :
    slotAfter slot v.exits = slot.or v.answer.1.site? := by
  rw [slotAfter_eq_or, slotAfter_none, findSome?_exits, Outcome.map_note?]

/-- A node that fails while none below it does writes the slot, which is empty before it; and
whatever ends after it leaves what it has written. -/
def Records (vs : List Visit) (failure : Failure) (site : Site) : Prop :=
  ∃ before v after, vs = before ++ v :: after ∧ v.Fails failure site.span ∧
    site.file = v.answer.2.file v.host.settings ∧ slotAfter none before = none ∧
    ∀ later, later <+: after → slotAfter none (before ++ v :: later) = some site

theorem PostOrder.records {vs : List Visit} {failure : Failure} {site : Site} (h : PostOrder vs)
    (hnote : vs.findSome? Visit.note? = some (failure, site)) : Records vs failure site := by
  obtain ⟨before, v, after, rfl, hv, hbefore⟩ := List.findSome?_eq_some_iff.1 hnote
  obtain ⟨hspan, hfailure, hfile⟩ := Visit.note?_eq_some.1 hv
  have hfirst : before.findSome? Visit.note? = none := List.findSome?_eq_none_iff.2 hbefore
  refine ⟨before, v, after, rfl, ⟨hspan, hfailure, fun u hu hnode => ?_⟩, hfile, ?_,
    fun later _ => ?_⟩
  · -- a node below `v` that fails would have a note of its own, before that of `v`
    obtain ⟨span, hspan⟩ := Option.isSome_iff_exists.1 hnode
    have hnone := hbefore u (h before v after rfl u hu)
    rw [Visit.note?, hspan] at hnone
    cases hu : u.answer.1.failure? with
    | none => rfl
    | some failure' =>
      rw [hu] at hnone
      cases hnone
  · rw [slotAfter_none, hfirst]
    rfl
  · rw [slotAfter_none, List.findSome?_append, hfirst, List.findSome?_cons, hv]
    rfl

/-! ### Programs -/

namespace Interpreter

/-- What the statements of a program visit, in the order in which it ends. -/
def topExits (bound : Nat) : List Stmt → Trace
  | [] => .none
  | s :: rest =>
    .andThen (Eval.execute bound s) (Job.exits bound (.execute s)) fun
      | .normal => topExits bound rest
      | .returned _ => .none

/-- How the statements of a program end, by what has been noted. -/
inductive Ends (file : String) (ss : List Stmt) (vs : List Visit) : Outcome Unit → Prop where
  | unfailed {outcome : Outcome Unit} : outcome.failure? = none →
    vs.findSome? Visit.note? = none → Ends file ss vs outcome
  | noted {fault : Fault} {site : Site} : fault.site? = some site →
    vs.findSome? Visit.note? = some (fault.failure, site) → Ends file ss vs (.failed fault)
  | returned {s : Stmt} : Escapes ss vs s → vs.findSome? Visit.note? = none →
    Ends file ss vs (.failed ⟨.returnOutside, some ⟨file, s.span⟩⟩)

theorem Ends.more {file : String} {s : Stmt} {ss : List Stmt} {vs ws : List Visit}
    {outcome : Outcome Unit} (hvs : vs.findSome? Visit.note? = none)
    (h : Ends file ss ws outcome) : Ends file (s :: ss) (vs ++ ws) outcome := by
  have hws : (vs ++ ws).findSome? Visit.note? = ws.findSome? Visit.note? := by
    rw [List.findSome?_append, hvs, Option.none_or]
  cases h with
  | unfailed hfailure hnone => exact .unfailed hfailure (hws.trans hnone)
  | noted hsite hnote => exact .noted hsite (hws.trans hnote)
  | returned hs hnone => exact .returned hs.more (hws.trans hnone)

theorem runTop_ends (bound : Nat) (ss : List Stmt) (host : Host) (held : List Value)
    (m : Machine) :
    PostOrder (topExits bound ss host held m) ∧
      Ends (m.file host.settings) ss (topExits bound ss host held m)
        (runTop bound ss host held m).1 := by
  induction ss generalizing m with
  | nil => exact ⟨.nil, .unfailed rfl rfl⟩
  | cons s rest ih =>
    have hpost := Visit.postOrder_exits ⟨bound, .execute s, host, held, m⟩
    have hnote := Visit.findSome?_exits ⟨bound, .execute s, host, held, m⟩
    have hfile := file_visits bound (t := .execute s) rfl host held m
    change PostOrder (Job.exits bound (.execute s) host held m) at hpost
    change (Job.exits bound (.execute s) host held m).findSome? _ =
      (Eval.execute bound s host held m).1.note? at hnote
    rw [runTop, topExits]
    rcases hrun : Eval.execute bound s host held m with ⟨outcome, n⟩
    rw [hrun] at hnote
    rw [Job.run, hrun] at hfile
    cases outcome with
    | done flow =>
      rw [bind_of_done hrun, Trace.append_of_done hrun]
      cases flow with
      | normal =>
        obtain ⟨hposts, hends⟩ := ih n
        rw [show n.file host.settings = m.file host.settings from hfile] at hends
        exact ⟨hpost.append hposts, hends.more hnote⟩
      | returned vs =>
        refine ⟨hpost.append .nil, ?_⟩
        have hlast : ⟨bound, .execute s, host, held, m⟩ ∈
            Job.exits bound (.execute s) host held m ++ [] := by
          rw [List.append_nil]
          exact (Visit.perm_exits ⟨bound, .execute s, host, held, m⟩).mem_iff.2 (by
            rw [Visit.visits_eq]
            exact List.mem_cons_self)
        have hends : Ends (n.file host.settings) (s :: rest)
            (Job.exits bound (.execute s) host held m ++ []) (.failed ⟨.returnOutside, _⟩) :=
          .returned ⟨List.mem_cons_self, bound, host, held, m, vs, hlast, congrArg Prod.fst hrun⟩
            ((List.append_nil _).symm ▸ hnote)
        exact hfile ▸ hends
    | failed fault =>
      rw [bind_of_failed hrun, Trace.append_of_failed hrun]
      obtain ⟨site, hsite⟩ := Option.isSome_iff_exists.1 (site?_of_execute (congrArg Prod.fst hrun))
      refine ⟨hpost, .noted hsite (hnote.trans ?_)⟩
      rw [Outcome.note?, hsite]
      rfl
    | exhausted =>
      rw [bind_of_exhausted hrun]
      unfold Trace.andThen
      rw [hrun]
      exact ⟨hpost.append .nil, .unfailed rfl ((List.append_nil _).symm ▸ hnote)⟩

/-- What a program reports is what its nodes have recorded; or a statement that returns. -/
theorem interpret_records (i : Interpreter) (bound : Nat) (host : Host) (program : Program) :
    let exits := topExits bound program.body host i.held i.machine
    let reports := (i.interpret bound host program).2.reports
    (reports = i.reports ∧ slotAfter none exits = none) ∨
      (∃ failure site, reports = i.reports.push ⟨site, failure.message⟩ ∧
        Records exits failure site) ∨
      ∃ s, Escapes program.body exits s ∧ slotAfter none exits = none ∧
        reports = i.reports.push
          ⟨⟨i.machine.file host.settings, s.span⟩, Failure.returnOutside.message⟩ := by
  intro exits reports
  obtain ⟨hpost, hends⟩ := runTop_ends bound program.body host i.held i.machine
  have hempty (hnone : exits.findSome? Visit.note? = none) : slotAfter none exits = none := by
    rw [slotAfter_none, hnone]
    rfl
  have hreports : reports = _ := reports_interpret i bound host program
  rw [hreports]
  generalize (runTop bound program.body host i.held i.machine).1 = outcome at hends
  cases hends with
  | unfailed hfailure hnone =>
    refine .inl ⟨?_, hempty hnone⟩
    cases outcome with
    | failed fault => cases hfailure
    | done result => rfl
    | exhausted => rfl
  | @noted fault site hsite hnote =>
    refine .inr (.inl ⟨fault.failure, site, ?_, hpost.records hnote⟩)
    dsimp only
    rw [hsite]
    rfl
  | @returned s hs hnone => exact .inr (.inr ⟨s, hs, hempty hnone, rfl⟩)

/-- Nothing is pending after `interpret`: what a program left pending is reported. -/
theorem pending_interpret (i : Interpreter) (bound : Nat) (host : Host) (program : Program) :
    (i.interpret bound host program).2.pending? = none := by
  rw [interpret, perform, Eval.run, held_cleared, machine_cleared]
  generalize runTop bound program.body host i.held i.machine = r
  obtain ⟨outcome, m⟩ := r
  cases outcome <;> rfl

/-- What `run` leaves pending comes from its own program. -/
theorem pending_run (i : Interpreter) (bound : Nat) (host : Host) (program : Program) :
    (i.run bound host program).2.pending? =
      slotAfter none (Job.exits bound (.executeAll program.body) host i.held i.machine) := by
  refine Eq.trans ?_
    (Visit.slotAfter_exits none ⟨bound, .executeAll program.body, host, i.held, i.machine⟩).symm
  change _ = (none : Option Site).or
    (Eval.executeAll bound program.body host i.held i.machine).1.site?
  rw [run, perform, Eval.run, held_cleared, machine_cleared]
  generalize Eval.executeAll bound program.body host i.held i.machine = r
  obtain ⟨outcome, m⟩ := r
  cases outcome with
  | done flow => cases flow <;> rfl
  | failed fault => rfl
  | exhausted => rfl

end Interpreter

/-! ### Requests -/

/-- What a request visits, in the order in which it ends. -/
def Request.exits (bound : Nat) (i : Interpreter) (host : Host) : Request → List Visit
  | interpret program => Interpreter.topExits bound program.body host i.held i.machine
  | run program => Job.exits bound (.executeAll program.body) host i.held i.machine
  | execute s => Job.exits bound (.execute s) host i.held i.machine
  | evaluate e => Job.exits bound (.evaluate e) host i.held i.machine
  | call f args given =>
    let f := f.value i.held
    let args := Pick.valueAll i.held args
    Job.exits bound (.call f args) host (f :: Session.letGo given i.held) i.machine
  | look _ | invalidate | drop _ | edit _ | wait _ => []

/-- The slot after a request that found `slot`, once the visits have ended: a program starts with
an empty slot, and `interpret` leaves one, since it has reported what was in it. -/
def Request.slotAfter (slot : Option Site) (vs : List Visit) : Request → Option Site
  | interpret _ => none
  | run _ => Playscript.slotAfter none vs
  | execute _ | evaluate _ | call .. | look _ | invalidate | drop _ | edit _ | wait _ =>
    Playscript.slotAfter slot vs

namespace Session

/-- What is pending in a session is what the nodes of its requests leave in the slot. -/
theorem pending_step (settings : Settings) (reclaims : Bool) (bound : Nat) (s : Session)
    (r : Request) :
    (s.step settings reclaims bound r).2.interpreter.pending? =
      r.slotAfter s.interpreter.pending?
        (r.exits bound s.interpreter (s.host settings reclaims)) := by
  have hjob (t : Job) (held : List Value) := (Visit.slotAfter_exits s.interpreter.pending?
    ⟨bound, t, s.host settings reclaims, held, s.interpreter.machine⟩).symm
  cases r with
  | interpret program => exact s.interpreter.pending_interpret _ _ _
  | run program => exact s.interpreter.pending_run _ _ _
  | execute statement => exact hjob (.execute statement) _
  | evaluate e => exact hjob (.evaluate e) _
  | call f args given =>
    exact hjob (.call (f.value s.interpreter.held) (Pick.valueAll s.interpreter.held args)) _
  | look | invalidate | drop | edit | wait => rfl

/-- A statement or an expression is evaluated with the slot empty. If it does not fail, the slot
stays empty; if it fails, a node records that failure that fails while none below it does. And
whatever has been asked before, a program, which starts with the slot empty, reports exactly what
its own nodes record; where they record nothing it reports nothing, or that a statement of its own
returns from no function. The slot is what is pending between requests. -/
theorem records_failures :
    (∀ v : Visit, v.job.span?.isSome →
      (v.answer.1.failure? = none → slotAfter none v.exits = none) ∧
      ∀ failure, v.answer.1.failure? = some failure → ∃ site, Records v.exits failure site) ∧
    (∀ (settings : Settings) (reclaims : Bool) (bound : Nat) (clock : Clock) (disk : Disk)
      (requests : List Request) (program : Program),
      let s := (start clock disk).after settings reclaims bound requests
      let exits := Interpreter.topExits bound program.body (s.host settings reclaims)
        s.interpreter.held s.interpreter.machine
      let reports := (s.step settings reclaims bound (.interpret program)).2.interpreter.reports
      (reports = s.interpreter.reports ∧ slotAfter none exits = none) ∨
        (∃ failure site, reports = s.interpreter.reports.push ⟨site, failure.message⟩ ∧
          Records exits failure site) ∨
        ∃ statement, Interpreter.Escapes program.body exits statement ∧
          slotAfter none exits = none ∧
          reports = s.interpreter.reports.push
            ⟨⟨settings.fileName, statement.span⟩, Failure.returnOutside.message⟩) ∧
    ∀ (settings : Settings) (reclaims : Bool) (bound : Nat) (s : Session) (r : Request),
      (s.step settings reclaims bound r).2.interpreter.pending? =
        r.slotAfter s.interpreter.pending?
          (r.exits bound s.interpreter (s.host settings reclaims)) := by
  refine ⟨fun v hnode => ⟨fun hdone => ?_, fun failure hfailure => ?_⟩,
    fun settings reclaims bound clock disk requests program => ?_, pending_step⟩
  · rw [slotAfter_none, v.findSome?_exits, Option.map_eq_none_iff,
      Option.eq_none_iff_forall_ne_some]
    rintro ⟨failure, site⟩ hnote
    rw [Outcome.failure?_of_note? hnote] at hdone
    cases hdone
  · obtain ⟨site, hnote⟩ := Visit.note?_of_failure? hnode hfailure
    exact ⟨site, v.postOrder_exits.records (v.findSome?_exits.trans hnote)⟩
  · intro s
    have hrecords := s.interpreter.interpret_records bound (s.host settings reclaims) program
    have hfiles : s.interpreter.machine.files = [] :=
      (history settings reclaims bound (start clock disk) requests).files_eq
    have hfile : s.interpreter.machine.file settings = settings.fileName := by
      rw [Machine.file, hfiles]
      rfl
    rw [show (s.host settings reclaims).settings = settings from rfl, hfile] at hrecords
    exact hrecords

/-- A name that nothing binds, inside an operation. -/
def lostOperand : Expr :=
  .negate ⟨⟨1, 1⟩, ⟨1, 5⟩⟩ (.name ⟨⟨1, 2⟩, ⟨1, 5⟩⟩ "lost")

theorem records_failures_lostOperand :
    let host : Host := (start ⟨0, 0⟩ ⟨fun _ => none, fun _ => .error .missing⟩).host .standard true
    let v : Visit := ⟨20, .evaluate lostOperand, host, [], .start ⟨0, 0⟩⟩
    v.job.span?.isSome ∧ v.answer.1.failure? = some (.undefined "lost") ∧
      (∃ site, Records v.exits (.undefined "lost") site) ∧
      slotAfter none v.exits = some ⟨"<main>", ⟨⟨1, 2⟩, ⟨1, 5⟩⟩⟩ := by
  intro host v
  have hfails : v.answer.1.failure? = some (.undefined "lost") := by decide +kernel
  exact ⟨rfl, hfails, (records_failures.1 v rfl).2 _ hfails, by decide +kernel⟩

end Session

end Playscript

/-
# Importing a list of all names

An import of everything sets the names of a module in their order; an import of a
list sets those of the list in the order of the list. Where the list has all the names
and gives none of them a new one, both leave the same machine
(`Eval.bindExports_list`): a table in order is settled by what it answers for each name,
so neither the order in which names are set matters nor whether one is set twice. In
a session all tables are in order (`Session.ordered_after`).

Key definitions: `Orders`, `Machine.defineFrom`.
Key theorems: `Session.ordered_after`, `Eval.bindExports_list`.
-/
import Playscript.Proofs.Modules.Binding

namespace Playscript

open Eval Job

/-! ### Tables that stay in order -/

/-- Tables that are in order stay so, and are so wherever a visit starts. -/
def Orders (_ : Host) (vs : List Visit) (m n : Machine) : Prop :=
  m.arena.Ordered → n.arena.Ordered ∧ ∀ v ∈ vs, v.machine.arena.Ordered

theorem orders_composes : Composes Orders where
  steady h hm := ⟨h.tables hm, List.forall_mem_nil _⟩
  trans h h' hm := by
    obtain ⟨hn, hvs⟩ := h hm
    obtain ⟨ho, hws⟩ := h' hn
    exact ⟨ho, List.forall_mem_append.2 ⟨hvs, hws⟩⟩
  cons _ hmachine h hm := by
    subst hmachine
    exact ⟨(h hm).1, List.forall_mem_cons.2 ⟨hm, (h hm).2⟩⟩
  leave {host} _ _ n parent held h hm := by
    obtain ⟨hn, hvs⟩ := h (hm.push parent)
    refine ⟨?_, hvs⟩
    rw [Machine.leave]
    cases host.reclaims with
    | false => exact hn
    | true => exact hn.release (n.outside held) n.current
  endModule _ h := h
  keepModule m policy path kept hm := by
    refine ⟨?_, List.forall_mem_nil _⟩
    unfold Machine.keepModule
    split <;> exact hm

namespace Session

variable (settings : Settings) (bound : Nat)

theorem ordered_step {s : Session} (hs : s.interpreter.machine.arena.Ordered) (r : Request) :
    (s.step settings true bound r).2.interpreter.machine.arena.Ordered ∧
      ∀ v ∈ r.visits bound s.interpreter (s.host settings true), v.machine.arena.Ordered := by
  obtain ⟨m, horders, htidies⟩ := orders_composes.step settings true bound s r
  obtain ⟨hm, hvisits⟩ := horders hs
  refine ⟨?_, hvisits⟩
  obtain harena | ⟨held, harena⟩ := htidies.arena
  · rwa [harena]
  · exact harena ▸ hm.collect held

/-- The tables of a session are in order, wherever an evaluation starts. -/
theorem ordered_after {s : Session} (hs : s.interpreter.machine.arena.Ordered)
    (requests : List Request) :
    ∀ v ∈ s.visits settings true bound requests, v.machine.arena.Ordered := by
  induction requests generalizing s with
  | nil => exact List.forall_mem_nil _
  | cons r rest ih =>
    obtain ⟨hstep, hvisits⟩ := ordered_step settings bound hs r
    exact List.forall_mem_append.2 ⟨hvisits, ih hstep⟩

end Session

/-! ### Names set one after the other -/

/-- The value of a name that has one. -/
def Bindings.valueOf (b : Bindings) (name : String) : Value := (b.get? name).getD .null

theorem Bindings.get?_eq_valueOf {b : Bindings} {name : String} (h : b.binds name = true) :
    b.get? name = some (b.valueOf name) := by
  obtain ⟨v, hv⟩ := Option.isSome_iff_exists.1 h
  rw [valueOf, hv, Option.getD_some]

/-- The entries of a table are its names with their values. -/
theorem Bindings.Ordered.entries_eq {b : Bindings} (h : b.Ordered) :
    b.entries = b.names.map fun n => (n, b.valueOf n) := by
  have hvalue : ∀ e ∈ b.entries, e = (e.1, b.valueOf e.1) := fun e he => by
    rw [valueOf, h.mem_entries.1 he, Option.getD_some]
  calc b.entries = b.entries.map id := (List.map_id _).symm
    _ = b.entries.map fun e => (e.1, b.valueOf e.1) := List.map_congr_left hvalue
    _ = b.names.map fun n => (n, b.valueOf n) := by rw [names, List.map_map]; rfl

namespace Machine

variable {m : Machine}

/-- Sets names to the values that a table has for them. -/
def defineFrom (m : Machine) (b : Bindings) (names : List String) : Machine :=
  names.foldl (fun m n => m.define n (b.valueOf n)) m

/-- All are set in one frame. -/
theorem defineFrom_eq (b : Bindings) (names : List String) :
    m.defineFrom b names =
      { m with
        arena := m.arena.modify m.current fun f =>
          { f with
            bindings := names.foldl (fun c n => c.insert n (b.valueOf n)) f.bindings } } := by
  unfold defineFrom
  induction names generalizing m with
  | nil => exact congrArg (fun arena => { m with arena }) (Arena.modify_id _ _).symm
  | cons n rest ih =>
    rw [List.foldl_cons, ih]
    exact congrArg (fun arena => { m with arena }) (Arena.modify_modify _ _ _ _)

/-- The order in which names are set makes no difference, nor how often one is set. -/
theorem defineFrom_congr (hm : m.arena.Ordered) (hs : (m.arena.frame? m.current).isSome)
    (b : Bindings) {names others : List String} (h : ∀ n, n ∈ names ↔ n ∈ others) :
    m.defineFrom b names = m.defineFrom b others := by
  obtain ⟨f, hf⟩ := Option.isSome_iff_exists.1 hs
  have hordered (ns : List String) :
      (ns.foldl (fun c n => c.insert n (b.valueOf n)) f.bindings).Ordered := by
    have hframe : f.bindings.Ordered := Arena.bindings_of_frame? hf ▸ hm m.current
    have hlist := hframe.foldl_insert (ns.map fun n => (n, b.valueOf n))
    rwa [List.foldl_map] at hlist
  have htables : names.foldl (fun c n => c.insert n (b.valueOf n)) f.bindings =
      others.foldl (fun c n => c.insert n (b.valueOf n)) f.bindings := by
    refine (hordered names).ext (hordered others) fun n => ?_
    rw [Bindings.get?_foldl_insert, Bindings.get?_foldl_insert]
    simp only [h]
  rw [defineFrom_eq, defineFrom_eq, Arena.modify_congr hf]
  rw [htables]

end Machine

/-! ### Lists of all names -/

namespace Eval

variable {exports : Bindings} {source : String} {items : List ImportItem} {host : Host}
  {held : List Value} {m : Machine}

theorem run_defineAll (h : exports.Ordered) :
    defineAll exports host held m = (.done (), m.defineFrom exports exports.names) := by
  rw [Machine.defineFrom, defineAll, h.entries_eq]
  simp only [List.foldl_map]
  rfl

/-- Items without new names are bound to the values of their names. -/
theorem run_bindItems (hnew : ∀ i ∈ items, i.newName? = none)
    (hitems : ∀ i ∈ items, exports.binds i.name.name = true) :
    bindItems exports source items host held m =
      (.done (), m.defineFrom exports (items.map (·.name.name))) := by
  induction items generalizing m with
  | nil => rfl
  | cons i rest ih =>
    obtain ⟨hi, hrest⟩ := List.forall_mem_cons.1 hitems
    obtain ⟨hinew, hrestnew⟩ := List.forall_mem_cons.1 hnew
    have hname : i.localName = i.name.name := by
      rw [ImportItem.localName, hinew, Option.getD_none]
    rw [bindItems, Bindings.get?_eq_valueOf hi, hname]
    exact ih hrestnew hrest

/-- A list of all names that a module exports, none of them new, is bound like all of them. -/
theorem bindExports_list (hexports : exports.Ordered) (hm : m.arena.Ordered)
    (hs : (m.arena.frame? m.current).isSome) (hnew : ∀ i ∈ items, i.newName? = none)
    (hnames : ∀ n, n ∈ items.map (·.name.name) ↔ n ∈ exports.names) :
    bindExports (some items) source exports host held m =
      bindExports none source exports host held m := by
  have hitems : ∀ i ∈ items, exports.binds i.name.name = true := fun i hi =>
    Bindings.mem_names.1 ((hnames _).1 (List.mem_map_of_mem hi))
  have hlist : bindItems exports source items host held m = _ := run_bindItems hnew hitems
  have hall : defineAll exports host held m = _ := run_defineAll hexports
  unfold bindExports
  dsimp only
  rw [bind_of_done hlist, bind_of_done hall, Machine.defineFrom_congr hm hs exports hnames]

end Eval

end Playscript

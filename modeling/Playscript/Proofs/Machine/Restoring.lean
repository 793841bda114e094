/-
# Every way out restores the scope

Whatever is evaluated, and however it ends, it leaves the scope in use, the
files and the modules under way, and the frames at work as it has found them.
What changes any of them is undone where it was done: `Eval.inScope` ends its
scope in all three outcomes, and `Eval.inModule` ends its file. For
the frames at work the host has to reclaim, and the books of the arena have to
be true; in a session they always are (`Session.orderly_after`).

Lines are only ever added to what has been written, whatever the host does.

Key definitions: `Machine.Restores`, `Settles`.
Key theorems: `settles_visits`, `restores`, `Session.restores_reached`.
-/
import Playscript.Proofs.Modules.Asking
import Playscript.Proofs.Trace.Uniform

namespace Playscript

open Eval Job

/-! ### Scopes and files -/

/-- What the result of an evaluation holds while its scope ends. -/
def Outcome.holds {α : Type} (values : α → List Value) : Outcome α → List Value
  | .done a => values a
  | .failed _ | .exhausted => []

theorem Eval.inScope_eq {α : Type} (parent : Slot) (values : α → List Value) (x : Eval α)
    (host : Host) (held : List Value) (m : Machine) :
    inScope parent values x host held m = ((x host held (m.enter parent)).1,
      (x host held (m.enter parent)).2.leave host
        ((x host held (m.enter parent)).1.holds values ++ held) m.current) := by
  unfold inScope
  generalize x host held (m.enter parent) = r
  obtain ⟨outcome, n⟩ := r
  cases outcome <;> rfl

/-- The arena stays in order, and the same frames are at work. -/
structure Arena.Settles (a b : Arena) : Prop where
  sturdy : b.Sturdy
  live : ∀ s, b.Live s ↔ a.Live s

namespace Arena.Settles

variable {a b c : Arena}

theorem of_alike (h : a.Sturdy) (hb : a.Alike b) : a.Settles b := ⟨h.congr hb, hb.live⟩

theorem trans (h : a.Settles b) (h' : b.Settles c) : a.Settles c :=
  ⟨h'.sturdy, fun s => (h'.live s).trans (h.live s)⟩

/-- A frame that is pushed and released. -/
theorem release_push {p : Slot} (h : a.Sturdy) (hb : (a.push p).2.Settles b)
    (held : List Value) : a.Settles (b.release held (a.push p).1) :=
  ⟨hb.sturdy.release held _, fun _ => h.live_release_push p hb.live⟩

end Arena.Settles

/-- A visit of a host that reclaims, on an arena in order. -/
structure Visit.Orderly (v : Visit) : Prop where
  reclaims : v.host.reclaims = true
  sturdy : v.machine.arena.Sturdy

/-- What an evaluation leaves of the machine, with what it visits. -/
structure Settles (host : Host) (vs : List Visit) (m n : Machine) : Prop where
  scope : n.current = m.current
  writes : m.Writes n
  frames : host.reclaims = true → m.arena.Sturdy → m.arena.Settles n.arena
  visits : host.reclaims = true → m.arena.Sturdy → ∀ v ∈ vs, v.Orderly

namespace Settles

variable {host : Host} {vs ws : List Visit} {m n o : Machine}

theorem of_steady (h : m.Steady n) : Settles host [] m n where
  scope := h.scope
  writes := h.writes
  frames _ hm := .of_alike hm h.frames
  visits _ _ := List.forall_mem_nil _

theorem trans (h : Settles host vs m n) (h' : Settles host ws n o) :
    Settles host (vs ++ ws) m o where
  scope := h'.scope.trans h.scope
  writes := h.writes.trans h'.writes
  frames hreclaims hm :=
    (h.frames hreclaims hm).trans (h'.frames hreclaims (h.frames hreclaims hm).sturdy)
  visits hreclaims hm := List.forall_mem_append.2
    ⟨h.visits hreclaims hm, h'.visits hreclaims (h.frames hreclaims hm).sturdy⟩

/-- A visit in front, on the machine that everything starts on. -/
theorem cons {v : Visit} (hhost : v.host = host) (hmachine : v.machine = m)
    (h : Settles host vs m n) : Settles host (v :: vs) m n where
  scope := h.scope
  writes := h.writes
  frames := h.frames
  visits hreclaims hm := by
    subst hhost hmachine
    exact List.forall_mem_cons.2 ⟨⟨hreclaims, hm⟩, h.visits hreclaims hm⟩

/-- A scope is entered and left. -/
theorem leave {parent : Slot} (held : List Value) (h : Settles host vs (m.enter parent) n) :
    Settles host vs m (n.leave host held m.current) where
  scope := rfl
  writes := ⟨h.writes.output, h.writes.errors⟩
  frames hreclaims hm := by
    have hn := h.frames hreclaims (hm.push parent)
    have hcurrent : n.current = (m.arena.push parent).1 := h.scope
    show m.arena.Settles (if host.reclaims then n.arena.release _ n.current else n.arena)
    rw [if_pos hreclaims, hcurrent]
    exact .release_push hm hn _
  visits hreclaims hm := h.visits hreclaims (hm.push parent)

/-- A file is started and ended. -/
theorem endModule {path : String} (h : Settles host vs (m.beginModule path) n) :
    Settles host vs m n.endModule where
  scope := h.scope
  writes := ⟨h.writes.output, h.writes.errors⟩
  frames := h.frames
  visits := h.visits

/-- What is kept of a module changes neither the scope nor the frames. -/
theorem keepModule (m : Machine) (policy : CachePolicy) (path : String) (kept : CachedModule) :
    Settles host [] m (m.keepModule policy path kept) := by
  have hm : Settles host [] m m := .of_steady (.refl m)
  unfold Machine.keepModule
  split
  · exact hm
  · exact ⟨hm.scope, ⟨hm.writes.output, hm.writes.errors⟩, hm.frames, hm.visits⟩

theorem composes : Composes Settles where
  steady := .of_steady
  trans := .trans
  cons := .cons
  leave _ held h := h.leave held
  endModule _ h := h.endModule
  keepModule := .keepModule

end Settles

/-- Every job leaves the machine settled, and everything it visits starts in order. -/
theorem settles_visits (bound : Nat) (t : Job) (host : Host) (held : List Value) (m : Machine) :
    Settles host (visits bound t host held m) m (t.run bound host held m).2 :=
  Settles.composes.uniform.visits bound t host held m

/-! ### Every way out -/

/-- The scope in use, the files and the modules under way, and the frames at work are the same. -/
structure Machine.Restores (m n : Machine) : Prop where
  scope : n.current = m.current
  files : n.files = m.files
  loading : n.modules.loading = m.modules.loading
  live : ∀ s, n.arena.Live s ↔ m.arena.Live s

/-- Every job restores every machine in order, whether it is done, fails or is given up. -/
theorem restores (bound : Nat) (t : Job) {host : Host} (hreclaims : host.reclaims = true)
    (held : List Value) {m : Machine} (hm : m.arena.Sturdy) :
    m.Restores (t.run bound host held m).2 := by
  have hsettles := settles_visits bound t host held m
  have hbeside := beside_run bound t host held m
  exact ⟨hsettles.scope, hbeside.files, hbeside.loading, (hsettles.frames hreclaims hm).live⟩

/-! ### Sessions -/

namespace Interpreter

/-- The arena of an interpreter is in order. -/
def Orderly (i : Interpreter) : Prop := i.machine.arena.Sturdy

end Interpreter

namespace Session

variable (settings : Settings) (bound : Nat)

theorem orderly_step {s : Session} (hs : s.interpreter.Orderly) (r : Request) :
    (s.step settings true bound r).2.interpreter.Orderly ∧
      ∀ v ∈ r.visits bound s.interpreter (s.host settings true), v.Orderly := by
  obtain ⟨m, hsettles, htidies⟩ := Settles.composes.step settings true bound s r
  have hm := (hsettles.frames rfl hs).sturdy
  refine ⟨?_, hsettles.visits rfl hs⟩
  show Arena.Sturdy _
  obtain harena | ⟨held, harena⟩ := htidies.arena
  · rwa [harena]
  · exact harena ▸ hm.collect held

theorem orderly_after {s : Session} (hs : s.interpreter.Orderly) (requests : List Request) :
    (s.after settings true bound requests).interpreter.Orderly ∧
      ∀ v ∈ s.visits settings true bound requests, v.Orderly := by
  induction requests generalizing s with
  | nil => exact ⟨hs, List.forall_mem_nil _⟩
  | cons r rest ih =>
    obtain ⟨hstep, hvisits⟩ := orderly_step settings bound hs r
    obtain ⟨hafter, hrest⟩ := ih hstep
    exact ⟨hafter, List.forall_mem_append.2 ⟨hvisits, hrest⟩⟩

theorem orderly_start (clock : Clock) (disk : Disk) : (start clock disk).interpreter.Orderly :=
  ⟨Arena.WellShaped.empty.ledger, Arena.WellShaped.empty.tree.root⟩

/-- Whatever is evaluated on a machine in order, and however it ends, the scope in use, the
files and the modules under way, and the frames at work are afterwards what they were before.
And in a session every machine is in order: between requests, and wherever an evaluation starts,
at any depth. -/
theorem restores_reached :
    (∀ (bound : Nat) (t : Job) (host : Host) (held : List Value) (m : Machine),
      host.reclaims = true → m.arena.Sturdy → m.Restores (t.run bound host held m).2) ∧
    ∀ (settings : Settings) (bound : Nat) (clock : Clock) (disk : Disk) (requests : List Request),
      ((start clock disk).after settings true bound requests).interpreter.Orderly ∧
        ∀ v ∈ (start clock disk).visits settings true bound requests,
          v.Orderly ∧ v.machine.Restores v.answer.2 := by
  refine ⟨fun bound t host held m hreclaims hm => restores bound t hreclaims held hm,
    fun settings bound clock disk requests => ?_⟩
  obtain ⟨hafter, hvisits⟩ := orderly_after settings bound (orderly_start clock disk) requests
  exact ⟨hafter, fun v hv => ⟨hvisits v hv,
    restores v.bound v.job (hvisits v hv).reclaims v.held (hvisits v hv).sturdy⟩⟩

/-- A block in a block, in which a name is looked up that nothing binds. -/
def lostName : Stmt :=
  .block ⟨default, [.block ⟨default, [.evaluate default (.name default "lost")]⟩]⟩

theorem restores_reached_lostName :
    let host : Host := (start ⟨0, 0⟩ ⟨fun _ => none, fun _ => .error .missing⟩).host .standard true
    let m := Machine.start ⟨0, 0⟩
    m.arena.Sturdy ∧ ((Job.execute lostName).run 20 host [] m).1.isDone = false ∧
      m.Restores ((Job.execute lostName).run 20 host [] m).2 := by
  intro host m
  have hm : m.arena.Sturdy := orderly_start ⟨0, 0⟩ host.disk
  exact ⟨hm, by decide +kernel, restores_reached.1 20 (.execute lostName) host [] m rfl hm⟩

end Session

end Playscript

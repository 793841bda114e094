/-
# Names are set in the scope that a declaration runs in

A frame that is there when an evaluation starts, and stays there, binds the same
names when it ends: assignments change values only, and scopes that are entered on
the way are new frames. Only the scope in use may bind more, and only where
a declaration runs in it. This holds of every frame, whether its construct is at
work or only a closure keeps it; for the latter the frame must not be reclaimed on
the way, since its slot may then be used again (`Visit.Retains`).

A frame is given up where a scope is left, so within a job the claim is about
frames that are there at its end (`Spares`), and a whole job shows its end as that
of a visit (`Guards`).

Key definitions: `Lasts`, `Spares`, `Guards`, `Visit.Retains`, `Visit.Preserves`.
Key theorems: `guards_visits`, `Visit.preserves`.
-/
import Playscript.Proofs.Modules.Binding
import Playscript.Proofs.Tree.Placement

namespace Playscript

open Eval Job

/-! ### Frames that stay -/

/-- The frame in a slot is there at the end of each of some visits. -/
def Lasts (vs : List Visit) (s : Slot) : Prop := ∀ v ∈ vs, (v.answer.2.arena.frame? s).isSome

theorem Lasts.append {vs ws : List Visit} {s : Slot} :
    Lasts (vs ++ ws) s ↔ Lasts vs s ∧ Lasts ws s := List.forall_mem_append

/-- What an evaluation under way leaves of the names of frames: those that are there at its end
bind what they have bound, the scope in use perhaps more. Frames at work stay. -/
structure Spares (sets : Bool) (host : Host) (vs : List Visit) (m n : Machine) : Prop where
  settles : Settles host vs m n
  names : host.reclaims = true → m.arena.Sturdy → ∀ s, (m.arena.frame? s).isSome → Lasts vs s →
    (n.arena.frame? s).isSome → (sets = true → s ≠ m.current) →
      (n.arena.bindings s).binds = (m.arena.bindings s).binds
  lasts : host.reclaims = true → m.arena.Sturdy → ∀ s, m.arena.Live s → Lasts vs s

/-- The same of a whole job: a frame that lasts through its visits is there at its end. -/
structure Guards (sets : Bool) (host : Host) (vs : List Visit) (m n : Machine) : Prop extends
    Spares sets host vs m n where
  stays : host.reclaims = true → m.arena.Sturdy → ∀ s, (m.arena.frame? s).isSome → Lasts vs s →
    (n.arena.frame? s).isSome

variable {sets : Bool} {host : Host} {vs ws : List Visit} {m n o : Machine}

theorem Spares.loosen (h : Spares false host vs m n) : Spares true host vs m n :=
  ⟨h.settles, fun hreclaims hm s hs hvs hn _ => h.names hreclaims hm s hs hvs hn nofun, h.lasts⟩

theorem Guards.loosen (h : Guards false host vs m n) : Guards true host vs m n :=
  ⟨h.toSpares.loosen, h.stays⟩

theorem Guards.of_steady (h : m.Steady n)
    (hnames : sets = false → (n.arena.bindings m.current).binds =
      (m.arena.bindings m.current).binds) : Guards sets host [] m n where
  settles := .of_steady h
  names _ _ s _ _ _ hne := by
    by_cases hs : s = m.current
    · subst hs
      exact hnames (by simpa using hne)
    · exact h.names s hs
  lasts _ _ _ _ := List.forall_mem_nil _
  stays _ _ s hs _ := by rwa [h.frames.isSome]

/-- A whole job, and what is left after it. -/
theorem Guards.trans (h : Guards sets host vs m n) (h' : Spares sets host ws n o) :
    Spares sets host (vs ++ ws) m o where
  settles := h.settles.trans h'.settles
  names hreclaims hm s hs hlasts ho hne := by
    obtain ⟨hvs, hws⟩ := Lasts.append.1 hlasts
    have hn := h.stays hreclaims hm s hs hvs
    have hsturdy := (h.settles.frames hreclaims hm).sturdy
    rw [h'.names hreclaims hsturdy s hn hws ho (h.settles.scope ▸ hne)]
    exact h.names hreclaims hm s hs hvs hn hne
  lasts hreclaims hm s hs := by
    have hn := h.settles.frames hreclaims hm
    exact Lasts.append.2 ⟨h.lasts hreclaims hm s hs,
      h'.lasts hreclaims hn.sturdy s ((hn.live s).2 hs)⟩

/-- A scope of its own: its frame is new, and so no frame that was there before. -/
theorem Spares.leave {parent : Slot} (held : List Value)
    (h : Spares true host vs (m.enter parent) n) :
    Spares false host vs m (n.leave host held m.current) where
  settles := h.settles.leave held
  names hreclaims hm s hs hlasts hend _ := by
    have hne : s ≠ m.arena.next := by
      rintro rfl
      rw [hm.ledger.frame?_next] at hs
      cases hs
    rw [Machine.leave, if_pos hreclaims] at hend ⊢
    obtain ⟨hn, hbindings⟩ := Arena.bindings_release hend
    have hpush : ((m.arena.push parent).2.frame? s).isSome :=
      (hm.ledger.isSome_push parent s).2 (.inr hs)
    calc ((n.arena.release (n.outside held) n.current).bindings s).binds
        = (n.arena.bindings s).binds := by rw [hbindings]
      _ = ((m.arena.push parent).2.bindings s).binds :=
          h.names hreclaims (hm.push parent) s hpush hlasts hn fun _ heq =>
            hne (heq.trans (Arena.push_fst _ _))
      _ = (m.arena.bindings s).binds := by
          rw [Arena.bindings_push (fun t => hm.ledger.lt_size) parent (Ne.symm hne)]
  lasts hreclaims hm s hs :=
    h.lasts hreclaims (hm.push parent) s (hm.ledger.live_push.2 (.inr hs))

/-- A job under way, and the visit that it is. -/
theorem Spares.visit {v : Visit} (hhost : v.host = host) (hmachine : v.machine = m)
    (hanswer : v.answer.2 = n) (h : Spares sets host vs m n) : Guards sets host (v :: vs) m n where
  settles := h.settles.cons hhost hmachine
  names hreclaims hm s hs hlasts := h.names hreclaims hm s hs (List.forall_mem_cons.1 hlasts).2
  lasts hreclaims hm s hs := by
    refine List.forall_mem_cons.2 ⟨?_, h.lasts hreclaims hm s hs⟩
    rw [hanswer]
    exact (((h.settles.frames hreclaims hm).live s).2 hs).isSome
  stays _ _ s _ hlasts := hanswer ▸ (List.forall_mem_cons.1 hlasts).1

/-- What changes nothing about scopes and frames. -/
theorem Guards.keepModule (m : Machine) (policy : CachePolicy) (path : String)
    (kept : CachedModule) : Guards false host [] m (m.keepModule policy path kept) := by
  have harena : (m.keepModule policy path kept).arena = m.arena := by
    unfold Machine.keepModule
    split <;> rfl
  refine ⟨⟨.keepModule m policy path kept, fun _ _ s _ _ _ _ => by rw [harena],
    fun _ _ _ _ => List.forall_mem_nil _⟩, fun _ _ s hs _ => by rwa [harena]⟩

/-! ### Jobs -/

/-- What an evaluation under way spares, with what it visits. -/
def SparesBy (sets : Bool) {α : Type} (x : Eval α) (tr : Trace) : Prop :=
  ∀ host held m, Spares sets host (tr host held m) m (x host held m).2

/-- What a whole job guards. -/
def GuardsBy (sets : Bool) {α : Type} (x : Eval α) (tr : Trace) : Prop :=
  ∀ host held m, Guards sets host (tr host held m) m (x host held m).2

theorem GuardsBy.andThen {α β : Type} {x : Eval α} {k : α → Eval β} {first : Trace}
    {rest : α → Trace} (hx : GuardsBy sets x first) (hk : ∀ a, SparesBy sets (k a) (rest a)) :
    SparesBy sets (x >>= k) (.andThen x first rest) := by
  intro host held m
  have hx := hx host held m
  show Spares sets host (Trace.andThen x first rest host held m) m (Eval.bind x k host held m).2
  unfold Trace.andThen Eval.bind
  generalize x host held m = r at hx
  obtain ⟨outcome, n⟩ := r
  cases outcome with
  | done a => exact hx.trans (hk a host held n)
  | failed fault => exact (List.append_nil (first host held m)).symm ▸ hx.toSpares
  | exhausted => exact (List.append_nil (first host held m)).symm ▸ hx.toSpares

theorem SparesBy.inScope {α : Type} {x : Eval α} {tr : Trace} (parent : Slot)
    (values : α → List Value) (hx : SparesBy true x tr) :
    SparesBy false (Eval.inScope parent values x) (.inScope parent tr) := by
  intro host held m
  have hx := hx host held (m.enter parent)
  unfold Eval.inScope Trace.inScope
  dsimp only
  generalize x host held (m.enter parent) = r at hx
  obtain ⟨outcome, n⟩ := r
  cases outcome <;> exact hx.leave _

theorem guards_cord : Cord GuardsBy SparesBy where
  still hx host held m := .of_steady (hx.steady host held m) fun hsets => hx.names hsets host held m
  rest hx host held m := (hx host held m).toSpares
  loosen hx host held m := (hx host held m).loosen
  loosenRest hx host held m := (hx host held m).loosen
  andThen := GuardsBy.andThen
  holding vs hx host held m := hx host (vs ++ held) m
  holdingRest vs hx host held m := hx host (vs ++ held) m
  inScope := .inScope
  inModule path hx host held m :=
    have h := hx host held (m.beginModule path)
    ⟨h.settles.endModule, h.names, h.lasts⟩
  keep path digest exports host held m := by
    rw [run_keep]
    exact .keepModule m _ _ _

/-- Every job leaves the frames that last the names they bind, and only a job that may declare
adds names, in the scope in use. -/
theorem guards_visits (bound : Nat) (t : Job) :
    GuardsBy t.declares (t.run bound) (visits bound t) := by
  refine guards_cord.visits (fun t host held m => ?_) (fun bound s hs host held m => ?_)
    (fun bound e he host held m => ?_) (fun bound t _ ht host held m => ?_) bound t
  · have hstill : Still t.declares (t.run 0) := still_run_zero t
    exact (guards_cord.still hstill host held m).toSpares.visit rfl rfl rfl
  · refine Spares.visit rfl rfl rfl ?_
    rw [Eval.execute, machine_claiming]
    exact (hs host held m).toSpares
  · refine Spares.visit rfl rfl rfl ?_
    rw [Eval.evaluate, machine_claiming]
    exact (he host held m).toSpares
  · exact (ht host held m).visit rfl rfl rfl

/-! ### Frames and visits -/

/-- A visit of a host that reclaims, on an arena in order and in a scope at work. -/
structure Visit.Working (v : Visit) : Prop extends v.Orderly where
  live : v.machine.arena.Live v.machine.current

namespace Visit

variable {v : Visit} {s : Slot}

/-- A frame is there when a visit starts, and is not reclaimed up to its end. -/
structure Retains (v : Visit) (s : Slot) : Prop where
  found : (v.machine.arena.frame? s).isSome
  lasts : Lasts v.visits s

/-- A frame binds the same names after a visit as before. -/
def Preserves (v : Visit) (s : Slot) : Prop :=
  (v.answer.2.arena.bindings s).binds = (v.machine.arena.bindings s).binds

theorem guards (v : Visit) : Guards v.job.declares v.host v.visits v.machine v.answer.2 :=
  guards_visits v.bound v.job v.host v.held v.machine

theorem preserves (hv : v.Orderly) (hs : v.Retains s)
    (hne : v.job.declares = true → s ≠ v.machine.current) : v.Preserves s := by
  have hguards := v.guards
  have hend := hguards.stays hv.reclaims hv.sturdy s hs.found hs.lasts
  exact hguards.names hv.reclaims hv.sturdy s hs.found hs.lasts hend hne

/-- A frame at work is not reclaimed. -/
theorem retains_of_live (hv : v.Orderly) (hs : v.machine.arena.Live s) : v.Retains s :=
  ⟨hs.isSome, v.guards.lasts hv.reclaims hv.sturdy s hs⟩

theorem scope_eq (v : Visit) : v.answer.2.current = v.machine.current := v.guards.settles.scope

/-- The scope in use is at work at the end as well. -/
theorem live_scope (hv : v.Working) : v.answer.2.arena.Live v.answer.2.current := by
  rw [scope_eq]
  exact ((v.guards.settles.frames hv.reclaims hv.sturdy).live _).2 hv.live

/-- What may not declare adds no names to the scope in use. -/
theorem adds_nil (hv : v.Working) (hsets : v.job.declares = false) :
    v.machine.Adds v.answer.2 [] :=
  .nil (preserves hv.toOrderly (retains_of_live hv.toOrderly hv.live) fun h => by
    rw [hsets] at h
    cases h)

end Visit

end Playscript

/-
# Two machines that agree

One machine reclaims frames and the other never does. They agree when the first
is sound, its arena is mirrored in the second's, and all else is the same:
files, clock, lines written, and, with closures moved, what modules export.
What is done to both keeps them in agreement (`Agrees.define`, `Agrees.enter`,
`Agrees.leave` and the like), although only the first gives slots back.

A pairing resumes another when the frames that were at work still are, and they
and the closures in hand have kept their places.

Key definitions: `Pairing`, `Pairing.Agrees`, `Pairing.Resumes`.
Key theorems: `Agrees.get?`, `Agrees.enter`, `Agrees.leave`, `Resumes.trans`.
-/
import Playscript.Proofs.Pairing.Mirroring
import Playscript.Proofs.Machine.Soundness

namespace Playscript

/-- A host that reclaims frames. -/
def Host.reclaiming (host : Host) : Host := { host with reclaims := true }

/-- A host that never reclaims a frame. -/
def Host.lavish (host : Host) : Host := { host with reclaims := false }

@[simp] theorem Host.settings_reclaiming (host : Host) :
    host.reclaiming.settings = host.settings := rfl

@[simp] theorem Host.disk_reclaiming (host : Host) : host.reclaiming.disk = host.disk := rfl

@[simp] theorem Host.settings_lavish (host : Host) : host.lavish.settings = host.settings := rfl

@[simp] theorem Host.disk_lavish (host : Host) : host.lavish.disk = host.disk := rfl

/-- Two machines, and where the frames of the left one are in the right one. -/
structure Pairing where
  place : Slot → Slot
  left : Machine
  right : Machine

namespace Pairing

/-- The left machine is sound and mirrored in the right one while some values are in hand. -/
structure Agrees (σ : Pairing) (held : List Value) : Prop where
  sound : σ.left.Sound held
  shape : σ.right.arena.WellShaped
  mirrors : σ.left.arena.Mirrors σ.place σ.right.arena
  current : σ.right.current = σ.place σ.left.current
  fresh : σ.right.fresh = σ.left.fresh
  modules : σ.right.modules = σ.left.modules.relocate σ.place
  files : σ.right.files = σ.left.files
  clock : σ.right.clock = σ.left.clock
  output : σ.right.output = σ.left.output
  errors : σ.right.errors = σ.left.errors

/-- The frames at work in the first pairing are those at work in the second, and they and the
closures in hand have kept their places. -/
structure Resumes (σ : Pairing) (held : List Value) (τ : Pairing) : Prop where
  current : τ.left.current = σ.left.current
  live : ∀ s, τ.left.arena.Live s ↔ σ.left.arena.Live s
  place : ∀ s, σ.left.arena.Live s → τ.place s = σ.place s
  held : ∀ c ∈ Value.placesAll held, τ.place c.frame = σ.place c.frame

/-- A pairing with its machines changed. -/
def change (σ : Pairing) (f g : Machine → Machine) : Pairing :=
  { σ with left := f σ.left, right := g σ.right }

/-- A pairing in which both machines have started a scope. -/
def enter (σ : Pairing) (p : Slot) : Pairing where
  place := Function.update σ.place σ.left.arena.next σ.right.arena.next
  left := σ.left.enter p
  right := σ.right.enter (σ.place p)

variable {σ τ υ : Pairing} {held more : List Value} {c : Closure} {s t p : Slot} {v : Value}

/-! ### Resuming -/

theorem Resumes.refl (σ : Pairing) (held : List Value) : σ.Resumes held σ :=
  ⟨rfl, fun _ => .rfl, fun _ _ => rfl, fun _ _ => rfl⟩

theorem Resumes.trans (h : σ.Resumes held τ) (h' : τ.Resumes held υ) : σ.Resumes held υ where
  current := h'.current.trans h.current
  live s := (h'.live s).trans (h.live s)
  place s hs := (h'.place s ((h.live s).2 hs)).trans (h.place s hs)
  held c hc := (h'.held c hc).trans (h.held c hc)

theorem Resumes.drop (h : σ.Resumes held τ) (hsub : ∀ v ∈ more, v ∈ held) :
    σ.Resumes more τ where
  current := h.current
  live := h.live
  place := h.place
  held c hc := by
    obtain ⟨v, hv, hc⟩ := Value.mem_placesAll.1 hc
    exact h.held c (Value.mem_placesAll.2 ⟨v, hsub v hv, hc⟩)

/-- Values in hand have kept their places. -/
theorem Resumes.relocate (h : σ.Resumes held τ) (hv : v ∈ held) :
    v.relocate τ.place = v.relocate σ.place :=
  Value.relocate_congr v fun c hc => h.held c (Value.mem_placesAll.2 ⟨v, hv, hc⟩)

/-! ### Values in hand -/

theorem Agrees.hold (h : σ.Agrees held)
    (hsub : ∀ c ∈ Value.placesAll more, σ.left.Living held c) : σ.Agrees more :=
  { h with sound := h.sound.hold hsub }

theorem Agrees.drop (h : σ.Agrees held) (hsub : ∀ v ∈ more, v ∈ held) : σ.Agrees more :=
  { h with sound := h.sound.drop hsub }

/-- Something whose closures live may be taken in hand. -/
theorem Agrees.take (h : σ.Agrees held)
    (hsub : ∀ c ∈ Value.placesAll more, σ.left.Living held c) : σ.Agrees (more ++ held) :=
  h.hold fun c hc => (Value.mem_placesAll_append.1 hc).elim (hsub c) .of_held

/-- What has been taken in hand may be let go. -/
theorem Agrees.right (h : σ.Agrees (more ++ held)) : σ.Agrees held :=
  h.drop fun _ => List.mem_append_right more

theorem Agrees.tail (h : σ.Agrees (v :: held)) : σ.Agrees held :=
  h.drop fun _ => List.mem_cons_of_mem v

/-- A value that holds no closure may be taken in hand. -/
theorem Agrees.cons (h : σ.Agrees held) (hv : v.places = []) : σ.Agrees (v :: held) :=
  h.hold fun c hc => by
    rcases Value.mem_placesAll_cons.1 hc with hc | hc
    · rw [hv] at hc; cases hc
    · exact .of_held hc

/-! ### Looking names up -/

theorem Agrees.isSome_current (h : σ.Agrees held) :
    (σ.left.arena.frame? σ.left.current).isSome := h.sound.current.isSome

theorem Agrees.get? (h : σ.Agrees held) (name : String) :
    σ.right.get? name = (σ.left.get? name).map (Value.relocate σ.place) := by
  rw [Machine.get?, Machine.get?, h.current]
  exact h.mirrors.get? h.sound.shape.tree h.shape.tree h.isSome_current name

theorem Agrees.bindings (h : σ.Agrees held) :
    σ.right.arena.bindings σ.right.current =
      (σ.left.arena.bindings σ.left.current).relocate σ.place := by
  rw [h.current]
  exact h.mirrors.bindings h.isSome_current

/-! ### Changing both machines -/

theorem Agrees.setName (h : σ.Agrees held) (hs : (σ.left.arena.frame? s).isSome) (name : String)
    (hv : v ∈ held) :
    (σ.change (fun m => { m with arena := m.arena.define s name v }) fun m =>
      { m with arena := m.arena.define (σ.place s) name (v.relocate σ.place) }).Agrees held :=
  { h with
    sound := h.sound.define name fun _ hc => .of_mem hv hc
    shape := h.shape.define _ _ _
    mirrors := h.mirrors.define hs name v }

theorem Resumes.setName (σ : Pairing) (held : List Value) (s : Slot) (name : String) (v : Value)
    (g : Machine → Machine) :
    σ.Resumes held (σ.change (fun m => { m with arena := m.arena.define s name v }) g) where
  current := rfl
  live _ := Arena.live_modify (u := Frame.define name v) fun _ => rfl
  place _ _ := rfl
  held _ _ := rfl

theorem Resumes.define (σ : Pairing) (held : List Value) (name : String) (v : Value)
    (g : Machine → Machine) : σ.Resumes held (σ.change (·.define name v) g) :=
  .setName σ held σ.left.current name v g

theorem Agrees.define (h : σ.Agrees held) (name : String) (hv : v ∈ held) :
    (σ.change (fun m => m.define name v) fun m =>
      m.define name (v.relocate σ.place)).Agrees held := by
  have hset := h.setName h.isSome_current name hv
  rw [← h.current] at hset
  exact hset

theorem Agrees.capture (h : σ.Agrees held) (hid : c.identity = σ.left.fresh)
    (hhome : c.frame = σ.left.current) :
    (σ.change (fun m => { m with fresh := m.fresh + 1, arena := m.arena.capture m.current m.fresh })
      fun m => { m with fresh := m.fresh + 1, arena := m.arena.capture m.current m.fresh }).Agrees
        (.closure c :: held) :=
  { h with
    sound := h.sound.capture hid hhome
    shape := h.shape.capture _ _
    mirrors := by
      show (σ.left.arena.capture _ _).Mirrors σ.place (σ.right.arena.capture _ _)
      rw [h.current, h.fresh]
      exact h.mirrors.capture h.isSome_current _
    fresh := congrArg (· + 1) h.fresh }

theorem Resumes.capture (σ : Pairing) (held : List Value) (g : Machine → Machine) :
    σ.Resumes held (σ.change
      (fun m => { m with fresh := m.fresh + 1, arena := m.arena.capture m.current m.fresh })
      g) where
  current := rfl
  live _ := Arena.live_modify (u := Frame.capture σ.left.fresh) fun _ => rfl
  place _ _ := rfl
  held _ _ := rfl

theorem Agrees.keep (h : σ.Agrees held) (path digest : String) {exports : Bindings}
    (he : ∀ c ∈ exports.places, σ.left.Living held c) :
    (σ.change (fun m => { m with modules := m.modules.insert path ⟨digest, exports⟩ }) fun m =>
      { m with modules := m.modules.insert path ⟨digest, exports.relocate σ.place⟩ }).Agrees
        held :=
  { h with
    sound := h.sound.keep path digest he
    modules := by
      show σ.right.modules.insert _ _ = (σ.left.modules.insert _ _).relocate σ.place
      rw [ModuleCache.insert_relocate, h.modules] }

theorem Agrees.writeLine (h : σ.Agrees held) (line : String) :
    (σ.change (fun m => { m with output := m.output.push line }) fun m =>
      { m with output := m.output.push line }).Agrees held :=
  { h with
    sound := h.sound.congr rfl rfl rfl rfl
    output := congrArg (·.push line) h.output }

theorem Agrees.report (h : σ.Agrees held) (lines : List String) :
    (σ.change (fun m => { m with errors := lines.foldl Array.push m.errors }) fun m =>
      { m with errors := lines.foldl Array.push m.errors }).Agrees held :=
  { h with
    sound := h.sound.congr rfl rfl rfl rfl
    errors := congrArg (lines.foldl Array.push) h.errors }

theorem Agrees.setClock (h : σ.Agrees held) (clock : Clock) :
    (σ.change (fun m => { m with clock }) fun m => { m with clock }).Agrees held :=
  { h with
    sound := h.sound.congr rfl rfl rfl rfl
    clock := rfl }

theorem Agrees.beginModule (h : σ.Agrees held) (path : String) :
    (σ.change (·.beginModule path) (·.beginModule path)).Agrees held :=
  { h with
    sound := h.sound.congr rfl rfl rfl rfl
    modules := by
      show ({ σ.right.modules with loading := path :: σ.right.modules.loading } : ModuleCache) = _
      rw [h.modules]
      rfl
    files := congrArg (path :: ·) h.files }

theorem Agrees.endModule (h : σ.Agrees held) :
    (σ.change Machine.endModule Machine.endModule).Agrees held :=
  { h with
    sound := h.sound.congr rfl rfl rfl rfl
    modules := by
      show ({ σ.right.modules with loading := σ.right.modules.loading.tail } : ModuleCache) = _
      rw [h.modules]
      rfl
    files := congrArg List.tail h.files }

/-! ### Scopes -/

/-- Frames that are there keep their places when a scope starts. -/
theorem Agrees.place_enter (h : σ.Agrees held) (hs : (σ.left.arena.frame? s).isSome) (p : Slot) :
    (σ.enter p).place s = σ.place s := by
  refine Function.update_of_ne ?_ _ _
  rintro rfl
  rw [h.sound.shape.ledger.frame?_next] at hs
  cases hs

/-- Values in hand keep their places when a scope starts. -/
theorem Agrees.relocateAll_enter (h : σ.Agrees (more ++ held)) (p : Slot) :
    Value.relocateAll (σ.enter p).place more = Value.relocateAll σ.place more :=
  Value.relocateAll_congr more fun _ hc =>
    h.place_enter (h.sound.isSome (.of_held (Value.mem_placesAll_append.2 (.inl hc)))) p

theorem Agrees.enter (h : σ.Agrees held) (hp : (σ.left.arena.frame? p).isSome) :
    (σ.enter p).Agrees held :=
  { h with
    sound := h.sound.enter hp
    shape := h.shape.push (h.mirrors.isSome hp)
    mirrors := h.mirrors.push h.sound.shape h.shape.ledger h.sound.secure hp
    current := by
      show (σ.right.enter _).current = (σ.enter p).place (σ.left.enter p).current
      rw [Machine.current_enter, Machine.current_enter]
      exact (Function.update_self (f := σ.place) σ.left.arena.next σ.right.arena.next).symm
    modules := by
      refine Eq.trans h.modules (ModuleCache.relocate_congr fun d hd => ?_)
      refine (h.place_enter (h.sound.isSome ?_) p).symm
      exact Machine.living_iff.2 (.inr (.inl hd)) }

theorem Agrees.leave (h : σ.Agrees held) (hback : σ.left.arena.Live t)
    (hne : t ≠ σ.left.current) (host : Host) (lavishly : List Value) :
    (σ.change (fun m => m.leave host.reclaiming held t) fun m =>
      m.leave host.lavish lavishly (σ.place t)).Agrees held :=
  { h with
    sound := h.sound.leave host.reclaiming hback hne
    shape := h.shape
    mirrors := h.mirrors.release _ _
    current := rfl }

theorem Agrees.collect (h : σ.Agrees held) (host : Host) (lavishly : List Value) :
    (σ.change (fun m => m.collect host.reclaiming held) fun m =>
      m.collect host.lavish lavishly).Agrees held :=
  { h with
    sound := h.sound.collect host.reclaiming
    shape := h.shape
    mirrors := h.mirrors.collect _ }

/-- What runs in a scope between its start and its end resumes the frames around it. -/
theorem Resumes.scope (hσ : σ.Agrees held) (h : (σ.enter p).Resumes held τ) (host : Host)
    (more : List Value) (g : Machine → Machine) :
    σ.Resumes held
      (τ.change (fun m => m.leave host.reclaiming more σ.left.current) g) := by
  have hledger := hσ.sound.shape.ledger
  have hnext : ∀ s, σ.left.arena.Live s → s ≠ σ.left.arena.next := by
    intro s hs heq
    have := hs.isSome
    rw [heq, hledger.frame?_next] at this
    cases this
  have hcurrent : τ.left.current = σ.left.arena.next :=
    h.current.trans (Machine.current_enter _ _)
  have hroot : τ.left.current ≠ Arena.root := by
    intro heq
    have := hσ.sound.shape.tree.root
    rw [← heq, hcurrent, hledger.frame?_next] at this
    cases this
  refine ⟨rfl, fun s => ?_, fun s hs => ?_, fun c hc => ?_⟩
  · show (τ.left.arena.release _ τ.left.current).Live s ↔ _
    rw [Arena.live_release hroot, h.live, hcurrent]
    show _ ∧ (σ.left.arena.push p).2.Live s ↔ _
    rw [hledger.live_push]
    exact ⟨fun ⟨hne, hs⟩ => hs.resolve_left hne, fun hs => ⟨hnext s hs, .inr hs⟩⟩
  · exact (h.place s (hledger.live_push.2 (.inr hs))).trans (hσ.place_enter hs.isSome p)
  · exact (h.held c hc).trans (hσ.place_enter (hσ.sound.isSome (.of_held hc)) p)

end Pairing
end Playscript

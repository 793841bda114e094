/-
# What holds of a machine at every moment

A machine is sound when its arena is well-shaped, every living closure is
remembered by the frame it was made in and by no other, no two living closures
have one identity, and the frame in use is at work. What the values in hand are
makes a difference: only values whose closures live may be held. Each thing an
evaluation does to a machine keeps it sound, entering and leaving scopes
included.

Key definitions: `Machine.Living`, `Machine.Sound`.
Key theorems: `Sound.isSome_collect`, `Sound.define`, `Sound.capture`, `Sound.enter`,
`Sound.leave`, `Sound.collect`.
-/
import Playscript.Machine.Eval
import Playscript.Proofs.Arena.Collecting
import Playscript.Proofs.Arena.Keeping

namespace Playscript
namespace Machine

variable {m n : Machine} {held more : List Value} {c : Closure} {s t p : Slot}

/-- A closure in hand, in what a module exports, or bound in a frame. -/
def Living (m : Machine) (held : List Value) (c : Closure) : Prop :=
  m.arena.Living (m.outside held) c

/-- Living closures are remembered where they were made and nowhere else, each has an identity of
its own, and the frame in use is at work. -/
structure Sound (m : Machine) (held : List Value) : Prop where
  shape : m.arena.WellShaped
  secure : m.arena.Secure (m.outside held)
  home : m.arena.Homed (m.outside held)
  dated : ∀ s f, m.arena.frame? s = some f → ∀ i ∈ f.captured, i < m.fresh
  distinct : ∀ c d, m.Living held c → m.Living held d → c.identity = d.identity → c = d
  current : m.arena.Live m.current

/-! ### Living closures -/

theorem living_iff : m.Living held c ↔
    c ∈ Value.placesAll held ∨ m.arena.Living m.modules.values c := by
  simp only [Living, Arena.Living, outside, Value.mem_placesAll_append, or_assoc]

theorem Living.of_held (h : c ∈ Value.placesAll held) : m.Living held c := living_iff.2 (.inl h)

theorem Living.of_mem {v : Value} (hv : v ∈ held) (h : c ∈ v.places) : m.Living held c :=
  .of_held (Value.mem_placesAll.2 ⟨v, hv, h⟩)

/-- What is living while some values are held is living while more are. -/
theorem Living.mono (h : m.Living held c)
    (hsub : ∀ d ∈ Value.placesAll held, m.Living more d) : m.Living more c := by
  rcases living_iff.1 h with hc | hc
  · exact hsub c hc
  · exact living_iff.2 (.inr hc)

theorem Living.of_bindings (h : c ∈ (m.arena.bindings s).places) : m.Living held c := by
  rw [Arena.bindings] at h
  rcases hf : m.arena.frame? s with _ | f <;> rw [hf] at h
  · cases h
  · exact living_iff.2 (.inr (.inr ⟨s, f, hf, h⟩))

theorem Living.of_get? {name : String} {v : Value} (hget : m.get? name = some v)
    (hc : c ∈ v.places) : m.Living held c := by
  obtain ⟨o, -, hv⟩ := Option.bind_eq_some_iff.1 hget
  exact .of_bindings (Value.mem_placesAll.2 ⟨v, Bindings.mem_values_of_get? hv, hc⟩)

/-! ### What keeps a machine sound -/

/-- A living closure is as old as the machine says. -/
theorem Sound.identity_lt (h : m.Sound held) (hc : m.Living held c) : c.identity < m.fresh := by
  obtain ⟨f, hf, hmem⟩ := h.secure c hc
  exact h.dated _ f hf _ hmem

theorem Sound.isSome (h : m.Sound held) (hc : m.Living held c) :
    (m.arena.frame? c.frame).isSome := (h.secure c hc).isSome

/-- A sound machine captures every living closure where it was made and nowhere else. -/
theorem Sound.tethered (h : m.Sound held) : m.arena.Tethered (m.outside held) := by
  intro c hc s
  constructor
  · intro hmem
    rcases hf : m.arena.frame? s with _ | f
    · simp [Arena.captured, hf] at hmem
    · exact (h.home s f hf c hc (Arena.captured_of_frame? hf ▸ hmem)).symm
  · rintro rfl
    obtain ⟨f, hf, hmem⟩ := h.secure c hc
    rwa [Arena.captured_of_frame? hf]

/-- So a collection of it leaves exactly what is reached from the root, from the frames at work,
and from the closures in hand, in what modules export and in the defaults of capsules. -/
theorem Sound.isSome_collect (h : m.Sound held) :
    ((m.arena.collect (m.outside held)).frame? s).isSome ↔
      m.arena.Reaches (m.arena.Starts (m.outside held)) s :=
  Arena.isSome_collect_iff_reaches h.shape h.tethered

theorem Sound.start (clock : Clock) : (Machine.start clock).Sound [] := by
  have hframe : ∀ s f, (Machine.start clock).arena.frame? s = some f → f = .inside none := by
      intro s f hf
      change Arena.empty.frame? s = some f at hf
      rw [Arena.frame?_empty] at hf
      split at hf <;> cases hf
      rfl
  have hliving : ∀ c, ¬ (Machine.start clock).Living [] c := by
    intro c hc
    rcases hc with hc | ⟨s, f, hf, hc⟩
    · cases hc
    · rw [hframe s f hf] at hc
      cases hc
  refine ⟨.empty, fun c hc => absurd hc (hliving c), fun s f _ c hc => absurd hc (hliving c),
    fun s f hf i hi => ?_, fun c _ hc => absurd hc (hliving c), ⟨.inside none, rfl, rfl⟩⟩
  rw [hframe s f hf] at hi
  cases hi

/-- A machine stays sound when no closure comes to live, nothing is captured, and what lives is
still remembered. -/
theorem Sound.transfer (h : m.Sound held) (hshape : n.arena.WellShaped)
    (hsecure : n.arena.Secure (n.outside more)) (hliving : ∀ c, n.Living more c → m.Living held c)
    (hcaptured : ∀ s f, n.arena.frame? s = some f → f.captured ≠ [] →
      ∃ g, m.arena.frame? s = some g ∧ f.captured = g.captured)
    (hfresh : n.fresh = m.fresh) (hcurrent : n.arena.Live n.current) : n.Sound more where
  shape := hshape
  secure := hsecure
  home s f hf c hc hmem := by
    obtain ⟨g, hg, hfg⟩ := hcaptured s f hf (List.ne_nil_of_mem hmem)
    exact h.home s g hg c (hliving c hc) (hfg ▸ hmem)
  dated s f hf i hmem := by
    obtain ⟨g, hg, hfg⟩ := hcaptured s f hf (List.ne_nil_of_mem hmem)
    rw [hfresh]
    exact h.dated s g hg i (hfg ▸ hmem)
  distinct c d hc hd := h.distinct c d (hliving c hc) (hliving d hd)
  current := hcurrent

/-- Only living closures may be held. -/
theorem Sound.hold (h : m.Sound held) (hsub : ∀ c ∈ Value.placesAll more, m.Living held c) :
    m.Sound more := by
  have hliving : ∀ c, m.Living more c → m.Living held c := fun c hc => hc.mono hsub
  exact h.transfer h.shape (fun c hc => h.secure c (hliving c hc)) hliving
    (fun s f hf _ => ⟨f, hf, rfl⟩) rfl h.current

/-- What is held may be let go. -/
theorem Sound.drop (h : m.Sound held) (hsub : ∀ v ∈ more, v ∈ held) : m.Sound more :=
  h.hold fun c hc => by
    obtain ⟨v, hv, hc⟩ := Value.mem_placesAll.1 hc
    exact .of_mem (hsub v hv) hc

/-- Nothing but the arena, the frame in use, the count of closures and the modules matters. -/
theorem Sound.congr (h : m.Sound held) (harena : n.arena = m.arena)
    (hcurrent : n.current = m.current) (hfresh : n.fresh = m.fresh)
    (hmodules : n.modules.entries = m.modules.entries) : n.Sound held := by
  have hvalues : n.modules.values = m.modules.values := by
    simp only [ModuleCache.values, hmodules]
  have hliving : ∀ c, n.Living held c → m.Living held c := by
    intro c hc
    rw [living_iff, harena, hvalues] at hc
    exact living_iff.2 hc
  refine h.transfer (harena ▸ h.shape) (fun c hc => ?_) hliving (fun s f hf _ => ⟨f, ?_, rfl⟩)
    hfresh (by rw [harena, hcurrent]; exact h.current)
  · rw [harena]
    exact h.secure c (hliving c hc)
  · rwa [harena] at hf

theorem Sound.define (h : m.Sound held) (name : String) {v : Value}
    (hv : ∀ c ∈ v.places, m.Living held c) :
    ({ m with arena := m.arena.define s name v } : Machine).Sound held := by
  have hliving : ∀ c, ({ m with arena := m.arena.define s name v } : Machine).Living held c →
      m.Living held c := fun c hc => (Arena.Living.of_define hc).elim id (hv c)
  refine h.transfer (h.shape.define s name v) (fun c hc => ?_) hliving (fun t f hf _ => ?_) rfl
    ((Arena.live_modify (u := Frame.define name v) fun _ => rfl).2 h.current)
  · exact (h.secure c (hliving c hc)).modify (u := Frame.define name v)
      (fun _ => List.Subset.refl _) s
  · change (m.arena.modify s (Frame.define name v)).frame? t = some f at hf
    rw [Arena.frame?_modify] at hf
    split at hf
    · obtain ⟨g, hg, rfl⟩ := Option.map_eq_some_iff.1 hf
      exact ⟨g, hg, rfl⟩
    · exact ⟨f, hf, rfl⟩

theorem Sound.keep (h : m.Sound held) (path digest : String) {exports : Bindings}
    (he : ∀ c ∈ exports.places, m.Living held c) :
    ({ m with modules := m.modules.insert path ⟨digest, exports⟩ } : Machine).Sound held := by
  have hliving : ∀ c,
      ({ m with modules := m.modules.insert path ⟨digest, exports⟩ } : Machine).Living held c →
      m.Living held c := by
    intro c hc
    rcases living_iff.1 hc with hc | hc | hc
    · exact .of_held hc
    · obtain ⟨v, hv, hc⟩ := Value.mem_placesAll.1 hc
      obtain ⟨e, hmem, hv⟩ := List.mem_flatMap.1 hv
      rcases List.mem_cons.1 hmem with rfl | hmem
      · exact he c (Value.mem_placesAll.2 ⟨v, hv, hc⟩)
      · have hv : v ∈ m.modules.values :=
          List.mem_flatMap.2 ⟨e, (List.mem_filter.1 hmem).1, hv⟩
        exact living_iff.2 (.inr (.inl (Value.mem_placesAll.2 ⟨v, hv, hc⟩)))
    · exact living_iff.2 (.inr (.inr hc))
  exact h.transfer h.shape (fun c hc => h.secure c (hliving c hc)) hliving
    (fun s f hf _ => ⟨f, hf, rfl⟩) rfl h.current

theorem Sound.forget (h : m.Sound held) :
    ({ m with modules := m.modules.clear } : Machine).Sound held := by
  have hliving : ∀ c, ({ m with modules := m.modules.clear } : Machine).Living held c →
      m.Living held c := by
    intro c hc
    rcases living_iff.1 hc with hc | hc | hc
    · exact .of_held hc
    · cases hc
    · exact living_iff.2 (.inr (.inr hc))
  exact h.transfer h.shape (fun c hc => h.secure c (hliving c hc)) hliving
    (fun s f hf _ => ⟨f, hf, rfl⟩) rfl h.current

/-- The next closure is remembered by the frame in use. -/
theorem Sound.capture (h : m.Sound held) (hid : c.identity = m.fresh)
    (hhome : c.frame = m.current) :
    ({ m with fresh := m.fresh + 1, arena := m.arena.capture m.current m.fresh } : Machine).Sound
      (.closure c :: held) := by
  obtain ⟨e, he, -⟩ := h.current
  have hliving : ∀ d,
      ({ m with fresh := m.fresh + 1, arena := m.arena.capture m.current m.fresh } : Machine).Living
        (.closure c :: held) d → d = c ∨ m.Living held d := by
    intro d hd
    have hold : m.Living (.closure c :: held) d :=
      (Arena.living_modify (u := Frame.capture m.fresh) fun _ => rfl).1 hd
    rcases living_iff.1 hold with hd | hd
    · rcases Value.mem_placesAll_cons.1 hd with hd | hd
      · exact .inl (List.mem_singleton.1 hd)
      · exact .inr (.of_held hd)
    · exact .inr (living_iff.2 (.inr hd))
  have hframe : ∀ t f, (m.arena.capture m.current m.fresh).frame? t = some f →
      ∃ g, m.arena.frame? t = some g ∧
        ∀ i ∈ f.captured, i = m.fresh ∧ t = m.current ∨ i ∈ g.captured := by
    intro t f hf
    rw [Arena.capture, Arena.frame?_modify] at hf
    split at hf
    · rename_i ht
      obtain ⟨g, hg, rfl⟩ := Option.map_eq_some_iff.1 hf
      exact ⟨g, hg, fun i hi => (List.mem_cons.1 hi).imp_left fun hi => ⟨hi, ht.symm⟩⟩
    · exact ⟨f, hf, fun i hi => .inr hi⟩
  have hold : ∀ d, m.Living held d → d.identity ≠ c.identity := fun d hd =>
    Nat.ne_of_lt (hid ▸ h.identity_lt hd)
  refine ⟨h.shape.capture _ _, fun d hd => ?_, fun s f hf d hd hmem => ?_,
    fun s f hf i hmem => ?_, fun d d' hd hd' heq => ?_,
    (Arena.live_modify (u := Frame.capture m.fresh) fun _ => rfl).2 h.current⟩
  · rcases hliving d hd with rfl | hd
    · refine ⟨e.capture m.fresh, ?_, hid ▸ List.mem_cons_self⟩
      rw [hhome]
      exact Arena.frame?_modify_self he _
    · exact (h.secure d hd).modify (u := Frame.capture m.fresh)
        (fun _ => List.subset_cons_self _ _) m.current
  · obtain ⟨g, hg, hcap⟩ := hframe s f hf
    rcases hliving d hd with rfl | hd
    · rcases hcap _ hmem with ⟨-, hs⟩ | hmem
      · rw [hhome, hs]
      · exact absurd (h.dated s g hg _ hmem) (by rw [hid]; exact Nat.lt_irrefl _)
    · rcases hcap _ hmem with ⟨hid, -⟩ | hmem
      · exact absurd (h.identity_lt hd) (by rw [hid]; exact Nat.lt_irrefl _)
      · exact h.home s g hg d hd hmem
  · obtain ⟨g, hg, hcap⟩ := hframe s f hf
    rcases hcap i hmem with ⟨rfl, -⟩ | hmem
    · exact Nat.lt_succ_self _
    · exact Nat.lt_succ_of_lt (h.dated s g hg i hmem)
  · rcases hliving d hd with rfl | hlives <;> rcases hliving d' hd' with rfl | hlives'
    · rfl
    · exact absurd heq.symm (hold d' hlives')
    · exact absurd heq (hold d hlives)
    · exact h.distinct d d' hlives hlives' heq

/-! ### Scopes -/

@[simp] theorem arena_enter (m : Machine) (p : Slot) : (m.enter p).arena = (m.arena.push p).2 := rfl

@[simp] theorem current_enter (m : Machine) (p : Slot) : (m.enter p).current = m.arena.next :=
  Arena.push_fst m.arena p

theorem Sound.enter (h : m.Sound held) (hp : (m.arena.frame? p).isSome) :
    (m.enter p).Sound held := by
  have hledger := h.shape.ledger
  have hliving : ∀ c, (m.enter p).Living held c → m.Living held c := fun c hc =>
    Arena.Living.of_push hledger hc
  refine h.transfer (h.shape.push hp) (fun c hc => (h.secure c (hliving c hc)).push hledger p)
    hliving (fun t f hf hne => ?_) rfl ?_
  · rw [arena_enter, Arena.frame?_push fun s => hledger.lt_size] at hf
    split at hf
    · cases hf
      exact absurd rfl hne
    · split at hf
      · obtain ⟨g, hg, rfl⟩ := Option.map_eq_some_iff.1 hf
        exact ⟨g, hg, rfl⟩
      · exact ⟨f, hf, rfl⟩
  · rw [current_enter]
    exact hledger.live_push.2 (.inl rfl)

theorem Sound.leave (h : m.Sound held) (host : Host) (hback : m.arena.Live t)
    (hne : t ≠ m.current) : (m.leave host held t).Sound held := by
  unfold Machine.leave
  split
  · refine h.transfer (h.shape.release _ _) (h.secure.release _)
      (fun c hc => Arena.Living.of_release hc) (fun s f hf _ => ?_) rfl (hback.release hne)
    obtain ⟨g, hg, -, -, hcap⟩ := Arena.frame?_release hf
    exact ⟨g, hg, hcap⟩
  · exact h.transfer h.shape h.secure (fun c hc => hc) (fun s f hf _ => ⟨f, hf, rfl⟩) rfl hback

theorem Sound.collect (h : m.Sound held) (host : Host) : (m.collect host held).Sound held := by
  unfold Machine.collect
  split
  · have hprunes := Arena.Prunes.collect m.arena (m.outside held)
    refine h.transfer (h.shape.collect _) h.secure.collect (fun c hc => hprunes.living hc)
      (fun s f hf _ => ?_) rfl (Arena.live_collect.2 h.current)
    obtain ⟨g, hg, hfg⟩ := hprunes.frame s f hf
    exact ⟨g, hg, by rw [hfg]⟩
  · exact h

end Machine
end Playscript

/-
# No closure dangles

A host works on an arena, makes closures over its frames, keeps copies of them
and lets copies go. What the host must see to is that every closure has been
captured at the frame it closes over before frames are released or collected.
Then, at every moment, the frame of every living closure is the one it was made
in, and so are the frames around it: they have never been reclaimed, and so
their slots never used again. Only definitions and assignments change what
these frames bind.

A slot's age is the number of frames it has held, so a slot and its age name
one frame for all time. With every closure the world notes the frames it was
made in (`World.birth`), which the arena itself does not know.

Key definitions: `World`, `World.step`, `World.Reachable`, `World.Intact`.
Key theorems: `World.Sound.step`, `World.reachable_intact`.
-/
import Playscript.Proofs.Arena.Keeping

namespace Playscript

namespace Arena

variable {a b : Arena} {s t : Slot} {w : List Slot}

/-- The way to the root, no longer than `steps`. -/
def wayWithin (a : Arena) : Nat → Slot → List Slot
  | 0, _ => []
  | steps + 1, s =>
    match a.parent? s with
    | some p => s :: wayWithin a steps p
    | none => [s]

/-- The frames from one up to the root. -/
def wayOf (a : Arena) (s : Slot) : List Slot := a.wayWithin a.slots.size s

theorem Way.wayWithin_eq (hroot : a.parent? Arena.root = none) (h : a.Way s w) :
    ∀ steps, w.length ≤ steps → a.wayWithin steps s = w := by
  induction h with
  | root =>
    intro steps hsteps
    obtain ⟨steps, rfl⟩ := Nat.exists_eq_add_of_le' hsteps
    simp [wayWithin, hroot]
  | step hp _ ih =>
    intro steps hsteps
    obtain ⟨steps, rfl⟩ : ∃ n, steps = n + 1 := ⟨steps - 1, by simp at hsteps; omega⟩
    simp only [wayWithin, hp]
    rw [ih steps (by simpa using hsteps)]

theorem Tree.way_wayOf (h : a.Tree) (hs : (a.frame? s).isSome) : a.Way s (a.wayOf s) := by
  obtain ⟨w, hw⟩ := h.way s hs
  rwa [wayOf, hw.wayWithin_eq h.orphan _ (h.length_way_le hs hw)]

end Arena

/-- An arena and the host that works on it. -/
structure World where
  arena : Arena
  /-- The values the host holds. -/
  held : List Value
  /-- The identity of the next closure. -/
  fresh : Nat
  /-- Which closures have been captured in which slots. -/
  captures : List (Nat × Slot)
  /-- How many frames each slot has held after its first. -/
  age : Slot → Nat
  /-- The frames each closure was made in, from the inside out: slots with their ages. -/
  birth : Nat → List (Slot × Nat)

namespace World

/-- A world with nothing but the root frame. -/
def start : World :=
  { arena := .empty, held := [], fresh := 0, captures := [], age := fun _ => 0
    birth := fun _ => [] }

/-- What a host can do. -/
inductive Act where
  | push (parent : Slot)
  | release (s : Slot)
  | collect
  | capture (s : Slot) (c : Closure)
  | define (s : Slot) (name : String) (v : Value)
  | assign (s : Slot) (name : String) (v : Value)
  /-- Makes a closure over a frame, and holds it. -/
  | make (s : Slot) (name : String) (params : List Param) (body : Block Stmt)
  /-- Holds one more copy of a value. -/
  | copy (v : Value)
  /-- Lets the `k`-th value go. -/
  | drop (k : Nat)

/-- Whether an act writes bindings. -/
def Act.writes : Act → Bool
  | define .. | assign .. => true
  | _ => false

/-- The frames from one out to the root, with their ages. -/
def frames (w : World) (s : Slot) : List (Slot × Nat) :=
  (w.arena.wayOf s).map fun t => (t, w.age t)

/-- A closure that the host or a frame holds. -/
def Living (w : World) (c : Closure) : Prop := w.arena.Living w.held c

/-- Whatever lives has been captured at the frame it closes over. -/
def Captured (w : World) : Prop := ∀ c, w.Living c → (c.identity, c.frame) ∈ w.captures

/-- The world after an act. -/
def step (w : World) : Act → World
  | .push p =>
    let (s, arena) := w.arena.push p
    { w with arena, age := Function.update w.age s (w.age s + 1) }
  | .release s => { w with arena := w.arena.release w.held s }
  | .collect => { w with arena := w.arena.collect w.held }
  | .capture s c =>
    { w with arena := w.arena.capture s c.identity, captures := (c.identity, s) :: w.captures }
  | .define s name v => { w with arena := w.arena.define s name v }
  | .assign s name v => { w with arena := (w.arena.assign? s name v).getD w.arena }
  | .make s name params body =>
    { w with
      held := .closure { identity := w.fresh, name, params, body, frame := s } :: w.held
      fresh := w.fresh + 1, birth := Function.update w.birth w.fresh (w.frames s) }
  | .copy v => { w with held := v :: w.held }
  | .drop k => { w with held := w.held.eraseIdx k }

/-- The frames an act is about are there, its values hold living closures only, and nothing is
released or collected while a living closure has not been captured. -/
def Act.Allowed (w : World) : Act → Prop
  | push p => (w.arena.frame? p).isSome
  | release s => (w.arena.frame? s).isSome ∧ w.Captured
  | collect => w.Captured
  | capture s c => (w.arena.frame? s).isSome ∧ w.Living c
  | define s _ v | assign s _ v => (w.arena.frame? s).isSome ∧ ∀ c ∈ v.places, w.Living c
  | make s _ _ _ => (w.arena.frame? s).isSome
  | copy v => ∀ c ∈ v.places, w.Living c
  | drop _ => True

/-- A world that some sequence of acts leads to. -/
inductive Reachable : World → Prop where
  | start : Reachable start
  | step {w : World} {act : Act} : Reachable w → act.Allowed w → Reachable (w.step act)

/-- The frame of a closure and the frames around it are there, and are those it was made in. -/
def Intact (w : World) (c : Closure) : Prop :=
  (w.arena.frame? c.frame).isSome ∧ w.arena.Way c.frame (w.arena.wayOf c.frame) ∧
    (∀ t ∈ w.arena.wayOf c.frame, (w.arena.frame? t).isSome) ∧
    w.frames c.frame = w.birth c.identity

/-! ### What every act keeps -/

/-- What holds of a closure while it lives: its frame is there, remembers the closure if it
was captured there, and has around it the frames it had at first. -/
structure Home (w : World) (c : Closure) : Prop where
  isSome : (w.arena.frame? c.frame).isSome
  remembered : (c.identity, c.frame) ∈ w.captures → w.arena.Remembered c
  birth : ∃ way, w.arena.Way c.frame way ∧ way.map (fun t => (t, w.age t)) = w.birth c.identity
  fresh : c.identity < w.fresh

/-- Every living closure has its home. -/
structure Sound (w : World) : Prop where
  shape : w.arena.WellShaped
  captures : ∀ e ∈ w.captures, e.1 < w.fresh
  home : ∀ c, w.Living c → w.Home c

variable {w : World} {act : Act} {c : Closure} {t : Slot}

theorem Sound.intact (h : w.Sound) (hc : w.Living c) : w.Intact c := by
  obtain ⟨hsome, -, ⟨way, hway, hbirth⟩, -⟩ := h.home c hc
  have hwayOf := h.shape.tree.way_wayOf hsome
  refine ⟨hsome, hwayOf, fun t ht => h.shape.tree.mem_way hsome hwayOf ht, ?_⟩
  rw [frames, hwayOf.unique h.shape.tree.orphan hway, hbirth]

theorem Sound.secure (h : w.Sound) (hcap : w.Captured) : w.arena.Secure w.held :=
  fun c hc => (h.home c hc).remembered (hcap c hc)

theorem Sound.start : start.Sound where
  shape := .empty
  captures _ he := by cases he
  home c hc := by
    rcases hc with hc | ⟨s, f, hf, hc⟩
    · cases hc
    · rw [Arena.frame?_eq_some] at hf
      rcases s with _ | s
      · cases hf; cases hc
      · cases hf

/-- Reclaiming leaves homes as they are. -/
theorem Sound.prune {arena : Arena} (h : w.Sound)
    (hprunes : ∀ c, arena.Living w.held c → w.Living c)
    (hparent : ∀ s way, (arena.frame? s).isSome → w.arena.Way s way → arena.Way s way)
    (hshape : arena.WellShaped) (hsecure : arena.Secure w.held) :
    ({ w with arena } : World).Sound where
  shape := hshape
  captures := h.captures
  home c hc := by
    obtain ⟨-, -, ⟨way, hway, hbirth⟩, hfresh⟩ := h.home c (hprunes c hc)
    have hrem := hsecure c hc
    exact ⟨hrem.isSome, fun _ => hrem, ⟨way, hparent _ way hrem.isSome hway, hbirth⟩, hfresh⟩

/-- Changing a frame otherwise than in its parent leaves homes as they are. -/
theorem Home.modify (h : w.Home c) {u : Frame → Frame} (hp : ∀ f, (u f).parent? = f.parent?)
    (hcap : ∀ f, f.captured ⊆ (u f).captured) (s : Slot) :
    ({ w with arena := w.arena.modify s u } : World).Home c where
  isSome := by simpa using h.isSome
  remembered hmem := (h.remembered hmem).modify hcap s
  birth := by
    obtain ⟨way, hway, hbirth⟩ := h.birth
    exact ⟨way, hway.congr fun t _ => Arena.parent?_modify hp t, hbirth⟩
  fresh := h.fresh

theorem Sound.define (h : w.Sound) (s : Slot) (name : String) {v : Value}
    (hv : ∀ c ∈ v.places, w.Living c) :
    ({ w with arena := w.arena.define s name v } : World).Sound where
  shape := h.shape.define s name v
  captures := h.captures
  home c hc := by
    have hliving : w.Living c := (Arena.Living.of_define hc).elim id (hv c)
    exact (h.home c hliving).modify (u := Frame.define name v) (fun _ => rfl)
      (fun _ => List.Subset.refl _) s

/-- A new frame leaves homes as they are: it takes a vacant slot, and no home is vacant. -/
theorem Home.push (h : w.Home c) (hshape : w.arena.WellShaped) (p : Slot) :
    (w.step (.push p)).Home c := by
  have hpush : (w.step (.push p)).arena = (w.arena.push p).2 := rfl
  obtain ⟨hsome, hrem, ⟨way, hway, hbirth⟩, hfresh⟩ := h
  have hold : ∀ t ∈ way, w.arena.next ≠ t := by
    intro t ht e
    have := hshape.tree.mem_way hsome hway ht
    rw [← e, hshape.ledger.frame?_next] at this
    cases this
  refine ⟨?_, fun hmem => (hrem hmem).push hshape.ledger p, ⟨way, ?_, ?_⟩, hfresh⟩
  · rw [hpush, hshape.ledger.isSome_push]
    exact .inr hsome
  · refine hway.congr fun t ht => ?_
    rw [hpush, hshape.ledger.parent?_push, if_neg (hold t ht)]
  · show way.map _ = w.birth c.identity
    rw [← hbirth]
    refine List.map_congr_left fun t ht => ?_
    have hage : (w.step (.push p)).age t = w.age t := by
      show Function.update w.age (w.arena.push p).1 _ t = _
      rw [Arena.push_fst, Function.update_of_ne (hold t ht).symm]
    rw [hage]

/-- A closure just made is at home. -/
theorem Home.make {s : Slot} {name : String} {params : List Param} {body : Block Stmt}
    (h : w.Sound) (hs : (w.arena.frame? s).isSome) :
    (w.step (.make s name params body)).Home
      { identity := w.fresh, name, params, body, frame := s } where
  isSome := hs
  remembered hmem := absurd (h.captures _ hmem) (Nat.lt_irrefl _)
  birth := by
    refine ⟨_, h.shape.tree.way_wayOf hs, ?_⟩
    show _ = Function.update w.birth w.fresh (w.frames s) w.fresh
    rw [Function.update_self]
    rfl
  fresh := Nat.lt_succ_self _

/-- Making another closure leaves homes as they are. -/
theorem Home.of_make {s : Slot} {name : String} {params : List Param} {body : Block Stmt}
    (h : w.Home c) : (w.step (.make s name params body)).Home c where
  isSome := h.isSome
  remembered := h.remembered
  birth := by
    obtain ⟨way, hway, hbirth⟩ := h.birth
    refine ⟨way, hway, ?_⟩
    show _ = Function.update w.birth w.fresh (w.frames s) c.identity
    rw [Function.update_of_ne (Nat.ne_of_lt h.fresh)]
    exact hbirth
  fresh := Nat.lt_succ_of_lt h.fresh

/-- Capturing a closure leaves homes as they are, and makes its own remember it. -/
theorem Home.capture (h : w.Home c) (s : Slot) (d : Closure) :
    (w.step (.capture s d)).Home c := by
  obtain ⟨hsome, hrem, ⟨way, hway, hbirth⟩, hfresh⟩ := h.modify
    (u := Frame.capture d.identity) (fun _ => rfl) (fun _ => List.subset_cons_self _ _) s
  refine ⟨hsome, fun hmem => ?_, ⟨way, hway, hbirth⟩, hfresh⟩
  rcases List.mem_cons.1 hmem with heq | hmem
  · obtain ⟨hid, rfl⟩ := Prod.mk.injEq _ _ _ _ ▸ heq
    obtain ⟨f, hf⟩ := Option.isSome_iff_exists.1 h.isSome
    exact ⟨_, Arena.frame?_modify_self hf _, by rw [hid]; exact List.mem_cons_self⟩
  · exact hrem hmem

theorem Sound.step (h : w.Sound) (hact : act.Allowed w) : (w.step act).Sound := by
  cases act with
  | push p =>
    refine ⟨h.shape.push hact, h.captures, fun c hc => ?_⟩
    exact (h.home c (Arena.Living.of_push h.shape.ledger hc)).push h.shape p
  | release s =>
    obtain ⟨-, hcap⟩ := hact
    have hshape := h.shape.release w.held s
    have hsecure := (h.secure hcap).release s
    by_cases hs : s = Arena.root
    · have heq : w.arena.release w.held s = w.arena := by
        rw [Arena.release, if_pos (by simpa using hs)]
      refine h.prune (fun c hc => ?_) (fun s way _ hway => ?_) hshape hsecure
      · rwa [heq] at hc
      · rwa [heq]
    · have hprunes := Arena.Prunes.release w.arena w.held hs
      have hfinish := (h.shape.modify s (u := Frame.finish) (fun _ => rfl) fun _ => rfl).tree
      refine h.prune (fun c hc => ?_) (fun t way ht hway => ?_) hshape hsecure
      · exact Arena.Living.of_release hc
      · refine hprunes.way hfinish hshape.tree ht (hway.congr fun u _ => ?_)
        exact Arena.parent?_modify (u := Frame.finish) (fun _ => rfl) u
  | collect =>
    have hprunes := Arena.Prunes.collect w.arena w.held
    have hshape := h.shape.collect w.held
    exact h.prune (fun c hc => hprunes.living hc)
      (fun t way ht hway => hprunes.way h.shape.tree hshape.tree ht hway) hshape
      (h.secure hact).collect
  | capture s d =>
    refine ⟨h.shape.capture s d.identity, fun e he => ?_, fun c hc => ?_⟩
    · rcases List.mem_cons.1 he with rfl | he
      · exact (h.home d hact.2).fresh
      · exact h.captures e he
    · have hliving : w.Living c :=
        (Arena.living_modify (u := Frame.capture d.identity) fun _ => rfl).1 hc
      exact (h.home c hliving).capture s d
  | define s name v => exact h.define s name hact.2
  | assign s name v =>
    show ({ w with arena := (w.arena.assign? s name v).getD w.arena } : World).Sound
    rcases hb : w.arena.assign? s name v with _ | b
    · exact h
    · obtain ⟨o, -, rfl⟩ := Option.map_eq_some_iff.1 hb
      exact h.define o name hact.2
  | make s name params body =>
    refine ⟨h.shape, fun e he => Nat.lt_succ_of_lt (h.captures e he), fun c hc => ?_⟩
    rcases hc with hc | hc
    · obtain ⟨v, hv, hc⟩ := Value.mem_placesAll.1 hc
      rcases List.mem_cons.1 hv with rfl | hv
      · obtain rfl : c = { identity := w.fresh, name, params, body, frame := s } := by
          simpa [Value.places, Value.closures, Value.buried] using hc
        exact .make h hact
      · exact (h.home c (.inl (Value.mem_placesAll.2 ⟨v, hv, hc⟩))).of_make
    · exact (h.home c (.inr hc)).of_make
  | copy v =>
    refine ⟨h.shape, h.captures, fun c hc => ?_⟩
    have hliving : w.Living c := by
      rcases hc with hc | hc
      · obtain ⟨u, hu, hcu⟩ := Value.mem_placesAll.1 hc
        rcases List.mem_cons.1 hu with rfl | hu
        · exact hact c hcu
        · exact .inl (Value.mem_placesAll.2 ⟨u, hu, hcu⟩)
      · exact .inr hc
    obtain ⟨hsome, hrem, hbirth, hfresh⟩ := h.home c hliving
    exact ⟨hsome, hrem, hbirth, hfresh⟩
  | drop k =>
    refine ⟨h.shape, h.captures, fun c hc => ?_⟩
    have hliving : w.Living c := by
      rcases hc with hc | hc
      · obtain ⟨u, hu, hc⟩ := Value.mem_placesAll.1 hc
        exact .inl (Value.mem_placesAll.2 ⟨u, List.mem_of_mem_eraseIdx hu, hc⟩)
      · exact .inr hc
    obtain ⟨hsome, hrem, hbirth, hfresh⟩ := h.home c hliving
    exact ⟨hsome, hrem, hbirth, hfresh⟩

theorem Reachable.sound (h : w.Reachable) : w.Sound := by
  induction h with
  | start => exact .start
  | step _ hact ih => exact ih.step hact

/-! ### What acts leave alone -/

/-- An act that does not write leaves the bindings of every frame that stays as they were; a new
frame binds nothing, like the vacant slot before it. -/
theorem Sound.bindings_step (h : w.Sound) (hwrites : act.writes = false)
    (hafter : ((w.step act).arena.frame? t).isSome) :
    (w.step act).arena.bindings t = w.arena.bindings t := by
  cases act with
  | push p =>
    have hfree := h.shape.ledger
    by_cases ht : t = w.arena.next
    · subst ht
      have hold : w.arena.bindings w.arena.next = .empty := by
        rw [Arena.bindings, hfree.frame?_next]; rfl
      have hnew : (w.arena.push p).2.bindings w.arena.next = .empty := by
        rw [Arena.bindings, Arena.frame?_push fun s => hfree.lt_size, if_pos rfl]; rfl
      exact hnew.trans hold.symm
    · exact Arena.bindings_push (fun s => hfree.lt_size) p (Ne.symm ht)
  | release s =>
    by_cases hs : s = Arena.root
    · have heq : w.arena.release w.held s = w.arena := by
        rw [Arena.release, if_pos (by simpa using hs)]
      exact congrArg (fun a => a.bindings t) heq
    · exact ((Arena.Prunes.release w.arena w.held hs).bindings hafter).trans
        (Arena.bindings_modify (u := Frame.finish) (fun _ => rfl) t)
  | collect => exact (Arena.Prunes.collect w.arena w.held).bindings hafter
  | capture s d => exact Arena.bindings_modify (u := Frame.capture d.identity) (fun _ => rfl) t
  | define | assign => cases hwrites
  | make | copy | drop => rfl

/-- At every moment the frames around each living closure are those it was made in, and no act
but a definition or an assignment changes what the frames around a closure that lives on bind. -/
theorem reachable_intact (h : w.Reachable) :
    (∀ c, w.Living c → w.Intact c) ∧
      ∀ act, act.Allowed w → act.writes = false → ∀ c, (w.step act).Living c →
        ∀ t ∈ (w.step act).arena.wayOf c.frame,
          (w.step act).arena.bindings t = w.arena.bindings t := by
  have hsound := h.sound
  refine ⟨fun c hc => hsound.intact hc, fun act hact hwrites c hc t ht => ?_⟩
  obtain ⟨-, -, hthere, -⟩ := (hsound.step hact).intact hc
  exact hsound.bindings_step hwrites (hthere t ht)

/-- A closure over the frame in slot 1. -/
def keepsakeClosure : Closure :=
  { identity := 0, name := "f", params := [], body := ⟨default, []⟩, frame := 1 }

/-- A host that makes a closure in a frame, binds it at the root inside an array, lets its own
copy go, and finishes the frame. -/
def keepsake : World :=
  ((((((start.step (.push 0)).step (.make 1 "f" [] ⟨default, []⟩)).step
    (.capture 1 keepsakeClosure)).step
    (.define 0 "kept" (.array [.closure keepsakeClosure]))).step (.drop 0)).step (.release 1))

/-- Every closure that lives is in one of three lists. -/
theorem living_iff : w.Living c ↔
    c ∈ Value.placesAll w.held ++ w.arena.shown ++ w.arena.buried := by
  simp only [Living, Arena.Living, List.mem_append, Arena.mem_shown, Arena.mem_buried,
    Arena.mem_places]
  constructor
  · rintro (hc | ⟨s, f, hf, hc | hc⟩)
    · exact .inl (.inl hc)
    · exact .inl (.inr ⟨s, f, hf, hc⟩)
    · exact .inr ⟨s, f, hf, hc⟩
  · rintro ((hc | ⟨s, f, hf, hc⟩) | ⟨s, f, hf, hc⟩)
    · exact .inl hc
    · exact .inr ⟨s, f, hf, .inl hc⟩
    · exact .inr ⟨s, f, hf, .inr hc⟩

theorem reachable_keepsake : keepsake.Reachable := by
  refine .step (.step (.step (.step (.step (.step .start ?_) ?_) ?_) ?_) ?_) ?_
  · rfl
  · rfl
  · exact ⟨rfl, living_iff.2 (List.mem_singleton_self _)⟩
  · refine ⟨rfl, fun c hc => ?_⟩
    rw [List.mem_singleton.1 hc]
    exact living_iff.2 (List.mem_singleton_self _)
  · trivial
  · refine ⟨rfl, fun c hc => ?_⟩
    rw [List.mem_singleton.1 (living_iff.1 hc)]
    exact List.mem_singleton_self _

theorem reachable_intact_keepsake :
    keepsake.Reachable ∧ keepsake.Living keepsakeClosure ∧ keepsake.Intact keepsakeClosure ∧
      keepsake.frames 1 = [(1, 1), (0, 0)] := by
  have hliving : keepsake.Living keepsakeClosure := living_iff.2 (List.mem_singleton_self _)
  exact ⟨reachable_keepsake, hliving, (reachable_intact reachable_keepsake).1 _ hliving, rfl⟩

end World

end Playscript

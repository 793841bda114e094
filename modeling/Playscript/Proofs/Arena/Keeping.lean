/-
# Reclaiming keeps the frames of living closures

A closure is living while a value held outside or a binding of some frame
holds it, at any depth. If every living closure is remembered by the frame it
was made in (`Secure`), then a frame that a living closure was made in is never
spent, and a collection spares it: a closure held outside has escaped and its
frame is where marking starts, and a closure bound in a frame that is spared is
met by the marking. So releases and collections keep every living closure
remembered, and they take no frame at work but the one released.

Key definitions: `Living`, `Remembered`, `Secure`, `Homed`, `Live`.
Key theorems: `Secure.vacate`, `Secure.collect`, `Secure.release`, `live_release`.
-/
import Playscript.Proofs.Arena.Reclaiming

namespace Playscript
namespace Arena

variable {a b : Arena} {s t : Slot} {f : Frame} {held : List Value} {c : Closure}

/-! ### Living closures -/

/-- A closure that is held outside or bound in a frame. -/
def Living (a : Arena) (held : List Value) (c : Closure) : Prop :=
  c ∈ Value.placesAll held ∨ ∃ s f, a.frame? s = some f ∧ c ∈ f.bindings.places

/-- The frame a closure was made in is there and remembers it. -/
def Remembered (a : Arena) (c : Closure) : Prop :=
  ∃ f, a.frame? c.frame = some f ∧ c.identity ∈ f.captured

/-- Every living closure is remembered. -/
def Secure (a : Arena) (held : List Value) : Prop := ∀ c, a.Living held c → a.Remembered c

/-- A frame remembers no living closure but its own. -/
def Homed (a : Arena) (held : List Value) : Prop :=
  ∀ s f, a.frame? s = some f → ∀ c, a.Living held c → c.identity ∈ f.captured → c.frame = s

theorem Remembered.isSome (h : a.Remembered c) : (a.frame? c.frame).isSome := by
  obtain ⟨f, hf, -⟩ := h
  rw [hf]; rfl

theorem mem_places {b : Bindings} : c ∈ b.places ↔ c ∈ b.closures ∨ c ∈ b.buried :=
  List.mem_append

theorem occurrences_pos {cs : List Closure} {i : Nat} :
    0 < occurrences cs i ↔ ∃ c ∈ cs, c.identity = i := by
  simp [occurrences, List.countP_pos_iff]

theorem alive_iff {i : Nat} : a.alive held i ↔ ∃ c, a.Living held c ∧ c.identity = i := by
  have hsum : a.alive held i ↔ 0 < occurrences (Value.placesAll held) i ∨
      0 < occurrences a.buried i ∨ 0 < occurrences a.shown i := by
    rw [alive, decide_eq_true_iff, holders]
    omega
  simp only [hsum, occurrences_pos, mem_buried, mem_shown, Living, mem_places]
  constructor
  · rintro (⟨c, hc, hi⟩ | ⟨c, ⟨s, f, hf, hc⟩, hi⟩ | ⟨c, ⟨s, f, hf, hc⟩, hi⟩)
    · exact ⟨c, .inl hc, hi⟩
    · exact ⟨c, .inr ⟨s, f, hf, .inr hc⟩, hi⟩
    · exact ⟨c, .inr ⟨s, f, hf, .inl hc⟩, hi⟩
  · rintro ⟨c, hc | ⟨s, f, hf, hc | hc⟩, hi⟩
    · exact .inl ⟨c, hc, hi⟩
    · exact .inr (.inr ⟨c, ⟨s, f, hf, hc⟩, hi⟩)
    · exact .inr (.inl ⟨c, ⟨s, f, hf, hc⟩, hi⟩)

/-- A closure has escaped when it is held outside or in the defaults of a capsule. -/
theorem escaped_iff {i : Nat} :
    a.escaped held i ↔ ∃ c, (c ∈ Value.placesAll held ∨ c ∈ a.buried) ∧ c.identity = i := by
  have hsum : a.escaped held i ↔
      0 < occurrences (Value.placesAll held) i ∨ 0 < occurrences a.buried i := by
    rw [escaped, decide_eq_true_iff, holders]
    omega
  simp only [hsum, occurrences_pos]
  constructor
  · rintro (⟨c, hc, hi⟩ | ⟨c, hc, hi⟩)
    · exact ⟨c, .inl hc, hi⟩
    · exact ⟨c, .inr hc, hi⟩
  · rintro ⟨c, hc | hc, hi⟩
    · exact .inl ⟨c, hc, hi⟩
    · exact .inr ⟨c, hc, hi⟩

theorem Prunes.living (h : a.Prunes b) (hc : b.Living held c) : a.Living held c := by
  rcases hc with hc | ⟨s, g, hg, hc⟩
  · exact .inl hc
  · obtain ⟨f, hf, hgf⟩ := h.frame s g hg
    rw [hgf] at hc
    exact .inr ⟨s, f, hf, hc⟩

theorem Prunes.remembered (h : a.Prunes b) (hs : (b.frame? c.frame).isSome)
    (hc : a.Remembered c) : b.Remembered c := by
  obtain ⟨g, hg⟩ := Option.isSome_iff_exists.1 hs
  obtain ⟨f, hf, hgf⟩ := h.frame _ g hg
  obtain ⟨f', hf', hmem⟩ := hc
  rw [hf] at hf'
  cases hf'
  exact ⟨g, hg, by rw [hgf]; exact hmem⟩

/-- Whatever leaves the bindings alone leaves the same closures living. -/
theorem living_modify {u : Frame → Frame} (hu : ∀ f, (u f).bindings = f.bindings) :
    (a.modify s u).Living held c ↔ a.Living held c := by
  have hbind : ∀ t f, (a.modify s u).frame? t = some f →
      ∃ g, a.frame? t = some g ∧ g.bindings = f.bindings := by
    intro t f hf
    rw [frame?_modify] at hf
    split at hf
    · obtain ⟨g, hg, rfl⟩ := Option.map_eq_some_iff.1 hf
      exact ⟨g, hg, (hu g).symm⟩
    · exact ⟨f, hf, rfl⟩
  constructor
  · rintro (hc | ⟨t, f, hf, hc⟩)
    · exact .inl hc
    · obtain ⟨g, hg, hgf⟩ := hbind t f hf
      exact .inr ⟨t, g, hg, hgf ▸ hc⟩
  · rintro (hc | ⟨t, f, hf, hc⟩)
    · exact .inl hc
    · obtain ⟨g, hg⟩ : ∃ g, (a.modify s u).frame? t = some g :=
        Option.isSome_iff_exists.1 (by simp [hf])
      obtain ⟨f', hf', hff'⟩ := hbind t g hg
      rw [hf] at hf'
      cases hf'
      exact .inr ⟨t, g, hg, hff' ▸ hc⟩

/-- Setting a name lets no closures live but those of the value and those living before. -/
theorem Living.of_define {name : String} {v : Value} (h : (a.define s name v).Living held c) :
    a.Living held c ∨ c ∈ v.places := by
  rcases h with hc | ⟨t, f, hf, hc⟩
  · exact .inl (.inl hc)
  · rw [Arena.define, frame?_modify] at hf
    split at hf
    · obtain ⟨g, hg, rfl⟩ := Option.map_eq_some_iff.1 hf
      rcases Bindings.mem_places_insert hc with hc | hc
      · exact .inr hc
      · exact .inl (.inr ⟨t, g, hg, hc⟩)
    · exact .inl (.inr ⟨t, f, hf, hc⟩)

/-- A new frame binds nothing. -/
theorem Living.of_push (hfree : a.Ledger) {p : Slot} (h : (a.push p).2.Living held c) :
    a.Living held c := by
  rcases h with hc | ⟨t, f, hf, hc⟩
  · exact .inl hc
  · rw [frame?_push fun s => hfree.lt_size] at hf
    split at hf
    · cases hf
      cases hc
    · split at hf
      · obtain ⟨g, hg, rfl⟩ := Option.map_eq_some_iff.1 hf
        exact .inr ⟨t, g, hg, hc⟩
      · exact .inr ⟨t, f, hf, hc⟩

theorem Remembered.modify {u : Frame → Frame} (hu : ∀ f, f.captured ⊆ (u f).captured)
    (h : a.Remembered c) (s : Slot) : (a.modify s u).Remembered c := by
  obtain ⟨f, hf, hmem⟩ := h
  by_cases hs : c.frame = s
  · exact ⟨u f, by rw [← hs, frame?_modify_self hf], hu f hmem⟩
  · exact ⟨f, by rw [frame?_modify_of_ne hs, hf], hmem⟩

theorem Remembered.push (hfree : a.Ledger) (h : a.Remembered c) (p : Slot) :
    (a.push p).2.Remembered c := by
  obtain ⟨f, hf, hmem⟩ := h
  have hne : a.next ≠ c.frame := by
    intro e
    have := hfree.frame?_next
    rw [e, hf] at this
    cases this
  have hframe := frame?_push (fun s => hfree.lt_size) p c.frame
  rw [if_neg hne, hf] at hframe
  by_cases hp : p = c.frame
  · exact ⟨f.addChild, by rw [hframe, if_pos hp]; rfl, hmem⟩
  · exact ⟨f, by rw [hframe, if_neg hp], hmem⟩

/-! ### What reclaiming keeps -/

/-- The frame of a living closure is not spent. -/
theorem Secure.ne_spent (h : a.Secure held) (hf : a.frame? s = some f)
    (hspent : a.spent held f) (hc : a.Living held c) : c.frame ≠ s := by
  rintro rfl
  obtain ⟨g, hg, hmem⟩ := h c hc
  rw [hf] at hg
  cases hg
  exact (spent_iff.1 hspent).2.2 _ hmem (alive_iff.2 ⟨c, hc, rfl⟩)

theorem Secure.vacate (h : a.Secure held) (hf : a.frame? s = some f)
    (hspent : a.spent held f) : (a.vacate s).Secure held := by
  intro c hc
  have hprunes := Prunes.vacate a s
  have hliving := hprunes.living hc
  have hne := h.ne_spent hf hspent hliving
  exact hprunes.remembered (isSome_vacate.2 ⟨hne.symm, (h c hliving).isSome⟩) (h c hliving)

/-- A collection spares the frame of a closure that has escaped. -/
theorem spared_of_escaped (h : a.Remembered c) (hc : c ∈ Value.placesAll held ∨ c ∈ a.buried) :
    a.Spared held c.frame := by
  obtain ⟨f, hf, hmem⟩ := h
  refine spared_of_anchors ?_
  simp only [anchors, hf, Bool.or_eq_true, List.any_eq_true]
  exact .inr ⟨_, hmem, escaped_iff.2 ⟨c, hc, rfl⟩⟩

/-- A collection spares the frames of the closures living afterwards. -/
theorem Secure.spared (h : a.Secure held) (hc : (a.collect held).Living held c) :
    a.Spared held c.frame := by
  have hliving := (Prunes.collect a held).living hc
  rcases hc with hc | ⟨s, g, hg, hc⟩
  · exact spared_of_escaped (h c hliving) (.inl hc)
  · obtain ⟨f, hf, hgf⟩ := (Prunes.collect a held).frame s g hg
    rw [hgf] at hc
    rcases mem_places.1 hc with hc | hc
    · have hs : a.Spared held s := isSome_collect.1 (by rw [hg]; rfl)
      exact hs.bound hf hc (h c hliving).isSome
    · exact spared_of_escaped (h c hliving) (.inr (mem_buried.2 ⟨s, f, hf, hc⟩))

theorem Secure.collect (h : a.Secure held) : (a.collect held).Secure held := fun c hc =>
  (Prunes.collect a held).remembered (isSome_collect.2 (h.spared hc))
    (h c ((Prunes.collect a held).living hc))

theorem Secure.finish (h : a.Secure held) (s : Slot) :
    (a.modify s Frame.finish).Secure held := fun c hc =>
  (h c ((living_modify (u := Frame.finish) fun _ => rfl).1 hc)).modify (u := Frame.finish)
    (fun _ => List.Subset.refl _) s

theorem Secure.release (h : a.Secure held) (s : Slot) : (a.release held s).Secure held := by
  by_cases hs : s = root
  · rwa [Arena.release, if_pos (by simpa using hs)]
  · exact release_keeps (P := fun b => b.Secure held) hs (h.finish s)
      (fun b t f hb hf _ hspent => hb.vacate hf hspent) fun b hb => hb.collect

/-- A release changes nothing about the frames that stay but their counts of children, and that
one has finished. -/
theorem frame?_release (hf : (a.release held s).frame? t = some f) :
    ∃ g, a.frame? t = some g ∧ f.parent? = g.parent? ∧ f.bindings = g.bindings ∧
      f.captured = g.captured := by
  by_cases hs : s = root
  · rw [Arena.release, if_pos (by simpa using hs)] at hf
    exact ⟨f, hf, rfl, rfl, rfl⟩
  · obtain ⟨e, he, hfe⟩ := (Prunes.release a held hs).frame t f hf
    rw [frame?_modify] at he
    split at he
    · obtain ⟨g, hg, rfl⟩ := Option.map_eq_some_iff.1 he
      exact ⟨g, hg, by rw [hfe]; rfl, by rw [hfe]; rfl, by rw [hfe]; rfl⟩
    · exact ⟨e, he, by rw [hfe], by rw [hfe], by rw [hfe]⟩

theorem Living.of_release (h : (a.release held s).Living held c) : a.Living held c := by
  rcases h with hc | ⟨t, f, hf, hc⟩
  · exact .inl hc
  · obtain ⟨g, hg, -, hbindings, -⟩ := frame?_release hf
    exact .inr ⟨t, g, hg, hbindings ▸ hc⟩

/-! ### Frames at work -/

/-- A frame whose construct has not finished. -/
def Live (a : Arena) (s : Slot) : Prop := ∃ f, a.frame? s = some f ∧ f.live

theorem Live.isSome (h : a.Live s) : (a.frame? s).isSome := by
  obtain ⟨f, hf, -⟩ := h
  rw [hf]; rfl

theorem Prunes.live (h : a.Prunes b) (hs : b.Live s) : a.Live s := by
  obtain ⟨g, hg, hlive⟩ := hs
  obtain ⟨f, hf, hgf⟩ := h.frame s g hg
  rw [hgf] at hlive
  exact ⟨f, hf, hlive⟩

theorem Prunes.live_of_isSome (h : a.Prunes b) (hs : (b.frame? s).isSome) (hlive : a.Live s) :
    b.Live s := by
  obtain ⟨g, hg⟩ := Option.isSome_iff_exists.1 hs
  obtain ⟨f, hf, hgf⟩ := h.frame s g hg
  obtain ⟨f', hf', hlive⟩ := hlive
  rw [hf] at hf'
  cases hf'
  exact ⟨g, hg, by rw [hgf]; exact hlive⟩

theorem live_modify {u : Frame → Frame} (hu : ∀ f, (u f).live = f.live) :
    (a.modify s u).Live t ↔ a.Live t := by
  unfold Live
  rw [frame?_modify]
  split
  · simp only [Option.map_eq_some_iff]
    constructor
    · rintro ⟨_, ⟨f, hf, rfl⟩, hlive⟩
      exact ⟨f, hf, by rwa [hu] at hlive⟩
    · rintro ⟨f, hf, hlive⟩
      exact ⟨u f, ⟨f, hf, rfl⟩, by rwa [hu]⟩
  · rfl

theorem live_finish : (a.modify s Frame.finish).Live t ↔ t ≠ s ∧ a.Live t := by
  by_cases hts : t = s
  · subst hts
    refine ⟨fun ⟨f, hf, hlive⟩ => ?_, fun h => absurd rfl h.1⟩
    rw [frame?_modify, if_pos rfl] at hf
    obtain ⟨g, -, rfl⟩ := Option.map_eq_some_iff.1 hf
    cases hlive
  · unfold Live
    rw [frame?_modify_of_ne hts]
    exact (and_iff_right hts).symm

/-- A new frame is at work. -/
theorem Ledger.live_push (h : a.Ledger) {p : Slot} :
    (a.push p).2.Live t ↔ t = a.next ∨ a.Live t := by
  by_cases ht : t = a.next
  · refine ⟨fun _ => .inl ht, fun _ => ⟨.inside (some p), ?_, rfl⟩⟩
    rw [frame?_push fun s => h.lt_size, if_pos ht.symm]
  · have hmodify : (a.push p).2.frame? t = (a.modify p Frame.addChild).frame? t := by
      rw [frame?_push fun s => h.lt_size, if_neg (Ne.symm ht), frame?_modify]
    rw [Live, hmodify, ← Live, live_modify (u := Frame.addChild) fun _ => rfl]
    exact (or_iff_right ht).symm

/-- A collection takes no frame at work. -/
theorem live_collect : (a.collect held).Live t ↔ a.Live t := by
  refine ⟨(Prunes.collect a held).live, fun h => ?_⟩
  obtain ⟨f, hf, hlive⟩ := h
  exact (Prunes.collect a held).live_of_isSome
    (isSome_collect.2 (spared_of_live hf hlive)) ⟨f, hf, hlive⟩

/-- A release ends the work of one frame and takes no other at work. -/
theorem live_release (hs : s ≠ root) : (a.release held s).Live t ↔ t ≠ s ∧ a.Live t := by
  refine ⟨fun h => live_finish.1 ((Prunes.release a held hs).live h), fun h => ?_⟩
  refine release_keeps (P := fun b => b.Live t) hs (live_finish.2 h) ?_
    fun b hb => live_collect.2 hb
  intro b u f hb hf _ hspent
  refine (Prunes.vacate b u).live_of_isSome (isSome_vacate.2 ⟨?_, hb.isSome⟩) hb
  rintro rfl
  obtain ⟨g, hg, hlive⟩ := hb
  rw [hf] at hg
  cases hg
  rw [(spent_iff.1 hspent).1] at hlive
  cases hlive

theorem Live.release (h : a.Live t) (hne : t ≠ s) : (a.release held s).Live t := by
  by_cases hs : s = root
  · rwa [Arena.release, if_pos (by simpa using hs)]
  · exact (live_release hs).2 ⟨hne, h⟩

end Arena
end Playscript

/-
# What a collection leaves

A collection starts at the root, at the frames at work, and at the frames that
escaped closures were made in. When every living closure is remembered by its
own frame and by no other, the last are exactly the frames of the closures in
hand and of those in the defaults of capsules (`anchors_iff_starts`). What is
reached from there is reached in the arena that a collection leaves as it was
before (`Prunes.isSome_iff_reaches`), and the count of frames is the number of
those that are left.

Key definitions: `Kept`, `Starts`.
Key theorems: `anchors_iff_starts`, `Prunes.isSome_iff_reaches`, `reaches_root_collect`,
`occupied_eq_ncard`.
-/
import Playscript.Proofs.Arena.Keeping
import Mathlib.Data.Set.Card

namespace Playscript
namespace Arena

variable {a b : Arena} {s t : Slot} {held : List Value} {c : Closure}

/-- The root, and the frames that some closures were made in. -/
def Kept (cs : List Closure) (s : Slot) : Prop := s = root ∨ ∃ c ∈ cs, c.frame = s

/-- Only which closures there are matters. -/
theorem Kept.congr {cs ds : List Closure} (h : ∀ c, c ∈ cs ↔ c ∈ ds) : Kept cs = Kept ds := by
  funext s
  simp only [Kept, h]

/-- Where a collection starts: the root, the frames at work, and those of the closures that are
in hand or in the defaults of capsules. -/
def Starts (a : Arena) (held : List Value) (s : Slot) : Prop :=
  a.Live s ∨ Kept (Value.placesAll held ++ a.buried) s

theorem anchors_iff_starts (htree : a.Tree) (hsecure : a.Secure held) (hhome : a.Homed held) :
    a.anchors held s ↔ a.Starts held s := by
  have hliving : ∀ c ∈ Value.placesAll held ++ a.buried, a.Living held c := by
    intro c hc
    rcases List.mem_append.1 hc with hc | hc
    · exact .inl hc
    · obtain ⟨t, f, hf, hc⟩ := mem_buried.1 hc
      exact .inr ⟨t, f, hf, mem_places.2 (.inr hc)⟩
  constructor
  · intro h
    rcases hf : a.frame? s with _ | f <;> simp only [anchors, hf] at h
    · cases h
    · simp only [Bool.or_eq_true, beq_iff_eq, List.any_eq_true] at h
      rcases h with (hs | hwork) | ⟨i, hi, hescaped⟩
      · exact .inr (.inl hs)
      · exact .inl ⟨f, hf, hwork⟩
      · -- the closure that escaped lives, so the frame that remembers it is its own
        obtain ⟨c, hc, rfl⟩ := escaped_iff.1 hescaped
        have hc := List.mem_append.2 hc
        exact .inr (.inr ⟨c, hc, hhome s f hf c (hliving c hc) hi⟩)
  · rintro (⟨f, hf, hwork⟩ | rfl | ⟨c, hc, rfl⟩)
    · simp [anchors, hf, hwork]
    · obtain ⟨f, hf⟩ := Option.isSome_iff_exists.1 htree.root
      simp [anchors, hf]
    · obtain ⟨f, hf, hmem⟩ := hsecure c (hliving c hc)
      simp only [anchors, hf, Bool.or_eq_true, List.any_eq_true]
      exact .inr ⟨_, hmem, escaped_iff.2 ⟨c, List.mem_append.1 hc, rfl⟩⟩

/-- Where a collection starts when no frame is at work but the root. -/
theorem starts_eq_kept (hlive : ∀ t, a.Live t ↔ t = root) :
    a.Starts held = Kept (Value.placesAll held ++ a.buried) := by
  funext s
  rw [Starts, hlive]
  exact propext (or_iff_right_of_imp .inl)

theorem Secure.grounded (h : a.Secure held) : a.Grounded := fun s f hf c hc =>
  (h c (.inr ⟨s, f, hf, mem_places.2 (.inl hc)⟩)).isSome

/-- Where frames are taken away, less is reached. -/
theorem Prunes.reaches {start : Slot → Prop} (h : a.Prunes b) (hs : b.Reaches start s) :
    a.Reaches start s := by
  induction hs with
  | start hs => exact .start hs
  | parent _ hp ih =>
    refine .parent ih ?_
    obtain ⟨f, hf, -⟩ := parent?_eq_some.1 hp
    rwa [← h.parent? (by rw [hf]; rfl)]
  | bound _ hf hc ih =>
    obtain ⟨g, hg, hfg⟩ := h.frame _ _ hf
    rw [hfg] at hc
    exact .bound ih hg hc

/-- Where everything that is reached stays, as much is reached. -/
theorem Prunes.reaches_of_isSome {start : Slot → Prop} (h : a.Prunes b)
    (hstay : ∀ t, a.Reaches start t → (b.frame? t).isSome) (hs : a.Reaches start s) :
    b.Reaches start s := by
  induction hs with
  | start hs => exact .start hs
  | parent hs hp ih => exact .parent ih (by rwa [h.parent? (hstay _ hs)])
  | bound hs hf hc ih =>
    obtain ⟨g, hg⟩ := Option.isSome_iff_exists.1 (hstay _ hs)
    obtain ⟨f', hf', hgf⟩ := h.frame _ g hg
    rw [hf] at hf'
    cases hf'
    exact .bound ih hg (by rwa [hgf])

/-- Where the frames that stay are those that were reached, they are those that still are. -/
theorem Prunes.isSome_iff_reaches {start : Slot → Prop} (h : a.Prunes b)
    (hstay : ∀ t, (b.frame? t).isSome ↔ a.Reaches start t) :
    (b.frame? s).isSome ↔ b.Reaches start s :=
  ⟨fun hs => h.reaches_of_isSome (fun t => (hstay t).2) ((hstay s).1 hs),
    fun hs => (hstay s).2 (h.reaches hs)⟩

/-- A collection spares whatever is reached from the root. -/
theorem Reaches.spared (h : a.Reaches (· = root) s) (hs : (a.frame? s).isSome) :
    a.Spared held s := by
  induction h with
  | start hroot =>
    subst hroot
    exact spared_root hs
  | parent _ hp ih =>
    obtain ⟨f, hf, hfp⟩ := parent?_eq_some.1 hp
    exact .step (ih (by rw [hf]; rfl)) ((mem_edges hf).2 (.inl hfp)) (mem_occupiedSlots.2 hs)
  | bound _ hf hc ih => exact Spared.bound (ih (by rw [hf]; rfl)) hf hc hs

/-- So a collection changes nothing about what is reached from the root, whatever is held. -/
theorem reaches_root_collect : (a.collect held).Reaches (· = root) s ↔ a.Reaches (· = root) s := by
  have hprunes := Prunes.collect a held
  refine ⟨hprunes.reaches, fun h => ?_⟩
  induction h with
  | start hroot => exact .start hroot
  | parent hs hp ih =>
    obtain ⟨f, hf, -⟩ := parent?_eq_some.1 hp
    have hspared : a.Spared held _ := hs.spared (by rw [hf]; rfl)
    exact .parent ih (by rwa [hprunes.parent? (isSome_collect.2 hspared)])
  | bound hs hf hc ih =>
    have hspared : a.Spared held _ := hs.spared (by rw [hf]; rfl)
    obtain ⟨g, hg⟩ := Option.isSome_iff_exists.1 (isSome_collect.2 hspared)
    obtain ⟨f', hf', hgf⟩ := hprunes.frame _ g hg
    rw [hf] at hf'
    cases hf'
    exact .bound ih hg (by rwa [hgf])

theorem bindings_collect (h : a.Reaches (· = root) s) :
    (a.collect held).bindings s = a.bindings s := by
  have hprunes := Prunes.collect a held
  by_cases hs : (a.frame? s).isSome
  · exact hprunes.bindings (isSome_collect.2 (h.spared hs))
  · have hgone : (a.collect held).frame? s = none :=
      Option.not_isSome_iff_eq_none.1 fun hstays => hs (hprunes.isSome hstays)
    rw [bindings, bindings, hgone, Option.not_isSome_iff_eq_none.1 hs]

/-- The count of frames is the number of slots that hold one. -/
theorem Ledger.occupied_eq_ncard (h : a.Ledger) {P : Slot → Prop}
    (hP : ∀ s, (a.frame? s).isSome ↔ P s) : a.occupied = Set.ncard {s | P s} := by
  have hset : {s | P s} = (a.occupiedSlots.toFinset : Set Slot) := by
    ext s
    simp [← hP]
  rw [hset, Set.ncard_coe_finset, List.toFinset_card_of_nodup (nodup_occupiedSlots a), h.occupied]

end Arena
end Playscript

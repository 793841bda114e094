/-
# Marking finds what is reached

`unmarked` walks a list of pending slots and takes each slot it meets off the
unseen ones. What it leaves is exactly what cannot be reached from the pending
slots through unseen ones (`mem_unmarked`). For an arena this says which frames
a collection takes for garbage (`mem_garbage`): those that nothing reaches from
the frames a collection starts at, going to parents and to the frames of the
closures that are bound.

Key definitions: `Marked`, `Reaches`, `Grounded`.
Key theorems: `mem_unmarked`, `mem_garbage`, `spared_iff_reaches`.
-/
import Playscript.Proofs.Arena.Shape

namespace Playscript
namespace Arena

variable {edges : Slot → List Slot} {unseen pending : List Slot} {s t p : Slot}

/-! ### The worklist -/

/-- A slot that can be reached from the pending ones through unseen ones. -/
inductive Marked (edges : Slot → List Slot) (unseen pending : List Slot) : Slot → Prop where
  | start {s : Slot} : s ∈ pending → s ∈ unseen → Marked edges unseen pending s
  | step {s t : Slot} : Marked edges unseen pending s → t ∈ edges s → t ∈ unseen →
      Marked edges unseen pending t

theorem Marked.mem (h : Marked edges unseen pending s) : s ∈ unseen := by
  cases h <;> assumption

/-- Looking at a slot that was seen changes nothing. -/
theorem marked_cons_of_notMem (hs : s ∉ unseen) :
    Marked edges unseen (s :: pending) t ↔ Marked edges unseen pending t := by
  constructor <;> intro h
  · induction h with
    | start hp hu =>
      rcases List.mem_cons.1 hp with rfl | hp
      · exact absurd hu hs
      · exact .start hp hu
    | step _ he hu ih => exact .step ih he hu
  · induction h with
    | start hp hu => exact .start (List.mem_cons_of_mem _ hp) hu
    | step _ he hu ih => exact .step ih he hu

/-- Looking at an unseen slot marks it, and what is reached from it is pending then. -/
theorem marked_cons_of_mem (hnodup : unseen.Nodup) (hs : s ∈ unseen) :
    Marked edges unseen (s :: pending) t ↔
      t = s ∨ Marked edges (unseen.erase s) (edges s ++ pending) t := by
  have herase : ∀ {u}, u ∈ unseen.erase s ↔ u ≠ s ∧ u ∈ unseen := hnodup.mem_erase_iff
  constructor
  · intro h
    induction h with
    | @start u hp hu =>
      by_cases hus : u = s
      · exact .inl hus
      · have hp := (List.mem_cons.1 hp).resolve_left hus
        exact .inr (.start (List.mem_append_right _ hp) (herase.2 ⟨hus, hu⟩))
    | @step u v _ he hv ih =>
      by_cases hvs : v = s
      · exact .inl hvs
      · have hv := herase.2 ⟨hvs, hv⟩
        rcases ih with rfl | ih
        · exact .inr (.start (List.mem_append_left _ he) hv)
        · exact .inr (.step ih he hv)
  · have hself : Marked edges unseen (s :: pending) s := .start List.mem_cons_self hs
    rintro (rfl | h)
    · exact hself
    · induction h with
      | start hp hu =>
        have hu := (herase.1 hu).2
        rcases List.mem_append.1 hp with he | hp
        · exact .step hself he hu
        · exact .start (List.mem_cons_of_mem _ hp) hu
      | step _ he hu ih => exact .step ih he (herase.1 hu).2

/-- Marking leaves exactly what it cannot reach. -/
theorem mem_unmarked (hnodup : unseen.Nodup) :
    t ∈ unmarked edges unseen pending ↔ t ∈ unseen ∧ ¬ Marked edges unseen pending t := by
  induction unseen, pending using unmarked.induct edges with
  | case1 unseen =>
    rw [unmarked]
    have hno : ¬ Marked edges unseen [] t := by
      intro h
      induction h with
      | start hp _ => cases hp
      | step _ _ _ ih => exact ih
    simp [hno]
  | case2 unseen s pending hs ih =>
    rw [unmarked, if_pos hs, ih (hnodup.erase s), hnodup.mem_erase_iff,
      marked_cons_of_mem hnodup hs]
    tauto
  | case3 unseen s pending hs ih =>
    rw [unmarked, if_neg hs, ih hnodup, marked_cons_of_notMem hs]

theorem nodup_unmarked (hnodup : unseen.Nodup) : (unmarked edges unseen pending).Nodup := by
  induction unseen, pending using unmarked.induct edges with
  | case1 unseen => rwa [unmarked]
  | case2 unseen s pending hs ih => rw [unmarked, if_pos hs]; exact ih (hnodup.erase s)
  | case3 unseen s pending hs ih => rw [unmarked, if_neg hs]; exact ih hnodup

/-! ### Garbage -/

variable {a : Arena} {held : List Value} {f : Frame}

/-- What a collection marks. -/
abbrev Spared (a : Arena) (held : List Value) : Slot → Prop :=
  Marked a.edges a.occupiedSlots (a.occupiedSlots.filter (a.anchors held))

theorem mem_garbage :
    s ∈ a.garbage held ↔ (a.frame? s).isSome ∧ ¬ a.Spared held s := by
  rw [garbage, mem_unmarked (nodup_occupiedSlots a), mem_occupiedSlots]

theorem nodup_garbage (a : Arena) (held : List Value) : (a.garbage held).Nodup :=
  nodup_unmarked (nodup_occupiedSlots a)

theorem Spared.isSome (h : a.Spared held s) : (a.frame? s).isSome := mem_occupiedSlots.1 h.mem

theorem mem_edges (hf : a.frame? s = some f) :
    t ∈ a.edges s ↔ f.parent? = some t ∨ ∃ c ∈ f.bindings.closures, c.frame = t := by
  simp [Arena.edges, Frame.edges, hf]

theorem spared_of_anchors (h : a.anchors held s) : a.Spared held s := by
  have hs : (a.frame? s).isSome := by
    unfold anchors at h
    split at h
    · rename_i hf; rw [hf]; rfl
    · cases h
  exact .start (List.mem_filter.2 ⟨mem_occupiedSlots.2 hs, h⟩) (mem_occupiedSlots.2 hs)

theorem spared_root (h : (a.frame? root).isSome) : a.Spared held root := by
  obtain ⟨f, hf⟩ := Option.isSome_iff_exists.1 h
  exact spared_of_anchors (by simp [anchors, hf])

theorem spared_of_live (hf : a.frame? s = some f) (hlive : f.live) : a.Spared held s :=
  spared_of_anchors (by simp [anchors, hf, hlive])

/-- Whatever is spared, its parent is. -/
theorem Spared.parent (h : a.Tree) (hs : a.Spared held s) (hp : a.parent? s = some p) :
    a.Spared held p := by
  obtain ⟨f, hf, hfp⟩ := parent?_eq_some.1 hp
  exact .step hs ((mem_edges hf).2 (.inl hfp)) (mem_occupiedSlots.2 (h.parent s p hp))

/-- Whatever is spared, the frames of the closures bound there are. -/
theorem Spared.bound {c : Closure} (hs : a.Spared held s) (hf : a.frame? s = some f)
    (hc : c ∈ f.bindings.closures) (hhome : (a.frame? c.frame).isSome) :
    a.Spared held c.frame :=
  .step hs ((mem_edges hf).2 (.inr ⟨c, hc, rfl⟩)) (mem_occupiedSlots.2 hhome)

/-! ### Reaching frames -/

/-- A frame reached from some frames over parents and over the closures that are bound. -/
inductive Reaches (a : Arena) (start : Slot → Prop) : Slot → Prop where
  | start {s : Slot} : start s → Reaches a start s
  | parent {s p : Slot} : Reaches a start s → a.parent? s = some p → Reaches a start p
  | bound {s : Slot} {f : Frame} {c : Closure} : Reaches a start s → a.frame? s = some f →
      c ∈ f.bindings.closures → Reaches a start c.frame

/-- The frame of every closure that is bound is there. -/
def Grounded (a : Arena) : Prop :=
  ∀ s f, a.frame? s = some f → ∀ c ∈ f.bindings.closures, (a.frame? c.frame).isSome

/-- What a collection spares is what is reached from the frames it starts at. -/
theorem spared_iff_reaches {start : Slot → Prop} (htree : a.Tree) (hground : a.Grounded)
    (hstart : ∀ s, start s ↔ a.anchors held s) : a.Spared held s ↔ a.Reaches start s := by
  constructor
  · intro h
    induction h with
    | start hp _ => exact .start ((hstart _).2 (List.mem_filter.1 hp).2)
    | @step s t hs he _ ih =>
      obtain ⟨f, hf⟩ := Option.isSome_iff_exists.1 (Spared.isSome hs)
      rcases (mem_edges hf).1 he with hp | ⟨c, hc, rfl⟩
      · exact .parent ih (parent?_eq_some.2 ⟨f, hf, hp⟩)
      · exact .bound ih hf hc
  · intro h
    induction h with
    | start hs => exact spared_of_anchors ((hstart _).1 hs)
    | parent _ hp ih => exact Spared.parent htree ih hp
    | bound _ hf hc ih => exact Spared.bound ih hf hc (hground _ _ hf _ hc)

end Arena
end Playscript

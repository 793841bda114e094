/-
# Reclaiming frames

Releasing a frame and collecting garbage both take frames away and change
nothing else about the frames that stay but their counts of children
(`Prunes`). Both keep the shape of the arena. A release empties slots one
after the other; what every such step keeps, the release keeps
(`reclaim_keeps`).

Key definitions: `Prunes`.
Key theorems: `frame?_collect`, `WellShaped.collect`, `WellShaped.release`.
-/
import Playscript.Proofs.Arena.Marking

namespace Playscript
namespace Arena

variable {a b c : Arena} {s t p : Slot} {f g : Frame} {held : List Value}

/-! ### Taking frames away -/

/-- Some frames are gone; the others are as they were but for their counts of children. -/
structure Prunes (a b : Arena) : Prop where
  size : b.slots.size = a.slots.size
  frame : ∀ s g, b.frame? s = some g →
    ∃ f, a.frame? s = some f ∧ g = { f with children := g.children }

theorem Prunes.refl (a : Arena) : a.Prunes a := ⟨rfl, fun _ g hg => ⟨g, hg, rfl⟩⟩

theorem Prunes.trans (h : a.Prunes b) (h' : b.Prunes c) : a.Prunes c where
  size := h'.size.trans h.size
  frame s g hg := by
    obtain ⟨f, hf, hgf⟩ := h'.frame s g hg
    obtain ⟨e, he, hfe⟩ := h.frame s f hf
    exact ⟨e, he, by rw [hgf, hfe]⟩

theorem Prunes.isSome (h : a.Prunes b) (hs : (b.frame? s).isSome) : (a.frame? s).isSome := by
  obtain ⟨g, hg⟩ := Option.isSome_iff_exists.1 hs
  obtain ⟨f, hf, -⟩ := h.frame s g hg
  rw [hf]; rfl

theorem Prunes.parent? (h : a.Prunes b) (hs : (b.frame? s).isSome) :
    b.parent? s = a.parent? s := by
  obtain ⟨g, hg⟩ := Option.isSome_iff_exists.1 hs
  obtain ⟨f, hf, hgf⟩ := h.frame s g hg
  rw [parent?_of_frame? hg, parent?_of_frame? hf, hgf]

theorem Prunes.bindings (h : a.Prunes b) (hs : (b.frame? s).isSome) :
    b.bindings s = a.bindings s := by
  obtain ⟨g, hg⟩ := Option.isSome_iff_exists.1 hs
  obtain ⟨f, hf, hgf⟩ := h.frame s g hg
  rw [bindings_of_frame? hg, bindings_of_frame? hf, hgf]

/-- The ways of the frames that stay are as they were. -/
theorem Prunes.way {w : List Slot} (h : a.Prunes b) (ha : a.Tree) (hb : b.Tree)
    (hs : (b.frame? s).isSome) (hw : a.Way s w) : b.Way s w := by
  obtain ⟨v, hv⟩ := hb.way s hs
  have hva : a.Way s v := hv.congr fun t ht => (h.parent? (hb.mem_way hs hv ht)).symm
  rwa [hw.unique ha.orphan hva]

/-! ### Emptying many slots -/

theorem frame?_foldl_clear (l : List Slot) (a : Arena) (t : Slot) :
    (l.foldl clear a).frame? t = if t ∈ l then none else a.frame? t := by
  induction l generalizing a with
  | nil => simp
  | cons s l ih =>
    rw [List.foldl_cons, ih, frame?_clear]
    by_cases ht : t ∈ l
    · simp [ht]
    · by_cases hs : s = t
      · simp [hs]
      · simp [ht, hs, Ne.symm hs]

theorem size_foldl_clear (l : List Slot) (a : Arena) :
    (l.foldl clear a).slots.size = a.slots.size := by
  induction l generalizing a with
  | nil => rfl
  | cons s l ih => rw [List.foldl_cons, ih, size_clear]

theorem Ledger.foldl_clear (h : a.Ledger) {l : List Slot} (hnodup : l.Nodup)
    (hl : ∀ s ∈ l, (a.frame? s).isSome) : (l.foldl Arena.clear a).Ledger := by
  induction l generalizing a with
  | nil => exact h
  | cons s l ih =>
    obtain ⟨hs, hnodup⟩ := List.nodup_cons.1 hnodup
    refine ih (h.clear (hl s List.mem_cons_self)) hnodup fun t ht => ?_
    have hne : s ≠ t := fun e => hs (e ▸ ht)
    rw [frame?_clear, if_neg hne]
    exact hl t (List.mem_cons_of_mem _ ht)

/-! ### Collecting -/

/-- The arena of a collection after the sweep. -/
abbrev swept (a : Arena) (held : List Value) : Arena := (a.garbage held).foldl clear a

theorem isSome_swept : ((a.swept held).frame? s).isSome ↔ a.Spared held s := by
  rw [frame?_foldl_clear]
  by_cases hg : s ∈ a.garbage held
  · simp [hg, (mem_garbage.1 hg).2]
  · rw [if_neg hg]
    constructor
    · intro hs
      by_contra hno
      exact hg (mem_garbage.2 ⟨hs, hno⟩)
    · exact Spared.isSome

theorem frame?_swept (h : ((a.swept held).frame? s).isSome) :
    (a.swept held).frame? s = a.frame? s := by
  rw [frame?_foldl_clear] at h ⊢
  split at h
  · cases h
  · rw [if_neg (by assumption)]

theorem frame?_collect (a : Arena) (held : List Value) (s : Slot) :
    (a.collect held).frame? s = ((a.swept held).frame? s).map fun f =>
      { f with children := ((a.swept held).childrenOf s).length } :=
  frame?_recount (a.swept held) s

/-- A collection keeps what it spares. -/
theorem isSome_collect : ((a.collect held).frame? s).isSome ↔ a.Spared held s := by
  rw [frame?_collect, Option.isSome_map, isSome_swept]

theorem Prunes.collect (a : Arena) (held : List Value) : a.Prunes (a.collect held) where
  size := by
    show (a.swept held).recount.slots.size = _
    rw [size_recount, size_foldl_clear]
  frame s g hg := by
    rw [frame?_collect] at hg
    obtain ⟨f, hf, rfl⟩ := Option.map_eq_some_iff.1 hg
    exact ⟨f, by rw [← frame?_swept (by rw [hf]; rfl), hf], rfl⟩

theorem Ledger.collect (h : a.Ledger) (held : List Value) : (a.collect held).Ledger := by
  have hswept : (a.swept held).Ledger :=
    h.foldl_clear (nodup_garbage a held) fun s hs => (mem_garbage.1 hs).1
  refine hswept.congr (fun s => ?_) (size_recount _) (free_recount _) (occupied_recount _)
  rw [frame?_collect, Option.isSome_map]

theorem WellShaped.collect (h : a.WellShaped) (held : List Value) :
    (a.collect held).WellShaped := by
  have hsome : ∀ s, ((a.collect held).frame? s).isSome ↔ a.Spared held s := fun s => isSome_collect
  have hprunes := Prunes.collect a held
  refine ⟨h.tree.restrict ((hsome _).2 (spared_root h.tree.root))
      (fun s hs => ⟨hprunes.isSome hs, hprunes.parent? hs⟩) fun s p hp => ?_,
    h.ledger.collect held, fun s g hg => ?_⟩
  · have hs : ((a.collect held).frame? s).isSome := by
      obtain ⟨g, hg, -⟩ := parent?_eq_some.1 hp
      rw [hg]; rfl
    rw [hprunes.parent? hs] at hp
    exact (hsome p).2 (Spared.parent h.tree ((hsome s).1 hs) hp)
  · rw [frame?_collect] at hg
    obtain ⟨f, -, rfl⟩ := Option.map_eq_some_iff.1 hg
    refine (childrenOf_congr (fun t => ?_) s).symm
    simp only [Arena.parent?, frame?_collect]
    rcases (a.swept held).frame? t with _ | f <;> rfl

/-! ### Emptying a slot whose frame is spent -/

theorem frame?_vacate (a : Arena) (s t : Slot) :
    (a.vacate s).frame? t =
      if s = t then none
      else if a.parent? s = some t then (a.frame? t).map Frame.removeChild else a.frame? t := by
  unfold vacate
  rcases a.parent? s with _ | p
  · simp [frame?_clear]
  · simp only [frame?_modify, frame?_clear, Option.some.injEq]
    by_cases hs : s = t <;> by_cases hp : p = t <;> simp [hs, hp]

theorem isSome_vacate : ((a.vacate s).frame? t).isSome ↔ s ≠ t ∧ (a.frame? t).isSome := by
  rw [frame?_vacate]
  by_cases hs : s = t
  · simp [hs]
  · by_cases hp : a.parent? s = some t <;> simp [hs, hp]

theorem parent?_vacate : (a.vacate s).parent? t = if s = t then none else a.parent? t := by
  simp only [parent?, frame?_vacate]
  by_cases hs : s = t
  · simp [hs]
  · by_cases hp : a.parent? s = some t
    · rw [parent?] at hp
      simp only [hs, if_false, hp, if_true]
      rcases a.frame? t with _ | f <;> rfl
    · rw [parent?] at hp
      simp [hs, hp]

theorem size_vacate (a : Arena) (s : Slot) : (a.vacate s).slots.size = a.slots.size := by
  unfold vacate
  split <;> simp

theorem Prunes.vacate (a : Arena) (s : Slot) : a.Prunes (a.vacate s) where
  size := size_vacate a s
  frame t g hg := by
    rw [frame?_vacate] at hg
    split at hg
    · cases hg
    · split at hg
      · obtain ⟨f, hf, rfl⟩ := Option.map_eq_some_iff.1 hg
        exact ⟨f, hf, rfl⟩
      · exact ⟨g, hg, rfl⟩

/-- No frame names a childless one for its parent. -/
theorem WellShaped.ne_parent (h : a.WellShaped) (hf : a.frame? s = some f) (hc : f.children = 0)
    (t : Slot) : a.parent? t ≠ some s := by
  intro ht
  have hpos := List.length_pos_of_mem (mem_childrenOf.2 ht)
  rw [← h.children s f hf, hc] at hpos
  exact Nat.lt_irrefl 0 hpos

theorem Ledger.vacate (h : a.Ledger) (hs : (a.frame? s).isSome) : (a.vacate s).Ledger := by
  unfold Arena.vacate
  split
  · exact (h.clear hs).congr (by simp) (by simp) rfl rfl
  · exact h.clear hs

/-- Emptying the slot of a childless frame other than the root keeps the shape. -/
theorem WellShaped.vacate (h : a.WellShaped) (hf : a.frame? s = some f) (hne : s ≠ root)
    (hc : f.children = 0) : (a.vacate s).WellShaped := by
  have hs : (a.frame? s).isSome := by rw [hf]; rfl
  have horphan := h.ne_parent hf hc
  refine ⟨h.tree.restrict (isSome_vacate.2 ⟨hne, h.tree.root⟩) (fun t ht => ?_) fun t p hp => ?_,
    h.ledger.vacate hs, fun t g hg => ?_⟩
  · exact ⟨(isSome_vacate.1 ht).2, (Prunes.vacate a s).parent? ht⟩
  · rw [parent?_vacate] at hp
    split at hp
    · cases hp
    · exact isSome_vacate.2 ⟨fun e => horphan t (e ▸ hp), h.tree.parent t p hp⟩
  · rw [frame?_vacate] at hg
    split at hg
    · cases hg
    rename_i hst
    have hmem : ∀ u, u ∈ (a.vacate s).childrenOf t ↔ u ≠ s ∧ u ∈ a.childrenOf t := by
      intro u
      rw [mem_childrenOf, mem_childrenOf, parent?_vacate]
      by_cases hu : s = u <;> simp [hu, eq_comm]
    split at hg
    · rename_i hp
      obtain ⟨e, he, rfl⟩ := Option.map_eq_some_iff.1 hg
      have hlen : ((a.vacate s).childrenOf t).length = ((a.childrenOf t).erase s).length :=
        length_eq_of_mem_iff (nodup_childrenOf _ _) ((nodup_childrenOf _ _).erase s) fun u => by
          rw [hmem, (nodup_childrenOf a t).mem_erase_iff]
      rw [hlen, List.length_erase_of_mem (mem_childrenOf.2 hp), ← h.children t e he]
      rfl
    · rename_i hp
      rw [h.children t g hg]
      refine length_eq_of_mem_iff (nodup_childrenOf _ _) (nodup_childrenOf _ _) fun u => ?_
      rw [hmem]
      refine ⟨fun hu => ⟨?_, hu⟩, And.right⟩
      rintro rfl
      exact hp (mem_childrenOf.1 hu)

/-! ### Releasing -/

theorem spent_iff : a.spent held f ↔
    f.live = false ∧ f.children = 0 ∧ ∀ i ∈ f.captured, ¬ a.alive held i := by
  simp [spent, and_assoc]

/-- What emptying the slot of a spent frame keeps, reclaiming keeps. -/
theorem reclaim_keeps {P : Arena → Prop}
    (hstep : ∀ a s f, P a → a.frame? s = some f → s ≠ root → a.spent held f → P (a.vacate s)) :
    ∀ steps s a, P a → P (reclaim held steps s a) := by
  intro steps
  induction steps with
  | zero => exact fun _ _ h => h
  | succ steps ih =>
    intro s a h
    rw [reclaim]
    split
    · exact h
    · rename_i f hf
      split
      · rename_i hspent
        obtain ⟨hne, hspent⟩ := Bool.and_eq_true_iff.1 hspent
        have hnext := hstep a s f h hf (by simpa using hne) hspent
        split
        · exact ih _ _ hnext
        · exact hnext
      · exact h

/-- A release finishes the frame, reclaims, and may collect. -/
theorem release_keeps {P : Arena → Prop} (hne : s ≠ root) (h : P (a.modify s Frame.finish))
    (hstep : ∀ a s f, P a → a.frame? s = some f → s ≠ root → a.spent held f → P (a.vacate s))
    (hcollect : ∀ a, P a → P (a.collect held)) : P (a.release held s) := by
  have hreclaim := reclaim_keeps hstep (a.modify s Frame.finish).slots.size s _ h
  rw [release, if_neg (by simpa using hne)]
  dsimp only
  split
  · exact hcollect _ hreclaim
  · exact hreclaim

theorem Prunes.release (a : Arena) (held : List Value) (hne : s ≠ root) :
    (a.modify s Frame.finish).Prunes (a.release held s) :=
  release_keeps hne (Prunes.refl _) (fun b t _ h _ _ _ => h.trans (Prunes.vacate b t))
    fun b h => h.trans (Prunes.collect b held)

theorem WellShaped.release (h : a.WellShaped) (held : List Value) (s : Slot) :
    (a.release held s).WellShaped := by
  by_cases hs : s = root
  · rwa [Arena.release, if_pos (by simpa using hs)]
  · exact release_keeps hs (h.modify s (fun _ => rfl) fun _ => rfl)
      (fun b t f hb hf hne hspent => hb.vacate hf hne (spent_iff.1 hspent).2.1)
      fun b hb => hb.collect held

end Arena
end Playscript

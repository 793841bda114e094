/-
# The shape of an arena

The frames of an arena are a tree with the root frame for its root (`Tree`),
its books agree with its slots (`Ledger`), and each frame counts its children
(`WellShaped`). Pushing a frame, changing bindings and remembering closures
keep the shape; what reclaiming does to it is in `Proofs/Arena/Reclaiming`.

The slots of a tree are in no order: a slot used again can hold a child of a
frame in a higher slot. So no proof here goes by the number of a slot; the way
from a frame to the root is a list (`Way`), which passes no slot twice
(`Way.nodup`) and so is no longer than the arena (`Way.length_le`).

Key definitions: `Way`, `Tree`, `Ledger`, `WellShaped`, `Finds`.
Key theorems: `WellShaped.push`, `WellShaped.define`, `WellShaped.finds_owner?`.
-/
import Playscript.Proofs.Arena.Basic

namespace Playscript
namespace Arena

variable {a b : Arena} {s t p : Slot} {f g : Frame} {w v : List Slot} {name : String}

/-! ### The way to the root -/

/-- The frames from one up to the root, parent after child. -/
inductive Way (a : Arena) : Slot → List Slot → Prop where
  | root : Way a root [root]
  | step {s p : Slot} {w : List Slot} : a.parent? s = some p → Way a p w → Way a s (s :: w)

/-- A frame has one way to the root, if the root has no parent. -/
theorem Way.unique (hroot : a.parent? Arena.root = none) (h : a.Way s w) (h' : a.Way s v) :
    w = v := by
  induction h generalizing v with
  | root =>
    cases h' with
    | root => rfl
    | step hp _ => rw [hroot] at hp; cases hp
  | step hp _ ih =>
    cases h' with
    | root => rw [hroot] at hp; cases hp
    | step hp' h' =>
      rw [hp] at hp'
      cases hp'
      rw [ih h']

/-- Every frame on a way has a way of its own, which is no longer. -/
theorem Way.of_mem (h : a.Way s w) (ht : t ∈ w) : ∃ v, a.Way t v ∧ v <:+ w := by
  induction h with
  | root =>
    rw [List.mem_singleton.1 ht]
    exact ⟨_, .root, List.suffix_rfl⟩
  | step hp h ih =>
    rcases List.mem_cons.1 ht with rfl | ht
    · exact ⟨_, .step hp h, List.suffix_rfl⟩
    · obtain ⟨v, hv, hsuf⟩ := ih ht
      exact ⟨v, hv, hsuf.trans (List.suffix_cons _ _)⟩

/-- No frame is its own ancestor. -/
theorem Way.nodup (hroot : a.parent? Arena.root = none) (h : a.Way s w) : w.Nodup := by
  induction h with
  | root => exact List.nodup_singleton _
  | @step s p w hp h ih =>
    refine List.nodup_cons.2 ⟨fun hs => ?_, ih⟩
    obtain ⟨v, hv, hsuf⟩ := h.of_mem hs
    have heq : s :: w = v := (Way.step hp h).unique hroot hv
    have hlen := hsuf.length_le
    rw [← heq, List.length_cons] at hlen
    omega

/-- The way is the same where the parents of its frames are. -/
theorem Way.congr (h : a.Way s w) (hp : ∀ t ∈ w, b.parent? t = a.parent? t) : b.Way s w := by
  induction h with
  | root => exact .root
  | step hs _ ih =>
    refine .step ?_ (ih fun t ht => hp t (List.mem_cons_of_mem _ ht))
    rw [hp _ List.mem_cons_self, hs]

/-! ### Trees -/

/-- The frames are a tree: each but the root has a parent that is there, and its way ends at
the root. -/
structure Tree (a : Arena) : Prop where
  root : (a.frame? Arena.root).isSome
  orphan : a.parent? Arena.root = none
  parent : ∀ s p, a.parent? s = some p → (a.frame? p).isSome
  way : ∀ s, (a.frame? s).isSome → ∃ w, a.Way s w

theorem Tree.mem_way (h : a.Tree) (hs : (a.frame? s).isSome) (hw : a.Way s w) (ht : t ∈ w) :
    (a.frame? t).isSome := by
  induction hw with
  | root => rwa [List.mem_singleton.1 ht]
  | step hp _ ih =>
    rcases List.mem_cons.1 ht with rfl | ht
    · exact hs
    · exact ih (h.parent _ _ hp) ht

/-- Every frame but the root has a parent. -/
theorem Tree.exists_parent (h : a.Tree) (hs : (a.frame? s).isSome) (hne : s ≠ Arena.root) :
    ∃ p, a.parent? s = some p := by
  obtain ⟨w, hw⟩ := h.way s hs
  cases hw with
  | root => exact absurd rfl hne
  | step hp _ => exact ⟨_, hp⟩

/-- A way passes only frames that are there, each once. -/
theorem Tree.length_way_le (h : a.Tree) (hs : (a.frame? s).isSome) (hw : a.Way s w) :
    w.length ≤ a.slots.size := by
  have hsub : w ⊆ List.range a.slots.size := fun t ht =>
    List.mem_range.2 (lt_size_of_isSome (h.mem_way hs hw ht))
  simpa using (List.subperm_of_subset (hw.nodup h.orphan) hsub).length_le

/-- Taking frames away leaves a tree if the root stays, and every frame's parent stays with
the frame. -/
theorem Tree.restrict (h : a.Tree) (hroot : (b.frame? Arena.root).isSome)
    (hsub : ∀ s, (b.frame? s).isSome → (a.frame? s).isSome ∧ b.parent? s = a.parent? s)
    (hup : ∀ s p, b.parent? s = some p → (b.frame? p).isSome) : b.Tree where
  root := hroot
  orphan := by rw [(hsub _ hroot).2, h.orphan]
  parent := hup
  way s hs := by
    obtain ⟨w, hw⟩ := h.way s (hsub s hs).1
    refine ⟨w, ?_⟩
    induction hw with
    | root => exact .root
    | step hp _ ih =>
      have hp' := (hsub _ hs).2.trans hp
      exact .step hp' (ih (hup _ _ hp'))

theorem Tree.congr (h : a.Tree) (hsome : ∀ s, (b.frame? s).isSome = (a.frame? s).isSome)
    (hp : ∀ s, b.parent? s = a.parent? s) : b.Tree :=
  h.restrict (by rw [hsome]; exact h.root) (fun s hs => ⟨by rwa [← hsome], hp s⟩)
    fun s p hsp => by rw [hsome]; exact h.parent s p (by rwa [← hp])

/-! ### The books -/

/-- The count of frames and the list of free slots agree with the slots. -/
structure Ledger (a : Arena) : Prop where
  occupied : a.occupied = a.occupiedSlots.length
  nodup_free : a.free.Nodup
  mem_free : ∀ s, s ∈ a.free ↔ s < a.slots.size ∧ a.frame? s = none

theorem Ledger.lt_size (h : a.Ledger) (hs : s ∈ a.free) : s < a.slots.size :=
  ((h.mem_free s).1 hs).1

/-- The next slot to use holds no frame. -/
theorem Ledger.frame?_next (h : a.Ledger) : a.frame? a.next = none := by
  unfold next
  rcases hf : a.free with _ | ⟨s, free⟩
  · simp [frame?]
  · exact ((h.mem_free s).1 (by simp [hf])).2

theorem Ledger.congr (h : a.Ledger) (hsome : ∀ s, (b.frame? s).isSome = (a.frame? s).isSome)
    (hsize : b.slots.size = a.slots.size) (hfree : b.free = a.free)
    (hocc : b.occupied = a.occupied) : b.Ledger where
  occupied := by
    have : b.occupiedSlots = a.occupiedSlots := by simp [occupiedSlots, hsize, hsome]
    rw [hocc, h.occupied, this]
  nodup_free := hfree ▸ h.nodup_free
  mem_free s := by
    rw [hfree, h.mem_free, hsize]
    simp only [← Option.not_isSome_iff_eq_none, hsome]

/-- The first frame to leave a slot is counted. -/
theorem Ledger.occupied_pos (h : a.Ledger) (hs : (a.frame? s).isSome) : 0 < a.occupied := by
  rw [h.occupied]
  exact List.length_pos_of_mem (mem_occupiedSlots.2 hs)

theorem Ledger.clear (h : a.Ledger) (hs : (a.frame? s).isSome) : (a.clear s).Ledger where
  occupied := by
    rw [occupied_clear, occupiedSlots_clear, List.length_erase_of_mem (mem_occupiedSlots.2 hs),
      h.occupied]
  nodup_free := by
    refine List.nodup_cons.2 ⟨fun hmem => ?_, h.nodup_free⟩
    rw [((h.mem_free s).1 hmem).2] at hs
    cases hs
  mem_free t := by
    have hlt := lt_size_of_isSome hs
    rw [free_clear, List.mem_cons, h.mem_free, size_clear, frame?_clear]
    by_cases ht : s = t
    · subst ht; simp [hlt]
    · simp [ht, Ne.symm ht]

/-- Two lists without repetitions and with the same members are equally long. -/
theorem length_eq_of_mem_iff {l l' : List Slot} (h : l.Nodup) (h' : l'.Nodup)
    (hmem : ∀ t, t ∈ l ↔ t ∈ l') : l.length = l'.length :=
  ((List.perm_ext_iff_of_nodup h h').2 hmem).length_eq

theorem Ledger.isSome_push (h : a.Ledger) (p t : Slot) :
    ((a.push p).2.frame? t).isSome ↔ t = a.next ∨ (a.frame? t).isSome := by
  rw [frame?_push fun s => h.lt_size]
  by_cases ht : a.next = t
  · simp [ht]
  · by_cases hp : p = t <;> simp [ht, Ne.symm ht, hp]

theorem Ledger.parent?_push (h : a.Ledger) (p t : Slot) :
    (a.push p).2.parent? t = if a.next = t then some p else a.parent? t := by
  simp only [parent?, frame?_push fun s => h.lt_size]
  by_cases ht : a.next = t
  · simp [ht, Frame.inside]
  · by_cases hp : p = t
    · subst hp
      simp only [ht, if_false, if_true]
      rcases a.frame? p with _ | f <;> rfl
    · simp [ht, hp]

theorem Ledger.push (h : a.Ledger) (p : Slot) : (a.push p).2.Ledger where
  occupied := by
    have hnext : a.next ∉ a.occupiedSlots := by simp [h.frame?_next]
    rw [occupied_push, h.occupied, ← List.length_cons (a := a.next)]
    refine length_eq_of_mem_iff (List.nodup_cons.2 ⟨hnext, nodup_occupiedSlots a⟩)
      (nodup_occupiedSlots _) fun t => ?_
    rw [List.mem_cons, mem_occupiedSlots, mem_occupiedSlots, h.isSome_push]
  nodup_free := by
    rw [free_push]
    exact h.nodup_free.tail
  mem_free t := by
    rw [free_push, size_push, ← Option.not_isSome_iff_eq_none, h.isSome_push]
    have hmem := h.mem_free t
    have hnodup := h.nodup_free
    unfold next
    rcases hf : a.free with _ | ⟨s, free⟩ <;> rw [hf] at hmem hnodup
    · have hnone : ¬ (t < a.slots.size ∧ a.frame? t = none) := fun hc => by simpa using hmem.2 hc
      simp only [List.tail_nil, List.not_mem_nil, ↓reduceIte, List.headD_nil, false_iff]
      rintro ⟨hlt, hno⟩
      obtain ⟨hne, hvacant⟩ := not_or.1 hno
      exact hnone ⟨Nat.lt_of_le_of_ne (Nat.lt_succ_iff.1 hlt) hne,
        Option.not_isSome_iff_eq_none.1 hvacant⟩
    · simp only [List.tail_cons, reduceCtorEq, if_false, List.headD_cons, not_or,
        Option.not_isSome_iff_eq_none]
      rw [List.mem_cons] at hmem
      have hs := (List.nodup_cons.1 hnodup).1
      constructor
      · intro ht
        obtain ⟨hlt, hnone⟩ := hmem.1 (.inr ht)
        exact ⟨hlt, fun he => hs (he ▸ ht), hnone⟩
      · rintro ⟨hlt, hne, hnone⟩
        exact (hmem.2 ⟨hlt, hnone⟩).resolve_left hne

/-! ### Well-shaped arenas -/

/-- A tree of frames with true books, in which each frame counts its children. -/
structure WellShaped (a : Arena) : Prop where
  tree : a.Tree
  ledger : a.Ledger
  children : ∀ s f, a.frame? s = some f → f.children = (a.childrenOf s).length

theorem childrenOf_congr (hp : ∀ t, b.parent? t = a.parent? t) (s : Slot) :
    (b.childrenOf s).length = (a.childrenOf s).length :=
  length_eq_of_mem_iff (nodup_childrenOf _ _) (nodup_childrenOf _ _) fun t => by
    rw [mem_childrenOf, mem_childrenOf, hp]

theorem frame?_empty (s : Slot) :
    Arena.empty.frame? s = if s = root then some (.inside none) else none := by
  rcases s with _ | s <;> rfl

theorem WellShaped.empty : Arena.empty.WellShaped := by
  have hparent : ∀ s, Arena.empty.parent? s = none := by
    intro s
    rw [parent?, frame?_empty]
    split <;> rfl
  refine ⟨⟨rfl, hparent _, fun s p h => ?_, fun s h => ?_⟩, ⟨rfl, List.nodup_nil, fun s => ?_⟩,
    fun s f h => ?_⟩
  · rw [hparent] at h; cases h
  · rw [frame?_empty] at h
    split at h
    · rename_i hs
      subst hs
      exact ⟨_, .root⟩
    · cases h
  · have hlt : s < 1 → s = root := fun h => Nat.lt_one_iff.1 h
    simp only [Arena.empty, List.not_mem_nil, List.size_toArray, List.length_singleton, false_iff]
    rintro ⟨hs, hnone⟩
    rw [hlt hs] at hnone
    cases hnone
  · have hnil : Arena.empty.childrenOf s = [] := by
      rw [List.eq_nil_iff_forall_not_mem]
      intro t ht
      rw [mem_childrenOf, hparent] at ht
      cases ht
    rw [frame?_empty] at h
    split at h
    · cases h; rw [hnil]; rfl
    · cases h

/-- Changes that leave each frame its parent and its count of children keep the shape. -/
theorem WellShaped.modify (h : a.WellShaped) (s : Slot) {u : Frame → Frame}
    (hp : ∀ f, (u f).parent? = f.parent?) (hc : ∀ f, (u f).children = f.children) :
    (a.modify s u).WellShaped where
  tree := h.tree.congr (by simp) (parent?_modify hp)
  ledger := h.ledger.congr (by simp) (by simp) rfl rfl
  children t f hf := by
    rw [childrenOf_congr (parent?_modify hp)]
    rw [frame?_modify] at hf
    split at hf
    · obtain ⟨g, hg, rfl⟩ := Option.map_eq_some_iff.1 hf
      rw [hc, h.children t g hg]
    · exact h.children t f hf

theorem WellShaped.define (h : a.WellShaped) (s : Slot) (name : String) (x : Value) :
    (a.define s name x).WellShaped := h.modify s (fun _ => rfl) fun _ => rfl

theorem WellShaped.capture (h : a.WellShaped) (s : Slot) (identity : Nat) :
    (a.capture s identity).WellShaped := h.modify s (fun _ => rfl) fun _ => rfl

theorem WellShaped.assign? (h : a.WellShaped) {x : Value}
    (hb : a.assign? s name x = some b) : b.WellShaped := by
  obtain ⟨o, -, rfl⟩ := Option.map_eq_some_iff.1 hb
  exact h.define o name x

theorem WellShaped.push (h : a.WellShaped) (hp : (a.frame? p).isSome) :
    (a.push p).2.WellShaped := by
  have hnext := h.ledger.frame?_next
  have hsome := h.ledger.isSome_push p
  have hparent := h.ledger.parent?_push p
  -- nothing names the vacant slot for its parent, so the ways of the other frames stay
  have hfresh : ∀ t, a.parent? t ≠ some a.next := by
    intro t ht
    have := h.tree.parent t _ ht
    rw [hnext] at this
    cases this
  have hkeep : ∀ t, (a.frame? t).isSome → (a.push p).2.parent? t = a.parent? t := by
    intro t ht
    rw [hparent, if_neg]
    rintro rfl
    rw [hnext] at ht
    cases ht
  have hway : ∀ t w, (a.frame? t).isSome → a.Way t w → (a.push p).2.Way t w := fun t w ht hw =>
    hw.congr fun u hu => hkeep u (h.tree.mem_way ht hw hu)
  refine ⟨⟨(hsome _).2 (.inr h.tree.root), (hkeep _ h.tree.root).trans h.tree.orphan, ?_, ?_⟩,
    h.ledger.push p, ?_⟩
  · intro s q hq
    rw [hparent] at hq
    split at hq
    · cases hq
      exact (hsome p).2 (.inr hp)
    · exact (hsome q).2 (.inr (h.tree.parent s q hq))
  · intro s hs
    rcases (hsome s).1 hs with rfl | hs
    · obtain ⟨w, hw⟩ := h.tree.way p hp
      exact ⟨_, .step (by rw [hparent, if_pos rfl]) (hway p w hp hw)⟩
    · obtain ⟨w, hw⟩ := h.tree.way s hs
      exact ⟨w, hway s w hs hw⟩
  · intro s f hf
    rw [frame?_push fun s => h.ledger.lt_size] at hf
    have hother : p ≠ s → ((a.push p).2.childrenOf s).length = (a.childrenOf s).length := by
      intro hne
      refine length_eq_of_mem_iff (nodup_childrenOf _ _) (nodup_childrenOf _ _) fun t => ?_
      rw [mem_childrenOf, mem_childrenOf, hparent]
      split
      · rename_i ht
        subst ht
        have hno : a.parent? a.next = none := by simp [parent?, hnext]
        simp [hno, hne]
      · rfl
    split at hf
    · rename_i hs
      subst hs
      cases hf
      have hne : p ≠ a.next := fun e => by rw [e, hnext] at hp; cases hp
      have hnil : a.childrenOf a.next = [] :=
        List.eq_nil_iff_forall_not_mem.2 fun t ht => hfresh t (mem_childrenOf.1 ht)
      rw [hother hne, hnil]
      rfl
    · split at hf
      · rename_i hs hps
        subst hps
        obtain ⟨g, hg, rfl⟩ := Option.map_eq_some_iff.1 hf
        have hnew : a.next ∉ a.childrenOf p := by
          rw [mem_childrenOf, parent?, hnext]
          simp
        have hlen : ((a.push p).2.childrenOf p).length = (a.next :: a.childrenOf p).length := by
          refine length_eq_of_mem_iff (nodup_childrenOf _ _)
            (List.nodup_cons.2 ⟨hnew, nodup_childrenOf _ _⟩) fun t => ?_
          rw [List.mem_cons, mem_childrenOf, mem_childrenOf, hparent]
          by_cases ht : a.next = t
          · simp [ht]
          · simp [ht, Ne.symm ht]
        rw [hlen, List.length_cons, ← h.children p g hg]
        rfl
      · rename_i hs hps
        rw [hother hps]
        exact h.children s f hf

/-! ### Looking names up

The walk of a look-up goes from parent to parent without a bound of its own.
In a tree it ends, and the bound of `owner?` is never what ends it. -/

/-- The walk that looks a name up from a frame ends with the frame that binds it, or without
one at a frame that has no parent. -/
inductive Finds (a : Arena) (name : String) : Slot → Option Slot → Prop where
  | here {s : Slot} {f : Frame} : a.frame? s = some f → f.bindings.binds name = true →
      Finds a name s (some s)
  | up {s p : Slot} {f : Frame} {o : Option Slot} : a.frame? s = some f →
      f.bindings.binds name = false → f.parent? = some p → Finds a name p o → Finds a name s o
  | none {s : Slot} {f : Frame} : a.frame? s = some f → f.bindings.binds name = false →
      f.parent? = none → Finds a name s none

theorem Finds.isSome_owner {o : Slot} (h : a.Finds name s (some o)) : (a.frame? o).isSome := by
  generalize ho : some o = o' at h
  induction h with
  | here hf _ => cases ho; rw [hf]; rfl
  | up _ _ _ _ ih => exact ih ho
  | none => cases ho

theorem Finds.unique {o o' : Option Slot} (h : a.Finds name s o) (h' : a.Finds name s o') :
    o = o' := by
  induction h generalizing o' with
  | here hf hb => cases h' <;> simp_all
  | up hf hb hp _ ih =>
    cases h' with
    | here hf' hb' => simp_all
    | up hf' hb' hp' h' =>
      rw [hf] at hf'
      cases hf'
      rw [hp] at hp'
      cases hp'
      exact ih h'
    | none hf' hb' hp' => simp_all
  | none hf hb hp => cases h' <;> simp_all

theorem Way.finds_ownerWithin (h : a.Tree) (hw : a.Way s w) (hs : (a.frame? s).isSome) :
    ∀ steps, w.length ≤ steps → a.Finds name s (a.ownerWithin name steps s) := by
  induction hw with
  | root =>
    intro steps hsteps
    obtain ⟨steps, rfl⟩ := Nat.exists_eq_add_of_le' hsteps
    obtain ⟨f, hf⟩ := Option.isSome_iff_exists.1 hs
    have hp : f.parent? = none := by rw [← parent?_of_frame? hf, h.orphan]
    rcases hb : f.bindings.binds name
    · simpa [ownerWithin, hf, hb, hp] using Finds.none hf hb hp
    · simpa [ownerWithin, hf, hb] using Finds.here hf hb
  | @step s p w hp _ ih =>
    intro steps hsteps
    obtain ⟨steps, rfl⟩ : ∃ n, steps = n + 1 := ⟨steps - 1, by simp at hsteps; omega⟩
    obtain ⟨f, hf⟩ := Option.isSome_iff_exists.1 hs
    have hfp : f.parent? = some p := by rw [← parent?_of_frame? hf, hp]
    rcases hb : f.bindings.binds name
    · have := ih (h.parent _ _ hp) steps (by simpa using hsteps)
      simpa [ownerWithin, hf, hb, hfp] using Finds.up hf hb hfp this
    · simpa [ownerWithin, hf, hb] using Finds.here hf hb

/-- Every look-up ends, with the answer of `owner?`. -/
theorem Tree.finds_owner? (h : a.Tree) (hs : (a.frame? s).isSome) (name : String) :
    a.Finds name s (a.owner? s name) := by
  obtain ⟨w, hw⟩ := h.way s hs
  exact hw.finds_ownerWithin h hs _ (h.length_way_le hs hw)

end Arena
end Playscript

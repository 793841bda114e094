/-
# What each operation does to the frames

An arena is seen through `frame?`. Every operation has one equation for it
(`frame?_modify`, `frame?_clear`, `frame?_push`, `frame?_recount`), and nothing
else looks into the slots.
-/
import Playscript.Arena
import Mathlib.Data.List.Nodup
import Mathlib.Data.List.Perm.Basic
import Mathlib.Logic.Relation

namespace Playscript
namespace Arena

variable {a b : Arena} {s t p : Slot} {f g : Frame}

/-! ### Slots -/

theorem frame?_eq_some : a.frame? s = some f ↔ a.slots[s]? = some (some f) := by
  unfold frame?
  rcases a.slots[s]? with _ | _ | f <;> simp

theorem lt_size (h : a.frame? s = some f) : s < a.slots.size := by
  rw [frame?_eq_some] at h
  exact (Array.getElem?_eq_some_iff.1 h).1

theorem lt_size_of_isSome (h : (a.frame? s).isSome) : s < a.slots.size :=
  lt_size (Option.eq_some_of_isSome h)

@[simp] theorem mem_occupiedSlots : s ∈ a.occupiedSlots ↔ (a.frame? s).isSome := by
  unfold occupiedSlots
  simp only [List.mem_filter, List.mem_range, and_iff_right_iff_imp]
  exact lt_size_of_isSome

theorem nodup_occupiedSlots (a : Arena) : a.occupiedSlots.Nodup := List.nodup_range.filter _

theorem parent?_eq_some : a.parent? s = some p ↔ ∃ f, a.frame? s = some f ∧ f.parent? = some p := by
  simp [parent?, Option.bind_eq_some_iff]

theorem parent?_of_frame? (h : a.frame? s = some f) : a.parent? s = f.parent? := by
  simp [parent?, h]

theorem bindings_of_frame? (h : a.frame? s = some f) : a.bindings s = f.bindings := by
  simp [bindings, h]

theorem mem_shown {c : Closure} :
    c ∈ a.shown ↔ ∃ s f, a.frame? s = some f ∧ c ∈ f.bindings.closures := by
  simp only [shown, List.mem_flatMap, Array.mem_toList_iff, frame?_eq_some]
  constructor
  · rintro ⟨slot, hslot, hc⟩
    obtain ⟨s, hs⟩ := Array.getElem?_of_mem hslot
    rcases slot with _ | f
    · simp at hc
    · exact ⟨s, f, hs, by simpa using hc⟩
  · rintro ⟨s, f, hs, hc⟩
    exact ⟨some f, Array.mem_of_getElem? hs, by simpa using hc⟩

theorem mem_buried {c : Closure} :
    c ∈ a.buried ↔ ∃ s f, a.frame? s = some f ∧ c ∈ f.bindings.buried := by
  simp only [buried, List.mem_flatMap, Array.mem_toList_iff, frame?_eq_some]
  constructor
  · rintro ⟨slot, hslot, hc⟩
    obtain ⟨s, hs⟩ := Array.getElem?_of_mem hslot
    rcases slot with _ | f
    · simp at hc
    · exact ⟨s, f, hs, by simpa using hc⟩
  · rintro ⟨s, f, hs, hc⟩
    exact ⟨some f, Array.mem_of_getElem? hs, by simpa using hc⟩

/-! ### Changing a frame -/

theorem frame?_modify (a : Arena) (s : Slot) (u : Frame → Frame) (t : Slot) :
    (a.modify s u).frame? t = if s = t then (a.frame? t).map u else a.frame? t := by
  simp only [modify, frame?, Array.getElem?_modify]
  split
  · rcases a.slots[t]? with _ | _ | f <;> rfl
  · rfl

theorem frame?_modify_self (h : a.frame? s = some f) (u : Frame → Frame) :
    (a.modify s u).frame? s = some (u f) := by simp [frame?_modify, h]

theorem frame?_modify_of_ne (h : t ≠ s) (u : Frame → Frame) :
    (a.modify s u).frame? t = a.frame? t := by simp [frame?_modify, h.symm]

@[simp] theorem isSome_frame?_modify (a : Arena) (s : Slot) (u : Frame → Frame) (t : Slot) :
    ((a.modify s u).frame? t).isSome = (a.frame? t).isSome := by
  rw [frame?_modify]
  split <;> simp

/-- Only what happens to the frame that is there matters. -/
theorem modify_congr {u v : Frame → Frame} (h : a.frame? s = some f) (huv : u f = v f) :
    a.modify s u = a.modify s v := by
  rw [frame?_eq_some] at h
  have hslots : a.slots.modify s (Option.map u) = a.slots.modify s (Option.map v) := by
    refine Array.ext_getElem? fun t => ?_
    simp only [Array.getElem?_modify]
    split
    · rename_i ht
      rw [← ht, h]
      exact congrArg (fun g => some (some g)) huv
    · rfl
  rw [modify, modify, hslots]

theorem modify_id (a : Arena) (s : Slot) : a.modify s (fun f => f) = a := by
  have hslots : a.slots.modify s (Option.map fun f => f) = a.slots := by
    refine Array.ext_getElem? fun t => ?_
    simp [Array.getElem?_modify]
  rw [modify, hslots]

theorem modify_modify (a : Arena) (s : Slot) (u v : Frame → Frame) :
    (a.modify s u).modify s v = a.modify s (v ∘ u) := by
  have hslots : (a.slots.modify s (Option.map u)).modify s (Option.map v) =
      a.slots.modify s (Option.map (v ∘ u)) := by
    refine Array.ext_getElem? fun t => ?_
    simp only [Array.getElem?_modify]
    split
    · rw [Option.map_map, Option.map_comp_map]
    · rfl
  exact congrArg (fun slots => { a with slots }) hslots

theorem parent?_modify {u : Frame → Frame} (hu : ∀ f, (u f).parent? = f.parent?) (t : Slot) :
    (a.modify s u).parent? t = a.parent? t := by
  simp only [parent?, frame?_modify]
  split
  · rcases a.frame? t with _ | f <;> simp [hu]
  · rfl

theorem bindings_modify {u : Frame → Frame} (hu : ∀ f, (u f).bindings = f.bindings) (t : Slot) :
    (a.modify s u).bindings t = a.bindings t := by
  simp only [bindings, frame?_modify]
  split
  · rcases a.frame? t with _ | f <;> simp [hu]
  · rfl

@[simp] theorem size_modify (a : Arena) (s : Slot) (u : Frame → Frame) :
    (a.modify s u).slots.size = a.slots.size := by simp [modify]

@[simp] theorem free_modify (a : Arena) (s : Slot) (u : Frame → Frame) :
    (a.modify s u).free = a.free := rfl

@[simp] theorem occupied_modify (a : Arena) (s : Slot) (u : Frame → Frame) :
    (a.modify s u).occupied = a.occupied := rfl

/-! ### Emptying a slot -/

theorem frame?_clear (a : Arena) (s t : Slot) :
    (a.clear s).frame? t = if s = t then none else a.frame? t := by
  simp only [clear, frame?, Array.getElem?_setIfInBounds]
  split
  · split <;> rfl
  · rfl

@[simp] theorem size_clear (a : Arena) (s : Slot) : (a.clear s).slots.size = a.slots.size := by
  simp [clear]

@[simp] theorem free_clear (a : Arena) (s : Slot) : (a.clear s).free = s :: a.free := rfl

@[simp] theorem occupied_clear (a : Arena) (s : Slot) :
    (a.clear s).occupied = a.occupied - 1 := rfl

theorem occupiedSlots_clear (a : Arena) (s : Slot) :
    (a.clear s).occupiedSlots = a.occupiedSlots.erase s := by
  rw [(nodup_occupiedSlots a).erase_eq_filter]
  simp only [occupiedSlots, size_clear, List.filter_filter]
  refine List.filter_congr fun t _ => ?_
  rw [frame?_clear]
  by_cases h : s = t
  · simp [h]
  · simp [h, Ne.symm h]

/-! ### A new frame -/

/-- The next slot to use is the one emptied last, or the first that never held a frame. -/
def next (a : Arena) : Slot := a.free.headD a.slots.size

theorem push_fst (a : Arena) (p : Slot) : (a.push p).1 = a.next := by
  unfold push place next
  rcases h : a.free with _ | ⟨s, free⟩ <;> simp [h]

theorem frame?_place (hfree : ∀ s ∈ a.free, s < a.slots.size) (f : Frame) (t : Slot) :
    (a.place f).2.frame? t = if a.next = t then some f else a.frame? t := by
  unfold place next
  rcases h : a.free with _ | ⟨s, free⟩
  · by_cases ht : a.slots.size = t
    · subst ht
      simp [frame?]
    · simp [frame?, Array.getElem?_push, ht, Ne.symm ht]
  · have hs : s < a.slots.size := hfree s (by simp [h])
    by_cases ht : s = t
    · subst ht
      simp [frame?, hs]
    · simp [frame?, ht]

theorem frame?_push (hfree : ∀ s ∈ a.free, s < a.slots.size) (p t : Slot) :
    (a.push p).2.frame? t =
      if a.next = t then some (.inside (some p))
      else if p = t then (a.frame? t).map Frame.addChild else a.frame? t := by
  have hnext : (a.modify p Frame.addChild).next = a.next := by simp [next]
  rw [push, frame?_place (by simpa using hfree), frame?_modify, hnext]

theorem bindings_push (hfree : ∀ s ∈ a.free, s < a.slots.size) (p : Slot) (ht : a.next ≠ t) :
    (a.push p).2.bindings t = a.bindings t := by
  rw [bindings, frame?_push hfree, if_neg ht]
  split
  · unfold bindings
    rcases a.frame? t with _ | f <;> rfl
  · rfl

theorem bindings_push_self (hfree : ∀ s ∈ a.free, s < a.slots.size) (p : Slot) :
    (a.push p).2.bindings (a.push p).1 = .empty := by
  rw [push_fst, bindings, frame?_push hfree, if_pos rfl]
  rfl

/-- A new frame binds nothing, wherever it is put. -/
theorem bindings_push_or (a : Arena) (p t : Slot) :
    (a.push p).2.bindings t = a.bindings t ∨ (a.push p).2.bindings t = .empty := by
  rw [← bindings_modify (s := p) (u := Frame.addChild) (a := a) fun _ => rfl]
  unfold push place
  generalize a.modify p Frame.addChild = b
  rcases hfree : b.free with _ | ⟨s, free⟩
  · by_cases ht : t = b.slots.size
    · exact .inr (by simp [bindings, frame?, ht, Frame.inside])
    · exact .inl (by simp [bindings, frame?, Array.getElem?_push, ht])
  · by_cases ht : s = t
    · by_cases hs : s < b.slots.size
      · exact .inr (by simp [bindings, frame?, ← ht, hs, Frame.inside])
      · exact .inr (by simp [bindings, frame?, ← ht, hs])
    · exact .inl (by simp [bindings, frame?, ht])

theorem mem_bindings_push {v : Value} (h : v ∈ ((a.push p).2.bindings t).values) :
    v ∈ (a.bindings t).values := by
  rcases bindings_push_or a p t with heq | heq
  · rwa [heq] at h
  · rw [heq] at h
    cases h

theorem size_push (a : Arena) (p : Slot) :
    (a.push p).2.slots.size = if a.free = [] then a.slots.size + 1 else a.slots.size := by
  unfold push place
  rcases h : a.free with _ | ⟨s, free⟩ <;> simp [h]

theorem free_push (a : Arena) (p : Slot) : (a.push p).2.free = a.free.tail := by
  unfold push place
  rcases h : a.free with _ | ⟨s, free⟩ <;> simp [h]

theorem occupied_push (a : Arena) (p : Slot) : (a.push p).2.occupied = a.occupied + 1 := by
  unfold push place
  rcases h : a.free with _ | ⟨s, free⟩ <;> simp [h]

/-! ### Counting children anew -/

/-- The frames whose parent is the frame in a slot. -/
def childrenOf (a : Arena) (s : Slot) : List Slot :=
  a.occupiedSlots.filter fun t => a.parent? t == some s

theorem mem_childrenOf : t ∈ a.childrenOf s ↔ a.parent? t = some s := by
  simp only [childrenOf, List.mem_filter, mem_occupiedSlots, beq_iff_eq, and_iff_right_iff_imp]
  intro h
  obtain ⟨f, hf, -⟩ := parent?_eq_some.1 h
  simp [hf]

theorem nodup_childrenOf (a : Arena) (s : Slot) : (a.childrenOf s).Nodup :=
  (nodup_occupiedSlots a).filter _

theorem toList_slots (a : Arena) : a.slots.toList = (List.range a.slots.size).map a.frame? := by
  refine List.ext_getElem (by simp) fun s hs _ => ?_
  have hs' : s < a.slots.size := by simpa using hs
  simp [frame?, hs']

theorem countP_slots (a : Arena) (s : Slot) :
    a.slots.toList.countP (fun slot => slot.bind Frame.parent? == some s) =
      (a.childrenOf s).length := by
  have hfilter : a.childrenOf s =
      (List.range a.slots.size).filter fun t => a.parent? t == some s := by
    unfold childrenOf occupiedSlots
    rw [List.filter_filter]
    refine List.filter_congr fun t _ => ?_
    rcases h : a.frame? t with _ | f <;> simp [parent?, h]
  rw [toList_slots, List.countP_map, List.countP_eq_length_filter, hfilter]
  rfl

theorem frame?_countChild (a : Arena) (slot : Option Frame) (t : Slot) :
    (a.countChild slot).frame? t = (a.frame? t).map fun f =>
      { f with children := f.children + if slot.bind Frame.parent? == some t then 1 else 0 } := by
  unfold countChild
  rcases slot.bind Frame.parent? with _ | p
  · simp
  · by_cases h : p = t
    · subst h
      simp [frame?_modify]
      rfl
    · simp [frame?_modify, h]

theorem frame?_foldl_countChild (slots : List (Option Frame)) (a : Arena) (t : Slot) :
    (slots.foldl countChild a).frame? t = (a.frame? t).map fun f =>
      { f with children := f.children +
        slots.countP fun slot => slot.bind Frame.parent? == some t } := by
  induction slots generalizing a with
  | nil => simp
  | cons slot slots ih =>
    rw [List.foldl_cons, ih, frame?_countChild, Option.map_map, List.countP_cons]
    congr 1
    funext f
    simp only [Function.comp_apply, Frame.mk.injEq, true_and, and_true]
    omega

theorem frame?_recount (a : Arena) (t : Slot) :
    a.recount.frame? t =
      (a.frame? t).map fun f => { f with children := (a.childrenOf t).length } := by
  unfold recount
  rw [← Array.foldl_toList, frame?_foldl_countChild, countP_slots]
  simp only [frame?, Array.getElem?_map]
  rcases a.slots[t]? with _ | _ | f <;> simp

/-- Counting anew changes nothing but the frames. -/
theorem foldl_countChild (slots : List (Option Frame)) (a : Arena) :
    (slots.foldl countChild a).slots.size = a.slots.size ∧
      (slots.foldl countChild a).free = a.free ∧
      (slots.foldl countChild a).occupied = a.occupied := by
  induction slots generalizing a with
  | nil => exact ⟨rfl, rfl, rfl⟩
  | cons slot slots ih =>
    obtain ⟨hsize, hfree, hocc⟩ := ih (a.countChild slot)
    have hone : (a.countChild slot).slots.size = a.slots.size ∧
        (a.countChild slot).free = a.free ∧ (a.countChild slot).occupied = a.occupied := by
      unfold countChild
      split <;> simp
    exact ⟨hsize.trans hone.1, hfree.trans hone.2.1, hocc.trans hone.2.2⟩

@[simp] theorem size_recount (a : Arena) : a.recount.slots.size = a.slots.size := by
  unfold recount
  rw [← Array.foldl_toList, (foldl_countChild _ _).1]
  simp

@[simp] theorem free_recount (a : Arena) : a.recount.free = a.free := by
  unfold recount
  rw [← Array.foldl_toList, (foldl_countChild _ _).2.1]

@[simp] theorem occupied_recount (a : Arena) : a.recount.occupied = a.occupied := by
  unfold recount
  rw [← Array.foldl_toList, (foldl_countChild _ _).2.2]

end Arena
end Playscript

/-
# Frames at work through pushes and releases

A new frame is at work and takes a vacant slot; its release ends that work and
no other. So after a push and the release of the frame pushed, with anything in
between that keeps the frames at work, the same frames are at work as before
(`Sturdy.live_release_push`). For this the books have to be true, so that the
new slot is vacant, and the root has to be there, so that the new slot is not the
root, which is never released (`Sturdy`).

The names that a frame binds change only where a name is set that the frame does
not bind yet: an assignment sets a name where it is bound (`binds_define`), and
the release of one frame leaves what others at work bind.

Key definitions: `Sturdy`, `Alike`.
Key theorems: `Sturdy.push`, `Sturdy.release`, `Sturdy.live_release_push`, `binds_define`.
-/
import Playscript.Proofs.Arena.Keeping

namespace Playscript
namespace Arena

variable {a b c : Arena} {s t p : Slot} {held : List Value}

/-! ### Sturdy arenas -/

/-- The books are true, and the root is there. -/
structure Sturdy (a : Arena) : Prop where
  ledger : a.Ledger
  root : (a.frame? Arena.root).isSome

theorem Sturdy.next_ne_root (h : a.Sturdy) : a.next ≠ Arena.root := by
  intro heq
  have hroot := h.root
  rw [← heq, h.ledger.frame?_next] at hroot
  cases hroot

theorem Sturdy.not_live_next (h : a.Sturdy) : ¬ a.Live a.next := by
  intro hlive
  have hsome := hlive.isSome
  rw [h.ledger.frame?_next] at hsome
  cases hsome

theorem Sturdy.push (h : a.Sturdy) (p : Slot) : (a.push p).2.Sturdy where
  ledger := h.ledger.push p
  root := (h.ledger.isSome_push p Arena.root).2 (.inr h.root)

theorem Sturdy.collect (h : a.Sturdy) (held : List Value) : (a.collect held).Sturdy where
  ledger := h.ledger.collect held
  root := isSome_collect.2 (spared_root h.root)

theorem Sturdy.vacate (h : a.Sturdy) (hs : (a.frame? s).isSome) (hne : s ≠ Arena.root) :
    (a.vacate s).Sturdy where
  ledger := h.ledger.vacate hs
  root := isSome_vacate.2 ⟨hne, h.root⟩

theorem Sturdy.modify (h : a.Sturdy) (s : Slot) (u : Frame → Frame) : (a.modify s u).Sturdy where
  ledger := h.ledger.congr (by simp) (by simp) rfl rfl
  root := by simpa using h.root

theorem Sturdy.release (h : a.Sturdy) (held : List Value) (s : Slot) :
    (a.release held s).Sturdy := by
  by_cases hs : s = Arena.root
  · rwa [Arena.release, if_pos (by simpa using hs)]
  · refine release_keeps hs (h.modify s Frame.finish) (fun b t f hb hf hne _ => ?_)
      fun b hb => hb.collect held
    exact hb.vacate (by rw [hf]; rfl) hne

/-! ### Changes that start and end no frame -/

/-- The same frames are there and at work, and the books are the same. -/
structure Alike (a b : Arena) : Prop where
  size : b.slots.size = a.slots.size
  free : b.free = a.free
  occupied : b.occupied = a.occupied
  isSome : ∀ s, (b.frame? s).isSome = (a.frame? s).isSome
  live : ∀ s, b.Live s ↔ a.Live s

theorem Alike.refl (a : Arena) : a.Alike a := ⟨rfl, rfl, rfl, fun _ => rfl, fun _ => Iff.rfl⟩

theorem Alike.trans (h : a.Alike b) (h' : b.Alike c) : a.Alike c where
  size := h'.size.trans h.size
  free := h'.free.trans h.free
  occupied := h'.occupied.trans h.occupied
  isSome s := (h'.isSome s).trans (h.isSome s)
  live s := (h'.live s).trans (h.live s)

theorem Alike.modify (a : Arena) (s : Slot) {u : Frame → Frame} (hu : ∀ f, (u f).live = f.live) :
    a.Alike (a.modify s u) where
  size := size_modify a s u
  free := free_modify a s u
  occupied := occupied_modify a s u
  isSome := isSome_frame?_modify a s u
  live _ := live_modify hu

theorem Alike.define (a : Arena) (s : Slot) (name : String) (v : Value) :
    a.Alike (a.define s name v) := .modify a s fun _ => rfl

theorem Alike.capture (a : Arena) (s : Slot) (identity : Nat) :
    a.Alike (a.capture s identity) := .modify a s fun _ => rfl

theorem Sturdy.congr (h : a.Sturdy) (hb : a.Alike b) : b.Sturdy where
  ledger := h.ledger.congr hb.isSome hb.size hb.free hb.occupied
  root := (hb.isSome _).trans h.root

/-- A frame is pushed and released; in between the frames at work are kept. -/
theorem Sturdy.live_release_push (h : a.Sturdy) (p : Slot)
    (hb : ∀ s, b.Live s ↔ (a.push p).2.Live s) :
    (b.release held (a.push p).1).Live t ↔ a.Live t := by
  rw [push_fst, live_release h.next_ne_root, hb, h.ledger.live_push]
  refine ⟨fun ⟨hne, hlive⟩ => hlive.resolve_left hne, fun hlive => ⟨?_, .inr hlive⟩⟩
  rintro rfl
  exact h.not_live_next hlive

/-! ### The names that frames bind -/

theorem bindings_capture (a : Arena) (s : Slot) (identity : Nat) (t : Slot) :
    (a.capture s identity).bindings t = a.bindings t :=
  bindings_modify (u := Frame.capture identity) (fun _ => rfl) t

theorem bindings_define_of_ne (hne : t ≠ s) (name : String) (v : Value) :
    (a.define s name v).bindings t = a.bindings t := by
  rw [bindings, define, frame?_modify_of_ne hne, ← bindings]

theorem bindings_define_self (hs : (a.frame? s).isSome) (name : String) (v : Value) :
    (a.define s name v).bindings s = (a.bindings s).insert name v := by
  obtain ⟨f, hf⟩ := Option.isSome_iff_exists.1 hs
  rw [define, bindings_of_frame? (frame?_modify_self hf _), bindings_of_frame? hf]
  rfl

/-- Setting a name where it is bound changes the names of no frame. -/
theorem binds_define (hs : (a.frame? s).isSome) {name : String}
    (hname : (a.bindings s).binds name = true) (v : Value) :
    ((a.define s name v).bindings t).binds = (a.bindings t).binds := by
  by_cases hts : t = s
  · rw [hts, bindings_define_self hs, Bindings.binds_insert_of_binds hname]
  · rw [bindings_define_of_ne hts]

/-- The frame that is found for a name is there and binds it. -/
theorem binds_of_ownerWithin {name : String} {o : Slot} (steps : Nat)
    (h : a.ownerWithin name steps s = some o) :
    (a.frame? o).isSome ∧ (a.bindings o).binds name = true := by
  induction steps generalizing s with
  | zero => cases h
  | succ steps ih =>
    rw [ownerWithin] at h
    split at h
    · cases h
    · rename_i f hf
      split at h
      · rename_i hbinds
        cases h
        exact ⟨by rw [hf]; rfl, by rwa [bindings_of_frame? hf]⟩
      · split at h
        · exact ih h
        · cases h

/-- An assignment changes values only. -/
theorem binds_assign? {name : String} {v : Value} (h : a.assign? s name v = some b) (t : Slot) :
    (b.bindings t).binds = (a.bindings t).binds := by
  obtain ⟨o, ho, rfl⟩ := Option.map_eq_some_iff.1 h
  obtain ⟨hsome, hbinds⟩ := binds_of_ownerWithin _ ho
  exact binds_define hsome hbinds v

theorem Alike.assign? {name : String} {v : Value} (h : a.assign? s name v = some b) :
    a.Alike b := by
  obtain ⟨o, -, rfl⟩ := Option.map_eq_some_iff.1 h
  exact .define a o name v

/-- A release changes no bindings of the frames that stay. -/
theorem bindings_release (h : ((a.release held s).frame? t).isSome) :
    (a.frame? t).isSome ∧ (a.release held s).bindings t = a.bindings t := by
  obtain ⟨f, hf⟩ := Option.isSome_iff_exists.1 h
  obtain ⟨g, hg, -, hbindings, -⟩ := frame?_release hf
  rw [bindings_of_frame? hf, bindings_of_frame? hg, hbindings, hg]
  exact ⟨rfl, rfl⟩

/-- The release of another frame changes no bindings of a frame at work. -/
theorem Live.bindings_release (h : a.Live t) (hne : t ≠ s) :
    (a.release held s).bindings t = a.bindings t :=
  (Arena.bindings_release (h.release hne).isSome).2

end Arena
end Playscript

/-
# Exactly what a collection keeps

A collection keeps the frames that are reached from where it starts, and no
others, if every living closure is captured where it was made (`Tethered`). What
it keeps is as it was, but for the counts of children. The slots it empties come
in front of the free ones, the highest first, so that the one emptied last is
used first.

Key definitions: `Tethered`.
Key theorems: `isSome_collect_iff_reaches`, `free_collect`, `collect_exact`.
-/
import Playscript.Proofs.Arena.Exactness
import Playscript.Proofs.Arena.Histories

namespace Playscript
namespace Arena

variable {a : Arena} {s : Slot} {f : Frame} {held : List Value} {c : Closure}

/-! ### Captured where they were made -/

/-- The closures captured at a frame. -/
def captured (a : Arena) (s : Slot) : List Nat := ((a.frame? s).map Frame.captured).getD []

theorem captured_of_frame? (hf : a.frame? s = some f) : a.captured s = f.captured := by
  simp [captured, hf]

/-- Every living closure is captured at the frame it closes over, and at no other. -/
def Tethered (a : Arena) (held : List Value) : Prop :=
  ∀ c, a.Living held c → ∀ s, c.identity ∈ a.captured s ↔ s = c.frame

theorem Tethered.secure (h : a.Tethered held) : a.Secure held := by
  intro c hc
  have hmem := (h c hc c.frame).2 rfl
  rcases hf : a.frame? c.frame with _ | f
  · simp [captured, hf] at hmem
  · exact ⟨f, hf, captured_of_frame? hf ▸ hmem⟩

theorem Tethered.homed (h : a.Tethered held) : a.Homed held := fun s _ hf c hc hmem =>
  ((h c hc s).1 ((captured_of_frame? hf).symm ▸ hmem)).symm

/-! ### The slots that are emptied -/

theorem unmarked_sublist {edges : Slot → List Slot} {unseen pending : List Slot} :
    (unmarked edges unseen pending).Sublist unseen := by
  induction unseen, pending using unmarked.induct edges with
  | case1 unseen => rw [unmarked]
  | case2 unseen s pending hs ih =>
    rw [unmarked, if_pos hs]
    exact ih.trans List.erase_sublist
  | case3 unseen s pending hs ih =>
    rw [unmarked, if_neg hs]
    exact ih

/-- Garbage is listed in the order of the slots. -/
theorem pairwise_lt_garbage (a : Arena) (held : List Value) :
    (a.garbage held).Pairwise (· < ·) :=
  (List.pairwise_lt_range.filter _).sublist unmarked_sublist

/-- Garbage is what a collection takes. -/
theorem mem_garbage_iff :
    s ∈ a.garbage held ↔ (a.frame? s).isSome ∧ (a.collect held).frame? s = none := by
  rw [mem_garbage, ← isSome_collect, Option.not_isSome_iff_eq_none]

theorem free_foldl_clear (l : List Slot) (a : Arena) :
    (l.foldl clear a).free = l.reverse ++ a.free := by
  induction l generalizing a with
  | nil => rfl
  | cons s l ih => simp [ih]

/-- A collection frees the slots of garbage, the highest to be used first. -/
theorem free_collect (a : Arena) (held : List Value) :
    (a.collect held).free = (a.garbage held).reverse ++ a.free := by
  show (a.swept held).recount.free = _
  rw [free_recount, free_foldl_clear]

/-! ### Exactness -/

/-- A collection leaves what is reached from where it starts. -/
theorem isSome_collect_iff_reaches (hshape : a.WellShaped) (htethered : a.Tethered held) :
    ((a.collect held).frame? s).isSome ↔ a.Reaches (a.Starts held) s :=
  have hsecure := htethered.secure
  isSome_collect.trans <| spared_iff_reaches hshape.tree hsecure.grounded fun _ =>
    (anchors_iff_starts hshape.tree hsecure htethered.homed).symm

/-- In a well-shaped arena whose living closures are captured where they were made, a collection
leaves exactly the least set of frames that has the root, the frames at work and the frames of the
closures with a place that no binding shows (in hand, or in the default of a capsule), and that has
with every frame its parent and the frames of the closures it binds. The frames that stay keep
their bindings, their parents and their work. The slots that are freed join the free ones in
ascending order, the last to be used first. -/
theorem collect_exact (hshape : a.WellShaped) (htethered : a.Tethered held) :
    (∀ s, ((a.collect held).frame? s).isSome ↔ a.Reaches (a.Starts held) s) ∧
      (∀ s g, (a.collect held).frame? s = some g → ∃ f, a.frame? s = some f ∧
        g.bindings = f.bindings ∧ g.parent? = f.parent? ∧ g.live = f.live) ∧
      ∃ freed : List Slot, freed.Pairwise (· < ·) ∧
        (∀ s, s ∈ freed ↔ (a.frame? s).isSome ∧ (a.collect held).frame? s = none) ∧
        (a.collect held).free = freed.reverse ++ a.free := by
  refine ⟨fun s => isSome_collect_iff_reaches hshape htethered, fun s g hg => ?_,
    a.garbage held, pairwise_lt_garbage a held, fun s => mem_garbage_iff, free_collect a held⟩
  obtain ⟨f, hf, hgf⟩ := (Prunes.collect a held).frame s g hg
  exact ⟨f, hf, by rw [hgf], by rw [hgf], by rw [hgf]⟩

/-- A closure with an empty body. -/
def blank (identity : Nat) (frame : Slot) : Closure :=
  { identity, name := "f", params := [], body := ⟨default, []⟩, frame }

/-- Three finished frames: the first binds its own closure and, in arrays, that of the second;
the third binds its own. -/
def tangle : Arena :=
  ((((((((((((Arena.empty.step (.push 0)).step (.push 0)).step (.push 0)).step
    (.capture 1 1)).step (.capture 2 2)).step (.capture 3 3)).step
    (.define 1 "f" (.closure (blank 1 1)))).step
    (.define 1 "g" (.array [.array [.closure (blank 2 2)]]))).step
    (.define 3 "f" (.closure (blank 3 3)))).step
    (.release [] 1)).step (.release [] 2)).step (.release [] 3))

theorem reachable_tangle : tangle.Reachable := by
  refine .step (.step (.step (.step (.step (.step (.step (.step (.step
    (.step (.step (.step .empty ?_) ?_) ?_) ?_) ?_) ?_) ?_) ?_) ?_) ?_) ?_) ?_
  all_goals decide

theorem living_tangle (hc : tangle.Living [.closure (blank 1 1)] c) :
    c = blank 1 1 ∨ c = blank 2 2 ∨ c = blank 3 3 := by
  have hshown : tangle.shown = [blank 1 1, blank 2 2, blank 3 3] := rfl
  rcases hc with hc | ⟨t, f, hf, hc⟩
  · exact .inl (List.mem_singleton.1 hc)
  · rcases mem_places.1 hc with hc | hc
    · simpa [hshown] using mem_shown.2 ⟨t, f, hf, hc⟩
    · exact absurd (mem_buried.2 ⟨t, f, hf, hc⟩) List.not_mem_nil

theorem tethered_tangle : tangle.Tethered [.closure (blank 1 1)] := by
  have hcaptured : ∀ s, tangle.captured s = if s = 1 ∨ s = 2 ∨ s = 3 then [s] else [] := by
    rintro (_ | _ | _ | _ | s) <;> rfl
  intro c hc s
  rw [hcaptured]
  rcases living_tangle hc with rfl | rfl | rfl <;> simp [blank] <;> grind

/-- Nothing leads to the third frame but the frame itself. -/
theorem lt_of_reaches_tangle (h : tangle.Reaches (tangle.Starts [.closure (blank 1 1)]) s) :
    s < 3 := by
  have hedges : ∀ s < 3, ∀ t ∈ tangle.edges s, t < 3 := by decide
  induction h with
  | @start s h =>
    rcases h with ⟨f, hf, hwork⟩ | rfl | ⟨c, hc, rfl⟩
    · rcases s with _ | _ | _ | _ | s <;> cases hf
      · decide
      all_goals cases hwork
    · decide
    · rw [List.mem_singleton.1 hc]
      decide
  | parent _ hp ih =>
    obtain ⟨f, hf, hfp⟩ := parent?_eq_some.1 hp
    exact hedges _ ih _ ((mem_edges hf).2 (.inl hfp))
  | bound _ hf hc ih => exact hedges _ ih _ ((mem_edges hf).2 (.inr ⟨_, hc, rfl⟩))

/-- While the first closure is held outside as well, a collection takes the third frame alone. -/
theorem collect_exact_tangle :
    tangle.WellShaped ∧ tangle.Tethered [.closure (blank 1 1)] ∧
      ((tangle.collect [.closure (blank 1 1)]).frame? 2).isSome ∧
      (tangle.collect [.closure (blank 1 1)]).frame? 3 = none := by
  obtain ⟨hkept, -, -⟩ := collect_exact reachable_tangle.wellShaped tethered_tangle
  refine ⟨reachable_tangle.wellShaped, tethered_tangle, (hkept 2).2 ?_, ?_⟩
  · have hfirst : tangle.Reaches (tangle.Starts [.closure (blank 1 1)]) 1 :=
      .start (.inr (.inr ⟨blank 1 1, List.mem_singleton_self _, rfl⟩))
    exact .bound (c := blank 2 2) hfirst rfl (List.mem_cons_of_mem _ List.mem_cons_self)
  · rw [← Option.not_isSome_iff_eq_none, hkept]
    exact fun h => absurd (lt_of_reaches_tangle h) (Nat.lt_irrefl 3)

end Arena
end Playscript

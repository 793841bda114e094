/-
# What holds after any history of an arena

A history is any sequence of operations in which every frame argument is a
frame that is there. After each of them the arena is well-shaped
(`Reachable.wellShaped`), a new frame never takes the place of another, and
every look-up ends.

The counts of an arena are natural numbers, for which `0 - 1 = 0`. So that no
count is ever taken below zero is said with a second reading of the operations,
`step?`, in which a count that is zero cannot go down: it never fails
(`WellShaped.step?_eq`).

Key definitions: `Op`, `step`, `Reachable`, `step?`.
Key theorems: `Reachable.wellShaped`, `WellShaped.step?_eq`, `reachable_invariant`.
-/
import Playscript.Proofs.Arena.Reclaiming

namespace Playscript
namespace Arena

variable {a : Arena} {s p : Slot} {f : Frame} {held : List Value}

/-! ### Histories -/

/-- An operation on an arena. Those that ask who is alive are told what is held outside. -/
inductive Op where
  | push (parent : Slot)
  | release (held : List Value) (s : Slot)
  | capture (s : Slot) (identity : Nat)
  | define (s : Slot) (name : String) (v : Value)
  | assign (s : Slot) (name : String) (v : Value)
  | collect (held : List Value)

/-- The frame an operation is about. -/
def Op.slot? : Op → Option Slot
  | push s | release _ s | capture s _ | define s _ _ | assign s _ _ => some s
  | collect _ => none

/-- The arena after an operation; an assignment to a name that nothing binds changes nothing. -/
def step (a : Arena) : Op → Arena
  | .push p => (a.push p).2
  | .release held s => a.release held s
  | .capture s identity => a.capture s identity
  | .define s name v => a.define s name v
  | .assign s name v => (a.assign? s name v).getD a
  | .collect held => a.collect held

/-- The frame an operation is about is there. -/
def Op.Allowed (a : Arena) (op : Op) : Prop := op.slot?.all fun s => (a.frame? s).isSome

instance (a : Arena) (op : Op) : Decidable (op.Allowed a) :=
  inferInstanceAs (Decidable (op.slot?.all _ = true))

/-- An arena that some history of a new one leads to. -/
inductive Reachable : Arena → Prop where
  | empty : Reachable .empty
  | step {a : Arena} {op : Op} : Reachable a → op.Allowed a → Reachable (a.step op)

theorem WellShaped.step (h : a.WellShaped) {op : Op} (hop : op.Allowed a) :
    (a.step op).WellShaped := by
  cases op with
  | push p => exact h.push hop
  | release held s => exact h.release held s
  | capture s identity => exact h.capture s identity
  | define s name v => exact h.define s name v
  | assign s name v =>
    show ((a.assign? s name v).getD a).WellShaped
    rcases hb : a.assign? s name v with _ | b
    · exact h
    · exact h.assign? hb
  | collect held => exact h.collect held

/-- Every history leads to a well-shaped arena. -/
theorem Reachable.wellShaped (h : a.Reachable) : a.WellShaped := by
  induction h with
  | empty => exact .empty
  | step _ hop ih => exact ih.step hop

/-! ### Counts that cannot go below zero -/

/-- One less, if there is one. -/
def down? : Nat → Option Nat
  | 0 => none
  | n + 1 => some n

theorem down?_of_pos {n : Nat} (h : 0 < n) : down? n = some (n - 1) := by
  cases n with
  | zero => exact absurd h (Nat.lt_irrefl 0)
  | succ n => rfl

/-- Empties a slot, if there is a frame to count off. -/
def clear? (a : Arena) (s : Slot) : Option Arena :=
  (down? a.occupied).map fun occupied =>
    { a with slots := a.slots.setIfInBounds s none, free := s :: a.free, occupied }

/-- Counts a child off, if the frame is there and has one. -/
def dropChild? (a : Arena) (p : Slot) : Option Arena := do
  let f ← a.frame? p
  let children ← down? f.children
  return a.modify p fun f => { f with children }

/-- Empties a slot, if its frame and its parent's child can be counted off. -/
def vacate? (a : Arena) (s : Slot) : Option Arena := do
  let b ← a.clear? s
  match a.parent? s with
  | some p => b.dropChild? p
  | none => return b

/-- Reclaims spent frames as `reclaim` does. -/
def reclaim? (held : List Value) : Nat → Slot → Arena → Option Arena
  | 0, _, a => some a
  | steps + 1, s, a =>
    match a.frame? s with
    | none => some a
    | some f =>
      if s != root && a.spent held f then
        match f.parent? with
        | some p => (a.vacate? s).bind (reclaim? held steps p)
        | none => a.vacate? s
      else some a

/-- Reclaims what nothing reaches as `collect` does. -/
def collect? (a : Arena) (held : List Value) : Option Arena := do
  let b ← (a.garbage held).foldlM clear? a
  return { b.recount with threshold := max leastThreshold (2 * b.recount.occupied) }

/-- Finishes a frame as `release` does. -/
def release? (a : Arena) (held : List Value) (s : Slot) : Option Arena :=
  if s == root then some a
  else do
    let a := a.modify s Frame.finish
    let a ← reclaim? held a.slots.size s a
    if a.threshold ≤ a.occupied then a.collect? held else return a

/-- The arena after an operation, if no count has to go below zero. -/
def step? (a : Arena) : Op → Option Arena
  | .release held s => a.release? held s
  | .collect held => a.collect? held
  | op => some (a.step op)

theorem clear?_eq (h : 0 < a.occupied) : a.clear? s = some (a.clear s) := by
  simp [clear?, down?_of_pos h, clear]

theorem WellShaped.vacate?_eq (h : a.WellShaped) (hf : a.frame? s = some f)
    (hc : f.children = 0) : a.vacate? s = some (a.vacate s) := by
  have hpos := h.ledger.occupied_pos (s := s) (by rw [hf]; rfl)
  unfold vacate? Arena.vacate
  rw [clear?_eq hpos]
  rcases hp : a.parent? s with _ | p
  · rfl
  · obtain ⟨e, he⟩ := Option.isSome_iff_exists.1 (h.tree.parent s p hp)
    have hne : s ≠ p := fun heq => h.ne_parent hf hc s (hp.trans (heq ▸ rfl))
    have he' : (a.clear s).frame? p = some e := by rw [frame?_clear, if_neg hne, he]
    have hcount : 0 < e.children := by
      rw [h.children p e he]
      exact List.length_pos_of_mem (mem_childrenOf.2 hp)
    have hmodify : (a.clear s).modify p (fun f => { f with children := e.children - 1 }) =
        (a.clear s).modify p Frame.removeChild := modify_congr he' rfl
    simp [dropChild?, he', down?_of_pos hcount, hmodify]

theorem WellShaped.reclaim?_eq : ∀ steps s (a : Arena), a.WellShaped →
    reclaim? held steps s a = some (reclaim held steps s a) := by
  intro steps
  induction steps with
  | zero => exact fun _ _ _ => rfl
  | succ steps ih =>
    intro s a h
    rcases hf : a.frame? s with _ | f
    · simp only [reclaim?, reclaim, hf]
    by_cases hspent : (s != root && a.spent held f) = true
    · obtain ⟨hne, hspent'⟩ := Bool.and_eq_true_iff.1 hspent
      have hc := (spent_iff.1 hspent').2.1
      have hnext := h.vacate hf (by simpa using hne) hc
      simp only [reclaim?, reclaim, hf, if_pos hspent, h.vacate?_eq hf hc, Option.bind_some]
      rcases f.parent? with _ | p
      · rfl
      · exact ih p _ hnext
    · simp only [reclaim?, reclaim, hf, if_neg hspent]

theorem Ledger.foldlM_clear? (h : a.Ledger) {l : List Slot} (hnodup : l.Nodup)
    (hl : ∀ s ∈ l, (a.frame? s).isSome) : l.foldlM clear? a = some (l.foldl Arena.clear a) := by
  induction l generalizing a with
  | nil => rfl
  | cons s l ih =>
    obtain ⟨hs, hnodup⟩ := List.nodup_cons.1 hnodup
    have hsome := hl s List.mem_cons_self
    rw [List.foldlM_cons, clear?_eq (h.occupied_pos hsome)]
    refine ih (h.clear hsome) hnodup fun t ht => ?_
    have hne : s ≠ t := fun e => hs (e ▸ ht)
    rw [frame?_clear, if_neg hne]
    exact hl t (List.mem_cons_of_mem _ ht)

theorem WellShaped.collect?_eq (h : a.WellShaped) (held : List Value) :
    a.collect? held = some (a.collect held) := by
  unfold collect?
  rw [h.ledger.foldlM_clear? (nodup_garbage a held) fun s hs => (mem_garbage.1 hs).1]
  rfl

/-- No operation takes a count below zero. -/
theorem WellShaped.step?_eq (h : a.WellShaped) (op : Op) : a.step? op = some (a.step op) := by
  cases op with
  | release held s =>
    show a.release? held s = some (a.release held s)
    unfold release? Arena.release
    split
    · rfl
    · have hfinish : (a.modify s Frame.finish).WellShaped :=
        h.modify s (fun _ => rfl) fun _ => rfl
      have hreclaim : (reclaim held (a.modify s Frame.finish).slots.size s
          (a.modify s Frame.finish)).WellShaped :=
        reclaim_keeps (fun b t f hb hf hne hspent => hb.vacate hf hne (spent_iff.1 hspent).2.1)
          _ _ _ hfinish
      dsimp only
      rw [WellShaped.reclaim?_eq _ _ _ hfinish, Option.bind_eq_bind, Option.bind_some]
      split
      · exact hreclaim.collect?_eq held
      · rfl
  | collect held => exact h.collect?_eq held
  | push | capture | define | assign => rfl

/-! ### After any history -/

/-- After any history the arena is well-shaped: its count of frames is right, the free slots are
the vacant ones, each once, every frame's count of children is right, every frame but the root
has a parent that is there, and the root is there. Ways to the root pass no frame twice; a new
frame takes a vacant slot; no count goes below zero; every look-up ends, with the answer of
`owner?`. -/
theorem reachable_invariant (h : a.Reachable) :
    a.WellShaped ∧
      (∀ s, (a.frame? s).isSome → s ≠ root → ∃ p, a.parent? s = some p ∧ (a.frame? p).isSome) ∧
      (∀ s, (a.frame? s).isSome → ∃ w, a.Way s w ∧ w.Nodup) ∧
      (∀ p, a.frame? (a.push p).1 = none) ∧
      (∀ op, a.step? op = some (a.step op)) ∧
      ∀ s name, (a.frame? s).isSome → a.Finds name s (a.owner? s name) := by
  have hshape := h.wellShaped
  refine ⟨hshape, fun s hs hne => ?_, fun s hs => ?_, fun p => ?_, hshape.step?_eq,
    fun s name hs => hshape.tree.finds_owner? hs name⟩
  · obtain ⟨p, hp⟩ := hshape.tree.exists_parent hs hne
    exact ⟨p, hp, hshape.tree.parent s p hp⟩
  · obtain ⟨w, hw⟩ := hshape.tree.way s hs
    exact ⟨w, hw, hw.nodup hshape.tree.orphan⟩
  · rw [push_fst]
    exact hshape.ledger.frame?_next

/-- An arena in which a frame's slot comes after its child's. -/
def backward : Arena :=
  (((Arena.empty.step (.push 0)).step (.push 0)).step (.release [] 1)).step (.push 2)

theorem reachable_backward : backward.Reachable := by
  refine .step (.step (.step (.step .empty ?_) ?_) ?_) ?_
  all_goals decide

theorem reachable_invariant_backward :
    backward.Reachable ∧ backward.parent? 1 = some 2 ∧ backward.WellShaped ∧
      ∀ name, backward.Finds name 1 (backward.owner? 1 name) := by
  obtain ⟨hshape, -, -, -, -, hfinds⟩ := reachable_invariant reachable_backward
  exact ⟨reachable_backward, by decide, hshape, fun name => hfinds 1 name (by decide)⟩

end Arena
end Playscript

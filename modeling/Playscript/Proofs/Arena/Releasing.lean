/-
# Exactly what a release reclaims

A release goes outward from the frame it finishes. It empties the slot of each
frame that nothing depends on once the frames before it are gone (`Idle`), up to
the first on which something does: what it takes is the longest such run
(`Run`). The condition is stated of the arena before anything is taken, with the
frames that are to be gone as a list, so that what the loss of a frame's bindings
and the loss of a child do to its ancestors is part of what is proved.

When as many frames are left as the threshold says, a release collects. The
threshold is twice what the last collection has left, and no less than 256; so
after every release there are fewer frames than that, whatever was pushed.

Key definitions: `Idle`, `Run`, `Lacks`, `Collected`.
Key theorems: `Lacks.spent_iff`, `Way.reclaim`, `release_exact`.
-/
import Playscript.Proofs.Arena.Histories
import Playscript.Proofs.Arena.Keeping

namespace Playscript
namespace Arena

variable {a b : Arena} {s t p : Slot} {f : Frame} {held : List Value} {gone run : List Slot}
  {c : Closure}

/-! ### Runs of idle frames -/

/-- A closure that lives once some frames are gone with what they bind. -/
def LivingWithout (a : Arena) (held : List Value) (gone : List Slot) (c : Closure) : Prop :=
  c ∈ Value.placesAll held ∨ ∃ s ∉ gone, ∃ f, a.frame? s = some f ∧ c ∈ f.bindings.places

/-- A finished frame, not the root, on which nothing depends once some frames are gone: it has no
child left, and no closure captured there lives. -/
structure Idle (a : Arena) (held : List Value) (gone : List Slot) (s : Slot) : Prop where
  ne_root : s ≠ root
  finished : ¬ a.Live s
  childless : ∀ t, a.parent? t = some s → t ∈ gone
  unheard : ∀ f, a.frame? s = some f → ∀ c, a.LivingWithout held gone c → c.identity ∉ f.captured

/-- Frames outward from one, parent after child, each of them idle once those before it are
gone. -/
inductive Run (a : Arena) (held : List Value) : List Slot → Slot → List Slot → Prop where
  | nil {gone : List Slot} {s : Slot} : Run a held gone s []
  | cons {gone run : List Slot} {s p : Slot} : a.Idle held gone s → a.parent? s = some p →
      Run a held (gone ++ [s]) p run → Run a held gone s (s :: run)

/-- Where a frame is not idle no run starts. -/
theorem Run.eq_nil (h : a.Run held gone s run) (hs : ¬ a.Idle held gone s) : run = [] := by
  cases h with
  | nil => rfl
  | cons hidle => exact absurd hidle hs

/-! ### Arenas that lack some frames -/

/-- The arena that is left when some frames are gone. -/
structure Lacks (a b : Arena) (gone : List Slot) : Prop where
  shape : b.WellShaped
  prunes : a.Prunes b
  isSome : ∀ s, (b.frame? s).isSome ↔ (a.frame? s).isSome ∧ s ∉ gone

namespace Lacks

theorem refl (h : a.WellShaped) : a.Lacks a [] where
  shape := h
  prunes := .refl a
  isSome s := by simp

/-- A frame that is not gone is as it was but for its count of children. -/
theorem frame (h : a.Lacks b gone) (hs : s ∉ gone) (hf : a.frame? s = some f) :
    ∃ n, b.frame? s = some { f with children := n } := by
  obtain ⟨g, hg⟩ := Option.isSome_iff_exists.1 ((h.isSome s).2 ⟨by rw [hf]; rfl, hs⟩)
  obtain ⟨f', hf', hgf⟩ := h.prunes.frame s g hg
  rw [hf] at hf'
  cases hf'
  exact ⟨g.children, by rw [hg, ← hgf]⟩

theorem parent?_eq_some (h : a.Lacks b gone) :
    b.parent? t = some p ↔ t ∉ gone ∧ a.parent? t = some p := by
  constructor
  · intro hp
    have ht : (b.frame? t).isSome := by
      obtain ⟨g, hg, -⟩ := Arena.parent?_eq_some.1 hp
      rw [hg]; rfl
    exact ⟨((h.isSome t).1 ht).2, by rwa [← h.prunes.parent? ht]⟩
  · rintro ⟨ht, hp⟩
    obtain ⟨f, hf, hfp⟩ := Arena.parent?_eq_some.1 hp
    obtain ⟨n, hg⟩ := h.frame ht hf
    exact Arena.parent?_eq_some.2 ⟨_, hg, hfp⟩

theorem living_iff (h : a.Lacks b gone) : b.Living held c ↔ a.LivingWithout held gone c := by
  refine or_congr_right ⟨?_, ?_⟩
  · rintro ⟨s, g, hg, hc⟩
    obtain ⟨f, hf, hgf⟩ := h.prunes.frame s g hg
    exact ⟨s, ((h.isSome s).1 (by rw [hg]; rfl)).2, f, hf, by rwa [hgf] at hc⟩
  · rintro ⟨s, hs, f, hf, hc⟩
    obtain ⟨n, hg⟩ := h.frame hs hf
    exact ⟨s, _, hg, hc⟩

/-- A frame has no child left when its count says so. -/
theorem children_eq_zero_iff (h : a.Lacks b gone) (hg : b.frame? s = some f) :
    f.children = 0 ↔ ∀ t, a.parent? t = some s → t ∈ gone := by
  rw [h.shape.children s f hg, List.length_eq_zero_iff, List.eq_nil_iff_forall_not_mem]
  refine forall_congr' fun t => ?_
  rw [mem_childrenOf, h.parent?_eq_some, not_and', not_not]

/-- What a release asks of a frame on its way is that the frame is idle. -/
theorem spent_iff {g : Frame} (h : a.Lacks b gone) (hg : b.frame? s = some g) :
    (s != root && b.spent held g) = true ↔ a.Idle held gone s := by
  obtain ⟨f, hf, hgf⟩ := h.prunes.frame s g hg
  have hlive : g.live = false ↔ ¬ a.Live s := by
    rw [hgf, ← Bool.not_eq_true, not_iff_not]
    refine ⟨fun hwork => ⟨f, hf, hwork⟩, fun ⟨e, he, hwork⟩ => ?_⟩
    rw [hf] at he
    cases he
    exact hwork
  have hcaptured : (∀ i ∈ g.captured, ¬ b.alive held i) ↔ ∀ e, a.frame? s = some e →
      ∀ c, a.LivingWithout held gone c → c.identity ∉ e.captured := by
    have hsame : g.captured = f.captured := by rw [hgf]
    simp only [alive_iff, h.living_iff, hf, Option.some.injEq, forall_eq', hsame]
    exact ⟨fun hall c hc hmem => hall _ hmem ⟨c, hc, rfl⟩,
      fun hall i hi ⟨c, hc, hci⟩ => hall c hc (hci ▸ hi)⟩
  rw [Bool.and_eq_true, bne_iff_ne, Arena.spent_iff, h.children_eq_zero_iff hg, hlive, hcaptured]
  exact ⟨fun ⟨hne, hfin, hchild, hun⟩ => ⟨hne, hfin, hchild, hun⟩,
    fun hidle => ⟨hidle.ne_root, hidle.finished, hidle.childless, hidle.unheard⟩⟩

/-- One frame more is gone. -/
theorem vacate {g : Frame} (h : a.Lacks b gone) (hg : b.frame? s = some g)
    (hidle : a.Idle held gone s) : a.Lacks (b.vacate s) (gone ++ [s]) where
  shape := h.shape.vacate hg hidle.ne_root ((h.children_eq_zero_iff hg).2 hidle.childless)
  prunes := h.prunes.trans (Prunes.vacate b s)
  isSome t := by
    rw [isSome_vacate, h.isSome, List.mem_append, List.mem_singleton, not_or, and_left_comm,
      and_comm (a := s ≠ t), ne_comm]

end Lacks

/-! ### The longest run -/

/-- A run that every other run from its frame is the beginning of. -/
structure LongestRun (a : Arena) (held : List Value) (gone : List Slot) (s : Slot)
    (run : List Slot) : Prop where
  isRun : a.Run held gone s run
  longest : ∀ other, a.Run held gone s other → other <+: run

theorem LongestRun.nil (hs : ¬ a.Idle held gone s) : a.LongestRun held gone s [] where
  isRun := .nil
  longest _ hother := hother.eq_nil hs ▸ List.prefix_rfl

theorem LongestRun.cons (hidle : a.Idle held gone s) (hp : a.parent? s = some p)
    (h : a.LongestRun held (gone ++ [s]) p run) : a.LongestRun held gone s (s :: run) where
  isRun := .cons hidle hp h.isRun
  longest other hother := by
    cases hother with
    | nil => exact List.nil_prefix
    | cons _ hp' hrest =>
      rw [hp] at hp'
      cases hp'
      exact List.cons_prefix_cons.2 ⟨rfl, h.longest _ hrest⟩

/-- Reclaiming outward from a frame takes the longest run. -/
theorem Way.reclaim (held : List Value) {w : List Slot} (horphan : a.parent? Arena.root = none)
    (hw : a.Way s w) :
    ∀ {b : Arena} {gone : List Slot} (steps : Nat), w.length ≤ steps → a.Lacks b gone →
      (∀ t ∈ w, t ∉ gone) → ∃ run, a.LongestRun held gone s run ∧
        a.Lacks (reclaim held steps s b) (gone ++ run) := by
  induction hw with
  | root =>
    intro b gone steps hsteps hlacks hout
    obtain ⟨steps, rfl⟩ : ∃ n, steps = n + 1 := Nat.exists_eq_add_of_le' hsteps
    refine ⟨[], .nil fun hidle => hidle.ne_root rfl, ?_⟩
    have hstay : Arena.reclaim held (steps + 1) Arena.root b = b := by
      rw [Arena.reclaim]
      split <;> rfl
    rw [hstay, List.append_nil]
    exact hlacks
  | @step s p w hp hw ih =>
    intro b gone steps hsteps hlacks hout
    obtain ⟨steps, rfl⟩ : ∃ n, steps = n + 1 := ⟨steps - 1, by simp at hsteps; omega⟩
    obtain ⟨hs, hout⟩ := List.forall_mem_cons.1 hout
    obtain ⟨g, hg, hgp⟩ := parent?_eq_some.1 (hlacks.parent?_eq_some.2 ⟨hs, hp⟩)
    rw [Arena.reclaim, hg]
    dsimp only
    by_cases hidle : a.Idle held gone s
    · rw [if_pos ((hlacks.spent_iff hg).2 hidle), hgp]
      have hnotMem : s ∉ w := (List.nodup_cons.1 ((Way.step hp hw).nodup horphan)).1
      obtain ⟨run, hrun, hrest⟩ := ih steps (by simpa using hsteps) (hlacks.vacate hg hidle)
        fun t ht hmem => by
          rcases List.mem_append.1 hmem with hmem | hmem
          · exact hout t ht hmem
          · exact hnotMem (List.mem_singleton.1 hmem ▸ ht)
      rw [List.append_assoc] at hrest
      exact ⟨s :: run, hrun.cons hidle hp, hrest⟩
    · rw [if_neg fun hspent => hidle ((hlacks.spent_iff hg).1 hspent)]
      exact ⟨[], .nil hidle, by rwa [List.append_nil]⟩

/-! ### Releases -/

/-- The arena of a release before it may collect. -/
abbrev reclaimed (a : Arena) (held : List Value) (s : Slot) : Arena :=
  reclaim held (a.modify s Frame.finish).slots.size s (a.modify s Frame.finish)

theorem threshold_vacate (a : Arena) (s : Slot) : (a.vacate s).threshold = a.threshold := by
  unfold vacate
  split <;> rfl

theorem threshold_reclaimed (a : Arena) (held : List Value) (s : Slot) :
    (a.reclaimed held s).threshold = a.threshold :=
  reclaim_keeps (P := fun b => b.threshold = a.threshold)
    (fun b t _ hb _ _ _ => (threshold_vacate b t).trans hb) _ _ _ rfl

/-- A release collects when as many frames are left as the threshold says. -/
theorem release_eq (hne : s ≠ root) : a.release held s =
    if a.threshold ≤ (a.reclaimed held s).occupied then (a.reclaimed held s).collect held
    else a.reclaimed held s := by
  rw [release, if_neg (by simpa using hne), ← threshold_reclaimed a held s]

/-- A release that does not collect empties the slots of the longest run, and changes no
bindings of other frames. -/
theorem WellShaped.exists_longestRun (h : a.WellShaped) (hs : (a.frame? s).isSome)
    (hne : s ≠ root) (hroom : (a.reclaimed held s).occupied < a.threshold) :
    ∃ run, (a.modify s Frame.finish).LongestRun held [] s run ∧
      (∀ t, ((a.release held s).frame? t).isSome ↔ (a.frame? t).isSome ∧ t ∉ run) ∧
      ∀ t ∉ run, (a.release held s).bindings t = a.bindings t := by
  have hfinish : (a.modify s Frame.finish).WellShaped := h.modify s (fun _ => rfl) fun _ => rfl
  have hs' : ((a.modify s Frame.finish).frame? s).isSome := by rwa [isSome_frame?_modify]
  obtain ⟨w, hw⟩ := hfinish.tree.way s hs'
  obtain ⟨run, hrun, hlacks⟩ := hw.reclaim held hfinish.tree.orphan _
    (hfinish.tree.length_way_le hs' hw) (.refl hfinish) fun _ _ => List.not_mem_nil
  rw [List.nil_append] at hlacks
  rw [release_eq hne, if_neg (Nat.not_le.2 hroom)]
  have hsome : ∀ t, ((a.reclaimed held s).frame? t).isSome ↔ (a.frame? t).isSome ∧ t ∉ run := by
    intro t
    rw [hlacks.isSome, isSome_frame?_modify]
  refine ⟨run, hrun, hsome, fun t ht => ?_⟩
  rcases hf : a.frame? t with _ | f
  · have hgone : (a.reclaimed held s).frame? t = none := by
      rw [← Option.not_isSome_iff_eq_none, hsome, hf]
      simp
    rw [bindings, bindings, hgone, hf]
  · rw [hlacks.prunes.bindings ((hsome t).2 ⟨by rw [hf]; rfl, ht⟩),
      bindings_modify (u := Frame.finish) fun _ => rfl]

/-! ### The threshold -/

/-- How many frames an operation leaves if it collects. -/
def Op.collected? (a : Arena) : Op → Option Nat
  | .collect held => some (a.collect held).size
  | .release held s =>
    if s ≠ root ∧ a.threshold ≤ (a.reclaimed held s).size then some (a.release held s).size
    else none
  | .push _ | .capture _ _ | .define _ _ _ | .assign _ _ _ => none

/-- An arena that some history of a new one leads to, and how many frames its most recent
collection has left; one if there was none. -/
inductive Collected : Arena → Nat → Prop where
  | empty : Collected .empty 1
  | step {a : Arena} {left : Nat} {op : Op} : Collected a left → op.Allowed a →
      Collected (a.step op) ((op.collected? a).getD left)

theorem Collected.reachable {left : Nat} (h : Collected a left) : a.Reachable := by
  induction h with
  | empty => exact .empty
  | step _ hop ih => exact .step ih hop

theorem threshold_define (a : Arena) (s : Slot) (name : String) (v : Value) :
    (a.define s name v).threshold = a.threshold := rfl

theorem threshold_push (a : Arena) (p : Slot) : (a.push p).2.threshold = a.threshold := by
  unfold push place
  split <;> rfl

theorem threshold_assign (a : Arena) (s : Slot) (name : String) (v : Value) :
    (a.step (.assign s name v)).threshold = a.threshold := by
  show ((a.assign? s name v).getD a).threshold = _
  unfold assign?
  cases a.owner? s name with
  | none => rfl
  | some o => exact threshold_define a o name v

theorem threshold_collect (a : Arena) (held : List Value) :
    (a.collect held).threshold = max leastThreshold (2 * (a.collect held).size) := rfl

/-- A release keeps the threshold if it does not collect. -/
theorem threshold_release (a : Arena) (held : List Value) (s : Slot) :
    (a.release held s).threshold = if s ≠ root ∧ a.threshold ≤ (a.reclaimed held s).size
      then max leastThreshold (2 * (a.release held s).size) else a.threshold := by
  by_cases hne : s = root
  · rw [if_neg fun h => h.1 hne, release, if_pos (by simpa using hne)]
  · rw [release_eq hne]
    by_cases hfull : a.threshold ≤ (a.reclaimed held s).occupied
    · rw [if_pos hfull, if_pos ⟨hne, hfull⟩, threshold_collect]
    · rw [if_neg hfull, if_neg fun h => hfull h.2, threshold_reclaimed]

/-- An operation that does not collect keeps the threshold; one that does sets it to twice what
it leaves, or to the least one. -/
theorem threshold_step (a : Arena) (op : Op) : (a.step op).threshold =
    ((op.collected? a).map fun left => max leastThreshold (2 * left)).getD a.threshold := by
  cases op with
  | push p => exact threshold_push a p
  | capture s identity => rfl
  | define s name v => exact threshold_define a s name v
  | assign s name v => exact threshold_assign a s name v
  | collect held => exact threshold_collect a held
  | release held s =>
    refine (threshold_release a held s).trans ?_
    by_cases hcollects : s ≠ root ∧ a.threshold ≤ (a.reclaimed held s).size
    · rw [if_pos hcollects, Op.collected?, if_pos hcollects]
      rfl
    · rw [if_neg hcollects, Op.collected?, if_neg hcollects]
      rfl

/-- The threshold is twice what the most recent collection has left, or the least one. -/
theorem Collected.threshold_eq {left : Nat} (h : Collected a left) :
    a.threshold = max leastThreshold (2 * left) := by
  induction h with
  | empty => rfl
  | @step a left op _ _ ih =>
    rw [threshold_step]
    cases op.collected? a with
    | none => exact ih
    | some left => rfl

theorem WellShaped.size_pos (h : a.WellShaped) : 0 < a.size :=
  h.ledger.occupied_pos h.tree.root

/-- After a release there are fewer frames than the threshold says. -/
theorem WellShaped.size_release_lt (h : a.WellShaped) (hne : s ≠ root) :
    (a.release held s).size < (a.release held s).threshold := by
  by_cases hfull : a.threshold ≤ (a.reclaimed held s).size
  · have hpos := (h.release held s).size_pos
    rw [threshold_release, if_pos ⟨hne, hfull⟩]
    exact Nat.lt_of_lt_of_le (by omega) (Nat.le_max_right _ _)
  · rw [threshold_release, if_neg fun hcollects => hfull hcollects.2, release_eq hne,
      ← size, if_neg hfull]
    exact Nat.lt_of_not_le hfull

/-- Right after the release of a frame there are fewer frames than twice what the most recent
collection has left, or than 256. -/
theorem Collected.size_release_lt {left : Nat} (h : Collected a left)
    (hs : (a.frame? s).isSome) (hne : s ≠ root) : (a.release held s).size <
      max leastThreshold (2 * ((Op.release held s).collected? a).getD left) := by
  have hstep : Collected (a.step (.release held s)) _ :=
    .step h (show (Op.release held s).Allowed a from hs)
  rw [← hstep.threshold_eq]
  exact h.reachable.wellShaped.size_release_lt hne

/-! ### Exactness -/

/-- The release of a frame that is there, other than the root. If it does not collect, it empties
the slots of the longest run of idle frames outward from the frame, none if that is not idle
itself, and changes no bindings of other frames. After any history, however many frames were
pushed, it leaves fewer frames than 256 or than twice what the most recent collection has left,
which may have been its own; one if there was none. -/
theorem release_exact (held : List Value) (hs : (a.frame? s).isSome) (hne : s ≠ root) :
    (a.WellShaped → (a.reclaimed held s).size < a.threshold →
      ∃ run, (a.modify s Frame.finish).LongestRun held [] s run ∧
        (∀ t, ((a.release held s).frame? t).isSome ↔ (a.frame? t).isSome ∧ t ∉ run) ∧
        ∀ t ∉ run, (a.release held s).bindings t = a.bindings t) ∧
      ∀ left, Collected a left → (a.release held s).size <
        max 256 (2 * ((Op.release held s).collected? a).getD left) :=
  ⟨fun h hroom => h.exists_longestRun hs hne hroom, fun _ h => h.size_release_lt hs hne⟩

/-- Two frames, one in the other; the outer one is finished, and only a name of the inner one
holds the closure made in it. -/
def nested : Arena :=
  ((((Arena.empty.step (.push 0)).step (.push 1)).step (.capture 1 7)).step
    (.define 2 "f" (.closure ⟨7, "f", [], ⟨default, []⟩, 1⟩))).step (.release [] 1)

theorem collected_nested : Collected nested 1 := by
  refine .step (.step (.step (.step (.step .empty ?_) ?_) ?_) ?_) ?_
  all_goals decide

/-- With the inner frame goes its name, the last to hold the closure, and so the outer frame. -/
theorem release_exact_nested :
    (nested.frame? 2).isSome ∧ nested.WellShaped ∧
      (nested.reclaimed [] 2).size < nested.threshold ∧
      (∃ run, (nested.modify 2 Frame.finish).LongestRun [] [] 2 run ∧
        1 ∈ run ∧ 2 ∈ run ∧ root ∉ run) ∧
      (nested.release [] 2).size < 256 := by
  have hs : (nested.frame? 2).isSome := by decide
  have hshape : nested.WellShaped := collected_nested.reachable.wellShaped
  have hroom : (nested.reclaimed [] 2).size < nested.threshold := by decide
  obtain ⟨hexact, hbound⟩ := release_exact [] hs (by decide)
  obtain ⟨run, hrun, hgone, -⟩ := hexact hshape hroom
  refine ⟨hs, hshape, hroom, ⟨run, hrun, ?_, ?_, ?_⟩, hbound 1 collected_nested⟩
  · by_contra hmem
    exact absurd ((hgone 1).2 ⟨by decide, hmem⟩) (by decide)
  · by_contra hmem
    exact absurd ((hgone 2).2 ⟨by decide, hmem⟩) (by decide)
  · exact ((hgone root).1 (by decide)).2

end Arena
end Playscript

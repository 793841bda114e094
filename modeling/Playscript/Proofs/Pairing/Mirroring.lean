/-
# An arena mirrored in another

One arena mirrors another when each frame of the first has its like in the
second, in a place of its own: the like has the like of the parent for its
parent, and binds the same values with their closures moved. The second may
hold more frames. A look-up then finds the same (`Mirrors.get?`), whatever the
slots are, since it goes from parent to parent.

Taking frames away from the first arena leaves it mirrored. A frame pushed to
both is mirrored in its new place, also when its slot has been used before: no
frame that is still there names the old one.

Key definitions: `Arena.Mirrors`.
Key theorems: `Mirrors.get?`, `Mirrors.define`, `Mirrors.push`, `Mirrors.release`.
-/
import Playscript.Proofs.Pairing.Relocation
import Playscript.Proofs.Arena.Keeping

namespace Playscript
namespace Arena

variable {place : Slot → Slot} {a b c : Arena} {s t p : Slot} {f g : Frame} {held : List Value}
  {name : String}

/-- The like of a frame: what it binds and the slot of its parent are moved. -/
def Mirrored (place : Slot → Slot) (f g : Frame) : Prop :=
  g.parent? = f.parent?.map place ∧ g.bindings = f.bindings.relocate place

/-- Each frame of the first arena has its like in the second, in a place of its own. -/
structure Mirrors (place : Slot → Slot) (a b : Arena) : Prop where
  frame : ∀ s f, a.frame? s = some f → ∃ g, b.frame? (place s) = some g ∧ Mirrored place f g
  injective : ∀ s t, (a.frame? s).isSome → (a.frame? t).isSome → place s = place t → s = t

namespace Mirrors

theorem isSome (h : a.Mirrors place b) (hs : (a.frame? s).isSome) :
    (b.frame? (place s)).isSome := by
  obtain ⟨f, hf⟩ := Option.isSome_iff_exists.1 hs
  obtain ⟨g, hg, -⟩ := h.frame s f hf
  rw [hg]; rfl

/-! ### Looking names up -/

theorem bindings (h : a.Mirrors place b) (hs : (a.frame? s).isSome) :
    b.bindings (place s) = (a.bindings s).relocate place := by
  obtain ⟨f, hf⟩ := Option.isSome_iff_exists.1 hs
  obtain ⟨g, hg, -, hbindings⟩ := h.frame s f hf
  rw [bindings_of_frame? hg, bindings_of_frame? hf, hbindings]

theorem finds {o : Option Slot} (h : a.Mirrors place b) (hfinds : a.Finds name s o) :
    b.Finds name (place s) (o.map place) := by
  induction hfinds with
  | here hf hb =>
    obtain ⟨g, hg, -, hbindings⟩ := h.frame _ _ hf
    exact .here hg (by rw [hbindings, Bindings.binds_relocate, hb])
  | up hf hb hp _ ih =>
    obtain ⟨g, hg, hparent, hbindings⟩ := h.frame _ _ hf
    exact .up hg (by rw [hbindings, Bindings.binds_relocate, hb]) (by rw [hparent, hp]; rfl) ih
  | none hf hb hp =>
    obtain ⟨g, hg, hparent, hbindings⟩ := h.frame _ _ hf
    exact .none hg (by rw [hbindings, Bindings.binds_relocate, hb]) (by rw [hparent, hp]; rfl)

theorem owner? (h : a.Mirrors place b) (ha : a.Tree) (hb : b.Tree) (hs : (a.frame? s).isSome)
    (name : String) : b.owner? (place s) name = (a.owner? s name).map place :=
  (hb.finds_owner? (h.isSome hs) name).unique (h.finds (ha.finds_owner? hs name))

theorem get? (h : a.Mirrors place b) (ha : a.Tree) (hb : b.Tree) (hs : (a.frame? s).isSome)
    (name : String) : b.get? (place s) name = (a.get? s name).map (Value.relocate place) := by
  have howner := ha.finds_owner? hs name
  rw [Arena.get?, Arena.get?, h.owner? ha hb hs name]
  rcases ho : a.owner? s name with _ | o
  · rfl
  · rw [ho] at howner
    simp only [Option.map_some, Option.bind_some, h.bindings howner.isSome_owner,
      Bindings.get?_relocate]

/-! ### Changing frames -/

/-- The same change to a frame and to its like. -/
theorem modify (h : a.Mirrors place b) (hs : (a.frame? s).isSome) {u v : Frame → Frame}
    (huv : ∀ f g, Mirrored place f g → Mirrored place (u f) (v g)) :
    (a.modify s u).Mirrors place (b.modify (place s) v) where
  frame t f hf := by
    rw [frame?_modify] at hf
    split at hf
    · rename_i hst
      subst hst
      obtain ⟨e, he, rfl⟩ := Option.map_eq_some_iff.1 hf
      obtain ⟨g, hg, heg⟩ := h.frame s e he
      exact ⟨v g, frame?_modify_self hg v, huv e g heg⟩
    · rename_i hst
      obtain ⟨g, hg, hfg⟩ := h.frame t f hf
      have hne : place t ≠ place s := fun heq =>
        hst (h.injective t s (by rw [hf]; rfl) hs heq).symm
      exact ⟨g, by rw [frame?_modify_of_ne hne, hg], hfg⟩
  injective t t' ht ht' := by
    simp only [isSome_frame?_modify] at ht ht'
    exact h.injective t t' ht ht'

theorem define (h : a.Mirrors place b) (hs : (a.frame? s).isSome) (name : String) (v : Value) :
    (a.define s name v).Mirrors place (b.define (place s) name (v.relocate place)) :=
  h.modify hs fun f g hfg => by
    refine ⟨hfg.1, ?_⟩
    show g.bindings.insert name (v.relocate place) = (f.bindings.insert name v).relocate place
    rw [Bindings.insert_relocate, hfg.2]

theorem capture (h : a.Mirrors place b) (hs : (a.frame? s).isSome) (identity : Nat) :
    (a.capture s identity).Mirrors place (b.capture (place s) identity) :=
  h.modify hs fun _ _ hfg => hfg

/-- Frames may be missing from the first arena. -/
theorem thin (h : a.Mirrors place b)
    (hc : ∀ s f, c.frame? s = some f → ∃ g, a.frame? s = some g ∧ f.parent? = g.parent? ∧
      f.bindings = g.bindings) : c.Mirrors place b := by
  have hsome : ∀ s, (c.frame? s).isSome → (a.frame? s).isSome := by
    intro s hs
    obtain ⟨f, hf⟩ := Option.isSome_iff_exists.1 hs
    obtain ⟨g, hg, -⟩ := hc s f hf
    rw [hg]; rfl
  refine ⟨fun s f hf => ?_, fun s t hs ht => h.injective s t (hsome s hs) (hsome t ht)⟩
  obtain ⟨g, hg, hparent, hbindings⟩ := hc s f hf
  obtain ⟨e, he, hge⟩ := h.frame s g hg
  exact ⟨e, he, by rw [hge.1, hparent], by rw [hge.2, hbindings]⟩

theorem release (h : a.Mirrors place b) (held : List Value) (s : Slot) :
    (a.release held s).Mirrors place b :=
  h.thin fun t f hf => by
    obtain ⟨g, hg, hparent, hbindings, -⟩ := frame?_release hf
    exact ⟨g, hg, hparent, hbindings⟩

theorem collect (h : a.Mirrors place b) (held : List Value) : (a.collect held).Mirrors place b :=
  h.thin fun t f hf => by
    obtain ⟨g, hg, hfg⟩ := (Prunes.collect a held).frame t f hf
    exact ⟨g, hg, by rw [hfg], by rw [hfg]⟩

/-! ### A new frame -/

/-- A frame pushed to both arenas is mirrored in its new place. -/
theorem push (h : a.Mirrors place b) (ha : a.WellShaped) (hb : b.Ledger)
    (hsecure : a.Secure held) (hp : (a.frame? p).isSome) :
    (a.push p).2.Mirrors (Function.update place a.next b.next) (b.push (place p)).2 := by
  have hmoved : ∀ t, (a.frame? t).isSome →
      Function.update place a.next b.next t = place t := by
    intro t ht
    refine Function.update_of_ne ?_ _ _
    rintro rfl
    rw [ha.ledger.frame?_next] at ht
    cases ht
  have hnew : ∀ t, (a.frame? t).isSome → place t ≠ b.next := by
    intro t ht heq
    have := h.isSome ht
    rw [heq, hb.frame?_next] at this
    cases this
  -- the frames a mirrored frame names are there, so their places have not changed
  have hlike : ∀ t f g, a.frame? t = some f → Mirrored place f g →
      Mirrored (Function.update place a.next b.next) f g := by
    intro t f g hf hfg
    refine ⟨hfg.1.trans ?_, hfg.2.trans (Bindings.relocate_congr fun c hc => ?_)⟩
    · rcases hq : f.parent? with _ | q
      · rfl
      · have hq : (a.frame? q).isSome := ha.tree.parent t q (parent?_eq_some.2 ⟨f, hf, hq⟩)
        rw [Option.map_some, Option.map_some, hmoved q hq]
    · exact (hmoved _ (hsecure c (.inr ⟨t, f, hf, hc⟩)).isSome).symm
  refine ⟨fun t f hf => ?_, fun t t' ht ht' heq => ?_⟩
  · rw [frame?_push fun s => ha.ledger.lt_size] at hf
    split at hf
    · rename_i ht
      subst ht
      cases hf
      refine ⟨.inside (some (place p)), ?_, ?_, rfl⟩
      · rw [Function.update_self, frame?_push fun s => hb.lt_size, if_pos rfl]
      · exact congrArg some (hmoved p hp).symm
    · have ht : (a.frame? t).isSome := by
        split at hf
        · obtain ⟨e, he, -⟩ := Option.map_eq_some_iff.1 hf
          rw [he]; rfl
        · rw [hf]; rfl
      rw [hmoved t ht, frame?_push fun s => hb.lt_size, if_neg (hnew t ht).symm]
      split at hf
      · rename_i hpt
        subst hpt
        obtain ⟨e, he, rfl⟩ := Option.map_eq_some_iff.1 hf
        obtain ⟨g, hg, heg⟩ := h.frame p e he
        exact ⟨g.addChild, by rw [if_pos rfl, hg]; rfl, hlike p e g he heg⟩
      · rename_i hpt
        obtain ⟨g, hg, hfg⟩ := h.frame t f hf
        have hne : place p ≠ place t := fun heq => hpt (h.injective p t hp ht heq)
        exact ⟨g, by rw [if_neg hne, hg], hlike t f g hf hfg⟩
  · rcases (ha.ledger.isSome_push p t).1 ht with rfl | ht
    · rcases (ha.ledger.isSome_push p t').1 ht' with rfl | ht'
      · rfl
      · rw [Function.update_self, hmoved t' ht'] at heq
        exact absurd heq.symm (hnew t' ht')
    · rcases (ha.ledger.isSome_push p t').1 ht' with rfl | ht'
      · rw [Function.update_self, hmoved t ht] at heq
        exact absurd heq (hnew t ht)
      · rw [hmoved t ht, hmoved t' ht'] at heq
        exact h.injective t t' ht ht' heq

end Mirrors
end Arena
end Playscript

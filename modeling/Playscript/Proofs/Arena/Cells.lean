/-
# What is written is what is read

A name is found for a frame in the first frame on the way to the root that binds it.
That frame and the name are the cell that a look-up reads (`get?_of_finds`). Setting
a name in a frame that is there writes one cell and no other (`define_writes`): a frame
sees the value if the walk for the name now stops at that frame, and otherwise what it
saw before. An assignment sets a name where it is found. It changes where no name is found
(`finds_define_iff`), so it writes the cell that a look-up from the same frame reads.

Key definitions: `Writes`, `SameCell`.
Key theorems: `get?_of_finds`, `define_writes`, `assign_writes`, `writes_one_cell`.
-/
import Playscript.Proofs.Arena.Histories
import Playscript.Proofs.Trace.Walk

namespace Playscript
namespace Arena

/-- After a change of the arena some names of some frames read a value, and all others what they
read before. -/
structure Writes (a : Arena) (v : Value) (hit : Slot → String → Prop) (b : Arena) : Prop where
  written : ∀ {t name}, hit t name → b.get? t name = some v
  kept : ∀ {t name}, (a.frame? t).isSome → ¬ hit t name → b.get? t name = a.get? t name

/-- A name of a frame is found in the same frame as a name of another, and is the same name. -/
def SameCell (a : Arena) (s : Slot) (name : String) (t : Slot) (other : String) : Prop :=
  other = name ∧ ∃ o, a.Finds name s (some o) ∧ a.Finds name t (some o)

variable {a b : Arena} {s t o : Slot} {o? : Option Slot} {f : Frame} {v : Value}
variable {name other : String}

/-! ### Reading -/

/-- A walk that ends starts at a frame. -/
theorem Finds.isSome (h : a.Finds name s o?) : (a.frame? s).isSome := by
  cases h with
  | here hf | up hf | none hf => rw [hf]; rfl

theorem Finds.owner?_eq (h : a.Finds name s o?) (htree : a.Tree) : a.owner? s name = o? :=
  (htree.finds_owner? h.isSome name).unique h

theorem get?_of_finds (htree : a.Tree) (h : a.Finds name s (some o)) :
    a.get? s name = (a.bindings o).get? name := by
  rw [get?, h.owner?_eq htree]
  rfl

/-- Two walks that end alike read the same where the tables answer alike. -/
theorem get?_congr (htree : a.Tree) (htree' : b.Tree) (h : a.Finds name s o?)
    (h' : b.Finds name s o?)
    (hsame : ∀ o, o? = some o → (b.bindings o).get? name = (a.bindings o).get? name) :
    b.get? s name = a.get? s name := by
  rw [get?, get?, h.owner?_eq htree, h'.owner?_eq htree']
  cases o? with
  | none => rfl
  | some o => exact hsame o rfl

/-- What is found has a value. -/
theorem get?_eq_none_iff : a.get? s name = none ↔ a.owner? s name = none := by
  rw [get?]
  rcases ho : a.owner? s name with _ | o
  · exact iff_of_true rfl rfl
  · obtain ⟨-, hbinds⟩ := binds_of_ownerWithin _ ho
    obtain ⟨v, hv⟩ := Option.isSome_iff_exists.1 hbinds
    rw [Option.bind_some, hv]
    exact iff_of_false nofun nofun

/-- A walk is the same where frames, parents and the frames that bind the name are the same. -/
theorem Finds.congr (h : a.Finds name s o?)
    (hframe : ∀ t f, a.frame? t = some f → ∃ g, b.frame? t = some g ∧ g.parent? = f.parent? ∧
      g.bindings.binds name = f.bindings.binds name) : b.Finds name s o? := by
  induction h with
  | here hf hb =>
    obtain ⟨g, hg, -, hbinds⟩ := hframe _ _ hf
    exact .here hg (hbinds.trans hb)
  | up hf hb hp _ ih =>
    obtain ⟨g, hg, hparent, hbinds⟩ := hframe _ _ hf
    exact .up hg (hbinds.trans hb) (hparent.trans hp) ih
  | none hf hb hp =>
    obtain ⟨g, hg, hparent, hbinds⟩ := hframe _ _ hf
    exact .none hg (hbinds.trans hb) (hparent.trans hp)

/-! ### Setting a name in a frame -/

/-- Setting a name changes the walk for no name that the frame binds as before. -/
theorem Finds.define (h : a.Finds other t o?)
    (hbinds : ((a.bindings s).insert name v).binds other = (a.bindings s).binds other) :
    (a.define s name v).Finds other t o? := by
  refine h.congr fun u f hf => ?_
  by_cases hs : s = u
  · subst hs
    refine ⟨f.define name v, frame?_modify_self hf _, rfl, ?_⟩
    rwa [bindings_of_frame? hf] at hbinds
  · exact ⟨f, by rwa [Arena.define, frame?_modify_of_ne (Ne.symm hs)], rfl, rfl⟩

/-- The frame where a name has been set binds it. -/
theorem ne_of_define (hf : (a.define s name v).frame? t = some f)
    (hb : f.bindings.binds name = false) : t ≠ s := by
  rintro rfl
  rw [Arena.define, frame?_modify, if_pos rfl] at hf
  obtain ⟨g, -, rfl⟩ := Option.map_eq_some_iff.1 hf
  have hset : (g.define name v).bindings.binds name = true := by
    rw [Frame.define, Bindings.binds_insert, beq_self_eq_true, Bool.true_or]
  rw [hset] at hb
  cases hb

/-- A walk that does not end where the name has been set does not come by. -/
theorem Finds.of_define (h : (a.define s name v).Finds name t o?) (hne : o? ≠ some s) :
    a.Finds name t o? := by
  have hframe {u : Slot} {f : Frame} (hu : u ≠ s) (hf : (a.define s name v).frame? u = some f) :
      a.frame? u = some f := by rwa [Arena.define, frame?_modify_of_ne hu] at hf
  induction h with
  | here hf hb => exact .here (hframe (fun heq => hne (congrArg some heq)) hf) hb
  | up hf hb hp _ ih => exact .up (hframe (ne_of_define hf hb) hf) hb hp (ih hne)
  | none hf hb hp => exact .none (hframe (ne_of_define hf hb) hf) hb hp

section Define

variable (h : a.Tree) (hs : (a.frame? s).isSome)

include h

theorem Tree.define (s : Slot) (name : String) (v : Value) : (a.define s name v).Tree :=
  h.congr (isSome_frame?_modify a s _) (parent?_modify fun _ => rfl)

theorem Tree.finds_define (ht : (a.frame? t).isSome) (s : Slot) (name other : String) (v : Value) :
    (a.define s name v).Finds other t ((a.define s name v).owner? t other) :=
  (h.define s name v).finds_owner? ((isSome_frame?_modify a s _ t).trans ht) other

/-- A walk for the name that ends elsewhere reads what it read. -/
theorem get?_define_of_not_finds (ht : (a.frame? t).isSome)
    (hmiss : ¬ (a.define s name v).Finds name t (some s)) :
    (a.define s name v).get? t name = a.get? t name := by
  have hafter := h.finds_define ht s name name v
  have hne : (a.define s name v).owner? t name ≠ some s := fun heq => hmiss (heq ▸ hafter)
  refine get?_congr h (h.define s name v) (hafter.of_define hne) hafter fun o ho => ?_
  rw [bindings_define_of_ne fun hos => hne (ho.trans (congrArg some hos))]

/-- Where the frame binds the name already, all walks stay as they are. -/
theorem finds_define_iff (hbinds : (a.bindings s).binds name = true) :
    (a.define s name v).Finds other t o? ↔ a.Finds other t o? := by
  have hforth {o? : Option Slot} (hfinds : a.Finds other t o?) :
      (a.define s name v).Finds other t o? :=
    hfinds.define (congrFun (Bindings.binds_insert_of_binds hbinds v) other)
  refine ⟨fun hfinds => ?_, hforth⟩
  have ht : (a.frame? t).isSome := (isSome_frame?_modify a s _ t).symm.trans hfinds.isSome
  have hbefore := h.finds_owner? ht other
  rwa [hfinds.unique (hforth hbefore)]

include hs

/-- Other names read what they read. -/
theorem get?_define_of_ne (ht : (a.frame? t).isSome) (hne : other ≠ name) (v : Value) :
    (a.define s name v).get? t other = a.get? t other := by
  have hbefore := h.finds_owner? ht other
  have hafter : (a.define s name v).Finds other t (a.owner? t other) :=
    hbefore.define (by rw [Bindings.binds_insert, beq_false_of_ne hne, Bool.false_or])
  refine get?_congr h (h.define s name v) hbefore hafter fun o _ => ?_
  by_cases hos : o = s
  · rw [hos, bindings_define_self hs, Bindings.get?_insert_of_ne _ hne]
  · rw [bindings_define_of_ne hos]

/-- A name that is set in a frame is read from where the walk for it stops at that frame, and from
nowhere else. -/
theorem define_writes (name : String) (v : Value) :
    a.Writes v (fun t other => other = name ∧ (a.define s name v).Finds name t (some s))
      (a.define s name v) where
  written := by
    rintro t _ ⟨rfl, hfinds⟩
    rw [get?_of_finds (h.define s _ v) hfinds, bindings_define_self hs, Bindings.get?_insert_self]
  kept := by
    intro t other ht hmiss
    by_cases hname : other = name
    · subst hname
      exact get?_define_of_not_finds h ht fun hfinds => hmiss ⟨rfl, hfinds⟩
    · exact get?_define_of_ne h hs ht hname v

end Define

/-! ### Setting a name where it is found -/

/-- An assignment writes the cell of the name, and no other. -/
theorem assign_writes (h : a.Tree) (hs : (a.frame? s).isSome) (hb : a.assign? s name v = some b) :
    a.Writes v (a.SameCell s name) b := by
  obtain ⟨o, ho, rfl⟩ := Option.map_eq_some_iff.1 hb
  obtain ⟨hsome, hbinds⟩ := binds_of_ownerWithin _ ho
  have hfinds : a.Finds name s (some o) := ho ▸ h.finds_owner? hs name
  have hsame (t : Slot) (other : String) : a.SameCell s name t other ↔
      other = name ∧ (a.define o name v).Finds name t (some o) := by
    rw [SameCell, finds_define_iff h hbinds]
    refine and_congr_right fun _ => ⟨fun ⟨o', hs', ht'⟩ => ?_, fun ht => ⟨o, hfinds, ht⟩⟩
    cases hs'.unique hfinds
    exact ht'
  have hwrites := define_writes h hsome name v
  exact ⟨fun hhit => hwrites.written ((hsame _ _).1 hhit), fun ht hmiss =>
    hwrites.kept ht fun hhit => hmiss ((hsame _ _).2 hhit)⟩

/-- An assignment fails just where a look-up finds nothing. -/
theorem assign?_eq_none_iff : a.assign? s name v = none ↔ a.get? s name = none := by
  rw [get?_eq_none_iff, assign?, Option.map_eq_none_iff]

/-- A script's assignment either fails, and the machine stays as it is, or changes the arena and
nothing else. -/
theorem run_assign_cases (name : String) (v : Value) (host : Host) (held : List Value)
    (m : Machine) :
    (Eval.assign name v host held m = (.failed (.raised (.undefined name)), m) ∧
      m.arena.get? m.current name = none) ∨
    (∃ b, Eval.assign name v host held m = (.done (), { m with arena := b }) ∧
      m.arena.assign? m.current name v = some b) := by
  rw [Eval.run_assign]
  rcases hassign : m.arena.assign? m.current name v with _ | b
  · exact .inl ⟨rfl, assign?_eq_none_iff.1 hassign⟩
  · exact .inr ⟨b, rfl, rfl⟩

/-- A look-up reads the table of the frame that its walk finds. An assignment fails just where
nothing is found, and then changes nothing; else it writes the cell that the look-up reads, and no
frame gains or loses a name. Setting a name in a frame writes what the walks now find there. -/
theorem writes_one_cell (h : a.WellShaped) (hs : (a.frame? s).isSome) (name : String) (v : Value) :
    (∀ t other, (a.frame? t).isSome → ∃ o?, a.Finds other t o? ∧
      a.get? t other = o?.bind fun o => (a.bindings o).get? other) ∧
    (a.assign? s name v = none ↔ a.get? s name = none) ∧
    (∀ host held (m : Machine), m.arena = a → m.current = s →
      (Eval.assign name v host held m = (.failed (.raised (.undefined name)), m) ∧
        a.get? s name = none) ∨
      (∃ b, Eval.assign name v host held m = (.done (), { m with arena := b }) ∧
        a.assign? s name v = some b)) ∧
    (∀ b, a.assign? s name v = some b →
      a.Writes v (a.SameCell s name) b ∧ ∀ t, (b.bindings t).binds = (a.bindings t).binds) ∧
    a.Writes v (fun t other => other = name ∧ (a.define s name v).Finds name t (some s))
      (a.define s name v) := by
  refine ⟨fun t other ht => ⟨_, h.tree.finds_owner? ht other, rfl⟩, assign?_eq_none_iff, ?_,
    fun b hb => ⟨assign_writes h.tree hs hb, binds_assign? hb⟩, define_writes h.tree hs name v⟩
  rintro host held m rfl rfl
  exact run_assign_cases name v host held m

/-- In slots that run backward, a name of the root is assigned from the innermost frame, or set in
the frame between. -/
theorem writes_one_cell_backward :
    let a := backward.define root "x" (.number 1)
    a.WellShaped ∧ (a.frame? 1).isSome ∧
      (∃ b, a.assign? 1 "x" (.number 2) = some b ∧ b.get? 2 "x" = some (.number 2)) ∧
      (a.define 2 "x" (.number 3)).get? 1 "x" = some (.number 3) ∧
      (a.define 2 "x" (.number 3)).get? root "x" = a.get? root "x" := by
  intro a
  have hshape : a.WellShaped := reachable_backward.wellShaped.define root "x" (.number 1)
  obtain ⟨-, -, -, hassign, -⟩ := writes_one_cell hshape (s := 1) rfl "x" (.number 2)
  obtain ⟨-, -, -, -, hset⟩ := writes_one_cell hshape (s := 2) rfl "x" (.number 3)
  have hroot : a.Finds "x" 2 (some root) := .up rfl rfl rfl (.here rfl rfl)
  refine ⟨hshape, rfl, ⟨_, rfl, ?_⟩, ?_, ?_⟩
  · exact (hassign _ rfl).1.written ⟨rfl, root, .up rfl rfl rfl hroot, hroot⟩
  · exact hset.written ⟨rfl, .up rfl rfl rfl (.here rfl rfl)⟩
  · refine hset.kept rfl ?_
    rintro ⟨-, hfinds⟩
    cases hfinds.unique (.here rfl rfl)

end Arena
end Playscript

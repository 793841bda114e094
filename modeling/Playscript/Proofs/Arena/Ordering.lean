/-
# Tables in order

The names of a table are listed in their order, each once, since names are only set
by insertion. So a table is settled by what it answers for each name (`Ordered.ext`),
and names that are set one after the other leave the same table in whatever order
they are set (`get?_foldl_insert`). All tables of an arena are in order when it starts,
and stay so.

Key definitions: `Bindings.Ordered`, `Arena.Ordered`.
Key theorems: `Bindings.Ordered.ext`, `Bindings.get?_foldl_insert`.
-/
import Playscript.Proofs.Arena.Standing

namespace Playscript

/-! ### Tables -/

namespace Bindings

/-- The names are listed in their order, each once. -/
def Ordered (b : Bindings) : Prop := b.entries.Pairwise fun e f => e.1 < f.1

variable {b c : Bindings} {name : String} {v w : Value}

theorem mem_insertEntry {e : String × Value} {entries : List (String × Value)}
    (h : e ∈ insertEntry name v entries) : e = (name, v) ∨ e ∈ entries := by
  induction entries with
  | nil => exact .inl (by simpa [insertEntry] using h)
  | cons entry rest ih =>
    obtain ⟨n, w⟩ := entry
    rw [insertEntry] at h
    split at h
    · exact (List.mem_cons.1 h).imp_right (List.mem_cons_of_mem _)
    · split at h
      · exact List.mem_cons.1 h
      · rcases List.mem_cons.1 h with rfl | h
        · exact .inr List.mem_cons_self
        · exact (ih h).imp_right (List.mem_cons_of_mem _)

namespace Ordered

theorem empty : empty.Ordered := .nil

theorem insert (h : b.Ordered) (name : String) (v : Value) : (b.insert name v).Ordered := by
  obtain ⟨entries⟩ := b
  change entries.Pairwise _ at h
  change (insertEntry name v entries).Pairwise _
  induction h with
  | nil => exact List.pairwise_singleton _ _
  | @cons entry rest hfirst hrest ih =>
    obtain ⟨n, w⟩ := entry
    rw [insertEntry]
    split
    · rename_i heq
      exact .cons (fun e he => heq ▸ hfirst e he) hrest
    · rename_i hne
      split
      · rename_i hlt
        refine .cons (fun e he => ?_) (.cons hfirst hrest)
        rcases List.mem_cons.1 he with rfl | he
        · exact hlt
        · exact String.lt_trans hlt (hfirst e he)
      · rename_i hge
        refine .cons (fun e he => ?_) ih
        rcases mem_insertEntry he with rfl | he
        · exact Classical.not_not.1 fun hlt =>
            hne (String.le_antisymm (String.not_lt.1 hge) (String.not_lt.1 hlt))
        · exact hfirst e he

theorem foldl_insert (h : b.Ordered) (entries : List (String × Value)) :
    (entries.foldl (fun b e => b.insert e.1 e.2) b).Ordered := by
  induction entries generalizing b with
  | nil => exact h
  | cons e rest ih => exact ih (h.insert e.1 e.2)

theorem ofList (entries : List (String × Value)) : (Bindings.ofList entries).Ordered :=
  empty.foldl_insert entries

/-- The entries of a table in order are what it answers. -/
theorem mem_entries (h : b.Ordered) : (name, v) ∈ b.entries ↔ b.get? name = some v := by
  obtain ⟨entries⟩ := b
  change entries.Pairwise _ at h
  rw [get?]
  dsimp only
  induction h with
  | nil => simp [find]
  | @cons entry rest hfirst _ ih =>
    obtain ⟨n, w⟩ := entry
    rw [find, List.mem_cons]
    split
    · rename_i heq
      subst heq
      have hrest : (n, v) ∉ rest := fun hmem => String.lt_irrefl n (hfirst _ hmem)
      simp [hrest, eq_comm]
    · rename_i hne
      have hhead : (name, v) ≠ (n, w) := fun heq => hne (congrArg Prod.fst heq).symm
      simp [hhead, ih]

/-- A table in order is what it answers for each name. -/
theorem ext (hb : b.Ordered) (hc : c.Ordered) (h : ∀ name, b.get? name = c.get? name) : b = c := by
  have hnodup {d : Bindings} (hd : d.Ordered) : d.entries.Nodup := by
    refine List.Pairwise.imp ?_ hd
    rintro e f hlt rfl
    exact String.lt_irrefl _ hlt
  have hperm : b.entries.Perm c.entries :=
    (List.perm_ext_iff_of_nodup (hnodup hb) (hnodup hc)).2 fun e => by
      rw [hb.mem_entries, hc.mem_entries, h]
  have heq : b.entries = c.entries :=
    hperm.eq_of_pairwise (fun _ _ _ _ hlt hlt' => absurd hlt' (String.lt_asymm hlt)) hb hc
  obtain ⟨entries⟩ := b
  obtain ⟨entries'⟩ := c
  exact congrArg Bindings.mk heq

end Ordered

theorem mem_names : name ∈ b.names ↔ b.binds name = true := by
  obtain ⟨entries⟩ := b
  rw [names, binds, get?]
  induction entries with
  | nil => simp [find]
  | cons e rest ih =>
    obtain ⟨n, w⟩ := e
    rw [find, List.map_cons, List.mem_cons]
    split
    · rename_i heq
      simp [heq]
    · rename_i hne
      rw [← ih]
      exact or_iff_right (Ne.symm hne)

/-- Names that are set one after the other to the values they have in a table. -/
theorem get?_foldl_insert (b : Bindings) (value : String → Value) (names : List String)
    (name : String) :
    (names.foldl (fun b n => b.insert n (value n)) b).get? name =
      if name ∈ names then some (value name) else b.get? name := by
  induction names generalizing b with
  | nil => simp
  | cons n rest ih =>
    rw [List.foldl_cons, ih]
    by_cases hrest : name ∈ rest
    · simp [hrest]
    · by_cases hname : name = n
      · subst hname
        simp [hrest, get?_insert_self]
      · simp [hrest, hname, get?_insert_of_ne b hname]

end Bindings

/-! ### Arenas -/

namespace Arena

/-- The tables of all frames are in order. -/
def Ordered (a : Arena) : Prop := ∀ s, (a.bindings s).Ordered

variable {a b : Arena}

namespace Ordered

theorem empty : Arena.empty.Ordered := by
  intro s
  rw [bindings, frame?_empty]
  split <;> exact .empty

/-- Nothing but empty tables is added. -/
theorem of_bindings (h : a.Ordered)
    (hb : ∀ s, b.bindings s = a.bindings s ∨ b.bindings s = .empty) : b.Ordered := by
  intro s
  rcases hb s with heq | heq
  · exact heq ▸ h s
  · exact heq ▸ .empty

theorem define (h : a.Ordered) (s : Slot) (name : String) (v : Value) :
    (a.define s name v).Ordered := by
  intro t
  by_cases hts : t = s
  · subst hts
    rcases hframe : a.frame? t with _ | f
    · rw [bindings, Arena.define, frame?_modify, if_pos rfl, hframe]
      exact .empty
    · rw [bindings_define_self (by rw [hframe]; rfl)]
      exact (h t).insert name v
  · rw [bindings_define_of_ne hts]
    exact h t

theorem assign? (h : a.Ordered) {s : Slot} {name : String} {v : Value}
    (hb : a.assign? s name v = some b) : b.Ordered := by
  obtain ⟨o, -, rfl⟩ := Option.map_eq_some_iff.1 hb
  exact h.define o name v

theorem capture (h : a.Ordered) (s : Slot) (identity : Nat) : (a.capture s identity).Ordered :=
  h.of_bindings fun t => .inl (bindings_capture a s identity t)

theorem push (h : a.Ordered) (p : Slot) : (a.push p).2.Ordered :=
  h.of_bindings fun t => bindings_push_or a p t

/-- Frames are only given up. -/
theorem of_frames (h : a.Ordered)
    (hb : ∀ s, (b.frame? s).isSome → b.bindings s = a.bindings s) : b.Ordered := by
  refine h.of_bindings fun s => ?_
  by_cases hs : (b.frame? s).isSome
  · exact .inl (hb s hs)
  · rw [bindings, Option.not_isSome_iff_eq_none.1 hs]
    exact .inr rfl

theorem collect (h : a.Ordered) (held : List Value) : (a.collect held).Ordered :=
  h.of_frames fun _ hs => (Prunes.collect a held).bindings hs

theorem release (h : a.Ordered) (held : List Value) (s : Slot) : (a.release held s).Ordered :=
  h.of_frames fun _ ht => (bindings_release ht).2

end Ordered

end Arena

end Playscript

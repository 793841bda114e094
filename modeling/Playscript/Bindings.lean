/-
# Names and their values

A table of names, kept in the order of the names, so that two tables with the
same entries are listed alike. What an insertion changes is one name
(`get?_insert_self`, `get?_insert_of_ne`).
-/
import Playscript.Value.Basic

namespace Playscript

/-- Values by name, in the order of the names. -/
structure Bindings where
  entries : List (String × Value)

namespace Bindings

def empty : Bindings := ⟨[]⟩

instance : Inhabited Bindings := ⟨empty⟩

/-- Puts an entry where its name belongs, or in place of the one with its name. -/
def insertEntry (name : String) (v : Value) : List (String × Value) → List (String × Value)
  | [] => [(name, v)]
  | (n, w) :: rest =>
    if n = name then (name, v) :: rest
    else if name < n then (name, v) :: (n, w) :: rest
    else (n, w) :: insertEntry name v rest

/-- The table with a name set to a value. -/
def insert (b : Bindings) (name : String) (v : Value) : Bindings :=
  ⟨insertEntry name v b.entries⟩

/-- The value of a name in a list of entries. -/
def find (name : String) : List (String × Value) → Option Value
  | [] => none
  | (n, w) :: rest => if n = name then some w else find name rest

/-- The value of a name. -/
def get? (b : Bindings) (name : String) : Option Value := find name b.entries

/-- Whether a name has a value. -/
def binds (b : Bindings) (name : String) : Bool := (b.get? name).isSome

/-- The names, in order. -/
def names (b : Bindings) : List String := b.entries.map Prod.fst

/-- The values, in the order of their names. -/
def values (b : Bindings) : List Value := b.entries.map Prod.snd

/-- The closures among the values, also inside arrays. -/
def closures (b : Bindings) : List Closure := Value.closuresAll b.values

/-- The closures in the defaults of capsules among the values. -/
def buried (b : Bindings) : List Closure := Value.buriedAll b.values

/-- Every closure that the values hold. -/
def places (b : Bindings) : List Closure := Value.placesAll b.values

/-- A table of entries given in any order; later entries win. -/
def ofList (entries : List (String × Value)) : Bindings :=
  entries.foldl (fun b e => b.insert e.1 e.2) empty

@[simp] theorem get?_empty (name : String) : empty.get? name = none := rfl

theorem get?_insert_self (b : Bindings) (name : String) (v : Value) :
    (b.insert name v).get? name = some v := by
  obtain ⟨entries⟩ := b
  simp only [insert, get?]
  induction entries with
  | nil => simp [insertEntry, find]
  | cons e rest ih =>
    obtain ⟨n, w⟩ := e
    simp only [insertEntry]
    split
    · simp [find]
    · split
      · simp [find]
      · rename_i hne _
        simp [find, hne, ih]

theorem get?_insert_of_ne (b : Bindings) {name other : String} (h : other ≠ name) (v : Value) :
    (b.insert name v).get? other = b.get? other := by
  obtain ⟨entries⟩ := b
  simp only [insert, get?]
  induction entries with
  | nil => simp [insertEntry, find, h.symm]
  | cons e rest ih =>
    obtain ⟨n, w⟩ := e
    simp only [insertEntry]
    split
    · rename_i heq
      simp [find, heq, h.symm]
    · split
      · simp [find, h.symm]
      · simp [find, ih]

/-- Setting a name binds it, and no other. -/
theorem binds_insert (b : Bindings) (name : String) (v : Value) (other : String) :
    (b.insert name v).binds other = (other == name || b.binds other) := by
  by_cases h : other = name
  · subst h
    simp [binds, get?_insert_self]
  · simp [binds, get?_insert_of_ne b h v, h]

/-- A name that is bound is set to another value, and the same names are bound. -/
theorem binds_insert_of_binds {b : Bindings} {name : String} (h : b.binds name = true) (v : Value) :
    (b.insert name v).binds = b.binds := by
  funext other
  rw [binds_insert]
  by_cases hother : other = name
  · rw [hother, h, Bool.or_true]
  · simp [hother]

theorem mem_values_of_get? {b : Bindings} {name : String} {v : Value} (h : b.get? name = some v) :
    v ∈ b.values := by
  obtain ⟨entries⟩ := b
  simp only [get?, values] at h ⊢
  induction entries with
  | nil => cases h
  | cons e rest ih =>
    obtain ⟨n, w⟩ := e
    simp only [find] at h
    split at h
    · cases h; exact List.mem_cons_self
    · exact List.mem_cons_of_mem _ (ih h)

theorem mem_values_insert {b : Bindings} {name : String} {v w : Value}
    (h : w ∈ (b.insert name v).values) : w = v ∨ w ∈ b.values := by
  obtain ⟨entries⟩ := b
  simp only [insert, values] at h ⊢
  induction entries with
  | nil => exact .inl (by simpa [insertEntry] using h)
  | cons e rest ih =>
    obtain ⟨n, u⟩ := e
    simp only [insertEntry] at h
    split at h
    · simp only [List.map_cons, List.mem_cons] at h ⊢
      exact h.imp id .inr
    · split at h
      · simpa using h
      · simp only [List.map_cons, List.mem_cons] at h ⊢
        rcases h with h | h
        · exact .inr (.inl h)
        · exact (ih h).imp id .inr

/-- Setting a name brings in no closures but those of the value. -/
theorem mem_places_insert {b : Bindings} {name : String} {v : Value} {c : Closure}
    (h : c ∈ (b.insert name v).places) : c ∈ v.places ∨ c ∈ b.places := by
  obtain ⟨w, hw, hc⟩ := Value.mem_placesAll.1 h
  rcases mem_values_insert hw with rfl | hw
  · exact .inl hc
  · exact .inr (Value.mem_placesAll.2 ⟨w, hw, hc⟩)

end Bindings

end Playscript

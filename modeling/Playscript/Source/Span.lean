/-
# Places and spans in a text

A place is a line and a column, both from 1, and columns count bytes of UTF-8.
A span runs from its first place to its last, both included. `Span.merge`
is the least span that covers two others when places are ordered by line and
then by column (`Span.merge_covers`).
-/
namespace Playscript

/-- A line and a byte column. Counters of 32 bits agree with them for every source of less than
4 GiB: no text has a place whose line or column is greater than the count of its bytes and one. -/
structure Place where
  line : Nat
  column : Nat
deriving DecidableEq, Repr, Inhabited

namespace Place

/-- Earlier in the text, or the same place. -/
protected def le (a b : Place) : Prop :=
  a.line < b.line ∨ (a.line = b.line ∧ a.column ≤ b.column)

instance : LE Place := ⟨Place.le⟩

instance (a b : Place) : Decidable (a ≤ b) :=
  inferInstanceAs (Decidable (a.line < b.line ∨ (a.line = b.line ∧ a.column ≤ b.column)))

theorem le_def {a b : Place} :
    a ≤ b ↔ a.line < b.line ∨ (a.line = b.line ∧ a.column ≤ b.column) := Iff.rfl

theorem le_refl (a : Place) : a ≤ a := Or.inr ⟨rfl, Nat.le_refl _⟩

theorem le_trans {a b c : Place} (hab : a ≤ b) (hbc : b ≤ c) : a ≤ c := by
  simp only [le_def] at *; omega

theorem le_total (a b : Place) : a ≤ b ∨ b ≤ a := by
  simp only [le_def]; omega

/-- The earlier of two places. -/
def earlier (a b : Place) : Place := if a ≤ b then a else b

/-- The later of two places. -/
def later (a b : Place) : Place := if a ≤ b then b else a

/-- The place after one more character: the next line after a line feed, and
otherwise as many columns further as the character has bytes. -/
def after (p : Place) (c : Char) : Place :=
  if c = '\n' then ⟨p.line + 1, 1⟩ else ⟨p.line, p.column + c.utf8Size⟩

/-- The place after a text. -/
def afterAll (p : Place) (cs : List Char) : Place := cs.foldl after p

@[simp] theorem afterAll_nil (p : Place) : p.afterAll [] = p := rfl

@[simp] theorem afterAll_cons (p : Place) (c : Char) (cs : List Char) :
    p.afterAll (c :: cs) = (p.after c).afterAll cs := rfl

theorem afterAll_append (p : Place) (cs ds : List Char) :
    p.afterAll (cs ++ ds) = (p.afterAll cs).afterAll ds := List.foldl_append ..

/-- The start of every text. -/
def first : Place := ⟨1, 1⟩

end Place

/-- The characters from `start` to `stop`, both included. -/
structure Span where
  start : Place
  stop : Place
deriving DecidableEq, Repr, Inhabited

namespace Span

/-- The span of one place. -/
def point (p : Place) : Span := ⟨p, p⟩

/-- The least span that covers both. -/
def merge (a b : Span) : Span := ⟨a.start.earlier b.start, a.stop.later b.stop⟩

/-- Every span of a nonempty list in one. -/
def mergeAll? : List Span → Option Span
  | [] => none
  | s :: rest => some (rest.foldl merge s)

/-- A span is written as the line and column it starts at. -/
def text (s : Span) : String := s!"{s.start.line}:{s.start.column}"

/-- One span lies within another. -/
def Within (inner outer : Span) : Prop :=
  outer.start ≤ inner.start ∧ inner.stop ≤ outer.stop

theorem merge_covers (a b : Span) : a.Within (a.merge b) ∧ b.Within (a.merge b) := by
  simp only [Within, merge, Place.earlier, Place.later]
  have h1 := Place.le_total a.start b.start
  have h2 := Place.le_total a.stop b.stop
  refine ⟨⟨?_, ?_⟩, ?_, ?_⟩ <;> split <;> simp_all [Place.le_refl]

end Span

end Playscript

/-
# Lines and places

Places are counted along a text character by character, and the lines are cut
out of it by themselves. Both agree: the characters since the last line feed
begin the line that a place is on, and the column tells how many bytes they
have (`Place.exists_line`). So a character that is no line feed can be read off
its line between its columns, whatever carriage returns the line loses at its
end (`Source.exists_line?`).

Every token stands on lines of the text (`Source.tokens_lines`).

Key theorems: `linesOf_append`, `Place.exists_line`, `Source.exists_line?`,
`Source.tokens_lines`.
-/
import Playscript.Proofs.Token.Spans

namespace Playscript

open String (utf8Len)

/-! ### Lines of a text -/

theorem linesOf_ne_nil (cs : List Char) : linesOf cs ≠ [] := by
  intro h
  have hlength := length_linesOf cs
  rw [h] at hlength
  cases hlength

theorem linesOf_lineFeed (cs : List Char) : linesOf ('\n' :: cs) = [] :: linesOf cs := by
  rw [linesOf, if_pos rfl]

theorem linesOf_cons {c : Char} (hc : c ≠ '\n') {cs line : List Char} {others : List (List Char)}
    (h : linesOf cs = line :: others) : linesOf (c :: cs) = (c :: line) :: others := by
  rw [linesOf, if_neg hc, h]

/-- A line feed cuts a text in two. -/
theorem linesOf_append (cs ds : List Char) :
    linesOf (cs ++ '\n' :: ds) = linesOf cs ++ linesOf ds := by
  induction cs with
  | nil => exact linesOf_lineFeed ds
  | cons c cs ih =>
    by_cases hc : c = '\n'
    · subst hc
      rw [List.cons_append, linesOf_lineFeed, linesOf_lineFeed, ih, List.cons_append]
    · obtain ⟨line, others, h⟩ := List.exists_cons_of_ne_nil (linesOf_ne_nil cs)
      rw [h, List.cons_append] at ih
      rw [List.cons_append, linesOf_cons hc ih, linesOf_cons hc h, List.cons_append]

/-- What goes up to the first line feed. -/
theorem takeWhile_line {c : Char} (hc : c ≠ '\n') (cs : List Char) :
    (c :: cs).takeWhile (· != '\n') = c :: cs.takeWhile (· != '\n') := by
  simp [hc]

/-- The first line goes up to the first line feed. -/
theorem head?_linesOf (cs : List Char) : (linesOf cs).head? = some (cs.takeWhile (· != '\n')) := by
  induction cs with
  | nil => rfl
  | cons c cs ih =>
    by_cases hc : c = '\n'
    · subst hc
      rw [linesOf_lineFeed]
      rfl
    · obtain ⟨others, h⟩ := List.head?_eq_some_iff.1 ih
      rw [linesOf_cons hc h, takeWhile_line hc]
      rfl

/-! ### The line of a place -/

namespace Place

/-- The line a place is on begins with the characters since the last line feed, and goes on up to
the next. -/
theorem exists_line (cs : List Char) :
    ∃ line, first.afterAll cs = ⟨cs.count '\n' + 1, utf8Len line + 1⟩ ∧
      ∀ rest, (linesOf (cs ++ rest))[cs.count '\n']? =
        some (line ++ rest.takeWhile (· != '\n')) := by
  induction cs using List.reverseRecOn with
  | nil =>
    refine ⟨[], rfl, fun rest => ?_⟩
    rw [List.nil_append, List.count_nil, ← List.head?_eq_getElem?, head?_linesOf]
    rfl
  | append_singleton cs c ih =>
    obtain ⟨line, hplace, hline⟩ := ih
    rw [afterAll_append, hplace, afterAll_cons, afterAll_nil, after]
    by_cases hc : c = '\n'
    · subst hc
      refine ⟨[], ?_, fun rest => ?_⟩
      · rw [if_pos rfl, List.count_append, List.count_singleton_self]
        rfl
      · rw [List.append_assoc, List.singleton_append, linesOf_append, List.count_append,
          List.count_singleton_self, List.getElem?_append_right (by rw [length_linesOf]),
          length_linesOf, Nat.sub_self, ← List.head?_eq_getElem?, head?_linesOf]
        rfl
    · have hcount : (cs ++ [c]).count '\n' = cs.count '\n' := by
        rw [List.count_append, List.count_singleton, if_neg (by simpa using hc), Nat.add_zero]
      refine ⟨line ++ [c], ?_, fun rest => ?_⟩
      · rw [if_neg hc, hcount, String.utf8Len_append, Nat.add_right_comm]
        simp
      · rw [hcount, List.append_assoc, hline, List.singleton_append, takeWhile_line hc,
          List.append_assoc, List.singleton_append]

end Place

/-! ### How far the lines go -/

namespace Place

theorem line_le_after (p : Place) (c : Char) : p.line ≤ (p.after c).line := by
  rw [after]
  split
  · exact Nat.le_succ _
  · exact Nat.le_refl _

theorem line_le_afterAll (p : Place) (cs : List Char) : p.line ≤ (p.afterAll cs).line := by
  induction cs generalizing p with
  | nil => exact Nat.le_refl _
  | cons c cs ih => exact Nat.le_trans (p.line_le_after c) (ih (p.after c))

theorem line_le {a b : Place} (h : a ≤ b) : a.line ≤ b.line := by
  rw [le_def] at h
  omega

end Place

/-- Lexemes stand on the lines from the first of them to the end of the text. -/
theorem layOut_lines {p : Place} {ls : List Lexeme} {q : Placed} (h : q ∈ layOut p ls) :
    p.line ≤ q.start.line ∧ q.next.line ≤ (p.afterAll (ls.flatMap Lexeme.text)).line := by
  induction ls generalizing p with
  | nil => exact absurd h List.not_mem_nil
  | cons l ls ih =>
    rw [List.flatMap_cons, Place.afterAll_append]
    rcases List.mem_cons.1 h with rfl | h
    · exact ⟨Nat.le_refl _, Place.line_le_afterAll _ _⟩
    · obtain ⟨hstart, hnext⟩ := ih h
      exact ⟨Nat.le_trans (Place.line_le_afterAll _ _) hstart, hnext⟩

/-! ### The lines of a source -/

/-- What stands in front of another character stays. -/
theorem dropTrailing_append {c d : Char} (hd : d ≠ c) (cs ds : List Char) :
    dropTrailing c (cs ++ d :: ds) = cs ++ d :: dropTrailing c ds := by
  simp only [dropTrailing, List.reverse_append, List.reverse_cons, List.append_assoc,
    List.singleton_append]
  rw [List.dropWhile_append]
  split
  · rename_i hempty
    rw [List.isEmpty_iff.1 hempty, List.dropWhile_cons, if_neg (by simpa using hd)]
    simp
  · simp

namespace Source

variable {s : Source}

/-- The lines are counted from 1 to the last. -/
theorem line?_isSome {n : Nat} (hpos : 1 ≤ n) (hle : n ≤ s.lineCount) : (s.line? n).isSome := by
  rw [line?, if_neg (Nat.ne_of_gt hpos), Option.isSome_map, List.getElem?_eq_getElem]
  · rfl
  · rw [← lineCount]
    omega

theorem line_end (s : Source) : (Place.first.afterAll s.text.toList).line = s.lineCount := by
  obtain ⟨line, hplace, -⟩ := Place.exists_line s.text.toList
  rw [hplace, lineCount_eq]

/-- Tokens stand on lines of the text. -/
theorem tokens_lines {t : Token} (h : t ∈ s.tokens) :
    1 ≤ t.span.start.line ∧ t.span.stop.line ≤ s.lineCount := by
  rw [← s.line_end]
  rcases List.mem_append.1 h with h | h
  · obtain ⟨q, hq, ht⟩ := List.mem_filterMap.1 h
    obtain ⟨hstart, hnext⟩ := layOut_lines hq
    rw [lexemes_text] at hnext
    obtain ⟨kind, -, rfl⟩ := Option.map_eq_some_iff.1 ht
    exact ⟨hstart, hnext⟩
  · rw [List.mem_singleton.1 h]
    exact ⟨Place.line_le_afterAll .first _, Nat.le_refl _⟩

/-- A line that is there is shown. -/
theorem line?_lineAt {p : Place} (h : (s.line? p.line).isSome) :
    s.line? p.line = some (s.lineAt p) := by
  obtain ⟨line, hline⟩ := Option.isSome_iff_exists.1 h
  rw [lineAt, hline]
  rfl

/-- The line of a character, without the carriage returns at its end: as many bytes in front of the
character as its column says. -/
theorem exists_line? {front back : List Char} {c : Char} (h : s.text.toList = front ++ c :: back)
    (hfeed : c ≠ '\n') (hreturn : c ≠ '\r') :
    ∃ line rest,
      s.line? (Place.first.afterAll front).line = some (String.ofList (line ++ c :: rest)) ∧
      (Place.first.afterAll front).column = utf8Len line + 1 := by
  obtain ⟨line, hplace, hline⟩ := Place.exists_line front
  refine ⟨line, dropTrailing '\r' (back.takeWhile (· != '\n')), ?_, by rw [hplace]⟩
  rw [hplace, line?, if_neg (Nat.succ_ne_zero _), h, Nat.add_sub_cancel, hline,
    takeWhile_line hfeed, Option.map_some, dropTrailing_append hreturn]

end Source

end Playscript

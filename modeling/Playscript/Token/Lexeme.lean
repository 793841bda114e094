/-
# Lexemes

`lexemes` cuts a text into lexemes, each the longest of its class: blanks,
comments, words, numbers, quoted strings, marks, and characters that belong to
no class. Nothing is lost: the lexemes' texts in a row are the text
(`lexemes_text`).

A string runs to the next quote or to the end of the text; it knows no escapes.
A number has a fraction only if a digit follows the point.
-/
import Playscript.Token.Basic
import Playscript.Number.Reading

namespace Playscript

/-- White space between tokens: space, tab, line feed, form feed and carriage return. -/
def isBlank (c : Char) : Bool :=
  c == ' ' || c == '\t' || c == '\n' || c == '\x0c' || c == '\r'

/-- The decimal digits. -/
def isDigit (c : Char) : Bool := '0' ≤ c && c ≤ '9'

/-- The letters of the Latin alphabet. -/
def isLetter (c : Char) : Bool := ('a' ≤ c && c ≤ 'z') || ('A' ≤ c && c ≤ 'Z')

/-- What a name may start with. -/
def startsName (c : Char) : Bool := isLetter c || c == '_'

/-- What a name may go on with. -/
def continuesName (c : Char) : Bool := startsName c || isDigit c

/-- A piece of a text. -/
inductive Lexeme where
  | blank (c : Char)
  /-- What follows the two slashes, up to the line's end. -/
  | comment (body : List Char)
  | word (text : List Char)
  /-- The digits before the point and, if there is one, those after it. -/
  | number (whole : List Char) (fraction? : Option (List Char))
  /-- What stands between the quotes, and whether the second quote is there. -/
  | quoted (body : List Char) (closed : Bool)
  | mark (m : Mark)
  | unknown (c : Char)
deriving DecidableEq, Repr

namespace Lexeme

/-- The characters of a lexeme. -/
def text : Lexeme → List Char
  | blank c => [c]
  | comment body => '/' :: '/' :: body
  | word t => t
  | number whole none => whole
  | number whole (some fraction) => whole ++ '.' :: fraction
  | quoted body true => '"' :: (body ++ ['"'])
  | quoted body false => '"' :: body
  | mark m => m.text.toList
  | unknown c => [c]

/-- The token kind of a lexeme, if it stands for a token. -/
def kind? : Lexeme → Option Token.Kind
  | word t => some (Token.Kind.ofWord (String.ofList t))
  | number whole fraction? => some (.number (Number.ofDigits whole (fraction?.getD [])))
  | quoted body _ => some (.string (String.ofList body))
  | mark m => some (.mark m)
  | blank _ | comment _ | unknown _ => none

end Lexeme

/-- The first lexeme of a nonempty text, and the rest. -/
def nextLexeme (c : Char) (rest : List Char) : Lexeme × List Char :=
  if isBlank c then (.blank c, rest)
  else if c = '"' then
    let body := rest.takeWhile (· != '"')
    match rest.dropWhile (· != '"') with
    | [] => (.quoted body false, [])
    | _ :: after => (.quoted body true, after)
  else if isDigit c then
    let whole := c :: rest.takeWhile isDigit
    match rest.dropWhile isDigit with
    | '.' :: d :: after =>
      if isDigit d then
        (.number whole (some (d :: after.takeWhile isDigit)), after.dropWhile isDigit)
      else (.number whole none, '.' :: d :: after)
    | after => (.number whole none, after)
  else if startsName c then
    (.word (c :: rest.takeWhile continuesName), rest.dropWhile continuesName)
  else match c, rest with
    | '/', '/' :: after => (.comment (after.takeWhile (· != '\n')), after.dropWhile (· != '\n'))
    | '=', '=' :: after => (.mark .equal, after)
    | _, _ =>
      match Mark.ofChar? c with
      | some m => (.mark m, rest)
      | none => (.unknown c, rest)

theorem Mark.text_of_ofChar? {c : Char} {m : Mark} (h : Mark.ofChar? c = some m) :
    m.text.toList = [c] := by
  unfold Mark.ofChar? at h
  split at h <;> first | (cases h; rfl) | cases h

/-- No character is lost between a lexeme and the rest. -/
theorem nextLexeme_text (c : Char) (rest : List Char) :
    (nextLexeme c rest).1.text ++ (nextLexeme c rest).2 = c :: rest := by
  unfold nextLexeme
  split
  · rfl
  split
  · rename_i hq
    subst hq
    have hsplit := List.takeWhile_append_dropWhile (p := (· != '"')) (l := rest)
    simp only
    split
    · rename_i hd
      simp only [hd, List.append_nil] at hsplit
      simp [Lexeme.text, hsplit]
    · rename_i d after hd
      have hq : d = '"' := by
        have h := List.head_dropWhile_not (l := rest) (· != '"') (by simp [hd])
        simpa [hd] using h
      subst hq
      rw [hd] at hsplit
      simp [Lexeme.text, hsplit]
  split
  · have hsplit := List.takeWhile_append_dropWhile (p := isDigit) (l := rest)
    simp only
    split
    · rename_i d after hd
      rw [hd] at hsplit
      split
      · have hafter := List.takeWhile_append_dropWhile (p := isDigit) (l := after)
        simp [Lexeme.text, hafter, hsplit]
      · simp [Lexeme.text, hsplit]
    · simp [Lexeme.text, hsplit]
  split
  · have hsplit := List.takeWhile_append_dropWhile (p := continuesName) (l := rest)
    simp [Lexeme.text, hsplit]
  split
  · simp [Lexeme.text]
  · rfl
  · split
    · rename_i m hm
      simp [Lexeme.text, Mark.text_of_ofChar? hm]
    · rfl

theorem nextLexeme_smaller (c : Char) (rest : List Char) :
    (nextLexeme c rest).2.length ≤ rest.length := by
  unfold nextLexeme
  have hq := (List.dropWhile_sublist (l := rest) (· != '"')).length_le
  have hd := (List.dropWhile_sublist (l := rest) isDigit).length_le
  have hn := (List.dropWhile_sublist (l := rest) continuesName).length_le
  split
  · exact Nat.le_refl _
  split
  · simp only
    split
    · exact Nat.zero_le _
    · rename_i h
      rw [h] at hq
      exact Nat.le_of_succ_le hq
  split
  · simp only
    split
    · rename_i d after h
      have ha := (List.dropWhile_sublist (l := after) isDigit).length_le
      rw [h] at hd
      simp only [List.length_cons] at hd
      split <;> simp only [List.length_cons] <;> omega
    · exact hd
  split
  · exact hn
  split
  · rename_i after _ _ _ _
    have ha := (List.dropWhile_sublist (l := after) (· != '\n')).length_le
    simp only [List.length_cons]; omega
  · simp
  · split <;> exact Nat.le_refl _

/-- The lexemes of a text, in order. -/
def lexemes : List Char → List Lexeme
  | [] => []
  | c :: rest => (nextLexeme c rest).1 :: lexemes (nextLexeme c rest).2
termination_by cs => cs.length
decreasing_by
  have := nextLexeme_smaller c rest
  simp only [List.length_cons]; omega

/-- Nothing of the text is lost and nothing is doubled. -/
theorem lexemes_text (cs : List Char) : (lexemes cs).flatMap Lexeme.text = cs := by
  fun_induction lexemes cs with
  | case1 => rfl
  | case2 c rest ih => rw [List.flatMap_cons, ih, nextLexeme_text]

end Playscript

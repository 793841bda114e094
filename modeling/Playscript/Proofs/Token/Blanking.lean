/-
# Unknown characters count as blanks

A character that belongs to no class is reported and skipped. As many spaces as
it has bytes in its place leave the tokens as they are, with their spans: the
lexemes around it neither grow into the spaces nor together
(`Cuts.blanked`), and the spaces are as wide as the character.

Each such character is one diagnostic, in order, and the diagnostic marks it: it
starts at the character's first byte, and the bytes between its columns in the
line it shows are those of the character (`Source.unknowns_marked`).

Key definitions: `Source.blanked`, `Source.strays`, `Diagnostic.Marks`.
Key theorems: `Cuts.blanked`, `Source.tokens_blanked`, `Source.unknowns_marked`.
-/
import Playscript.Proofs.Source.Lines

namespace Playscript

open String (utf8Len)

/-! ### Spaces for unknown characters -/

namespace Lexeme

/-- A lexeme, or a space for each byte of a character of no class. -/
def blanked : Lexeme → List Lexeme
  | unknown c => List.replicate c.utf8Size (blank ' ')
  | l => [l]

theorem blanked_eq {l : Lexeme} (h : ¬ l.isUnknown) : l.blanked = [l] := by
  cases l with
  | unknown c => exact absurd rfl h
  | _ => rfl

end Lexeme

/-- The text with spaces for the characters of no class. -/
def blankedText (ls : List Lexeme) : List Char := (ls.flatMap Lexeme.blanked).flatMap Lexeme.text

theorem spaces_text (n : Nat) :
    (List.replicate n (Lexeme.blank ' ')).flatMap Lexeme.text = List.replicate n ' ' := by
  induction n with
  | zero => rfl
  | succ n ih => rw [List.replicate_succ, List.flatMap_cons, ih]; rfl

theorem blankedText_unknown (c : Char) (ls : List Lexeme) :
    blankedText (.unknown c :: ls) = List.replicate c.utf8Size ' ' ++ blankedText ls := by
  rw [blankedText, List.flatMap_cons, List.flatMap_append, Lexeme.blanked, spaces_text]
  rfl

theorem blankedText_cons {l : Lexeme} (h : ¬ l.isUnknown) (ls : List Lexeme) :
    blankedText (l :: ls) = l.text ++ blankedText ls := by
  rw [blankedText, List.flatMap_cons, l.blanked_eq h]
  rfl

/-! ### Where lexemes stop -/

namespace Lexeme

variable {l k : Lexeme} {c : Char} {rest cs ds : List Char}

theorem Leads.formed (h : l.Leads cs) (hl : ¬ l.isUnknown) : l.Formed := by
  cases l with
  | unknown c => exact absurd rfl hl
  | _ => exact h.2.1

/-- A blank is known. -/
theorem Leads.not_blank (h : (unknown c).Leads cs) : ¬ isBlank c := by
  intro hc
  obtain ⟨rest, rfl⟩ := h.1
  exact h.2 (blank c) hc ⟨rest, rfl⟩

/-- Nothing of a class starts with a point. -/
theorem Formed.ne_point (hk : k.Formed) : k.text ≠ '.' :: cs := by
  intro h
  have hlone : Lone '.' cs := .of_ne (by decide) (by decide)
  obtain ⟨m, -, -, hm⟩ := hlone.of_isPrefix (by decide) hk (h ▸ List.prefix_refl k.text)
  cases hm

/-- Whatever stops at an unknown character stops at a space. -/
theorem Stops.space (h : l.Stops (c :: cs)) (hc : c ≠ '\n') : l.Stops (' ' :: ds) := by
  cases l with
  | comment body => exact absurd (h c rfl) hc
  | word t =>
    rintro _ ⟨⟩
    decide
  | number whole fraction? =>
    cases fraction? with
    | none => exact ⟨by rintro _ ⟨⟩; decide, nofun⟩
    | some fraction =>
      rintro _ ⟨⟩
      decide
  | quoted body closed =>
    cases closed with
    | false => cases h
    | true => trivial
  | mark m =>
    cases m
    case assign | slash =>
      rintro _ ⟨⟩
      decide
    all_goals trivial
  | _ => trivial

/-- In front of a lexeme of a class it does not matter what stands behind that. -/
theorem Stops.congr (hk : k.Formed) (h : l.Stops (k.text ++ cs)) : l.Stops (k.text ++ ds) := by
  have hpoint : ∀ t, k.text ≠ '.' :: t := fun t => hk.ne_point
  obtain ⟨c, t, ht⟩ := List.exists_cons_of_ne_nil (text_ne_nil hk)
  rw [ht] at h hpoint ⊢
  cases l with
  | number whole fraction? =>
    cases fraction? with
    | none =>
      refine ⟨h.1, ?_⟩
      rintro d after heq
      exact absurd (congrArg (· :: t) (List.cons.inj heq).1) (hpoint t)
    | some fraction => exact h
  | quoted body closed =>
    cases closed with
    | false => cases h
    | true => trivial
  | mark m =>
    cases m
    case assign | slash => exact h
    all_goals trivial
  | _ => exact h

end Lexeme

/-- Spaces are lexemes of their own. -/
theorem Cuts.spaces {cs : List Char} {ls : List Lexeme} (h : Cuts cs ls) (n : Nat) :
    Cuts (List.replicate n ' ' ++ cs) (List.replicate n (.blank ' ') ++ ls) := by
  induction n with
  | zero => exact h
  | succ n ih =>
    rw [List.replicate_succ, List.replicate_succ]
    exact .cons (l := .blank ' ') (leads_blank rfl) ih

/-- With spaces in place of the unknown characters a text is cut alike. -/
theorem Cuts.blanked {cs : List Char} {ls : List Lexeme} (h : Cuts cs ls) :
    Cuts (blankedText ls) (ls.flatMap Lexeme.blanked) := by
  induction h with
  | nil => exact .nil
  | @cons l rest ls hleads hcuts ih =>
    by_cases hl : l.isUnknown
    · cases l with
      | unknown c =>
        rw [blankedText_unknown]
        exact ih.spaces c.utf8Size
      | _ => cases hl
    · rw [blankedText_cons hl, List.flatMap_cons, l.blanked_eq hl]
      refine .cons ((hleads.formed hl).leads ?_) ih
      have hstops : l.Stops rest := hleads.stops
      cases hcuts with
      | nil => exact hstops
      | @cons k rest ls hk _ =>
        by_cases hknown : k.isUnknown
        · cases k with
          | unknown c =>
            rw [blankedText_unknown]
            obtain ⟨n, hn⟩ := Nat.exists_eq_succ_of_ne_zero (Nat.ne_of_gt c.utf8Size_pos)
            rw [hn, List.replicate_succ]
            exact hstops.space fun hc => hk.not_blank (hc ▸ rfl)
          | _ => cases hknown
        · rw [blankedText_cons hknown]
          exact hstops.congr (hk.formed hknown)

/-! ### The tokens of the blanked text -/

theorem Place.afterAll_spaces (p : Place) (n : Nat) :
    p.afterAll (List.replicate n ' ') = ⟨p.line, p.column + n⟩ := by
  induction n generalizing p with
  | zero => rfl
  | succ n ih =>
    have hafter : p.after ' ' = ⟨p.line, p.column + 1⟩ := rfl
    rw [List.replicate_succ, afterAll_cons, hafter, ih, Nat.add_assoc, Nat.add_comm 1 n]

/-- The spaces are as wide as the character. -/
theorem Lexeme.Leads.afterAll_blanked {l : Lexeme} {cs : List Char} (h : l.Leads cs) (p : Place) :
    p.afterAll (l.blanked.flatMap Lexeme.text) = p.afterAll l.text := by
  cases l with
  | unknown c =>
    have hc : c ≠ '\n' := fun hc => h.not_blank (hc ▸ rfl)
    rw [blanked, spaces_text, Place.afterAll_spaces, text, Place.afterAll_cons, Place.afterAll_nil,
      Place.after, if_neg hc]
  | _ => exact congrArg p.afterAll (List.flatMap_singleton ..)

theorem layOut_append (p : Place) (ks ls : List Lexeme) :
    layOut p (ks ++ ls) = layOut p ks ++ layOut (p.afterAll (ks.flatMap Lexeme.text)) ls := by
  induction ks generalizing p with
  | nil => rfl
  | cons k ks ih =>
    rw [List.cons_append, layOut, layOut, ih, List.flatMap_cons, Place.afterAll_append,
      List.cons_append]

/-- What is no token stays none. -/
theorem tokens_layOut_blanked (p : Place) (l : Lexeme) :
    (layOut p l.blanked).filterMap Placed.token? = (layOut p [l]).filterMap Placed.token? := by
  cases l with
  | unknown c =>
    have hspaces :
        ∀ n p, (layOut p (List.replicate n (.blank ' '))).filterMap Placed.token? = [] := by
      intro n
      induction n with
      | zero => exact fun _ => rfl
      | succ n ih =>
        intro p
        rw [List.replicate_succ, layOut, List.filterMap_cons_none rfl]
        exact ih _
    rw [Lexeme.blanked, hspaces]
    rfl
  | _ => rfl

/-- The same tokens at the same places, and the text ends where it did. -/
theorem Cuts.layOut_blanked {cs : List Char} {ls : List Lexeme} (h : Cuts cs ls) (p : Place) :
    (layOut p (ls.flatMap Lexeme.blanked)).filterMap Placed.token? =
        (layOut p ls).filterMap Placed.token? ∧
      p.afterAll (blankedText ls) = p.afterAll cs := by
  induction h generalizing p with
  | nil => exact ⟨rfl, rfl⟩
  | @cons l rest ls hleads _ ih =>
    obtain ⟨htokens, hplace⟩ := ih (p.afterAll l.text)
    constructor
    · rw [List.flatMap_cons, layOut_append, hleads.afterAll_blanked, List.filterMap_append, htokens,
        tokens_layOut_blanked, ← List.filterMap_append]
      rfl
    · rw [blankedText, List.flatMap_cons, List.flatMap_append, Place.afterAll_append,
        hleads.afterAll_blanked, Place.afterAll_append]
      exact hplace

namespace Source

/-- The source with spaces for the characters of no class, as many as they have bytes. Strings and
comments stay as they are. -/
def blanked (s : Source) : Source :=
  ⟨s.name, String.ofList (blankedText (lexemes s.text.toList))⟩

variable {s : Source}

theorem lexemes_blanked (s : Source) :
    lexemes s.blanked.text.toList = (lexemes s.text.toList).flatMap Lexeme.blanked := by
  rw [blanked, String.toList_ofList]
  exact lexemes_eq_iff.2 (cuts_lexemes s.text.toList).blanked

/-- The tokens are the same, with their spans. -/
theorem tokens_blanked (s : Source) : s.blanked.tokens = s.tokens := by
  obtain ⟨htokens, hplace⟩ := (cuts_lexemes s.text.toList).layOut_blanked .first
  rw [tokens, tokens, placed, placed, lexemes_blanked, htokens, endOfFile, endOfFile, blanked,
    String.toList_ofList, hplace]

/-- There is nothing left to report. -/
theorem unknowns_blanked (s : Source) : s.blanked.unknowns = [] := by
  rw [← List.length_eq_zero_iff, unknowns, placed, layOut_unknowns, lexemes_blanked,
    List.countP_eq_zero]
  intro l hl
  obtain ⟨k, -, hk⟩ := List.mem_flatMap.1 hl
  cases k with
  | unknown c =>
    rw [List.eq_of_mem_replicate hk]
    decide
  | _ =>
    rw [List.mem_singleton.1 hk]
    exact Bool.false_ne_true

end Source

/-! ### The characters that are reported -/

/-- The characters of no class, each with the number of bytes in front of it. -/
def straysFrom (n : Nat) : List Lexeme → List (Nat × Char)
  | [] => []
  | .unknown c :: ls => (n, c) :: straysFrom (n + c.utf8Size) ls
  | l :: ls => straysFrom (n + utf8Len l.text) ls

def Source.strays (s : Source) : List (Nat × Char) := straysFrom 0 (lexemes s.text.toList)

/-- A diagnostic that points at a character of a source. -/
structure Diagnostic.Marks (s : Source) (stray : Nat × Char) (d : Diagnostic) : Prop where
  code : d.code = .unexpectedCharacter
  message : d.message = s!"Unknown character '{stray.2}'"
  /-- It starts at the first byte of the character. -/
  start : d.span.start = s.placeAt stray.1
  /-- It stays on one line, and shows that line. -/
  stays : d.span.stop.line = d.span.start.line
  line : s.line? d.span.start.line = some d.sourceLine
  /-- From the first column to the last the line has the bytes of the character. -/
  bytes : (d.sourceLine.toByteArray.data.toList.drop (d.span.start.column - 1)).take
      (d.span.stop.column + 1 - d.span.start.column) = String.utf8EncodeChar stray.2

namespace Source

variable {s : Source}

theorem placeAt_afterAll {front back : List Char} (h : s.text.toList = front ++ back) :
    s.placeAt (utf8Len front) = Place.first.afterAll front := by
  have hfirst : Place.first = .behind [] := rfl
  have hbytes : s.bytes = encode front ++ encode back := by rw [bytes_eq, h, encode_append]
  rw [placeAt_eq hbytes (length_encode front).symm, hfirst, Place.afterAll_behind, List.nil_append]

theorem marks_unknown {front back : List Char} {c : Char} (h : s.text.toList = front ++ c :: back)
    (hc : ¬ isBlank c) :
    (Diagnostic.inSource s .unexpectedCharacter s!"Unknown character '{c}'"
      (Placed.span ⟨.unknown c, .afterAll .first front⟩) none).Marks s (utf8Len front, c) := by
  have hfeed : c ≠ '\n' := fun h => hc (h ▸ rfl)
  have hreturn : c ≠ '\r' := fun h => hc (h ▸ rfl)
  obtain ⟨line, rest, hline, hcolumn⟩ := exists_line? h hfeed hreturn
  have hshown : s.lineAt (Place.first.afterAll front) = String.ofList (line ++ c :: rest) := by
    rw [lineAt, hline]
    rfl
  have hnext : Placed.next ⟨.unknown c, Place.first.afterAll front⟩ =
      ⟨(Place.first.afterAll front).line, utf8Len line + 1 + c.utf8Size⟩ := by
    rw [Placed.next, Lexeme.text, Place.afterAll_cons, Place.afterAll_nil, Place.after,
      if_neg hfeed, hcolumn]
  have hpos := c.utf8Size_pos
  refine ⟨rfl, rfl, (placeAt_afterAll h).symm, ?_, ?_, ?_⟩
  · change (Placed.next _).line = (Place.first.afterAll front).line
    rw [hnext]
  · exact hline.trans (congrArg some hshown.symm)
  · rw [Diagnostic.inSource, Placed.span, hnext]
    dsimp only
    rw [hshown, hcolumn, toByteArray_toList, String.toList_ofList, encode_append, encode_cons,
      Nat.add_sub_cancel, ← length_encode, List.drop_left]
    have hsize :
        max ((encode line).length + 1 + c.utf8Size - 1) 1 + 1 - ((encode line).length + 1) =
          (String.utf8EncodeChar c).length := by
      rw [String.length_utf8EncodeChar]
      omega
    rw [hsize, List.take_left]

theorem layOut_marked {front rest : List Char} {ls : List Lexeme} (hcuts : Cuts rest ls)
    (h : s.text.toList = front ++ rest) :
    List.Forall₂ (Diagnostic.Marks s) (straysFrom (utf8Len front) ls)
      ((layOut (Place.first.afterAll front) ls).filterMap (Placed.diagnostic? s)) := by
  induction hcuts generalizing front with
  | nil => exact .nil
  | @cons l rest ls hleads _ ih =>
    rw [← List.append_assoc] at h
    have hrest := ih h
    rw [String.utf8Len_append, Place.afterAll_append] at hrest
    cases l with
    | unknown c =>
      rw [List.append_assoc] at h
      have hsize : utf8Len [c] = c.utf8Size := Nat.zero_add _
      rw [Lexeme.text, hsize] at hrest
      exact .cons (marks_unknown h hleads.not_blank) hrest
    | _ => exact hrest

/-- One diagnostic for each character of no class, in order. -/
theorem unknowns_marked (s : Source) :
    List.Forall₂ (Diagnostic.Marks s) s.strays s.unknowns :=
  layOut_marked (cuts_lexemes s.text.toList) (show s.text.toList = [] ++ s.text.toList from rfl)

end Source

end Playscript

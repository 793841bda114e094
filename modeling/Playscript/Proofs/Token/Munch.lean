/-
# Each lexeme is the longest there is

A lexeme of a class has the characters of its class. The first lexeme of a text
is the longest of all lexemes of a class that the text starts with, so `==` is
never read as two marks, a point without a digit after it is no part of
a number, and two slashes are never a mark. Only a character that no lexeme of
a class starts with is unknown. This determines how a text is cut into lexemes
(`lexemes_eq_iff`).

Key definitions: `Lexeme.Formed`, `Lexeme.Leads`, `Cuts`.
Key theorems: `Lexeme.ext_of_text`, `nextLexeme_leads`, `lexemes_eq_iff`.
-/
import Playscript.Token.Lexeme
import Mathlib.Data.List.TakeWhile

namespace Playscript

/-! ### The classes of lexemes -/

namespace Lexeme

/-- A lexeme of a class: blanks, comments, words, numbers, strings and marks. -/
def Formed : Lexeme → Prop
  | blank c => isBlank c
  | comment body => ∀ c ∈ body, c ≠ '\n'
  | word t => ∃ c rest, t = c :: rest ∧ startsName c ∧ ∀ d ∈ rest, continuesName d
  | number whole fraction? =>
    whole ≠ [] ∧ (∀ d ∈ whole, isDigit d) ∧
      ∀ fraction ∈ fraction?, fraction ≠ [] ∧ ∀ d ∈ fraction, isDigit d
  | quoted body _ => ∀ c ∈ body, c ≠ '"'
  | mark _ => True
  | unknown _ => False

/-- A lexeme is the longest of a class that a text starts with; or the text starts with no lexeme
of a class, and its first character stands for itself. -/
def Leads (l : Lexeme) (cs : List Char) : Prop :=
  l.text <+: cs ∧ match l with
    | unknown _ => ∀ k : Lexeme, k.Formed → ¬ k.text <+: cs
    | l => l.Formed ∧ ∀ k : Lexeme, k.Formed → k.text <+: cs → k.text.length ≤ l.text.length

end Lexeme

/-- A text cut into lexemes, each the longest there is at its start. -/
inductive Cuts : List Char → List Lexeme → Prop where
  | nil : Cuts [] []
  | cons {l : Lexeme} {rest : List Char} {ls : List Lexeme} :
    l.Leads (l.text ++ rest) → Cuts rest ls → Cuts (l.text ++ rest) (l :: ls)

/-! ### The first character tells the class -/

/-- What the first character of a lexeme says about it. -/
inductive Opening where
  | blank
  | quote
  | digit
  | letter
  /-- Marks and comments. -/
  | sign
deriving DecidableEq

namespace Opening

/-- What a character opens. -/
def ofChar (c : Char) : Opening :=
  if isBlank c then blank
  else if c = '"' then quote
  else if isDigit c then digit
  else if startsName c then letter
  else sign

variable {c : Char}

theorem ofChar_blank (h : isBlank c) : ofChar c = blank := by rw [ofChar, if_pos h]

theorem ofChar_quote : ofChar '"' = quote := by decide

/-- Digits and letters are further on in the order of characters than blanks and quotes. -/
theorem not_blank_of_continuesName (h : continuesName c) : ¬ isBlank c ∧ c ≠ '"' := by
  refine ⟨fun hb => ?_, fun hq => ?_⟩
  · simp only [isBlank, Bool.or_eq_true, beq_iff_eq] at hb
    rcases hb with (((rfl | rfl) | rfl) | rfl) | rfl <;> revert h <;> decide
  · subst hq
    revert h
    decide

theorem ofChar_digit (h : isDigit c) : ofChar c = digit := by
  obtain ⟨hb, hq⟩ := not_blank_of_continuesName (c := c) (by simp [continuesName, h])
  rw [ofChar, if_neg hb, if_neg hq, if_pos h]

theorem not_isDigit_of_startsName (h : startsName c) : ¬ isDigit c := by
  intro hd
  simp only [startsName, isLetter, isDigit, Bool.or_eq_true, Bool.and_eq_true, decide_eq_true_eq,
    beq_iff_eq, Char.le_def, UInt32.le_iff_toNat_le] at h hd
  rcases h with (⟨h, -⟩ | ⟨h, -⟩) | rfl
  · exact absurd (Nat.le_trans h hd.2) (by decide)
  · exact absurd (Nat.le_trans h hd.2) (by decide)
  · exact absurd hd.2 (by decide)

theorem ofChar_letter (h : startsName c) : ofChar c = letter := by
  obtain ⟨hb, hq⟩ := not_blank_of_continuesName (c := c) (by simp [continuesName, h])
  rw [ofChar, if_neg hb, if_neg hq, if_neg (not_isDigit_of_startsName h), if_pos h]

end Opening

namespace Lexeme

/-- What the first character of a lexeme of a class is. -/
def opening : Lexeme → Opening
  | blank _ => .blank
  | quoted _ _ => .quote
  | number _ _ => .digit
  | word _ => .letter
  | comment _ | mark _ | unknown _ => .sign

theorem opening_eq {k : Lexeme} (hk : k.Formed) {c : Char} {rest : List Char}
    (h : k.text <+: c :: rest) : k.opening = Opening.ofChar c := by
  cases k with
  | blank d =>
    obtain ⟨rfl, -⟩ := List.cons_prefix_cons.1 h
    exact (Opening.ofChar_blank hk).symm
  | comment body =>
    obtain ⟨rfl, -⟩ := List.cons_prefix_cons.1 h
    rfl
  | word t =>
    obtain ⟨d, t, rfl, hd, -⟩ := hk
    obtain ⟨rfl, -⟩ := List.cons_prefix_cons.1 h
    exact (Opening.ofChar_letter hd).symm
  | number whole fraction? =>
    obtain ⟨hne, hdigits, -⟩ := hk
    obtain ⟨d, whole, rfl⟩ := List.exists_cons_of_ne_nil hne
    have hd : d = c := by
      cases fraction? <;> exact (List.cons_prefix_cons.1 h).1
    subst hd
    exact (Opening.ofChar_digit (hdigits d List.mem_cons_self)).symm
  | quoted body closed =>
    have hc : '"' = c := by
      cases closed <;> exact (List.cons_prefix_cons.1 h).1
    subst hc
    exact Opening.ofChar_quote.symm
  | mark m =>
    have hm : ∃ d t, m.text.toList = d :: t ∧ Opening.ofChar d = .sign := by
      cases m <;> exact ⟨_, _, rfl, by decide⟩
    obtain ⟨d, t, ht, hd⟩ := hm
    rw [text, ht] at h
    obtain ⟨rfl, -⟩ := List.cons_prefix_cons.1 h
    exact hd.symm
  | unknown d => exact absurd hk id

end Lexeme

/-! ### Longest prefixes of a class -/

section Prefixes

variable {p : Char → Bool} {t cs : List Char}

theorem ne_of_mem_takeWhile {c stop : Char} (h : c ∈ cs.takeWhile (· != stop)) : c ≠ stop := by
  simpa using List.mem_takeWhile_imp h

/-- A prefix of such characters is no longer than the longest. -/
theorem length_le_takeWhile (hp : ∀ c ∈ t, p c) (h : t <+: cs) :
    t.length ≤ (cs.takeWhile p).length := by
  obtain ⟨rest, rfl⟩ := h
  rw [List.takeWhile_append_of_pos hp, List.length_append]
  exact Nat.le_add_right _ _

/-- Where such characters are followed by another, they are the longest prefix of them. -/
theorem takeWhile_eq_of_isPrefix {c : Char} {u : List Char} (hp : ∀ d ∈ t, p d) (hc : ¬ p c)
    (h : t ++ c :: u <+: cs) :
    cs.takeWhile p = t ∧ ∃ rest, cs.dropWhile p = c :: (u ++ rest) := by
  obtain ⟨rest, rfl⟩ := h
  rw [List.append_assoc, List.cons_append, List.takeWhile_append_of_pos hp,
    List.takeWhile_cons_of_neg hc, List.append_nil, List.dropWhile_append_of_pos hp,
    List.dropWhile_cons_of_neg hc]
  exact ⟨rfl, rest, rfl⟩

end Prefixes

namespace Lexeme

variable {c : Char} {rest : List Char} {k : Lexeme}

theorem mark_length_le (m : Mark) : (mark m).text.length ≤ 2 := by cases m <;> decide

/-- The lexemes that a sign opens: a comment, a mark of one character, or `==`. -/
theorem formed_sign (hk : k.Formed) (hs : k.opening = .sign) :
    (∃ body, k = comment body) ∨ k = mark .equal ∨
      ∃ m d, k = mark m ∧ m.text.toList = [d] ∧ Mark.ofChar? d = some m := by
  cases k with
  | comment body => exact .inl ⟨body, rfl⟩
  | mark m =>
    cases m
    case equal => exact .inr (.inl rfl)
    all_goals exact .inr (.inr ⟨_, _, rfl, rfl, rfl⟩)
  | unknown d => exact absurd hk id
  | _ => cases hs

theorem length_le_quoted (hk : k.Formed) (hq : k.opening = .quote) (h : k.text <+: c :: rest) :
    k.text.length ≤ (rest.takeWhile (· != '"')).length + 2 ∧
      (rest.dropWhile (· != '"') = [] →
        k.text.length ≤ (rest.takeWhile (· != '"')).length + 1) := by
  cases k with
  | quoted body closed =>
    have hbody : ∀ d ∈ body, (d != '"') = true := fun d hd => bne_iff_ne.2 (hk d hd)
    cases closed with
    | false =>
      have hle := length_le_takeWhile hbody (List.cons_prefix_cons.1 h).2
      simp only [text, List.length_cons]
      omega
    | true =>
      have hbegins : body ++ ['"'] <+: rest := (List.cons_prefix_cons.1 h).2
      obtain ⟨heq, after, hafter⟩ := takeWhile_eq_of_isPrefix hbody (by decide) hbegins
      refine ⟨?_, fun hnil => ?_⟩
      · simp [text, heq]
      · rw [hafter] at hnil
        cases hnil
  | _ => cases hq

theorem length_le_word (hk : k.Formed) (hl : k.opening = .letter) (h : k.text <+: c :: rest) :
    k.text.length ≤ (rest.takeWhile continuesName).length + 1 := by
  cases k with
  | word t =>
    obtain ⟨d, t, rfl, -, ht⟩ := hk
    exact Nat.succ_le_succ (length_le_takeWhile ht (List.cons_prefix_cons.1 h).2)
  | _ => cases hl

/-- A number is as long as its digits, unless a point and a digit follow them. -/
theorem length_le_number (hk : k.Formed) (hd : k.opening = .digit) (h : k.text <+: c :: rest) :
    k.text.length ≤ (rest.takeWhile isDigit).length + 1 ∨
      ∃ d after, rest.dropWhile isDigit = '.' :: d :: after ∧ isDigit d ∧
        k.text.length ≤ (rest.takeWhile isDigit).length + 1
          + ((after.takeWhile isDigit).length + 2) := by
  cases k with
  | number whole fraction? =>
    obtain ⟨hne, hdigits, hfraction⟩ := hk
    obtain ⟨e, whole, rfl⟩ := List.exists_cons_of_ne_nil hne
    have hwhole : ∀ d ∈ whole, isDigit d := fun d hd => hdigits d (List.mem_cons_of_mem _ hd)
    cases fraction? with
    | none =>
      left
      exact Nat.succ_le_succ (length_le_takeWhile hwhole (List.cons_prefix_cons.1 h).2)
    | some fraction =>
      right
      obtain ⟨hfne, hfdigits⟩ := hfraction fraction rfl
      obtain ⟨d, fraction, rfl⟩ := List.exists_cons_of_ne_nil hfne
      have hbegins : whole ++ '.' :: d :: fraction <+: rest := (List.cons_prefix_cons.1 h).2
      obtain ⟨heq, more, hmore⟩ := takeWhile_eq_of_isPrefix hwhole (by decide) hbegins
      refine ⟨d, fraction ++ more, hmore, hfdigits d List.mem_cons_self, ?_⟩
      have hle : fraction.length ≤ ((fraction ++ more).takeWhile isDigit).length :=
        length_le_takeWhile (fun x hx => hfdigits x (List.mem_cons_of_mem _ hx))
          (List.prefix_append _ _)
      simp only [text, heq, List.length_cons, List.length_append]
      omega
  | _ => cases hd

end Lexeme

/-! ### The first lexeme -/

section First

variable {c : Char} {rest : List Char}

theorem leads_of_length {l : Lexeme} (hl : l.Formed) (hbegins : l.text <+: c :: rest)
    (h : ∀ k : Lexeme, k.Formed → k.opening = Opening.ofChar c → k.text <+: c :: rest →
      k.text.length ≤ l.text.length) : l.Leads (c :: rest) := by
  refine ⟨hbegins, ?_⟩
  cases l with
  | unknown d => exact absurd hl id
  | _ => exact ⟨hl, fun k hk hkp => h k hk (Lexeme.opening_eq hk hkp) hkp⟩

theorem leads_blank (hc : isBlank c) : (Lexeme.blank c).Leads (c :: rest) := by
  refine leads_of_length hc ⟨rest, rfl⟩ fun k hk ho _ => ?_
  rw [Opening.ofChar_blank hc] at ho
  cases k with
  | blank d => exact Nat.le_refl 1
  | _ => cases ho

theorem leads_word (hc : startsName c) :
    (Lexeme.word (c :: rest.takeWhile continuesName)).Leads (c :: rest) := by
  have hformed : ∀ d ∈ rest.takeWhile continuesName, continuesName d := fun d hd =>
    List.mem_takeWhile_imp hd
  refine leads_of_length ⟨c, _, rfl, hc, hformed⟩ ?_ fun k hk ho hkp => ?_
  · exact List.cons_prefix_cons.2 ⟨rfl, List.takeWhile_prefix _⟩
  · rw [Opening.ofChar_letter hc] at ho
    exact Lexeme.length_le_word hk ho hkp

theorem leads_unclosed (h : rest.dropWhile (· != '"') = []) :
    (Lexeme.quoted (rest.takeWhile (· != '"')) false).Leads ('"' :: rest) := by
  refine leads_of_length (fun d hd => ne_of_mem_takeWhile hd) ?_ fun k hk ho hkp => ?_
  · exact List.cons_prefix_cons.2 ⟨rfl, List.takeWhile_prefix _⟩
  · exact (Lexeme.length_le_quoted hk ho hkp).2 h

theorem leads_closed
    (hbegins : (Lexeme.quoted (rest.takeWhile (· != '"')) true).text <+: '"' :: rest) :
    (Lexeme.quoted (rest.takeWhile (· != '"')) true).Leads ('"' :: rest) := by
  refine leads_of_length (fun d hd => ne_of_mem_takeWhile hd) hbegins fun k hk ho hkp => ?_
  · have hlength : (Lexeme.quoted (rest.takeWhile (· != '"')) true).text.length =
        (rest.takeWhile (· != '"')).length + 2 := by simp [Lexeme.text]
    rw [hlength]
    exact (Lexeme.length_le_quoted hk ho hkp).1

theorem leads_number (hc : isDigit c)
    (h : ∀ d after, rest.dropWhile isDigit = '.' :: d :: after → ¬ isDigit d) :
    (Lexeme.number (c :: rest.takeWhile isDigit) none).Leads (c :: rest) := by
  have hdigits : ∀ d ∈ c :: rest.takeWhile isDigit, isDigit d := by
    rintro d (_ | ⟨_, hd⟩)
    · exact hc
    · exact List.mem_takeWhile_imp hd
  refine leads_of_length ⟨List.cons_ne_nil _ _, hdigits, nofun⟩ ?_ fun k hk ho hkp => ?_
  · exact List.cons_prefix_cons.2 ⟨rfl, List.takeWhile_prefix _⟩
  · rw [Opening.ofChar_digit hc] at ho
    rcases Lexeme.length_le_number hk ho hkp with hle | ⟨d, after, hdrop, hd, -⟩
    · exact hle
    · exact absurd hd (h d after hdrop)

theorem leads_fraction {d : Char} {after : List Char} (hc : isDigit c) (hd : isDigit d)
    (h : rest.dropWhile isDigit = '.' :: d :: after)
    (hbegins : (Lexeme.number (c :: rest.takeWhile isDigit)
      (some (d :: after.takeWhile isDigit))).text <+: c :: rest) :
    (Lexeme.number (c :: rest.takeWhile isDigit) (some (d :: after.takeWhile isDigit))).Leads
      (c :: rest) := by
  have hdigits : ∀ {e : Char} {t : List Char}, isDigit e → ∀ x ∈ e :: t.takeWhile isDigit,
      isDigit x := by
    rintro e t he x (_ | ⟨_, hx⟩)
    · exact he
    · exact List.mem_takeWhile_imp hx
  refine leads_of_length ⟨List.cons_ne_nil _ _, hdigits hc, ?_⟩ hbegins fun k hk ho hkp => ?_
  · rintro f ⟨⟩
    exact ⟨List.cons_ne_nil _ _, hdigits hd⟩
  · rw [Opening.ofChar_digit hc] at ho
    have hlength : (Lexeme.number (c :: rest.takeWhile isDigit)
        (some (d :: after.takeWhile isDigit))).text.length =
        (rest.takeWhile isDigit).length + 1 + ((after.takeWhile isDigit).length + 2) := by
      simp only [Lexeme.text, List.length_append, List.length_cons]
    rw [hlength]
    rcases Lexeme.length_le_number hk ho hkp with hle | ⟨e, tail, hdrop, -, hle⟩
    · omega
    · rw [h] at hdrop
      cases hdrop
      exact hle

theorem leads_comment :
    (Lexeme.comment (rest.takeWhile (· != '\n'))).Leads ('/' :: '/' :: rest) := by
  refine leads_of_length (fun d hd => ne_of_mem_takeWhile hd) ?_ fun k hk ho hkp => ?_
  · exact List.cons_prefix_cons.2 ⟨rfl, List.cons_prefix_cons.2 ⟨rfl, List.takeWhile_prefix _⟩⟩
  · have htwo : 2 ≤ (Lexeme.comment (rest.takeWhile (· != '\n'))).text.length := by
      simp [Lexeme.text]
    cases k with
    | comment body =>
      have hbody : ∀ d ∈ body, (d != '\n') = true := fun d hd => bne_iff_ne.2 (hk d hd)
      have hbegins := (List.cons_prefix_cons.1 (List.cons_prefix_cons.1 hkp).2).2
      exact Nat.add_le_add_right (length_le_takeWhile hbody hbegins) 2
    | mark m => exact Nat.le_trans (Lexeme.mark_length_le m) htwo
    | unknown d => exact absurd hk id
    | _ => cases ho

theorem leads_equal : (Lexeme.mark .equal).Leads ('=' :: '=' :: rest) := by
  refine leads_of_length trivial ⟨rest, rfl⟩ fun k hk ho hkp => ?_
  cases k with
  | comment body => exact absurd (List.cons_prefix_cons.1 hkp).1 (by decide)
  | mark m => exact Lexeme.mark_length_le m
  | unknown d => exact absurd hk id
  | _ => cases ho

/-- Neither a comment nor `==` starts here. -/
def Lone (c : Char) (rest : List Char) : Prop :=
  (c = '/' → rest.head? ≠ some '/') ∧ (c = '=' → rest.head? ≠ some '=')

theorem Lone.of_ne (hslash : c ≠ '/') (hequal : c ≠ '=') : Lone c rest :=
  ⟨fun h => absurd h hslash, fun h => absurd h hequal⟩

/-- What starts with a lone sign is a mark of one character. -/
theorem Lone.of_isPrefix (h : Lone c rest) (hs : Opening.ofChar c = .sign) {k : Lexeme}
    (hk : k.Formed) (hkp : k.text <+: c :: rest) :
    ∃ m, k = .mark m ∧ m.text.toList = [c] ∧ Mark.ofChar? c = some m := by
  have ho : k.opening = .sign := (Lexeme.opening_eq hk hkp).trans hs
  rcases Lexeme.formed_sign hk ho with ⟨body, rfl⟩ | rfl | ⟨m, d, rfl, hm, hd⟩
  · obtain ⟨rfl, hrest⟩ := List.cons_prefix_cons.1 hkp
    obtain ⟨t, rfl⟩ := hrest
    exact absurd rfl (h.1 rfl)
  · obtain ⟨rfl, hrest⟩ := List.cons_prefix_cons.1 hkp
    obtain ⟨t, rfl⟩ := hrest
    exact absurd rfl (h.2 rfl)
  · rw [Lexeme.text, hm] at hkp
    obtain ⟨rfl, -⟩ := List.cons_prefix_cons.1 hkp
    exact ⟨m, rfl, hm, hd⟩

theorem leads_mark (h : Lone c rest) (hs : Opening.ofChar c = .sign) {m : Mark}
    (hm : Mark.ofChar? c = some m) : (Lexeme.mark m).Leads (c :: rest) := by
  have htext : (Lexeme.mark m).text = [c] := Mark.text_of_ofChar? hm
  refine leads_of_length trivial ⟨rest, by rw [htext]; rfl⟩ fun k hk _ hkp => ?_
  obtain ⟨n, rfl, hn, -⟩ := h.of_isPrefix hs hk hkp
  rw [htext, Lexeme.text, hn]

theorem leads_unknown (h : Lone c rest) (hs : Opening.ofChar c = .sign)
    (hm : Mark.ofChar? c = none) : (Lexeme.unknown c).Leads (c :: rest) := by
  refine ⟨⟨rest, rfl⟩, fun k hk hkp => ?_⟩
  obtain ⟨m, -, -, hsome⟩ := h.of_isPrefix hs hk hkp
  rw [hm] at hsome
  cases hsome

end First

/-- The first lexeme of a text is the longest there is. -/
theorem nextLexeme_leads (c : Char) (rest : List Char) :
    (nextLexeme c rest).1.Leads (c :: rest) := by
  have hbegins : (nextLexeme c rest).1.text <+: c :: rest := ⟨_, nextLexeme_text c rest⟩
  revert hbegins
  unfold nextLexeme
  split
  · rename_i hb
    exact fun _ => leads_blank hb
  rename_i hb
  split
  · rename_i hq
    subst hq
    dsimp only
    split <;> rename_i h <;> intro hbegins
    · exact leads_unclosed h
    · exact leads_closed hbegins
  rename_i hq
  split
  · rename_i hd
    dsimp only
    split
    · rename_i d after h
      split <;> rename_i hdigit <;> intro hbegins
      · exact leads_fraction hd hdigit h hbegins
      · refine leads_number hd fun e tail he => ?_
        rw [h] at he
        cases he
        exact hdigit
    · rename_i h
      exact fun _ => leads_number hd fun e tail he => absurd he (h e tail)
  rename_i hd
  split
  · rename_i hn
    exact fun _ => leads_word hn
  rename_i hn
  have hs : Opening.ofChar c = .sign := by
    rw [Opening.ofChar, if_neg hb, if_neg hq, if_neg hd, if_neg hn]
  split
  · exact fun _ => leads_comment
  · exact fun _ => leads_equal
  · rename_i hcomment hequal
    have hlone : Lone c rest := by
      refine ⟨?_, ?_⟩ <;> rintro rfl hhead
      · obtain ⟨after, rfl⟩ := List.head?_eq_some_iff.1 hhead
        exact hcomment after rfl rfl
      · obtain ⟨after, rfl⟩ := List.head?_eq_some_iff.1 hhead
        exact hequal after rfl rfl
    split <;> rename_i hm <;> intro _
    · exact leads_mark hlone hs hm
    · exact leads_unknown hlone hs hm

/-! ### The cuts of a text -/

theorem cuts_lexemes (cs : List Char) : Cuts cs (lexemes cs) := by
  fun_induction lexemes cs with
  | case1 => exact .nil
  | case2 c rest ih =>
    have htext := nextLexeme_text c rest
    have hleads := nextLexeme_leads c rest
    rw [← htext] at hleads ⊢
    exact .cons hleads ih

theorem Mark.text_injective {m n : Mark} (h : m.text.toList = n.text.toList) : m = n := by
  revert h
  cases m <;> cases n <;> decide

namespace Lexeme

/-- A number without a point is not one with a point. -/
theorem number_text_ne {whole digits fraction : List Char} (h : ∀ d ∈ whole, isDigit d) :
    whole ≠ digits ++ '.' :: fraction := by
  rintro rfl
  exact absurd (h '.' (List.mem_append_right _ List.mem_cons_self)) (by decide)

theorem quoted_text_ne {body other : List Char} (h : ∀ c ∈ other, c ≠ '"') :
    body ++ ['"'] ≠ other := by
  rintro rfl
  exact h '"' (List.mem_append_right _ List.mem_cons_self) rfl

/-- A lexeme of a class is known by its characters. -/
theorem ext_of_text {k l : Lexeme} (hk : k.Formed) (hl : l.Formed) {c : Char} {rest : List Char}
    (hkt : k.text = c :: rest) (hlt : l.text = c :: rest) : k = l := by
  have ho : k.opening = l.opening := by
    rw [opening_eq hk ⟨[], by rw [hkt, List.append_nil]⟩,
      opening_eq hl ⟨[], by rw [hlt, List.append_nil]⟩]
  have htext : k.text = l.text := hkt.trans hlt.symm
  cases k <;> cases l <;> first | exact absurd hk id | exact absurd hl id | cases ho
  case blank.blank c d => exact congrArg blank (List.cons.inj htext).1
  case comment.comment body other =>
    exact congrArg comment (List.cons.inj (List.cons.inj htext).2).2
  case comment.mark body m => cases m <;> cases htext
  case mark.comment m body => cases m <;> cases htext
  case mark.mark m n => exact congrArg mark (Mark.text_injective htext)
  case word.word t u => exact congrArg word htext
  case number.number whole fraction? digits other? =>
    cases fraction? with
    | none =>
      cases other? with
      | none => exact congrArg (number · none) htext
      | some other => exact absurd htext (number_text_ne hk.2.1)
    | some fraction =>
      cases other? with
      | none => exact absurd htext.symm (number_text_ne hl.2.1)
      | some other =>
        have hpoint : ¬ isDigit '.' := by decide
        have hbegins : whole ++ '.' :: fraction <+: digits ++ '.' :: other :=
          ⟨[], by rw [List.append_nil]; exact htext⟩
        have hwhole := (takeWhile_eq_of_isPrefix hk.2.1 hpoint hbegins).1
        have hdigits := (takeWhile_eq_of_isPrefix hl.2.1 hpoint
          (List.prefix_refl (digits ++ '.' :: other))).1
        have heq : whole = digits := hwhole.symm.trans hdigits
        subst heq
        rw [(List.cons.inj (List.append_cancel_left htext)).2]
  case quoted.quoted body closed other closed' =>
    cases closed <;> cases closed' <;> have htail := (List.cons.inj htext).2
    · exact congrArg (quoted · false) htail
    · exact absurd htail.symm (quoted_text_ne hk)
    · exact absurd htail (quoted_text_ne hl)
    · exact congrArg (quoted · true) (List.append_cancel_right htail)

theorem text_ne_nil {l : Lexeme} (hl : l.Formed) : l.text ≠ [] := by
  cases l with
  | word t =>
    obtain ⟨c, rest, rfl, -⟩ := hl
    exact List.cons_ne_nil _ _
  | number whole fraction? =>
    obtain ⟨c, whole, rfl⟩ := List.exists_cons_of_ne_nil hl.1
    cases fraction? <;> exact List.cons_ne_nil _ _
  | quoted body closed => cases closed <;> exact List.cons_ne_nil _ _
  | mark m => cases m <;> exact List.cons_ne_nil _ _
  | _ => exact List.cons_ne_nil _ _

/-- A lexeme that leads is of a class, or stands for the first character. -/
theorem Leads.formed_or {l : Lexeme} {cs : List Char} (h : l.Leads cs) :
    (l.Formed ∧ ∀ k : Lexeme, k.Formed → k.text <+: cs → k.text.length ≤ l.text.length) ∨
      ∃ c rest, l = unknown c ∧ cs = c :: rest ∧ ∀ k : Lexeme, k.Formed → ¬ k.text <+: cs := by
  cases l with
  | unknown c =>
    obtain ⟨⟨rest, rfl⟩, hnone⟩ := h
    exact .inr ⟨c, rest, rfl, rfl, hnone⟩
  | _ => exact .inl h.2

theorem Leads.text_ne_nil {l : Lexeme} {cs : List Char} (h : l.Leads cs) : l.text ≠ [] := by
  rcases h.formed_or with ⟨hl, -⟩ | ⟨c, rest, rfl, -, -⟩
  · exact Lexeme.text_ne_nil hl
  · exact List.cons_ne_nil _ _

/-- A text starts with one longest lexeme. -/
theorem Leads.unique {k l : Lexeme} {cs : List Char} (hk : k.Leads cs) (hl : l.Leads cs) :
    k = l := by
  rcases hk.formed_or with ⟨hkf, hkmax⟩ | ⟨c, rest, rfl, rfl, hknone⟩ <;>
    rcases hl.formed_or with ⟨hlf, hlmax⟩ | ⟨d, tail, rfl, heq, hlnone⟩
  · have hlength : k.text.length = l.text.length :=
      Nat.le_antisymm (hlmax k hkf hk.1) (hkmax l hlf hl.1)
    have htext : k.text = l.text :=
      (List.prefix_of_prefix_length_le hk.1 hl.1 hlength.le).eq_of_length hlength
    obtain ⟨c, rest, hc⟩ := List.exists_cons_of_ne_nil (Lexeme.text_ne_nil hkf)
    exact ext_of_text hkf hlf hc (htext ▸ hc)
  · exact absurd hk.1 (hlnone k hkf)
  · exact absurd hl.1 (hknone l hlf)
  · cases heq
    rfl

end Lexeme

/-- A text is cut into longest lexemes in one way. -/
theorem lexemes_eq_iff {cs : List Char} {ls : List Lexeme} : lexemes cs = ls ↔ Cuts cs ls := by
  refine ⟨fun h => h ▸ cuts_lexemes cs, fun h => ?_⟩
  induction h with
  | nil => exact lexemes.eq_1
  | @cons l rest ls hl _ ih =>
    obtain ⟨c, t, ht⟩ := List.exists_cons_of_ne_nil hl.text_ne_nil
    rw [ht, List.cons_append] at hl ⊢
    have hfirst : (nextLexeme c (t ++ rest)).1 = l := (nextLexeme_leads c (t ++ rest)).unique hl
    have hrest : (nextLexeme c (t ++ rest)).2 = rest := by
      have htext := nextLexeme_text c (t ++ rest)
      rw [hfirst, ht] at htext
      exact List.append_cancel_left (List.cons.inj htext).2
    rw [lexemes, hfirst, hrest, ih]

end Playscript

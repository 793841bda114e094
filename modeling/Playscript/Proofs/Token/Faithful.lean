/-
# Nothing of a text is lost on the way to tokens

The lexemes of a source in a row are its text. Between the tokens' lexemes stand
blanks, comments and unknown characters only, and every unknown character is one
error. The lexemes are what a scan of the text's bytes finds, and each goes on
as far as it can (`Lexeme.Stops`). What is written says which kind of token a lexeme
is (`Lexeme.Means`), and the tokens are of these kinds (`Lexeme.kind?_eq_some`).

Key definitions: `Lexeme.Stops`, `Lexeme.Means`, `Lexeme.Tokenizes`, `Source.Faithful`.
Key theorems: `Lexeme.Leads.stops`, `Lexeme.kind?_eq_some`, `Source.lex_faithful`.
-/
import Playscript.Proofs.Number.Reading
import Playscript.Proofs.Token.Bytes
import Playscript.Token.Lexer

namespace Playscript

/-! ### Where a lexeme stops -/

namespace Lexeme

/-- What stands behind a lexeme, as far as it has to do with the lexeme. -/
def Stops : Lexeme → List Char → Prop
  | comment _, rest => ∀ c ∈ rest.head?, c = '\n'
  | word _, rest => ∀ c ∈ rest.head?, ¬ continuesName c
  | number _ none, rest =>
    (∀ c ∈ rest.head?, ¬ isDigit c) ∧ ∀ d after, rest = '.' :: d :: after → ¬ isDigit d
  | number _ (some _), rest => ∀ c ∈ rest.head?, ¬ isDigit c
  | quoted _ false, rest => rest = []
  | mark .assign, rest => ∀ c ∈ rest.head?, c ≠ '='
  | mark .slash, rest => ∀ c ∈ rest.head?, c ≠ '/'
  | blank _, _ | quoted _ true, _ | mark _, _ | unknown _, _ => True

variable {l : Lexeme} {rest : List Char}

/-- No lexeme of a class goes on where the longest stops. -/
theorem Leads.not_longer (h : l.Leads (l.text ++ rest)) {k : Lexeme} (hk : k.Formed)
    {c : Char} {more after : List Char} (hkt : k.text = l.text ++ c :: more)
    (hrest : rest = c :: more ++ after) : False := by
  have hbegins : k.text <+: l.text ++ rest := ⟨after, by rw [hkt, hrest, List.append_assoc]⟩
  rcases h.formed_or with ⟨-, hmax⟩ | ⟨d, tail, -, -, hnone⟩
  · have hle := hmax k hk hbegins
    rw [hkt, List.length_append, List.length_cons] at hle
    omega
  · exact hnone k hk hbegins

theorem Leads.stops (h : l.Leads (l.text ++ rest)) : l.Stops rest := by
  have hhead : ∀ {c : Char}, c ∈ rest.head? → ∃ after, rest = [c] ++ after := fun hc =>
    List.head?_eq_some_iff.1 hc
  cases l with
  | comment body =>
    intro c hc
    obtain ⟨after, hrest⟩ := hhead hc
    by_contra hn
    refine h.not_longer (k := comment (body ++ [c])) ?_ rfl hrest
    simpa [Formed, or_imp, forall_and, hn] using h.2.1
  | word t =>
    intro c hc hn
    obtain ⟨after, hrest⟩ := hhead hc
    obtain ⟨d, t, rfl, hd, ht⟩ := h.2.1
    refine h.not_longer (k := word (d :: t ++ [c])) ⟨d, t ++ [c], rfl, hd, ?_⟩ rfl hrest
    simpa [or_imp, forall_and, hn] using ht
  | number whole fraction? =>
    obtain ⟨hne, hdigits, hfraction⟩ := h.2.1
    cases fraction? with
    | none =>
      refine ⟨fun c hc hd => ?_, ?_⟩
      · obtain ⟨after, hrest⟩ := hhead hc
        refine h.not_longer (k := number (whole ++ [c]) none) ⟨by simp, ?_, by rintro _ ⟨⟩⟩ rfl
          hrest
        simpa [or_imp, forall_and, hd] using hdigits
      · rintro d after hrest hd
        refine h.not_longer (k := number whole (some [d])) ⟨hne, hdigits, ?_⟩ rfl hrest
        simpa using hd
    | some fraction =>
      intro c hc hd
      obtain ⟨after, hrest⟩ := hhead hc
      refine h.not_longer (k := number whole (some (fraction ++ [c]))) ⟨hne, hdigits, ?_⟩
        (by simp [text]) hrest
      have hf := (hfraction fraction rfl).2
      simpa [or_imp, forall_and, hd] using hf
  | quoted body closed =>
    cases closed with
    | true => trivial
    | false =>
      have hbody : ∀ d ∈ body, d ≠ '"' := h.2.1
      change rest = []
      by_contra hne
      obtain ⟨c, after, rfl⟩ := List.exists_cons_of_ne_nil hne
      by_cases hc : c = '"'
      · subst hc
        exact h.not_longer (k := quoted body true) hbody rfl rfl
      · refine h.not_longer (k := quoted (body ++ [c]) false) ?_ rfl rfl
        simpa [Formed, or_imp, forall_and, hc] using hbody
  | mark m =>
    cases m
    case assign =>
      rintro c hc rfl
      obtain ⟨after, hrest⟩ := hhead hc
      exact h.not_longer (k := mark .equal) trivial rfl hrest
    case slash =>
      rintro c hc rfl
      obtain ⟨after, hrest⟩ := hhead hc
      exact h.not_longer (k := comment []) (List.forall_mem_nil _) rfl hrest
    all_goals trivial
  | _ => trivial

theorem takeWhile_append_of_head {p : Char → Bool} {t : List Char} (ht : ∀ c ∈ t, p c)
    (hrest : ∀ c ∈ rest.head?, ¬ p c) :
    (t ++ rest).takeWhile p = t ∧ (t ++ rest).dropWhile p = rest := by
  rw [List.takeWhile_append_of_pos ht, List.dropWhile_append_of_pos ht]
  cases rest with
  | nil => exact ⟨List.append_nil t, rfl⟩
  | cons c rest =>
    have hc : ¬ p c := hrest c rfl
    rw [List.takeWhile_cons_of_neg hc, List.dropWhile_cons_of_neg hc, List.append_nil]
    exact ⟨rfl, rfl⟩

/-- A lexeme of a class that stops is the longest. -/
theorem Formed.leads (hl : l.Formed) (hs : l.Stops rest) : l.Leads (l.text ++ rest) := by
  cases l with
  | blank c => exact leads_blank hl
  | comment body =>
    have hbody : ∀ c ∈ body, (c != '\n') = true := fun c hc => bne_iff_ne.2 (hl c hc)
    have htake : (body ++ rest).takeWhile (· != '\n') = body :=
      (takeWhile_append_of_head hbody fun c hc => by simp [hs c hc]).1
    have hleads : (comment ((body ++ rest).takeWhile (· != '\n'))).Leads
        ('/' :: '/' :: (body ++ rest)) := leads_comment
    rwa [htake] at hleads
  | word t =>
    obtain ⟨c, t, rfl, hc, ht⟩ := hl
    have hleads : (word (c :: (t ++ rest).takeWhile continuesName)).Leads (c :: (t ++ rest)) :=
      leads_word hc
    rwa [(takeWhile_append_of_head ht hs).1] at hleads
  | number whole fraction? =>
    obtain ⟨hne, hdigits, hfraction⟩ := hl
    obtain ⟨c, whole, rfl⟩ := List.exists_cons_of_ne_nil hne
    have hc : isDigit c := hdigits c List.mem_cons_self
    have hwhole : ∀ d ∈ whole, isDigit d := fun d hd => hdigits d (List.mem_cons_of_mem c hd)
    cases fraction? with
    | none =>
      obtain ⟨htake, hdrop⟩ := takeWhile_append_of_head hwhole hs.1
      have hleads : (number (c :: (whole ++ rest).takeWhile isDigit) none).Leads
          (c :: (whole ++ rest)) := leads_number hc fun d after h => hs.2 d after (hdrop ▸ h)
      rwa [htake] at hleads
    | some fraction =>
      obtain ⟨hne, hdigits⟩ := hfraction fraction rfl
      obtain ⟨d, fraction, rfl⟩ := List.exists_cons_of_ne_nil hne
      have hpoint : ∀ e ∈ ('.' :: d :: (fraction ++ rest)).head?, ¬ isDigit e := by
        rintro _ ⟨⟩
        decide
      obtain ⟨htake, hdrop⟩ := takeWhile_append_of_head hwhole hpoint
      obtain ⟨hmore, -⟩ := takeWhile_append_of_head
        (fun e he => hdigits e (List.mem_cons_of_mem d he)) hs
      have hleads := leads_fraction hc (hdigits d List.mem_cons_self) hdrop
      rw [htake, hmore] at hleads
      have htext : (number (c :: whole) (some (d :: fraction))).text ++ rest =
          c :: (whole ++ '.' :: d :: (fraction ++ rest)) := by simp [text]
      rw [htext]
      exact hleads ⟨rest, htext⟩
  | quoted body closed =>
    have hbody : ∀ c ∈ body, (c != '"') = true := fun c hc => bne_iff_ne.2 (hl c hc)
    cases closed with
    | true =>
      have htake : (body ++ '"' :: rest).takeWhile (· != '"') = body :=
        (takeWhile_append_of_head hbody (by rintro _ ⟨⟩; decide)).1
      have htext : (quoted body true).text ++ rest = '"' :: (body ++ '"' :: rest) := by simp [text]
      have hleads : (quoted ((body ++ '"' :: rest).takeWhile (· != '"')) true).Leads
          ('"' :: (body ++ '"' :: rest)) := leads_closed (by rw [htake]; exact ⟨rest, htext⟩)
      rw [htake] at hleads
      rwa [htext]
    | false =>
      obtain rfl : rest = [] := hs
      obtain ⟨htake, hdrop⟩ : (body ++ []).takeWhile (· != '"') = body ∧
          (body ++ []).dropWhile (· != '"') = [] := takeWhile_append_of_head hbody (by rintro _ ⟨⟩)
      have hleads := leads_unclosed hdrop
      rwa [htake] at hleads
  | mark m =>
    have hlone {c : Char} (h : m.text.toList = [c]) (hs : Opening.ofChar c = .sign)
        (hc : Mark.ofChar? c = some m) (hrest : Lone c rest) :
        (mark m).Leads (m.text.toList ++ rest) := by
      rw [h]
      exact leads_mark hrest hs hc
    cases m
    case equal => exact leads_equal
    case assign => exact hlone rfl (by decide) rfl ⟨(absurd · (by decide)), fun _ h => hs '=' h rfl⟩
    case slash => exact hlone rfl (by decide) rfl ⟨fun _ h => hs '/' h rfl, (absurd · (by decide))⟩
    all_goals exact hlone rfl (by decide) rfl (.of_ne (by decide) (by decide))
  | unknown c => exact absurd hl id

end Lexeme

theorem Cuts.text_eq {cs : List Char} {ls : List Lexeme} (h : Cuts cs ls) :
    ls.flatMap Lexeme.text = cs := by
  induction h with
  | nil => rfl
  | cons _ _ ih => rw [List.flatMap_cons, ih]

theorem Cuts.leads {cs : List Char} {front back : List Lexeme} {l : Lexeme}
    (h : Cuts cs (front ++ l :: back)) : l.Leads (l.text ++ back.flatMap Lexeme.text) := by
  induction front generalizing cs with
  | nil =>
    cases h with
    | cons hl hrest => rwa [hrest.text_eq]
  | cons k front ih =>
    cases h with
    | cons _ hrest => exact ih hrest

/-! ### Tokens and errors of placed lexemes -/

namespace Lexeme

/-- Whether a lexeme is a character of no class. -/
def isUnknown : Lexeme → Bool
  | unknown _ => true
  | _ => false

/-- What may stand between two tokens: a blank, a comment or an unknown character. -/
inductive Gap : Lexeme → Prop where
  | blank {c : Char} : isBlank c → Gap (blank c)
  | comment {body : List Char} : (∀ c ∈ body, c ≠ '\n') → Gap (comment body)
  | unknown (c : Char) : Gap (unknown c)

theorem Leads.gap {l : Lexeme} {cs : List Char} (h : l.Leads cs) (hl : l.kind? = none) :
    l.Gap := by
  cases l with
  | blank c => exact .blank h.2.1
  | comment body => exact .comment h.2.1
  | unknown c => exact .unknown c
  | _ => cases hl

/-- The kind of token that a lexeme is by what is written. A word is the reserved word that is
spelled so, and a name where there is none. Digits are the float nearest to the number that they
stand for. A string is what stands between the quotes, whether the second is there or not. -/
inductive Means : Lexeme → Token.Kind → Prop where
  | reserved {t : List Char} {w : Word} : w.text.toList = t → Means (word t) (.word w)
  | name {t : List Char} : (∀ w : Word, w.text.toList ≠ t) →
    Means (word t) (.name (String.ofList t))
  | number {whole : List Char} {fraction? : Option (List Char)} {x : Float} :
    Number.Nearest (Number.decimal whole (fraction?.getD [])) x →
    Means (number whole fraction?) (.number x)
  | quoted (body : List Char) (closed : Bool) :
    Means (quoted body closed) (.string (String.ofList body))
  | mark (m : Mark) : Means (mark m) (.mark m)

theorem ofText?_eq_some {t : List Char} {w : Word} :
    Word.ofText? (String.ofList t) = some w ↔ w.text.toList = t := by
  rw [Word.ofText?_eq_some, ← String.toList_inj, String.toList_ofList]

theorem means_word {t : List Char} : (word t).Means (Token.Kind.ofWord (String.ofList t)) := by
  rw [Token.Kind.ofWord]
  split
  · rename_i w hw
    exact .reserved (ofText?_eq_some.1 hw)
  · rename_i hnone
    refine .name fun w hw => ?_
    rw [ofText?_eq_some.2 hw] at hnone
    cases hnone

/-- A lexeme stands for a token of the kind that it is, and of no other. -/
theorem kind?_eq_some {l : Lexeme} {k : Token.Kind} : l.kind? = some k ↔ l.Means k := by
  constructor
  · intro h
    cases l with
    | word t =>
      cases h
      exact means_word
    | number whole fraction? =>
      cases h
      exact .number (Number.ofDigits_eq_iff.1 rfl)
    | quoted body closed =>
      cases h
      exact .quoted body closed
    | mark m =>
      cases h
      exact .mark m
    | _ => cases h
  · intro h
    cases h with
    | @reserved t w hw =>
      rw [kind?, Token.Kind.ofWord, ofText?_eq_some.2 hw]
    | @name t hnone =>
      have htext : Word.ofText? (String.ofList t) = none :=
        Option.eq_none_iff_forall_ne_some.2 fun w hw => hnone w (ofText?_eq_some.1 hw)
      rw [kind?, Token.Kind.ofWord, htext]
    | number hnearest => rw [kind?, Number.ofDigits_eq_iff.2 hnearest]
    | quoted body closed => rfl
    | mark m => rfl

theorem not_means_endOfFile (l : Lexeme) : ¬ l.Means .endOfFile := nofun

/-- Lexemes in a row are the tokens of these kinds, with gaps in between. -/
inductive Tokenizes : List Lexeme → List Token.Kind → Prop where
  | nil : Tokenizes [] []
  | gap {l : Lexeme} {ls : List Lexeme} {ks : List Token.Kind} : l.Gap → Tokenizes ls ks →
    Tokenizes (l :: ls) ks
  | token {l : Lexeme} {k : Token.Kind} {ls : List Lexeme} {ks : List Token.Kind} : l.Means k →
    Tokenizes ls ks → Tokenizes (l :: ls) (k :: ks)

theorem tokenizes_kinds {ls : List Lexeme} (h : ∀ l ∈ ls, l.kind? = none → l.Gap) :
    Tokenizes ls (ls.filterMap kind?) := by
  induction ls with
  | nil => exact .nil
  | cons l ls ih =>
    obtain ⟨hl, hls⟩ := List.forall_mem_cons.1 h
    cases hkind : l.kind? with
    | none =>
      rw [List.filterMap_cons_none hkind]
      exact .gap (hl hkind) (ih hls)
    | some k =>
      rw [List.filterMap_cons_some hkind]
      exact .token (kind?_eq_some.1 hkind) (ih hls)

theorem Tokenizes.endOfFile_notMem {ls : List Lexeme} {ks : List Token.Kind}
    (h : Tokenizes ls ks) : Token.Kind.endOfFile ∉ ks := by
  induction h with
  | nil => exact List.not_mem_nil
  | gap _ _ ih => exact ih
  | token hmeans _ ih =>
    intro h
    obtain rfl | h := List.mem_cons.1 h
    · exact not_means_endOfFile _ hmeans
    · exact ih h

end Lexeme

theorem layOut_kinds (start : Place) (ls : List Lexeme) :
    ((layOut start ls).filterMap Placed.token?).map (·.kind) = ls.filterMap Lexeme.kind? := by
  induction ls generalizing start with
  | nil => rfl
  | cons l ls ih =>
    rw [layOut]
    cases hl : l.kind? with
    | none => simp [Placed.token?, hl, ih]
    | some k => simp [Placed.token?, hl, ih]

theorem layOut_unknowns (s : Source) (start : Place) (ls : List Lexeme) :
    ((layOut start ls).filterMap (Placed.diagnostic? s)).length = ls.countP Lexeme.isUnknown := by
  induction ls generalizing start with
  | nil => rfl
  | cons l ls ih =>
    rw [layOut]
    cases l with
    | unknown c => simp [Placed.diagnostic?, Lexeme.isUnknown, List.countP_cons, ih]
    | _ => simp [Placed.diagnostic?, Lexeme.isUnknown, List.filterMap_cons, ih]

/-! ### The tokens of a source -/

/-- The kinds of a source's tokens are those that its lexemes stand for, and the end of file. -/
theorem Source.lex_kinds (s : Source) : s.lex.tokens.map (·.kind) =
    (lexemes s.text.toList).filterMap Lexeme.kind? ++ [.endOfFile] := by
  rw [← layOut_kinds .first (lexemes s.text.toList)]
  exact List.map_append

theorem Source.length_unknowns (s : Source) :
    s.unknowns.length = (lexemes s.text.toList).countP Lexeme.isUnknown :=
  layOut_unknowns s .first _

/-- A source and the lexemes that its tokens and errors come from. -/
structure Source.Faithful (s : Source) (ls : List Lexeme) : Prop where
  /-- A walk over the bytes finds the lexemes, and no slice it takes cuts a character. -/
  scanned : scan? s.text = some ls
  /-- The lexemes in a row are the text. -/
  whole : ls.flatMap Lexeme.text = s.text.toList
  /-- The lexemes are the tokens, in order, with gaps in between: a blank, a comment or an unknown
  character each. What is written says which tokens they are. Behind them stands one end of
  file. -/
  kinds : ∃ ks, s.lex.tokens.map (·.kind) = ks ++ [.endOfFile] ∧
    Token.Kind.endOfFile ∉ ks ∧ Lexeme.Tokenizes ls ks
  /-- Every unknown character is one error. -/
  errors : s.lex.log.total = ls.countP Lexeme.isUnknown
  /-- Each lexeme is the longest of all that the text has at its place. -/
  longest : ∀ front l back, ls = front ++ l :: back → l.Leads (l.text ++ back.flatMap Lexeme.text)
  /-- So each goes on up to what cannot belong to it. -/
  stops : ∀ front l back, ls = front ++ l :: back → l.Stops (back.flatMap Lexeme.text)

theorem Source.lex_faithful (s : Source) : s.Faithful (lexemes s.text.toList) := by
  have hleads : ∀ front l back, lexemes s.text.toList = front ++ l :: back →
      l.Leads (l.text ++ back.flatMap Lexeme.text) := by
    intro front l back h
    have hcuts := cuts_lexemes s.text.toList
    rw [h] at hcuts
    exact hcuts.leads
  have htokenizes := Lexeme.tokenizes_kinds fun l hl hkind => by
    obtain ⟨front, back, h⟩ := List.append_of_mem hl
    exact (hleads front l back h).gap hkind
  exact {
    scanned := scan?_eq_lexemes s.text
    whole := lexemes_text s.text.toList
    kinds := ⟨_, s.lex_kinds, htokenizes.endOfFile_notMem, htokenizes⟩
    errors := (Log.ofList_total s.unknowns).trans s.length_unknowns
    longest := hleads
    stops := fun front l back h => (hleads front l back h).stops }

end Playscript

/-
# Lexing what is displayed gives the tokens back

Every kind that can be read is displayed as one lexeme of its class (`exists_displays`): a number
without a sign as digits that are read as the number, a string between its quotes, whatever else it
holds. Each of these lexemes ends at a space, so that none grows into the next one, and
with single spaces between them no two marks become one mark or a comment. So the lexemes
of the displays of kinds are theirs with blanks in between (`cuts_displays`), and the tokens are of
these kinds (`Source.lex_displaying`).

Key definitions: `Token.Kind.Legible`, `Lexeme.Displays`, `Source.displaying`.
Key theorems: `exists_displays`, `cuts_displays`, `Source.lex_displaying`.
-/
import Playscript.Proofs.Number.Printing
import Playscript.Proofs.Token.Faithful

namespace Playscript

/-- A kind whose display can be read as a token of the kind. -/
def Token.Kind.Legible : Token.Kind → Prop
  | number x => x.isFinite = true ∧ Number.isNegative x = false
  | string s => '"' ∉ s.toList
  | name s => (Lexeme.word s.toList).Formed ∧ Word.ofText? s = none
  | word _ | mark _ => True
  | endOfFile => False

/-- The source of the displays of kinds, with single spaces in between. -/
def Source.displaying (name : String) (kinds : List Token.Kind) : Source :=
  ⟨name, " ".intercalate (kinds.map Token.Kind.text)⟩

/-- A kind is displayed as a lexeme that stands for the kind, and the lexeme ends at a space. -/
structure Lexeme.Displays (l : Lexeme) (k : Token.Kind) : Prop where
  formed : l.Formed
  text : l.text = k.text.toList
  kind : l.kind? = some k
  stops : ∀ rest, l.Stops (' ' :: rest)

variable {kinds : List Token.Kind} {k : Token.Kind} {l : Lexeme}

/-! ### One kind -/

theorem Lexeme.stops_nil (l : Lexeme) : l.Stops [] := by
  cases l with
  | number whole fraction? => cases fraction? with
    | none => exact ⟨nofun, nofun⟩
    | some fraction => exact nofun
  | quoted body closed => cases closed <;> trivial
  | mark m =>
    cases m
    case assign | slash => exact nofun
    all_goals trivial
  | comment _ | word _ => exact nofun
  | _ => trivial

theorem displays_number {x : Float} (h : (Token.Kind.number x).Legible) :
    ∃ l : Lexeme, l.Displays (.number x) := by
  obtain ⟨whole, fraction?, hformed, htext, hvalue⟩ := Number.readAs_text Number.plain h.1 h.2
  refine ⟨.number whole fraction?, hformed, htext, ?_, fun rest => ?_⟩
  · rw [Lexeme.kind?, hvalue]
  · cases fraction? with
    | none =>
      refine ⟨?_, fun d after heq => absurd (List.cons.inj heq).1 (by decide)⟩
      rintro _ ⟨⟩
      decide
    | some fraction =>
      rintro _ ⟨⟩
      decide

/-- A word is reserved where the table has it. -/
theorem Token.Kind.ofWord_eq_word {t : String} {w : Word} : ofWord t = .word w ↔ w.text = t := by
  rw [← Word.ofText?_eq_some, ofWord]
  cases Word.ofText? t <;> simp

/-- Letters, digits and underscores end at a space. -/
theorem displays_word {t : String} (h : (Lexeme.word t.toList).Formed)
    (htext : k.text = t) (hkind : Token.Kind.ofWord t = k) :
    (Lexeme.word t.toList).Displays k where
  formed := h
  text := by rw [htext]; rfl
  kind := by rw [Lexeme.kind?, String.ofList_toList, hkind]
  stops := by
    rintro rest _ ⟨⟩
    decide

theorem word_formed (w : Word) : (Lexeme.word w.text.toList).Formed := by
  cases w <;> exact ⟨_, _, rfl, rfl, List.all_eq_true.1 rfl⟩

theorem displays_mark (m : Mark) : (Lexeme.mark m).Displays (.mark m) where
  formed := trivial
  text := rfl
  kind := rfl
  stops := by
    intro rest
    cases m
    case assign | slash =>
      rintro _ ⟨⟩
      decide
    all_goals trivial

/-- Every kind that can be read is displayed as a lexeme of its class. -/
theorem exists_displays (h : k.Legible) : ∃ l : Lexeme, l.Displays k := by
  cases k with
  | number x => exact displays_number h
  | string s =>
    have hbody : ∀ c ∈ s.toList, c ≠ '"' := by
      rintro c hc rfl
      exact h hc
    have htext : (Lexeme.quoted s.toList true).text = (Token.Kind.string s).text.toList := by
      simp [Lexeme.text, Token.Kind.text]
    have hkind : (Lexeme.quoted s.toList true).kind? = some (.string s) := by
      rw [Lexeme.kind?, String.ofList_toList]
    exact ⟨.quoted s.toList true, hbody, htext, hkind, fun _ => trivial⟩
  | name s => exact ⟨_, displays_word h.1 rfl (by rw [Token.Kind.ofWord, h.2])⟩
  | word w => exact ⟨_, displays_word (word_formed w) rfl (Token.Kind.ofWord_eq_word.2 rfl)⟩
  | mark m => exact ⟨_, displays_mark m⟩
  | endOfFile => exact absurd h id

theorem Lexeme.Displays.known (h : l.Displays k) : ¬ l.isUnknown := by
  cases l with
  | unknown c => exact absurd h.formed id
  | _ => exact nofun

/-! ### Kinds in a row -/

/-- The displays of kinds are cut into the lexemes of the kinds and the blanks in between. -/
theorem cuts_displays (h : ∀ k ∈ kinds, k.Legible) : ∃ ls,
    Cuts ([' '].intercalate (kinds.map fun k => k.text.toList)) ls ∧
      ls.filterMap Lexeme.kind? = kinds ∧ ∀ l ∈ ls, ¬ l.isUnknown := by
  induction kinds with
  | nil => exact ⟨[], .nil, rfl, nofun⟩
  | cons k kinds ih =>
    obtain ⟨l, hl⟩ := exists_displays (h k List.mem_cons_self)
    obtain ⟨ls, hcuts, hkinds, hknown⟩ := ih fun k hk => h k (List.mem_cons_of_mem _ hk)
    cases kinds with
    | nil =>
      have hleads := hl.formed.leads l.stops_nil
      have hcut := Cuts.cons hleads .nil
      rw [List.append_nil, hl.text] at hcut
      refine ⟨[l], ?_, by rw [List.filterMap_cons_some hl.kind]; rfl, ?_⟩
      · rwa [List.map_singleton, List.intercalate_singleton]
      · exact List.forall_mem_singleton.2 hl.known
    | cons next kinds =>
      -- the blank is a lexeme of its own, whatever the next display starts with
      have hblank := Cuts.cons (l := .blank ' ') (leads_blank rfl) hcuts
      have hcut := Cuts.cons (hl.formed.leads (hl.stops _)) hblank
      rw [hl.text] at hcut
      refine ⟨l :: .blank ' ' :: ls, ?_, ?_, ?_⟩
      · rw [List.map_cons, List.map_cons, List.intercalate_cons_cons, List.append_assoc]
        exact hcut
      · rw [List.filterMap_cons_some hl.kind, List.filterMap_cons_none rfl, hkinds]
      · exact List.forall_mem_cons.2 ⟨hl.known, List.forall_mem_cons.2 ⟨Bool.false_ne_true, hknown⟩⟩

/-- Lexing the displays of kinds that can be read gives tokens of these kinds, and reports
nothing. -/
theorem Source.lex_displaying (name : String) (kinds : List Token.Kind)
    (h : ∀ k ∈ kinds, k.Legible) :
    (Source.displaying name kinds).lex.tokens.map (·.kind) = kinds ++ [.endOfFile] ∧
      (Source.displaying name kinds).lex.log = .empty := by
  obtain ⟨ls, hcuts, hkinds, hknown⟩ := cuts_displays h
  have htext : (Source.displaying name kinds).text.toList =
      [' '].intercalate (kinds.map fun k => k.text.toList) := by
    simp [Source.displaying, String.toList_intercalate, Function.comp_def]
  have hlexemes := lexemes_eq_iff.2 hcuts
  rw [← htext] at hlexemes
  have htokens := (Source.displaying name kinds).lex_kinds
  rw [hlexemes, hkinds] at htokens
  refine ⟨htokens, ?_⟩
  have hnone : (Source.displaying name kinds).unknowns = [] := by
    have hcount := (Source.displaying name kinds).length_unknowns
    rw [hlexemes, List.countP_eq_zero.2 hknown] at hcount
    exact List.eq_nil_of_length_eq_zero hcount
  rw [Source.lex, hnone]
  rfl

/-- Marks that would be one mark or a comment without spaces, and a string that has a comment and
a reserved word in it. -/
def mixedKinds : List Token.Kind :=
  [.mark .assign, .mark .assign, .number 0.1, .mark .slash, .mark .slash,
    .string "// \x7b if\n", .name "ranged", .word .range]

theorem Source.lex_displaying_mixed : (∀ k ∈ mixedKinds, k.Legible) ∧
    (Source.displaying "mixed" mixedKinds).lex.tokens.map (·.kind) = mixedKinds ++ [.endOfFile] ∧
    (Source.displaying "mixed" mixedKinds).lex.log = .empty := by
  have hlegible : ∀ k ∈ mixedKinds, k.Legible := by
    have hnumber : (Token.Kind.number 0.1).Legible := by
      show (0.1 : Float).isFinite = true ∧ Number.isNegative 0.1 = false
      decide +kernel
    have hstring : (Token.Kind.string "// \x7b if\n").Legible := by
      show '"' ∉ "// \x7b if\n".toList
      decide
    have hname : (Token.Kind.name "ranged").Legible :=
      ⟨⟨'r', _, rfl, rfl, List.all_eq_true.1 rfl⟩, rfl⟩
    simp only [mixedKinds, List.forall_mem_cons]
    exact ⟨trivial, trivial, hnumber, trivial, trivial, hstring, hname, trivial, nofun⟩
  exact ⟨hlegible, Source.lex_displaying "mixed" mixedKinds hlegible⟩

end Playscript

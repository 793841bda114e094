/-
# How errors of the text are recovered from and shown

Unknown characters count as spaces: a source with spaces in their place has the
same tokens and is read alike. What is reported of the characters marks them
one by one. A refusal shows a line of the text, for it points at a token, or at
the left side of an assignment, which is read from tokens
(`Program.refused_among`); so no line that is shown is empty for want of one
(`Source.recovers`).

Key definitions: `Source.Recovers`.
Key theorems: `Program.refused_among`, `Source.recovers`.
-/
import Playscript.Proofs.Token.Blanking
import Playscript.Proofs.Tree.Nesting
import Playscript.Proofs.Tree.Refusals
import Mathlib.Data.List.Forall2

namespace Playscript

/-! ### Where refusals point -/

namespace Source

variable {s : Source}

/-- A span among the tokens starts on a line of the text. -/
theorem line?_among {ts : List Token} (hts : ts ⊆ s.tokens) {sp : Span} (h : sp.Among ts) :
    (s.line? sp.start.line).isSome := by
  obtain ⟨t, ht, hstart⟩ := h.begun
  obtain ⟨u, hu, hstop⟩ := h.ended
  refine line?_isSome ?_ ?_
  · exact Nat.le_trans (tokens_lines (hts ht)).1 (Place.line_le hstart)
  · exact Nat.le_trans (Place.line_le (Place.le_trans h.forward hstop)) (tokens_lines (hts hu)).2

theorem exists_endOfFile (s : Source) : ∃ t ∈ s.tokens, t.kind = .endOfFile :=
  ⟨s.endOfFile, List.mem_append_right _ (List.mem_singleton_self _), rfl⟩

end Source

namespace Program

open Reader

variable {s : Source} {r : Refusal}

/-- The left side of an assignment is read from tokens. -/
theorem misassigned_among {c : Cursor} {span : Span} (hc : c.Ends) (hrest : c.rest <:+ s.tokens)
    (h : Misassigned c span) : ∃ ts, ts ⊆ s.tokens ∧ span.Among ts := by
  cases h with
  | mk hrun =>
    obtain ⟨ts, hts, hdrawn⟩ := (drawsExpressions _).layer _ hc hrun
    have hsub : ts.Sublist s.tokens := by
      refine List.Sublist.trans ?_ hrest.sublist
      rw [hts.rest]
      exact List.sublist_append_left _ _
    have hfits := hdrawn (Source.inRow hsub hts.inside)
    have hamong := hfits.among _ (List.mem_singleton_self _)
    rw [Expr.span_outline] at hamong
    exact ⟨ts, hsub.subset, hamong⟩

/-- A refusal points at tokens of the source. -/
theorem refused_among (h : ofTokens s.tokens = .error r) :
    ∃ ts, ts ⊆ s.tokens ∧ (r.diagnostic s).span.Among ts := by
  have hsize := size_le_callBound s.tokens
  have hviable := viable_program (Cursor.ends_start s.tokens) hsize
  obtain ⟨e, c, rfl, ⟨hne, ws, htokens, -⟩, -⟩ | ⟨span, rfl, hstopped⟩ :=
    refused_stopped s.exists_endOfFile (Nat.le_refl _) hsize (ofTokens_eq_error.1 h)
  · obtain ⟨t, rest, hrest⟩ := List.exists_cons_of_ne_nil hne
    have htoken : c.token = t := by
      rw [Cursor.token, hrest]
      rfl
    have hmem : c.token ∈ s.tokens := by
      rw [htokens, hrest, htoken]
      exact List.mem_append_right ws List.mem_cons_self
    refine ⟨[c.token], by simpa using hmem, Source.tokens_forward hmem, ?_, ?_⟩
    · exact ⟨c.token, List.mem_singleton_self _, Place.le_refl _⟩
    · exact ⟨c.token, List.mem_singleton_self _, Place.le_refl _⟩
  · rw [hstopped] at hviable
    cases hviable with
    | target hks hmis => exact misassigned_among hks.ends hks.suffix hmis

/-- The diagnostic of a refusal shows the line it starts on. -/
theorem diagnostic_lineAt (source : Source) (r : Refusal) :
    (r.diagnostic source).sourceLine = source.lineAt (r.diagnostic source).span.start := by
  cases r <;> rfl

theorem refused_line? {d : Diagnostic} (h : (ofSource s).1 = .error d) :
    s.line? d.span.start.line = some d.sourceLine := by
  rw [ofSource] at h
  dsimp only at h
  cases hr : ofTokens s.lex.tokens with
  | ok p =>
    rw [hr] at h
    cases h
  | error r =>
    rw [hr] at h
    cases h
    obtain ⟨ts, hts, hamong⟩ := refused_among hr
    rw [diagnostic_lineAt]
    exact Source.line?_lineAt (Source.line?_among hts hamong)

end Program

/-! ### Recovering -/

/-- A diagnostic without the line it shows. -/
def Diagnostic.unshown (d : Diagnostic) : Diagnostic := { d with sourceLine := "" }

namespace Source

/-- How errors of a source are recovered from and shown. -/
structure Recovers (s : Source) : Prop where
  /-- With spaces in place of the unknown characters nothing is reported. -/
  quiet : s.blanked.lex.log = .empty
  /-- The tokens have the same kinds and the same spans. -/
  tokens : s.blanked.lex.tokens = s.lex.tokens
  /-- The same program is read, or the same is refused; only the line that is shown is blanked. -/
  parsed : (Program.ofSource s.blanked).1.mapError Diagnostic.unshown =
    (Program.ofSource s).1.mapError Diagnostic.unshown
  /-- Every unknown character is counted. -/
  counted : s.lex.log.total = s.strays.length
  /-- The first 20 are marked, one by one and in order. -/
  marked : List.Forall₂ (Diagnostic.Marks s) (s.strays.take 20) s.lex.log.kept
  /-- A syntax error shows a line of the text. -/
  shown : ∀ d, (Program.ofSource s).1 = .error d → s.line? d.span.start.line = some d.sourceLine

theorem unshown_blanked (s : Source) (r : Refusal) :
    (r.diagnostic s.blanked).unshown = (r.diagnostic s).unshown := by
  cases r <;> rfl

theorem parsed_blanked (s : Source) :
    (Program.ofSource s.blanked).1.mapError Diagnostic.unshown =
      (Program.ofSource s).1.mapError Diagnostic.unshown := by
  rw [Program.ofSource, Program.ofSource]
  dsimp only [lex]
  rw [tokens_blanked]
  cases Program.ofTokens s.tokens with
  | ok p => rfl
  | error r => exact congrArg Except.error (s.unshown_blanked r)

/-- **Recovery is blanking.** Characters of no class are read as spaces and each is marked in the
report; whatever is refused is shown on a line of the text. -/
theorem recovers (s : Source) : s.Recovers where
  quiet := by
    rw [lex, unknowns_blanked]
    rfl
  tokens := s.tokens_blanked
  parsed := s.parsed_blanked
  counted := by
    rw [lex, Log.ofList_total, s.unknowns_marked.length_eq]
  marked := by
    rw [lex, Log.ofList_kept]
    exact List.forall₂_take 20 s.unknowns_marked
  shown := fun _ => Program.refused_line?

/-- Unknown characters between what they keep apart, among them one of two bytes. -/
def scattered : Source := ⟨"main", "x=@=é1.;"⟩

example : scattered.blanked.text = "x= =  1 ;" := by cbv

example : scattered.strays = [(2, '@'), (4, 'é'), (7, '.')] := by cbv

end Source

end Playscript

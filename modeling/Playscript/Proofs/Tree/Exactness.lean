/-
# The parser reads exactly the grammar

A list of tokens is read as a program, if the grammar derives the program from
the kinds in front of the end of file, and otherwise it is not read. So the
grammar derives one program at most (`Script.unique`). What is printed of a
program with a shape is read as that program, and every list that is read is
what is printed of its program but for redundant parentheses.

Key definitions: `Grammar.scriptKinds`, `Program.ReadsExactly`.
Key theorems: `Program.ofTokens_iff`, `Program.ofTokens_exact`.
-/
import Playscript.Proofs.Tree.Soundness
import Playscript.Proofs.Tree.Completeness
import Playscript.Proofs.Tree.Parentheses

namespace Playscript

open Token (Kind)

namespace Grammar

/-! ### Up to the end of file -/

/-- The kinds in front of the first end of file. -/
def scriptKinds (ks : List Kind) : List Kind := ks.takeWhile (· != .endOfFile)

theorem scriptKinds_append {ks ls : List Kind} (hinside : Kind.endOfFile ∉ ks)
    (hend : ls.headD .endOfFile = .endOfFile) : scriptKinds (ks ++ ls) = ks := by
  have hks : ∀ k ∈ ks, (k != .endOfFile) = true := fun k hk =>
    bne_iff_ne.2 fun heq => hinside (heq ▸ hk)
  rw [scriptKinds, List.takeWhile_append_of_pos hks]
  cases ls with
  | nil => exact List.append_nil ks
  | cons l ls => rw [show l = .endOfFile from hend, List.takeWhile_cons_of_neg (by decide),
      List.append_nil]

theorem scriptKinds_of_notMem {ks : List Kind} (h : Kind.endOfFile ∉ ks) : scriptKinds ks = ks := by
  have happend : scriptKinds (ks ++ []) = ks := scriptKinds_append h rfl
  rwa [List.append_nil] at happend

/-- What is not in front of the first end of file starts with it. -/
theorem exists_scriptKinds_append (ks : List Kind) :
    ∃ tail, ks ++ [.endOfFile] = scriptKinds ks ++ tail ∧
      tail.headD .endOfFile = .endOfFile := by
  refine ⟨ks.dropWhile (· != .endOfFile) ++ [.endOfFile], ?_, ?_⟩
  · rw [scriptKinds, ← List.append_assoc, List.takeWhile_append_dropWhile]
  · cases hdrop : ks.dropWhile (· != .endOfFile) with
    | nil => rfl
    | cons k rest =>
      have hhead := List.head_dropWhile_not (· != Kind.endOfFile) (l := ks) (by simp [hdrop])
      simpa [hdrop] using hhead

theorem scriptKinds_notMem (ks : List Kind) : Kind.endOfFile ∉ scriptKinds ks := by
  intro h
  have hall := List.all_takeWhile (p := (· != Kind.endOfFile)) (l := ks)
  exact bne_iff_ne.1 (List.all_eq_true.1 hall _ h) rfl

end Grammar

namespace Program

open Grammar Reader

variable {tokens ts : List Token} {stop : Span} {ks : List Kind} {p q : Program}

/-! ### Reading a list of tokens -/

/-- Tokens of the given kinds, and an end of file. -/
theorem at_ofTokens (ts : List Token) (stop : Span) :
    (Cursor.ofTokens (ts ++ [⟨.endOfFile, stop⟩])).At (ts.map (·.kind) ++ [.endOfFile]) where
  ends := by simp [Cursor.Ends, Cursor.ofTokens]
  kinds := by simp [Cursor.kinds, Cursor.ofTokens]

theorem script_of_ofTokens (h : ofTokens (ts ++ [⟨.endOfFile, stop⟩]) = .ok q) :
    Script (scriptKinds (ts.map (·.kind))) q.bare := by
  obtain ⟨d, hrun⟩ := ofTokens_eq_ok.1 h
  have hat := at_ofTokens ts stop
  obtain ⟨ks, hpasses, hscript, hend⟩ := reads_program hat.ends hrun
  rw [Cursor.kind_eq hpasses.ends] at hend
  obtain ⟨tail, hsplit, htail⟩ := exists_scriptKinds_append (ts.map (·.kind))
  have hks : scriptKinds (ts.map (·.kind)) = ks := by
    rw [← scriptKinds_append (scriptKinds_notMem _) htail, ← hsplit, ← hat.kinds, hpasses.kinds]
    exact scriptKinds_append hpasses.inside hend
  rw [hks]
  exact hscript

theorem ofTokens_of_script (h : Script (scriptKinds (ts.map (·.kind))) p) (stop : Span) :
    ∃ q, ofTokens (ts ++ [⟨.endOfFile, stop⟩]) = .ok q ∧ q.bare = p := by
  obtain ⟨tail, hsplit, htail⟩ := exists_scriptKinds_append (ts.map (·.kind))
  have hat := at_ofTokens ts stop
  rw [hsplit] at hat
  have hbound : 16 * (scriptKinds (ts.map (·.kind))).length + 8 ≤
      callBound (ts ++ [⟨.endOfFile, stop⟩]) := by
    have hlength := congrArg List.length hsplit
    simp only [List.length_append, List.length_map, List.length_singleton] at hlength
    simp only [callBound, List.length_append, List.length_singleton]
    omega
  obtain ⟨q, d, hrun, hq, -⟩ := finds_program h hbound hat htail
  exact ⟨q, ofTokens_eq_ok.2 ⟨d, hrun⟩, hq⟩

/-- A list is read as a program exactly if the grammar derives the program from its kinds. -/
theorem ofTokens_iff (ts : List Token) (stop : Span) (p : Program) :
    (∃ q, ofTokens (ts ++ [⟨.endOfFile, stop⟩]) = .ok q ∧ q.bare = p) ↔
      Script (scriptKinds (ts.map (·.kind))) p := by
  refine ⟨?_, fun h => ofTokens_of_script h stop⟩
  rintro ⟨q, hq, rfl⟩
  exact script_of_ofTokens hq

end Program

namespace Grammar

variable {ks : List Kind} {p q : Program}

/-- Some tokens of the given kinds. -/
theorem exists_tokens (ks : List Kind) : ∃ ts : List Token, ts.map (·.kind) = ks :=
  ⟨ks.map fun k => ⟨k, .nowhere⟩, by simp [Function.comp_def]⟩

/-- No part of a script is an end of file, since the parser passes none. -/
theorem Script.notMem (h : Script ks p) : Kind.endOfFile ∉ ks := by
  obtain ⟨ts, hts⟩ := exists_tokens ks
  have hat := Program.at_ofTokens ts .nowhere
  rw [hts] at hat
  obtain ⟨q, d, hrun, -, hd⟩ := Reader.finds_program h (Nat.le_refl _) hat rfl
  obtain ⟨ls, hpasses, -, -⟩ := Reader.reads_program hat.ends hrun
  have hls : ks ++ [.endOfFile] = ls ++ [.endOfFile] := by
    rw [← hat.kinds, hpasses.kinds, hd.kinds]
  rw [List.append_cancel_right hls]
  exact hpasses.inside

/-- The grammar derives one program at most. -/
theorem Script.unique (hp : Script ks p) (hq : Script ks q) : p = q := by
  obtain ⟨ts, rfl⟩ := exists_tokens ks
  have hks := scriptKinds_of_notMem hp.notMem
  rw [← hks] at hp hq
  obtain ⟨p', hp', rfl⟩ := (Program.ofTokens_iff ts .nowhere p).2 hp
  obtain ⟨q', hq', rfl⟩ := (Program.ofTokens_iff ts .nowhere q).2 hq
  rw [hp'] at hq'
  cases hq'
  rfl

end Grammar

namespace Program

open Grammar

/-- What a list of tokens in front of an end of file is read as. -/
structure ReadsExactly (ts : List Token) (stop : Span) : Prop where
  /-- The programs that the grammar derives are read, and no others. -/
  derived : ∀ p, (∃ q, ofTokens (ts ++ [⟨.endOfFile, stop⟩]) = .ok q ∧ q.bare = p) ↔
    Script (scriptKinds (ts.map (·.kind))) p
  /-- What is printed of a program is read as that program. -/
  printed : ∀ p : Program, p.Shaped → ts.map (·.kind) = p.printed →
    ∃ q, ofTokens (ts ++ [⟨.endOfFile, stop⟩]) = .ok q ∧ q.bare = p.bare
  /-- What is read is what is printed but for redundant parentheses. -/
  accepted : ∀ q, ofTokens (ts ++ [⟨.endOfFile, stop⟩]) = .ok q →
    q.Shaped ∧ Reduces (Script · q.bare) (scriptKinds (ts.map (·.kind))) q.printed
  /-- What is printed has no redundant parentheses. -/
  minimal : ∀ p ks, ¬ Sheds (Script · p) p.printed ks
  /-- After a type word comes a function exactly if a name and a parenthesis follow. -/
  functions : ∀ w ks s, w.isType → Derives .declaration (.word w :: ks) s →
    ∀ tail, s.isAction ↔ HeadsFunction (ks ++ tail)

theorem ofTokens_exact (ts : List Token) (stop : Span) : ReadsExactly ts stop where
  derived := ofTokens_iff ts stop
  printed p hp hts := by
    have hscript := script_printed hp
    refine ofTokens_of_script ?_ stop
    rwa [hts, scriptKinds_of_notMem hscript.notMem]
  accepted q hq := by
    have hscript := script_of_ofTokens hq
    have hreduces := hscript.reduces
    rw [printed_bare] at hreduces
    exact ⟨(shaped_bare q).1 hscript.shaped.1, hreduces⟩
  minimal _ _ := Script.printed_final
  functions _ _ _ hw h tail := h.isAction_iff hw tail

end Program

end Playscript

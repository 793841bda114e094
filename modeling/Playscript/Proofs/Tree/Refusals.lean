/-
# A token is refused as soon as no program is left

If the parser refuses a token, the tokens in front of it begin a script, one in
which any operation may stand left of `=`; and no tokens at all behind it make
a program: they are all refused there, with the same diagnostic. A refused
target is what an assignment has on its left, and is no name
(`Program.refused_first_impossible`).

Both readings are led over the tokens up to the refused one. Closed by an end of
file they are read to a refusal within either bound on calls, and the same
refusal with the larger of the two.

Key definitions: `Program.RefusedAt`.
Key theorems: `Program.refused_alike`, `Program.refused_first_impossible`.
-/
import Playscript.Proofs.Tree.Lookahead
import Playscript.Proofs.Tree.Viability

namespace Playscript

open Token (Kind)
open Grammar

/-- The start of some tokens, with another token seen behind them. -/
def Cursor.start (tokens : List Token) (last : Token) : Cursor :=
  { rest := tokens, previous := .point .first, last }

/-- An end of file without a place. -/
def Token.stop : Token := ⟨.endOfFile, .nowhere⟩

theorem Cursor.ends_start (us : List Token) : (Cursor.start us .stop).Ends := rfl

theorem Cursor.size_start (us : List Token) (last : Token) :
    (Cursor.start us last).size ≤ us.length := by
  have hle : (scriptKinds (us.map (·.kind))).length ≤ (us.map (·.kind)).length :=
    (List.takeWhile_prefix _).length_le
  rwa [List.length_map] at hle

theorem Cursor.size_start_stop (us : List Token) :
    (Cursor.start (us ++ [.stop]) .stop).size ≤ us.length := by
  have hkinds : (Cursor.start (us ++ [.stop]) .stop).kinds = us.map (·.kind) ++ [.endOfFile] :=
    List.map_append
  obtain ⟨tail, hsplit, htail⟩ := exists_scriptKinds_append (us.map (·.kind))
  rw [Cursor.size, hkinds, hsplit, scriptKinds_append (scriptKinds_notMem _) htail]
  exact Cursor.size_start us .stop

namespace Fork

variable {F : Fork} {α : Type} {us : List Token} {x y : Except Refusal (α × Cursor)}
  {e : Expected} {d : Cursor}

/-- A refusal among the shared tokens is echoed. -/
theorem Echoes.of_refused (h : Echoes F us x y) (hx : x = .error (.unexpected e d))
    (hwithin : (∀ u ∈ us, u.kind ≠ .endOfFile) → F.one.length < d.rest.length) :
    ∃ vs q, Remain us vs ∧ d = F.left vs q ∧ y = .error (.unexpected e (F.right vs q)) := by
  cases h with
  | unexpected hvs =>
    cases hx
    exact ⟨_, _, hvs, rfl, rfl⟩
  | beyond _ hus hleaves =>
    cases hx
    cases hleaves with
    | unexpected hle => exact absurd (hwithin hus) (Nat.not_lt.2 hle)
  | ok | target | endless => cases hx

/-- If an end of file is shared, the two outcomes are alike. -/
theorem Echoes.of_end (h : Echoes F us x y) (hend : ∃ u ∈ us, u.kind = .endOfFile)
    (hx : x ≠ .error .endless) :
    (∃ a vs q, x = .ok (a, F.left vs q) ∧ y = .ok (a, F.right vs q)) ∨
      (∃ e vs q, Remain us vs ∧ x = .error (.unexpected e (F.left vs q)) ∧
        y = .error (.unexpected e (F.right vs q))) ∨
      ∃ span, x = .error (.target span) ∧ y = .error (.target span) := by
  cases h with
  | ok => exact .inl ⟨_, _, _, rfl, rfl⟩
  | unexpected hvs => exact .inr (.inl ⟨_, _, _, hvs, rfl, rfl⟩)
  | target span => exact .inr (.inr ⟨span, rfl, rfl⟩)
  | endless => exact absurd rfl hx
  | beyond _ hus =>
    obtain ⟨u, hu, hk⟩ := hend
    exact absurd hk (hus u hu)

end Fork

namespace Reader

variable {us ws ts ts' : List Token} {v last last' : Token} {bound larger : Nat} {e : Expected}
  {d : Cursor}

/-- Programs whose tokens begin alike are read alike up to there. -/
theorem echoes_start (F : Fork) (h : bound ≤ larger) (hus : us ≠ []) :
    F.Echoes us ((program bound).run (.start (us ++ F.one) F.last))
      ((program larger).run (.start (us ++ F.other) F.otherLast)) := by
  obtain ⟨u, us, rfl⟩ := List.exists_cons_of_ne_nil hus
  exact (F.echo_program h).echoes u us (.point .first) trivial

/-- A refusal of a token is met again, whatever follows the token. -/
theorem refused_again (h : bound ≤ larger)
    (hrun : (program bound).run (.start (ws ++ v :: ts) last) = .error (.unexpected e d))
    (hd : d.rest = v :: ts) :
    (program larger).run (.start (ws ++ v :: ts') last') =
      .error (.unexpected e ⟨v :: ts', d.previous, last'⟩) := by
  have hecho := echoes_start ⟨ts, ts', last, last'⟩ h (List.concat_ne_nil v ws)
  rw [List.append_assoc, List.append_assoc] at hecho
  have hlt : ts.length < d.rest.length := by
    rw [hd]
    exact Nat.lt_succ_self _
  obtain ⟨vs, q, -, rfl, hy⟩ := hecho.of_refused hrun fun _ => hlt
  obtain rfl : vs = [v] := List.append_cancel_right hd
  exact hy

/-- Enough calls for the tokens in front of an end of file. -/
theorem not_endless (hb : 16 * (Cursor.start us .stop).size + 11 ≤ bound) :
    (program bound).run (.start us .stop) ≠ .error .endless := by
  have hviable := viable_program (Cursor.ends_start us) hb
  intro h
  rw [h] at hviable
  cases hviable

/-- With an end of file, neither a larger bound nor the token seen behind the list matters to
what is refused. -/
theorem refused_stopped (hend : ∃ u ∈ us, u.kind = .endOfFile) (h : bound ≤ larger)
    (hb : 16 * (Cursor.start us .stop).size + 11 ≤ bound) {r : Refusal}
    (hrun : (program larger).run (.start us last) = .error r) :
    (∃ e d, r = .unexpected e d ∧ Remain us d.rest ∧
      (program bound).run (.start us .stop) =
        .error (.unexpected e ⟨d.rest, d.previous, .stop⟩)) ∨
      ∃ span, r = .target span ∧ (program bound).run (.start us .stop) = .error (.target span) := by
  have hne : us ≠ [] := hend.elim fun u hu => List.ne_nil_of_mem hu.1
  have hecho := echoes_start ⟨[], [], .stop, last⟩ h hne
  rw [List.append_nil, hrun] at hecho
  obtain ⟨_, _, _, -, hy⟩ | ⟨e, vs, q, hvs, hx, hy⟩ | ⟨span, hx, hy⟩ :=
    hecho.of_end hend (not_endless hb)
  · cases hy
  · cases hy
    refine .inl ⟨e, _, rfl, ?_, hx.trans ?_⟩
    · rwa [Fork.right, List.append_nil]
    · rw [Fork.left, Fork.right]
  · cases hy
    exact .inr ⟨span, rfl, hx⟩

end Reader

namespace Program

open Reader

variable {tokens : List Token} {r : Refusal}

theorem ofTokens_eq_error :
    ofTokens tokens = .error r ↔
      (program (callBound tokens)).run (.ofTokens tokens) = .error r := by
  rw [ofTokens, StateT.run'_eq]
  cases (program (callBound tokens)).run (.ofTokens tokens) with
  | error x => exact ⟨by rintro ⟨⟩; rfl, by rintro ⟨⟩; rfl⟩
  | ok a => constructor <;> intro h <;> cases h

theorem size_le_callBound (tokens : List Token) :
    16 * (Cursor.start tokens .stop).size + 11 ≤ callBound tokens := by
  have hle := Cursor.size_start tokens .stop
  rw [callBound]
  omega

/-- The token at the index is refused, and it is the first that no program has there. -/
structure RefusedAt (tokens : List Token) (k : Nat) (e : Expected) (c : Cursor) : Prop where
  inside : k < tokens.length
  /-- The reader stands before the token. -/
  stands : c.rest = tokens.drop k
  /-- The tokens in front of it begin a script, if any operation may be a target. -/
  begun : ∃ ls, Yields Leniently [.phrase .script] ((tokens.take k).map (·.kind) ++ ls)
  /-- Whatever follows it, it is refused with the same diagnostic. -/
  refused : ∀ others, others.take (k + 1) = tokens.take (k + 1) →
    ∃ d, ofTokens others = .error (.unexpected e d) ∧ d.rest = others.drop k ∧
      ∀ source, (Refusal.unexpected e d).diagnostic source =
        (Refusal.unexpected e c).diagnostic source

/-- A diagnostic tells the token that is refused, and nothing of what follows. -/
theorem refusal_congr {v : Token} {vs vs' : List Token} {e : Expected} {c d : Cursor}
    (hd : d.rest = v :: vs') (hc : c.rest = v :: vs) (source : Source) :
    (Refusal.unexpected e d).diagnostic source = (Refusal.unexpected e c).diagnostic source := by
  have htoken : d.token = c.token := by
    rw [Cursor.token, Cursor.token, hd, hc]
    rfl
  rw [Refusal.diagnostic, Refusal.diagnostic, Cursor.kind, Cursor.kind, htoken]

/-- Tokens that go on otherwise behind a refused token are refused there, too. -/
theorem refused_alike {ws vs vs' : List Token} {v : Token} {e : Expected} {c : Cursor}
    (h : ofTokens (ws ++ v :: vs) = .error (.unexpected e c)) (hc : c.rest = v :: vs) :
    ∃ d, ofTokens (ws ++ v :: vs') = .error (.unexpected e d) ∧ d.rest = v :: vs' := by
  have hrun := ofTokens_eq_error.1 h
  -- The other tokens may have the smaller bound, so the refusal is first met again with the larger
  -- of both, in front of an end of file, where the smaller is enough as well.
  generalize hbound : callBound (ws ++ v :: vs') = bound
  have hclosed : (program (max (callBound (ws ++ v :: vs)) bound)).run
      (.start (ws ++ v :: [.stop]) .stop) =
        .error (.unexpected e ⟨v :: [.stop], c.previous, .stop⟩) :=
    refused_again (Nat.le_max_left _ _) hrun hc
  have hsize : 16 * (Cursor.start (ws ++ v :: [.stop]) .stop).size + 11 ≤ bound := by
    have hle : (Cursor.start (ws ++ v :: [.stop]) .stop).size ≤ ws.length + 1 := by
      simpa using Cursor.size_start_stop (ws ++ [v])
    rw [callBound, List.length_append, List.length_cons] at hbound
    omega
  have hend : ∃ u ∈ ws ++ v :: [Token.stop], u.kind = .endOfFile := ⟨.stop, by simp, rfl⟩
  obtain ⟨_, _, heq, -, hstopped⟩ | ⟨_, heq, -⟩ :=
    refused_stopped hend (Nat.le_max_right _ _) hsize hclosed
  · cases heq
    exact ⟨_, ofTokens_eq_error.2 (hbound ▸ refused_again (Nat.le_refl _) hstopped rfl), rfl⟩
  · cases heq

theorem refusedAt_of_begun {e : Expected} {c : Cursor} {ks ls : List Kind}
    (h : ofTokens tokens = .error (.unexpected e c)) (hc : Remain tokens c.rest)
    (hkinds : tokens.map (·.kind) = ks ++ c.kinds)
    (hscript : Lenient [.phrase .script] (ks ++ ls)) : ∃ k, RefusedAt tokens k e c := by
  obtain ⟨hne, ws, htokens, -⟩ := hc
  obtain ⟨v, vs, hvs⟩ := List.exists_cons_of_ne_nil hne
  rw [hvs] at htokens
  subst htokens
  refine ⟨ws.length, ?_, ?_, ?_, fun others hothers => ?_⟩
  · rw [List.length_append, List.length_cons]
    omega
  · rw [hvs, List.drop_left]
  · rw [Cursor.kinds, hvs, List.map_append] at hkinds
    rw [List.take_left, List.append_cancel_right hkinds]
    exact ⟨ls, hscript⟩
  · have htake : (ws ++ v :: vs).take (ws.length + 1) = ws ++ [v] := List.take_length_add_append 1
    have hsplit := List.take_append_drop (ws.length + 1) others
    rw [hothers, htake, List.append_assoc, List.singleton_append] at hsplit
    rw [← hsplit]
    obtain ⟨d, hd, hrest⟩ := refused_alike h hvs
    exact ⟨d, hd, by rw [hrest, List.drop_left], refusal_congr hrest hvs⟩

/-- **The first impossible token is reported.** Where the parser reports an unexpected token or a
missing expression, no program has that token there, and the tokens in front of it begin one if
any operation may be a target. An invalid target stands left of `=`, and is no name. -/
theorem refused_first_impossible (hend : ∃ t ∈ tokens, t.kind = .endOfFile)
    (h : ofTokens tokens = .error r) (source : Source) :
    ((r.diagnostic source).code = .unexpectedToken ∨
      (r.diagnostic source).code = .expectedExpression →
        ∃ k e c, r = .unexpected e c ∧ RefusedAt tokens k e c) ∧
    ((r.diagnostic source).code = .invalidTarget →
      ∃ j c, c.rest = tokens.drop j ∧ Misassigned c (r.diagnostic source).span) := by
  have hsize := size_le_callBound tokens
  have hviable := viable_program (Cursor.ends_start tokens) hsize
  obtain ⟨e, c, rfl, hc, hstopped⟩ | ⟨span, rfl, hstopped⟩ :=
    refused_stopped hend (Nat.le_refl _) hsize (ofTokens_eq_error.1 h)
  · rw [hstopped] at hviable
    refine ⟨fun _ => ?_, fun hcode => ?_⟩
    · cases hviable with
      | unexpected hks hscript =>
        obtain ⟨k, hk⟩ := refusedAt_of_begun h hc hks.kinds hscript
        exact ⟨k, e, c, rfl, hk⟩
    · cases e <;> cases hcode
  · rw [hstopped] at hviable
    refine ⟨fun hcode => ?_, fun _ => ?_⟩
    · obtain hcode | hcode := hcode <;> cases hcode
    · cases hviable with
      | @target _ c _ hks hmis =>
        exact ⟨_, c, List.suffix_iff_eq_drop.1 hks.suffix, hmis⟩

/-- The tokens of `int x = ;`. -/
def unfinished : List Token :=
  [.word .int, .name "x", .mark .assign, .mark .semicolon, .endOfFile].map (⟨·, .nowhere⟩)

theorem refused_first_impossible_unfinished :
    ∃ c, ofTokens unfinished = .error (.unexpected .expression c) ∧
      RefusedAt unfinished 3 .expression c := by
  have hrefused : ofTokens unfinished = .error
      (.unexpected .expression ⟨unfinished.drop 3, .nowhere, .stop⟩) := rfl
  have hend : ∃ t ∈ unfinished, t.kind = .endOfFile :=
    ⟨.stop, by simp [unfinished, Token.stop], rfl⟩
  obtain ⟨k, e, c, heq, hk⟩ :=
    (refused_first_impossible hend hrefused ⟨"main", "int x = ;"⟩).1 (.inr rfl)
  cases heq
  have hlength : 2 = 5 - k := (congrArg List.length hk.stands).trans List.length_drop
  obtain rfl : k = 3 := by omega
  exact ⟨_, hrefused, hk⟩

end Program

end Playscript

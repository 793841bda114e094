/-
# The placeholders of a text

A placeholder occurs in a text where its braces, blanks and name stand
(`OccursAt`). No two occurrences overlap: the two braces that open one stand
together nowhere else in it (`OccursAt.disjoint`). The parts of a text are these
occurrences and the characters between them (`occursAt_iff`), so that what
`fill` puts for the parts stands for the whole text.

Key definitions: `Placeholder.Formed`, `OccursAt`, `StandsAt`.
Key theorems: `placeholder?_eq_some_iff`, `OccursAt.disjoint`, `written_pieces`, `occursAt_iff`.
-/
import Playscript.Template
import Playscript.Proofs.Token.Faithful

namespace Playscript.Template

/-- Two opening braces, blanks, a name, blanks and two closing braces. -/
def Placeholder.Formed (p : Placeholder) : Prop :=
  ∃ before after, (∀ c ∈ before, isSpace c) ∧ (Lexeme.word p.name).Formed ∧
    (∀ c ∈ after, isSpace c) ∧ p.written = '{' :: '{' :: (before ++ p.name ++ after ++ ['}', '}'])

/-- A placeholder stands in a text, behind so many characters. -/
def OccursAt (cs : List Char) (i : Nat) (p : Placeholder) : Prop :=
  p.Formed ∧ p.written <+: cs.drop i

/-- The characters of a part. -/
def Piece.written : Piece → List Char
  | char c => [c]
  | placeholder p => p.written

/-- A part stands among others, behind so many characters. -/
def StandsAt (ps : List Piece) (i : Nat) (x : Piece) : Prop :=
  ∃ front back, ps = front ++ x :: back ∧ (front.flatMap Piece.written).length = i

variable {c : Char} {cs rest : List Char} {p q : Placeholder} {i j : Nat}

/-! ### Blanks, names and braces -/

/-- Names lie between blanks and braces. -/
theorem toNat_of_continuesName (h : continuesName c) : 48 ≤ c.toNat ∧ c.toNat ≤ 122 := by
  simp only [continuesName, startsName, isLetter, isDigit, Bool.or_eq_true, Bool.and_eq_true,
    decide_eq_true_eq, beq_iff_eq, Char.le_def, UInt32.le_iff_toNat_le] at h
  rcases h with ((⟨hlow, hhigh⟩ | ⟨hlow, hhigh⟩) | rfl) | ⟨hlow, hhigh⟩
  · exact ⟨Nat.le_trans (by decide) hlow, hhigh⟩
  · exact ⟨Nat.le_trans (by decide) hlow, Nat.le_trans hhigh (by decide)⟩
  · decide
  · exact ⟨hlow, Nat.le_trans hhigh (by decide)⟩

theorem toNat_of_isSpace (h : isSpace c) : c.toNat ≤ 32 ∨ 133 ≤ c.toNat := by
  simp only [isSpace, Bool.or_eq_true, Bool.and_eq_true, decide_eq_true_eq, beq_iff_eq] at h
  omega

theorem not_isSpace_of_continuesName (h : continuesName c) : ¬ isSpace c := by
  intro hs
  have hname := toNat_of_continuesName h
  have hspace := toNat_of_isSpace hs
  omega

theorem continuesName_of_startsName (h : startsName c) : continuesName c := by
  rw [continuesName, h, Bool.true_or]

/-- No blank and no character of a name is a brace. -/
theorem ne_brace (h : isSpace c ∨ continuesName c) : c ≠ '{' ∧ c ≠ '}' := by
  have hopen : '{'.toNat = 123 := rfl
  have hclose : '}'.toNat = 125 := rfl
  rcases h with h | h
  · have hspace := toNat_of_isSpace h
    exact ⟨by rintro rfl; omega, by rintro rfl; omega⟩
  · have hname := toNat_of_continuesName h
    exact ⟨by rintro rfl; omega, by rintro rfl; omega⟩

theorem continuesName_of_mem {name : List Char} (h : (Lexeme.word name).Formed) (hc : c ∈ name) :
    continuesName c := by
  obtain ⟨d, ds, rfl, hd, hds⟩ := h
  rcases List.mem_cons.1 hc with rfl | hc
  · exact continuesName_of_startsName hd
  · exact hds c hc

/-! ### Reading a placeholder -/

theorem not_of_mem_head?_dropWhile {p : Char → Bool} (h : c ∈ (cs.dropWhile p).head?) : ¬ p c := by
  have hnot := List.head?_dropWhile_not p cs
  rw [h] at hnot
  exact ne_true_of_eq_false hnot

theorem name?_eq_some_iff {name : List Char} : name? cs = some (name, rest) ↔
    (Lexeme.word name).Formed ∧ name ++ rest = cs ∧ ∀ c ∈ rest.head?, ¬ continuesName c := by
  constructor
  · intro h
    cases cs with
    | nil => cases h
    | cons c cs =>
      rw [name?] at h
      split at h
      · rename_i hc
        cases h
        exact ⟨⟨c, _, rfl, hc, fun d hd => List.mem_takeWhile_imp hd⟩,
          by rw [List.cons_append, List.takeWhile_append_dropWhile],
          fun d hd => not_of_mem_head?_dropWhile hd⟩
      · cases h
  · rintro ⟨⟨c, t, rfl, hc, ht⟩, rfl, hrest⟩
    obtain ⟨htake, hdrop⟩ := Lexeme.takeWhile_append_of_head ht hrest
    rw [List.cons_append, name?, if_pos hc, htake, hdrop]

theorem close?_eq_some_iff : close? cs = some rest ↔ cs = '}' :: '}' :: rest := by
  constructor
  · intro h
    unfold close? at h
    split at h
    · cases h; rfl
    · cases h
  · rintro rfl
    rfl

theorem formed_of_placeholder? (h : placeholder? cs = some (p, rest)) :
    p.Formed ∧ p.written ++ rest = cs := by
  unfold placeholder? at h
  split at h
  · rename_i inside
    obtain ⟨⟨name, afterName⟩, hname, h⟩ := Option.bind_eq_some_iff.1 h
    obtain ⟨tail, hclose, h⟩ := Option.bind_eq_some_iff.1 h
    cases h
    obtain ⟨hformed, happend, -⟩ := name?_eq_some_iff.1 hname
    refine ⟨⟨inside.takeWhile isSpace, afterName.takeWhile isSpace,
      fun c hc => List.mem_takeWhile_imp hc, hformed, fun c hc => List.mem_takeWhile_imp hc, rfl⟩,
      ?_⟩
    have hafter : afterName.takeWhile isSpace ++ '}' :: '}' :: rest = afterName := by
      rw [← close?_eq_some_iff.1 hclose, List.takeWhile_append_dropWhile]
    have hinside : inside.takeWhile isSpace ++ (name ++ afterName) = inside := by
      rw [happend, List.takeWhile_append_dropWhile]
    simp only [List.cons_append, List.append_assoc, List.nil_append, hafter, hinside]
  · cases h

/-- Behind a name come blanks or closing braces. -/
theorem not_continuesName_of_head? {after : List Char} (hafter : ∀ c ∈ after, isSpace c)
    (rest : List Char) :
    ∀ c ∈ (after ++ '}' :: '}' :: rest).head?, ¬ continuesName c := by
  cases after with
  | nil =>
    rintro _ ⟨⟩
    decide
  | cons d after =>
    rintro _ ⟨⟩ hname
    exact not_isSpace_of_continuesName hname (hafter d List.mem_cons_self)

theorem Placeholder.Formed.placeholder?_eq (h : p.Formed) (rest : List Char) :
    placeholder? (p.written ++ rest) = some (p, rest) := by
  obtain ⟨before, after, hbefore, hformed, hafter, hwritten⟩ := h
  obtain ⟨name, written⟩ := p
  dsimp only at hformed hwritten
  subst hwritten
  have hname := name?_eq_some_iff.2 ⟨hformed, rfl, not_continuesName_of_head? hafter rest⟩
  have hnameHead : ∀ c ∈ (name ++ (after ++ '}' :: '}' :: rest)).head?, ¬ isSpace c := by
    obtain ⟨c, t, rfl, hc, -⟩ := hformed
    rintro _ ⟨⟩
    exact not_isSpace_of_continuesName (continuesName_of_startsName hc)
  have hclosing : ∀ c ∈ ('}' :: '}' :: rest).head?, ¬ isSpace c := by
    rintro _ ⟨⟩
    decide
  obtain ⟨htakeBefore, hdropBefore⟩ := Lexeme.takeWhile_append_of_head hbefore hnameHead
  obtain ⟨htakeAfter, hdropAfter⟩ := Lexeme.takeWhile_append_of_head hafter hclosing
  simp only [List.cons_append, List.append_assoc, List.nil_append]
  rw [placeholder?, hdropBefore, hname]
  simp [hdropAfter, htakeAfter, htakeBefore, close?]

/-- A placeholder is read where one stands, and all of it. -/
theorem placeholder?_eq_some_iff :
    placeholder? cs = some (p, rest) ↔ p.Formed ∧ p.written ++ rest = cs :=
  ⟨formed_of_placeholder?, by rintro ⟨h, rfl⟩; exact h.placeholder?_eq rest⟩

/-! ### Occurrences -/

/-- Behind its first two braces a placeholder has something, and no more opening braces. -/
theorem Placeholder.Formed.written_eq (h : p.Formed) :
    ∃ c t, p.written = '{' :: '{' :: c :: t ∧ '{' ∉ c :: t := by
  obtain ⟨before, after, hbefore, hformed, hafter, hwritten⟩ := h
  obtain ⟨c, t, hinside⟩ := List.exists_cons_of_ne_nil
    (l := before ++ p.name ++ after ++ ['}', '}']) (by simp)
  refine ⟨c, t, by rw [hwritten, hinside], ?_⟩
  rw [← hinside]
  simp only [List.mem_append, not_or]
  exact ⟨⟨⟨fun hc => (ne_brace (.inl (hbefore _ hc))).1 rfl,
    fun hc => (ne_brace (.inr (continuesName_of_mem hformed hc))).1 rfl⟩,
    fun hc => (ne_brace (.inl (hafter _ hc))).1 rfl⟩, by decide⟩

theorem Placeholder.Formed.written_ne_nil (h : p.Formed) : p.written ≠ [] := by
  obtain ⟨c, t, hwritten, -⟩ := h.written_eq
  rw [hwritten]
  exact List.cons_ne_nil _ _

theorem not_occursAt_nil : ¬ OccursAt [] i p := by
  rintro ⟨hformed, hprefix⟩
  rw [List.drop_nil] at hprefix
  exact hformed.written_ne_nil (List.prefix_nil.1 hprefix)

theorem occursAt_zero_iff : OccursAt cs 0 p ↔ ∃ rest, placeholder? cs = some (p, rest) := by
  simp only [OccursAt, List.drop_zero, placeholder?_eq_some_iff, exists_and_left]
  rfl

theorem occursAt_drop : OccursAt (cs.drop i) j p ↔ OccursAt cs (i + j) p := by
  rw [OccursAt, OccursAt, List.drop_drop]

/-- Where a placeholder occurs there are two opening braces. -/
theorem OccursAt.braces (h : OccursAt cs i p) : cs[i]? = some '{' ∧ cs[i + 1]? = some '{' := by
  obtain ⟨hformed, t, ht⟩ := h
  obtain ⟨c, u, hwritten, -⟩ := hformed.written_eq
  rw [hwritten] at ht
  have hget (n : Nat) : cs[i + n]? = ('{' :: '{' :: c :: u ++ t)[n]? := by
    rw [ht, List.getElem?_drop]
  exact ⟨hget 0, hget 1⟩

/-- No placeholder starts inside another. -/
theorem Placeholder.Formed.not_occursAt (hp : p.Formed) (hpos : 0 < i)
    (hi : i < p.written.length) : ¬ OccursAt (p.written ++ rest) i q := by
  intro h
  obtain ⟨hfirst, hsecond⟩ := h.braces
  obtain ⟨c, t, hwritten, hopen⟩ := hp.written_eq
  rw [List.getElem?_append_left hi] at hfirst
  rw [hwritten] at hfirst hsecond
  -- behind the first brace there is only the second, and behind that there is none
  match i, hpos with
  | 1, _ =>
    obtain rfl : c = '{' := Option.some.inj hsecond
    exact hopen List.mem_cons_self
  | n + 2, _ => exact hopen (List.mem_of_getElem? (i := n) hfirst)

/-- In a text that starts with a placeholder the others come behind it. -/
theorem occursAt_append_iff (hp : p.Formed) : OccursAt (p.written ++ rest) i q ↔
    (q = p ∧ i = 0) ∨ (p.written.length ≤ i ∧ OccursAt rest (i - p.written.length) q) := by
  rcases Nat.eq_zero_or_pos i with rfl | hpos
  · have hlength := List.length_pos_of_ne_nil hp.written_ne_nil
    rw [occursAt_zero_iff, hp.placeholder?_eq]
    constructor
    · rintro ⟨_, ⟨⟩⟩
      exact .inl ⟨rfl, rfl⟩
    · rintro (⟨rfl, -⟩ | ⟨hle, -⟩)
      · exact ⟨rest, rfl⟩
      · omega
  · rcases Nat.lt_or_ge i p.written.length with hi | hi
    · exact iff_of_false (hp.not_occursAt hpos hi) (by omega)
    · have hskip : OccursAt (p.written ++ rest) i q ↔
          OccursAt rest (i - p.written.length) q := by
        conv_lhs => rw [← Nat.add_sub_cancel' hi]
        rw [← occursAt_drop, List.drop_left]
      rw [hskip]
      exact ⟨fun h => .inr ⟨hi, h⟩, fun h => h.elim (fun h => absurd h.2 (by omega)) And.right⟩

/-- At one place no two placeholders occur. -/
theorem OccursAt.unique (hp : OccursAt cs i p) (hq : OccursAt cs i q) : p = q := by
  obtain ⟨rest, hprest⟩ := occursAt_zero_iff.1 (occursAt_drop.2 hp)
  obtain ⟨rest', hqrest⟩ := occursAt_zero_iff.1 (occursAt_drop.2 hq)
  rw [hprest] at hqrest
  cases hqrest
  rfl

/-- Occurrences do not overlap. -/
theorem OccursAt.disjoint (hp : OccursAt cs i p) (hq : OccursAt cs j q) (hlt : i < j) :
    i + p.written.length ≤ j := by
  obtain ⟨hformed, rest, hrest⟩ := hp
  have hq' : OccursAt (p.written ++ rest) (j - i) q := by
    rw [hrest, occursAt_drop, Nat.add_sub_cancel' hlt.le]
    exact hq
  rcases (occursAt_append_iff hformed).1 hq' with ⟨-, hzero⟩ | ⟨hle, -⟩ <;> omega

/-! ### The parts of a text -/

theorem pieces_of_placeholder? (h : placeholder? cs = some (p, rest)) :
    pieces cs = .placeholder p :: pieces rest := by
  cases cs with
  | nil => cases h
  | cons c cs =>
    rw [pieces]
    split <;> rename_i h'
    · rw [h] at h'
      cases h'
      rfl
    · rw [h] at h'
      cases h'

theorem pieces_of_none (h : placeholder? (c :: cs) = none) :
    pieces (c :: cs) = .char c :: pieces cs := by
  rw [pieces]
  split <;> rename_i h'
  · rw [h] at h'
    cases h'
  · rfl

/-- The parts' characters in a row are the text. -/
theorem written_pieces (cs : List Char) : (pieces cs).flatMap Piece.written = cs := by
  fun_induction pieces cs with
  | case1 => rfl
  | case2 c rest p after h ih =>
    rw [List.flatMap_cons, ih]
    exact (formed_of_placeholder? h).2
  | case3 c rest h ih =>
    rw [List.flatMap_cons, ih]
    rfl

theorem standsAt_cons_iff {x y : Piece} {ps : List Piece} : StandsAt (x :: ps) i y ↔
    (y = x ∧ i = 0) ∨ (x.written.length ≤ i ∧ StandsAt ps (i - x.written.length) y) := by
  constructor
  · rintro ⟨front, back, hparts, hi⟩
    cases front with
    | nil =>
      cases hparts
      exact .inl ⟨rfl, hi.symm⟩
    | cons z front =>
      cases hparts
      rw [List.flatMap_cons, List.length_append] at hi
      exact .inr ⟨by omega, front, back, rfl, by omega⟩
  · rintro (⟨rfl, rfl⟩ | ⟨hle, front, back, rfl, hi⟩)
    · exact ⟨[], ps, rfl, rfl⟩
    · refine ⟨x :: front, back, rfl, ?_⟩
      rw [List.flatMap_cons, List.length_append, hi]
      omega

/-- The placeholders among the parts are the occurrences. -/
theorem occursAt_iff (cs : List Char) :
    ∀ i p, OccursAt cs i p ↔ StandsAt (pieces cs) i (.placeholder p) := by
  fun_induction pieces cs with
  | case1 =>
    refine fun i p => iff_of_false not_occursAt_nil ?_
    rintro ⟨front, back, hparts, -⟩
    exact List.append_ne_nil_of_right_ne_nil front (List.cons_ne_nil _ _) hparts.symm
  | case2 c rest q after h ih =>
    intro i p
    obtain ⟨hformed, htext⟩ := formed_of_placeholder? h
    rw [← htext, occursAt_append_iff hformed, standsAt_cons_iff, ih, Piece.placeholder.injEq]
    rfl
  | case3 c rest h ih =>
    intro i p
    rw [standsAt_cons_iff, ← ih]
    cases i with
    | zero =>
      rw [occursAt_zero_iff, h]
      exact iff_of_false (by rintro ⟨_, ⟨⟩⟩) (by rintro (⟨⟨⟩, -⟩ | ⟨hle, -⟩); cases hle)
    | succ i =>
      exact ⟨fun hoccurs => .inr ⟨Nat.le_add_left 1 i, hoccurs⟩,
        fun hstands => hstands.elim (fun h => nomatch h.1) And.right⟩

end Playscript.Template

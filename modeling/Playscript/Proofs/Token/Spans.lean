/-
# A token's span runs from its first byte to its last

The place of a byte is read off the bytes in front of it: a line further for
each line feed, and a column further for each byte since the last of these
(`Place.behind`). A token starts where the first byte of its lexeme stands and
stops where the last one does, and the tokens stand in a row without overlap,
the end of file behind them all (`Source.tokens_spanned`).

One token stops elsewhere. The last place of a span is found from the place
behind the lexeme, a column back on the same line. A string without its second
quote may end in a line feed, behind which a new line starts; its span stops
there, at the end of file, and not at its last byte (`unclosed_overlaps`).

Key definitions: `Place.behind`, `Source.placeAt`, `Lexeme.breaksOff`, `Source.Spanned`.
Key theorems: `Place.behind_lt`, `Placed.span_behind`, `Source.tokens_spanned`.
-/
import Playscript.Proofs.Token.Faithful
import Mathlib.Data.List.Induction

namespace Playscript

open String (utf8Len)

/-! ### Places of bytes -/

namespace Place

/-- Earlier in the text. -/
instance : LT Place := ⟨fun a b => a.line < b.line ∨ (a.line = b.line ∧ a.column < b.column)⟩

theorem lt_def {a b : Place} :
    a < b ↔ a.line < b.line ∨ (a.line = b.line ∧ a.column < b.column) := Iff.rfl

theorem lt_trans {a b c : Place} (hab : a < b) (hbc : b < c) : a < c := by
  simp only [lt_def] at *; omega

theorem lt_of_lt_of_le {a b c : Place} (hab : a < b) (hbc : b ≤ c) : a < c := by
  simp only [lt_def, le_def] at *; omega

theorem lt_of_le_of_lt {a b c : Place} (hab : a ≤ b) (hbc : b < c) : a < c := by
  simp only [lt_def, le_def] at *; omega

theorem le_of_lt {a b : Place} (h : a < b) : a ≤ b := by
  simp only [lt_def, le_def] at *; omega

instance (a b : Place) : Decidable (a < b) :=
  inferInstanceAs (Decidable (a.line < b.line ∨ (a.line = b.line ∧ a.column < b.column)))

/-- The place behind some bytes: one line for each line feed among them, and one column for each
byte since the last line feed. -/
def behind (bytes : List UInt8) : Place :=
  ⟨bytes.count (byteOf '\n') + 1, (bytes.reverse.takeWhile (· != byteOf '\n')).length + 1⟩

variable {bytes more : List UInt8} {b : UInt8}

/-- A line feed starts a line. -/
theorem behind_lineFeed (bytes : List UInt8) :
    behind (bytes ++ [byteOf '\n']) = ⟨(behind bytes).line + 1, 1⟩ := by
  simp [behind, List.count_append]

/-- Any other byte is a column. -/
theorem behind_concat (h : b ≠ byteOf '\n') :
    behind (bytes ++ [b]) = ⟨(behind bytes).line, (behind bytes).column + 1⟩ := by
  simp [behind, List.count_append, h]

theorem one_le_column (bytes : List UInt8) : 1 ≤ (behind bytes).column := Nat.le_add_left ..

theorem behind_lt_concat (bytes : List UInt8) (b : UInt8) :
    behind bytes < behind (bytes ++ [b]) := by
  rw [lt_def]
  by_cases h : b = byteOf '\n'
  · rw [h, behind_lineFeed]
    exact .inl (Nat.lt_succ_self _)
  · rw [behind_concat h]
    exact .inr ⟨rfl, Nat.lt_succ_self _⟩

/-- Every byte is further on than those in front of it. -/
theorem behind_lt (bytes : List UInt8) (h : more ≠ []) :
    behind bytes < behind (bytes ++ more) := by
  induction more using List.reverseRecOn with
  | nil => exact absurd rfl h
  | append_singleton more b ih =>
    rw [← List.append_assoc]
    rcases eq_or_ne more [] with rfl | hne
    · rw [List.append_nil]
      exact behind_lt_concat bytes b
    · exact lt_trans (ih hne) (behind_lt_concat _ b)

theorem behind_append (h : ∀ c ∈ more, c ≠ byteOf '\n') :
    behind (bytes ++ more) = ⟨(behind bytes).line, (behind bytes).column + more.length⟩ := by
  induction more using List.reverseRecOn with
  | nil => simp
  | append_singleton more b ih =>
    have hb : b ≠ byteOf '\n' := h b (by simp)
    rw [← List.append_assoc, behind_concat hb, ih fun c hc => h c (by simp [hc]),
      List.length_append, Nat.add_assoc]
    rfl

theorem behind_le (bytes more : List UInt8) : behind bytes ≤ behind (bytes ++ more) := by
  rcases eq_or_ne more [] with rfl | hne
  · rw [List.append_nil]
    exact le_refl _
  · exact le_of_lt (behind_lt bytes hne)

/-- The place after a character is the place behind its bytes. -/
theorem after_behind (bytes : List UInt8) (c : Char) :
    (behind bytes).after c = behind (bytes ++ String.utf8EncodeChar c) := by
  by_cases hc : c = '\n'
  · subst hc
    rw [after, if_pos rfl, utf8EncodeChar_of_lt (by decide), behind_lineFeed]
  · have hne : ∀ b ∈ String.utf8EncodeChar c, b ≠ byteOf '\n' := fun b hb =>
      bne_iff_ne.1 ((Tells.ne (d := '\n') (by decide)).all c (bne_iff_ne.2 hc) b hb)
    rw [after, if_neg hc, behind_append hne, String.length_utf8EncodeChar]

theorem afterAll_behind (bytes : List UInt8) (cs : List Char) :
    (behind bytes).afterAll cs = behind (bytes ++ encode cs) := by
  induction cs generalizing bytes with
  | nil => rw [afterAll_nil, encode, List.flatMap_nil, List.append_nil]
  | cons c cs ih => rw [afterAll_cons, after_behind, ih, encode_cons, List.append_assoc]

/-- The place before the place behind a byte, on the same line, is that of the byte; a line feed has
none. -/
theorem back_behind (bytes : List UInt8) (b : UInt8) :
    (⟨(behind (bytes ++ [b])).line, max ((behind (bytes ++ [b])).column - 1) 1⟩ : Place) =
      if b = byteOf '\n' then behind (bytes ++ [b]) else behind bytes := by
  split
  · rename_i h
    rw [h, behind_lineFeed]
    rfl
  · rename_i h
    rw [behind_concat h, Nat.add_sub_cancel, Nat.max_eq_left (one_le_column bytes)]

end Place

/-! ### The last byte of a lexeme -/

namespace Lexeme

/-- A string without its second quote, cut off behind a line feed. -/
def breaksOff : Lexeme → Bool
  | quoted body false => body.getLast? == some '\n'
  | _ => false

variable {l : Lexeme} {cs : List Char}

/-- Other tokens do not end in a line feed. -/
theorem Leads.getLast?_text (h : l.Leads cs) (hl : l.kind? ≠ none) :
    l.text.getLast? = some '\n' ↔ l.breaksOff := by
  cases l with
  | word t =>
    obtain ⟨c, rest, rfl, hc, hrest⟩ := h.2.1
    refine iff_of_false (fun hlast => ?_) Bool.false_ne_true
    have hnot : ¬ continuesName '\n' := by decide
    rcases List.mem_cons.1 (List.mem_of_getLast? hlast) with rfl | hmem
    · exact hnot (by simp [continuesName, hc])
    · exact hnot (hrest _ hmem)
  | number whole fraction? =>
    obtain ⟨-, hwhole, hfraction⟩ := h.2.1
    refine iff_of_false (fun hlast => ?_) Bool.false_ne_true
    have hnot : ¬ isDigit '\n' := by decide
    have hmem := List.mem_of_getLast? hlast
    cases fraction? with
    | none => exact hnot (hwhole _ hmem)
    | some fraction =>
      rcases List.mem_append.1 hmem with hmem | hmem
      · exact hnot (hwhole _ hmem)
      · rcases List.mem_cons.1 hmem with hpoint | hmem
        · exact absurd hpoint (by decide)
        · exact hnot ((hfraction fraction rfl).2 _ hmem)
  | quoted body closed =>
    cases closed with
    | true =>
      rw [text, ← List.cons_append, List.getLast?_concat]
      exact iff_of_false (by decide) Bool.false_ne_true
    | false =>
      cases body with
      | nil => decide
      | cons c body => simp [text, breaksOff]
  | mark m => cases m <;> decide
  | _ => exact absurd rfl hl

/-- A lexeme that is a token has a last byte, a line feed only where a string breaks off. -/
theorem Leads.encode_text (h : l.Leads cs) (hl : l.kind? ≠ none) :
    ∃ bytes b, encode l.text = bytes ++ [b] ∧ (b = byteOf '\n' ↔ l.breaksOff) := by
  obtain ⟨cs, c, htext⟩ := (List.eq_nil_or_concat' l.text).resolve_left h.text_ne_nil
  obtain ⟨bytes, b, hbytes⟩ :=
    (List.eq_nil_or_concat' (String.utf8EncodeChar c)).resolve_left (utf8EncodeChar_ne_nil c)
  have hlast : l.breaksOff ↔ c = '\n' := by
    rw [← h.getLast?_text hl, htext, List.getLast?_concat, Option.some_inj]
  refine ⟨encode cs ++ bytes, b, ?_, ?_⟩
  · have hone : encode [c] = String.utf8EncodeChar c := List.append_nil _
    rw [htext, encode_append, hone, hbytes, List.append_assoc]
  rw [hlast]
  refine ⟨fun hb => ?_, fun hc => ?_⟩
  · by_contra hc
    have hmem : b ∈ String.utf8EncodeChar c := hbytes ▸ List.mem_append_right _ (by simp)
    exact bne_iff_ne.1 ((Tells.ne (d := '\n') (by decide)).all c (bne_iff_ne.2 hc) b hmem) hb
  · subst hc
    rw [utf8EncodeChar_of_lt (by decide)] at hbytes
    have hconcat : bytes ++ [b] = [] ++ [byteOf '\n'] := hbytes.symm
    exact (List.cons.inj (List.append_inj' hconcat rfl).2).1

/-- A string breaks off where the text ends. -/
theorem Leads.rest_nil {rest : List Char} (h : l.Leads (l.text ++ rest)) (hb : l.breaksOff) :
    rest = [] := by
  have hstops := h.stops
  unfold breaksOff at hb
  split at hb
  · exact hstops
  · cases hb

end Lexeme

/-! ### The spans of placed lexemes -/

namespace Placed

variable {l : Lexeme} {cs : List Char}

/-- The span of a token stops at the last byte of the lexeme, or behind it where a string breaks
off. -/
theorem span_behind (h : l.Leads cs) (hl : l.kind? ≠ none) (front : List UInt8) :
    Placed.span ⟨l, .behind front⟩ =
      ⟨.behind front, .behind (front ++ (encode l.text).take
        (utf8Len l.text - if l.breaksOff then 0 else 1))⟩ := by
  obtain ⟨bytes, b, hbytes, hlast⟩ := h.encode_text hl
  have hnext : Placed.next ⟨l, .behind front⟩ = .behind (front ++ bytes ++ [b]) := by
    rw [Placed.next, Place.afterAll_behind, hbytes, List.append_assoc]
  rw [Placed.span, hnext, Place.back_behind, ← length_encode, hbytes]
  by_cases hb : l.breaksOff
  · rw [if_pos (hlast.2 hb), if_pos hb, Nat.sub_zero, List.take_length, List.append_assoc]
  · rw [if_neg (fun h => hb (hlast.1 h)), if_neg hb, List.length_append, List.length_singleton,
      Nat.add_sub_cancel, List.take_left]

/-- The span of a token is not the wrong way round. -/
theorem start_le_stop (h : l.Leads cs) (hl : l.kind? ≠ none) (front : List UInt8) :
    (Placed.span ⟨l, .behind front⟩).start ≤ (Placed.span ⟨l, .behind front⟩).stop := by
  rw [span_behind h hl]
  exact Place.behind_le _ _

/-- Where no string breaks off, a span stops before the text goes on. -/
theorem stop_lt (h : l.Leads cs) (hl : l.kind? ≠ none) (hb : ¬ l.breaksOff)
    (front : List UInt8) :
    (Placed.span ⟨l, .behind front⟩).stop < .behind (front ++ encode l.text) := by
  have hpos : 0 < utf8Len l.text :=
    Nat.pos_of_ne_zero fun hz => h.text_ne_nil (String.utf8Len_eq_zero.1 hz)
  rw [span_behind h hl, if_neg hb]
  conv_rhs => rw [← List.take_append_drop (utf8Len l.text - 1) (encode l.text),
    ← List.append_assoc]
  refine Place.behind_lt _ fun hnil => ?_
  rw [List.drop_eq_nil_iff, length_encode] at hnil
  omega

/-- Where a string breaks off, the span stops where the text ends. -/
theorem stop_eq (h : l.Leads cs) (hl : l.kind? ≠ none) (hb : l.breaksOff) (front : List UInt8) :
    (Placed.span ⟨l, .behind front⟩).stop = .behind (front ++ encode l.text) := by
  rw [span_behind h hl, if_pos hb, Nat.sub_zero, ← length_encode, List.take_length]

end Placed

/-- A token stands for a lexeme, behind those of the tokens in front of it. -/
theorem tokens_layOut {start : Place} {ls : List Lexeme} {ts us : List Token} {t : Token}
    (h : (layOut start ls).filterMap Placed.token? = ts ++ t :: us) :
    ∃ front l back, ls = front ++ l :: back ∧
      front.filterMap Lexeme.kind? = ts.map (·.kind) ∧ l.kind? = some t.kind ∧
      t.span = Placed.span ⟨l, start.afterAll (front.flatMap Lexeme.text)⟩ := by
  induction ls generalizing start ts with
  | nil => simp [layOut] at h
  | cons l ls ih =>
    rw [layOut] at h
    cases hl : l.kind? with
    | none =>
      rw [List.filterMap_cons_none (by rw [Placed.token?, hl]; rfl)] at h
      obtain ⟨front, k, back, rfl, hfront, hk, hspan⟩ := ih h
      refine ⟨l :: front, k, back, rfl, ?_, hk, ?_⟩
      · rw [List.filterMap_cons_none hl, hfront]
      · rw [hspan, List.flatMap_cons, Place.afterAll_append]
    | some kind =>
      rw [List.filterMap_cons_some (by rw [Placed.token?, hl]; rfl)] at h
      cases ts with
      | nil =>
        obtain ⟨rfl, -⟩ := List.cons.inj h
        exact ⟨[], l, ls, rfl, rfl, hl, rfl⟩
      | cons u ts =>
        obtain ⟨rfl, hrest⟩ := List.cons.inj h
        obtain ⟨front, k, back, rfl, hfront, hk, hspan⟩ := ih hrest
        refine ⟨l :: front, k, back, rfl, ?_, hk, ?_⟩
        · rw [List.filterMap_cons_some hl, hfront]
          rfl
        · rw [hspan, List.flatMap_cons, Place.afterAll_append]

/-- The tokens of a text stand in a row, and the end of file behind them. `breaks` says that a
string may break off. -/
theorem Cuts.ordered {cs : List Char} {ls : List Lexeme} (h : Cuts cs ls) (breaks : Prop)
    (hbreaks : ∀ l ∈ ls, l.breaksOff → breaks) {e : Token} (front : List UInt8)
    (he : e.span = .point (.behind (front ++ encode cs))) :
    (∀ t ∈ (layOut (.behind front) ls).filterMap Placed.token? ++ [e],
      .behind front ≤ t.span.start ∧ t.span.start ≤ t.span.stop) ∧
    ((layOut (.behind front) ls).filterMap Placed.token? ++ [e]).Pairwise fun t u =>
      t.span.stop < u.span.start ∨ (breaks ∧ u = e ∧ t.span.stop = u.span.start) := by
  induction h generalizing front with
  | nil =>
    refine ⟨?_, List.pairwise_singleton _ _⟩
    intro t ht
    obtain rfl : t = e := by simpa [layOut] using ht
    rw [he]
    exact ⟨Place.behind_le _ _, Place.le_refl _⟩
  | @cons l rest ls hleads hcuts ih =>
    rw [encode_append, ← List.append_assoc] at he
    obtain ⟨hfurther, hrow⟩ := ih (fun k hk => hbreaks k (List.mem_cons_of_mem l hk)) _ he
    have hbelow : ∀ t ∈ (layOut (.behind (front ++ encode l.text)) ls).filterMap Placed.token?
        ++ [e], .behind front ≤ t.span.start ∧ t.span.start ≤ t.span.stop := fun t ht =>
      ⟨Place.le_trans (Place.behind_le front (encode l.text)) (hfurther t ht).1, (hfurther t ht).2⟩
    rw [layOut, Place.afterAll_behind]
    cases hl : l.kind? with
    | none =>
      rw [List.filterMap_cons_none (by rw [Placed.token?, hl]; rfl)]
      exact ⟨hbelow, hrow⟩
    | some kind =>
      have htoken : l.kind? ≠ none := by simp [hl]
      rw [List.filterMap_cons_some (by rw [Placed.token?, hl]; rfl), List.cons_append]
      refine ⟨List.forall_mem_cons.2 ⟨⟨Place.le_refl _, ?_⟩, hbelow⟩,
        List.pairwise_cons.2 ⟨fun u hu => ?_, hrow⟩⟩
      · exact Placed.start_le_stop hleads htoken front
      by_cases hb : l.breaksOff
      · -- nothing but the end of file follows
        obtain rfl : rest = [] := hleads.rest_nil hb
        obtain rfl : ls = [] := (lexemes_eq_iff.2 hcuts).symm.trans lexemes.eq_1
        obtain rfl : u = e := by simpa [layOut] using hu
        refine .inr ⟨hbreaks l List.mem_cons_self hb, rfl, ?_⟩
        have hnil : encode [] = [] := rfl
        rw [he, hnil, List.append_nil]
        exact Placed.stop_eq hleads htoken hb front
      · exact .inl (Place.lt_of_lt_of_le (Placed.stop_lt hleads htoken hb front) (hfurther u hu).1)

/-! ### The tokens of a source -/

namespace Source

/-- The bytes that a source is kept as. -/
def bytes (s : Source) : List UInt8 := s.text.toByteArray.data.toList

/-- The place of a byte, counted from 0; past the last byte the place where the text ends. -/
def placeAt (s : Source) (n : Nat) : Place := .behind (s.bytes.take n)

variable {s : Source}

theorem placeAt_eq {front back : List UInt8} {n : Nat} (h : s.bytes = front ++ back)
    (hn : n = front.length) : s.placeAt n = .behind front := by
  rw [placeAt, h, hn, List.take_left]

/-- Whether the last lexeme of a source is a string that breaks off behind a line feed. -/
def BreaksOff (s : Source) : Prop := ∃ l ∈ lexemes s.text.toList, l.breaksOff

/-- The spans of the tokens of a source. -/
structure Spanned (s : Source) : Prop where
  /-- A token starts at the first byte of its lexeme and stops at the last, or behind it where
  a string breaks off. -/
  exact : ∀ ts t us, s.lex.tokens = ts ++ t :: us → t.kind ≠ .endOfFile → ∃ front l back,
    lexemes s.text.toList = front ++ l :: back ∧
    front.filterMap Lexeme.kind? = ts.map (·.kind) ∧ l.kind? = some t.kind ∧
    t.span.start = s.placeAt (utf8Len (front.flatMap Lexeme.text)) ∧
    t.span.stop = s.placeAt (utf8Len (front.flatMap Lexeme.text) +
      (utf8Len l.text - if l.breaksOff then 0 else 1))
  /-- The end of file stands behind the last byte. -/
  ended : s.endOfFile.span = .point (s.placeAt s.bytes.length)
  /-- No span is the wrong way round. -/
  forward : ∀ t ∈ s.lex.tokens, t.span.start ≤ t.span.stop
  /-- A token stops before another starts, the end of file included; a string that breaks off stops
  where the end of file stands. -/
  ordered : s.lex.tokens.Pairwise fun t u => t.span.stop < u.span.start ∨
    (s.BreaksOff ∧ u = s.endOfFile ∧ t.span.stop = u.span.start)

theorem bytes_eq (s : Source) : s.bytes = encode s.text.toList := toByteArray_toList s.text

theorem span_endOfFile (s : Source) :
    s.endOfFile.span = .point (.behind (encode s.text.toList)) := by
  have hfirst : Place.first = .behind [] := rfl
  rw [endOfFile, hfirst, Place.afterAll_behind, List.nil_append]

theorem tokens_exact {ts us : List Token} {t : Token} (h : s.tokens = ts ++ t :: us)
    (ht : t.kind ≠ .endOfFile) : ∃ front l back,
      lexemes s.text.toList = front ++ l :: back ∧
      front.filterMap Lexeme.kind? = ts.map (·.kind) ∧ l.kind? = some t.kind ∧
      t.span.start = s.placeAt (utf8Len (front.flatMap Lexeme.text)) ∧
      t.span.stop = s.placeAt (utf8Len (front.flatMap Lexeme.text) +
        (utf8Len l.text - if l.breaksOff then 0 else 1)) := by
  -- what stands behind the token ends in the end of file
  obtain ⟨us, x, rfl⟩ : ∃ vs x, us = vs ++ [x] := by
    refine (List.eq_nil_or_concat' us).resolve_left ?_
    rintro rfl
    obtain ⟨-, hlast⟩ := List.append_inj' h rfl
    exact ht (by rw [← (List.cons.inj hlast).1]; rfl)
  rw [← List.cons_append, ← List.append_assoc] at h
  obtain ⟨htokens, -⟩ := List.append_inj' h rfl
  obtain ⟨front, l, back, hls, hfront, hl, hspan⟩ := tokens_layOut htokens
  have hcuts := cuts_lexemes s.text.toList
  rw [hls] at hcuts
  have hfirst : Place.first = .behind [] := rfl
  rw [hfirst, Place.afterAll_behind, List.nil_append,
    Placed.span_behind hcuts.leads (by simp [hl])] at hspan
  have htext : s.bytes = encode (front.flatMap Lexeme.text) ++
      (encode l.text ++ encode (back.flatMap Lexeme.text)) := by
    rw [bytes_eq, ← hcuts.text_eq, ← encode_append, ← encode_append]
    simp
  refine ⟨front, l, back, hls, hfront, hl, ?_, ?_⟩
  · rw [hspan, placeAt_eq htext (length_encode _).symm]
  · generalize hsize : (utf8Len l.text - if l.breaksOff then 0 else 1) = size at hspan
    rw [← List.take_append_drop size (encode l.text), List.append_assoc, ← List.append_assoc]
      at htext
    rw [hspan, placeAt_eq htext]
    rw [List.length_append, List.length_take, length_encode, length_encode]
    omega

theorem tokens_spanned (s : Source) : s.Spanned := by
  have hrow := (cuts_lexemes s.text.toList).ordered s.BreaksOff
    (fun l hl hb => ⟨l, hl, hb⟩) [] s.span_endOfFile
  exact {
    exact := fun _ _ _ h ht => tokens_exact h ht
    ended := by rw [span_endOfFile, placeAt, List.take_length, bytes_eq]
    forward := fun t ht => (hrow.1 t ht).2
    ordered := hrow.2 }

/-- A string cut off behind a line feed. -/
def unclosed : Source := ⟨"main", "\"ab\n"⟩

/-- The last of its four bytes is on the first line; its span stops on the second, where the end of
file stands. -/
theorem unclosed_overlaps :
    unclosed.lex.tokens = [⟨.string "ab\n", ⟨⟨1, 1⟩, ⟨2, 1⟩⟩⟩, ⟨.endOfFile, ⟨⟨2, 1⟩, ⟨2, 1⟩⟩⟩] ∧
      unclosed.bytes.length = 4 ∧ unclosed.placeAt 3 = ⟨1, 4⟩ ∧
      (⟨2, 1⟩ : Place) ≠ unclosed.placeAt 3 ∧ ¬ (⟨2, 1⟩ : Place) < ⟨2, 1⟩ := by
  have htext : unclosed.text.toList = ['"', 'a', 'b', '\n'] := by decide
  have hlexemes : lexemes unclosed.text.toList = [.quoted ['a', 'b', '\n'] false] := by
    have hnext : nextLexeme '"' ['a', 'b', '\n'] = (.quoted ['a', 'b', '\n'] false, []) := rfl
    rw [htext, lexemes.eq_2, hnext, lexemes.eq_1]
  have hplace : unclosed.placeAt 3 = ⟨1, 4⟩ := by decide
  refine ⟨?_, by decide, hplace, by decide, by decide⟩
  rw [lex, tokens, placed, hlexemes]
  decide

end Source

end Playscript

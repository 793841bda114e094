/-
# Reading lexemes byte by byte

A text is kept as the bytes of its UTF-8 form. `scan?` walks these bytes and
looks at nothing else: it finds where each lexeme ends, and takes the lexeme's
characters as the slice between two offsets. A slice whose ends lie inside
a character fails. None does (`scan?_eq_lexemes`): no byte of a character past
the first 128 is taken for one of the characters below them, so a scan of bytes
ends a lexeme where a scan of characters ends it.

Key definitions: `Extent`, `nextExtent`, `slice?`, `scan?`.
Key theorems: `nextExtent_encode`, `Lexeme.lexeme?_extent`, `scan?_eq_lexemes`.
-/
import Playscript.Proofs.Token.Munch
import Mathlib.Data.String.Basic

namespace Playscript

open String (utf8Len)

/-! ### Bytes -/

/-- The bytes of a text. -/
def encode (cs : List Char) : List UInt8 := cs.flatMap String.utf8EncodeChar

/-- The byte of one of the first 128 characters. -/
def byteOf (c : Char) : UInt8 := UInt8.ofNat c.toNat

/-- Whether a byte is that of a character with some property among the first 128. -/
def isByteOf (p : Char → Bool) (b : UInt8) : Bool := b.toNat < 128 && p (Char.ofNat b.toNat)

/-- How many bytes the character has that a byte starts. -/
def sizeFrom (b : UInt8) : Nat :=
  if b.toNat < 0x80 then 1 else if b.toNat < 0xE0 then 2 else if b.toNat < 0xF0 then 3 else 4

/-! ### Scanning -/

/-- What a scan of bytes finds out about a lexeme: its class and how many bytes its parts have. -/
inductive Extent where
  | blank
  | comment (body : Nat)
  | word (size : Nat)
  | number (whole : Nat) (fraction? : Option Nat)
  | quoted (body : Nat) (closed : Bool)
  | mark (m : Mark)
  | unknown (size : Nat)
deriving DecidableEq

/-- How many bytes a lexeme has. -/
def Extent.size : Extent → Nat
  | blank => 1
  | comment body => body + 2
  | word size => size
  | number whole none => whole
  | number whole (some fraction) => whole + 1 + fraction
  | quoted body true => body + 2
  | quoted body false => body + 1
  | mark m => m.text.length
  | unknown size => size

/-- The first lexeme of a nonempty text, from its bytes. -/
def nextExtent (b : UInt8) (rest : List UInt8) : Extent :=
  if isByteOf isBlank b then .blank
  else if b = byteOf '"' then
    let body := rest.takeWhile (· != byteOf '"')
    .quoted body.length (body.length < rest.length)
  else if isByteOf isDigit b then
    let whole := (rest.takeWhile (isByteOf isDigit)).length + 1
    let after := rest.dropWhile (isByteOf isDigit)
    if after.head? = some (byteOf '.') ∧ after.tail.head?.any (isByteOf isDigit) then
      .number whole (some (after.tail.takeWhile (isByteOf isDigit)).length)
    else .number whole none
  else if isByteOf startsName b then
    .word ((rest.takeWhile (isByteOf continuesName)).length + 1)
  else if b = byteOf '/' ∧ rest.head? = some (byteOf '/') then
    .comment (rest.tail.takeWhile (· != byteOf '\n')).length
  else if b = byteOf '=' ∧ rest.head? = some (byteOf '=') then .mark .equal
  else if b.toNat < 128 then
    match Mark.ofChar? (Char.ofNat b.toNat) with
    | some m => .mark m
    | none => .unknown 1
  else .unknown (sizeFrom b)

/-- The characters between two offsets, if neither lies inside a character. -/
def slice? (s : String) (start stop : Nat) : Option (List Char) :=
  if String.Pos.Raw.isValid s ⟨start⟩ ∧ String.Pos.Raw.isValid s ⟨stop⟩ then
    some (String.Pos.Raw.extract s ⟨start⟩ ⟨stop⟩).toList
  else none

/-- The lexeme of an extent that starts at an offset. -/
def Extent.lexeme? (s : String) (start : Nat) (e : Extent) : Option Lexeme :=
  match e with
  | blank => do
    match ← slice? s start (start + 1) with
    | [c] => some (.blank c)
    | _ => none
  | comment body => return .comment (← slice? s (start + 2) (start + 2 + body))
  | word size => return .word (← slice? s start (start + size))
  | number whole none => return .number (← slice? s start (start + whole)) none
  | number whole (some fraction) => do
    let digits ← slice? s start (start + whole)
    return .number digits (some (← slice? s (start + whole + 1) (start + whole + 1 + fraction)))
  | quoted body closed => return .quoted (← slice? s (start + 1) (start + 1 + body)) closed
  | mark m => some (.mark m)
  | unknown size => do
    match ← slice? s start (start + size) with
    | [c] => some (.unknown c)
    | _ => none

/-- The lexemes of what follows an offset, if no slice on the way fails. -/
def scanFrom? (s : String) (start : Nat) : List UInt8 → Option (List Lexeme)
  | [] => some []
  | b :: rest => do
    let e := nextExtent b rest
    let l ← e.lexeme? s start
    let ls ← scanFrom? s (start + e.size) (rest.drop (e.size - 1))
    return l :: ls
termination_by bytes => bytes.length
decreasing_by
  simp only [List.length_cons, List.length_drop]
  omega

/-- The lexemes of a text, from its bytes. -/
def scan? (s : String) : Option (List Lexeme) := scanFrom? s 0 s.toByteArray.data.toList

/-! ### Bytes of characters -/

section Encoding

variable {c d : Char} {b : UInt8} {bs : List UInt8} {cs : List Char}

theorem encode_cons (c : Char) (cs : List Char) :
    encode (c :: cs) = String.utf8EncodeChar c ++ encode cs := List.flatMap_cons ..

theorem encode_append (cs ds : List Char) : encode (cs ++ ds) = encode cs ++ encode ds :=
  List.flatMap_append ..

theorem length_encode (cs : List Char) : (encode cs).length = utf8Len cs := by
  induction cs with
  | nil => rfl
  | cons c cs ih =>
    rw [encode_cons, List.length_append, ih, String.length_utf8EncodeChar, String.utf8Len_cons,
      Nat.add_comm]

theorem utf8EncodeChar_of_lt (h : c.toNat < 128) : String.utf8EncodeChar c = [byteOf c] := by
  have hle : c.val.toNat ≤ 127 := Nat.le_of_lt_succ h
  rw [String.utf8EncodeChar]
  exact if_pos hle

theorem utf8Len_cons_of_lt (h : c.toNat < 128) : utf8Len (c :: cs) = utf8Len cs + 1 := by
  have hsize := String.length_utf8EncodeChar c
  rw [utf8EncodeChar_of_lt h] at hsize
  rw [String.utf8Len_cons, ← hsize]
  rfl

theorem toNat_ofNat {n : Nat} (h : n < 256) : (UInt8.ofNat n).toNat = n := by
  rw [UInt8.toNat_ofNat']
  exact Nat.mod_eq_of_lt h

theorem toNat_byteOf (h : c.toNat < 128) : (byteOf c).toNat = c.toNat := toNat_ofNat (by omega)

theorem byteOf_eq_iff (hc : c.toNat < 128) (hd : d.toNat < 128) : byteOf c = byteOf d ↔ c = d := by
  refine ⟨fun h => ?_, fun h => h ▸ rfl⟩
  rw [← Char.toNat_inj, ← toNat_byteOf hc, ← toNat_byteOf hd, h]

theorem isByteOf_byteOf (p : Char → Bool) (h : c.toNat < 128) : isByteOf p (byteOf c) = p c := by
  rw [isByteOf, toNat_byteOf h, Char.ofNat_toNat, decide_eq_true h, Bool.true_and]

theorem isByteOf_of_le (p : Char → Bool) (h : 128 ≤ b.toNat) : isByteOf p b = false := by
  rw [isByteOf, decide_eq_false (Nat.not_lt.2 h), Bool.false_and]

theorem byteOf_ne_of_le (hd : d.toNat < 128) (h : 128 ≤ b.toNat) : b ≠ byteOf d := by
  rintro rfl
  rw [toNat_byteOf hd] at h
  omega

/-- Past the first 128 characters no byte is that of a character below, and the first byte tells
how many there are. -/
theorem utf8EncodeChar_of_le (h : 128 ≤ c.toNat) :
    (∀ b ∈ String.utf8EncodeChar c, 128 ≤ b.toNat) ∧
      ∃ b bs, String.utf8EncodeChar c = b :: bs ∧ sizeFrom b = c.utf8Size := by
  have hlow : ¬ c.val.toNat ≤ 127 := Nat.not_le.2 h
  rw [← String.length_utf8EncodeChar]
  simp only [String.utf8EncodeChar, if_neg hlow]
  generalize c.val.toNat = v at hlow
  split
  · refine ⟨?_, _, _, rfl, ?_⟩
    · simp only [List.forall_mem_cons, List.not_mem_nil, false_implies, implies_true, and_true]
      constructor <;> rw [toNat_ofNat (by omega)] <;> omega
    · rw [sizeFrom, toNat_ofNat (by omega), if_neg (by omega), if_pos (by omega)]
      rfl
  split
  · refine ⟨?_, _, _, rfl, ?_⟩
    · simp only [List.forall_mem_cons, List.not_mem_nil, false_implies, implies_true, and_true]
      refine ⟨?_, ?_, ?_⟩ <;> rw [toNat_ofNat (by omega)] <;> omega
    · rw [sizeFrom, toNat_ofNat (by omega), if_neg (by omega), if_neg (by omega),
        if_pos (by omega)]
      rfl
  · refine ⟨?_, _, _, rfl, ?_⟩
    · simp only [List.forall_mem_cons, List.not_mem_nil, false_implies, implies_true, and_true]
      refine ⟨?_, ?_, ?_, ?_⟩ <;> rw [toNat_ofNat (by omega)] <;> omega
    · rw [sizeFrom, toNat_ofNat (by omega), if_neg (by omega), if_neg (by omega),
        if_neg (by omega)]
      rfl

/-! ### Runs of bytes -/

/-- Bytes of characters with a property, and of no others, are told by a property of bytes. -/
structure Tells (p : Char → Bool) (q : UInt8 → Bool) : Prop where
  all : ∀ c, p c → ∀ b ∈ String.utf8EncodeChar c, q b
  first : ∀ c, ¬ p c → ∀ b bs, String.utf8EncodeChar c = b :: bs → ¬ q b

theorem utf8EncodeChar_ne_nil (c : Char) : String.utf8EncodeChar c ≠ [] := by
  intro h
  have hsize := String.length_utf8EncodeChar c
  rw [h] at hsize
  exact absurd hsize.symm (Nat.ne_of_gt c.utf8Size_pos)

theorem Tells.takeWhile {p : Char → Bool} {q : UInt8 → Bool} (h : Tells p q) (cs : List Char) :
    (encode cs).takeWhile q = encode (cs.takeWhile p) ∧
      (encode cs).dropWhile q = encode (cs.dropWhile p) := by
  induction cs with
  | nil => exact ⟨rfl, rfl⟩
  | cons c cs ih =>
    rw [encode_cons]
    by_cases hc : p c
    · rw [List.takeWhile_append_of_pos (h.all c hc), List.dropWhile_append_of_pos (h.all c hc),
        List.takeWhile_cons_of_pos hc, List.dropWhile_cons_of_pos hc, encode_cons, ih.1, ih.2]
      exact ⟨rfl, rfl⟩
    · obtain ⟨b, bs, hb⟩ := List.exists_cons_of_ne_nil (utf8EncodeChar_ne_nil c)
      have hq : ¬ q b := h.first c hc b bs hb
      rw [List.takeWhile_cons_of_neg hc, List.dropWhile_cons_of_neg hc, encode_cons, hb,
        List.cons_append, List.takeWhile_cons_of_neg hq, List.dropWhile_cons_of_neg hq]
      exact ⟨rfl, rfl⟩

/-- A property that only some of the first 128 characters have. -/
theorem Tells.isByteOf {p : Char → Bool} (hp : ∀ c, p c → c.toNat < 128) :
    Tells p (isByteOf p) where
  all c hc b hb := by
    rw [utf8EncodeChar_of_lt (hp c hc), List.mem_singleton] at hb
    rw [hb, isByteOf_byteOf p (hp c hc)]
    exact hc
  first c hc b bs hb := by
    rcases Nat.lt_or_ge c.toNat 128 with hlt | hle
    · rw [utf8EncodeChar_of_lt hlt] at hb
      obtain ⟨rfl, -⟩ := List.cons.inj hb
      rwa [isByteOf_byteOf p hlt]
    · have hb : 128 ≤ b.toNat := (utf8EncodeChar_of_le hle).1 b (hb ▸ List.mem_cons_self)
      rw [isByteOf_of_le p hb]
      exact Bool.false_ne_true

/-- Other characters than one of the first 128. -/
theorem Tells.ne (hd : d.toNat < 128) : Tells (· != d) (· != byteOf d) where
  all c hc b hb := by
    rcases Nat.lt_or_ge c.toNat 128 with hlt | hle
    · rw [utf8EncodeChar_of_lt hlt, List.mem_singleton] at hb
      subst hb
      exact bne_iff_ne.2 fun h => bne_iff_ne.1 hc ((byteOf_eq_iff hlt hd).1 h)
    · exact bne_iff_ne.2 (byteOf_ne_of_le hd ((utf8EncodeChar_of_le hle).1 b hb))
  first c hc b bs hb := by
    obtain rfl : c = d := by simpa using hc
    rw [utf8EncodeChar_of_lt hd] at hb
    obtain ⟨rfl, -⟩ := List.cons.inj hb
    simp

end Encoding

/-! ### Lexemes end where their bytes end -/

/-- The extent of a lexeme. -/
def Lexeme.extent : Lexeme → Extent
  | blank _ => .blank
  | comment body => .comment (utf8Len body)
  | word t => .word (utf8Len t)
  | number whole fraction? => .number (utf8Len whole) (fraction?.map utf8Len)
  | quoted body closed => .quoted (utf8Len body) closed
  | mark m => .mark m
  | unknown c => .unknown c.utf8Size

section Extents

variable {c d : Char} {cs rest : List Char} {b : UInt8} {bs : List UInt8}

theorem toNat_lt_of_isBlank (h : isBlank c) : c.toNat < 128 := by
  simp only [isBlank, Bool.or_eq_true, beq_iff_eq] at h
  rcases h with (((rfl | rfl) | rfl) | rfl) | rfl <;> decide

theorem toNat_lt_of_continuesName (h : continuesName c) : c.toNat < 128 := by
  simp only [continuesName, startsName, isLetter, isDigit, Bool.or_eq_true, Bool.and_eq_true,
    decide_eq_true_eq, beq_iff_eq, Char.le_def, UInt32.le_iff_toNat_le] at h
  rcases h with ((⟨-, h⟩ | ⟨-, h⟩) | rfl) | ⟨-, h⟩
  · exact Nat.lt_of_le_of_lt h (by decide)
  · exact Nat.lt_of_le_of_lt h (by decide)
  · decide
  · exact Nat.lt_of_le_of_lt h (by decide)

theorem toNat_lt_of_startsName (h : startsName c) : c.toNat < 128 :=
  toNat_lt_of_continuesName (by simp [continuesName, h])

theorem toNat_lt_of_isDigit (h : isDigit c) : c.toNat < 128 :=
  toNat_lt_of_continuesName (by simp [continuesName, h])

theorem toNat_lt_of_ofChar? {m : Mark} (h : Mark.ofChar? c = some m) : c.toNat < 128 := by
  unfold Mark.ofChar? at h
  split at h <;> first | decide | cases h

theorem encode_cons_of_lt (h : c.toNat < 128) : encode (c :: cs) = byteOf c :: encode cs := by
  rw [encode_cons, utf8EncodeChar_of_lt h]
  rfl

theorem head?_encode_iff (hd : d.toNat < 128) :
    (encode cs).head? = some (byteOf d) ↔ cs.head? = some d := by
  cases cs with
  | nil => exact ⟨nofun, nofun⟩
  | cons c cs =>
    rcases Nat.lt_or_ge c.toNat 128 with hlt | hle
    · rw [encode_cons_of_lt hlt, List.head?_cons, List.head?_cons, Option.some_inj, Option.some_inj,
        byteOf_eq_iff hlt hd]
    · obtain ⟨hall, b, bs, hb, -⟩ := utf8EncodeChar_of_le hle
      have hbyte : b ≠ byteOf d := byteOf_ne_of_le hd (hall b (hb ▸ List.mem_cons_self))
      have hchar : c ≠ d := by
        rintro rfl
        omega
      rw [encode_cons, hb, List.cons_append, List.head?_cons, List.head?_cons, Option.some_inj,
        Option.some_inj]
      exact iff_of_false hbyte hchar

theorem any_head?_encode {p : Char → Bool} (hp : ∀ c, p c → c.toNat < 128) (cs : List Char) :
    (encode cs).head?.any (isByteOf p) = cs.head?.any p := by
  cases cs with
  | nil => rfl
  | cons c cs =>
    obtain ⟨b, bs, hb⟩ := List.exists_cons_of_ne_nil (utf8EncodeChar_ne_nil c)
    rw [encode_cons, hb, List.cons_append, List.head?_cons, List.head?_cons, Option.any_some,
      Option.any_some, Bool.eq_iff_iff]
    refine ⟨fun hq => ?_, fun hc => ?_⟩
    · by_contra hc
      exact (Tells.isByteOf hp).first c hc b bs hb hq
    · exact (Tells.isByteOf hp).all c hc b (hb ▸ List.mem_cons_self)

theorem tail_encode (hd : d.toNat < 128) (h : cs.head? = some d) :
    (encode cs).tail = encode cs.tail := by
  obtain ⟨ds, rfl⟩ := List.head?_eq_some_iff.1 h
  rw [encode_cons_of_lt hd]
  rfl

end Extents

/-! ### The first lexeme by conditions -/

section Conditions

variable {c : Char} {rest : List Char}

/-- A number, with what is looked at behind its digits. -/
theorem nextLexeme_digit (hb : ¬ isBlank c) (hq : c ≠ '"') (hd : isDigit c) :
    (nextLexeme c rest).1 =
      if (rest.dropWhile isDigit).head? = some '.' ∧
          (rest.dropWhile isDigit).tail.head?.any isDigit then
        .number (c :: rest.takeWhile isDigit)
          (some ((rest.dropWhile isDigit).tail.takeWhile isDigit))
      else .number (c :: rest.takeWhile isDigit) none := by
  unfold nextLexeme
  rw [if_neg hb, if_neg hq, if_pos hd]
  dsimp only
  split
  · rename_i d after h
    rw [h]
    by_cases hdigit : isDigit d
    · simp [hdigit]
    · simp [hdigit]
  · rename_i h
    rw [if_neg]
    rintro ⟨hpoint, hany⟩
    obtain ⟨tail, htail⟩ := List.head?_eq_some_iff.1 hpoint
    rw [htail] at hany
    cases tail with
    | nil => cases hany
    | cons d after => exact h d after htail

/-- A comment, a mark or an unknown character. -/
theorem nextLexeme_sign (hb : ¬ isBlank c) (hq : c ≠ '"') (hd : ¬ isDigit c)
    (hn : ¬ startsName c) :
    (nextLexeme c rest).1 =
      if c = '/' ∧ rest.head? = some '/' then .comment (rest.tail.takeWhile (· != '\n'))
      else if c = '=' ∧ rest.head? = some '=' then .mark .equal
      else match Mark.ofChar? c with
        | some m => .mark m
        | none => .unknown c := by
  unfold nextLexeme
  rw [if_neg hb, if_neg hq, if_neg hd, if_neg hn]
  split
  · rfl
  · rfl
  · rename_i hcomment hequal
    rw [if_neg, if_neg]
    · cases Mark.ofChar? c <;> rfl
    · rintro ⟨rfl, hhead⟩
      obtain ⟨after, rfl⟩ := List.head?_eq_some_iff.1 hhead
      exact hequal after rfl rfl
    · rintro ⟨rfl, hhead⟩
      obtain ⟨after, rfl⟩ := List.head?_eq_some_iff.1 hhead
      exact hcomment after rfl rfl

end Conditions

/-! ### The first lexeme from its bytes -/

section First

variable {c : Char} {rest : List Char}

theorem nextExtent_quote (rest : List Char) :
    nextExtent (byteOf '"') (encode rest) = (nextLexeme '"' rest).1.extent := by
  have hruns := (Tells.ne (d := '"') (by decide)).takeWhile rest
  have hsplit := List.takeWhile_append_dropWhile (p := (· != '"')) (l := rest)
  have hlength : (encode rest).length = utf8Len (rest.takeWhile (· != '"'))
      + utf8Len (rest.dropWhile (· != '"')) := by
    rw [← length_encode, ← length_encode, ← List.length_append, ← encode_append, hsplit]
  unfold nextExtent nextLexeme
  rw [if_neg (by decide), if_pos rfl, if_neg (by decide), if_pos rfl, hruns.1]
  dsimp only
  rw [hlength, length_encode]
  split
  · rename_i h
    simp [h, Lexeme.extent]
  · rename_i d after h
    simp [h, Lexeme.extent, d.utf8Size_pos]

theorem nextExtent_digit (hd : isDigit c) :
    nextExtent (byteOf c) (encode rest) = (nextLexeme c rest).1.extent := by
  obtain ⟨hb, hq⟩ := Opening.not_blank_of_continuesName (c := c) (by simp [continuesName, hd])
  have hlt : c.toNat < 128 := toNat_lt_of_isDigit hd
  have hdigits : Tells isDigit (isByteOf isDigit) := .isByteOf fun _ => toNat_lt_of_isDigit
  have hruns := hdigits.takeWhile rest
  have hwhole : utf8Len (c :: rest.takeWhile isDigit) = _ := utf8Len_cons_of_lt hlt
  rw [nextLexeme_digit hb hq hd]
  unfold nextExtent
  rw [isByteOf_byteOf _ hlt, isByteOf_byteOf _ hlt, if_neg hb, if_pos hd,
    if_neg (fun h => hq ((byteOf_eq_iff hlt (by decide)).1 h)), hruns.1, hruns.2, length_encode]
  simp only [head?_encode_iff (d := '.') (by decide)]
  generalize rest.dropWhile isDigit = after
  by_cases hpoint : after.head? = some '.'
  · rw [tail_encode (by decide) hpoint, any_head?_encode fun _ => toNat_lt_of_isDigit,
      (hdigits.takeWhile after.tail).1, length_encode]
    split
    · rw [Lexeme.extent, hwhole]
      rfl
    · rw [Lexeme.extent, hwhole]
      rfl
  · rw [if_neg fun h => hpoint h.1, if_neg fun h => hpoint h.1, Lexeme.extent, hwhole]
    rfl

theorem nextExtent_word (hn : startsName c) :
    nextExtent (byteOf c) (encode rest) = (nextLexeme c rest).1.extent := by
  obtain ⟨hb, hq⟩ := Opening.not_blank_of_continuesName (c := c) (by simp [continuesName, hn])
  have hd := Opening.not_isDigit_of_startsName hn
  have hlt : c.toNat < 128 := toNat_lt_of_startsName hn
  have hruns := (Tells.isByteOf fun _ => toNat_lt_of_continuesName).takeWhile rest
  unfold nextExtent nextLexeme
  rw [isByteOf_byteOf _ hlt, isByteOf_byteOf _ hlt, isByteOf_byteOf _ hlt, if_neg hb, if_neg hd,
    if_pos hn, if_neg (fun h => hq ((byteOf_eq_iff hlt (by decide)).1 h)), hruns.1, length_encode,
    if_neg hb, if_neg hq, if_neg hd, if_pos hn, Lexeme.extent, utf8Len_cons_of_lt hlt]

theorem nextExtent_sign (hlt : c.toNat < 128) (hb : ¬ isBlank c) (hq : c ≠ '"') (hd : ¬ isDigit c)
    (hn : ¬ startsName c) :
    nextExtent (byteOf c) (encode rest) = (nextLexeme c rest).1.extent := by
  have hslash : byteOf c = byteOf '/' ↔ c = '/' := byteOf_eq_iff hlt (by decide)
  have hequal : byteOf c = byteOf '=' ↔ c = '=' := byteOf_eq_iff hlt (by decide)
  rw [nextLexeme_sign hb hq hd hn]
  unfold nextExtent
  rw [isByteOf_byteOf _ hlt, isByteOf_byteOf _ hlt, isByteOf_byteOf _ hlt, if_neg hb, if_neg hd,
    if_neg hn, if_neg (fun h => hq ((byteOf_eq_iff hlt (by decide)).1 h)), toNat_byteOf hlt,
    if_pos hlt, Char.ofNat_toNat]
  simp only [hslash, hequal, head?_encode_iff (d := '/') (by decide),
    head?_encode_iff (d := '=') (by decide)]
  split
  · rename_i h
    rw [tail_encode (by decide) h.2, ((Tells.ne (d := '\n') (by decide)).takeWhile _).1,
      length_encode]
    rfl
  split
  · rfl
  split
  · rfl
  · rw [Lexeme.extent, ← String.length_utf8EncodeChar, utf8EncodeChar_of_lt hlt]
    rfl

/-- A character past the first 128 is unknown. -/
theorem nextLexeme_of_le (h : 128 ≤ c.toNat) : (nextLexeme c rest).1 = .unknown c := by
  have hne : ∀ d : Char, d.toNat < 128 → c ≠ d := by
    rintro d hd rfl
    omega
  rw [nextLexeme_sign (fun hb => absurd (toNat_lt_of_isBlank hb) (Nat.not_lt.2 h))
    (hne _ (by decide)) (fun hd => absurd (toNat_lt_of_isDigit hd) (Nat.not_lt.2 h))
    (fun hn => absurd (toNat_lt_of_startsName hn) (Nat.not_lt.2 h)),
    if_neg fun hs => hne _ (by decide) hs.1, if_neg fun hs => hne _ (by decide) hs.1]
  split
  · rename_i hm
    exact absurd (toNat_lt_of_ofChar? hm) (Nat.not_lt.2 h)
  · rfl

theorem nextExtent_of_le {b : UInt8} {bs : List UInt8} (h : 128 ≤ b.toNat) :
    nextExtent b bs = .unknown (sizeFrom b) := by
  have hne : ∀ d : Char, d.toNat < 128 → b ≠ byteOf d := fun d hd => byteOf_ne_of_le hd h
  unfold nextExtent
  rw [isByteOf_of_le _ h, isByteOf_of_le _ h, isByteOf_of_le _ h, if_neg Bool.false_ne_true,
    if_neg (hne _ (by decide)), if_neg Bool.false_ne_true, if_neg Bool.false_ne_true,
    if_neg fun hs => hne _ (by decide) hs.1, if_neg fun hs => hne _ (by decide) hs.1,
    if_neg (Nat.not_lt.2 h)]

/-- A scan of bytes finds the first lexeme. -/
theorem nextExtent_encode {b : UInt8} {bs : List UInt8} (h : encode (c :: rest) = b :: bs) :
    nextExtent b bs = (nextLexeme c rest).1.extent := by
  rcases Nat.lt_or_ge c.toNat 128 with hlt | hle
  · rw [encode_cons_of_lt hlt] at h
    obtain ⟨rfl, rfl⟩ := List.cons.inj h
    by_cases hb : isBlank c
    · unfold nextExtent nextLexeme
      rw [isByteOf_byteOf _ hlt, if_pos hb, if_pos hb]
      rfl
    by_cases hq : c = '"'
    · subst hq
      exact nextExtent_quote rest
    by_cases hd : isDigit c
    · exact nextExtent_digit hd
    by_cases hn : startsName c
    · exact nextExtent_word hn
    · exact nextExtent_sign hlt hb hq hd hn
  · obtain ⟨hall, d, ds, hbytes, hsize⟩ := utf8EncodeChar_of_le (c := c) hle
    rw [encode_cons, hbytes] at h
    obtain ⟨rfl, rfl⟩ := List.cons.inj h
    rw [nextExtent_of_le (hall d (hbytes ▸ List.mem_cons_self)), nextLexeme_of_le hle, hsize]
    rfl

end First

/-! ### Slices -/

section Slices

variable {s : String} {pre mid post : List Char}

theorem isValid_utf8Len (h : s.toList = pre ++ post) :
    String.Pos.Raw.isValid s ⟨utf8Len pre⟩ := by
  rw [String.Pos.Raw.isValid_eq_true_iff, String.Pos.Raw.isValid_iff_exists_append]
  refine ⟨String.ofList pre, String.ofList post, ?_, ?_⟩
  · rw [← String.ofList_append, ← h, String.ofList_toList]
  · rw [String.rawEndPos_ofList]

/-- Between the ends of characters a slice is what stands there. -/
theorem slice?_utf8Len (h : s.toList = pre ++ mid ++ post) :
    slice? s (utf8Len pre) (utf8Len pre + utf8Len mid) = some mid := by
  have hstart : String.Pos.Raw.isValid s ⟨utf8Len pre⟩ := by
    rw [List.append_assoc] at h
    exact isValid_utf8Len h
  have hstop : String.Pos.Raw.isValid s ⟨utf8Len pre + utf8Len mid⟩ := by
    rw [← String.utf8Len_append]
    exact isValid_utf8Len h
  have hs : s = String.ofList (pre ++ mid ++ post) := by rw [← h, String.ofList_toList]
  rw [slice?, if_pos ⟨hstart, hstop⟩, hs, String.extract_of_valid, String.toList_ofList]

end Slices

/-! ### The scan -/

namespace Lexeme

variable {s : String} {cs pre post : List Char} {l : Lexeme}

/-- A blank is one byte. -/
theorem Leads.blank_lt {c : Char} (h : (blank c).Leads cs) : c.toNat < 128 :=
  toNat_lt_of_isBlank h.2.1

/-- An extent has the bytes of its lexeme. -/
theorem size_extent (h : l.Leads cs) : l.extent.size = utf8Len l.text := by
  cases l with
  | blank c => rw [text, utf8Len_cons_of_lt h.blank_lt]; rfl
  | comment body => rw [text, utf8Len_cons_of_lt (by decide), utf8Len_cons_of_lt (by decide)]; rfl
  | word t => rfl
  | number whole fraction? =>
    cases fraction? with
    | none => rfl
    | some fraction =>
      rw [text, String.utf8Len_append, utf8Len_cons_of_lt (by decide)]
      simp only [extent, Extent.size, Option.map_some]
      omega
  | quoted body closed =>
    cases closed with
    | false => rw [text, utf8Len_cons_of_lt (by decide)]; rfl
    | true => rw [text, utf8Len_cons_of_lt (by decide), String.utf8Len_append]; rfl
  | mark m => cases m <;> rfl
  | unknown c => rw [text, String.utf8Len_cons, String.utf8Len_nil, Nat.zero_add]; rfl

/-- What a scan slices out of the text at a lexeme's place is the lexeme. -/
theorem lexeme?_extent (h : l.Leads cs) (hs : s.toList = pre ++ l.text ++ post) :
    l.extent.lexeme? s (utf8Len pre) = some l := by
  -- a part of the lexeme, with the characters that stand before it in the lexeme
  have hpart : ∀ before part after : List Char, l.text = before ++ part ++ after →
      slice? s (utf8Len pre + utf8Len before) (utf8Len pre + utf8Len before + utf8Len part) =
        some part := by
    intro before part after htext
    rw [← String.utf8Len_append]
    have hparts : s.toList = pre ++ before ++ part ++ (after ++ post) := by
      rw [hs, htext]
      simp only [List.append_assoc]
    exact slice?_utf8Len hparts
  cases l with
  | blank c =>
    have hslice := hpart [] [c] [] rfl
    rw [utf8Len_cons_of_lt h.blank_lt] at hslice
    simp only [String.utf8Len_nil, Nat.add_zero, Nat.zero_add] at hslice
    simp [extent, Extent.lexeme?, hslice]
  | comment body =>
    have hslice := hpart ['/', '/'] body [] (by simp [text])
    have htwo : utf8Len ['/', '/'] = 2 := rfl
    rw [htwo] at hslice
    simp [extent, Extent.lexeme?, hslice]
  | word t =>
    have hslice := hpart [] t [] (by simp [text])
    simp only [String.utf8Len_nil, Nat.add_zero] at hslice
    simp [extent, Extent.lexeme?, hslice]
  | number whole fraction? =>
    cases fraction? with
    | none =>
      have hslice := hpart [] whole [] (by simp [text])
      simp only [String.utf8Len_nil, Nat.add_zero] at hslice
      simp [extent, Extent.lexeme?, hslice]
    | some fraction =>
      have hwhole := hpart [] whole ('.' :: fraction) (by simp [text])
      have hfraction := hpart (whole ++ ['.']) fraction [] (by simp [text])
      have hpoint : utf8Len (whole ++ ['.']) = utf8Len whole + 1 := by
        rw [String.utf8Len_append]; rfl
      simp only [String.utf8Len_nil, Nat.add_zero] at hwhole
      rw [hpoint, ← Nat.add_assoc] at hfraction
      simp [extent, Extent.lexeme?, hwhole, hfraction]
  | quoted body closed =>
    have hslice := hpart ['"'] body (if closed then ['"'] else []) (by cases closed <;> simp [text])
    have hone : utf8Len ['"'] = 1 := rfl
    rw [hone] at hslice
    simp [extent, Extent.lexeme?, hslice]
  | mark m => rfl
  | unknown c =>
    have hslice := hpart [] [c] [] rfl
    simp only [String.utf8Len_nil, String.utf8Len_cons, Nat.add_zero, Nat.zero_add] at hslice
    simp [extent, Extent.lexeme?, hslice]

end Lexeme

/-- A scan of the bytes behind an offset finds the lexemes there. -/
theorem scanFrom?_encode {s : String} (cs : List Char) :
    ∀ pre, s.toList = pre ++ cs → scanFrom? s (utf8Len pre) (encode cs) = some (lexemes cs) := by
  fun_induction lexemes cs with
  | case1 =>
    intro pre _
    exact scanFrom?.eq_1 s _
  | case2 c rest ih =>
    intro pre hs
    have hleads := nextLexeme_leads c rest
    have hcut := nextLexeme_text c rest
    have hextent (b : UInt8) (bs : List UInt8) (h : encode (c :: rest) = b :: bs) :
        nextExtent b bs = (nextLexeme c rest).1.extent := nextExtent_encode h
    revert hleads hcut hextent ih
    generalize nextLexeme c rest = next
    obtain ⟨l, after⟩ := next
    intro ih hleads hcut hextent
    dsimp only at ih hleads hcut hextent ⊢
    obtain ⟨b, bs, hbytes⟩ := List.exists_cons_of_ne_nil (l := encode (c :: rest))
      (by rw [encode_cons]; exact List.append_ne_nil_of_left_ne_nil (utf8EncodeChar_ne_nil c) _)
    have hsize : l.extent.size = utf8Len l.text := Lexeme.size_extent hleads
    have hpos : 0 < l.extent.size := by
      rw [hsize]
      exact Nat.pos_of_ne_zero fun h => hleads.text_ne_nil (String.utf8Len_eq_zero.1 h)
    -- the bytes behind the lexeme
    have hdrop : bs.drop (l.extent.size - 1) = encode after := by
      have hall : (b :: bs).drop l.extent.size = encode after := by
        rw [← hbytes, ← hcut, encode_append, hsize, ← length_encode, List.drop_left]
      rwa [← Nat.sub_add_cancel hpos, List.drop_succ_cons] at hall
    rw [← hcut, ← List.append_assoc] at hs
    have hrest := ih (pre ++ l.text) hs
    rw [String.utf8Len_append, ← hsize] at hrest
    rw [hbytes, scanFrom?, hextent b bs hbytes, hdrop, Lexeme.lexeme?_extent hleads hs, hrest]
    rfl

/-- The bytes of a text are those of its characters. -/
theorem toByteArray_toList (s : String) : s.toByteArray.data.toList = encode s.toList := by
  conv_lhs => rw [← String.ofList_toList (s := s), String.toByteArray_ofList]
  rw [List.utf8Encode, List.data_toByteArray]
  rfl

/-- A scan of bytes finds the lexemes of the text; none of its slices fails. -/
theorem scan?_eq_lexemes (s : String) : scan? s = some (lexemes s.toList) := by
  rw [scan?, toByteArray_toList]
  exact scanFrom?_encode s.toList [] rfl

end Playscript

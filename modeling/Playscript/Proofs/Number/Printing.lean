/-
# The text of a number is read as the number

A decimal in positional form is a row of digits, or two with a point between them, that stand for
the decimal (`spells_positional`). The zeros that its coefficient ends in can be dropped, and the
shortest decimal is rounded to the float it was found for. So a finite number without a sign is
written as a lexeme, and the lexeme is read as this number (`readAs_text`).

Key definitions: `Spells`, `ReadAs`.
Key theorems: `dropZeros_value`, `spells_positional`, `readAs_text`.
-/
import Playscript.Proofs.Number.Shortest
import Playscript.Proofs.Token.Munch

namespace Playscript.Number

/-- A text is the lexeme of a number whose digits stand for `q`. -/
def Spells (cs : List Char) (q : ℚ) : Prop :=
  ∃ whole fraction?, (Lexeme.number whole fraction?).Formed ∧
    (Lexeme.number whole fraction?).text = cs ∧
    (naturalOf (whole ++ fraction?.getD []) : ℚ) / 10 ^ (fraction?.getD []).length = q

/-- A text is the lexeme of a number that is read as `x`. -/
def ReadAs (cs : List Char) (x : Float) : Prop :=
  ∃ whole fraction?, (Lexeme.number whole fraction?).Formed ∧
    (Lexeme.number whole fraction?).text = cs ∧ ofDigits whole (fraction?.getD []) = x

variable {cs ds : List Char} {q : ℚ} {x : Float} {m n k : Nat} {e : Int} {d : Decimal}

/-! ### Digits -/

@[simp] theorem naturalOf_digits (n : Nat) : naturalOf (digits n) = n :=
  Nat.ofDigitChars_ten_toDigits

/-- Zeros before the digits do not count. -/
@[simp] theorem naturalOf_zeros_append (k : Nat) (ds : List Char) :
    naturalOf (List.replicate k '0' ++ ds) = naturalOf ds := by
  rw [naturalOf_eq, Nat.ofDigitChars_append, Nat.ofDigitChars_replicate_zero, Nat.mul_zero]
  rfl

/-- A zero behind the digits is a factor of ten. -/
@[simp] theorem naturalOf_append_zeros (ds : List Char) (k : Nat) :
    naturalOf (ds ++ List.replicate k '0') = 10 ^ k * naturalOf ds := by
  rw [naturalOf_eq, Nat.ofDigitChars_append, Nat.ofDigitChars_replicate_zero]
  rfl

theorem isDigit_of_mem_digits {c : Char} (h : c ∈ digits n) : isDigit c := by
  have hdigit := Nat.isDigit_of_mem_toDigits (by decide) (by decide) h
  simpa [Char.isDigit, isDigit, Char.le_def] using hdigit

theorem isDigit_of_mem_zeros {c : Char} (h : c ∈ List.replicate k '0') : isDigit c := by
  rw [List.eq_of_mem_replicate h]
  decide

/-! ### Decimals -/

/-- A zero less at the end of the coefficient is one more in the exponent. -/
theorem dropZeros_value (fuel : Nat) (d : Decimal) : (dropZeros fuel d).value = d.value := by
  fun_induction dropZeros fuel d with
  | case1 d => rfl
  | case2 fuel d h ih =>
    obtain ⟨c, hc⟩ : ∃ c, d.coefficient = 10 * c := ⟨d.coefficient / 10, by omega⟩
    have hdiv : d.coefficient / 10 = c := by omega
    rw [ih, Decimal.value, Decimal.value, hdiv, hc, zpow_add_one₀ (by norm_num)]
    push_cast
    ring
  | case3 fuel d h => rfl

/-- Digits and then zeros up to the point. -/
theorem spells_whole (c k : Nat) :
    Spells (digits c ++ List.replicate k '0') ((c : ℚ) * 10 ^ k) := by
  refine ⟨digits c ++ List.replicate k '0', none, ⟨?_, ?_, nofun⟩, rfl, ?_⟩
  · exact List.append_ne_nil_of_left_ne_nil Nat.toDigits_ne_nil _
  · exact List.forall_mem_append.2 ⟨fun _ => isDigit_of_mem_digits, fun _ => isDigit_of_mem_zeros⟩
  · rw [Option.getD_none, List.append_nil, naturalOf_append_zeros, naturalOf_digits,
      List.length_nil, pow_zero, div_one]
    push_cast
    ring

/-- A row of digits with a point before the last ones. -/
theorem spells_point (hdigits : ∀ c ∈ ds, isDigit c) (hpos : 0 < k) (hlength : k < ds.length) :
    Spells (ds.take (ds.length - k) ++ '.' :: ds.drop (ds.length - k))
      ((naturalOf ds : ℚ) / 10 ^ k) := by
  have hfraction : (ds.drop (ds.length - k)).length = k := by
    rw [List.length_drop]
    omega
  refine ⟨ds.take (ds.length - k), some (ds.drop (ds.length - k)),
    ⟨?_, fun c hc => hdigits c (List.mem_of_mem_take hc), ?_⟩, rfl, ?_⟩
  · exact List.ne_nil_of_length_pos (by rw [List.length_take]; omega)
  · rintro _ ⟨⟩
    exact ⟨List.ne_nil_of_length_pos (by omega), fun c hc => hdigits c (List.mem_of_mem_drop hc)⟩
  · rw [Option.getD_some, List.take_append_drop, hfraction]

/-- A decimal in positional form stands for the decimal. -/
theorem spells_positional (d : Decimal) : Spells (positional d) d.value := by
  by_cases h : 0 ≤ d.exponent
  · have hvalue : d.value = d.coefficient * 10 ^ d.exponent.toNat := by
      rw [Decimal.value, ← zpow_natCast, Int.toNat_of_nonneg h]
    rw [positional, if_pos h, hvalue]
    exact spells_whole _ _
  · -- zeros in front leave at least one digit before the point
    obtain ⟨k, hk⟩ : ∃ k, k = (-d.exponent).toNat := ⟨_, rfl⟩
    obtain ⟨padded, hpadded⟩ : ∃ ds, ds = List.replicate
      (k + 1 - (digits d.coefficient).length) '0' ++ digits d.coefficient := ⟨_, rfl⟩
    have hdigits : ∀ c ∈ padded, isDigit c := by
      rw [hpadded]
      exact List.forall_mem_append.2
        ⟨fun _ => isDigit_of_mem_zeros, fun _ => isDigit_of_mem_digits⟩
    have hlength : k < padded.length := by
      rw [hpadded, List.length_append, List.length_replicate]
      omega
    have hvalue : d.value = naturalOf padded / 10 ^ k := by
      have hexponent : d.exponent = -(k : Int) := by omega
      rw [Decimal.value, hexponent, zpow_neg, zpow_natCast, hpadded, naturalOf_zeros_append,
        naturalOf_digits, div_eq_mul_inv]
    rw [positional, if_neg h, ← hk, hvalue]
    dsimp only
    rw [← hpadded]
    exact spells_point hdigits (by omega) hlength

/-! ### Numbers -/

/-- A text that stands for a number is read as the float that the number is rounded to. -/
theorem Spells.readAs {h : 0 < m} (hs : Spells cs q)
    (hx : x.toModel.unpack = .finite .positive m e h) (hq : RoundsTo q m e) : ReadAs cs x := by
  obtain ⟨whole, fraction?, hformed, htext, rfl⟩ := hs
  exact ⟨whole, fraction?, hformed, htext, ofScientific_eq hx hq⟩

theorem readAs_positiveText {h : 0 < m} (hx : x.toModel.unpack = .finite .positive m e h)
    (hscaled : Scaled.ofFloat x = ⟨m, e⟩) : ReadAs (positiveText x) x := by
  have hfits : Fits m e := by
    have hcanonical := canonical_value? x
    rwa [hx] at hcanonical
  refine (spells_positional _).readAs hx ?_
  rw [dropZeros_value, hscaled]
  exact roundsTo_shortest hfits

/-- The text of zero is read as the zero without a sign. -/
theorem readAs_zero (hx : x.toModel.unpack = .zero .positive) : ReadAs ['0'] x := by
  have hzero : (ofDigits ['0'] []).toModel.unpack = .zero .positive := by
    show (Float.ofScientific 0 true 0).toModel.unpack = .zero .positive
    rfl
  have hdigits : ∀ c ∈ ['0'], isDigit c := fun _ => isDigit_of_mem_zeros (k := 1)
  exact ⟨['0'], none, ⟨List.cons_ne_nil _ _, hdigits, nofun⟩, rfl,
    eq_of_unpack_eq (hzero.trans hx.symm)⟩

/-- The text of a finite number without a sign is read as the number, whatever the wording. -/
theorem readAs_text (w : Wording) (hfinite : x.isFinite = true) (hsign : isNegative x = false) :
    ReadAs (w.text x).toList x := by
  have hpositive : signOf x = .positive := by rw [signOf, hsign]; rfl
  have hnan := isNaN_of_isFinite hfinite
  have hinf := isInf_of_isFinite hfinite
  rcases unpack_cases x with ⟨hx, -⟩ | ⟨hx, -⟩ | ⟨hx, -⟩ | ⟨⟨m, e, hm, hx, hscaled⟩, -⟩
  · have hnan : x.toModel.unpack.isNaN = false := hnan
    rw [hx] at hnan
    cases hnan
  · have hinf : x.toModel.unpack.isInf = false := hinf
    rw [hx] at hinf
    cases hinf
  · have hzero : (x == 0) = true := beq_zero_iff.2 ⟨_, hx⟩
    have htext : (w.text x).toList = ['0'] := by
      rw [Wording.text, hnan, hinf, hzero, hsign]
      simp
    rw [htext]
    exact readAs_zero (hpositive ▸ hx)
  · have hne : (x == 0) = false := by
      rw [Bool.eq_false_iff, Ne, beq_zero_iff]
      rintro ⟨s, hs⟩
      cases hx.symm.trans hs
    have htext : (w.text x).toList = positiveText x := by
      rw [Wording.text, hnan, hinf, hne, hsign]
      simp
    rw [htext]
    exact readAs_positiveText (hpositive ▸ hx) hscaled

end Playscript.Number

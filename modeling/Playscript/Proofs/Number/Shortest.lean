/-
# The shortest decimal is rounded to its float

The interval that `shortest` looks for a decimal in is the one whose numbers are rounded to
the float (`holds_iff`). With seventeen digits decimals lie closer to each other than the ends
of the interval, so one of the two around the float is in it (`exists_neighbour`), and the decimal
found is rounded to the float (`roundsTo_shortest`).

Key definitions: `Decimal.value`, `Interval.Around`.
Key theorems: `Interval.holds_iff`, `le_leadingPlace`, `exists_neighbour`, `roundsTo_shortest`.
-/
import Mathlib.Algebra.Order.Field.Power
import Mathlib.Data.Nat.Cast.Order.Field
import Playscript.Proofs.Number.Reading
import Playscript.Number.Shortest

namespace Playscript.Number

/-- The number that a decimal is. -/
def Decimal.value (d : Decimal) : ℚ := d.coefficient * 10 ^ d.exponent

variable {q : ℚ} {m n num den : Nat} {e : Int} {d : Decimal} {i : Interval}

/-! ### The interval -/

theorem Ratio.den_ofScaled (n : Nat) (e : Int) : (Ratio.ofScaled n e).den = 2 ^ (-e).toNat := by
  unfold Ratio.ofScaled
  split
  · rename_i h
    have hzero : (-e).toNat = 0 := by omega
    rw [hzero, pow_zero]
  · rfl

theorem Ratio.num_ofScaled (n : Nat) (e : Int) : (Ratio.ofScaled n e).num = n * 2 ^ e.toNat := by
  unfold Ratio.ofScaled
  split
  · rfl
  · rename_i h
    have hzero : e.toNat = 0 := by omega
    rw [hzero, pow_zero, mul_one]

/-- The numerator over the denominator of the exponent. -/
theorem Ratio.cast_num_ofScaled (n : Nat) (e : Int) :
    ((Ratio.ofScaled n e).num : ℚ) = n * 2 ^ e * (2 ^ (-e).toNat : Nat) := by
  rw [Ratio.num_ofScaled, zpow_eq_div]
  push_cast
  field_simp

/-- The ends of an interval, its value and its denominator are those of a float. -/
structure Interval.Around (i : Interval) (m : Nat) (e : Int) : Prop where
  den_pos : 0 < i.den
  low : (i.low : ℚ) = (m - reach m e) * 2 ^ e * i.den
  value : (i.value : ℚ) = m * 2 ^ e * i.den
  high : (i.high : ℚ) = (m + 1 / 2) * 2 ^ e * i.den
  closed : i.closed = true ↔ m % 2 = 0

theorem around_of (h : Fits m e) : (Interval.of ⟨m, e⟩).Around m e := by
  have hden : (Interval.of ⟨m, e⟩).den = 2 ^ (-(e - 2)).toNat := Ratio.den_ofScaled _ _
  have hquarter : (2 : ℚ) ^ e = 4 * 2 ^ (e - 2) := by
    rw [zpow_sub₀ two_ne_zero]
    norm_num
    ring
  refine ⟨?_, ?_, ?_, ?_, beq_iff_eq⟩
  · rw [hden]
    exact Nat.two_pow_pos _
  · have hlow : (Interval.of ⟨m, e⟩).low = (Ratio.ofScaled (4 * m -
        if m = 2 ^ 52 ∧ e ≠ -1074 then 1 else 2) (e - 2)).num := rfl
    rw [hlow, hden, Ratio.cast_num_ofScaled, hquarter, reach]
    have hpos := h.pos
    split
    · rw [Nat.cast_sub (by omega)]
      push_cast
      ring
    · rw [Nat.cast_sub (by omega)]
      push_cast
      ring
  · have hvalue : (Interval.of ⟨m, e⟩).value = (Ratio.ofScaled (4 * m) (e - 2)).num := rfl
    rw [hvalue, hden, Ratio.cast_num_ofScaled, hquarter]
    push_cast
    ring
  · have hhigh : (Interval.of ⟨m, e⟩).high = (Ratio.ofScaled (4 * m + 2) (e - 2)).num := rfl
    rw [hhigh, hden, Ratio.cast_num_ofScaled, hquarter]
    push_cast
    ring

theorem Decimal.value_eq (d : Decimal) : d.value =
    d.coefficient * (10 ^ d.exponent.toNat : Nat) / (10 ^ (-d.exponent).toNat : Nat) := by
  rw [Decimal.value, zpow_eq_div, mul_div_assoc]
  push_cast
  rfl

section Points

variable {p : Nat} {r : ℚ}

/-- Over one denominator a decimal and another number are compared as natural numbers. -/
theorem le_value_iff (hden : 0 < den) (hp : (p : ℚ) = r * den) (d : Decimal) :
    p * 10 ^ (-d.exponent).toNat ≤ d.coefficient * 10 ^ d.exponent.toNat * den ↔
      r ≤ d.value := by
  have hden : (0 : ℚ) < den := by exact_mod_cast hden
  have hdown : (0 : ℚ) < (10 ^ (-d.exponent).toNat : Nat) := by positivity
  rw [d.value_eq, le_div_iff₀ hdown, ← mul_le_mul_iff_left₀ hden, mul_right_comm r, ← hp]
  exact_mod_cast Iff.rfl

theorem value_le_iff (hden : 0 < den) (hp : (p : ℚ) = r * den) (d : Decimal) :
    d.coefficient * 10 ^ d.exponent.toNat * den ≤ p * 10 ^ (-d.exponent).toNat ↔
      d.value ≤ r := by
  have hden : (0 : ℚ) < den := by exact_mod_cast hden
  have hdown : (0 : ℚ) < (10 ^ (-d.exponent).toNat : Nat) := by positivity
  rw [d.value_eq, div_le_iff₀ hdown, ← mul_le_mul_iff_left₀ hden, mul_right_comm r, ← hp]
  exact_mod_cast Iff.rfl

end Points

/-- A decimal in the interval is one that is rounded to the float. -/
theorem Interval.holds_iff (h : i.Around m e) : i.holds d = true ↔ RoundsTo d.value m e := by
  unfold Interval.holds
  simp only [Nat.pow_eq]
  by_cases hclosed : i.closed = true
  · rw [if_pos hclosed, Bool.and_eq_true, decide_eq_true_eq, decide_eq_true_eq,
      le_value_iff h.den_pos h.low, value_le_iff h.den_pos h.high]
    exact ⟨fun ⟨hl, hh⟩ => ⟨hl, hh, .inl (h.closed.1 hclosed)⟩, fun hr => ⟨hr.low, hr.high⟩⟩
  · rw [if_neg hclosed, Bool.and_eq_true, decide_eq_true_eq, decide_eq_true_eq, ← not_le,
      value_le_iff h.den_pos h.low, ← not_le, le_value_iff h.den_pos h.high, not_le, not_le]
    exact ⟨fun ⟨hl, hh⟩ => ⟨hl.le, hh.le, .inr ⟨hl, hh⟩⟩,
      fun hr => hr.tie.resolve_left fun heven => hclosed (h.closed.2 heven)⟩

/-! ### Seventeen digits suffice -/

theorem digitCount_pos (h : 0 < n) : 0 < digitCount n := by
  rw [digitCount, dif_neg (Nat.ne_of_gt h)]
  exact Nat.succ_pos _

theorem le_digitCount (h : 0 < n) : 10 ^ (digitCount n - 1) ≤ n := by
  fun_induction digitCount n with
  | case1 => exact absurd h (Nat.lt_irrefl 0)
  | case2 n hne ih =>
    rw [Nat.add_sub_cancel]
    rcases Nat.eq_zero_or_pos (n / 10) with hzero | hpos
    · rw [hzero, digitCount, dif_pos rfl]
      exact h
    · calc 10 ^ digitCount (n / 10) = 10 ^ (digitCount (n / 10) - 1) * 10 := by
            rw [← Nat.pow_succ, Nat.succ_eq_add_one, Nat.sub_add_cancel (digitCount_pos hpos)]
        _ ≤ n / 10 * 10 := Nat.mul_le_mul_right _ (ih hpos)
        _ ≤ n := Nat.div_mul_le_self _ _

/-- The leading place is not beyond that of the number. -/
theorem le_leadingPlace (hnum : den ≤ num * 10 ^ finestPlace) (hden : 0 < den) :
    (10 : ℚ) ^ leadingPlace num den ≤ num / den := by
  have hpos : 0 < num * 10 ^ finestPlace / den := Nat.div_pos hnum hden
  have hplace : leadingPlace num den =
      ((digitCount (num * 10 ^ finestPlace / den) - 1 : Nat) : Int) - finestPlace := by
    rw [leadingPlace, Nat.pow_eq, Nat.cast_sub (digitCount_pos hpos), Nat.cast_one]
  have hle : ((10 ^ (digitCount (num * 10 ^ finestPlace / den) - 1) : Nat) : ℚ) ≤
      (num * 10 ^ finestPlace : Nat) / den :=
    (Nat.cast_le.2 (le_digitCount hpos)).trans Nat.cast_div_le
  push_cast at hle
  rw [hplace, zpow_sub₀ (by norm_num), zpow_natCast, zpow_natCast, div_le_iff₀ (by positivity),
    div_mul_eq_mul_div]
  exact hle

/-- The number lies between its neighbours on a grid. -/
theorem neighbours_around (h : i.Around m e) (place : Int) :
    (i.neighbours place).1.value ≤ m * 2 ^ e ∧ (m : ℚ) * 2 ^ e < (i.neighbours place).2.value ∧
      (i.neighbours place).2.value = (i.neighbours place).1.value + 10 ^ place := by
  have hgrid : 0 < i.den * 10 ^ place.toNat := Nat.mul_pos h.den_pos (Nat.pow_pos (by decide))
  obtain ⟨c, hc⟩ : ∃ c, c = i.value * 10 ^ (-place).toNat / (i.den * 10 ^ place.toNat) := ⟨_, rfl⟩
  have hbelow : (i.neighbours place).1 = ⟨c, place⟩ := by rw [hc]; rfl
  have habove : (i.neighbours place).2 = ⟨c + 1, place⟩ := by rw [hc]; rfl
  rw [hbelow, habove]
  refine ⟨(value_le_iff h.den_pos h.value _).1 ?_,
    not_le.1 (mt (value_le_iff h.den_pos h.value _).2 (not_le.2 ?_)), ?_⟩
  · show c * 10 ^ place.toNat * i.den ≤ i.value * 10 ^ (-place).toNat
    rw [mul_assoc, mul_comm (10 ^ place.toNat), hc]
    exact Nat.div_mul_le_self _ _
  · show i.value * 10 ^ (-place).toNat < (c + 1) * 10 ^ place.toNat * i.den
    rw [mul_assoc, mul_comm (10 ^ place.toNat), hc, ← Nat.div_lt_iff_lt_mul hgrid]
    exact Nat.lt_succ_self _
  · rw [Decimal.value, Decimal.value]
    push_cast
    ring

/-- What lies strictly inside the interval is rounded to the float, whether its ends are or not. -/
theorem roundsTo_of_lt (hlow : (m - reach m e) * 2 ^ e < q) (hhigh : q < (m + 1 / 2) * 2 ^ e) :
    RoundsTo q m e :=
  ⟨hlow.le, hhigh.le, .inr ⟨hlow, hhigh⟩⟩

theorem reach_pos (m : Nat) (e : Int) : 0 < reach m e := by
  rw [reach]
  split <;> norm_num

/-- With seventeen digits neighbours lie closer to each other than the ends of the interval. -/
theorem spacing_lt (hfits : Fits m e) {lead : Int} (hlead : (10 : ℚ) ^ lead ≤ m * 2 ^ e) :
    (10 : ℚ) ^ (lead - mostDigits + 1) < (1 / 2 + reach m e) * 2 ^ e := by
  have hpos := two_zpow_pos e
  have hsplit : lead = 16 + (lead - mostDigits + 1) := by
    show lead = 16 + (lead - 17 + 1)
    omega
  have hten : (10 : ℚ) ^ lead = 10 ^ 16 * 10 ^ (lead - mostDigits + 1) :=
    calc (10 : ℚ) ^ lead = 10 ^ (16 + (lead - mostDigits + 1)) := by rw [← hsplit]
      _ = 10 ^ (16 : Int) * 10 ^ (lead - mostDigits + 1) := zpow_add₀ (by norm_num) _ _
  have hm : (m : ℚ) < 10 ^ 16 * (1 / 2 + reach m e) := by
    rw [reach]
    split
    · rename_i hedge
      rw [hedge.1]
      norm_num
    · have hbelow : (m : ℚ) < 2 ^ 53 := by exact_mod_cast hfits.below
      linarith
  rw [hten] at hlead
  nlinarith

/-- So one of the two around the float lies in it. -/
theorem exists_neighbour (hfits : Fits m e) (h : i.Around m e) {lead : Int}
    (hlead : (10 : ℚ) ^ lead ≤ m * 2 ^ e) :
    i.holds (i.neighbours (lead - mostDigits + 1)).1 = true ∨
      i.holds (i.neighbours (lead - mostDigits + 1)).2 = true := by
  have hpos := two_zpow_pos e
  have hreach := reach_pos m e
  obtain ⟨hbelow, habove, hnext⟩ := neighbours_around h (lead - mostDigits + 1)
  have hspacing := spacing_lt hfits hlead
  rw [Interval.holds_iff h, Interval.holds_iff h]
  by_contra! hnone
  -- then both ends of the interval lie between the neighbours
  have hlow : (i.neighbours (lead - mostDigits + 1)).1.value ≤ (m - reach m e) * 2 ^ e :=
    not_lt.1 fun hlt => hnone.1 (roundsTo_of_lt hlt (by linarith))
  have hhigh : (m + 1 / 2) * 2 ^ e ≤ (i.neighbours (lead - mostDigits + 1)).2.value :=
    not_lt.1 fun hlt => hnone.2 (roundsTo_of_lt (by nlinarith) hlt)
  linarith

/-- Of the neighbours of a length one is chosen if one lies in the interval. -/
theorem withDigits?_eq_none {lead : Int} {k : Nat} (h : i.withDigits? lead k = none) :
    i.holds (i.neighbours (lead - k + 1)).1 = false ∧
      i.holds (i.neighbours (lead - k + 1)).2 = false := by
  unfold Interval.withDigits? at h
  dsimp only at h
  split at h
  · exact nomatch h
  · exact nomatch h
  · exact nomatch h
  · rename_i hbelow habove
    exact ⟨hbelow, habove⟩

theorem holds_of_withDigits? {lead : Int} {digits : Nat} (h : i.withDigits? lead digits = some d) :
    i.holds d = true := by
  unfold Interval.withDigits? at h
  dsimp only at h
  split at h
  · rename_i hbelow habove
    split at h
    · obtain rfl := Option.some.inj h
      exact hbelow
    · obtain rfl := Option.some.inj h
      exact habove
  · rename_i hbelow _
    obtain rfl := Option.some.inj h
    exact hbelow
  · rename_i _ habove
    obtain rfl := Option.some.inj h
    exact habove
  · exact nomatch h

/-- A float has digits at a place that is looked at. -/
theorem Interval.Around.le_num (h : i.Around m e) (hfits : Fits m e) :
    i.den ≤ i.value * 10 ^ finestPlace := by
  have hone : (1 : ℚ) ≤ m := by exact_mod_cast hfits.pos
  have hleast : (1 : ℚ) ≤ 2 ^ e * 10 ^ finestPlace :=
    calc (1 : ℚ) = 2 ^ (-1074 : Int) * 2 ^ 1074 := by
          rw [← zpow_natCast, ← zpow_add₀ two_ne_zero]
          norm_num
      _ ≤ 2 ^ e * 2 ^ 1074 :=
          mul_le_mul_of_nonneg_right (two_zpow_le hfits.least) (by positivity)
      _ = 2 ^ e * (2 ^ 3) ^ 358 := by rw [← pow_mul]
      _ ≤ 2 ^ e * 10 ^ 358 := by gcongr; norm_num
      _ ≤ 2 ^ e * 10 ^ finestPlace := by gcongr <;> decide
  have hle : (i.den : ℚ) ≤ i.value * 10 ^ finestPlace := by
    rw [h.value]
    calc (i.den : ℚ) = 1 * 1 * i.den := by rw [one_mul, one_mul]
      _ ≤ m * (2 ^ e * 10 ^ finestPlace) * i.den := by gcongr
      _ = m * 2 ^ e * i.den * 10 ^ finestPlace := by ring
  exact_mod_cast hle

/-- The shortest decimal is rounded to its float. -/
theorem roundsTo_shortest (h : Fits m e) : RoundsTo (shortest ⟨m, e⟩).value m e := by
  have haround := around_of h
  have hden : ((Interval.of ⟨m, e⟩).den : ℚ) ≠ 0 := by exact_mod_cast Nat.ne_of_gt haround.den_pos
  have hlead := le_leadingPlace (haround.le_num h) haround.den_pos
  rw [haround.value, mul_div_cancel_right₀ _ hden] at hlead
  rw [← Interval.holds_iff haround]
  unfold shortest
  dsimp only
  split
  · rename_i d hsome
    obtain ⟨k, -, hk⟩ := List.exists_of_findSome?_eq_some hsome
    exact holds_of_withDigits? hk
  · -- with seventeen digits one of the two neighbours is in the interval, so some length does
    rename_i hnone
    have hlast := List.findSome?_eq_none_iff.1 hnone 16 (List.mem_range.2 (by decide))
    have hneither := withDigits?_eq_none hlast
    rcases exists_neighbour h haround hlead with hbelow | habove
    · exact absurd hbelow (Bool.eq_false_iff.1 hneither.1)
    · exact absurd habove (Bool.eq_false_iff.1 hneither.2)

end Playscript.Number

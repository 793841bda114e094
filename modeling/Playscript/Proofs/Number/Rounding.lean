/-
# Rounding to the nearest float

Rounding shifts a significand to the exponent that its number has room for (`Scale`) and keeps two
bits of what falls off, which say whether that is nothing, less than a half, a half or more
(`Stands`). So the result is the nearest float, and of two the even one: a number in the interval
around a float is rounded to that float, one below half the least float to zero, and one that is
half a step or more beyond the greatest float to an exponent that no float has
(`rounds_roundWithAccuracy`). Products and quotients are rounded so (`rounds_mul`, `rounds_div`).
No number is in the intervals of two floats (`RoundsTo.unique`).

Key definitions: `Stands`, `NearestEven`, `RoundsTo`, `Scale`, `Rounds`.
Key theorems: `Stands.nearestEven`, `scale_cases`, `RoundsTo.unique`, `rounds_roundWithAccuracy`,
`rounds_div`.
-/
import Playscript.Proofs.Number.Bits

namespace Playscript.Number

open Float.Model (UnpackedFloat Format totalExponent)
open Float.Model.UnpackedFloat

/-- A mantissa and its two bits stand for a number: the bits say whether what the number has
beyond the mantissa is nothing, less than a half, a half, or more. -/
def Stands : ExtendedMantissa → ℚ → Prop
  | ⟨m, false, false⟩, x => x = m
  | ⟨m, false, true⟩, x => (m : ℚ) < x ∧ x < m + 1 / 2
  | ⟨m, true, false⟩, x => x = m + 1 / 2
  | ⟨m, true, true⟩, x => (m : ℚ) + 1 / 2 < x ∧ x < m + 1

/-- A natural number is the nearest to a number, and even if another is as near. -/
structure NearestEven (x : ℚ) (n : Nat) : Prop where
  low : (n : ℚ) - 1 / 2 ≤ x
  high : x ≤ n + 1 / 2
  tie : n % 2 = 0 ∨ (n : ℚ) - 1 / 2 < x ∧ x < n + 1 / 2

/-- How far down from a significand numbers are rounded to it. Below the least significand of
an exponent floats lie twice as close. -/
def reach (m : Nat) (e : Int) : ℚ := if m = 2 ^ 52 ∧ e ≠ -1074 then 1 / 4 else 1 / 2

/-- A number lies in the interval around `m · 2 ^ e` whose numbers are rounded to it. -/
structure RoundsTo (q : ℚ) (m : Nat) (e : Int) : Prop where
  low : (m - reach m e) * 2 ^ e ≤ q
  high : q ≤ (m + 1 / 2) * 2 ^ e
  tie : m % 2 = 0 ∨ (m - reach m e) * 2 ^ e < q ∧ q < (m + 1 / 2) * 2 ^ e

/-- At an exponent a number has 53 binary digits before the point, or it is the least exponent and
it has no more. -/
structure Scale (q : ℚ) (t : Int) : Prop where
  least : -1074 ≤ t
  below : q < 2 ^ 53 * 2 ^ t
  normal : t = -1074 ∨ 2 ^ 52 * 2 ^ t ≤ q

/-- What a number without a sign is rounded to: to nothing up to half the least float, to the float
in whose interval it lies, or, from half a step beyond the greatest float on, to an exponent that
no float has. -/
inductive Rounds (q : ℚ) : UnpackedFloat → Prop where
  | zero : q ≤ 2 ^ (-1075 : Int) → Rounds q (.zero .positive)
  | finite {m : Nat} {e : Int} (h : 0 < m) : Fits m e → RoundsTo q m e →
    Rounds q (.finite .positive m e h)
  | beyond {m : Nat} {e : Int} (h : 0 < m) : 972 ≤ e → (2 ^ 53 - 1 / 2) * 2 ^ (971 : Int) ≤ q →
    Rounds q (.finite .positive m e h)

variable {q x : ℚ} {m n a r : Nat} {e f t : Int} {em : ExtendedMantissa} {acc : Accuracy}

/-! ### Shifting -/

theorem Stands.bounds (h : Stands em x) : (em.mantissa : ℚ) ≤ x ∧ x < em.mantissa + 1 := by
  obtain ⟨m, _ | _, _ | _⟩ := em
  · obtain rfl : x = m := h
    exact ⟨le_rfl, lt_add_one _⟩
  · obtain ⟨hlow, hhigh⟩ : (m : ℚ) < x ∧ x < m + 1 / 2 := h
    exact ⟨hlow.le, by linarith⟩
  · obtain rfl : x = m + 1 / 2 := h
    exact ⟨by linarith, by linarith⟩
  · obtain ⟨hlow, hhigh⟩ : (m : ℚ) + 1 / 2 < x ∧ x < m + 1 := h
    exact ⟨by linarith, hhigh⟩

/-- A shift by one digit halves the number. -/
theorem Stands.shiftRightOne (h : Stands em x) : Stands em.shiftRightOne (x / 2) := by
  obtain ⟨m, r, s⟩ := em
  obtain ⟨k, rfl | rfl⟩ : ∃ k, m = 2 * k ∨ m = 2 * k + 1 := ⟨m / 2, by omega⟩
  · have hhalf : 2 * k / 2 = k := by omega
    have hbit : (2 * k % 2 != 0) = false := by simp
    cases r <;> cases s <;>
      simp only [Stands, ExtendedMantissa.shiftRightOne, hhalf, hbit, Bool.or_false, Bool.or_true,
        Nat.cast_mul, Nat.cast_ofNat] at h ⊢
    · linarith
    · constructor <;> linarith
    · constructor <;> linarith
    · constructor <;> linarith
  · have hhalf : (2 * k + 1) / 2 = k := by omega
    have hbit : ((2 * k + 1) % 2 != 0) = true := by simp
    cases r <;> cases s <;>
      simp only [Stands, ExtendedMantissa.shiftRightOne, hhalf, hbit, Bool.or_false, Bool.or_true,
        Nat.cast_add, Nat.cast_mul, Nat.cast_ofNat, Nat.cast_one] at h ⊢
    · linarith
    · constructor <;> linarith
    · constructor <;> linarith
    · constructor <;> linarith

theorem Stands.shiftRight (h : Stands em x) (d : Nat) : Stands (em >>> d) (x / 2 ^ d) := by
  induction d with
  | zero => rwa [pow_zero, div_one]
  | succ d ih =>
    have hstep : em >>> (d + 1) = (em >>> d).shiftRightOne := rfl
    rw [hstep, pow_succ, ← div_div]
    exact ih.shiftRightOne

/-! ### The nearest natural number -/

theorem NearestEven.unique (hm : NearestEven x m) (hn : NearestEven x n) : m = n := by
  -- the one is not below the other: both would be tied, and they are neighbours
  have hnotlt : ∀ {m n : Nat}, NearestEven x m → NearestEven x n → ¬ m < n := by
    intro m n hm hn hlt
    have hle : (m : ℚ) + 1 ≤ n := by exact_mod_cast hlt
    have hmhigh := hm.high
    have hnlow := hn.low
    have hnext : n = m + 1 := by
      have hge : (n : ℚ) ≤ m + 1 := by linarith
      exact le_antisymm (by exact_mod_cast hge) hlt
    subst hnext
    push_cast at hnlow
    have hmeven := hm.tie.resolve_right fun h => by linarith [h.2]
    have hneven := hn.tie.resolve_right fun h => by
      have := h.1
      push_cast at this
      linarith
    omega
  exact le_antisymm (not_lt.1 (hnotlt hn hm)) (not_lt.1 (hnotlt hm hn))

/-- Rounding a mantissa gives the nearest natural number. -/
theorem Stands.nearestEven (h : Stands em x) : NearestEven x em.roundedMantissa := by
  obtain ⟨m, _ | _, _ | _⟩ := em
  · obtain rfl : x = m := h
    show NearestEven m m
    exact ⟨by linarith, by linarith, .inr ⟨by linarith, by linarith⟩⟩
  · obtain ⟨hlow, hhigh⟩ : (m : ℚ) < x ∧ x < m + 1 / 2 := h
    show NearestEven x m
    exact ⟨by linarith, hhigh.le, .inr ⟨by linarith, hhigh⟩⟩
  · obtain rfl : x = m + 1 / 2 := h
    show NearestEven _ (m + m % 2)
    rcases Nat.mod_two_eq_zero_or_one m with hm | hm
    · rw [hm, Nat.add_zero]
      exact ⟨by linarith, le_rfl, .inl hm⟩
    · rw [hm]
      exact ⟨by push_cast; linarith, by push_cast; linarith, .inl (by omega)⟩
  · obtain ⟨hlow, hhigh⟩ : (m : ℚ) + 1 / 2 < x ∧ x < m + 1 := h
    show NearestEven x (m + 1)
    have hcast : ((m + 1 : Nat) : ℚ) = m + 1 := Nat.cast_succ m
    exact ⟨by linarith, by linarith, .inr ⟨by linarith, by linarith⟩⟩

/-! ### The exponent of a number -/

theorem two_zpow_le (h : e ≤ f) : (2 : ℚ) ^ e ≤ 2 ^ f := zpow_le_zpow_right₀ (by norm_num) h

theorem two_zpow_succ (e : Int) : (2 : ℚ) ^ (e + 1) = 2 * 2 ^ e := by
  rw [zpow_add₀ two_ne_zero, zpow_one, mul_comm]

theorem reach_le (m : Nat) (e : Int) : reach m e ≤ 1 / 2 := by
  rw [reach]
  split <;> norm_num

/-- Where a number is rounded to a float of a greater exponent, that is the next one, and the number
is rounded up to twice its significand. -/
theorem scale_of_lt (hfits : Fits m e) (h : RoundsTo q m e) (ht : Scale q t) (hlt : t < e) :
    e = t + 1 ∧ NearestEven (q / 2 ^ t) (m * 2) := by
  have hpos := two_zpow_pos e
  have hpost := two_zpow_pos t
  have hlow := h.low
  have hbelow := ht.below
  have hleast := ht.least
  have hnormal : 2 ^ 52 ≤ m := hfits.normal.resolve_right (by omega)
  have htwo : 2 * (2 : ℚ) ^ t ≤ 2 ^ e := by
    rw [← two_zpow_succ]
    exact two_zpow_le hlt
  obtain rfl : m = 2 ^ 52 := by
    by_contra hne
    have hnext : (2 : ℚ) ^ 52 + 1 ≤ m := by exact_mod_cast (by omega : 2 ^ 52 + 1 ≤ m)
    have hreach := reach_le m e
    nlinarith
  have hreach : reach (2 ^ 52) e = 1 / 4 := if_pos ⟨rfl, by omega⟩
  rw [hreach] at hlow
  push_cast at hlow
  obtain rfl : e = t + 1 := by
    by_contra hne
    have hfour : 2 * (2 : ℚ) ^ (t + 1) ≤ 2 ^ e := by
      rw [← two_zpow_succ]
      exact two_zpow_le (by omega)
    rw [two_zpow_succ] at hfour
    linarith
  rw [two_zpow_succ] at hlow
  have hcast : ((2 ^ 52 * 2 : Nat) : ℚ) = 2 ^ 53 := by norm_num
  refine ⟨rfl, ?_, ?_, .inl (by decide)⟩
  · rw [hcast, le_div_iff₀ hpost]
    linarith
  · rw [hcast, div_le_iff₀ hpost]
    linarith

/-- At the exponent of a float a number that is rounded to it has its significand nearest. -/
theorem nearestEven_of_scale (h : RoundsTo q m e) (ht : Scale q e) :
    NearestEven (q / 2 ^ e) m := by
  have hpos := two_zpow_pos e
  by_cases hedge : m = 2 ^ 52 ∧ e ≠ -1074
  · -- here the interval reaches down a quarter, and the number is not below the significand
    obtain ⟨rfl, hne⟩ := hedge
    have hnormal := ht.normal.resolve_left hne
    have hcast : ((2 ^ 52 : Nat) : ℚ) = 2 ^ 52 := by norm_num
    refine ⟨?_, (div_le_iff₀ hpos).2 h.high, .inl (by decide)⟩
    rw [hcast, le_div_iff₀ hpos]
    linarith
  · have hreach : reach m e = 1 / 2 := if_neg hedge
    have hlow := h.low
    have htie := h.tie
    rw [hreach] at hlow htie
    exact ⟨(le_div_iff₀ hpos).2 hlow, (div_le_iff₀ hpos).2 h.high,
      htie.imp_right fun ⟨hlow, hhigh⟩ => ⟨(lt_div_iff₀ hpos).2 hlow, (div_lt_iff₀ hpos).2 hhigh⟩⟩

/-- A number that is rounded to a float has the exponent of that float and is rounded to its
significand, or the exponent below and is rounded to twice the significand. -/
theorem scale_cases (hfits : Fits m e) (h : RoundsTo q m e) (ht : Scale q t) :
    (t = e ∧ NearestEven (q / 2 ^ t) m) ∨
    (e = t + 1 ∧ NearestEven (q / 2 ^ t) (m * 2)) := by
  rcases lt_trichotomy t e with hlt | rfl | hgt
  · exact .inr (scale_of_lt hfits h ht hlt)
  · exact .inl ⟨rfl, nearestEven_of_scale h ht⟩
  · exfalso
    have hpos := two_zpow_pos e
    have hbelow : (m : ℚ) + 1 ≤ 2 ^ 53 := by exact_mod_cast hfits.below
    have hnormal : 2 ^ 52 * 2 ^ t ≤ q := ht.normal.resolve_left (by have := hfits.least; omega)
    have hhigh := h.high
    have htwo : 2 * (2 : ℚ) ^ e ≤ 2 ^ t := by
      rw [← two_zpow_succ]
      exact two_zpow_le hgt
    nlinarith

/-- A number that is rounded to a float has the exponent of the float or the one below. -/
theorem RoundsTo.exists_scale (hfits : Fits m e) (h : RoundsTo q m e) : ∃ t, Scale q t := by
  have hpos := two_zpow_pos e
  have hhigh := h.high
  have hbelow : (m : ℚ) + 1 ≤ 2 ^ 53 := by exact_mod_cast hfits.below
  by_cases hnormal : e = -1074 ∨ 2 ^ 52 * 2 ^ e ≤ q
  · refine ⟨e, hfits.least, ?_, hnormal⟩
    nlinarith
  · obtain ⟨hne, hlt⟩ := not_or.1 hnormal
    have hleast := hfits.least
    have hm : (2 : ℚ) ^ 52 ≤ m := by exact_mod_cast hfits.normal.resolve_right hne
    have htwo : (2 : ℚ) ^ e = 2 * 2 ^ (e - 1) := by rw [← two_zpow_succ, sub_add_cancel]
    have hlow := h.low
    have hreach := reach_le m e
    rw [htwo] at hlt hlow
    have hpos' := two_zpow_pos (e - 1)
    exact ⟨e - 1, by omega, by linarith, .inr (by nlinarith)⟩

/-- No number is rounded to two floats. -/
theorem RoundsTo.unique {m' : Nat} {e' : Int} (hfits : Fits m e) (h : RoundsTo q m e)
    (hfits' : Fits m' e') (h' : RoundsTo q m' e') : m = m' ∧ e = e' := by
  obtain ⟨t, ht⟩ := h.exists_scale hfits
  have hbelow := hfits.below
  have hbelow' := hfits'.below
  have hnormal := hfits.normal
  have hnormal' := hfits'.normal
  have hleast := ht.least
  rcases scale_cases hfits h ht with ⟨rfl, hnear⟩ | ⟨rfl, hnear⟩ <;>
    rcases scale_cases hfits' h' ht with ⟨rfl, hnear'⟩ | ⟨rfl, hnear'⟩ <;>
    have hsame := hnear.unique hnear'
  · exact ⟨hsame, rfl⟩
  · omega
  · omega
  · exact ⟨by omega, rfl⟩

theorem mantissa_ofMantissaAndAccuracy (a : Nat) (acc : Accuracy) :
    (ExtendedMantissa.ofMantissaAndAccuracy a acc).mantissa = a := by
  cases acc with
  | exact => rfl
  | inexact o => cases o <;> rfl

/-- The exponent wanted for what stands for a number is that of the number, if it is not below the
one there is. -/
theorem scale_of_stands (h : Stands (.ofMantissaAndAccuracy a acc) (q / 2 ^ f))
    (hf : f ≤ Format.binary64.targetExponent (totalExponent a f)) :
    Scale q (Format.binary64.targetExponent (totalExponent a f)) := by
  have hbounds := h.bounds
  rw [mantissa_ofMantissaAndAccuracy, le_div_iff₀ (two_zpow_pos f),
    div_lt_iff₀ (two_zpow_pos f)] at hbounds
  rw [targetExponent_eq] at hf ⊢
  generalize hT : totalExponent a f = T at hf
  have htotal : T = a.log2 + 1 + f := hT.symm
  refine ⟨le_max_right _ _, ?_, or_iff_not_imp_left.2 fun hne => ?_⟩
  · have hlog : (a : ℚ) + 1 ≤ 2 ^ ((a.log2 : Int) + 1) := by
      have hlt : a + 1 ≤ 2 ^ (a.log2 + 1) := Nat.lt_log2_self
      exact_mod_cast hlt
    calc q < (a + 1) * 2 ^ f := hbounds.2
      _ ≤ 2 ^ ((a.log2 : Int) + 1) * 2 ^ f := mul_le_mul_of_nonneg_right hlog (two_zpow_pos f).le
      _ = 2 ^ T := by rw [htotal, zpow_add₀ two_ne_zero (_ + 1) f]
      _ ≤ 2 ^ (53 + max (T - 53) (-1074)) := two_zpow_le (by omega)
      _ = 2 ^ 53 * 2 ^ max (T - 53) (-1074) := zpow_add₀ two_ne_zero _ _
  · have ht : max (T - 53) (-1074) = T - 53 := by omega
    have hpos : 0 < a := by
      refine Nat.pos_of_ne_zero fun hzero => ?_
      rw [hzero, Nat.log2_zero] at htotal
      omega
    have hlow := (totalExponent_bounds (e := f) hpos).1
    rw [hT] at hlow
    calc 2 ^ 52 * (2 : ℚ) ^ max (T - 53) (-1074) = 2 ^ (T - 1) := by
          rw [ht, show T - 1 = 52 + (T - 53) by ring, zpow_add₀ two_ne_zero]
          rfl
      _ ≤ a * 2 ^ f := hlow
      _ ≤ q := hbounds.1

/-! ### Rounding -/

/-- A significand below `2 ^ 53` is not shifted, if it is normal or at the least exponent. -/
theorem shiftToTargetExponent_same (hbelow : m < 2 ^ 53) (hleast : -1074 ≤ e)
    (hnormal : 2 ^ 52 ≤ m ∨ e = -1074) :
    shiftToTargetExponent .binary64 m e .exact = (⟨m, false, false⟩, e) := by
  have htarget : Format.binary64.targetExponent (totalExponent m e) = e := by
    have hlog : m.log2 ≤ 52 ∧ (2 ^ 52 ≤ m → 52 ≤ m.log2) := by
      rcases Nat.eq_zero_or_pos m with rfl | hpos
      · exact ⟨Nat.zero_le _, fun h => absurd h (by decide)⟩
      · have hm : m ≠ 0 := Nat.ne_of_gt hpos
        exact ⟨Nat.le_of_lt_succ ((Nat.log2_lt hm).2 hbelow), (Nat.le_log2 hm).2⟩
    rw [targetExponent_eq, totalExponent]
    omega
  have hexact := shiftToTargetExponent_exact (n := m) (e := e) (d := 0)
  rw [pow_zero, mul_one, htarget, Nat.cast_zero, Int.add_zero] at hexact
  exact hexact rfl

/-- The significand that rounding up has made too long is shifted once. -/
theorem shiftToTargetExponent_carry (hleast : -1074 ≤ t) :
    shiftToTargetExponent .binary64 (2 ^ 53) t .exact = (⟨2 ^ 52, false, false⟩, t + 1) := by
  have hlog : (2 ^ 53 : Nat).log2 = 53 := Nat.log2_two_pow
  have htarget : Format.binary64.targetExponent (totalExponent (2 ^ 53) t) = t + (1 : Nat) := by
    rw [targetExponent_eq, totalExponent, hlog]
    omega
  have hexact := shiftToTargetExponent_exact (n := 2 ^ 52) (e := t) (d := 1)
  rw [← Nat.pow_add] at hexact
  exact hexact htarget

theorem exists_shiftToTargetExponent
    (hf : f ≤ Format.binary64.targetExponent (totalExponent a f)) (acc : Accuracy) :
    ∃ d : Nat, Format.binary64.targetExponent (totalExponent a f) = f + d ∧
      shiftToTargetExponent .binary64 a f acc =
        (ExtendedMantissa.ofMantissaAndAccuracy a acc >>> d, f + d) :=
  ⟨(Format.binary64.targetExponent (totalExponent a f) - f).toNat, by omega, rfl⟩

/-- At the exponent of a number its nearest significand is that of the float it is rounded to. -/
theorem roundsTo_of_nearestEven (ht : Scale q t) (h : NearestEven (q / 2 ^ t) r) :
    RoundsTo q r t := by
  have hpos := two_zpow_pos t
  have hhigh := (div_le_iff₀ hpos).1 h.high
  by_cases hedge : r = 2 ^ 52 ∧ t ≠ -1074
  · obtain ⟨rfl, hne⟩ := hedge
    have hreach : reach (2 ^ 52) t = 1 / 4 := if_pos ⟨rfl, hne⟩
    have hnormal := ht.normal.resolve_left hne
    refine ⟨?_, hhigh, .inl (by decide)⟩
    rw [hreach]
    push_cast
    linarith
  · have hreach : reach r t = 1 / 2 := if_neg hedge
    refine ⟨?_, hhigh, h.tie.imp_right fun ⟨hlow, hhigh⟩ => ⟨?_, (div_lt_iff₀ hpos).1 hhigh⟩⟩
    · rw [hreach]
      exact (le_div_iff₀ hpos).1 h.low
    · rw [hreach]
      exact (lt_div_iff₀ hpos).1 hlow

/-- A number whose significand is rounded up to `2 ^ 53` is rounded to the least significand of the
next exponent. -/
theorem roundsTo_carry (ht : Scale q t) (h : NearestEven (q / 2 ^ t) (2 ^ 53)) :
    RoundsTo q (2 ^ 52) (t + 1) := by
  have hlow := (le_div_iff₀ (two_zpow_pos t)).1 h.low
  have hbelow := ht.below
  have hleast := ht.least
  have hreach : reach (2 ^ 52) (t + 1) = 1 / 4 := if_pos ⟨rfl, by omega⟩
  push_cast at hlow
  refine ⟨?_, ?_, .inl (by decide)⟩ <;> rw [two_zpow_succ]
  · rw [hreach]
    push_cast
    linarith
  · have hpos := two_zpow_pos t
    push_cast
    linarith

/-- The nearest significand at the exponent of a number is normal, if the exponent is not the
least. -/
theorem Scale.le_of_nearestEven (ht : Scale q t) (h : NearestEven (q / 2 ^ t) r)
    (hne : t ≠ -1074) : 2 ^ 52 ≤ r := by
  have hnormal := (le_div_iff₀ (two_zpow_pos t)).2 (ht.normal.resolve_left hne)
  have hhigh := h.high
  by_contra hlt
  have hlt : (r : ℚ) + 1 ≤ 2 ^ 52 := by exact_mod_cast Nat.lt_of_not_le hlt
  linarith

theorem Scale.le_two_pow (ht : Scale q t) (h : NearestEven (q / 2 ^ t) r) : r ≤ 2 ^ 53 := by
  have hbelow := (div_lt_iff₀ (two_zpow_pos t)).2 ht.below
  have hlow := h.low
  by_contra hlt
  have hlt : (2 : ℚ) ^ 53 + 1 ≤ r := by exact_mod_cast Nat.lt_of_not_le hlt
  linarith

/-- What rounding leaves of a significand that is the nearest at the exponent of a number. -/
theorem rounds_shiftToTargetExponent (ht : Scale q t) (h : NearestEven (q / 2 ^ t) r) :
    Rounds q
      (let (em, e) := shiftToTargetExponent .binary64 r t .exact
       if hm : em.mantissa = 0 then .zero .positive
       else .finite .positive em.mantissa e (Nat.pos_of_ne_zero hm)) := by
  have hleast := ht.least
  have hnormal : 2 ^ 52 ≤ r ∨ t = -1074 := or_iff_not_imp_right.2 (ht.le_of_nearestEven h)
  rcases Nat.lt_or_eq_of_le (ht.le_two_pow h) with hbelow | rfl
  · rw [shiftToTargetExponent_same hbelow hleast hnormal]
    dsimp only
    by_cases hzero : r = 0
    · rw [dif_pos hzero]
      subst hzero
      obtain rfl : t = -1074 := hnormal.resolve_left (by decide)
      have hhigh := (div_le_iff₀ (two_zpow_pos _)).1 h.high
      refine .zero (hhigh.trans_eq ?_)
      rw [show (-1075 : Int) = -1 + -1074 by norm_num, zpow_add₀ two_ne_zero]
      norm_num
    · rw [dif_neg hzero]
      by_cases hgreatest : t ≤ 971
      · exact .finite _ ⟨Nat.pos_of_ne_zero hzero, hbelow, hleast, hgreatest, hnormal⟩
          (roundsTo_of_nearestEven ht h)
      · refine .beyond _ (by omega) ?_
        have hq := ht.normal.resolve_left (by omega)
        have hpow : (2 : ℚ) * 2 ^ (971 : Int) ≤ 2 ^ t := by
          rw [← two_zpow_succ]
          exact two_zpow_le (by omega)
        have hpos := two_zpow_pos 971
        generalize (2 : ℚ) ^ (971 : Int) = top at hpow hpos
        linarith
  · rw [shiftToTargetExponent_carry hleast]
    dsimp only
    rw [dif_neg (by decide)]
    by_cases hgreatest : t + 1 ≤ 971
    · exact .finite _ ⟨by decide, by decide, by omega, hgreatest, .inl le_rfl⟩
        (roundsTo_carry ht h)
    · refine .beyond _ (by omega) ?_
      have hlow := (le_div_iff₀ (two_zpow_pos t)).1 h.low
      have hpow : (2 : ℚ) ^ (971 : Int) ≤ 2 ^ t := two_zpow_le (by omega)
      push_cast at hlow
      linarith

/-- What stands for a number is rounded as the number is. -/
theorem rounds_roundWithAccuracy (h : Stands (.ofMantissaAndAccuracy a acc) (q / 2 ^ f))
    (hf : f ≤ Format.binary64.targetExponent (totalExponent a f)) :
    Rounds q (roundWithAccuracy .binary64 .positive a f acc) := by
  have hscale := scale_of_stands h hf
  obtain ⟨d, hd, hshift⟩ := exists_shiftToTargetExponent hf acc
  rw [hd] at hscale
  have hnearest := (h.shiftRight d).nearestEven
  rw [div_div, ← zpow_natCast (2 : ℚ) d, ← zpow_add₀ two_ne_zero] at hnearest
  unfold roundWithAccuracy
  rw [hshift]
  exact rounds_shiftToTargetExponent hscale hnearest

/-! ### Products and quotients -/

/-- The accuracy of a fraction says where a natural number and the fraction lie. -/
theorem stands_accuracyOfFraction {num den : Nat} (h : num < den) (n : Nat) :
    Stands (.ofMantissaAndAccuracy n (accuracyOfFraction num den)) (n + num / den) := by
  have hden : (0 : ℚ) < den := by exact_mod_cast Nat.zero_lt_of_lt h
  have hone : (num : ℚ) / den < 1 := (div_lt_one hden).2 (by exact_mod_cast h)
  unfold accuracyOfFraction
  split
  · rename_i hzero
    show (n : ℚ) + num / den = n
    rw [hzero, Nat.cast_zero, zero_div, add_zero]
  · rename_i hne
    have hpos : (0 : ℚ) < num / den := div_pos (by exact_mod_cast Nat.pos_of_ne_zero hne) hden
    rcases hcompare : compare (2 * num) den with _ | _ | _
    · have hlt : ((2 * num : Nat) : ℚ) < den := by exact_mod_cast compare_lt_iff_lt.1 hcompare
      push_cast at hlt
      have hhalf : (num : ℚ) / den < 1 / 2 := by rw [div_lt_iff₀ hden]; linarith
      show (n : ℚ) < n + num / den ∧ (n : ℚ) + num / den < n + 1 / 2
      exact ⟨by linarith, by linarith⟩
    · have heq : ((2 * num : Nat) : ℚ) = den := by exact_mod_cast compare_eq_iff_eq.1 hcompare
      push_cast at heq
      have hhalf : (num : ℚ) / den = 1 / 2 := by rw [div_eq_iff hden.ne']; linarith
      show (n : ℚ) + num / den = n + 1 / 2
      rw [hhalf]
    · have hgt : (den : ℚ) < (2 * num : Nat) := by exact_mod_cast compare_gt_iff_gt.1 hcompare
      push_cast at hgt
      have hhalf : 1 / 2 < (num : ℚ) / den := by rw [lt_div_iff₀ hden]; linarith
      show (n : ℚ) + 1 / 2 < n + num / den ∧ (n : ℚ) + num / den < n + 1
      exact ⟨by linarith, by linarith⟩

variable {m₁ m₂ : Nat} {e₁ e₂ : Int}

/-- A product that has digits enough is rounded as the exact one is. -/
theorem rounds_mul (h₁ : 0 < m₁) (h₂ : 0 < m₂) (e₁ e₂ : Int)
    (hdigits : e₁ + e₂ ≤ Format.binary64.targetExponent (totalExponent (m₁ * m₂) (e₁ + e₂))) :
    Rounds (m₁ * 2 ^ e₁ * (m₂ * 2 ^ e₂))
      (mul .binary64 (.finite .positive m₁ e₁ h₁) (.finite .positive m₂ e₂ h₂)) := by
  have hstands : Stands (.ofMantissaAndAccuracy (m₁ * m₂) .exact)
      (m₁ * 2 ^ e₁ * (m₂ * 2 ^ e₂) / 2 ^ (e₁ + e₂)) := by
    show m₁ * 2 ^ e₁ * (m₂ * 2 ^ e₂) / 2 ^ (e₁ + e₂) = ((m₁ * m₂ : Nat) : ℚ)
    rw [div_eq_iff (two_zpow_pos _).ne', zpow_add₀ two_ne_zero]
    push_cast
    ring
  exact rounds_roundWithAccuracy hstands hdigits

theorem stands_div (h : 0 < n) (a : Nat) :
    Stands (.ofMantissaAndAccuracy (a / n) (accuracyOfFraction (a % n) n)) (a / n) := by
  have hn : (n : ℚ) ≠ 0 := by exact_mod_cast Nat.ne_of_gt h
  have hsplit : (a : ℚ) / n = ((a / n : Nat) : ℚ) + (a % n : Nat) / n := by
    have hcast : (n : ℚ) * (a / n : Nat) + (a % n : Nat) = a := by
      exact_mod_cast Nat.div_add_mod a n
    rw [div_eq_iff hn, add_mul, div_mul_cancel₀ _ hn, ← hcast]
    ring
  rw [hsplit]
  exact stands_accuracyOfFraction (Nat.mod_lt a h) _

/-- A shift that makes up for the difference in length leaves 53 digits to a quotient. -/
theorem le_log2_div {d : Nat} (h₁ : 0 < m₁) (h₂ : 0 < m₂) (hd : m₂.log2 + 53 ≤ m₁.log2 + d) :
    52 ≤ ((m₁ <<< d) / m₂).log2 := by
  have hle : 2 ^ 52 ≤ (m₁ <<< d) / m₂ := by
    rw [Nat.le_div_iff_mul_le h₂, Nat.shiftLeft_eq]
    calc 2 ^ 52 * m₂ ≤ 2 ^ 52 * 2 ^ (m₂.log2 + 1) := Nat.mul_le_mul_left _ Nat.lt_log2_self.le
      _ = 2 ^ (m₂.log2 + 53) := by rw [← Nat.pow_add]; congr 1; omega
      _ ≤ 2 ^ (m₁.log2 + d) := Nat.pow_le_pow_right Nat.two_pos hd
      _ = 2 ^ m₁.log2 * 2 ^ d := Nat.pow_add _ _ _
      _ ≤ m₁ * 2 ^ d := Nat.mul_le_mul_right _ (Nat.log2_self_le (Nat.ne_of_gt h₁))
  have hne : (m₁ <<< d) / m₂ ≠ 0 := Nat.ne_of_gt (Nat.lt_of_lt_of_le (Nat.two_pow_pos 52) hle)
  exact (Nat.le_log2 hne).2 hle

/-- The quotient that a division finds stands for the exact one, and has digits enough. -/
theorem divCore_spec (h₁ : 0 < m₁) (h₂ : 0 < m₂) (e₁ e₂ : Int) : ∃ a f acc,
    divCore .binary64 m₁ e₁ m₂ e₂ = (a, f, acc) ∧
      Stands (.ofMantissaAndAccuracy a acc) ((m₁ * 2 ^ e₁ / (m₂ * 2 ^ e₂)) / 2 ^ f) ∧
      f ≤ Format.binary64.targetExponent (totalExponent a f) := by
  obtain ⟨f, hf⟩ : ∃ f, f = min (e₁ - e₂)
      (Format.binary64.targetExponent (totalExponent m₁ e₁ - totalExponent m₂ e₂)) := ⟨_, rfl⟩
  obtain ⟨d, hd⟩ : ∃ d, d = (e₁ - e₂ - f).toNat := ⟨_, rfl⟩
  refine ⟨(m₁ <<< d) / m₂, f, accuracyOfFraction ((m₁ <<< d) % m₂) m₂, ?_, ?_, ?_⟩
  · rw [hd, hf]
    rfl
  · have hshift := shiftLeft_mul_zpow m₁ d (e₁ - e₂)
    rw [show e₁ - e₂ - (d : Int) = f by omega, zpow_sub₀ two_ne_zero] at hshift
    have hvalue : (m₁ * 2 ^ e₁ / (m₂ * 2 ^ e₂)) / 2 ^ f = ((m₁ <<< d : Nat) : ℚ) / m₂ := by
      have hpos := (two_zpow_pos f).ne'
      have hpos₂ := (two_zpow_pos e₂).ne'
      have hm₂ : (m₂ : ℚ) ≠ 0 := by exact_mod_cast Nat.ne_of_gt h₂
      field_simp at hshift ⊢
      linarith
    rw [hvalue]
    exact stands_div h₂ _
  · rw [targetExponent_eq, totalExponent, totalExponent] at hf
    rw [targetExponent_eq, totalExponent]
    by_cases hleast : f ≤ -1074
    · omega
    · have hlog := le_log2_div (d := d) h₁ h₂ (by omega)
      omega

/-- A quotient is rounded as the exact one is. -/
theorem rounds_div (h₁ : 0 < m₁) (h₂ : 0 < m₂) (e₁ e₂ : Int) :
    Rounds (m₁ * 2 ^ e₁ / (m₂ * 2 ^ e₂))
      (div .binary64 (.finite .positive m₁ e₁ h₁) (.finite .positive m₂ e₂ h₂)) := by
  obtain ⟨a, f, acc, hcore, hstands, hf⟩ := divCore_spec h₁ h₂ e₁ e₂
  unfold div
  dsimp only
  rw [hcore]
  exact rounds_roundWithAccuracy hstands hf

end Playscript.Number

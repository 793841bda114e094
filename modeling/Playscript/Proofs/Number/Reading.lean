/-
# Decimals are read as the nearest float

A decimal `n / 10 ^ k` is read by a division: of two floats that stand for `n` and `10 ^ k` where
there are such, and of `n` and `10 ^ k` themselves otherwise. Either way the float read is the
one that the decimal is rounded to (`nearest_ofScientific`), which is zero for a decimal that is
small enough and infinity for one that is large enough. There is one such float for every number
(`Nearest.unique`), so it is the nearest that tells what digits are read as (`ofDigits_eq_iff`).

Key definitions: `Nearest`, `StandsFor`, `decimal`.
Key theorems: `Nearest.unique`, `nearest_ofScientific`, `ofDigits_eq_iff`.
-/
import Playscript.Number.Reading
import Playscript.Proofs.Number.Rounding

namespace Playscript.Number

open Float.Model (UnpackedFloat Format totalExponent)
open Float.Model.UnpackedFloat

variable {x y : Float} {q : ℚ} {n k m : Nat} {e : Int}

/-- The float that a number without a sign is rounded to: zero up to half the least float, the float
in whose interval the number lies, and infinity from half a step beyond the greatest float on. -/
inductive Nearest (q : ℚ) (x : Float) : Prop where
  | zero : x.toModel.unpack = .zero .positive → q ≤ 2 ^ (-1075 : Int) → Nearest q x
  | finite {m : Nat} {e : Int} {h : 0 < m} : x.toModel.unpack = .finite .positive m e h →
    RoundsTo q m e → Nearest q x
  | infinity : x.toModel.unpack = .infinity .positive →
    (2 ^ 53 - 1 / 2) * 2 ^ (971 : Int) ≤ q → Nearest q x

/-! ### One nearest float -/

theorem two_zpow_half : (2 : ℚ) ^ (-1075 : Int) = 1 / 2 * 2 ^ (-1074 : Int) := by
  rw [show (-1075 : Int) = -1 + -1074 by norm_num, zpow_add₀ two_ne_zero]
  norm_num

/-- What is rounded to a float is greater than half the least one. -/
theorem RoundsTo.lt (hfits : Fits m e) (h : RoundsTo q m e) : 2 ^ (-1075 : Int) < q := by
  have hpos := two_zpow_pos e
  have hleast : (2 : ℚ) ^ (-1074 : Int) ≤ 2 ^ e := two_zpow_le hfits.least
  rw [two_zpow_half]
  rcases Nat.lt_or_eq_of_le hfits.pos with hm | rfl
  · have hm : (2 : ℚ) ≤ m := by exact_mod_cast hm
    have hreach := reach_le m e
    have hlow := h.low
    nlinarith
  · -- the least significand is odd, so the number is inside its interval
    have hreach : reach (0 + 1) e = 1 / 2 := if_neg fun hedge => absurd hedge.1 (by decide)
    obtain ⟨hlow, -⟩ := h.tie.resolve_left (by decide)
    rw [hreach] at hlow
    push_cast at hlow
    linarith

/-- What is rounded to a float is less than half a step beyond the greatest one. -/
theorem RoundsTo.lt_beyond (hfits : Fits m e) (h : RoundsTo q m e) :
    q < (2 ^ 53 - 1 / 2) * 2 ^ (971 : Int) := by
  have hpos := two_zpow_pos e
  have hgreatest : (2 : ℚ) ^ e ≤ 2 ^ (971 : Int) := two_zpow_le hfits.greatest
  refine lt_of_lt_of_le ?_ (mul_le_mul_of_nonneg_left hgreatest (by norm_num))
  have hbelow := hfits.below
  rcases Nat.lt_or_eq_of_le (Nat.le_sub_one_of_lt hbelow) with hm | rfl
  · have hm : (m : ℚ) + 2 ≤ 2 ^ 53 := by exact_mod_cast (by omega : m + 2 ≤ 2 ^ 53)
    have hhigh := h.high
    nlinarith
  · -- the greatest significand is odd, so the number is inside its interval
    obtain ⟨-, hhigh⟩ := h.tie.resolve_left (by decide)
    have hcast : ((2 ^ 53 - 1 : Nat) : ℚ) + 1 / 2 = 2 ^ 53 - 1 / 2 := by norm_num
    rwa [hcast] at hhigh

theorem fits_of_unpack {h : 0 < m} {s : Sign} (hx : x.toModel.unpack = .finite s m e h) :
    Fits m e := by
  have hcanonical := canonical_value? x
  rwa [hx] at hcanonical

/-- A number has one nearest float. -/
theorem Nearest.unique (hx : Nearest q x) (hy : Nearest q y) : x = y := by
  have hapart : ¬ (2 ^ 53 - 1 / 2) * 2 ^ (971 : Int) ≤ (2 : ℚ) ^ (-1075 : Int) := by
    have hle : (2 : ℚ) ^ (-1075 : Int) ≤ 2 ^ (971 : Int) := two_zpow_le (by decide)
    have hpos := two_zpow_pos 971
    generalize (2 : ℚ) ^ (971 : Int) = top at hle hpos ⊢
    intro hbeyond
    linarith
  refine eq_of_unpack_eq ?_
  cases hx with
  | zero hx hsmall =>
    cases hy with
    | zero hy _ => exact hx.trans hy.symm
    | finite hy hround => exact absurd (hround.lt (fits_of_unpack hy)) hsmall.not_gt
    | infinity hy hbeyond => exact absurd (hbeyond.trans hsmall) hapart
  | finite hx hround =>
    have hfits := fits_of_unpack hx
    cases hy with
    | zero hy hsmall => exact absurd (hround.lt hfits) hsmall.not_gt
    | finite hy hround' =>
      obtain ⟨rfl, rfl⟩ := hround.unique hfits (fits_of_unpack hy) hround'
      exact hx.trans hy.symm
    | infinity hy hbeyond => exact absurd (hround.lt_beyond hfits) hbeyond.not_gt
  | infinity hx hbeyond =>
    cases hy with
    | zero hy hsmall => exact absurd (hbeyond.trans hsmall) hapart
    | finite hy hround => exact absurd (hround.lt_beyond (fits_of_unpack hy)) hbeyond.not_gt
    | infinity hy _ => exact hx.trans hy.symm

/-- An exponent that no float has is packed as infinity. -/
theorem pack_beyond (h : 0 < m) (he : 972 ≤ e) :
    pack .binary64 (.finite .positive m e h) = packedInfinity .binary64 .positive := by
  rw [pack_finite, if_pos (by omega)]

/-- What a number is rounded to is packed as the nearest float. -/
theorem Rounds.nearest {u : UnpackedFloat} (h : Rounds q u)
    (hx : x.toModel.unpack = unpack .binary64 (pack .binary64 u)) : Nearest q x := by
  cases h with
  | zero hsmall => exact .zero (hx.trans (unpack_pack (u := .zero .positive) trivial)) hsmall
  | finite h hfits hround =>
    exact .finite (hx.trans (unpack_pack (u := .finite .positive _ _ h) hfits)) hround
  | beyond h he hbeyond =>
    rw [pack_beyond h he] at hx
    exact .infinity (hx.trans (unpack_pack (u := .infinity .positive) trivial)) hbeyond

/-! ### Powers of two -/

/-- A power is a quotient of two powers, one of which is one. -/
theorem zpow_eq_div (b : ℚ) (e : Int) : b ^ e = b ^ e.toNat / b ^ (-e).toNat := by
  rcases le_total 0 e with h | h
  · obtain ⟨d, rfl⟩ := Int.eq_ofNat_of_zero_le h
    simp
  · obtain ⟨d, hd⟩ := Int.eq_ofNat_of_zero_le (Int.neg_nonneg.2 h)
    obtain rfl : e = -(d : Int) := by omega
    simp

/-! ### Numbers that floats stand for -/

/-- A float stands for a positive number. -/
def StandsFor (x : Float) (q : ℚ) : Prop :=
  ∃ m e h, x.toModel.unpack = .finite .positive m e h ∧ (m : ℚ) * 2 ^ e = q

theorem standsFor_toFloat (hpos : 0 < n) (hn : n < 2 ^ 53) : StandsFor n.toUInt64.toFloat n := by
  obtain ⟨m, e, hm, hround, hvalue⟩ :=
    round_exact (s := .positive) (e := 0) (f := 0) hpos hn (by decide) (by decide) rfl
  have hnat : n.toUInt64.toNat = n := Nat.mod_eq_of_lt (by omega)
  have hof : UnpackedFloat.ofUInt64 .binary64 n.toUInt64 = .finite .positive m e hm.pos := by
    unfold UnpackedFloat.ofUInt64 UnpackedFloat.ofNat UnpackedFloat.ofInt UnpackedFloat.normalize
    rw [hnat, compare_gt_iff_gt.2 (by exact_mod_cast hpos)]
    exact hround
  refine ⟨m, e, hm.pos, ?_, by rw [hvalue, zpow_zero, mul_one]⟩
  show unpack .binary64 (pack .binary64 (UnpackedFloat.ofUInt64 .binary64 n.toUInt64)) = _
  rw [hof]
  exact unpack_pack hm

/-- What the bits of the powers of ten in the table say. -/
theorem powersOfTen_fields : ∀ k : Fin 23,
    let x := Float.exactlyRepresentablePowersOfTen[k]
    isNegative x = false ∧ exponentField x ≠ 2047 ∧ exponentField x ≠ 0 ∧
      (Scaled.ofFloat x).significand * 2 ^ (Scaled.ofFloat x).exponent.toNat =
        10 ^ k.val * 2 ^ (-(Scaled.ofFloat x).exponent).toNat := by
  decide +kernel

theorem standsFor_powerOfTen (k : Fin 23) :
    StandsFor Float.exactlyRepresentablePowersOfTen[k] (10 ^ k.val) := by
  obtain ⟨hsign, hlast, hfirst, hvalue⟩ := powersOfTen_fields k
  generalize Float.exactlyRepresentablePowersOfTen[k] = x at *
  rcases unpack_cases x with ⟨-, h, -⟩ | ⟨-, h, -⟩ | ⟨-, h, -⟩ | ⟨⟨m, e, hm, hunpack, hscaled⟩, -⟩
  · exact absurd h hlast
  · exact absurd h hlast
  · exact absurd h hfirst
  · rw [hscaled] at hvalue
    have hsign : signOf x = .positive := by rw [signOf, hsign]; rfl
    have hcast : (m : ℚ) * 2 ^ e.toNat = 10 ^ k.val * 2 ^ (-e).toNat := by exact_mod_cast hvalue
    refine ⟨m, e, hm, hsign ▸ hunpack, ?_⟩
    rw [zpow_eq_div, ← mul_div_assoc, hcast,
      mul_div_cancel_right₀ _ (pow_ne_zero _ two_ne_zero)]

/-- The quotient of floats is the float nearest to the quotient of their numbers. -/
theorem nearest_div {a b : ℚ} (hx : StandsFor x a) (hy : StandsFor y b) :
    Nearest (a / b) (x / y) := by
  obtain ⟨m₁, e₁, h₁, hx, rfl⟩ := hx
  obtain ⟨m₂, e₂, h₂, hy, rfl⟩ := hy
  have hrounds := rounds_div h₁ h₂ e₁ e₂
  rw [← hx, ← hy] at hrounds
  exact hrounds.nearest rfl

/-! ### Decimals -/

/-- With more zeros behind the point than are read, a decimal is less than half the least float. -/
theorem small_of_places (h : 2048 + n.log2 < k) : (n : ℚ) / 10 ^ k ≤ 2 ^ (-1075 : Int) := by
  have hn : (n : ℚ) < 2 ^ (n.log2 + 1) := by exact_mod_cast Nat.lt_log2_self
  have hten : (2 : ℚ) ^ k ≤ 10 ^ k := pow_le_pow_left₀ (by norm_num) (by norm_num) k
  rw [div_le_iff₀ (by positivity)]
  calc (n : ℚ) ≤ 2 ^ (n.log2 + 1) := hn.le
    _ = 2 ^ ((n.log2 + 1 : Nat) : Int) := (zpow_natCast _ _).symm
    _ ≤ 2 ^ (-1075 + k : Int) := two_zpow_le (by push_cast; omega)
    _ = 2 ^ (-1075 : Int) * 2 ^ k := by rw [zpow_add₀ two_ne_zero, zpow_natCast]
    _ ≤ 2 ^ (-1075 : Int) * 10 ^ k := mul_le_mul_of_nonneg_left hten (two_zpow_pos _).le

/-- A natural number is shifted by 53 digits, and so has digits enough. -/
theorem rounds_whole (hn : 0 < n) (h₁ : 0 < n <<< 53) (h₂ : 0 < 1) :
    Rounds n
      (mul .binary64 (.finite .positive (n <<< 53) (-53) h₁) (.finite .positive 1 0 h₂)) := by
  have hvalue := shiftLeft_mul_zpow n 53 0
  rw [zpow_zero, mul_one] at hvalue
  have hone : (n <<< 53 : Nat) * (2 : ℚ) ^ (-53 : Int) * ((1 : Nat) * 2 ^ (0 : Int)) = n := by
    rw [Nat.cast_one, zpow_zero, mul_one, mul_one]
    exact hvalue
  have hlog : 53 ≤ (n <<< 53).log2 := by
    rw [Nat.shiftLeft_eq, Nat.le_log2 (by positivity)]
    exact Nat.le_mul_of_pos_left _ hn
  have hrounds := rounds_mul h₁ h₂ (-53) 0 <| by
    rw [targetExponent_eq, totalExponent, Nat.mul_one]
    omega
  rwa [hone] at hrounds

/-- A decimal is rounded as it is, whatever its size. -/
theorem rounds_ofScientific (n k : Nat) :
    Rounds (n / 10 ^ k) (UnpackedFloat.ofScientific .binary64 n (Int.negOfNat k)) := by
  have hbits : (2 : Int) ^ Format.binary64.exponentBits = 2048 := rfl
  have hneg : Int.negOfNat k = -(k : Int) := Int.negOfNat_eq
  unfold UnpackedFloat.ofScientific
  rcases Nat.eq_zero_or_pos n with rfl | hn
  · rw [dif_pos rfl, Nat.cast_zero, zero_div]
    exact .zero (two_zpow_pos _).le
  rw [dif_neg (Nat.ne_of_gt hn), hbits, hneg, if_neg (by omega)]
  by_cases hsmall : 2048 + n.log2 < k
  · rw [if_pos (by omega)]
    exact .zero (small_of_places hsmall)
  rw [if_neg (by omega)]
  rcases Nat.eq_zero_or_pos k with rfl | hk
  · rw [if_pos (by omega), pow_zero, div_one]
    exact rounds_whole hn _ _
  · rw [if_neg (by omega)]
    have hplaces : (-(-(k : Int))).toNat = k := by omega
    have hten : 0 < 10 ^ (-(-(k : Int))).toNat := Nat.pow_pos (Nat.succ_pos 9)
    have hvalue : (n : ℚ) * 2 ^ (0 : Int) / ((10 ^ (-(-(k : Int))).toNat : Nat) * 2 ^ (0 : Int)) =
        n / 10 ^ k := by
      rw [hplaces, zpow_zero, mul_one, mul_one, Nat.cast_pow, Nat.cast_ofNat]
    exact hvalue ▸ rounds_div hn hten 0 0

/-- A decimal is read as the float nearest to it. -/
theorem nearest_ofScientific (n k : Nat) : Nearest (n / 10 ^ k) (Float.ofScientific n true k) := by
  unfold Float.ofScientific
  split
  · rename_i hsmall
    have hten := standsFor_powerOfTen ⟨k, by omega⟩
    rcases Nat.eq_zero_or_pos n with rfl | hn
    · obtain ⟨m, e, hm, hunpack, -⟩ := hten
      have hzero : Rounds (0 : Nat) (UnpackedFloat.div .binary64 (.zero .positive)
          (.finite .positive m e hm)) := .zero (by rw [Nat.cast_zero]; exact (two_zpow_pos _).le)
      rw [Nat.cast_zero, zero_div]
      rw [← hunpack, Nat.cast_zero] at hzero
      exact hzero.nearest rfl
    · exact nearest_div (standsFor_toFloat hn hsmall.1) hten
  · exact (rounds_ofScientific n k).nearest rfl

/-- A decimal in the interval around a float is read as that float. -/
theorem ofScientific_eq {h : 0 < m} (hx : x.toModel.unpack = .finite .positive m e h)
    (hq : RoundsTo (n / 10 ^ k) m e) : Float.ofScientific n true k = x :=
  (nearest_ofScientific n k).unique (.finite hx hq)

/-! ### Digits -/

/-- The number that digits before and after a point stand for. -/
def decimal (whole fraction : List Char) : ℚ :=
  Nat.ofDigitChars 10 whole 0 + Nat.ofDigitChars 10 fraction 0 / 10 ^ fraction.length

theorem naturalOf_eq (ds : List Char) : naturalOf ds = Nat.ofDigitChars 10 ds 0 := rfl

theorem naturalOf_append (whole fraction : List Char) :
    (naturalOf (whole ++ fraction) : ℚ) / 10 ^ fraction.length = decimal whole fraction := by
  rw [naturalOf_eq, Nat.ofDigitChars_append, Nat.ofDigitChars_eq_ofDigitChars_zero, decimal]
  push_cast
  field_simp

/-- Digits are read as the float nearest to the number that they stand for, and as no other. -/
theorem ofDigits_eq_iff {whole fraction : List Char} :
    ofDigits whole fraction = x ↔ Nearest (decimal whole fraction) x := by
  have hnearest := nearest_ofScientific (naturalOf (whole ++ fraction)) fraction.length
  rw [naturalOf_append] at hnearest
  exact ⟨fun h => h ▸ hnearest, hnearest.unique⟩

end Playscript.Number

/-
# The numbers that floats stand for

A finite float stands for the rational number `± m · 2 ^ e` of its significand and
its exponent (`value?`). Every float is taken apart in one way, with the largest
significand below `2 ^ 53` that the least exponent leaves room for (`Fits`), so
that floats are ordered as their numbers are (`lt_iff`).

Where a float stands for the sum of two numbers, the sum of their floats stands for
it as well: nothing is rounded that needs no rounding (`value?_add`). For the integers
from one that a float stands for up to another there is a float each only if there are
none, or none of them is beyond `2 ^ 53` (`integers_iff`).

Key definitions: `value?`, `Fits`, `Canonical`, `range`.
Key theorems: `unpack_pack`, `round_exact`, `value?_add`, `lt_iff`, `integers_iff`.
-/
import Mathlib.Tactic.FieldSimp
import Mathlib.Tactic.Linarith
import Mathlib.Tactic.Positivity
import Mathlib.Tactic.Ring

namespace Playscript.Number

open Float.Model (UnpackedFloat Format totalExponent)
open Float.Model.UnpackedFloat

/-! ### Values -/

/-- The number `± m · 2 ^ e`. -/
def signed (s : Sign) (m : Nat) (e : Int) : ℚ := (s.apply m : ℤ) * 2 ^ e

@[simp] theorem signed_positive (m : Nat) (e : Int) : signed .positive m e = m * 2 ^ e := by
  simp [signed, Sign.apply]

@[simp] theorem signed_negative (m : Nat) (e : Int) : signed .negative m e = -(m * 2 ^ e) := by
  simp [signed, Sign.apply]

/-- The number that a float taken apart stands for. -/
def rational? : UnpackedFloat → Option ℚ
  | .zero _ => some 0
  | .finite s m e _ => some (signed s m e)
  | .infinity _ | .notANumber => none

/-- The number that a float stands for, if it is finite. -/
def value? (x : Float) : Option ℚ := rational? x.toModel.unpack

/-- A significand and its exponent, as they are read off the bits of a float. -/
structure Fits (m : Nat) (e : Int) : Prop where
  pos : 0 < m
  below : m < 2 ^ 53
  least : -1074 ≤ e
  greatest : e ≤ 971
  normal : 2 ^ 52 ≤ m ∨ e = -1074

/-- A float taken apart as its bits are. -/
def Canonical : UnpackedFloat → Prop
  | .finite _ m e _ => Fits m e
  | _ => True

/-! ### Bits -/

theorem finite_congr {s : Sign} {m n : Nat} {e f : Int} {hm : 0 < m} {hn : 0 < n} (hmn : m = n)
    (hef : e = f) : UnpackedFloat.finite s m e hm = .finite s n f hn := by
  subst hmn hef
  rfl

theorem toNat_append_one (m : BitVec 52) : (1#1 ++ m).toNat = 2 ^ 52 + m.toNat := by
  rw [BitVec.toNat_append, ← Nat.shiftLeft_add_eq_or_of_lt m.isLt]
  rfl

theorem unpackSign_packComponents (spec : Format) (s : Sign) (e : BitVec spec.exponentBits)
    (m : BitVec spec.mantissaBitsWithoutImplicit) :
    unpackSign (packComponents spec s e m) = s.toBitVec := by
  apply BitVec.eq_of_getLsbD_eq
  intro i hi
  obtain rfl : i = 0 := by omega
  show ((packComponents spec s e m).extractLsb
    (spec.mantissaBitsWithoutImplicit + spec.exponentBits)
    (spec.mantissaBitsWithoutImplicit + spec.exponentBits)).getLsbD 0 = _
  simp [packComponents, BitVec.getLsbD_append, BitVec.getElem_append]

theorem ofBitVec_toBitVec (s : Sign) : Sign.ofBitVec s.toBitVec = s := by
  cases s <;> rfl

section Unpacking

variable {b : BitVec Format.binary64.numBits} {s : Sign} {exponent mantissa : Nat}

/-- What the last exponent stands for. -/
theorem unpack_last (hs : Sign.ofBitVec (unpackSign b) = s)
    (hm : (unpackMantissa b).toNat = mantissa) (he : (unpackExponent b).toNat = 2047) :
    unpack .binary64 b = if mantissa = 0 then .infinity s else .notANumber := by
  subst hs hm
  have hlast : unpackExponent b = -1#_ := BitVec.eq_of_toNat_eq he
  have hnone : unpackMantissa b = 0#_ ↔ (unpackMantissa b).toNat = 0 := BitVec.toNat_inj.symm
  unfold unpack
  dsimp only
  rw [if_pos hlast]
  exact if_congr hnone rfl rfl

/-- What any other exponent stands for. -/
theorem unpack_eq (hs : Sign.ofBitVec (unpackSign b) = s)
    (hm : (unpackMantissa b).toNat = mantissa) (he : (unpackExponent b).toNat = exponent)
    (hlast : exponent ≠ 2047) :
    unpack .binary64 b =
      if exponent = 0 then
        if h : mantissa = 0 then .zero s
        else .finite s mantissa (-1074) (Nat.pos_of_ne_zero h)
      else .finite s (2 ^ 52 + mantissa) (exponent - 1075) (by omega) := by
  subst hs hm he
  have hlast : unpackExponent b ≠ -1#_ := fun h => hlast (congrArg BitVec.toNat h)
  have hzero : unpackExponent b = 0#_ ↔ (unpackExponent b).toNat = 0 := BitVec.toNat_inj.symm
  have hnone : unpackMantissa b = 0#_ ↔ (unpackMantissa b).toNat = 0 := BitVec.toNat_inj.symm
  unfold unpack
  dsimp only
  rw [if_neg hlast]
  by_cases h : (unpackExponent b).toNat = 0
  · rw [if_pos (hzero.2 h), if_pos h]
    by_cases h' : (unpackMantissa b).toNat = 0
    · rw [dif_pos (hnone.2 h'), dif_pos h']
    · rw [dif_neg (mt hnone.1 h'), dif_neg h']
      exact finite_congr rfl (by rw [h]; rfl)
  · rw [if_neg (mt hzero.1 h), if_neg h]
    exact finite_congr (toNat_append_one _) rfl

theorem canonical_unpack (b : BitVec Format.binary64.numBits) :
    Canonical (unpack .binary64 b) := by
  have hm : (unpackMantissa b).toNat < 2 ^ 52 := (unpackMantissa b).isLt
  have he : (unpackExponent b).toNat < 2 ^ 11 := (unpackExponent b).isLt
  by_cases hlast : (unpackExponent b).toNat = 2047
  · rw [unpack_last rfl rfl hlast]
    by_cases h : (unpackMantissa b).toNat = 0
    · rw [if_pos h]
      trivial
    · rw [if_neg h]
      trivial
  · rw [unpack_eq rfl rfl rfl hlast]
    by_cases hzero : (unpackExponent b).toNat = 0
    · rw [if_pos hzero]
      by_cases h : (unpackMantissa b).toNat = 0
      · rw [dif_pos h]
        trivial
      · rw [dif_neg h]
        exact ⟨Nat.pos_of_ne_zero h, by omega, by decide, by decide, .inr rfl⟩
    · rw [if_neg hzero]
      exact ⟨by omega, by omega, by omega, by omega, .inl (by omega)⟩

end Unpacking

section Packing

variable {s : Sign} {m : Nat} {e : Int}

/-- What is unpacked from components that are not those of an infinity. -/
theorem unpack_packComponents (exponent : BitVec 11) (mantissa : BitVec 52)
    (he : exponent.toNat ≠ 2047) :
    unpack .binary64 (packComponents .binary64 s exponent mantissa) =
      if exponent.toNat = 0 then
        if h : mantissa.toNat = 0 then .zero s
        else .finite s mantissa.toNat (-1074) (Nat.pos_of_ne_zero h)
      else .finite s (2 ^ 52 + mantissa.toNat) (exponent.toNat - 1075) (by omega) := by
  refine unpack_eq ?_ ?_ ?_ he
  · rw [unpackSign_packComponents, ofBitVec_toBitVec]
  · rw [unpackMantissa_packComponents]
  · rw [unpackExponent_packComponents]

theorem Fits.log2 (h : Fits m e) : m.log2 ≤ 52 ∧ (m.log2 = 52 ↔ 2 ^ 52 ≤ m) := by
  have hm : m ≠ 0 := Nat.ne_of_gt h.pos
  have hlt : m.log2 < 53 := (Nat.log2_lt hm).2 h.below
  have hle : 52 ≤ m.log2 ↔ 2 ^ 52 ≤ m := Nat.le_log2 hm
  exact ⟨by omega, by rw [← hle]; omega⟩

/-- How a significand and an exponent are packed. The field of the exponent is zero where the
significand lacks digits, and where the field is too small an infinity is packed. -/
theorem pack_finite (hm : 0 < m) : pack .binary64 (.finite s m e hm) =
    if 2 ^ 11 ≤ (e + 1075).toNat + 1 then packedInfinity .binary64 s
    else if m.log2 + 1 = 53 then
      packComponents .binary64 s (BitVec.ofNat 11 (e + 1075).toNat) (BitVec.ofNat 52 m)
    else packComponents .binary64 s 0#11 (BitVec.ofNat 52 m) := by
  have hbiased : (e + Format.binary64.exponentBias +
      Format.binary64.mantissaBitsWithoutImplicit).toNat = (e + 1075).toNat :=
    congrArg Int.toNat (Int.add_assoc e 1023 52)
  rw [← hbiased]
  rfl

/-- A float that is taken apart as bits are is packed without loss. -/
theorem unpack_pack {u : UnpackedFloat} (h : Canonical u) :
    unpack .binary64 (pack .binary64 u) = u := by
  cases u with
  | notANumber => rfl
  | infinity s => cases s <;> rfl
  | zero s => cases s <;> rfl
  | finite s m e hm =>
    have hfits : Fits m e := h
    have hlog := hfits.log2
    obtain ⟨-, hbelow, hleast, hgreatest, hnormal⟩ := hfits
    have hexponent : (BitVec.ofNat 11 (e + 1075).toNat).toNat = (e + 1075).toNat :=
      Nat.mod_eq_of_lt (by omega)
    rw [pack_finite, if_neg (by omega)]
    by_cases hfull : m.log2 = 52
    · have h52 : 2 ^ 52 ≤ m := hlog.2.1 hfull
      have hmantissa : (BitVec.ofNat 52 m).toNat = m - 2 ^ 52 := by
        rw [BitVec.toNat_ofNat]
        omega
      rw [if_pos (by omega)]
      refine (unpack_packComponents _ _ (by omega)).trans ?_
      rw [if_neg (by omega)]
      exact finite_congr (by omega) (by omega)
    · have h52 : m < 2 ^ 52 := Nat.lt_of_not_le (mt hlog.2.2 hfull)
      have hmantissa : (BitVec.ofNat 52 m).toNat = m := Nat.mod_eq_of_lt h52
      rw [if_neg (by omega)]
      refine (unpack_packComponents _ _ (by decide)).trans ?_
      rw [if_pos (show (0#11).toNat = 0 from rfl), dif_neg (by omega)]
      exact finite_congr hmantissa (by omega)

end Packing

/-! ### Rounding -/

/-- The exponent that a float wants for a number. -/
theorem targetExponent_eq (t : Int) : Format.binary64.targetExponent t = max (t - 53) (-1074) := rfl

section Rounding

variable {s : Sign} {m n : Nat} {e f : Int}

theorem two_zpow_pos (e : Int) : (0 : ℚ) < 2 ^ e := zpow_pos (by norm_num) e

theorem shiftLeft_mul_zpow (m d : Nat) (e : Int) :
    ((m <<< d : Nat) : ℚ) * 2 ^ (e - d) = m * 2 ^ e := by
  rw [Nat.shiftLeft_eq, zpow_sub₀ two_ne_zero, zpow_natCast]
  push_cast
  field_simp

/-- A number lies between two powers of two. -/
theorem totalExponent_bounds (hm : 0 < m) :
    (2 : ℚ) ^ (totalExponent m e - 1) ≤ m * 2 ^ e ∧ (m : ℚ) * 2 ^ e < 2 ^ totalExponent m e := by
  have hlow : ((2 ^ m.log2 : Nat) : ℚ) ≤ m := by exact_mod_cast Nat.log2_self_le (Nat.ne_of_gt hm)
  have hhigh : (m : ℚ) < (2 ^ (m.log2 + 1) : Nat) := by exact_mod_cast Nat.lt_log2_self
  have hpos := two_zpow_pos e
  constructor
  · rw [totalExponent, show (m.log2 : Int) + 1 + e - 1 = m.log2 + e by ring, zpow_add₀ two_ne_zero,
      zpow_natCast]
    push_cast at hlow
    exact mul_le_mul_of_nonneg_right hlow hpos.le
  · have hcast : (m.log2 : Int) + 1 = ((m.log2 + 1 : Nat) : Int) := rfl
    rw [totalExponent, zpow_add₀ two_ne_zero, hcast, zpow_natCast]
    push_cast at hhigh
    exact mul_lt_mul_of_pos_right hhigh hpos

/-- The powers depend on the number only. -/
theorem totalExponent_congr (hm : 0 < m) (hn : 0 < n) (h : (m : ℚ) * 2 ^ e = n * 2 ^ f) :
    totalExponent m e = totalExponent n f := by
  have hm := totalExponent_bounds (e := e) hm
  have hn := totalExponent_bounds (e := f) hn
  rw [h] at hm
  have hlt := (zpow_lt_zpow_iff_right₀ (by norm_num : (1 : ℚ) < 2)).1 (hm.1.trans_lt hn.2)
  have hgt := (zpow_lt_zpow_iff_right₀ (by norm_num : (1 : ℚ) < 2)).1 (hn.1.trans_lt hm.2)
  omega

/-- Zeros at the end are dropped without loss. -/
theorem shiftRight_exact (m d : Nat) :
    (⟨m * 2 ^ d, false, false⟩ : ExtendedMantissa) >>> d = ⟨m, false, false⟩ := by
  induction d generalizing m with
  | zero => exact congrArg (ExtendedMantissa.mk · false false) (Nat.mul_one m)
  | succ d ih =>
    have hstep : (⟨m * 2 ^ (d + 1), false, false⟩ : ExtendedMantissa) >>> (d + 1) =
        ExtendedMantissa.shiftRightOne
          ((⟨m * 2 * 2 ^ d, false, false⟩ : ExtendedMantissa) >>> d) := by
      rw [Nat.mul_assoc, ← Nat.pow_succ']
      rfl
    rw [hstep, ih]
    simp [ExtendedMantissa.shiftRightOne]

theorem shiftToTargetExponent_exact {d : Nat}
    (h : Format.binary64.targetExponent (totalExponent (n * 2 ^ d) e) = e + d) :
    shiftToTargetExponent .binary64 (n * 2 ^ d) e .exact = (⟨n, false, false⟩, e + d) := by
  unfold shiftToTargetExponent shiftToExponent
  dsimp only
  rw [h, add_sub_cancel_left, Int.toNat_natCast]
  exact congrArg (·, e + (d : Int)) (shiftRight_exact n d)

theorem roundWithAccuracy_exact {d : Nat} (hn : 0 < n)
    (h : Format.binary64.targetExponent (totalExponent (n * 2 ^ d) e) = e + d) :
    roundWithAccuracy .binary64 s (n * 2 ^ d) e .exact = .finite s n (e + d) hn := by
  have hvalue : ((n * 2 ^ d : Nat) : ℚ) * 2 ^ e = (n * 2 ^ 0 : Nat) * 2 ^ (e + d) := by
    rw [zpow_add₀ two_ne_zero, zpow_natCast]
    push_cast
    ring
  have hagain : shiftToTargetExponent .binary64 n (e + d) .exact =
      (⟨n, false, false⟩, e + d + (0 : Nat)) := by
    have htotal := totalExponent_congr (Nat.mul_pos hn (Nat.two_pow_pos d))
      (Nat.mul_pos hn (Nat.two_pow_pos 0)) hvalue
    have hshift := shiftToTargetExponent_exact (n := n) (e := e + d) (d := 0)
      (by rw [← htotal, h]; exact (Int.add_zero _).symm)
    rwa [Nat.pow_zero, Nat.mul_one] at hshift
  unfold roundWithAccuracy
  rw [shiftToTargetExponent_exact h]
  dsimp only
  rw [show (⟨n, false, false⟩ : ExtendedMantissa).roundedMantissa = n from rfl, hagain]
  dsimp only
  rw [dif_neg (Nat.ne_of_gt hn)]
  exact finite_congr rfl (Int.add_zero _)

/-- A number that a significand below `2 ^ 53` has some exponent for is one of the wanted
exponent too. -/
theorem exists_fits (hm : 0 < m) (hbelow : n < 2 ^ 53) (hleast : -1074 ≤ f) (hgreatest : f ≤ 971)
    (h : (m : ℚ) * 2 ^ e = n * 2 ^ f) :
    ∃ k, Fits k (Format.binary64.targetExponent (totalExponent m e)) ∧
      (k : ℚ) * 2 ^ Format.binary64.targetExponent (totalExponent m e) = m * 2 ^ e := by
  obtain ⟨hlow, hhigh⟩ := totalExponent_bounds (e := e) hm
  have hone : (1 : ℚ) < 2 := by norm_num
  have hn : (n : ℚ) * 2 ^ f < 2 ^ (53 + f) := by
    rw [zpow_add₀ two_ne_zero]
    refine mul_lt_mul_of_pos_right ?_ (two_zpow_pos f)
    exact_mod_cast hbelow
  have htotal : totalExponent m e ≤ 53 + f := by
    have hlt := (zpow_lt_zpow_iff_right₀ hone).1 ((hlow.trans_eq h).trans_lt hn)
    omega
  rw [targetExponent_eq]
  generalize ht : max (totalExponent m e - 53) (-1074) = t
  -- the wanted exponent is not greater than the one there is
  obtain ⟨d, rfl⟩ : ∃ d : Nat, f = t + d := ⟨(f - t).toNat, by omega⟩
  have hvalue : ((n * 2 ^ d : Nat) : ℚ) * 2 ^ t = m * 2 ^ e := by
    rw [h, zpow_add₀ two_ne_zero, zpow_natCast]
    push_cast
    ring
  generalize n * 2 ^ d = k at hvalue
  have hpos := two_zpow_pos t
  rw [← hvalue] at hlow hhigh
  refine ⟨k, ⟨?_, ?_, by omega, by omega, ?_⟩, hvalue⟩
  · have hk : (0 : ℚ) < k * 2 ^ t := (two_zpow_pos _).trans_le hlow
    exact_mod_cast (mul_pos_iff_of_pos_right hpos).1 hk
  · have hk : (k : ℚ) * 2 ^ t < 2 ^ 53 * 2 ^ t := by
      refine hhigh.trans_le ?_
      rw [← zpow_natCast, ← zpow_add₀ two_ne_zero]
      exact zpow_le_zpow_right₀ hone.le (by omega)
    exact_mod_cast lt_of_mul_lt_mul_right hk hpos.le
  · refine or_iff_not_imp_right.2 fun hne => ?_
    have hk : (2 : ℚ) ^ 52 * 2 ^ t ≤ k * 2 ^ t := by
      refine le_trans (le_of_eq ?_) hlow
      rw [← zpow_natCast, ← zpow_add₀ two_ne_zero]
      congr 1
      omega
    exact_mod_cast le_of_mul_le_mul_right hk hpos

/-- A number that needs no rounding is not rounded. -/
theorem round_exact (hm : 0 < m) (hbelow : n < 2 ^ 53) (hleast : -1074 ≤ f) (hgreatest : f ≤ 971)
    (h : (m : ℚ) * 2 ^ e = n * 2 ^ f) :
    ∃ k t, ∃ hk : Fits k t, UnpackedFloat.round .binary64 s m e = .finite s k t hk.pos ∧
      (k : ℚ) * 2 ^ t = m * 2 ^ e := by
  obtain ⟨k, hk, hvalue⟩ := exists_fits hm hbelow hleast hgreatest h
  refine ⟨k, _, hk, ?_, hvalue⟩
  unfold UnpackedFloat.round decreaseExponent
  dsimp only
  generalize ht : Format.binary64.targetExponent (totalExponent m e) = t at hk hvalue ⊢
  have hshift := shiftLeft_mul_zpow m (e - t).toNat e
  generalize m <<< (e - t).toNat = m' at hshift ⊢
  generalize he' : e - ((e - t).toNat : Int) = e' at hshift ⊢
  obtain ⟨d, rfl⟩ : ∃ d : Nat, t = e' + d := ⟨(t - e').toNat, by omega⟩
  have hsplit : ((k * 2 ^ d : Nat) : ℚ) * 2 ^ e' = k * 2 ^ (e' + (d : Int)) := by
    rw [zpow_add₀ two_ne_zero, zpow_natCast]
    push_cast
    ring
  obtain rfl : m' = k * 2 ^ d := by
    have heq := hshift.trans (hvalue.symm.trans hsplit.symm)
    exact_mod_cast mul_right_cancel₀ (two_zpow_pos e').ne' heq
  refine roundWithAccuracy_exact hk.pos ?_
  rw [totalExponent_congr (Nat.mul_pos hk.pos (Nat.two_pow_pos d)) hm hshift, ht]

end Rounding

/-! ### Sums -/

section Sums

variable {s : Sign} {m : Nat} {e k : Int} {a b q : ℚ} {u v : UnpackedFloat} {x y z : Float}

theorem abs_signed (s : Sign) (m : Nat) (e : Int) : |signed s m e| = m * 2 ^ e := by
  have hnonneg : (0 : ℚ) ≤ m * 2 ^ e := mul_nonneg m.cast_nonneg (two_zpow_pos e).le
  cases s with
  | positive => rw [signed_positive, abs_of_nonneg hnonneg]
  | negative => rw [signed_negative, abs_neg, abs_of_nonneg hnonneg]

theorem signed_shiftLeft (s : Sign) (m d : Nat) (e : Int) :
    signed s (m <<< d) (e - d) = signed s m e := by
  cases s with
  | positive => rw [signed_positive, signed_positive, shiftLeft_mul_zpow]
  | negative => rw [signed_negative, signed_negative, shiftLeft_mul_zpow]

theorem canonical_value? (x : Float) : Canonical x.toModel.unpack := canonical_unpack _

/-- An integer at an exponent becomes the float that stands for the number, if there is one. -/
theorem normalize_exact (hq : (k : ℚ) * 2 ^ e = q) (hz : value? z = some q) :
    Canonical (UnpackedFloat.normalize .binary64 k e .positive) ∧
      rational? (UnpackedFloat.normalize .binary64 k e .positive) = some q := by
  have hpos := two_zpow_pos e
  have hround (s : Sign) {m : Nat} (hm : 0 < m) (hmq : signed s m e = q) :
      Canonical (UnpackedFloat.round .binary64 s m e) ∧
        rational? (UnpackedFloat.round .binary64 s m e) = some q := by
    have habs : (m : ℚ) * 2 ^ e = |q| := by rw [← hmq, abs_signed]
    have hcanonical := canonical_value? z
    unfold value? at hz
    generalize z.toModel.unpack = w at hz hcanonical
    cases w with
    | zero s' =>
      cases hz
      rw [abs_zero] at habs
      exact absurd habs (mul_pos (by exact_mod_cast hm) hpos).ne'
    | finite s' n f hn =>
      cases hz
      rw [abs_signed] at habs
      have hfits : Fits n f := hcanonical
      obtain ⟨j, t, hj, hround, hvalue⟩ :=
        round_exact (s := s) hm hfits.below hfits.least hfits.greatest habs
      rw [hround]
      refine ⟨hj, congrArg some ?_⟩
      rw [← hmq]
      cases s with
      | positive => rw [signed_positive, signed_positive, hvalue]
      | negative => rw [signed_negative, signed_negative, hvalue]
    | infinity | notANumber => cases hz
  unfold UnpackedFloat.normalize
  rcases lt_trichotomy k 0 with hk | rfl | hk
  · rw [compare_lt_iff_lt.2 hk]
    refine hround .negative (m := (-k).toNat) (by omega) ?_
    rw [signed, Sign.apply, Int.toNat_of_nonneg (by omega), neg_neg, hq]
  · rw [compare_eq_iff_eq.2 rfl]
    refine ⟨trivial, congrArg some ?_⟩
    rw [← hq, Int.cast_zero, zero_mul]
  · rw [compare_gt_iff_gt.2 hk]
    refine hround .positive (m := k.toNat) (by omega) ?_
    rw [signed, Sign.apply, Int.toNat_of_nonneg (by omega), hq]

theorem add_exact (hu : Canonical u) (hv : Canonical v) (ha : rational? u = some a)
    (hb : rational? v = some b) (hz : value? z = some (a + b)) :
    Canonical (add .binary64 u v) ∧ rational? (add .binary64 u v) = some (a + b) := by
  cases u with
  | infinity | notANumber => cases ha
  | zero s =>
    cases ha
    rw [zero_add]
    cases v with
    | infinity | notANumber => cases hb
    | zero s' =>
      cases hb
      unfold add
      dsimp only
      split <;> exact ⟨trivial, rfl⟩
    | finite s' m' e' hm' => exact ⟨hv, hb⟩
  | finite s m e hm =>
    cases v with
    | infinity | notANumber => cases hb
    | zero s' =>
      cases hb
      rw [add_zero]
      exact ⟨hu, ha⟩
    | finite s' m' e' hm' =>
      cases ha
      cases hb
      have hleft := signed_shiftLeft s m (e - min e e').toNat e
      have hright := signed_shiftLeft s' m' (e' - min e e').toNat e'
      rw [show e - ((e - min e e').toNat : Int) = min e e' by omega] at hleft
      rw [show e' - ((e' - min e e').toNat : Int) = min e e' by omega] at hright
      refine normalize_exact ?_ hz
      rw [← hleft, ← hright, signed, signed, ← add_mul, ← Int.cast_add]

theorem value?_pack (hu : Canonical u) : value? (.ofModel (Float.Model.pack u)) = rational? u :=
  congrArg rational? (unpack_pack hu)

/-- Where a float stands for the sum of two numbers, the sum of their floats stands for it. -/
theorem value?_add (hx : value? x = some a) (hy : value? y = some b)
    (hz : value? z = some (a + b)) : value? (x + y) = some (a + b) := by
  obtain ⟨hcanonical, hvalue⟩ := add_exact (canonical_value? x) (canonical_value? y) hx hy hz
  exact (value?_pack hcanonical).trans hvalue

end Sums

/-! ### Order -/

section Order

variable {m m' : Nat} {e e' : Int} {a b : ℚ} {u v : UnpackedFloat} {x y : Float}

theorem Fits.value_pos (h : Fits m e) : (0 : ℚ) < m * 2 ^ e :=
  mul_pos (by exact_mod_cast h.pos) (two_zpow_pos e)

/-- A greater exponent makes a greater number. -/
theorem Fits.lt_of_exponent (h : Fits m e) (h' : Fits m' e') (he : e < e') :
    (m : ℚ) * 2 ^ e < m' * 2 ^ e' := by
  have hbelow : (m : ℚ) < 2 ^ 53 := by exact_mod_cast h.below
  have hnormal : (2 : ℚ) ^ 52 ≤ m' := by
    have hleast := h.least
    exact_mod_cast h'.normal.resolve_right (by omega)
  calc (m : ℚ) * 2 ^ e < 2 ^ 53 * 2 ^ e := mul_lt_mul_of_pos_right hbelow (two_zpow_pos e)
    _ = 2 ^ 52 * 2 ^ (e + 1) := by rw [zpow_add₀ two_ne_zero]; ring
    _ ≤ 2 ^ 52 * 2 ^ e' :=
        mul_le_mul_of_nonneg_left (zpow_le_zpow_right₀ (by norm_num) he) (by norm_num)
    _ ≤ m' * 2 ^ e' := mul_le_mul_of_nonneg_right hnormal (two_zpow_pos e').le

/-- Exponents are compared first, then significands. -/
theorem Fits.lt_iff (h : Fits m e) (h' : Fits m' e') :
    (m : ℚ) * 2 ^ e < m' * 2 ^ e' ↔ e < e' ∨ e = e' ∧ m < m' := by
  rcases lt_trichotomy e e' with he | rfl | he
  · exact ⟨fun _ => .inl he, fun _ => h.lt_of_exponent h' he⟩
  · rw [mul_lt_mul_iff_left₀ (two_zpow_pos e), Nat.cast_lt]
    simp
  · have hgt := h'.lt_of_exponent h he
    exact ⟨fun hlt => absurd hlt hgt.not_gt, by omega⟩

theorem then_eq_lt_iff : (compare e e').then (compare m m') = .lt ↔ e < e' ∨ e = e' ∧ m < m' := by
  rw [Ordering.then_eq_lt, compare_lt_iff_lt, compare_lt_iff_lt, compare_eq_iff_eq]

theorem compare_lt_iff (hu : Canonical u) (hv : Canonical v) (ha : rational? u = some a)
    (hb : rational? v = some b) : u.compare v = some .lt ↔ a < b := by
  have hgreater : some Ordering.gt ≠ some .lt := by decide
  cases u with
  | infinity | notANumber => cases ha
  | zero s =>
    cases ha
    cases v with
    | infinity | notANumber => cases hb
    | zero s' =>
      cases hb
      exact iff_of_false (show some Ordering.eq ≠ some .lt by decide) (lt_irrefl _)
    | finite s' m' e' hm' =>
      cases hb
      have hpos := Fits.value_pos hv
      cases s' with
      | positive => exact iff_of_true rfl (by simpa using hpos)
      | negative => exact iff_of_false hgreater (by simpa using hpos.le)
  | finite s m e hm =>
    cases ha
    have hpos := Fits.value_pos hu
    cases v with
    | infinity | notANumber => cases hb
    | zero s' =>
      cases hb
      cases s with
      | positive => exact iff_of_false hgreater (by simpa using hpos.le)
      | negative => exact iff_of_true rfl (by simpa using hpos)
    | finite s' m' e' hm' =>
      cases hb
      have hpos' := Fits.value_pos hv
      cases s with
      | positive =>
        cases s' with
        | positive =>
          rw [signed_positive, signed_positive, Fits.lt_iff hu hv, ← then_eq_lt_iff]
          exact Option.some_inj
        | negative =>
          rw [signed_positive, signed_negative]
          exact iff_of_false hgreater ((neg_neg_of_pos hpos').trans hpos).not_gt
      | negative =>
        cases s' with
        | positive =>
          rw [signed_negative, signed_positive]
          exact iff_of_true rfl ((neg_neg_of_pos hpos).trans hpos')
        | negative =>
          rw [signed_negative, signed_negative, neg_lt_neg_iff, Fits.lt_iff hv hu,
            ← then_eq_lt_iff]
          show some ((compare e e').then (compare m m')).swap = some .lt ↔ _
          rw [Option.some_inj, Ordering.swap_eq_lt, Ordering.then_eq_gt, then_eq_lt_iff,
            compare_gt_iff_gt, compare_gt_iff_gt, compare_eq_iff_eq, eq_comm (a := e)]

/-- Floats are ordered as their numbers are. -/
theorem lt_iff (hx : value? x = some a) (hy : value? y = some b) : x < y ↔ a < b := by
  have hlt : x < y ↔ (x.toModel.unpack.compare y.toModel.unpack == some .lt) = true :=
    decide_eq_true_iff
  rw [hlt, beq_iff_eq, compare_lt_iff (canonical_value? x) (canonical_value? y) hx hy]

end Order

/-! ### Integers -/

section Integers

variable {m : Nat} {e k first limit : Int} {x y z : Float}

theorem exists_signed (s : Sign) (hbelow : m < 2 ^ 53) (hleast : -1074 ≤ e) (hgreatest : e ≤ 971) :
    ∃ z, value? z = some (signed s m e) := by
  rcases Nat.eq_zero_or_pos m with rfl | hm
  · refine ⟨_, (value?_pack (u := .zero s) trivial).trans (congrArg some ?_)⟩
    cases s <;> simp
  · obtain ⟨n, t, hn, -, hvalue⟩ := round_exact (s := s) hm hbelow hleast hgreatest rfl
    refine ⟨_, (value?_pack (u := .finite s n t hn.pos) hn).trans (congrArg some ?_)⟩
    cases s with
    | positive => rw [signed_positive, signed_positive, hvalue]
    | negative => rw [signed_negative, signed_negative, hvalue]

/-- Floats stand for all integers up to `2 ^ 53`. -/
theorem exists_integer (h : -2 ^ 53 ≤ k) (h' : k ≤ 2 ^ 53) : ∃ z, value? z = some (k : ℚ) := by
  have hsize (s : Sign) {n : Nat} (hn : n ≤ 2 ^ 53) : ∃ z, value? z = some (signed s n 0) := by
    rcases Nat.lt_or_eq_of_le hn with hlt | rfl
    · exact exists_signed s hlt (by decide) (by decide)
    · obtain ⟨z, hz⟩ := exists_signed s (m := 2 ^ 52) (e := 1) (by decide) (by decide) (by decide)
      refine ⟨z, hz.trans (congrArg some ?_)⟩
      cases s <;> norm_num
  rcases Int.le_total 0 k with hk | hk
  · obtain ⟨z, hz⟩ := hsize .positive (n := k.toNat) (by omega)
    have hcast : ((k.toNat : Int) : ℚ) = k := by rw [Int.toNat_of_nonneg hk]
    exact ⟨z, by rw [hz, signed_positive, zpow_zero, mul_one, ← Int.cast_natCast, hcast]⟩
  · obtain ⟨z, hz⟩ := hsize .negative (n := (-k).toNat) (by omega)
    have hcast : (((-k).toNat : Int) : ℚ) = -k := by
      rw [Int.toNat_of_nonneg (by omega), Int.cast_neg]
    exact ⟨z, by rw [hz, signed_negative, zpow_zero, mul_one, ← Int.cast_natCast, hcast, neg_neg]⟩

/-- Beyond `2 ^ 53` they stand for no odd integer. -/
theorem abs_lt_of_odd (hz : value? z = some (k : ℚ)) (hk : Odd k) : |k| < 2 ^ 53 := by
  have hcanonical := canonical_value? z
  unfold value? at hz
  generalize z.toModel.unpack = u at hz hcanonical
  cases u with
  | infinity | notANumber => cases hz
  | zero s =>
    have hzero : (k : ℚ) = 0 := (Option.some_inj.1 hz).symm
    rw [Int.cast_eq_zero.1 hzero] at hk
    exact absurd hk (by decide)
  | finite s m e hm =>
    have habs : ((|k| : Int) : ℚ) = m * 2 ^ e := by
      rw [Int.cast_abs, ← Option.some_inj.1 hz, abs_signed]
    rcases Int.lt_or_le 0 e with he | he
    · obtain ⟨d, rfl⟩ : ∃ d : Nat, e = d + 1 := ⟨(e - 1).toNat, by omega⟩
      have hdouble : |k| = (m * 2 ^ d : Int) * 2 := by
        rw [zpow_add_one₀ two_ne_zero, zpow_natCast, ← mul_assoc] at habs
        exact_mod_cast habs
      exact absurd (odd_abs.2 hk) (by rw [hdouble]; simp)
    · have hbelow : m < 2 ^ 53 := Fits.below hcanonical
      have hle : ((|k| : Int) : ℚ) ≤ m := by
        rw [habs]
        exact mul_le_of_le_one_right m.cast_nonneg (zpow_le_one_of_nonpos₀ (by norm_num) he)
      have hle : |k| ≤ m := by exact_mod_cast hle
      omega

/-- Between two that floats stand for, floats stand for all integers only where there are none or
where they are not beyond `2 ^ 53`. -/
theorem integers_iff (hx : value? x = some (first : ℚ)) (hy : value? y = some (limit : ℚ)) :
    (∀ k : Int, first ≤ k → k < limit → ∃ z, value? z = some (k : ℚ)) ↔
      limit ≤ first ∨ -2 ^ 53 ≤ first ∧ limit ≤ 2 ^ 53 := by
  constructor
  · intro h
    by_contra hout
    -- of two integers next to each other one is odd, and floats stand for both
    have hnext {n : Int} (hn : ∃ z, value? z = some (n : ℚ))
        (hn' : ∃ z, value? z = some ((n + 1 : Int) : ℚ)) : |n| < 2 ^ 53 ∨ |n + 1| < 2 ^ 53 := by
      rcases Int.even_or_odd n with heven | hodd
      · obtain ⟨z, hz⟩ := hn'
        exact .inr (abs_lt_of_odd hz heven.add_one)
      · obtain ⟨z, hz⟩ := hn
        exact .inl (abs_lt_of_odd hz hodd)
    rcases Int.lt_or_le first (-2 ^ 53) with hlow | hlow
    · have hsecond : ∃ z, value? z = some ((first + 1 : Int) : ℚ) := by
        rcases Int.lt_or_le (first + 1) limit with hlt | hle
        · exact h (first + 1) (by omega) hlt
        · exact ⟨y, by rw [hy, show limit = first + 1 by omega]⟩
      rcases hnext ⟨x, hx⟩ hsecond with hlt | hlt <;> rw [abs_lt] at hlt <;> omega
    · have hlast : ∃ z, value? z = some ((limit - 1 : Int) : ℚ) :=
        h (limit - 1) (by omega) (by omega)
      rcases hnext hlast ⟨y, by rw [hy, Int.sub_add_cancel]⟩ with hlt | hlt <;>
        rw [abs_lt] at hlt <;> omega
  · rintro (hle | ⟨hlow, hhigh⟩) k hk hk'
    · omega
    · exact exists_integer (by omega) (by omega)

/-- The integers of a range, in order. -/
def range (first limit : Int) : List ℚ :=
  (List.range (limit - first).toNat).map fun k : Nat => ((first + k : Int) : ℚ)

theorem range_of_le (h : limit ≤ first) : range first limit = [] := by
  rw [range, Int.toNat_of_nonpos (by omega)]
  rfl

theorem range_of_lt (h : first < limit) :
    range first limit = (first : ℚ) :: range (first + 1) limit := by
  obtain ⟨n, hn⟩ : ∃ n, (limit - first).toNat = n + 1 :=
    Nat.exists_eq_add_one_of_ne_zero (by omega)
  rw [range, range, hn, show (limit - (first + 1)).toNat = n by omega, List.range_succ_eq_map,
    List.map_cons, List.map_map]
  refine congrArg₂ _ (by simp) (List.map_congr_left fun k _ => ?_)
  simp only [Function.comp_apply, Nat.succ_eq_add_one]
  push_cast
  ring

theorem mem_range (hk : first ≤ k) (hk' : k < limit) :
    (k : ℚ) ∈ range first limit := by
  refine List.mem_map.2 ⟨(k - first).toNat, List.mem_range.2 (by omega), ?_⟩
  rw [Int.toNat_of_nonneg (by omega), add_sub_cancel]

theorem value?_one : value? 1 = some 1 := by
  have hvalue : value? 1 = some (signed .positive (2 ^ 52) (-52)) := rfl
  rw [hvalue, signed_positive]
  norm_num

end Integers

end Playscript.Number

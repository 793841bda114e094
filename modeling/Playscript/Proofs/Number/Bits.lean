/-
# Floats and their bits

The bits of a float are its sign, its exponent and its mantissa in a row, and what the
float is taken apart into is read off them (`unpack_cases`). So a float is known by what it is
taken apart into (`eq_of_unpack_eq`). Floats are equal as numbers if they are the same float, and
that is a number, or if both are zero (`beq_iff`, `beq_zero_iff`).

Key definitions: `exponentField`, `mantissaField`, `signOf`.
Key theorems: `unpack_cases`, `eq_of_unpack_eq`, `beq_iff`, `beq_zero_iff`.
-/
import Playscript.Proofs.Number.Values
import Playscript.Number.Binary

namespace Playscript.Number

open Float.Model (UnpackedFloat Format)
open Float.Model.UnpackedFloat

/-- The bits of the mantissa. -/
def mantissaField (x : Float) : Nat := x.toBits.toNat % 2 ^ 52

/-- The bits of the exponent. -/
def exponentField (x : Float) : Nat := x.toBits.toNat / 2 ^ 52 % 2 ^ 11

/-- The sign of a float, also of a zero. -/
def signOf (x : Float) : Sign := if isNegative x then .negative else .positive

variable {x y : Float}

/-! ### The fields of the bits -/

theorem toNat_unpackMantissa (b : BitVec Format.binary64.numBits) :
    (unpackMantissa b).toNat = b.toNat % 2 ^ 52 := by
  simp [unpackMantissa, BitVec.extractLsb_toNat]

theorem toNat_unpackExponent (b : BitVec Format.binary64.numBits) :
    (unpackExponent b).toNat = b.toNat / 2 ^ 52 % 2 ^ 11 := by
  simp [unpackExponent, BitVec.extractLsb_toNat, Nat.shiftRight_eq_div_pow]

theorem toNat_unpackSign (b : BitVec Format.binary64.numBits) :
    (unpackSign b).toNat = b.toNat / 2 ^ 63 % 2 := by
  show (b.extractLsb 63 63).toNat = _
  simp [BitVec.extractLsb_toNat, Nat.shiftRight_eq_div_pow]

theorem ofBitVec_unpackSign (x : Float) :
    Sign.ofBitVec (@unpackSign .binary64 x.toModel.toBits.toBitVec) = signOf x := by
  have hsign : (@unpackSign .binary64 x.toModel.toBits.toBitVec).toNat =
      x.toBits.toNat / 2 ^ 63 % 2 := toNat_unpackSign _
  have hbit : @unpackSign .binary64 x.toModel.toBits.toBitVec = 0#1 ↔
      x.toBits.toNat / 2 ^ 63 % 2 = 0 := by rw [← hsign]; exact BitVec.toNat_inj.symm
  rw [Sign.ofBitVec, signOf, isNegative, Nat.pow_eq]
  by_cases hzero : x.toBits.toNat / 2 ^ 63 % 2 = 0
  · rw [if_pos (hbit.2 hzero), hzero]
    rfl
  · rw [if_neg (mt hbit.1 hzero), if_pos (by rw [beq_iff_eq]; omega)]

theorem ofFloat_eq (x : Float) : Scaled.ofFloat x =
    if exponentField x = 0 then ⟨mantissaField x, -1074⟩
    else ⟨mantissaField x + 2 ^ 52, exponentField x - 1075⟩ := rfl

/-- What the bits of a float stand for. -/
theorem unpack_cases (x : Float) :
    (x.toModel.unpack = .notANumber ∧ exponentField x = 2047 ∧ mantissaField x ≠ 0) ∨
    (x.toModel.unpack = .infinity (signOf x) ∧ exponentField x = 2047 ∧ mantissaField x = 0) ∨
    (x.toModel.unpack = .zero (signOf x) ∧ exponentField x = 0 ∧ mantissaField x = 0) ∨
    (∃ m e h, x.toModel.unpack = .finite (signOf x) m e h ∧ Scaled.ofFloat x = ⟨m, e⟩) ∧
      exponentField x ≠ 2047 := by
  have hexponent : (@unpackExponent .binary64 x.toModel.toBits.toBitVec).toNat =
      exponentField x := toNat_unpackExponent _
  have hmantissa : (@unpackMantissa .binary64 x.toModel.toBits.toBitVec).toNat =
      mantissaField x := toNat_unpackMantissa _
  rw [ofFloat_eq]
  by_cases hlast : exponentField x = 2047
  · have hunpack := unpack_last (ofBitVec_unpackSign x) hmantissa (hexponent.trans hlast)
    by_cases hzero : mantissaField x = 0
    · rw [if_pos hzero] at hunpack
      exact .inr (.inl ⟨hunpack, hlast, hzero⟩)
    · rw [if_neg hzero] at hunpack
      exact .inl ⟨hunpack, hlast, hzero⟩
  · have hunpack := unpack_eq (ofBitVec_unpackSign x) hmantissa hexponent hlast
    refine .inr (.inr ?_)
    by_cases hfirst : exponentField x = 0
    · rw [if_pos hfirst] at hunpack
      by_cases hzero : mantissaField x = 0
      · rw [dif_pos hzero] at hunpack
        exact .inl ⟨hunpack, hfirst, hzero⟩
      · rw [dif_neg hzero] at hunpack
        exact .inr ⟨⟨_, _, _, hunpack, if_pos hfirst⟩, hlast⟩
    · rw [if_neg hfirst] at hunpack
      rw [if_neg hfirst, Nat.add_comm]
      exact .inr ⟨⟨_, _, _, hunpack, rfl⟩, hlast⟩

/-- The significand and the exponent tell the fields. -/
theorem fields_eq_of_ofFloat_eq (h : Scaled.ofFloat x = Scaled.ofFloat y) :
    exponentField x = exponentField y ∧ mantissaField x = mantissaField y := by
  have hx : mantissaField x < 2 ^ 52 := Nat.mod_lt _ (Nat.two_pow_pos 52)
  have hy : mantissaField y < 2 ^ 52 := Nat.mod_lt _ (Nat.two_pow_pos 52)
  rw [ofFloat_eq, ofFloat_eq] at h
  split at h <;> split at h <;> simp only [Scaled.mk.injEq] at h <;> omega

theorem eq_of_fields_eq (hs : signOf x = signOf y) (he : exponentField x = exponentField y)
    (hm : mantissaField x = mantissaField y) : x = y := by
  have hx : x.toBits.toNat < 2 ^ 64 := x.toBits.toNat_lt
  have hy : y.toBits.toNat < 2 ^ 64 := y.toBits.toNat_lt
  have hsign : x.toBits.toNat / 2 ^ 63 % 2 = y.toBits.toNat / 2 ^ 63 % 2 := by
    unfold signOf isNegative at hs
    simp only [beq_iff_eq, Nat.pow_eq] at hs
    split at hs <;> split at hs
    · omega
    · cases hs
    · cases hs
    · omega
  have hbits : x.toBits = y.toBits := by
    unfold exponentField at he
    unfold mantissaField at hm
    exact UInt64.toNat_inj.1 (by omega)
  obtain ⟨⟨_, _⟩⟩ := x
  obtain ⟨⟨_, _⟩⟩ := y
  cases hbits
  rfl

/-- There is one float that is not a number. -/
theorem toBits_of_notANumber (h : x.toModel.unpack = .notANumber) :
    x.toBits.toBitVec = packedNaN .binary64 := by
  obtain ⟨-, hlast, hne⟩ : x.toModel.unpack = .notANumber ∧ exponentField x = 2047 ∧
      mantissaField x ≠ 0 := by
    rcases unpack_cases x with h' | ⟨h', -⟩ | ⟨h', -⟩ | ⟨⟨_, _, _, h', -⟩, -⟩
    · exact h'
    all_goals rw [h] at h'; cases h'
  refine x.toModel.valid.eq_packedNaN (BitVec.eq_of_toNat_eq ((toNat_unpackExponent _).trans hlast))
    fun hzero => hne ?_
  exact (toNat_unpackMantissa x.toModel.toBits.toBitVec).symm.trans (congrArg BitVec.toNat hzero)

/-- A float is known by what it is taken apart into. -/
theorem eq_of_unpack_eq (h : x.toModel.unpack = y.toModel.unpack) : x = y := by
  rcases unpack_cases x with ⟨hx, -⟩ | ⟨hx, hxe, hxm⟩ | ⟨hx, hxe, hxm⟩ |
    ⟨⟨m, e, hm, hx, hxs⟩, -⟩
  · have hbits : x.toBits.toBitVec = y.toBits.toBitVec :=
      (toBits_of_notANumber hx).trans (toBits_of_notANumber (h ▸ hx)).symm
    obtain ⟨⟨⟨_⟩, _⟩⟩ := x
    obtain ⟨⟨⟨_⟩, _⟩⟩ := y
    cases hbits
    rfl
  all_goals
    rcases unpack_cases y with ⟨hy, -⟩ | ⟨hy, hye, hym⟩ | ⟨hy, hye, hym⟩ |
      ⟨⟨n, f, hn, hy, hys⟩, -⟩
    all_goals
      rw [hx, hy] at h
      try cases h
  · exact eq_of_fields_eq (infinity.inj h) (hxe.trans hye.symm) (hxm.trans hym.symm)
  · exact eq_of_fields_eq (zero.inj h) (hxe.trans hye.symm) (hxm.trans hym.symm)
  · obtain ⟨hs, rfl, rfl⟩ := finite.inj h
    obtain ⟨he, hm⟩ := fields_eq_of_ofFloat_eq (hxs.trans hys.symm)
    exact eq_of_fields_eq hs he hm

/-! ### Equality as numbers -/

/-- Of finite floats taken apart, only equal ones compare as equal. -/
theorem compare_finite_iff {s t : Sign} {m n : Nat} {e f : Int} {hm : 0 < m} {hn : 0 < n} :
    UnpackedFloat.compare (.finite s m e hm) (.finite t n f hn) = some .eq ↔
      UnpackedFloat.finite s m e hm = .finite t n f hn := by
  have hthen : (compare e f).then (compare m n) = .eq ↔
      UnpackedFloat.finite s m e hm = .finite s n f hn := by
    rw [Ordering.then_eq_eq, compare_eq_iff_eq, compare_eq_iff_eq, finite.injEq]
    tauto
  cases s with
  | positive =>
    cases t with
    | positive => exact Option.some_inj.trans hthen
    | negative => exact iff_of_false (by nofun) (by nofun)
  | negative =>
    cases t with
    | positive => exact iff_of_false (by nofun) (by nofun)
    | negative => exact (Option.some_inj.trans Ordering.swap_eq_eq).trans hthen

/-- Floats taken apart are equal as numbers if they are the same number, or both zero. -/
theorem unpacked_beq_iff (u v : UnpackedFloat) : u.beq v = true ↔
    (u = v ∧ u.isNaN = false) ∨ (∃ s, u = .zero s) ∧ ∃ s, v = .zero s := by
  have hbeq : u.beq v = true ↔ u.compare v = some .eq := beq_iff_eq
  rw [hbeq]
  cases u with
  | notANumber => exact iff_of_false (by cases v <;> nofun) (by nofun)
  | infinity s =>
    cases v with
    | infinity t =>
      cases s <;> cases t
      case positive.positive | negative.negative => exact iff_of_true rfl (.inl ⟨rfl, rfl⟩)
      all_goals exact iff_of_false (by nofun) (by nofun)
    | _ => exact iff_of_false (by cases s <;> nofun) (by nofun)
  | zero s =>
    cases v with
    | zero t => exact iff_of_true rfl (.inr ⟨⟨s, rfl⟩, t, rfl⟩)
    | infinity t => exact iff_of_false (by cases t <;> nofun) (by nofun)
    | finite t n f hn => exact iff_of_false (by cases t <;> nofun) (by nofun)
    | notANumber => exact iff_of_false (by nofun) (by nofun)
  | finite s m e hm =>
    cases v with
    | finite t n f hn =>
      refine compare_finite_iff.trans ⟨fun h => .inl ⟨h, rfl⟩, ?_⟩
      rintro (⟨h, -⟩ | ⟨⟨_, h⟩, -⟩)
      · exact h
      · cases h
    | infinity t => exact iff_of_false (by cases t <;> nofun) (by nofun)
    | _ => exact iff_of_false (by cases s <;> nofun) (by nofun)

/-- Floats are equal as numbers if they are the same number, or both zero. -/
theorem beq_iff : (x == y) = true ↔ (x = y ∧ x.isNaN = false) ∨
    (∃ s, x.toModel.unpack = .zero s) ∧ ∃ s, y.toModel.unpack = .zero s := by
  have hsame : x.toModel.unpack = y.toModel.unpack ↔ x = y :=
    ⟨eq_of_unpack_eq, fun h => congrArg (fun z : Float => z.toModel.unpack) h⟩
  exact (unpacked_beq_iff _ _).trans (or_congr_left (and_congr_left fun _ => hsame))

/-! ### Finite floats -/

theorem isNaN_of_isFinite (h : x.isFinite = true) : x.isNaN = false := by
  have h : x.toModel.unpack.isFinite = true := h
  show x.toModel.unpack.isNaN = false
  cases hx : x.toModel.unpack with
  | notANumber => rw [hx] at h; cases h
  | _ => rfl

theorem isInf_of_isFinite (h : x.isFinite = true) : x.isInf = false := by
  have h : x.toModel.unpack.isFinite = true := h
  show x.toModel.unpack.isInf = false
  cases hx : x.toModel.unpack with
  | infinity s => rw [hx] at h; cases h
  | _ => rfl

theorem isFinite_of_zero (h : ∃ s, x.toModel.unpack = .zero s) : x.isFinite = true := by
  obtain ⟨s, hs⟩ := h
  show x.toModel.unpack.isFinite = true
  rw [hs]
  rfl

/-- Both zeros equal zero, and nothing else does. -/
theorem beq_zero_iff : (x == 0) = true ↔ ∃ s, x.toModel.unpack = .zero s := by
  rw [beq_iff]
  refine ⟨?_, fun h => .inr ⟨h, .positive, rfl⟩⟩
  rintro (⟨rfl, -⟩ | ⟨h, -⟩)
  · exact ⟨.positive, rfl⟩
  · exact h

end Playscript.Number

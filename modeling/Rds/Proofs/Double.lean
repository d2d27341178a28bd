import Mathlib.Algebra.Group.Nat.Defs
import Rds.Scalar

namespace Rds.Double

variable {x y : Double}

theorem exponentField_eq (x : Double) : x.exponentField = x.bits.toNat / 2 ^ 52 % 2 ^ 11 := by
  rw [exponentField, UInt64.toNat_and, UInt64.toNat_shiftRight, Nat.shiftRight_eq_div_pow]
  exact Nat.and_two_pow_sub_one_eq_mod _ 11

theorem fractionField_eq (x : Double) : x.fractionField = x.bits.toNat % 2 ^ 52 := by
  rw [fractionField, UInt64.toNat_and]
  exact Nat.and_two_pow_sub_one_eq_mod _ 52

theorem isNegative_iff (x : Double) : x.isNegative = true ↔ 2 ^ 63 ≤ x.bits.toNat := by
  have hshift : (x.bits >>> 63).toNat = x.bits.toNat / 2 ^ 63 := by
    rw [UInt64.toNat_shiftRight, Nat.shiftRight_eq_div_pow]
    rfl
  have hlt := x.bits.toNat_lt
  rw [isNegative, bne_iff_ne, ne_eq, ← UInt64.toNat_inj, hshift, UInt64.toNat_zero]
  omega

theorem fractionField_lt (x : Double) : x.fractionField < 2 ^ 52 := by
  rw [fractionField_eq]
  exact Nat.mod_lt _ (by decide)

/-- A double is its sign, its exponent and its fraction. -/
theorem eq_of_fields (hs : x.isNegative = y.isNegative) (he : x.exponentField = y.exponentField)
    (hf : x.fractionField = y.fractionField) : x = y := by
  have hsign : 2 ^ 63 ≤ x.bits.toNat ↔ 2 ^ 63 ≤ y.bits.toNat := by
    rw [← isNegative_iff, ← isNegative_iff, hs]
  have hbits : x.bits.toNat = y.bits.toNat := by
    have hx := x.bits.toNat_lt
    have hy := y.bits.toNat_lt
    rw [exponentField_eq, exponentField_eq] at he
    rw [fractionField_eq, fractionField_eq] at hf
    omega
  exact congrArg Double.mk (UInt64.toNat_inj.mp hbits)

theorem significand_lt (x : Double) : x.significand < 2 ^ 53 := by
  have := x.fractionField_lt
  unfold significand
  split <;> omega

theorem le_scale (x : Double) : -1074 ≤ x.scale := by
  unfold scale
  split <;> omega

theorem of_lt_scale (h : -1074 < x.scale) :
    1 < x.exponentField ∧ x.significand = x.fractionField + 2 ^ 52 := by
  unfold scale at h
  split at h
  · omega
  · next hne => exact ⟨by omega, if_neg hne⟩

theorem scale_of_significand_eq_zero (h : x.significand = 0) : x.scale = -1074 := by
  unfold significand at h
  split at h
  · next he => exact if_pos he
  · omega

theorem eq_of_significand (hs : x.isNegative = y.isNegative) (hm : x.significand = y.significand)
    (hscale : x.scale = y.scale) : x = y := by
  have hx := x.fractionField_lt
  have hy := y.fractionField_lt
  have hfields : x.exponentField = y.exponentField ∧ x.fractionField = y.fractionField := by
    unfold significand at hm
    unfold scale at hscale
    by_cases hx0 : x.exponentField = 0
    · by_cases hy0 : y.exponentField = 0
      · rw [if_pos hx0, if_pos hy0] at hm
        exact ⟨hx0.trans hy0.symm, hm⟩
      · rw [if_pos hx0, if_neg hy0] at hm
        omega
    · by_cases hy0 : y.exponentField = 0
      · rw [if_neg hx0, if_pos hy0] at hm
        omega
      · rw [if_neg hx0, if_neg hy0] at hm hscale
        omega
  exact eq_of_fields hs hfields.1 hfields.2

end Rds.Double

import Mathlib.Tactic.LinearCombination
import Mathlib.Tactic.Linarith
import Mathlib.Tactic.Positivity
import Rds.Proofs.Decimal.Numeral
import Rds.Proofs.Double

namespace Rds.Decimal.Rounding

variable {r r' : Rounding} {v : ℚ}

def Covers (r : Rounding) (v : ℚ) : Prop :=
  if r.significand % 2 = 0 then r.low * 2 ^ r.quarter ≤ v ∧ v ≤ r.high * 2 ^ r.quarter
  else r.low * 2 ^ r.quarter < v ∧ v < r.high * 2 ^ r.quarter

section Comparison

theorem zpow_mul_pow_toNat {b : ℚ} (hb : b ≠ 0) (n : Int) : b ^ n * b ^ (-n).toNat = b ^ n.toNat := by
  rw [← zpow_natCast, ← zpow_natCast, ← zpow_add₀ hb]
  congr 1
  omega

def grain (r : Rounding) (e : Int) : ℚ := 10 ^ (-e).toNat * 2 ^ (-r.quarter).toNat

theorem grain_pos (r : Rounding) (e : Int) : 0 < r.grain e := by
  unfold grain
  positivity

theorem step_eq (r : Rounding) (e : Int) : (r.step e : ℚ) = 10 ^ e * r.grain e := by
  rw [step, grain, ← mul_assoc, zpow_mul_pow_toNat (by norm_num)]
  simp only [Nat.pow_eq]
  push_cast
  rfl

theorem unit_eq (r : Rounding) (e : Int) : (r.unit e : ℚ) = 2 ^ r.quarter * r.grain e := by
  rw [unit, grain, mul_comm (10 ^ _), ← mul_assoc, zpow_mul_pow_toNat (by norm_num)]
  simp only [Nat.pow_eq]
  push_cast
  rfl

theorem unit_le_step_iff (r : Rounding) (e : Int) (a k : Nat) :
    a * r.unit e ≤ k * r.step e ↔ (a : ℚ) * 2 ^ r.quarter ≤ k * 10 ^ e := by
  rw [← @Nat.cast_le ℚ, Nat.cast_mul, Nat.cast_mul, step_eq, unit_eq, ← mul_assoc, ← mul_assoc]
  exact mul_le_mul_iff_of_pos_right (r.grain_pos e)

theorem step_le_unit_iff (r : Rounding) (e : Int) (a k : Nat) :
    k * r.step e ≤ a * r.unit e ↔ (k : ℚ) * 10 ^ e ≤ a * 2 ^ r.quarter := by
  rw [← @Nat.cast_le ℚ, Nat.cast_mul, Nat.cast_mul, step_eq, unit_eq, ← mul_assoc, ← mul_assoc]
  exact mul_le_mul_iff_of_pos_right (r.grain_pos e)

theorem contains_iff (r : Rounding) (k : Nat) (e : Int) :
    r.contains k e = true ↔ r.Covers (k * 10 ^ e) := by
  have hlow := r.unit_le_step_iff e r.low k
  have hhigh := r.step_le_unit_iff e r.high k
  have hlow' := r.step_le_unit_iff e r.low k
  have hhigh' := r.unit_le_step_iff e r.high k
  unfold contains Covers
  split
  · simp only [Bool.and_eq_true, decide_eq_true_eq, hlow, hhigh]
  · simp only [Bool.and_eq_true, decide_eq_true_eq, ← not_le, hlow', hhigh']

end Comparison

section Shortest

theorem contains_of_nearest? {tie : Tie} {e : Int} {d : Decimal} (h : r.nearest? tie e = some d) :
    r.contains d.digits d.exponent = true := by
  unfold nearest? at h
  dsimp only at h
  split at h
  · next hbelow habove =>
    split at h
    · cases h
      exact hbelow
    · split at h
      · cases h
        exact habove
      · split at h
        · cases h
          exact hbelow
        · cases h
          exact habove
  · next hbelow _ =>
    cases h
    exact hbelow
  · next _ habove =>
    cases h
    exact habove
  · cases h

theorem covers_of_nearest? {tie : Tie} {e : Int} {d : Decimal} (h : r.nearest? tie e = some d) :
    r.Covers d.value :=
  (contains_iff r d.digits d.exponent).mp (contains_of_nearest? h)

theorem value_exact (r : Rounding) :
    value ⟨r.significand * Nat.pow 5 (-r.scale).toNat * Nat.pow 2 r.scale.toNat, min r.scale 0⟩ =
      r.significand * 2 ^ r.scale := by
  simp only [value, Nat.pow_eq]
  push_cast
  rcases Int.le_total 0 r.scale with hs | hs
  · have hfive : (-r.scale).toNat = 0 := by omega
    have htwo : ((r.scale.toNat : Nat) : Int) = r.scale := Int.toNat_of_nonneg hs
    rw [min_eq_right hs, hfive, ← zpow_natCast 2, htwo]
    ring
  · have htwo : r.scale.toNat = 0 := by omega
    have hten : (10 : ℚ) ^ r.scale = 5 ^ r.scale * 2 ^ r.scale := by
      rw [← mul_zpow]
      norm_num
    have hfive : (5 : ℚ) ^ (-r.scale).toNat * 5 ^ r.scale = 1 := by
      rw [mul_comm, zpow_mul_pow_toNat (by norm_num), htwo, pow_zero]
    rw [min_eq_left hs, htwo, hten]
    linear_combination (r.significand * 2 ^ r.scale : ℚ) * hfive

theorem zpow_scale (r : Rounding) : (2 : ℚ) ^ r.scale = 4 * 2 ^ r.quarter := by
  rw [quarter, zpow_sub₀ (by norm_num)]
  ring

theorem covers_self (h : 0 < r.significand) : r.Covers (r.significand * 2 ^ r.scale) := by
  have hmiddle : (r.significand : ℚ) * 2 ^ r.scale = (4 * r.significand : Nat) * 2 ^ r.quarter := by
    rw [zpow_scale]
    push_cast
    ring
  have hpos : (0 : ℚ) < 2 ^ r.quarter := by positivity
  have hlow : r.low < 4 * r.significand := by
    unfold low
    split <;> omega
  have hhigh : 4 * r.significand < r.high := by
    unfold high
    omega
  have hlow' : (r.low : ℚ) * 2 ^ r.quarter < (4 * r.significand : Nat) * 2 ^ r.quarter :=
    mul_lt_mul_of_pos_right (Nat.cast_lt.mpr hlow) hpos
  have hhigh' : ((4 * r.significand : Nat) : ℚ) * 2 ^ r.quarter < r.high * 2 ^ r.quarter :=
    mul_lt_mul_of_pos_right (Nat.cast_lt.mpr hhigh) hpos
  rw [hmiddle]
  unfold Covers
  split
  · exact ⟨hlow'.le, hhigh'.le⟩
  · exact ⟨hlow', hhigh'⟩

theorem covers_search (h : 0 < r.significand) (tie : Tie) {e : Int} {n : Nat}
    (he : e - n = min r.scale 0) : r.Covers (r.search tie e n).value := by
  induction n generalizing e with
  | zero =>
    rw [search]
    cases hnearest : r.nearest? tie e with
    | some d => exact covers_of_nearest? hnearest
    | none =>
      obtain rfl : e = min r.scale 0 := by omega
      rw [Option.getD_none, value_exact]
      exact covers_self h
  | succ n ih =>
    rw [search]
    cases hnearest : r.nearest? tie e with
    | some d => exact covers_of_nearest? hnearest
    | none => exact ih (by omega)

theorem reaches_iff (r : Rounding) (e : Int) :
    r.reaches e = true ↔ (10 : ℚ) ^ e ≤ r.significand * 2 ^ r.scale := by
  have h := r.step_le_unit_iff e r.middle 1
  rw [one_mul, Nat.cast_one, one_mul] at h
  rw [reaches, decide_eq_true_iff, h, zpow_scale, middle]
  push_cast
  ring_nf

theorem zpow_log2_le (h : 0 < r.significand) :
    (2 : ℚ) ^ (r.scale + r.significand.log2) ≤ r.significand * 2 ^ r.scale := by
  have hlog : ((2 ^ r.significand.log2 : Nat) : ℚ) ≤ r.significand :=
    Nat.cast_le.mpr (Nat.log2_self_le h.ne')
  rw [add_comm, zpow_add₀ (by norm_num), zpow_natCast]
  push_cast at hlog
  gcongr

/-- The estimate of the magnitude is not so far off that the search begins behind its end. -/
theorem min_scale_le_magnitude (h : 0 < r.significand) : min r.scale 0 ≤ r.magnitude := by
  have hlead := zpow_log2_le h
  have hone : 0 ≤ r.scale → r.reaches 0 = true := by
    intro hs
    rw [reaches_iff, zpow_zero]
    exact (one_le_zpow₀ (by norm_num) (by omega)).trans hlead
  have hhalf : r.scale + r.significand.log2 = -1 → r.reaches (-1) = true := by
    intro hs
    rw [hs] at hlead
    rw [reaches_iff]
    exact le_trans (by norm_num) hlead
  unfold magnitude
  dsimp only
  split
  · omega
  · split
    · omega
    · next hnot =>
      have hzero : 0 ≤ r.scale → (r.scale + r.significand.log2) * 30103 / 100000 ≠ 0 :=
        fun hs he ↦ hnot (he ▸ hone hs)
      have hminus : r.scale + r.significand.log2 = -1 →
          (r.scale + r.significand.log2) * 30103 / 100000 ≠ -1 :=
        fun hs he ↦ hnot (he ▸ hhalf hs)
      omega

/-- The shortest decimal rounds to the number. -/
theorem covers_shortest (h : 0 < r.significand) (tie : Tie) : r.Covers (r.shortest tie).value := by
  have hle := min_scale_le_magnitude h
  exact covers_search h tie (by omega)

end Shortest

end Rds.Decimal.Rounding
